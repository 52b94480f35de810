import GnuPth.Sync.Control
import GnuPth.Sync.Lists

/-!
# Queues and wakeups

`QueueStep` is all that a step can do to one wait queue. Whoever takes the head
of the queue goes on to post its wakeup, so a thread that waits for a lock and
is no longer queued has a wakeup coming (`Wakeups`).
-/

namespace GnuPth

open Function (update update_self)
open Transition

variable {s' : State WaitLists}

/-! ### Queues -/

inductive QueueStep (s s' : State WaitLists) (a : Act) (q : QueueId) : Prop
  | same (h : s'.store (.queue q) = s.store (.queue q))
  | push {t : Tid} (ha : a = .step t) (hq : (s.tcb t).pc.parksOn = some q)
      (h : s'.store (.queue q) = s.store (.queue q) ++ [t])
  | drop {t : Tid} (ha : a = .step t) (h : s'.store (.queue q) = (s.store (.queue q)).erase t)
  | repush {t : Tid} (ha : a = .step t) (hq : (s.tcb t).pc.parksOn = some q)
      (h : s'.store (.queue q) = (s.store (.queue q)).erase t ++ [t])
  | pop {t w : Tid} {k : PostThen} (ha : a = .step t) (hpc : (s'.tcb t).pc = .post w k)
      (h : s.store (.queue q) = w :: s'.store (.queue q))
  | flush (hq : (∃ r, q = .rwlockRd r) ∨ ∃ tid, q = .join tid) (h : s'.store (.queue q) = [])

theorem QueueStep.of_update (hs : s'.store = update s.store (.queue q') ws)
    (h : q' = q → s'.store (.queue q) = ws → QueueStep s s' a q) : QueueStep s s' a q := by
  by_cases hq : q' = q
  · subst hq
    exact h rfl (by simp [hs])
  · exact .same (by simp [hs, Ne.symm hq])

theorem Step.queueStep (h : Step home listOps s a s') (q : QueueId) : QueueStep s s' a q := by
  cases h.listStep with
  | drain hs | keep _ hs => exact .same (by rw [hs])
  | park _ hq _ hs =>
    refine .of_update hs fun he h => .push rfl (hq.trans (congrArg some he)) ?_
    rw [h, he]
  | repark _ hq _ hs =>
    refine .of_update hs fun he h => .repush rfl (hq.trans (congrArg some he)) ?_
    rw [h, he]
  | leave _ hs => exact .of_update hs fun hq h => .drop rfl (by rw [h, hq])
  | @leaveBoth t r op b₁ b₂ store₁ hpc h₁ h₂ =>
    obtain ⟨-, rfl⟩ := listOps_remove.mp h₁
    obtain ⟨-, hs⟩ := listOps_remove.mp h₂
    -- the two queues are different, so each is dropped from once
    by_cases hq : q = .rwlockRw r ∨ q = .rwlockRd r
    · refine .drop rfl ?_
      rcases hq with rfl | rfl <;> simp [hs]
    · obtain ⟨hw, hr⟩ := not_or.mp hq
      exact .same (by simp [hs, hw, hr])
  | shift _ hpc' hws hs => exact .of_update hs fun hq h => .pop rfl hpc' (by rw [h, ← hq, hws])
  | @herd t r _ _ hs =>
    by_cases hq : q = .rwlockRd r
    · exact .flush (.inl ⟨r, hq⟩) (by simp [hs, hq])
    · exact .same (by simp [hs, hq])
  | unchain _ _ hs => exact .same (by simp [hs])
  | die _ _ _ hs => exact .of_update hs fun hq h => .flush (.inr ⟨_, hq.symm⟩) h

/-- Whoever gets to post a wakeup has taken the thread off the head of the
queue, or it was the next one of a chain of readers. -/
theorem Step.to_post (h : Step home listOps s a s') (ha : a.actor = some t)
    (hpc' : (s'.tcb t).pc = .post w k) :
    (s.tcb t).pc = .post w k ∨
    (a = .step t ∧ s.store (.queue k.queue) = w :: s'.store (.queue k.queue) ∧
      (s'.tcb t).wqEvent = (s.tcb t).wqEvent) ∨
    ∃ r chain, (s.tcb t).pc = .herdClear r w chain ∧ k = .herd r chain := by
  have hhand : (s'.tcb t).pc.hand ≠ [] := by simp [hpc', Pc.hand]
  cases h.listStep with
  | drain => cases ha
  | keep ha' _ _ hm =>
    cases ha.symm.trans ha'
    cases hm with
    | none _ hh =>
      rcases hh with hh | ⟨-, hh⟩
      · exact .inl (hh.symm.trans hpc')
      · exact absurd hh hhand
    | wake _ _ hh | reap _ _ hh => exact absurd hh hhand
  | park _ _ _ _ _ hb | repark _ _ _ _ _ hb =>
    cases ha
    exact absurd hb.idle.hand hhand
  | leave _ _ _ _ hpc =>
    cases ha
    exact absurd hpc.hand hhand
  | shift _ hpc hq hs _ he =>
    cases ha
    cases hpc.symm.trans hpc'
    exact .inr (.inl ⟨rfl, by simp [hs, hq], he⟩)
  | unchain hpc hpc₁ =>
    cases ha
    cases hpc₁.symm.trans hpc'
    exact .inr (.inr ⟨_, _, hpc, rfl⟩)
  | leaveBoth _ _ _ _ _ hpc | herd _ hpc | die _ hpc =>
    cases ha
    cases hpc.symm.trans hpc'

/-! ### Wakeups -/

section
variable {s' : State σ}

theorem Step.inbox_mono (h : Step home ops s a s') (ha : a.actor = some u) (g : SchedId) :
    s.inbox g <+: s'.inbox g := by
  cases h with
  | drain => cases ha
  | @post t w =>
    by_cases hg : g = home w
    · subst hg; simp
    · simp [hg]
  | @joinReap t tid =>
    by_cases hg : g = home tid
    · subst hg; simp
    · simp [hg]
  | die => exact List.prefix_append _ _
  | _ => exact List.prefix_rfl

/-- The post reads `wq_event` when it is made; a change of the attributes of the
poster may come first. -/
theorem Step.posts (h : Step home ops s a s') (hpc : (s.tcb u).pc = .post t k)
    (ha : a.actor = some u) :
    .wake t (s.tcb t).wqEvent ∈ s'.inbox (home t) ∨ (s'.tcb u).pc = .post t k := by
  cases h with
  | drain => cases ha
  | setJoinable =>
    cases ha
    exact .inr (by simpa using hpc)
  | call hr hpc' he =>
    obtain rfl := Option.some.inj (ha.symm.trans (Act.entry_actor he))
    simp [hpc] at hpc'
  | _ =>
    cases ha
    simp_all [runnable, Pc.waitsFor]

end

def Pc.lockWait : Pc → Option (QueueId × EventKey)
  | .mutexWait m _ _ => some (.mutex m, .mutex)
  | .rwlockWait r .rw _ => some (.rwlockRw r, .rwlockRw)
  | _ => none

theorem Pc.lockWait_eq_some {pc : Pc} :
    pc.lockWait = some (q, key) ↔
      (∃ m extra k, pc = .mutexWait m extra k ∧ q = .mutex m ∧ key = .mutex) ∨
      ∃ r extra, pc = .rwlockWait r .rw extra ∧ q = .rwlockRw r ∧ key = .rwlockRw := by
  constructor
  · intro h
    unfold Pc.lockWait at h
    split at h <;> cases h
    · exact .inl ⟨_, _, _, rfl, rfl, rfl⟩
    · exact .inr ⟨_, _, rfl, rfl, rfl⟩
  · rintro (⟨m, extra, k, rfl, rfl, rfl⟩ | ⟨r, extra, rfl, rfl, rfl⟩) <;> rfl

/-- A wakeup of `t` is about to be posted, or in its inbox, or delivered. -/
def WakeComing {σ : Type} (home : Tid → SchedId) (s : State σ) (t : Tid) (key : EventKey) : Prop :=
  (∃ u k, (s.tcb u).pc = .post t k) ∨ .wake t (some key) ∈ s.inbox (home t) ∨
    (s.tcb t).status key ≠ .pending

structure Wakeups (home : Tid → SchedId) (s : State WaitLists) : Prop where
  event : ∀ {t q key}, (s.tcb t).pc.lockWait = some (q, key) → (s.tcb t).wqEvent = some key
  coming : ∀ {t q key}, (s.tcb t).pc.lockWait = some (q, key) → t ∉ s.store (.queue q) →
    WakeComing home s t key

section
variable {s : State WaitLists}

theorem WakeComing.of_update (hw : WakeComing home s t key) (hpc : b.pc = (s.tcb t).pc)
    (hst : b.status = (s.tcb t).status) :
    WakeComing home { s with tcb := update s.tcb t b } t key := by
  rcases hw with ⟨u, k, hu⟩ | hin | hs
  · refine .inl ⟨u, k, ?_⟩
    by_cases hut : u = t
    · subst hut
      simpa [hpc] using hu
    · simpa [hut] using hu
  · exact .inr (.inl hin)
  · exact .inr (.inr (by simpa [hst] using hs))

theorem WakeComing.step (hw : WakeComing home s t key) (h : Step home listOps s a s')
    (he : (s.tcb t).wqEvent = some key) (ht : a.actor ≠ some t) : WakeComing home s' t key := by
  cases ha : a.actor with
  | some v =>
    rw [ha] at ht
    have hv : t ≠ v := by rintro rfl; exact ht rfl
    rcases hw with ⟨u, k, hu⟩ | hin | hst
    · by_cases huv : u = v
      · subst huv
        rcases h.posts hu ha with hp | hp
        · rw [he] at hp
          exact .inr (.inl hp)
        · exact .inl ⟨u, k, hp⟩
      · exact .inl ⟨u, k, by rw [h.tcb_of_ne ha huv]; exact hu⟩
    · exact .inr (.inl ((h.inbox_mono ha _).subset hin))
    · exact .inr (.inr (by rwa [h.tcb_of_ne ha hv]))
  | none =>
    cases h with
    | call hr hpc he => rw [Act.entry_actor he] at ha; cases ha
    | @drain g hg =>
      rcases hw with ⟨u, k, hu⟩ | hin | hst
      · exact .inl ⟨u, k, hu⟩
      · by_cases hg : home t = g
        · subst hg
          exact .inr (.inr (by simp [hin]))
        · exact .inr (.inl (by simpa [hg] using hin))
      · exact .inr (.inr (((s.tcb t).drainsTo_drained _ t).status key hst))
    | _ => cases ha

theorem Pc.woken_lockWait (pc : Pc) : pc.woken.lockWait = none := by
  cases pc <;> rfl

theorem Pc.unwound_lockWait (pc : Pc) : pc.unwound.lockWait = none := by
  cases pc <;> rfl

theorem AcquireFrom.pc_lockWait (k : AcquireFrom) : (k.pc m).lockWait = none := by
  cases k <;> rfl

theorem ReleaseFrom.ReturnsTo.lockWait {k : ReleaseFrom}
    (h : k.ReturnsTo m pc) : pc.lockWait = none :=
  h.elim rfl (fun _ _ => rfl) rfl (fun _ _ => rfl)

theorem PostThen.ReturnsTo.lockWait {k : PostThen} (h : k.ReturnsTo pc) :
    pc.lockWait = none :=
  h.elim rfl (fun _ _ _ => rfl) rfl (fun _ _ => rfl) (fun _ _ => rfl) (fun _ => rfl)

theorem Step.lockWait (h : Step home listOps s a s') (ha : a.actor = some t)
    (hw : (s'.tcb t).pc.lockWait = some (q, key)) :
    (s'.tcb t).wqEvent = some key ∧ t ∈ s'.store (.queue q) ∨
      (∃ b, s' = { s with tcb := update s.tcb t b } ∧ b.pc = (s.tcb t).pc ∧
        b.wqEvent = (s.tcb t).wqEvent ∧ b.status = (s.tcb t).status) := by
  cases h with
  | drain => cases ha
  | fire | cancel | abort | abortDead | setJoinable =>
    cases ha
    exact .inr ⟨_, rfl, rfl, rfl, rfl⟩
  | mutexPark | mutexRepark =>
    cases ha
    left
    simp_all [Pc.lockWait]
  | @rwlockPark _ r op | @rwlockRepark _ r op =>
    cases ha
    left
    cases op <;> simp_all [Pc.lockWait, RwOp.key, RwOp.queue]
  | resume =>
    cases ha
    simp [Pc.woken_lockWait] at hw
  | unwind | cancelAsync =>
    cases ha
    simp [Pc.unwound_lockWait] at hw
  | acquireFail | take | recurse | grant | mutexTimeout | retake =>
    cases ha
    simp [AcquireFrom.pc_lockWait] at hw
  | call hr hpc he =>
    obtain rfl := Option.some.inj (ha.symm.trans (Act.entry_actor he))
    simp only [State.goto_pc] at hw
    cases a <;> cases he <;> cases hw
  | exit hr hpc hp =>
    cases ha
    obtain rfl | ⟨rn, rfl⟩ := hp
    all_goals simp [Pc.lockWait] at hw
  | releaseFail hr hpc ho hb | unlock hr hpc hn hs hb | unrecurse hr hpc hn hb | post hr hpc hb =>
    cases ha
    simp [hb.lockWait] at hw
  | condDequeue hr hpc hrem =>
    cases ha
    obtain ⟨-, rfl⟩ | ⟨-, rfl⟩ := hpc
    all_goals simp [Pc.lockWait] at hw
  | _ =>
    cases ha
    simp_all [Pc.lockWait]

theorem Step.dequeued (h : Step home listOps s a s') (hw : (s.tcb t).pc.lockWait = some (q, key))
    (ht : a.actor ≠ some t) (hq : t ∈ s.store (.queue q)) (hq' : t ∉ s'.store (.queue q)) :
    ∃ u k, (s'.tcb u).pc = .post t k := by
  have hne : ∀ u, a = .step u → t ≠ u := by
    rintro u rfl rfl
    exact ht rfl
  cases h.queueStep q with
  | same he => exact absurd (he ▸ hq) hq'
  | push ha _ he => exact absurd (by simp [he, hq]) hq'
  | drop ha he | repush ha _ he =>
    exact absurd (by simp [he, List.mem_erase_of_ne (hne _ ha), hq]) hq'
  | pop ha hpc he =>
    rw [he] at hq
    obtain rfl : t = _ := (List.mem_cons.mp hq).resolve_right hq'
    exact ⟨_, _, hpc⟩
  | flush hf he =>
    rcases Pc.lockWait_eq_some.mp hw with ⟨m, _, _, -, rfl, -⟩ | ⟨r, _, -, rfl, -⟩
    all_goals simp at hf

theorem Wakeups.step (inv : Wakeups home s) (h : Step home listOps s a s') : Wakeups home s' := by
  constructor
  · intro t q key hw
    by_cases ht : a.actor = some t
    · rcases h.lockWait ht hw with ⟨he, -⟩ | ⟨b, rfl, hpc, he, -⟩
      · exact he
      · simp only [update_self, hpc, he] at hw ⊢
        exact inv.event hw
    · rw [(h.drainsTo ht).wqEvent]
      rw [h.pc_of_ne ht] at hw
      exact inv.event hw
  · intro t q key hw hq
    by_cases ht : a.actor = some t
    · rcases h.lockWait ht hw with ⟨-, hmem⟩ | ⟨b, rfl, hpc, he, hst⟩
      · exact absurd hmem hq
      · simp only [update_self, hpc] at hw
        exact (inv.coming hw hq).of_update hpc hst
    · rw [h.pc_of_ne ht] at hw
      by_cases hq' : t ∈ s.store (.queue q)
      · exact .inl (h.dequeued hw ht hq' hq)
      · exact (inv.coming hw hq').step h (inv.event hw) ht

theorem wakeups (h : Reachable (listSystem home) s) : Wakeups home s := by
  refine h.invariant ?_ fun s a s' inv hs => inv.step hs
  rintro _ ⟨cfg, rfl⟩
  constructor <;> (intro t q key hw; cases hw)

end

end GnuPth
