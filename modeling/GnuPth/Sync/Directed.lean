import GnuPth.Sync.Tokens
import GnuPth.Sync.Wakeups

/-!
# Directed wakeups

A thread that takes another one off a wait queue reads the event to set from
the control block of that thread only when it posts the wakeup, after it has
left the critical section of the queue. If no thread parks while somebody has
still to post its wakeup, the message names the event that the thread was
parked with on that queue.
-/

namespace GnuPth

open Function (update)
open Transition

/-- The read-write lock whose readers a thread at this point wakes one by one. -/
def Pc.herds : Pc → Option RwlockId
  | .herdWalk r _ | .herdClear r _ _ | .post _ (.herd r _) => some r
  | _ => none

@[simp] theorem Pc.herds_woken (pc : Pc) : pc.woken.herds = pc.herds := by cases pc <;> rfl

@[simp] theorem Pc.herds_unwound (pc : Pc) : pc.unwound.herds = pc.herds := by cases pc <;> rfl

/-- `r` has taken `w` off `q` and has still to post its wakeup. -/
inductive Carries (s : State WaitLists) (r w : Tid) : QueueId → Prop
  | hand {k : PostThen} (hpc : (s.tcb r).pc = .post w k) : Carries s r w k.queue
  | chain {x : RwlockId} (hx : (s.tcb r).pc.herds = some x) (hw : w ∈ s.store (.chain r)) :
      Carries s r w (.rwlockRd x)

/-! ### What a step does to the threads taken -/

section
variable {s s' : State WaitLists}

theorem Step.chain_of_ne (h : Step home listOps s a s') (ha : a.actor ≠ some r) :
    s'.store (.chain r) = s.store (.chain r) := by
  have hne : ∀ t, a = .step t → r ≠ t := by
    rintro t rfl rfl
    exact ha rfl
  cases h.listStep with
  | drain hs => rw [hs]
  | keep _ hs => rw [hs]
  | park _ _ _ hs | repark _ _ _ hs | leave _ hs | shift _ _ _ hs | die _ _ _ hs => simp [hs]
  | leaveBoth _ h₁ h₂ =>
    obtain ⟨-, rfl⟩ := listOps_remove.mp h₁
    obtain ⟨-, hs⟩ := listOps_remove.mp h₂
    simp [hs]
  | herd _ _ hs | unchain _ _ hs => simp [hs, hne _ rfl]

theorem ReleaseFrom.ReturnsTo.herds {k : ReleaseFrom}
    (h : k.ReturnsTo m pc) : pc.herds = none :=
  h.elim rfl (fun _ _ => rfl) rfl (fun _ _ => rfl)

/-- A thread is on a private chain after a step if it was before, or if the step
moved the waiting readers there. -/
theorem Step.to_chain (h : Step home listOps s a s') (hx : (s'.tcb r).pc.herds = some x)
    (hw : w ∈ s'.store (.chain r)) :
    ((s.tcb r).pc.herds = some x ∧ w ∈ s.store (.chain r)) ∨
    (a = .step r ∧ w ∈ s.store (.queue (.rwlockRd x)) ∧ s'.store (.queue (.rwlockRd x)) = [] ∧
      (s'.tcb r).wqEvent = (s.tcb r).wqEvent) := by
  by_cases ha : a.actor = some r
  case neg =>
    rw [h.pc_of_ne ha] at hx
    rw [h.chain_of_ne ha] at hw
    exact .inl ⟨hx, hw⟩
  cases h with
  | drain => cases ha
  | @herd t r' op chain store₁ store₂ hr hpc hl hs hh =>
    cases ha
    obtain ⟨-, rfl⟩ := listOps_shift_none.mp hs
    obtain ⟨-, rfl⟩ := listOps_herd.mp hh
    obtain rfl : r' = x := by simpa [Pc.herds] using hx
    exact .inr ⟨rfl, by simpa using hw, by simp, by simp⟩
  | herdNext hr hpc =>
    cases ha
    obtain rfl : _ = x := by simpa [Pc.herds] using hx
    exact .inl ⟨by rw [hpc]; rfl, hw⟩
  | herdClear hr hpc =>
    cases ha
    obtain rfl : _ = x := by simpa [Pc.herds] using hx
    exact .inl ⟨by rw [hpc]; rfl, by simpa using List.mem_of_mem_tail (by simpa using hw)⟩
  | @post t w' k b g hr hpc hb =>
    cases ha
    simp only [Function.update_self] at hx
    cases k with
    | herd r' chain =>
      rw [show b.pc = .herdWalk r' chain from hb] at hx
      exact .inl ⟨by rw [hpc]; exact hx, hw⟩
    | release => simp [ReleaseFrom.ReturnsTo.herds hb] at hx
    | unwind | rwlockRelease =>
      rw [show b.pc = .app from hb] at hx
      cases hx
    | notify c broadcast =>
      rw [show b.pc = if broadcast then .notify c broadcast else .app from hb] at hx
      split at hx <;> cases hx
  | releaseFail hr hpc ho hb | unlock hr hpc hn hs hb | unrecurse hr hpc hn hb =>
    cases ha
    simp [hb.herds] at hx
  | dispatch | yield | setfair | setfairFail | joinFail | cancelPoint | fire | cancel | abort
  | abortDead | setJoinable | cancelState | cancelActed | resume | unwind | cancelAsync =>
    cases ha
    exact .inl ⟨by simpa using hx, hw⟩
  | call hr hpc he =>
    obtain rfl := Option.some.inj (ha.symm.trans (Act.entry_actor he))
    rw [State.goto_pc] at hx
    cases a <;> cases he <;> cases hx
  | exit hr hpc hp =>
    cases ha
    obtain rfl | ⟨rn, rfl⟩ := hp
    all_goals simp [Pc.herds] at hx
  | @acquireFail _ _ _ _ k | @take _ _ _ _ k | @recurse _ _ _ _ k | @grant _ _ _ k
  | @mutexTimeout _ _ _ k | @retake _ _ _ k =>
    cases ha
    cases k <;> simp [AcquireFrom.pc, Pc.herds] at hx
  | condDequeue hr hpc =>
    cases ha
    rcases hpc with ⟨-, rfl⟩ | ⟨-, rfl⟩ <;> simp [Pc.herds] at hx
  | _ =>
    cases ha
    simp [Pc.herds] at hx

/-- What a step does to the events that threads are parked with, and whom it
puts onto a queue. -/
inductive ParkStep (s s' : State WaitLists) (a : Act) : Prop
  | none (he : ∀ u, (s'.tcb u).wqEvent = (s.tcb u).wqEvent)
      (hq : ∀ q u, u ∈ s'.store (.queue q) → u ∈ s.store (.queue q))
  | park {t : Tid} {q : QueueId} (ha : a = .step t) (hp : parks s t) (hin : t ∈ s'.store (.queue q))
      (he : (s'.tcb t).wqEvent = some q.key)
      (hq : ∀ q' u, u ∈ s'.store (.queue q') → u ∈ s.store (.queue q') ∨ u = t ∧ q' = q)

theorem mem_update_queue {l : WaitLists}
    (hu : u ∈ update l (.queue q) ws (.queue q')) : u ∈ l (.queue q') ∨ q' = q ∧ u ∈ ws := by
  by_cases hq : q' = q
  · subst hq
    exact .inr ⟨rfl, by simpa using hu⟩
  · exact .inl (by simpa [hq] using hu)

theorem ParkStep.of_drop (he : ∀ u, (s'.tcb u).wqEvent = (s.tcb u).wqEvent)
    (hs : s'.store = update s.store (.queue q) ws) (hws : ∀ u ∈ ws, u ∈ s.store (.queue q)) :
    ParkStep s s' a := by
  refine .none he fun q' u hu => ?_
  rcases mem_update_queue (hs ▸ hu) with hu | ⟨rfl, hu⟩
  · exact hu
  · exact hws u hu

theorem ParkStep.of_park (hp : parks s t)
    (hs : s'.store = update s.store (.queue q) (ws ++ [t])) (hws : ∀ u ∈ ws, u ∈ s.store (.queue q))
    (he : (s'.tcb t).wqEvent = some q.key) : ParkStep s s' (.step t) := by
  refine .park rfl hp (by simp [hs]) he fun q' u hu => ?_
  rcases mem_update_queue (hs ▸ hu) with hu | ⟨rfl, hu⟩
  · exact .inl hu
  · rcases List.mem_append.mp hu with hu | hu
    · exact .inl (hws u hu)
    · exact .inr ⟨List.mem_singleton.mp hu, rfl⟩

theorem Step.parkStep (h : Step home listOps s a s') : ParkStep s s' a := by
  cases h.listStep with
  | drain hs =>
    subst hs
    exact .none (fun u => rfl) (fun _ _ h => h)
  | keep ha hs he => exact .none (h.wqEvent_of_eq ha he) (by simp [hs])
  | park hp _ _ hs _ hb => exact .of_park hp hs (fun _ h => h) hb.wqEvent
  | repark hp _ _ hs _ hb => exact .of_park hp hs (fun _ => List.mem_of_mem_erase) hb.wqEvent
  | leave _ hs _ he => exact .of_drop (h.wqEvent_of_eq rfl he) hs fun _ => List.mem_of_mem_erase
  | @leaveBoth t r op b₁ b₂ store₁ _ h₁ h₂ _ he =>
    obtain ⟨-, rfl⟩ := listOps_remove.mp h₁
    obtain ⟨-, hs⟩ := listOps_remove.mp h₂
    refine .none (h.wqEvent_of_eq rfl he) fun q' u hu => ?_
    have hsub : ∀ (l : WaitLists) q, u ∈ update l (.queue q) ((l (.queue q)).erase t) (.queue q') →
        u ∈ l (.queue q') := by
      intro l q hu
      rcases mem_update_queue hu with hu | ⟨rfl, hu⟩
      · exact hu
      · exact List.mem_of_mem_erase hu
    exact hsub _ _ (hsub _ _ (hs ▸ hu))
  | shift _ _ hq hs _ he =>
    refine .of_drop (h.wqEvent_of_eq rfl he) hs fun u hu => ?_
    rw [hq]
    exact List.mem_cons_of_mem _ hu
  | @herd t r _ _ hs _ he =>
    refine .none (h.wqEvent_of_eq rfl he) fun q' u hu => ?_
    have hu : u ∈ update s.store (.queue (.rwlockRd r)) [] (.queue q') := by simpa [hs] using hu
    exact (mem_update_queue hu).resolve_right (by simp)
  | unchain _ _ hs _ he => exact .none (h.wqEvent_of_eq rfl he) (by simp [hs])
  | die _ _ _ hs _ he => exact .of_drop (h.wqEvent_of_eq rfl he) hs (by simp)

/-- A thread that has still to be woken was so before the step, or the step has
taken it off its queue. -/
theorem Carries.of_step (hp : Placed s) (h : Step home listOps s a s') (hc : Carries s' r w q) :
    Carries s r w q ∨
    (a = .step r ∧ w ∈ s.store (.queue q) ∧ w ∉ s'.store (.queue q) ∧
      (s'.tcb r).wqEvent = (s.tcb r).wqEvent) := by
  cases hc with
  | @hand k hpc' =>
    by_cases ha : a.actor = some r
    case neg =>
      rw [h.pc_of_ne ha] at hpc'
      exact .inl (.hand hpc')
    rcases h.to_post ha hpc' with hpc | ⟨ha, hq, he⟩ | ⟨x, chain, hpc, rfl⟩
    · exact .inl (.hand hpc)
    · have hnd := hp.linear.nodup (.queue k.queue)
      rw [hq] at hnd
      exact .inr ⟨ha, by rw [hq]; exact List.mem_cons_self, (List.nodup_cons.mp hnd).1, he⟩
    · have hch := hp.chains r
      rw [hpc] at hch
      obtain ⟨rest, hws, -⟩ := hch
      exact .inl (.chain (by rw [hpc]; rfl) (by rw [hws]; exact List.mem_cons_self))
  | chain hx hw =>
    rcases h.to_chain hx hw with ⟨hx, hw⟩ | ⟨ha, hw, hnil, he⟩
    · exact .inl (.chain hx hw)
    · exact .inr ⟨ha, hw, by simp [hnil], he⟩

theorem Step.posted (h : Step home listOps s a s') (hin : s'.inbox g = s.inbox g ++ msgs)
    (hm : .wake w ev ∈ msgs) :
    ∃ r, a = .step r ∧ ev = (s.tcb w).wqEvent ∧
      ((∃ k, (s.tcb r).pc = .post w k) ∨
        w ∈ s.store (.queue (.join r)) ∧ s'.store (.queue (.join r)) = []) := by
  have hsame : s'.inbox g ≠ s.inbox g := by
    intro he
    rw [he] at hin
    rw [List.self_eq_append_right.mp hin] at hm
    cases hm
  cases h with
  | @drain g' =>
    by_cases hg : g = g'
    · subst hg
      have hnil : s.inbox g ++ msgs = [] := by simpa using hin.symm
      rw [(List.append_eq_nil_iff.mp hnil).2] at hm
      cases hm
    · simp [hg] at hsame
  | @post r w' k b g' hr hpc =>
    by_cases hg : g = home w'
    · subst hg
      have hmsgs : [.wake w' (s.tcb w').wqEvent] = msgs := by simpa using hin
      rw [← hmsgs] at hm
      obtain ⟨rfl, rfl⟩ : w = w' ∧ ev = (s.tcb w').wqEvent := by simpa using hm
      exact ⟨r, rfl, rfl, .inl ⟨k, hpc⟩⟩
    · simp [hg] at hsame
  | @joinReap t tid =>
    by_cases hg : g = home tid
    · subst hg
      have hmsgs : [.reap tid] = msgs := by simpa using hin
      rw [← hmsgs] at hm
      simp at hm
    · simp [hg] at hsame
  | @die r ws store hr hpc hj hs =>
    obtain ⟨rfl, rfl⟩ := listOps_shiftAll.mp hs
    have hmsgs : _ = msgs := List.append_cancel_left hin
    rw [← hmsgs] at hm
    obtain ⟨w', hw, he⟩ := List.mem_map.mp hm
    cases he
    exact ⟨r, rfl, rfl, .inr ⟨(List.mem_filter.mp hw).1, by simp⟩⟩
  | _ => exact absurd rfl hsame

end

/-! ### The event at the time of the dequeue -/

/-- For the threads `r` and `w` and a queue, the event that `w` was parked with
when `r` last took it off that queue. -/
abbrev Taken := Tid → QueueId → Tid → Option EventKey

def Takes (s : State WaitLinks) (a : Act) (s' : State WaitLinks) (r : Tid) (q : QueueId) (w : Tid) :
    Prop :=
  a = .step r ∧ OnList s w (.queue q) ∧ ¬OnList s' w (.queue q)

open Classical in
noncomputable def noteTaken (took : Taken) (s : State WaitLinks) (a : Act) (s' : State WaitLinks) :
    Taken :=
  fun r q w => if Takes s a s' r q w then (s.tcb w).wqEvent else took r q w

noncomputable def takenSystem (home : Tid → SchedId) : System (State WaitLinks × Taken) Act :=
  (pthSystem home).history (fun _ _ _ => none) noteTaken

/-- No thread parks while another one has taken it off a queue and has still to
post its wakeup. -/
def DirectSafe (s : State WaitLinks) (a : Act) : Prop :=
  LinkSafe s a ∧ ∀ t, a = .step t → parks s t → ∀ r k, (s.tcb r).pc ≠ .post t k

structure Directed (s : State WaitLists) (took : Taken) : Prop where
  queued : ∀ {q w}, w ∈ s.store (.queue q) → (s.tcb w).wqEvent = some q.key
  carried : ∀ {r w q}, Carries s r w q →
    (s.tcb w).wqEvent = some q.key ∧ took r q w = some q.key

section
variable {home : Tid → SchedId}

theorem Directed.queued_step (hd : Directed s took) (hp' : Placed s')
    (h : Step home listOps s a s') (hw : w ∈ s'.store (.queue q)) :
    (s'.tcb w).wqEvent = some q.key := by
  cases h.parkStep with
  | none he hq => rw [he, hd.queued (hq q w hw)]
  | @park t q' ha _ hin he hq =>
    by_cases hwt : w = t
    · -- the thread that parks is on one queue only afterwards
      subst hwt
      obtain rfl : q = q' := by simpa using hp'.linear.unique hw hin
      exact he
    · subst ha
      rw [h.tcb_of_ne rfl hwt]
      exact hd.queued ((hq q w hw).resolve_right fun hx => hwt hx.1)

theorem Carries.wqEvent_eq (hc : Carries s r w q) (hsafe : SafeStep s a)
    (hpost : ∀ t, a = .step t → parks s t → ∀ r k, (s.tcb r).pc ≠ .post t k)
    (h : Step home listOps s a s') : (s'.tcb w).wqEvent = (s.tcb w).wqEvent := by
  cases h.parkStep with
  | none he => exact he w
  | @park t q' ha hk =>
    subst ha
    refine congrArg Tcb.wqEvent (h.tcb_of_ne rfl ?_)
    rintro rfl
    cases hc with
    | hand hpc => exact hpost w rfl hk r _ hpc
    | chain _ hw => exact (hsafe w rfl hk).1 r hw

theorem Directed.step (hd : Directed s took) (hp : Placed s) (hp' : Placed s')
    (hsafe : SafeStep s a)
    (hpost : ∀ t, a = .step t → parks s t → ∀ r k, (s.tcb r).pc ≠ .post t k)
    (h : Step home listOps s a s')
    (htook : ∀ r q w, a = .step r ∧ w ∈ s.store (.queue q) ∧ w ∉ s'.store (.queue q) →
      took' r q w = (s.tcb w).wqEvent)
    (hkept : ∀ r q w, ¬(a = .step r ∧ w ∈ s.store (.queue q) ∧ w ∉ s'.store (.queue q)) →
      took' r q w = took r q w) : Directed s' took' := by
  refine ⟨hd.queued_step hp' h, fun {r w q} hc => ?_⟩
  rcases hc.of_step hp h with hc | ⟨ha, hq, hq', he⟩
  · obtain ⟨he, ht⟩ := hd.carried hc
    refine ⟨by rw [hc.wqEvent_eq hsafe hpost h, he], ?_⟩
    by_cases hnew : a = .step r ∧ w ∈ s.store (.queue q) ∧ w ∉ s'.store (.queue q)
    · rw [htook r q w hnew, he]
    · rw [hkept r q w hnew, ht]
  · have hev := hd.queued hq
    refine ⟨?_, by rw [htook r q w ⟨ha, hq, hq'⟩, hev]⟩
    rw [h.wqEvent_of_eq (by rw [ha]; rfl) he, hev]

end

section
variable {s : State WaitLinks}

theorem takes_iff (hr : Refines s l) (hl : Reachable ((listSystem home).restrict SafeStep) l)
    (hr' : Refines s' l') (hl' : Reachable ((listSystem home).restrict SafeStep) l') :
    Takes s a s' r q w ↔ a = .step r ∧ w ∈ l.store (.queue q) ∧ w ∉ l'.store (.queue q) := by
  rw [Takes, hr.onList hl, hr'.onList hl']

theorem noteTaken_of_takes (h : Takes s a s' r q w) :
    noteTaken took s a s' r q w = (s.tcb w).wqEvent := if_pos h

theorem noteTaken_of_not_takes (h : ¬Takes s a s' r q w) :
    noteTaken took s a s' r q w = took r q w := if_neg h

theorem directed_simulates (home : Tid → SchedId) :
    Simulates ((takenSystem home).restrict fun p a => DirectSafe p.1 a)
      ((listSystem home).restrict SafeStep) fun p l => Refines p.1 l ∧ Directed l p.2 where
  init := by
    rintro p ⟨hi, -⟩
    obtain ⟨l, hl, hr⟩ := (refines home).init p.1 hi
    refine ⟨l, hl, hr, ?_⟩
    obtain ⟨cfg, rfl⟩ := hl
    refine ⟨fun hw => ?_, fun hc => ?_⟩
    · cases hw
    · cases hc with
      | hand hpc => cases hpc
      | chain hx => cases hx
  step := by
    rintro p l a p' hreach hl ⟨hr, hd⟩ ⟨hsafe, hstep, hnote⟩
    have hlink := hreach.of_history.mono fun _ _ _ h => h.1
    obtain ⟨l', hstep', hr'⟩ := (refines home).step _ _ _ _ hlink hl hr ⟨hsafe.1, hstep⟩
    have hl' := Reachable.step hl hstep'
    refine ⟨l', hstep', hr', ?_⟩
    refine hd.step (placed_reachable hl) (placed_reachable hl') hstep'.1 ?_ hstep'.2 ?_ ?_
    · rw [hr.1]
      exact hsafe.2
    · intro r q w h
      rw [hnote, noteTaken_of_takes ((takes_iff hr hl hr' hl').mpr h), hr.tcb]
    · intro r q w h
      rw [hnote, noteTaken_of_not_takes (mt (takes_iff hr hl hr' hl').mp h)]

theorem leaves_of_parks (h : parks s t) :
    (s.tcb t).pc.parkedOn = none ∨ ∃ q, (s.tcb t).pc.leaves = some q := by
  unfold parks at h
  split at h
  · rename_i k hpc
    rw [hpc]
    cases k with
    | handler => exact .inr ⟨_, rfl⟩
    | _ => exact .inl rfl
  · rename_i hpc
    exact .inr ⟨_, by rw [hpc]; rfl⟩
  · rename_i hpc
    exact .inl (by rw [hpc]; rfl)
  · rename_i hpc
    exact .inl (by rw [hpc]; rfl)
  · rename_i hpc
    exact .inr ⟨_, by rw [hpc]; rfl⟩
  · rename_i hpc
    exact .inl (by rw [hpc]; rfl)
  · exact h.elim

/-- `WakeSafe` is stricter: a thread whose wakeup is under way is in a wait, and
it does not come out of it to park again. -/
theorem WakeSafe.directSafe (h : Reachable ((pthSystem home).restrict WakeSafe) s)
    (hs : WakeSafe s a) : DirectSafe s a := by
  refine ⟨hs.1, fun t ha hk r k hpc => ?_⟩
  obtain ⟨l, hl, hr, htok, -⟩ := tokens_of_reachable h
  have hin : t ∈ places l (.hand r) := by simp [hr.tcb, hpc, Pc.hand]
  have ht : TimelyStep l (.step t) := ha ▸ hs.2.1.lists hr hl
  rcases leaves_of_parks hk with hq | ⟨q, hq⟩
  · exact not_expects_of_parkedOn (by rwa [hr.tcb]) (htok.expects hin)
  · cases htok.leaves ht (by rwa [hr.tcb]) hin

/-- In every run in which no thread parks while its wakeup has still to be
posted, each wakeup carries the event that the thread was parked with on the
queue it was taken off, at the time it was taken off. -/
theorem wakes_directed {g : SchedId} {msgs : List Msg} {ev : Option EventKey}
    (h : Reachable ((takenSystem home).restrict fun p a => DirectSafe p.1 a) p)
    (hstep : ((takenSystem home).restrict fun p a => DirectSafe p.1 a).step p a p')
    (hin : p'.1.inbox g = p.1.inbox g ++ msgs) (hm : .wake w ev ∈ msgs) :
    ∃ r q, a = .step r ∧
      ((∃ k, (p.1.tcb r).pc = .post w k ∧ k.queue = q) ∨ Takes p.1 a p'.1 r q w) ∧
      ev = p'.2 r q w ∧ ev = some q.key := by
  obtain ⟨l, hl, hr, hd⟩ := (directed_simulates home).reachable h
  obtain ⟨l', hstep', hr', -⟩ := (directed_simulates home).step _ _ _ _ h hl ⟨hr, hd⟩ hstep
  have hl' := Reachable.step hl hstep'
  have hnote : p'.2 = noteTaken p.2 p.1 a p'.1 := hstep.2.2
  rw [← hr.inbox, ← hr'.inbox] at hin
  obtain ⟨r, ha, rfl, ⟨k, hpc⟩ | ⟨hq, hnil⟩⟩ := hstep'.2.posted hin hm
  · -- the thread was taken earlier
    obtain ⟨he, ht⟩ := hd.carried (.hand hpc)
    refine ⟨r, k.queue, ha, .inl ⟨k, by rwa [← hr.tcb], rfl⟩, ?_, he⟩
    rw [hnote]
    by_cases hk : Takes p.1 a p'.1 r k.queue w
    · rw [noteTaken_of_takes hk, hr.tcb]
    · rw [noteTaken_of_not_takes hk, ht, he]
  · -- the joiners of a dying thread are taken and woken in one step
    have hk : Takes p.1 a p'.1 r (.join r) w :=
      (takes_iff hr hl hr' hl').mpr ⟨ha, hq, by simp [hnil]⟩
    exact ⟨r, .join r, ha, .inr hk, by rw [hnote, noteTaken_of_takes hk, hr.tcb], hd.queued hq⟩

/-- The releasing thread takes the waiter off the mutex and posts its wakeup. -/
theorem wakes_directed_release :
    ∃ p p' : State WaitLinks × Taken, p'.1.inbox 0 = p.1.inbox 0 ++ [.wake 2 (some .mutex)] ∧
      ∃ r q, some .mutex = p'.2 r q 2 ∧ some .mutex = some q.key := by
  let run := runOf staysParked .plain (fun _ => 0) 5
    [.dispatch 1, .acquire 1 0 false false, .step 1, .yield 1,
      .dispatch 2, .acquire 2 0 false false, .step 2, .dispatch 1, .release 1 0, .step 1, .step 1,
      .step 1] rfl
  have hs := run.reachable (i := 11) (by simp)
  have hw := hs.mono fun _ _ => staysParked_safe
  obtain ⟨took, h⟩ := (hw.mono fun _ _ h => WakeSafe.directSafe h).exists_history
  have hstep : ((takenSystem fun _ => 0).restrict fun p a => DirectSafe p.1 a).step (run.state 11, took)
      (.step 1) (run.state 12, noteTaken took (run.state 11) (.step 1) (run.state 12)) :=
    ⟨WakeSafe.directSafe hw (staysParked_safe hs rfl), ⟨5, rfl⟩, rfl⟩
  have hin : (run.state 12).inbox 0 = (run.state 11).inbox 0 ++ [.wake 2 (some .mutex)] := rfl
  obtain ⟨r, q, -, -, hq, hk⟩ := wakes_directed h hstep hin List.mem_cons_self
  exact ⟨(run.state 11, took), _, hin, r, q, hq, hk⟩

theorem taken_kept
    (run : Run ((pthSystem home).restrict P) n) (h : Reachable (takenSystem home) (run.state i, took))
    (hn : i + k ≤ n) (hne : ∀ l, i ≤ l → l < i + k → run.act l ≠ .step r) :
    ∃ took', Reachable (takenSystem home) (run.state (i + k), took') ∧ ∀ q w, took' r q w = took r q w := by
  induction k with
  | zero => exact ⟨took, h, fun _ _ => rfl⟩
  | succ k ih =>
    obtain ⟨took', h', hk⟩ := ih (by omega) fun l hl hlk => hne l hl (by omega)
    refine ⟨noteTaken took' (run.state (i + k)) (run.act (i + k)) (run.state (i + k + 1)),
      .step h' ⟨(run.step (i + k) hn).2, rfl⟩, fun q w => ?_⟩
    refine (noteTaken_of_not_takes fun ht => ?_).trans (hk q w)
    exact hne (i + k) (by omega) (by omega) ht.1

/-- A waiter that has been taken off the queue of a mutex times out and parks on
a condition before its wakeup is posted: the wakeup sets the event of the
condition. -/
theorem wake_misdirected :
    ∃ home p p', Reachable (takenSystem home) p ∧ (takenSystem home).step p (.step 2) p' ∧
      (p.1.tcb 2).pc = .post 1 (.release 0 .app) ∧
      p'.1.inbox 0 = p.1.inbox 0 ++ [.wake 1 (some .cond)] ∧
      p'.2 2 (.mutex 0) 1 = some .mutex := by
  let run := runOf (fun _ _ => true) .plain (fun t => if t = 2 then 1 else 0) 5
    [.dispatch 2, .acquire 2 0 false false, .step 2, .dispatch 1, .acquire 1 1 false false, .step 1,
      .acquire 1 0 false true, .step 1, .release 2 0, .step 2, .step 2,
      .fire 1, .resume 1, .step 1, .await 1 0 1 false, .step 1, .step 2] rfl
  obtain ⟨took₁, hr₁⟩ := (run.reachable (i := 10) (by simp)).exists_history
  have hr₂ : Reachable (takenSystem _)
      (run.state 11, noteTaken took₁ (run.state 10) (.step 2) (run.state 11)) :=
    .step hr₁.of_restrict ⟨⟨5, rfl⟩, rfl⟩
  obtain ⟨took₃, hr₃, hk⟩ := taken_kept (r := 2) (k := 5) run hr₂ (by simp) fun l hl hlk => by
    obtain rfl | rfl | rfl | rfl | rfl : l = 11 ∨ l = 12 ∨ l = 13 ∨ l = 14 ∨ l = 15 := by omega
    all_goals nofun
  refine ⟨_, _, (run.state 17, noteTaken took₃ (run.state 16) (.step 2) (run.state 17)), hr₃,
    ⟨⟨5, rfl⟩, rfl⟩, rfl, rfl, ?_⟩
  have htake : Takes (run.state 10) (.step 2) (run.state 11) 2 (.mutex 0) 1 := ⟨rfl, .here 1, nofun⟩
  have hlast : ¬Takes (run.state 16) (.step 2) (run.state 17) 2 (.mutex 0) 1 := fun h => nomatch h.2.1
  calc noteTaken took₃ (run.state 16) (.step 2) (run.state 17) 2 (.mutex 0) 1
    _ = took₃ 2 (.mutex 0) 1 := noteTaken_of_not_takes hlast
    _ = noteTaken took₁ (run.state 10) (.step 2) (run.state 11) 2 (.mutex 0) 1 := hk _ _
    _ = ((run.state 10).tcb 1).wqEvent := noteTaken_of_takes htake
    _ = some .mutex := rfl

end

end GnuPth
