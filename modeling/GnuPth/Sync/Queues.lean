import GnuPth.Sync.Lists
import GnuPth.Sync.MutexProtocol

/-!
# Where the parked threads are

In a run over lists in which no thread parks while it is still on another
list, the control point of a thread says which queue it can be on, and the
private chain of a releasing thread is what its local variable points to.
-/

namespace GnuPth

open Function (update)
open Transition
open Placement

/-- No thread parks while it is on a private chain, and the cleanup handler of
`pth_cond_await` does not park while it is still on the queue of the condition. -/
def SafeStep (s : State WaitLists) (a : Act) : Prop :=
  ∀ t, a = .step t → parks s t →
    (∀ u, t ∉ s.store (.chain u)) ∧
    ∀ m tryonly extra c, (s.tcb t).pc = .mutexEnter m tryonly extra (.handler c) →
      t ∉ s.store (.queue (.cond c))

structure Placed (s : State WaitLists) : Prop where
  queued : ∀ q, ∀ t ∈ s.store (.queue q), (s.tcb t).pc.parkedOn = some q
  chains : ∀ u, (s.tcb u).pc.ChainIs (s.store (.chain u))
  linear : Linear s.store

/-! ### What each operation on the queues keeps -/

section
variable {home : Tid → SchedId}

theorem Placed.notMem (hp : Placed s) (hq : (s.tcb t).pc.parkedOn ≠ some q) :
    t ∉ s.store (.queue q) :=
  fun ht => hq (hp.queued q t ht)

/-- What remains to be shown about a step of `t`: the lists are still linear,
no other thread was added to a queue, no other chain was touched, and `t`
itself is where it should be. -/
theorem Placed.of_step (hp : Placed s) (h : Step home listOps s a s') (ha : a.actor = some t)
    (hlin : Linear s'.store)
    (hsub : ∀ q, ∀ u ∈ s'.store (.queue q), u = t ∨ u ∈ s.store (.queue q))
    (hch : ∀ u, u ≠ t → s'.store (.chain u) = s.store (.chain u))
    (hq : ∀ q, t ∈ s'.store (.queue q) → (s'.tcb t).pc.parkedOn = some q)
    (hc : (s'.tcb t).pc.ChainIs (s'.store (.chain t))) : Placed s' := by
  refine ⟨fun q u hu => ?_, fun u => ?_, hlin⟩
  · by_cases hut : u = t
    · subst hut; exact hq q hu
    · rw [h.tcb_of_ne ha hut]
      exact hp.queued q u ((hsub q u hu).resolve_left hut)
  · by_cases hut : u = t
    · subst hut; exact hc
    · rw [h.tcb_of_ne ha hut, hch u hut]
      exact hp.chains u

theorem Placed.stay (hp : Placed s) (h : Step home listOps s a s') (ha : a.actor = some t)
    (hs : s'.store = s.store)
    (hq : ∀ q, t ∈ s.store (.queue q) → (s'.tcb t).pc.parkedOn = some q)
    (hc : (s'.tcb t).pc.ChainIs (s.store (.chain t))) : Placed s' := by
  refine hp.of_step h ha ?_ ?_ ?_ ?_ ?_
  all_goals rw [hs]
  · exact hp.linear
  · exact fun q u hu => .inr hu
  · exact fun u _ => rfl
  · exact hq
  · exact hc

theorem Placed.park (hp : Placed s) (h : Step home listOps s a s') (ha : a.actor = some t)
    (hf : s.store.Free t) (hs : s'.store = update s.store (.queue q) (s.store (.queue q) ++ [t]))
    (hq : (s'.tcb t).pc.parkedOn = some q) (hc : (s'.tcb t).pc.ChainIs (s.store (.chain t))) :
    Placed s' := by
  refine hp.of_step h ha ?_ ?_ ?_ ?_ ?_
  all_goals rw [hs]
  · exact hp.linear.append hf
  · intro q' u hu
    by_cases hqq : q' = q
    · subst hqq
      have hu : u ∈ s.store (.queue q') ∨ u = t := by simpa using hu
      exact hu.symm
    · exact .inr (by simpa [hqq] using hu)
  · exact fun u _ => by simp
  · intro q' ht
    by_cases hqq : q' = q
    · rw [hqq]; exact hq
    · exact absurd (by simpa [hqq] using ht) (hf (.queue q'))
  · simpa using hc

theorem Placed.drop (hp : Placed s) (h : Step home listOps s a s') (ha : a.actor = some t)
    (hx : xs.Sublist (s.store (.queue q)))
    (hs : s'.store = update s.store (.queue q) xs)
    (hq : ∀ q', t ∈ update s.store (.queue q) xs (.queue q') → (s'.tcb t).pc.parkedOn = some q')
    (hc : (s'.tcb t).pc.ChainIs (s.store (.chain t))) : Placed s' := by
  refine hp.of_step h ha ?_ ?_ ?_ ?_ ?_
  all_goals rw [hs]
  · exact hp.linear.sublist hx
  · intro q' u hu
    by_cases hqq : q' = q
    · subst hqq
      exact .inr (hx.subset (by simpa using hu))
    · exact .inr (by simpa [hqq] using hu)
  · exact fun u _ => by simp
  · exact hq
  · simpa using hc

theorem Placed.erase_free (hp : Placed s) (hq : (s.tcb t).pc.parkedOn = some q) (q' : QueueId) :
    t ∉ update s.store (.queue q) ((s.store (.queue q)).erase t) (.queue q') := by
  by_cases hqq : q' = q
  · subst hqq
    simpa using (hp.linear.nodup (.queue q')).not_mem_erase
  · have hne : (s.tcb t).pc.parkedOn ≠ some q' := by
      rw [hq]
      exact fun he => hqq (Option.some.inj he).symm
    simpa [hqq] using hp.notMem hne

theorem Placed.remove (hp : Placed s) (h : Step home listOps s a s') (ha : a.actor = some t)
    (hpc : (s.tcb t).pc.parkedOn = some q)
    (hs : s'.store = update s.store (.queue q) ((s.store (.queue q)).erase t))
    (hc : (s'.tcb t).pc.ChainIs (s.store (.chain t))) : Placed s' :=
  hp.drop h ha List.erase_sublist hs (fun q' ht => absurd ht (hp.erase_free hpc q')) hc

theorem Placed.repark (hp : Placed s) (h : Step home listOps s a s') (ha : a.actor = some t)
    (hpc : (s.tcb t).pc.parkedOn = some q) (hf : ∀ u, t ∉ s.store (.chain u))
    (hs : s'.store = update s.store (.queue q) ((s.store (.queue q)).erase t ++ [t]))
    (hq : (s'.tcb t).pc.parkedOn = some q)
    (hc : (s'.tcb t).pc.ChainIs (s.store (.chain t))) : Placed s' := by
  have hfree : WaitLists.Free (update s.store (.queue q) ((s.store (.queue q)).erase t)) t := by
    rintro (q' | u)
    · exact hp.erase_free hpc q'
    · simpa using hf u
  refine hp.of_step h ha ?_ ?_ ?_ ?_ ?_
  all_goals rw [hs]
  · have := (hp.linear.sublist List.erase_sublist).append (i := .queue q) hfree
    simpa using this
  · intro q' u hu
    by_cases hqq : q' = q
    · subst hqq
      have hu : u ∈ (s.store (.queue q')).erase t ∨ u = t := by simpa using hu
      exact hu.symm.imp id List.mem_of_mem_erase
    · exact .inr (by simpa [hqq] using hu)
  · exact fun u _ => by simp
  · intro q' ht
    by_cases hqq : q' = q
    · rw [hqq]; exact hq
    · exact absurd (by simpa [hqq] using ht) (hp.erase_free hpc q')
  · simpa using hc

theorem Placed.herd (hp : Placed s) (h : Step home listOps s a s') (ha : a.actor = some t)
    (hpc : (s.tcb t).pc.parkedOn = none)
    (hs : s'.store = update (update s.store (.queue q) []) (.chain t) (s.store (.queue q)).reverse)
    (hc : (s'.tcb t).pc.ChainIs (s.store (.queue q)).reverse) : Placed s' := by
  refine hp.of_step h ha ?_ ?_ ?_ ?_ ?_
  all_goals rw [hs]
  · exact hp.linear.transfer (List.reverse_perm _)
  · intro q' u hu
    by_cases hqq : q' = q
    · subst hqq; simp at hu
    · exact .inr (by simpa [hqq] using hu)
  · exact fun u hu => by simp [hu]
  · intro q' ht
    by_cases hqq : q' = q
    · subst hqq; simp at ht
    · have hn : t ∉ s.store (.queue q') := hp.notMem (by simp [hpc])
      exact absurd (by simpa [hqq] using ht) hn
  · simpa using hc

theorem Placed.unchain (hp : Placed s) (h : Step home listOps s a s') (ha : a.actor = some t)
    (hpc : (s.tcb t).pc.parkedOn = none)
    (hs : s'.store = update s.store (.chain t) (s.store (.chain t)).tail)
    (hc : (s'.tcb t).pc.ChainIs (s.store (.chain t)).tail) : Placed s' := by
  refine hp.of_step h ha ?_ ?_ ?_ ?_ ?_
  all_goals rw [hs]
  · exact hp.linear.sublist (List.tail_sublist _)
  · exact fun q' u hu => .inr (by simpa using hu)
  · exact fun u hu => by simp [hu]
  · intro q' ht
    have hn : t ∉ s.store (.queue q') := hp.notMem (by simp [hpc])
    exact absurd (by simpa using ht) hn
  · simpa using hc

end

/-! ### Steps -/

section
variable {home : Tid → SchedId}

theorem Placed.chains_nil (hp : Placed s) (hpc : (s.tcb t).pc.Idle) : s.store (.chain t) = [] :=
  hpc.chainIs.mp (hp.chains t)

theorem Placed.parks_free (hp : Placed s) (hsafe : SafeStep s (.step t)) (hk : parks s t)
    (hfrom : (s.tcb t).pc.parkedOn = none ∨
      ∃ m tryonly extra c, (s.tcb t).pc = .mutexEnter m tryonly extra (.handler c)) :
    s.store.Free t := by
  obtain ⟨hch, hcond⟩ := hsafe t rfl hk
  rintro (q | u)
  · intro ht
    have hpc := hp.queued q t ht
    rcases hfrom with hq | ⟨m, tryonly, extra, c, hm⟩
    · rw [hq] at hpc
      cases hpc
    · rw [hm] at hpc
      obtain rfl : QueueId.cond c = q := Option.some.inj hpc
      exact hcond m tryonly extra c hm ht
  · exact hch u

theorem StaysPut.parkedOn (hstay : StaysPut s s' a t) (hm : ∀ m, (mutexView m s).Ok) (hp : Placed s)
    (ht : t ∈ s.store (.queue q)) : (s'.tcb t).pc.parkedOn = some q := by
  have hpc := hp.queued q t ht
  rcases hstay with hn | ⟨hq, -⟩ | ⟨-, m, hl, ho⟩
  · rw [hn] at hpc
    cases hpc
  · rw [hq, hpc]
  · obtain rfl := Option.some.inj ((Pc.of_leaves hl).1.symm.trans hpc)
    exact absurd ht ((hm m).owner t ho)

/-- Of the two removals of `pth_rwlock_wait_cleanup` only the one from the queue
the thread parked on does anything. -/
theorem Placed.rwlockCleanup_store (hp : Placed s) (hpc : (s.tcb t).pc = .rwlockCleanup r op)
    (h₁ : listOps.remove s.store (.rwlockRw r) t = some (b₁, store₁))
    (h₂ : listOps.remove store₁ (.rwlockRd r) t = some (b₂, store₂)) :
    store₂ = update s.store (.queue (op.queue r)) ((s.store (.queue (op.queue r))).erase t) := by
  obtain ⟨-, rfl⟩ := listOps_remove.mp h₁
  obtain ⟨-, rfl⟩ := listOps_remove.mp h₂
  have hother : ∀ q, q ≠ op.queue r → (s.store (.queue q)).erase t = s.store (.queue q) := by
    intro q hq
    refine List.erase_of_not_mem (hp.notMem ?_)
    rw [hpc]
    exact fun he => hq (Option.some.inj he).symm
  cases op with
  | rd =>
    have hrw := hother (.rwlockRw r) (by simp [RwOp.queue])
    simp [RwOp.queue, hrw]
  | rw =>
    have hrd := hother (.rwlockRd r) (by simp [RwOp.queue])
    simp [RwOp.queue, hrd]

theorem Placed.step (hm : ∀ m, (mutexView m s).Ok) (hp : Placed s) (hsafe : SafeStep s a)
    (h : Step home listOps s a s') : Placed s' := by
  cases h.listStep with
  | drain hs =>
    subst hs
    exact ⟨hp.queued, hp.chains, hp.linear⟩
  | keep ha hs _ _ hstay hc =>
    exact hp.stay h ha hs (fun _ => hstay.parkedOn hm hp) (hc (hp.chains _))
  | park hk hq hfrom hs _ hb =>
    refine hp.park h rfl (hp.parks_free hsafe hk hfrom) hs hb.parkedOn ?_
    exact hb.idle.chainIs.mpr (hp.chains_nil (Pc.idle_of_parksOn hq))
  | repark hk hq hl hs _ hb =>
    refine hp.repark h rfl (Pc.of_leaves hl).1 (hsafe _ rfl hk).1 hs hb.parkedOn ?_
    exact hb.idle.chainIs.mpr (hp.chains_nil (Pc.idle_of_parksOn hq))
  | leave hl hs _ _ hpc' =>
    obtain ⟨hpk, -, hpc⟩ := Pc.of_leaves hl
    exact hp.remove h rfl hpk hs (hpc'.chainIs.mpr (hp.chains_nil hpc))
  | leaveBoth hpc h₁ h₂ _ _ hpc' =>
    refine hp.remove h rfl (by rw [hpc]; rfl) (hp.rwlockCleanup_store hpc h₁ h₂) ?_
    rw [hpc']
    exact hp.chains_nil (by rw [hpc]; trivial)
  | @shift t w ws k hpc hpc' hq hs _ _ hstay =>
    have hsub : ws.Sublist (s.store (.queue k.queue)) := by
      rw [hq]
      exact List.sublist_cons_self _ _
    refine hp.drop h rfl hsub hs (fun q ht => hstay.parkedOn hm hp ?_) ?_
    · by_cases hqq : q = k.queue
      · subst hqq
        exact hsub.subset (by simpa using ht)
      · simpa [hqq] using ht
    · rw [hpc', PostThen.source_chainIs hpc]
      exact hp.chains_nil (PostThen.source_idle hpc)
  | herd hpc hpc' hs => exact hp.herd h rfl (by rw [hpc]; rfl) hs (by rw [hpc']; rfl)
  | @unchain t r w chain hpc hpc' hs =>
    refine hp.unchain h rfl (by rw [hpc]; rfl) hs ?_
    have hch := hp.chains t
    rw [hpc] at hch
    obtain ⟨ws, hws, rfl⟩ := hch
    rw [hpc', hws]
    rfl
  | @die t hpc hpc' _ hs =>
    refine hp.drop h rfl (List.nil_sublist _) hs (fun q ht => ?_) ?_
    · by_cases hq : q = .join t
      · subst hq; simp at ht
      · exact absurd (by simpa [hq] using ht) (hp.notMem (t := t) (q := q) (by rw [hpc]; nofun))
    · rw [hpc']
      exact hp.chains_nil (by rw [hpc]; trivial)

theorem placed_initial (cfg : Config) : Placed (initial (fun _ => []) cfg) := by
  refine ⟨fun q t ht => ?_, fun u => rfl, fun i => List.nodup_nil, fun {i j t} ht => ?_⟩
  · cases ht
  · cases ht

theorem placed_reachable (h : Reachable ((listSystem home).restrict SafeStep) s) : Placed s := by
  induction h with
  | init h =>
    obtain ⟨cfg, rfl⟩ := h
    exact placed_initial cfg
  | step hr hs ih => exact ih.step (fun m => mutexView_ok hr.of_restrict) hs.1 hs.2

end

end GnuPth
