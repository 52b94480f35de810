import GnuPth.Sync.Queues
import GnuPth.Sync.Control

/-!
# The pointers implement the lists

A run of the code over pointers, in which no thread parks while its link is in
use, is step by step a run of the rules over lists with the same actions and
the same state outside the wait queues (`refines`).
-/

namespace GnuPth

open Function (update)
open Transition
open Intrusive

variable {σ : Type}

def State.withStore (s : State σ) (p : τ) : State τ :=
  { tcb := s.tcb, mutex := s.mutex, cond := s.cond, rwlock := s.rwlock, store := p
    inbox := s.inbox, active := s.active, rings := s.rings, log := s.log }

section
variable {s : State σ} {p : τ}

theorem withStore_goto : (s.goto t pc).withStore p = (s.withStore p).goto t pc := rfl

theorem withStore_emit : (s.emit o).withStore p = (s.withStore p).emit o := rfl

theorem withStore_setMutex : (s.setMutex m x).withStore p = (s.withStore p).setMutex m x := rfl

theorem withStore_ringAdd : (s.ringAdd t m).withStore p = (s.withStore p).ringAdd t m := rfl

theorem withStore_ringDel : (s.ringDel t m).withStore p = (s.withStore p).ringDel t m := rfl

theorem withStore_setStore : (s.setStore store).withStore p = s.withStore p := rfl

theorem setStore_withStore : (s.withStore p).setStore p' = s.withStore p' := rfl

theorem withStore_setRwlock :
    (s.setRwlock r x).withStore p = (s.withStore p).setRwlock r x := rfl

theorem withStore_sleep :
    (s.sleep home t key pc).withStore p = (s.withStore p).sleep home t key pc := rfl

theorem withStore_enqueue :
    (s.enqueue t ops key q).withStore (ops'.append p q t) = (s.withStore p).enqueue t ops' key q :=
  rfl

theorem withStore_mutexTake : (mutexTake s t m).withStore p = mutexTake (s.withStore p) t m := rfl

theorem withStore_acquireReturn :
    (acquireReturn s t m k r).withStore p = acquireReturn (s.withStore p) t m k r := rfl

end

/-! ### Operations -/

section
variable {p : WaitLinks}

theorem Represents.shift_eq (h : Represents p l)
    (hs : (linkOps fuel).shift p q = (o, p')) :
    ∃ l', listOps.shift l q = (o, l') ∧ Represents p' l' := by
  obtain ⟨ho, hr⟩ := h.shift
  rw [show waitqShift p q = (o, p') from hs] at ho hr
  exact ⟨_, Prod.ext ho.symm rfl, hr⟩

theorem Represents.remove_eq (h : Represents p l)
    (hs : (linkOps fuel).remove p q t = some (b, p')) :
    ∃ l', listOps.remove l q t = some (b, l') ∧ Represents p' l' := by
  obtain ⟨hb, hr⟩ := h.remove (show waitqRemove fuel p q t = _ from hs)
  exact ⟨_, listOps_remove.mpr ⟨hb, rfl⟩, hr⟩

theorem Represents.shiftAll_eq (h : Represents p l)
    (hs : (linkOps fuel).shiftAll p q = some (ws, p')) :
    ∃ l', listOps.shiftAll l q = some (ws, l') ∧ Represents p' l' := by
  obtain ⟨hw, hr⟩ := h.shiftAll fuel (show waitqShiftAll q fuel p = _ from hs)
  exact ⟨_, listOps_shiftAll.mpr ⟨hw, rfl⟩, hr⟩

theorem Represents.herd_eq (h : Represents p l) (hnil : l (.chain t) = [])
    (hs : (linkOps fuel).herd p t q = some (c, p')) :
    ∃ l', listOps.herd l t q = some (c, l') ∧ Represents p' l' := by
  obtain ⟨hc, hr⟩ := h.herd hnil (show herdReaders q fuel p none = _ from hs)
  exact ⟨_, listOps_herd.mpr ⟨hc, rfl⟩, hr⟩

end

/-! ### One step -/

section
variable {s : State WaitLinks}

theorem parks_free (hp : Placed (s.withStore l)) (hsafe : SafeStep (s.withStore l) (.step t))
    (hk : parks s t) (hq : (s.tcb t).pc.parkedOn = none ∨
      ∃ m tryonly extra c, (s.tcb t).pc = .mutexEnter m tryonly extra (.handler c)) :
    l.Free t :=
  hp.parks_free hsafe hk hq

theorem remove_free (hp : Placed (s.withStore l))
    (hsafe : SafeStep (s.withStore l) (.step t)) (hk : parks s t)
    (hrem : listOps.remove l q t = some (b, l')) (hq : (s.tcb t).pc.parkedOn = some q) :
    l'.Free t := by
  obtain ⟨-, rfl⟩ := listOps_remove.mp hrem
  obtain ⟨hch, -⟩ := hsafe t rfl hk
  rintro (q' | u)
  · exact hp.erase_free hq q'
  · simpa [State.withStore] using hch u

theorem step_refines (hp : Placed (s.withStore l)) (hsafe : SafeStep (s.withStore l) a)
    (hrep : Represents s.store l) (h : Step home (linkOps fuel) s a s') :
    ∃ l', Step home listOps (s.withStore l) a (s'.withStore l') ∧ Represents s'.store l' := by
  cases h with
  | take hr hpc hi hl =>
    refine ⟨l, ?_, hrep⟩
    rw [withStore_acquireReturn, withStore_mutexTake]
    exact .take hr hpc hi hl
  | @mutexPark t m extra k hr hpc hi hl ho hf =>
    have hfree : l.Free t := by
      refine parks_free hp hsafe (by simp only [parks, hpc]; exact ⟨hi, hl, ho, trivial⟩) ?_
      cases k with
      | app | await => exact .inl (by rw [hpc]; rfl)
      | handler c => exact .inr ⟨m, false, extra, c, hpc⟩
    refine ⟨_, ?_, hrep.append hfree⟩
    rw [withStore_sleep, withStore_enqueue]
    exact .mutexPark hr hpc hi hl ho hf
  | grant hr hpc ho =>
    refine ⟨l, ?_, hrep⟩
    rw [withStore_acquireReturn, withStore_ringAdd]
    exact .grant hr hpc ho
  | mutexTimeout hr hpc ho hrem he | mutexLeave hr hpc ho hrem | condDequeue hr hpc hrem
  | rwlockTimeout hr hpc hrem he | rwlockReenter hr hpc hrem he ha | joinWoken hr hpc hrem =>
    obtain ⟨l', hrem, hrep⟩ := hrep.remove_eq hrem
    exact ⟨l', by constructor <;> assumption, hrep⟩
  | retake hr hpc ho hrem he hl =>
    obtain ⟨l', hrem, hrep⟩ := hrep.remove_eq hrem
    refine ⟨l', ?_, hrep⟩
    have hstep := Step.retake (s := s.withStore l) hr hpc ho hrem he hl
    rwa [setStore_withStore, ← withStore_mutexTake, ← withStore_acquireReturn] at hstep
  | @mutexRepark t m extra k b store hr hpc ho hrem he hl hf =>
    have hk : parks s t := by simp only [parks, hpc]; exact ⟨ho, hl, he⟩
    obtain ⟨l', hrem, hrep⟩ := hrep.remove_eq hrem
    have hfree := remove_free hp hsafe hk hrem (by rw [hpc]; rfl)
    refine ⟨_, ?_, hrep.append hfree⟩
    rw [withStore_sleep, withStore_enqueue, withStore_setStore, ← setStore_withStore (p := l)]
    exact .mutexRepark hr hpc ho hrem he hl hf
  | passOn hr hpc ho hs | passFree hr hpc ho hs | notifyNone hr hpc hi hs
  | notifyOne hr hpc hi hs | wakeWriter hr hpc hx hs =>
    obtain ⟨l', hs, hrep⟩ := hrep.shift_eq hs
    exact ⟨l', by constructor <;> assumption, hrep⟩
  | releaseCheck hr hpc hi hl ho => exact ⟨l, .releaseCheck hr hpc hi hl ho, hrep⟩
  | handoff hr hpc hn hs hf =>
    obtain ⟨l', hs, hrep⟩ := hrep.shift_eq hs
    refine ⟨l', ?_, hrep⟩
    have hstep := Step.handoff (s := s.withStore l) hr hpc hn hs hf
    rwa [← withStore_emit, setStore_withStore, ← withStore_setMutex, ← withStore_ringDel,
      ← withStore_goto] at hstep
  | wakeOne hr hpc hn hs hf =>
    obtain ⟨l', hs, hrep⟩ := hrep.shift_eq hs
    refine ⟨l', ?_, hrep⟩
    have hstep := Step.wakeOne (s := s.withStore l) hr hpc hn hs hf
    rwa [← withStore_emit, setStore_withStore, ← withStore_setMutex, ← withStore_ringDel,
      ← withStore_goto] at hstep
  | unlock hr hpc hn hs hb hc hg =>
    obtain ⟨l', hs, hrep⟩ := hrep.shift_eq hs
    exact ⟨l', .unlock (s := s.withStore l) hr hpc hn hs hb hc hg, hrep⟩
  | condPark hr hpc hi hf =>
    have hfree := parks_free hp hsafe (by simpa only [parks, hpc] using hi) (.inl (by rw [hpc]; rfl))
    exact ⟨_, .condPark hr hpc hi hf, hrep.append hfree⟩
  | rwlockPark hr hpc hi ha hf =>
    have hfree := parks_free hp hsafe (by simp only [parks, hpc]; exact ⟨hi, ha, trivial⟩)
      (.inl (by rw [hpc]; rfl))
    refine ⟨_, ?_, hrep.append hfree⟩
    rw [withStore_sleep, withStore_setRwlock, withStore_enqueue]
    exact .rwlockPark hr hpc hi ha hf
  | @rwlockRepark t r op extra b store hr hpc hrem he ha hf =>
    have hk : parks s t := by
      simp only [parks, hpc]
      exact ⟨Rwlock.admits_unwait.symm.trans ha, he⟩
    obtain ⟨l', hrem, hrep⟩ := hrep.remove_eq hrem
    have hfree := remove_free hp hsafe hk hrem (by rw [hpc]; rfl)
    refine ⟨_, ?_, hrep.append hfree⟩
    rw [withStore_sleep, withStore_setRwlock, withStore_enqueue, withStore_setStore,
      ← setStore_withStore (p := l)]
    exact .rwlockRepark hr hpc hrem he ha hf
  | rwlockCleanup hr hpc h₁ h₂ =>
    obtain ⟨l₁, h₁, hrep⟩ := hrep.remove_eq h₁
    obtain ⟨l₂, h₂, hrep⟩ := hrep.remove_eq h₂
    exact ⟨l₂, .rwlockCleanup hr hpc h₁ h₂, hrep⟩
  | @herd t r op chain store₁ store₂ hr hpc hx hs hh =>
    have hnil := hp.chains_nil (t := t) (by
      rw [show ((s.withStore l).tcb t).pc = _ from hpc]
      trivial)
    obtain ⟨l₁, hs, hrep₁⟩ := hrep.shift_eq hs
    have hl₁ : l₁ = l := (listOps_shift_none.mp hs).2
    obtain ⟨l₂, hh, hrep₂⟩ := hrep₁.herd_eq (by rw [hl₁]; exact hnil) hh
    exact ⟨l₂, .herd hr hpc hx hs hh, hrep₂⟩
  | herdDone hr hpc => exact ⟨l, .herdDone hr hpc, hrep⟩
  | @herdNext t r w hr hpc =>
    have hch := hp.chains t
    rw [show ((s.withStore l).tcb t).pc = _ from hpc] at hch
    obtain ⟨ws, hws⟩ := List.head?_eq_some_iff.mp (show _ = some w from hch.symm)
    have hnext : (linkOps fuel).chainNext s.store t w = listOps.chainNext l t w := by
      rw [listOps_chainNext, show l (.chain t) = w :: ws from hws]
      exact hrep.chainNext hws
    refine ⟨l, ?_, hrep⟩
    rw [hnext]
    exact .herdNext hr hpc
  | @herdClear t r w chain hr hpc =>
    have hch := hp.chains t
    rw [show ((s.withStore l).tcb t).pc = _ from hpc] at hch
    obtain ⟨ws, hws, rfl⟩ := hch
    have hclear := hrep.chainClear hws
    have hl : listOps.chainClear l t w = update l (.chain t) ws := by
      rw [listOps_chainClear, show l (.chain t) = w :: ws from hws, List.tail_cons]
    rw [← hl] at hclear
    exact ⟨_, .herdClear hr hpc, hclear⟩
  | joinPast hr hpc hd => exact ⟨l, .joinPast hr hpc hd, hrep⟩
  | joinPark hr hpc hd hf =>
    have hfree := parks_free hp hsafe (by simpa only [parks, hpc] using hd) (.inl (by rw [hpc]; rfl))
    exact ⟨_, .joinPark hr hpc hd hf, hrep.append hfree⟩
  | joinCleanup hr hpc hrem =>
    obtain ⟨l', hrem, hrep⟩ := hrep.remove_eq hrem
    exact ⟨l', .joinCleanup hr hpc hrem, hrep⟩
  | die hr hpc hj hs =>
    obtain ⟨l', hs, hrep⟩ := hrep.shiftAll_eq hs
    exact ⟨l', .die hr hpc hj hs, hrep⟩
  | _ => exact ⟨l, by constructor <;> assumption, hrep⟩

end

/-! ### Runs -/

/-- `t` is met when the links are followed from where the list starts: the head
of a wait queue, or the local variable of a thread in `pth_rwlock_release`. -/
def OnList (s : State WaitLinks) (t : Tid) : Slot → Prop
  | .queue q => Reaches s.store.wqNext (s.store.waitq q).head t
  | .chain u =>
    match (s.tcb u).pc with
    | .herdWalk _ chain | .post _ (.herd _ chain) => Reaches s.store.wqNext chain t
    | .herdClear _ w chain => t = w ∨ Reaches s.store.wqNext chain t
    | _ => False

/-- No thread parks while it is on a private chain of readers, and
`pth_cond_cleanup_handler` does not park on the mutex while the thread is still
on the queue of the condition. -/
def LinkSafe (s : State WaitLinks) (a : Act) : Prop :=
  ∀ t, a = .step t → parks s t →
    (∀ u, ¬OnList s t (.chain u)) ∧
    ∀ m tryonly extra c, (s.tcb t).pc = .mutexEnter m tryonly extra (.handler c) →
      ¬OnList s t (.queue (.cond c))

/-- A state over pointers and a state over lists that differ in nothing else. -/
def Refines (s : State WaitLinks) (l : State WaitLists) : Prop :=
  l = s.withStore l.store ∧ Represents s.store l.store

section
variable {s : State WaitLinks}

theorem onList_iff (hrep : Represents s.store l) (hp : Placed (s.withStore l)) (i : Slot) :
    OnList s t i ↔ t ∈ l i := by
  cases i with
  | queue q =>
    simp only [OnList, hrep.header q]
    exact (hrep.linked (.queue q)).reaches_iff
  | chain u =>
    have hch : (s.tcb u).pc.ChainIs (l (.chain u)) := hp.chains u
    have hl := hrep.linked (.chain u)
    simp only [OnList]
    split
    · rename_i hpc
      rw [hpc] at hch
      rw [show _ = (l (.chain u)).head? from hch]
      exact hl.reaches_iff
    · rename_i hpc
      rw [hpc] at hch
      rw [show _ = (l (.chain u)).head? from hch]
      exact hl.reaches_iff
    · rename_i hpc
      rw [hpc] at hch
      obtain ⟨ws, hws, rfl⟩ := hch
      rw [hws] at hl ⊢
      rw [hl.2.reaches_iff, List.mem_cons]
    · rename_i h₁ h₂ h₃
      have hnil : l (.chain u) = [] := by
        revert hch
        generalize (s.tcb u).pc = pc at h₁ h₂ h₃
        cases pc <;> simp_all [Pc.ChainIs]
      simp [hnil]

theorem LinkSafe.safeStep (h : LinkSafe s a) (hrep : Represents s.store l)
    (hp : Placed (s.withStore l)) : SafeStep (s.withStore l) a := by
  intro t ha hk
  obtain ⟨hch, hcond⟩ := h t ha hk
  refine ⟨fun u ht => hch u ((onList_iff hrep hp _).mpr ht), fun m tryonly extra c hpc ht => ?_⟩
  exact hcond m tryonly extra c hpc ((onList_iff hrep hp _).mpr ht)

end

section
variable {home : Tid → SchedId}

/-- Without `pth_cond_await` only the reader chains are left to watch. -/
theorem linkSafe_of_not_inAwait (hs : ∀ t, (s.tcb t).pc.inAwait = false)
    (hc : ∀ t, a = .step t → parks s t → ∀ u, ¬OnList s t (.chain u)) : LinkSafe s a := by
  refine fun t ha hk => ⟨hc t ha hk, fun m tryonly extra c hpc => ?_⟩
  have := hs t
  rw [hpc] at this
  cases this

theorem not_onList_chain (hs : (s.tcb u).pc.inRwlockRelease = false) :
    ¬OnList s t (.chain u) := by
  simp only [OnList]
  split <;> simp_all [Pc.inRwlockRelease]

/-- Programs without the calls that use private chains or park in a handler. -/
theorem linkSafe_of_calls (hP : ∀ s a, P s a →
      (∀ t c m extra, a ≠ .await t c m extra) ∧ ∀ t r, a ≠ .rwlockRelease t r)
    (h : Reachable ((pthSystem home).restrict P) s) (a : Act) : LinkSafe s a := by
  refine linkSafe_of_not_inAwait (not_inAwait (fun s a ha => (hP s a ha).1) h) fun t _ _ u => ?_
  exact not_onList_chain (not_inRwlockRelease (fun s a ha => (hP s a ha).2) h u)

theorem linkSafe_of_mutexOnly
    (hP : ∀ s a, P s a → a.mutexOnly = true) (s : State WaitLinks) (a : Act)
    (h : Reachable ((pthSystem home).restrict P) s) (_ : P s a) : LinkSafe s a := by
  refine linkSafe_of_calls (fun s a ha => ⟨?_, ?_⟩) h a
  · rintro t c m extra rfl
    cases hP _ _ ha
  · rintro t r rfl
    cases hP _ _ ha

end

theorem refines (home : Tid → SchedId) :
    Simulates ((pthSystem home).restrict LinkSafe) ((listSystem home).restrict SafeStep) Refines where
  init := by
    rintro s ⟨cfg, rfl⟩
    refine ⟨initial (fun _ => []) cfg, ⟨cfg, rfl⟩, rfl, fun i => trivial, fun q => rfl, ?_⟩
    exact (placed_initial cfg).linear
  step := by
    rintro s l a s' - hreach ⟨hl, hrep⟩ ⟨hsafe, fuel, hstep⟩
    have hp := placed_reachable hreach
    rw [hl] at hp ⊢
    have hsafe' := hsafe.safeStep hrep hp
    obtain ⟨l', hstep', hrep'⟩ := step_refines hp hsafe' hrep (exec_step hstep)
    exact ⟨_, ⟨hsafe', hstep'⟩, rfl, hrep'⟩

section
variable {home : Tid → SchedId}

theorem Refines.tcb (h : Refines s l) : l.tcb = s.tcb := by rw [h.1]; rfl

theorem Refines.inbox (h : Refines s l) : l.inbox = s.inbox := by rw [h.1]; rfl

theorem Refines.log (h : Refines s l) : l.log = s.log := by rw [h.1]; rfl

theorem Refines.cond (h : Refines s l) : l.cond = s.cond := by rw [h.1]; rfl

theorem Refines.mutex (h : Refines s l) : l.mutex = s.mutex := by rw [h.1]; rfl

theorem Refines.onList (h : Refines s l) (hl : Reachable ((listSystem home).restrict SafeStep) l)
    (i : Slot) : OnList s t i ↔ t ∈ l.store i := by
  have hp := placed_reachable hl
  rw [h.1] at hp
  exact onList_iff h.2 hp i

end

/-! ### Well-formed queues -/

/-- Following `wq_next` from `wq_head` visits the members of `xs` once each, in
this order, ends in `NULL`, and the last one is `wq_tail`. -/
structure WellFormed (p : WaitLinks) (q : QueueId) (xs : List Tid) : Prop where
  nodup : xs.Nodup
  linked : Linked p.wqNext xs
  header : p.waitq q = .ofList xs

theorem linkSafe_lists (h : Reachable ((pthSystem home).restrict LinkSafe) s) :
    ∃ l, Reachable ((listSystem home).restrict SafeStep) (s.withStore l) ∧
      Represents s.store l ∧ Placed (s.withStore l) := by
  obtain ⟨l, hl, he, hrep⟩ := (refines home).reachable h
  rw [he] at hl
  exact ⟨l.store, hl, hrep, placed_reachable hl⟩

/-- In every run whose steps are all link-safe, no thread is on two lists, and
every wait queue is well formed and holds exactly the threads that were
appended and not taken off since. -/
theorem links_ok {home : Tid → SchedId} {s : State WaitLinks}
    (h : Reachable ((pthSystem home).restrict LinkSafe) s) :
    (∀ t i j, OnList s t i → OnList s t j → i = j) ∧
    ∃ l, Reachable (listSystem home) (s.withStore l) ∧
      ∀ q, WellFormed s.store q (l (.queue q)) ∧
        ∀ t, OnList s t (.queue q) ↔ t ∈ l (.queue q) := by
  obtain ⟨l, hl, hrep, hp⟩ := linkSafe_lists h
  refine ⟨fun t i j hi hj => ?_, l, hl.of_restrict, fun q => ⟨?_, fun t => onList_iff hrep hp _⟩⟩
  · exact hrep.linear.unique ((onList_iff hrep hp i).mp hi) ((onList_iff hrep hp j).mp hj)
  · exact ⟨hrep.linear.nodup _, hrep.linked _, hrep.header q⟩

theorem links_ok_two_waiters :
    ∃ s, s.store.waitq (.mutex 0) = ⟨some 2, some 3⟩ ∧
      ∀ t i j, OnList s t i → OnList s t j → i = j := by
  have hs := reachable_end (fun _ a => a.mutexOnly) .plain (fun _ => 0) 5
    [.dispatch 1, .acquire 1 0 false false, .step 1, .yield 1,
      .dispatch 2, .acquire 2 0 false false, .step 2, .dispatch 3, .acquire 3 0 false false, .step 3] rfl
  exact ⟨_, rfl, (links_ok (hs.mono (linkSafe_of_mutexOnly fun _ _ h => h))).1⟩

/-- Without the condition a thread does get onto two lists: on the queues of a
condition and of a mutex, when it is cancelled in `pth_cond_await` while the
mutex is taken; on a private chain and on another queue, when a reader times
out between the release that dequeued it and the walk over the chain. -/
theorem links_broken :
    (∃ home s, Reachable (pthSystem home) s ∧
      OnList s 1 (.queue (.cond 0)) ∧ OnList s 1 (.queue (.mutex 0))) ∧
    ∃ home s, Reachable (pthSystem home) s ∧
      OnList s 1 (.chain 3) ∧ OnList s 1 (.queue (.mutex 0)) := by
  constructor
  · have hs := reachable_end (fun _ _ => true) .plain (fun _ => 0) 5
      [.dispatch 1, .acquire 1 0 false false, .step 1, .await 1 0 0 false, .step 1, .step 1, .step 1,
        .dispatch 2, .acquire 2 0 false false, .step 2, .cancel 1, .yield 2, .resume 1, .step 1] rfl
    exact ⟨_, _, hs.of_restrict, .here 1, .here 1⟩
  · have hs := reachable_end (fun _ _ => true) .plain (fun t => if t = 3 then 1 else 0) 5
      [.dispatch 2, .acquire 2 0 false false, .step 2, .yield 2,
        .dispatch 3, .rwlockAcquire 3 0 .rw false false, .step 3,
        .dispatch 1, .rwlockAcquire 1 0 .rd false true, .step 1,
        .rwlockRelease 3 0, .step 3, .fire 1, .resume 1, .step 1, .acquire 1 0 false false, .step 1] rfl
    exact ⟨_, _, hs.of_restrict, .here 1, .here 1⟩

end GnuPth
