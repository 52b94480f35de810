import GnuPth.Sync.RwlockProtocol
import GnuPth.Sync.Refinement
import GnuPth.Sync.Wakeups

/-!
# Read-write locks in runs of the code

Exclusion between readers and writers holds in every run whose releases are
made by holders. What depends on the queues, the count of parked writers and
with it the preference of writers and the passing on of wakeups, needs runs in
which the queues stay intact.
-/

namespace GnuPth

open Function (update)
open Transition
open Intrusive

variable {home : Tid → SchedId}

/-- `v` is what the lock `r` sees of a state of the code. -/
structure RwlockView.Of (home : Tid → SchedId) (r : RwlockId) (v : RwlockView)
    (s : State WaitLinks) : Prop where
  ok : v.Ok
  lock : v.lock = s.rwlock r
  role : ∀ t, v.role t = (s.tcb t).pc.rwlockRole r
  queue : ∀ op, WellFormed s.store (op.queue r) (v.queue op)
  onList : ∀ t op, OnList s t (.queue (op.queue r)) ↔ t ∈ v.queue op
  coming : ∀ t, v.role t = .waiting .rw → t ∉ v.queue .rw → WakeComing home s t .rwlockRw

theorem Refines.rwlockView (hR : Refines s l)
    (hl : Reachable ((listSystem home).restrict SafeStep) l) :
    (rwlockView r l).Of home r s := by
  obtain ⟨he, hrep⟩ := hR
  rw [he] at hl ⊢
  refine ⟨rwlockView_ok hl.of_restrict, rfl, fun _ => rfl, fun op => ?_,
    fun t op => onList_iff hrep (placed_reachable hl) _, fun t hr hq => ?_⟩
  · exact ⟨hrep.linear.nodup _, hrep.linked _, hrep.header _⟩
  · have hpc := Pc.rwlockRole_spec r (s.tcb t).pc
    rw [show (s.tcb t).pc.rwlockRole r = .waiting .rw from hr] at hpc
    obtain ⟨extra, hpc⟩ := hpc
    have hw : ((s.withStore l.store).tcb t).pc.lockWait = some (.rwlockRw r, .rwlockRw) :=
      congrArg Pc.lockWait hpc
    exact (wakeups hl.of_restrict).coming hw hq

section
variable {P : State WaitLinks → Act → Prop}

theorem rwlock_view (hP : ∀ s a, P s a → LinkSafe s a)
    (h : Reachable ((pthSystem home).restrict P) s) : ∃ v : RwlockView, v.Of home r s := by
  obtain ⟨l, hl, hR⟩ := (refines home).reachable (h.mono fun s a _ => hP s a)
  exact ⟨_, hR.rwlockView hl⟩

/-- What every transition of the protocol keeps holds in every reachable state. -/
theorem rwlock_invariant (hP : ∀ s a, P s a → LinkSafe s a) {I : RwlockView → Prop}
    (hi : ∀ cfg, I (rwlockView r (initial (fun _ => []) cfg)))
    (hI : ∀ s a v v' e, P s a → v.Of home r s → RwlockStep v e v' → e.By s a r → I v → I v')
    (h : Reachable ((pthSystem home).restrict P) s) : ∃ v, v.Of home r s ∧ I v := by
  have hsim := (refines home).mono fun s a _ => hP s a
  have hinv := hsim.invariant (I := fun l => I (rwlockView r l)) ?_ ?_ h
  · obtain ⟨l, hl, hR, hIl⟩ := hinv
    exact ⟨_, hR.rwlockView hl, hIl⟩
  · rintro _ ⟨cfg, rfl⟩
    exact hi cfg
  · intro s l a s' l' hs hl hR hIl hstep hstep' hR'
    rcases hstep'.2.rwlockView with he | ⟨e, he, hby⟩
    · rwa [he]
    · rw [hR.1] at hby
      exact hI s a _ _ e hstep.1 (hR.rwlockView hl) he (by cases e <;> exact hby) hIl

end

/-! ### Exclusion -/

/-- In every run in which only holders release and every step is link-safe,
writers exclude everybody else, and the fields of the lock agree with who holds
it and who is parked. -/
theorem rwlock_exclusive
    (h : Reachable ((pthSystem home).restrict fun s a => ReleasesHeld s a ∧ LinkSafe s a) s) :
    (rwHolders r .rw s.log = [] ∨ rwHolders r .rd s.log = []) ∧
    (rwHolders r .rw s.log).length ≤ 1 ∧
    (∀ t, (s.rwlock r).owner = some t ↔ t ∈ rwHolders r .rw s.log) ∧
    (s.rwlock r).readers = (rwHolders r .rd s.log).length ∧
    ∃ ws, WellFormed s.store (.rwlockRw r) ws ∧ (s.rwlock r).wrwait = ws.length := by
  have inv : RwHolds r s := rwHolds (fun _ _ h => h.1) h
  obtain ⟨v, hv⟩ := rwlock_view (fun _ _ h => h.2) h
  refine ⟨?_, ?_, fun t => ?_, inv.readers.symm, v.queue .rw, hv.queue .rw, ?_⟩
  · have hx := inv.exclusive
    rw [← inv.readers, List.length_eq_zero_iff] at hx
    rw [inv.writers]
    cases ho : (s.rwlock r).owner with
    | none => exact .inl rfl
    | some => exact .inr (hx (by simp [ho]))
  · rw [inv.writers]
    cases (s.rwlock r).owner <;> simp
  · rw [inv.writers]
    simp
  · rw [← hv.lock]
    exact hv.ok.counted

def Act.acquiresRwlocks (a : Act) : Bool :=
  a.rwlockOnly && match a with | .rwlockRelease .. => false | _ => true

theorem linkSafe_of_acquiresRwlocks
    (hP : ∀ s a, P s a → a.acquiresRwlocks = true) (h : Reachable ((pthSystem home).restrict P) s)
    (a : Act) : LinkSafe s a := by
  refine linkSafe_of_calls (fun s a ha => ⟨?_, ?_⟩) h a
  · rintro t c m extra rfl
    cases hP _ _ ha
  · rintro t r rfl
    cases hP _ _ ha

theorem rwlock_exclusive_readers :
    ∃ s : State WaitLinks,
      rwHolders 0 .rd s.log = [3, 1] ∧ (s.store.waitq (.rwlockRw 0)).head = some 2 ∧
      (s.rwlock 0).readers = 2 ∧
      ∃ ws, WellFormed s.store (.rwlockRw 0) ws ∧ (s.rwlock 0).wrwait = ws.length := by
  let run := (runOf (fun _ a => a.acquiresRwlocks) .plain (fun _ => 0) 5
    [.dispatch 1, .rwlockAcquire 1 0 .rd false false, .step 1, .yield 1,
      .dispatch 3, .rwlockAcquire 3 0 .rd true false, .step 3, .yield 3,
      .dispatch 2, .rwlockAcquire 2 0 .rw false false, .step 2] rfl).mono
    (Q := fun s a => ReleasesHeld s a ∧ LinkSafe s a) fun s a hs ha => by
      refine ⟨?_, linkSafe_of_acquiresRwlocks (fun _ _ h => h) hs a⟩
      rintro t r rfl
      cases ha
  have hok := rwlock_exclusive (r := 0) (run.reachable (Nat.le_refl 11))
  exact ⟨run.state 11, rfl, rfl, rfl, hok.2.2.2.2⟩

/-- A reader that times out while it is on the private chain of a release, and
parks again as a writer, is cut off from the threads behind it when the chain
is walked: two writers are counted and one is left on the queue. -/
theorem rwlock_miscounted :
    ∃ home s, Reachable ((pthSystem home).restrict
        fun s a => a.rwlockOnly = true ∧ ReleasesHeld s a) s ∧
      (s.rwlock 0).wrwait = 2 ∧ s.store.waitq (.rwlockRw 0) = ⟨some 1, some 2⟩ ∧
      s.store.wqNext 1 = none := by
  have hs := reachable_end
    (fun s a => a.rwlockOnly && match a with
      | .rwlockRelease t r => t ∈ rwHolders r .rw s.log
      | _ => true) .plain (fun t => if t = 3 then 1 else 0) 5
    [.dispatch 3, .rwlockAcquire 3 0 .rw false false, .step 3,
      .dispatch 1, .rwlockAcquire 1 0 .rd false true, .step 1,
      .rwlockRelease 3 0, .step 3,
      .dispatch 4, .rwlockAcquire 4 0 .rw false false, .step 4, .yield 4,
      .fire 1, .resume 1, .step 1, .rwlockAcquire 1 0 .rw false false, .step 1,
      .dispatch 2, .rwlockAcquire 2 0 .rw false false, .step 2,
      .step 3, .step 3] rfl
  refine ⟨_, _, hs.mono fun s a _ ha => ?_, rfl, rfl, rfl⟩
  obtain ⟨ho, hr⟩ := Bool.and_eq_true_iff.mp ha
  refine ⟨ho, ?_⟩
  rintro t r rfl
  exact ⟨.rw, by simpa using hr⟩

/-! ### No stranded waiters -/

/-- The thread is a writer in the wait of `pth_rwlock_acquire` and is not
leaving it. -/
def RwlockRole.writes (x : RwlockRole) : Prop := x = .waiting .rw ∨ x = .woken .rw

instance (x : RwlockRole) : Decidable x.writes := inferInstanceAs (Decidable (_ ∨ _))

/-- A free lock with waiters: some writer that a release took off the queue is
still in the wait. A release that finds no writer takes all readers along, so
nobody else is ever left to carry a wakeup. -/
def RwlockView.Carried (v : RwlockView) : Prop :=
  v.lock.owner = none → v.lock.readers = 0 → ∀ op, v.queue op ≠ [] →
    ∃ t, t ∉ v.queue .rw ∧ (v.role t).writes

/-- The event does not lose the wakeup: a dequeued writer does not leave the
wait, and no writer is dequeued that is leaving already. -/
def RwlockEvent.Keeps (v : RwlockView) : RwlockEvent → Prop
  | .unwind t .rw | .timeout t .rw =>
    v.lock.owner = none → v.lock.readers = 0 → ∀ op, v.queue op ≠ [] → t ∈ v.queue .rw
  | .wakeWriter _ w => v.role w = .cleanup .rw → v.queue .rw = [w] ∧ v.queue .rd = []
  | _ => True

section
variable {v v' : RwlockView}

theorem RwlockView.Carried.mono (hc : v.Carried)
    (hq : v'.lock.owner = none → v'.lock.readers = 0 → ∀ op, v'.queue op ≠ [] →
      v.lock.owner = none ∧ v.lock.readers = 0 ∧ ∃ op, v.queue op ≠ [])
    (hw : v.lock.owner = none → v.lock.readers = 0 → ∀ op w, v.queue op ≠ [] → w ∉ v.queue .rw →
      (v.role w).writes → w ∉ v'.queue .rw ∧ (v'.role w).writes) : v'.Carried := by
  intro ho hn op hne
  obtain ⟨ho, hn, op, hne⟩ := hq ho hn op hne
  obtain ⟨w, hmem, hr⟩ := hc ho hn op hne
  exact ⟨w, hw ho hn op w hne hmem hr⟩

theorem RwlockView.dequeue_ne_nil (h : (v.dequeue t op).queue op' ≠ []) :
    v.queue op' ≠ [] := by
  intro hnil
  apply h
  by_cases hop : op' = op
  · subst hop; simp [hnil]
  · simpa [hop] using hnil

theorem RwlockView.dequeue_notMem (h : w ∉ v.queue .rw) :
    w ∉ (v.dequeue t op).queue .rw := by
  cases op with
  | rd => simpa using h
  | rw => exact fun hw => h (List.mem_of_mem_erase (by simpa using hw))

theorem RwlockView.Carried.dequeue (hc : v.Carried) : (v.dequeue t op).Carried := by
  refine hc.mono (fun ho hn op' hne => ?_) fun _ _ _ w _ hmem hr => ⟨v.dequeue_notMem hmem, hr⟩
  exact ⟨by simpa using ho, by simpa using hn, op', v.dequeue_ne_nil hne⟩

theorem RwlockView.Carried.leave (hc : v.Carried)
    (ht : v.lock.owner = none → v.lock.readers = 0 → ∀ op, v.queue op ≠ [] → t ∉ v.queue .rw →
      ¬(v.role t).writes) : ((v.dequeue t op).setRole t x).Carried := by
  refine hc.mono (fun ho hn op' hne => ?_) fun ho hn op' w hne hmem hr => ?_
  · exact ⟨by simpa using ho, by simpa using hn, op', v.dequeue_ne_nil hne⟩
  · have hwt : w ≠ t := by
      rintro rfl
      exact ht ho hn op' hne hmem hr
    exact ⟨v.dequeue_notMem hmem, by simpa [hwt] using hr⟩

theorem RwlockView.Carried.park (hc : v.Carried) (ok : v.Ok)
    (ha : v.lock.admits op = false) (hr : op = .rd → ¬(v.role t).writes) :
    ((v.enqueue t op).setRole t (.waiting op)).Carried := by
  have hrd : v.lock.owner = none → v.lock.readers = 0 → op = .rd ∧ v.queue .rw ≠ [] := by
    intro ho hn
    cases op with
    | rw => simp [Rwlock.admits, ho, hn] at ha
    | rd =>
      refine ⟨rfl, fun hnil => ?_⟩
      simp [Rwlock.admits, ho, ok.counted, hnil] at ha
  refine hc.mono (fun ho hn _ _ => ?_) fun ho hn _ w _ hmem hw => ?_
  · have ho : v.lock.owner = none := by simpa using ho
    have hn : v.lock.readers = 0 := by simpa using hn
    exact ⟨ho, hn, .rw, (hrd ho hn).2⟩
  · obtain ⟨rfl, -⟩ := hrd ho hn
    have hwt : w ≠ t := by
      rintro rfl
      exact hr rfl hw
    exact ⟨by simpa using hmem, by simpa [hwt] using hw⟩

theorem RwlockStep.carried (h : RwlockStep v e v') (ok : v.Ok) (hk : e.Keeps v)
    (hc : v.Carried) : v'.Carried := by
  cases h with
  | @enter t op | @reenter t op =>
    intro ho hn
    cases op <;> simp [Rwlock.enter] at ho hn
  | park hr ha => exact hc.park ok ha fun _ => by simp [hr, RwlockRole.writes]
  | repark hr ha =>
    refine hc.dequeue.park ok.dequeue (by simpa [Rwlock.admits_unwait] using ha) ?_
    rintro rfl
    simp [hr, RwlockRole.writes]
  | @resume t op =>
    refine hc.mono (fun ho hn op hne => ⟨ho, hn, op, hne⟩) fun _ _ _ w _ hmem hw => ⟨hmem, ?_⟩
    by_cases hwt : w = t
    · simp_all [RwlockRole.writes]
    · simpa [hwt] using hw
  | @unwind t op hr =>
    refine hc.mono (fun ho hn op hne => ⟨ho, hn, op, hne⟩) fun ho hn op' w hne hmem hw => ⟨hmem, ?_⟩
    have hwt : w ≠ t := by
      rintro rfl
      cases op with
      | rd => simp [hr, RwlockRole.writes] at hw
      | rw => exact hmem (hk ho hn op' hne)
    simpa [hwt] using hw
  | @timeout t op hr =>
    refine hc.leave fun ho hn op' hne hmem hw => ?_
    cases op with
    | rd => simp [hr, RwlockRole.writes] at hw
    | rw => exact hmem (hk ho hn op' hne)
  | leave hr => exact hc.dequeue.leave fun _ _ _ _ _ => by simp [hr, RwlockRole.writes]
  | readersLeft =>
    intro _ hn'
    simp only [Rwlock.vacate] at hn'
    omega
  | @wakeWriter t w ws op hr hx hq =>
    intro _ _ op' hne
    -- the writer just dequeued is the carrier
    have hnd := ok.nodup .rw
    have hw := ok.queued .rw w (by simp [hq])
    rw [hq, List.nodup_cons] at hnd
    refine ⟨w, by simpa using hnd.1, ?_⟩
    cases hrw : v.role w with
    | out => simp [hrw, RwlockRole.op] at hw
    | waiting op | woken op => simp_all [RwlockRole.op, RwlockRole.writes]
    | cleanup op =>
      obtain rfl : op = .rw := by simpa [hrw, RwlockRole.op] using hw
      obtain ⟨hws, hrd⟩ := hk hrw
      rw [hq, List.cons.injEq] at hws
      cases op' <;> simp [hws.2, hrd] at hne
  | herd hx hq =>
    intro _ _ op hne
    cases op <;> simp [hq] at hne

end

/-- While the lock is free and has waiters, no writer that a release took off
the queue leaves the wait; and no release takes a writer off the queue that is
leaving, unless nobody else is parked. -/
def KeepsRwWakeup (r : RwlockId) (s : State WaitLinks) (a : Act) : Prop :=
  let x := s.rwlock r
  let rw := s.store.waitq (.rwlockRw r)
  let rd := s.store.waitq (.rwlockRd r)
  (x.owner = none → x.readers = 0 → rw.head ≠ none ∨ rd.head ≠ none → ∀ t,
    ¬OnList s t (.queue (.rwlockRw r)) →
    (∀ extra, (s.tcb t).pc = .rwlockWait r .rw extra → ¬ActsOnCancel s a t) ∧
    ((s.tcb t).pc = .rwlockWoken r .rw true → (s.tcb t).status .rwlockRw = .pending →
      a ≠ .step t)) ∧
  ∀ t op w, a = .step t → (s.tcb t).pc = .rwlockRelease r → x.LastOut t op → rw.head = some w →
    (s.tcb w).pc = .rwlockCleanup r .rw → rw.tail = some w ∧ rd.head = none

/-- `t` is in the wait of `pth_rwlock_acquire`, and woken or about to be. -/
def RwWillReexamine (home : Tid → SchedId) (s : State WaitLinks) (r : RwlockId) (t : Tid) : Prop :=
  ∃ op extra, (s.tcb t).pc = .rwlockWait r op extra ∧ WakeComing home s t op.key ∨
    (s.tcb t).pc = .rwlockWoken r op extra

section
variable {v : RwlockView}

theorem RwlockView.Of.rw_header (hv : v.Of home r s) :
    s.store.waitq (.rwlockRw r) = .ofList (v.queue .rw) := (hv.queue .rw).header

theorem RwlockView.Of.rd_header (hv : v.Of home r s) :
    s.store.waitq (.rwlockRd r) = .ofList (v.queue .rd) := (hv.queue .rd).header

theorem KeepsRwWakeup.keeps (hk : KeepsRwWakeup r s a) (hv : v.Of home r s)
    (he : RwlockStep v e v') (hby : e.By s a r) : e.Keeps v := by
  have hpc := fun t => Pc.rwlockRole_spec r (s.tcb t).pc
  simp only [← hv.role] at hpc
  simp only [KeepsRwWakeup, ← hv.lock, hv.rw_header, hv.rd_header] at hk
  have hne : ∀ op, v.queue op ≠ [] → (Fifo.ofList (v.queue .rw)).head ≠ none ∨
      (Fifo.ofList (v.queue .rd)).head ≠ none := by
    intro op hne
    cases op with
    | rw => exact .inl (by simpa [Fifo.ofList] using hne)
    | rd => exact .inr (by simpa [Fifo.ofList] using hne)
  cases he with
  | @unwind t op hr =>
    cases op with
    | rd => trivial
    | rw =>
      intro ho hn op hq
      by_contra hmem
      obtain ⟨extra, hpc⟩ := hr ▸ hpc t
      exact (hk.1 ho hn (hne op hq) t (mt (hv.onList t .rw).mp hmem)).1 extra hpc hby
  | @timeout t op =>
    cases op with
    | rd => trivial
    | rw =>
      obtain ⟨ha, hpc, hst⟩ := hby
      intro ho hn op hq
      by_contra hmem
      exact (hk.1 ho hn (hne op hq) t (mt (hv.onList t .rw).mp hmem)).2 hpc hst ha
  | @wakeWriter t w ws op hr hx hq =>
    obtain ⟨ha, hpct⟩ := hby
    intro hcl
    have hpcw := hpc w
    rw [hcl] at hpcw
    have hhead : (Fifo.ofList (v.queue .rw)).head = some w := by rw [hq]; rfl
    obtain ⟨htail, hrd⟩ := hk.2 t op w ha hpct hx hhead hpcw
    exact ⟨Fifo.eq_singleton (hv.ok.nodup .rw) hhead htail, List.head?_eq_none_iff.mp hrd⟩
  | _ => trivial

end

/-- In every run whose steps are link-safe and all keep the wakeup, a free lock
with waiters has a thread that will look at it again. -/
theorem rwlock_not_stranded {op : RwOp}
    (h : Reachable ((pthSystem home).restrict fun s a => LinkSafe s a ∧ KeepsRwWakeup r s a) s)
    (ho : (s.rwlock r).owner = none) (hn : (s.rwlock r).readers = 0)
    (hw : OnList s t (.queue (op.queue r))) :
    ∃ u, (∀ op : RwOp, ¬OnList s u (.queue (op.queue r))) ∧ RwWillReexamine home s r u := by
  have hinv := rwlock_invariant (r := r) (I := RwlockView.Carried) (fun _ _ h => h.1) ?_ ?_ h
  · obtain ⟨v, hv, hc⟩ := hinv
    rw [hv.onList] at hw
    obtain ⟨u, hu, hr⟩ := hc (hv.lock ▸ ho) (hv.lock ▸ hn) op (List.ne_nil_of_mem hw)
    have hpc := Pc.rwlockRole_spec r (s.tcb u).pc
    rw [← hv.role] at hpc
    refine ⟨u, fun op' hop => ?_, ?_⟩
    · rw [hv.onList] at hop
      have hop' := hv.ok.queued op' u hop
      cases op' with
      | rw => exact hu hop
      | rd => rcases hr with hr | hr <;> simp [hr, RwlockRole.op] at hop'
    · rcases hr with hr | hr
      · obtain ⟨extra, hpc⟩ := hr ▸ hpc
        exact ⟨.rw, extra, .inl ⟨hpc, hv.coming u hr hu⟩⟩
      · obtain ⟨extra, hpc⟩ := hr ▸ hpc
        exact ⟨.rw, extra, .inr hpc⟩
  · intro cfg _ _ op hne
    exact absurd rfl hne
  · intro s a v v' e hP hv he hby hc
    exact he.carried hv.ok (hP.2.keeps hv he hby) hc

/-- A check that implies `KeepsRwWakeup`: nobody is resumed, and nobody is dequeued
in its cleanup handler. -/
def calmRw (r : RwlockId) (s : State WaitLinks) : Act → Bool
  | .resume _ | .cancel _ => false
  | .step t => (s.tcb t).pc.rwlockRole r != .woken .rw &&
      (s.store.waitq (.rwlockRw r)).head.all fun w => (s.tcb w).pc.rwlockRole r != .cleanup .rw
  | _ => true

theorem keepsRwWakeup_of_calmRw (h : calmRw r s a = true) : KeepsRwWakeup r s a := by
  refine ⟨fun _ _ _ t _ => ⟨fun extra _ hc => ?_, ?_⟩, ?_⟩
  · rcases hc with ⟨rfl, -⟩ | ⟨rfl, -⟩ <;> cases h
  · rintro hpc - rfl
    simp [calmRw, hpc] at h
  · rintro t op w rfl - - hw hpc
    simp [calmRw, hw, hpc] at h

def releases (s : State WaitLinks) : Act → Bool
  | .step t => match (s.tcb t).pc with | .rwlockRelease _ => true | _ => false
  | _ => true

theorem linkSafe_of_releases (h : releases s a = true) : LinkSafe s a := by
  rintro t rfl hp
  simp only [releases] at h
  split at h
  · rename_i hpc
    simp [parks, hpc] at hp
  · cases h

/-- Writer 2 was dequeued and carries the wakeup while reader 3 is parked. -/
theorem rwlock_not_stranded_carrier :
    ∃ home s, (s.rwlock 0).owner = none ∧ (s.rwlock 0).readers = 0 ∧
      OnList s 3 (.queue (RwOp.rd.queue 0)) ∧
      ∃ u, (∀ op : RwOp, ¬OnList s u (.queue (op.queue 0))) ∧ RwWillReexamine home s 0 u := by
  let run := (runOf (fun s a => a.acquiresRwlocks && calmRw 0 s a) .plain (fun _ => 0) 5
    [.dispatch 1, .rwlockAcquire 1 0 .rw false false, .step 1, .yield 1,
      .dispatch 2, .rwlockAcquire 2 0 .rw false false, .step 2,
      .dispatch 3, .rwlockAcquire 3 0 .rd false false, .step 3] rfl).mono
    (Q := fun s a => LinkSafe s a ∧ KeepsRwWakeup 0 s a) fun s a hs ha => by
      obtain ⟨-, hc⟩ := Bool.and_eq_true_iff.mp ha
      refine ⟨linkSafe_of_acquiresRwlocks (fun _ _ h => ?_) hs a, keepsRwWakeup_of_calmRw hc⟩
      exact (Bool.and_eq_true_iff.mp h).1
  obtain ⟨s, hrun, ho, hn, hon⟩ : ∃ s ∈ runActs (fun s a => releases s a && calmRw 0 s a) (fun _ => 0) 5
      (run.state 10) [.dispatch 1, .rwlockRelease 1 0, .step 1],
      (s.rwlock 0).owner = none ∧ (s.rwlock 0).readers = 0 ∧ OnList s 3 (.queue (RwOp.rd.queue 0)) :=
    ⟨_, rfl, rfl, rfl, .here 3⟩
  refine ⟨_, s, ho, hn, hon, rwlock_not_stranded (runActs_reachable (fun s a ha => ?_)
    (run.reachable (Nat.le_refl 10)) hrun) ho hn hon⟩
  obtain ⟨hr, hc⟩ := Bool.and_eq_true_iff.mp ha
  exact ⟨linkSafe_of_releases hr, keepsRwWakeup_of_calmRw hc⟩

/-- A dequeued writer that is cancelled takes the wakeup with it: reader 3 stays
parked at a free lock and nobody will look at it. -/
theorem rwlock_stranded :
    ∃ home s, Reachable ((pthSystem home).restrict fun _ a => a.rwlockOnly = true) s ∧
      (s.rwlock 0).initialized = true ∧ (s.rwlock 0).owner = none ∧ (s.rwlock 0).readers = 0 ∧
      OnList s 3 (.queue (.rwlockRd 0)) ∧ ∀ u, RwWillReexamine home s 0 u → u = 3 := by
  let run := runOf (fun _ a => a.rwlockOnly) .plain (fun _ => 0) 5
    [.dispatch 1, .rwlockAcquire 1 0 .rw false false, .step 1, .yield 1,
      .dispatch 2, .rwlockAcquire 2 0 .rw false false, .step 2,
      .dispatch 3, .rwlockAcquire 3 0 .rd false false, .step 3,
      .dispatch 1, .rwlockRelease 1 0, .step 1, .step 1, .cancel 2, .yield 1, .resume 2, .step 2] rfl
  have hpc : ∀ u, u ≠ 3 → ((run.state 18).tcb u).pc = .app
    | 0, _ | 1, _ | 2, _ | _ + 4, _ => rfl
    | 3, h => absurd rfl h
  refine ⟨_, run.state 18, run.reachable (Nat.le_refl 18), rfl, rfl, rfl, .here 3, fun u hu => ?_⟩
  by_contra hne
  simp [RwWillReexamine, hpc u hne] at hu

/-! ### Writer preference -/

/-- The wait of the writer `w` for `r` is over: it got the lock, returned `EINTR`
or was cancelled. -/
def EndsWait {σ : Type} (s s' : State σ) (r : RwlockId) (w : Tid) : Prop :=
  Emits s s' (.rwlockAcquire w r .rw .ok) ∨
    Emits s s' (.rwlockAcquire w r .rw (.error .EINTR)) ∨ Emits s s' (.cancelled w)

/-- A reader looks at a lock without an owner only while every waiting writer is
still on the queue: none was dequeued by a release and has not yet looked at
the lock itself. -/
def WritersFirst (r : RwlockId) (s : State WaitLinks) (a : Act) : Prop :=
  ∀ t, a = .step t →
    (∃ tryonly extra, (s.tcb t).pc = .rwlockEnter r .rd tryonly extra) ∨
      (∃ extra, (s.tcb t).pc = .rwlockWoken r .rd extra) →
    (s.rwlock r).owner = none → ∀ w, ((s.tcb w).pc.rwlockRole r).writes →
    OnList s w (.queue (.rwlockRw r))

section
variable {σ : Type}

theorem Emits.mem (h : Emits s s' o) (os : List Obs) (hos : s'.log = os ++ s.log) :
    o ∈ os := by
  obtain ⟨os', hos', ho⟩ := h
  obtain rfl := List.append_cancel_right (hos.symm.trans hos')
  exact ho

theorem Step.rwlockAcquired (h : Step home ops s a s')
    (ho : Emits s s' (.rwlockAcquire t r op .ok)) :
    a = .step t ∧ ((∃ tryonly extra, (s.tcb t).pc = .rwlockEnter r op tryonly extra) ∨
      ∃ extra, (s.tcb t).pc = .rwlockWoken r op extra) ∧ (s.rwlock r).admits op = true := by
  cases h with
  | rwlockEnter hr hpc hi ha =>
    cases List.mem_singleton.mp (ho.mem _ rfl)
    exact ⟨rfl, .inl ⟨_, _, hpc⟩, ha⟩
  | rwlockReenter hr hpc hrem he ha =>
    cases List.mem_singleton.mp (ho.mem _ rfl)
    exact ⟨rfl, .inr ⟨_, hpc⟩, Rwlock.admits_unwait.symm.trans ha⟩
  | @acquireFail _ _ _ _ k | @take _ _ _ _ k | @recurse _ _ _ _ k | @grant _ _ _ k
  | @mutexTimeout _ _ _ k | @retake _ _ _ k =>
    have hmem := ho.mem (k.obs _ _ _) rfl
    cases k <;> simp [AcquireFrom.obs] at hmem
  | @post _ _ k =>
    have hmem := ho.mem (k.obs _) rfl
    cases k with
    | notify c broadcast => cases broadcast <;> simp [PostThen.obs] at hmem
    | _ => cases hmem
  | _ => first | cases ho.mem [] rfl | cases List.mem_singleton.mp (ho.mem _ rfl)

theorem Step.writes (h : Step home ops s a s') (hw : ((s.tcb w).pc.rwlockRole r).writes) :
    EndsWait s s' r w ∨ ((s'.tcb w).pc.rwlockRole r).writes := by
  by_cases ha : a.actor = some w
  · obtain ⟨os, hos, hn⟩ := h.next ha
    have hpc := Pc.rwlockRole_spec r (s.tcb w).pc
    generalize (s'.tcb w).pc = pc' at hn ⊢
    rcases hw with hw | hw
    · rw [hw] at hpc
      obtain ⟨extra, hpc⟩ := hpc
      rw [hpc] at hn
      cases hn with
      | stay | woken => exact .inr (by simp [Pc.woken, RwlockRole.writes])
      | unwound hact =>
        rcases hact with rfl | rfl <;> cases ha
        all_goals exact .inl (.inr (.inr ⟨_, hos, by simp⟩))
    · rw [hw] at hpc
      obtain ⟨extra, hpc⟩ := hpc
      rw [hpc] at hn
      cases hn with
      | stay | woken | rwlockRepark => exact .inr (by simp [Pc.woken, RwlockRole.writes])
      | unwound hact =>
        rcases hact with rfl | rfl <;> cases ha
        all_goals exact .inl (.inr (.inr ⟨_, hos, by simp⟩))
      | rwlockRedone hres =>
        cases ha
        rcases hres with rfl | rfl
        · exact .inl (.inl ⟨_, hos, by simp⟩)
        · exact .inl (.inr (.inl ⟨_, hos, by simp⟩))
  · rw [h.pc_of_ne ha]
    exact .inr hw

end

/-- In every run whose steps are link-safe and in which readers do not look at
the lock between the release that dequeues a writer and that writer, no read
acquire succeeds while a writer that has parked is waiting. -/
theorem writer_preferred {n i k : Nat} {w : Tid} {extra : Bool}
    (run : Run ((pthSystem home).restrict fun s a => LinkSafe s a ∧ WritersFirst r s a) n)
    (hik : i ≤ k) (hk : k < n) (hw : ((run.state i).tcb w).pc = .rwlockWait r .rw extra)
    (ht : Emits (run.state k) (run.state (k + 1)) (.rwlockAcquire t r .rd .ok)) :
    ∃ l, i ≤ l ∧ l < k ∧ EndsWait (run.state l) (run.state (l + 1)) r w := by
  have hlast := lasts_until (Q := fun j => (((run.state j).tcb w).pc.rwlockRole r).writes)
    (R := fun j => ∃ l, i ≤ l ∧ l + 1 = j ∧ EndsWait (run.state l) (run.state (l + 1)) r w)
    (by simp [hw, RwlockRole.writes]) ?_ hik
  · rcases hlast with ⟨_, _, hlk, l, hil, rfl, hend⟩ | hwk
    · exact ⟨l, hil, hlk, hend⟩
    · -- the reader was let in with the writer on the queue
      obtain ⟨⟨-, hfirst⟩, fuel, hstep⟩ := run.step k hk
      obtain ⟨ha, hpc, hadm⟩ := (exec_step hstep).rwlockAcquired ht
      simp only [Rwlock.admits, decide_eq_true_eq] at hadm
      obtain ⟨v, hv⟩ := rwlock_view (fun _ _ h => h.1) (run.reachable (Nat.le_of_lt hk))
      have hon : OnList (run.state k) w (.queue (RwOp.rw.queue r)) := hfirst t ha hpc hadm.1 w hwk
      rw [hv.onList] at hon
      have hpos := List.length_pos_of_mem hon
      have hcount := hv.ok.counted
      rw [hv.lock] at hcount
      omega
  · intro j hij hjk hwj
    obtain ⟨-, fuel, hstep⟩ := run.step j (by omega)
    rcases (exec_step hstep).writes hwj with hend | hwj
    · exact .inl ⟨j, hij, rfl, hend⟩
    · exact .inr hwj

/-- A check for programs of threads below 4: readers look at the lock only while
no writer waits. -/
def noWriterWaits (r : RwlockId) (s : State WaitLinks) (a : Act) : Bool :=
  a.acquiresRwlocks && a.actor.all (· < 4) && match a with
    | .step t => match (s.tcb t).pc with
      | .rwlockEnter _ .rd _ _ | .rwlockWoken _ .rd _ =>
        (List.range 4).all fun w => decide ¬((s.tcb w).pc.rwlockRole r).writes
      | _ => true
    | _ => true

theorem writersFirst_of_noWriterWaits
    (h : Reachable ((pthSystem home).restrict fun s a => noWriterWaits r s a = true) s)
    (ha : noWriterWaits r s a = true) : LinkSafe s a ∧ WritersFirst r s a := by
  simp only [noWriterWaits, Bool.and_eq_true] at ha
  refine ⟨linkSafe_of_acquiresRwlocks (fun _ _ h => ?_) h a, ?_⟩
  · simp only [noWriterWaits, Bool.and_eq_true] at h
    exact h.1.1
  · rintro t rfl hpc - w hw
    exfalso
    have hall : ∀ w < 4, ¬((s.tcb w).pc.rwlockRole r).writes := by
      rcases hpc with ⟨tryonly, extra, hpc⟩ | ⟨extra, hpc⟩ <;> simpa [hpc] using ha.2
    by_cases hlt : w < 4
    · exact hall w hlt hw
    · rw [pc_of_idle (fun s a ha => ?_) h] at hw
      · simp [RwlockRole.writes] at hw
      · intro hact
        simp [noWriterWaits, hact, hlt] at ha

/-- Writer 2 parks behind a reader and times out; then reader 3 is let in. -/
theorem writer_preferred_timeout :
    ∃ home n, ∃ run : Run ((pthSystem home).restrict
        fun s a => LinkSafe s a ∧ WritersFirst 0 s a) n, ∃ i k,
      ((run.state i).tcb 2).pc = .rwlockWait 0 .rw true ∧
      Emits (run.state k) (run.state (k + 1)) (.rwlockAcquire 3 0 .rd .ok) ∧
      ∃ l, i ≤ l ∧ l < k ∧ EndsWait (run.state l) (run.state (l + 1)) 0 2 := by
  let run := (runOf (noWriterWaits 0) .plain (fun _ => 0) 5
    [.dispatch 1, .rwlockAcquire 1 0 .rd false false, .step 1, .yield 1,
      .dispatch 2, .rwlockAcquire 2 0 .rw false true, .step 2, .fire 2, .resume 2, .step 2, .yield 2,
      .dispatch 3, .rwlockAcquire 3 0 .rd false false, .step 3] rfl).mono
    (Q := fun s a => LinkSafe s a ∧ WritersFirst 0 s a) fun _ _ => writersFirst_of_noWriterWaits
  have ht : Emits (run.state 13) (run.state 14) (.rwlockAcquire 3 0 .rd .ok) := ⟨[_], rfl, by simp⟩
  exact ⟨_, _, run, 7, 13, rfl, ht, writer_preferred run (by simp) (by simp) rfl ht⟩

/-- A release that dequeues the only parked writer clears the way for readers:
reader 3 calls after writer 2 has parked and gets the lock, while writer 2 is
still on its way. -/
theorem writer_overtaken :
    ∃ home n, ∃ run : Run ((pthSystem home).restrict fun _ a => a.rwlockOnly = true) n, ∃ i j k,
      i < j ∧ j < k ∧ k < n ∧ ((run.state i).tcb 2).pc = .rwlockWait 0 .rw false ∧
      run.act j = .rwlockAcquire 3 0 .rd false false ∧
      Emits (run.state k) (run.state (k + 1)) (.rwlockAcquire 3 0 .rd .ok) ∧
      ∀ l < n, ¬EndsWait (run.state l) (run.state (l + 1)) 0 2 := by
  let run := runOf (fun _ a => a.rwlockOnly) .plain (fun _ => 0) 5
    [.dispatch 1, .rwlockAcquire 1 0 .rw false false, .step 1, .yield 1,
      .dispatch 2, .rwlockAcquire 2 0 .rw false false, .step 2,
      .dispatch 1, .rwlockRelease 1 0, .step 1, .step 1, .yield 1,
      .dispatch 3, .rwlockAcquire 3 0 .rd false false, .step 3] rfl
  refine ⟨_, _, run, 7, 13, 14, by simp, by simp, by simp, rfl, rfl, ⟨[_], rfl, by simp⟩,
    fun l hl => ?_⟩
  rintro (h | h | h)
  all_goals exact not_emits_of_notMem run (show _ ∉ (run.state 15).log by decide) hl h

end GnuPth
