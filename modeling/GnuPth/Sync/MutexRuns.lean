import GnuPth.Sync.Refinement
import GnuPth.Sync.Wakeups

/-!
# Mutexes in runs of the code

Programs that use only the mutex interface keep the wait queues intact, so
what the protocol of one mutex keeps holds of the code: mutual exclusion, and
ownership that agrees with what callers were told.
-/

namespace GnuPth

open Function (update)
open Transition
open Intrusive

variable {s : State WaitLinks}

/-- `v` is what the mutex `m` sees of a state of the code. -/
structure MutexView.Of (home : Tid → SchedId) (m : MutexId) (v : MutexView) (s : State WaitLinks) :
    Prop where
  ok : v.Ok
  mx : v.mx = s.mutex m
  role : ∀ t, v.role t = (s.tcb t).pc.mutexRole m
  holders : v.holders = GnuPth.holders m s.log
  header : s.store.waitq (.mutex m) = .ofList v.queue
  onList : ∀ t, OnList s t (.queue (.mutex m)) ↔ t ∈ v.queue
  coming : ∀ t, v.role t = .waiting → t ∉ v.queue → WakeComing home s t .mutex

theorem Refines.mutexView (hR : Refines s l)
    (hl : Reachable ((listSystem home).restrict SafeStep) l) :
    (mutexView m l).Of home m s := by
  obtain ⟨he, hrep⟩ := hR
  rw [he] at hl ⊢
  refine ⟨mutexView_ok hl.of_restrict, rfl, fun _ => rfl, rfl, hrep.header _,
    fun t => onList_iff hrep (placed_reachable hl) _, fun t hr hq => ?_⟩
  have hpc := Pc.mutexRole_spec m (s.tcb t).pc
  rw [show (s.tcb t).pc.mutexRole m = .waiting from hr] at hpc
  obtain ⟨extra, k, hpc⟩ := hpc
  have hw : ((s.withStore l.store).tcb t).pc.lockWait = some (.mutex m, .mutex) :=
    congrArg Pc.lockWait hpc
  exact (wakeups hl.of_restrict).coming hw hq

theorem MutexEvent.By.of_withStore {e : MutexEvent} {l : WaitLists}
    (h : e.By (s.withStore l) (s'.withStore l') a m) : e.By s s' a m := by
  cases e <;> exact h

section
variable {P : State WaitLinks → Act → Prop}

theorem mutexOnly_refines (home : Tid → SchedId) (hP : ∀ s a, P s a → a.mutexOnly = true) :
    Simulates ((pthSystem home).restrict P) ((listSystem home).restrict SafeStep) Refines :=
  (refines home).mono (linkSafe_of_mutexOnly hP)

/-- What every transition of the protocol keeps holds in every reachable state. -/
theorem mutex_invariant (hP : ∀ s a, P s a → a.mutexOnly = true) {I : MutexView → Prop}
    (hi : ∀ cfg, I (mutexView m (initial (fun _ => []) cfg)))
    (hI : ∀ s a s' v v' e, P s a → v.Of home m s → MutexStep v e v' → e.By s s' a m → I v → I v')
    (h : Reachable ((pthSystem home).restrict P) s) : ∃ v, v.Of home m s ∧ I v := by
  have hinv := (mutexOnly_refines home hP).invariant (I := fun l => I (mutexView m l)) ?_ ?_ h
  · obtain ⟨l, hl, hR, hIl⟩ := hinv
    exact ⟨_, hR.mutexView hl, hIl⟩
  · rintro _ ⟨cfg, rfl⟩
    exact hi cfg
  · intro s l a s' l' hs hl hR hIl hstep hstep' hR'
    rcases hstep'.2.mutexView with he | ⟨e, he, hby⟩
    · rwa [he]
    · have hv := hR.mutexView (m := m) hl
      rw [hR.1, hR'.1] at hby
      exact hI s a s' _ _ e hstep.1 hv he hby.of_withStore hIl

theorem mutex_run (hP : ∀ s a, P s a → a.mutexOnly = true) (m : MutexId)
    (r : Run ((pthSystem home).restrict P) n) :
    ∃ v : Nat → MutexView, (∃ cfg, v 0 = mutexView m (initial (fun _ => []) cfg)) ∧
      (∀ i ≤ n, (v i).Of home m (r.state i)) ∧
      ∀ i < n, v (i + 1) = v i ∨
        ∃ e, MutexStep (v i) e (v (i + 1)) ∧ e.By (r.state i) (r.state (i + 1)) (r.act i) m := by
  obtain ⟨r', hact, hR⟩ := (mutexOnly_refines home hP).run r
  refine ⟨fun i => mutexView m (r'.state i), ?_, fun i hi => ?_, fun i hi => ?_⟩
  · obtain ⟨cfg, hcfg⟩ := r'.start
    exact ⟨cfg, congrArg (mutexView m) hcfg⟩
  · exact (hR i hi).mutexView (r'.reachable hi)
  · have hstep := (r'.step i hi).2
    rcases hstep.mutexView with he | ⟨e, he, hby⟩
    · exact .inl he
    · rw [(hR i (by omega)).1, (hR (i + 1) hi).1, hact] at hby
      exact .inr ⟨e, he, hby.of_withStore⟩

end

/-! ### Mutual exclusion -/

theorem Next.of_release (h : Next a pc os pc')
    (ho : .release t m .ok ∈ os) : a = .step t ∧ ∃ k, pc = .releaseLock m k := by
  cases h with
  | @acquired _ _ _ _ k | @mutexDone _ _ _ k => cases k <;> simp [AcquireFrom.obs] at ho
  | releaseWake | releaseDone =>
    cases List.mem_singleton.mp ho
    exact ⟨rfl, _, rfl⟩
  | @post _ _ k =>
    cases k with
    | notify c broadcast => cases broadcast <;> simp [PostThen.obs] at ho
    | _ => cases ho
  | _ => simp at ho

theorem MutexView.Ok.owner_of_holder {v : MutexView} (ok : v.Ok) (ht : t ∈ v.holders) :
    v.mx.owner = some t ∧ v.mx.count = v.holders.count t := by
  have hc := ok.held t
  have hpos := List.count_pos_iff.mpr ht
  split at hc
  · rename_i hown
    exact ⟨hown.1, hc.symm⟩
  · omega

theorem owner_of_mem_holders
    (h : Reachable ((pthSystem home).restrict fun _ a => a.mutexOnly = true) s)
    (ht : t ∈ holders m s.log) : (s.mutex m).owner = some t := by
  obtain ⟨l, hl, hR⟩ := (mutexOnly_refines home fun _ _ h => h).reachable h
  have hv := hR.mutexView (m := m) hl
  rw [← hv.holders] at ht
  rw [← hv.mx]
  exact (hv.ok.owner_of_holder ht).1

theorem mutex_exclusive
    (h : Reachable ((pthSystem home).restrict fun _ a => a.mutexOnly = true) s) :
    ((s.mutex m).locked = true ↔ (s.mutex m).owner ≠ none) ∧
    ((s.mutex m).owner ≠ none ↔ 1 ≤ (s.mutex m).count) ∧
    (∀ t, (s.mutex m).owner = some t → ¬OnList s t (.queue (.mutex m))) ∧
    (∀ t ∈ holders m s.log,
      (s.mutex m).owner = some t ∧ (s.mutex m).count = (holders m s.log).count t) ∧
    ∀ a s' t, (pthSystem home).step s a s' → Emits s s' (.release t m .ok) →
      (s.mutex m).owner = some t := by
  obtain ⟨l, hl, hR⟩ := (mutexOnly_refines home fun _ _ h => h).reachable h
  have hv := hR.mutexView (m := m) hl
  have ok := hv.ok
  rw [← hv.mx, ← hv.holders]
  refine ⟨ok.locked, ok.counted, fun t ho => ?_, fun t ht => ok.owner_of_holder ht, ?_⟩
  · rw [hv.onList]
    exact ok.owner t ho
  · rintro a s' t ⟨fuel, hstep⟩ he
    obtain ⟨u, os, hu, ho, hn⟩ := (exec_step hstep).emits he
    obtain ⟨rfl, k, hpc⟩ := hn.of_release ho
    cases hu
    exact ok.releasing t (by simp [hv.role, hpc])

theorem mutex_exclusive_recursive :
    ∃ s, holders 0 s.log = [1, 1] ∧ OnList s 2 (.queue (.mutex 0)) ∧
      ∀ t ∈ holders 0 s.log, (s.mutex 0).owner = some t ∧
        (s.mutex 0).count = (holders 0 s.log).count t := by
  let run := runOf (fun _ a => a.mutexOnly) .plain (fun _ => 0) 5
    [.dispatch 1, .acquire 1 0 false false, .step 1, .acquire 1 0 true false, .step 1, .yield 1,
      .dispatch 2, .acquire 2 0 false false, .step 2] rfl
  exact ⟨run.state 9, rfl, .here 2, (mutex_exclusive (run.reachable (Nat.le_refl 9))).2.2.2.1⟩

/-! ### No stranded waiters -/

/-- A free mutex with waiters: some thread that a release took off the queue is
still in the wait. -/
def MutexView.Carried (v : MutexView) : Prop :=
  v.mx.locked = false → v.queue ≠ [] → ∃ t, t ∉ v.queue ∧ (v.role t = .waiting ∨ v.role t = .woken)

/-- The event does not lose the wakeup: a dequeued thread does not leave the
wait, and no thread is dequeued that is leaving already. -/
def MutexEvent.Keeps (v : MutexView) : MutexEvent → Prop
  | .unwind t | .timeout t => v.mx.locked = false → v.queue ≠ [] → t ∈ v.queue
  | .wakeOne _ w => v.role w = .cleanup → v.queue = [w]
  | _ => True

theorem MutexView.Carried.erase {v : MutexView} (hc : v.Carried)
    (ht : v.mx.locked = false → v.queue ≠ [] → t ∈ v.queue ∨ v.role t = .cleanup) :
    ({ v with queue := v.queue.erase t, role := update v.role t .out } : MutexView).Carried := by
  intro hl hne
  have hne' : v.queue ≠ [] := fun h => hne (by simp [h])
  obtain ⟨w, hw, hr⟩ := hc hl hne'
  have hwt : w ≠ t := by
    rintro rfl
    rcases ht hl hne' with h | h
    · exact hw h
    · simp [h] at hr
  exact ⟨w, fun h => hw (List.mem_of_mem_erase h), by simpa [hwt] using hr⟩

theorem MutexStep.carried (h : MutexStep v e v') (ok : v.Ok)
    (hk : e.Keeps v) (hc : v.Carried) : v'.Carried := by
  have hfree : ∀ {t}, v.mx.owner = some t → v.mx.locked = false → False := by
    intro t ho hl
    have := ok.locked.mpr (by simp [ho])
    simp [hl] at this
  cases h with
  | setfair | recurse => exact hc
  | take | retake => exact fun h => by cases h
  | passFree hr ho hq | unlock hr hn hq => exact fun _ h => absurd hq h
  | park hr hl | repark hr ho hl => exact fun h => by simp [hl] at h
  | grant hr ho | check hr ho | passOn hr ho => exact fun h => (hfree ho h).elim
  | unrecurse hr | handoff hr => exact fun h => (hfree (ok.releasing _ hr) h).elim
  | timeout => exact hc.erase fun hl hne => .inl (hk hl hne)
  | leave hr => exact hc.erase fun _ _ => .inr hr
  | @resume t =>
    intro hl hne
    obtain ⟨w, hw, hrw⟩ := hc hl hne
    refine ⟨w, hw, ?_⟩
    by_cases hwt : w = t
    · simp [hwt]
    · simpa [hwt] using hrw
  | @unwind t =>
    intro hl hne
    obtain ⟨w, hw, hrw⟩ := hc hl hne
    have hwt : w ≠ t := by
      rintro rfl
      exact hw (hk hl hne)
    exact ⟨w, hw, by simpa [hwt] using hrw⟩
  | @wakeOne t w ws hr hn hq =>
    intro hl hne
    -- the thread just dequeued is the carrier
    have hnd := ok.nodup
    have hw := ok.queued w (by simp [hq])
    rw [hq, List.nodup_cons] at hnd
    have hwt : w ≠ t := by
      rintro rfl
      simp [hr, MutexRole.inWait] at hw
    refine ⟨w, hnd.1, ?_⟩
    simp only [Function.update_of_ne hwt]
    cases hrw : v.role w with
    | waiting => exact .inl rfl
    | woken => exact .inr rfl
    | cleanup =>
      have hws := hk hrw
      simp only [hq, List.cons.injEq, true_and] at hws
      exact absurd hws hne
    | out | releasing => simp [hrw, MutexRole.inWait] at hw

/-- While the mutex is free and has waiters, no thread that a release took off
the queue leaves the wait; and no release takes a thread off the queue that
is leaving, unless it is the only one there. -/
def KeepsWakeup (m : MutexId) (s : State WaitLinks) (a : Act) : Prop :=
  let x := s.mutex m
  let q := s.store.waitq (.mutex m)
  (x.locked = false → q.head ≠ none → ∀ t, ¬OnList s t (.queue (.mutex m)) →
    (∀ extra k, (s.tcb t).pc = .mutexWait m extra k → ¬ActsOnCancel s a t) ∧
    ∀ k, (s.tcb t).pc = .mutexWoken m true k → (s.tcb t).status .mutex = .pending → a ≠ .step t) ∧
  ∀ t k w j, a = .step t → (s.tcb t).pc = .releaseLock m k → x.count = 1 → x.fair = false →
    q.head = some w → (s.tcb w).pc = .mutexCleanup m j → q.tail = some w

/-- `t` is in the wait of `pth_mutex_acquire`, and woken or about to be. -/
def WillReexamine (home : Tid → SchedId) (s : State WaitLinks) (m : MutexId) (t : Tid) : Prop :=
  (∃ extra k, (s.tcb t).pc = .mutexWait m extra k ∧ WakeComing home s t .mutex) ∨
    ∃ extra k, (s.tcb t).pc = .mutexWoken m extra k

theorem KeepsWakeup.keeps (hk : KeepsWakeup m s a)
    (hv : v.Of home m s) (he : MutexStep v e v') (hby : e.By s s' a m) : e.Keeps v := by
  have hne : v.queue ≠ [] → (s.store.waitq (.mutex m)).head ≠ none := by
    intro hne h
    rw [hv.header] at h
    exact hne (List.head?_eq_none_iff.mp h)
  have hpc := fun t => Pc.mutexRole_spec m (s.tcb t).pc
  simp only [← hv.role] at hpc
  cases he with
  | @unwind t hr =>
    intro hlk hqe
    by_contra hmem
    obtain ⟨extra, k, hpc⟩ := hr ▸ hpc t
    exact (hk.1 (hv.mx ▸ hlk) (hne hqe) t (mt (hv.onList t).mp hmem)).1 extra k hpc hby.1
  | @timeout t =>
    obtain ⟨ha, ⟨k, hpc⟩, hst, -⟩ := hby
    intro hlk hqe
    by_contra hmem
    exact (hk.1 (hv.mx ▸ hlk) (hne hqe) t (mt (hv.onList t).mp hmem)).2 k hpc hst ha
  | @wakeOne t w ws hr hn hq hf =>
    obtain ⟨ha, k, hpct⟩ := hby
    intro hcl
    obtain ⟨j, hpcw⟩ := hcl ▸ hpc w
    have hown := hv.ok.releasing t hr
    have hcount := hv.ok.counted.mp (by simp [hown])
    have hhead : (s.store.waitq (.mutex m)).head = some w := by rw [hv.header, hq]; rfl
    have htail := hk.2 t k w j ha hpct (by rw [← hv.mx]; omega) (hv.mx ▸ hf) hhead hpcw
    rw [hv.header] at hhead htail
    exact Fifo.eq_singleton hv.ok.nodup hhead htail
  | _ => trivial

/-- In every run whose steps all keep the wakeup, a free mutex with waiters has
a thread that will look at it again. -/
theorem mutex_not_stranded
    (h : Reachable ((pthSystem home).restrict fun s a => a.mutexOnly = true ∧ KeepsWakeup m s a) s)
    (hl : (s.mutex m).locked = false) (hw : OnList s t (.queue (.mutex m))) :
    ∃ u, ¬OnList s u (.queue (.mutex m)) ∧ WillReexamine home s m u := by
  have hinv := mutex_invariant (m := m) (I := MutexView.Carried) (fun _ _ h => h.1) ?_ ?_ h
  · obtain ⟨v, hv, hc⟩ := hinv
    rw [hv.onList] at hw
    obtain ⟨u, hu, hr⟩ := hc (hv.mx ▸ hl) (List.ne_nil_of_mem hw)
    have hpc := Pc.mutexRole_spec m (s.tcb u).pc
    rw [← hv.role] at hpc
    refine ⟨u, mt (hv.onList u).mp hu, ?_⟩
    rcases hr with hr | hr
    · rw [hr] at hpc
      obtain ⟨extra, k, hpc⟩ := hpc
      exact .inl ⟨extra, k, hpc, hv.coming u hr hu⟩
    · rw [hr] at hpc
      exact .inr hpc
  · exact fun cfg _ hq => absurd rfl hq
  · intro s a s' v v' e hP hv he hby hc
    exact he.carried hv.ok (hP.2.keeps hv he hby) hc

/-- A check that implies `KeepsWakeup`: nobody is resumed, and nobody is dequeued
in its cleanup handler. -/
def calm (m : MutexId) (s : State WaitLinks) : Act → Bool
  | .resume _ | .cancel _ => false
  | .step t => (s.tcb t).pc.mutexRole m != .woken &&
      (s.store.waitq (.mutex m)).head.all fun w => (s.tcb w).pc.mutexRole m != .cleanup
  | _ => true

theorem keepsWakeup_of_calm (h : calm m s a = true) :
    KeepsWakeup m s a := by
  refine ⟨fun _ _ t _ => ⟨fun extra k _ hc => ?_, ?_⟩, ?_⟩
  · rcases hc with ⟨rfl, -⟩ | ⟨rfl, -⟩ <;> cases h
  · rintro k hpc - rfl
    simp [calm, hpc] at h
  · rintro t k w j rfl - - - hw hpc
    simp [calm, hw, hpc] at h

/-- Thread 2 was dequeued and carries the wakeup while thread 3 is parked. -/
theorem mutex_not_stranded_carrier :
    ∃ home s, (s.mutex 0).locked = false ∧ OnList s 3 (.queue (.mutex 0)) ∧
      ∃ u, ¬OnList s u (.queue (.mutex 0)) ∧ WillReexamine home s 0 u := by
  let run := runOf (fun s a => a.mutexOnly && calm 0 s a) .plain (fun _ => 0) 5
    [.dispatch 1, .acquire 1 0 false false, .step 1, .yield 1,
      .dispatch 2, .acquire 2 0 false false, .step 2, .dispatch 3, .acquire 3 0 false false, .step 3,
      .dispatch 1, .release 1 0, .step 1, .step 1] rfl
  have hs := (run.reachable (Nat.le_refl 14)).mono (Q := fun s a => a.mutexOnly = true ∧ KeepsWakeup 0 s a)
    fun s a _ ha => ⟨(Bool.and_eq_true_iff.mp ha).1, keepsWakeup_of_calm (Bool.and_eq_true_iff.mp ha).2⟩
  exact ⟨_, run.state 14, rfl, .here 3, mutex_not_stranded hs rfl (.here 3)⟩

/-- A dequeued waiter that is cancelled takes the wakeup with it: thread 3 stays
parked on a free mutex and nobody will look at it. -/
theorem mutex_stranded :
    ∃ home s, Reachable ((pthSystem home).restrict fun _ a => a.mutexOnly = true) s ∧
      (s.mutex 0).initialized = true ∧ (s.mutex 0).locked = false ∧
      OnList s 3 (.queue (.mutex 0)) ∧ ∀ u, WillReexamine home s 0 u → u = 3 := by
  let run := runOf (fun _ a => a.mutexOnly) .plain (fun _ => 0) 5
    [.dispatch 1, .acquire 1 0 false false, .step 1, .yield 1,
      .dispatch 2, .acquire 2 0 false false, .step 2, .dispatch 3, .acquire 3 0 false false, .step 3,
      .dispatch 1, .release 1 0, .step 1, .step 1, .step 1, .cancel 2, .yield 1, .resume 2, .step 2] rfl
  have hpc : ∀ u, u ≠ 3 → ((run.state 19).tcb u).pc = .app
    | 0, _ | 1, _ | 2, _ | _ + 4, _ => rfl
    | 3, h => absurd rfl h
  refine ⟨_, run.state 19, run.reachable (Nat.le_refl 19), rfl, rfl, .here 3, fun u hu => ?_⟩
  by_contra hne
  simp [WillReexamine, hpc u hne] at hu

end GnuPth
