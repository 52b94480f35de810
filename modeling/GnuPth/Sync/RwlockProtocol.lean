import GnuPth.Sync.Control

/-!
# The protocol of one read-write lock

Who holds the lock does not depend on the wait queues: `RwHolds` is kept by
every step over any memory for them, as long as only holders release.
`RwlockView` is what one lock can see of the system with its two queues, and
`RwlockStep` how that can change; every step of the system over lists leaves the
view of a lock alone or is one of these (`Step.rwlockView`).
-/

namespace GnuPth

open Function (update update_self update_eq_self)
open Transition

/-! ### Holders -/

/-- The threads that hold `r` for reading or for writing, one entry for each
acquire that returned `TRUE` and is not yet released. -/
def rwHolders (r : RwlockId) (op : RwOp) : List Obs → List Tid
  | [] => []
  | .rwlockAcquire t r' op' .ok :: log =>
    if r' = r ∧ op' = op then t :: rwHolders r op log else rwHolders r op log
  | .rwlockRelease t r' op' .ok :: log =>
    if r' = r ∧ op' = op then (rwHolders r op log).erase t else rwHolders r op log
  | _ :: log => rwHolders r op log

/-- `pth_rwlock_release` is called by threads that hold the lock. -/
def ReleasesHeld {σ : Type} (s : State σ) (a : Act) : Prop :=
  ∀ t r, a = .rwlockRelease t r → ∃ op, t ∈ rwHolders r op s.log

structure RwHolds {σ : Type} (r : RwlockId) (s : State σ) : Prop where
  writers : rwHolders r .rw s.log = (s.rwlock r).owner.toList
  readers : (rwHolders r .rd s.log).length = (s.rwlock r).readers
  exclusive : (s.rwlock r).owner ≠ none → (s.rwlock r).readers = 0
  releasing : ∀ t, (s.tcb t).pc = .rwlockRelease r → ∃ op, t ∈ rwHolders r op s.log

section
variable {s s' : State σ} {log : List Obs}

theorem rwHolders_acquire_of_ne (h : r' ≠ r) :
    rwHolders r op (.rwlockAcquire t r' op' .ok :: log) = rwHolders r op log := by
  simp [rwHolders, h]

theorem rwHolders_release_of_ne (h : r' ≠ r) :
    rwHolders r op (.rwlockRelease t r' op' .ok :: log) = rwHolders r op log := by
  simp [rwHolders, h]

@[simp] theorem rwHolders_acquire_obs {k : AcquireFrom} :
    rwHolders r op (k.obs t m res ++ log) = rwHolders r op log := by
  cases k <;> rfl

@[simp] theorem rwHolders_post_obs {k : PostThen} :
    rwHolders r op (k.obs t ++ log) = rwHolders r op log := by
  cases k with
  | notify c broadcast => cases broadcast <;> rfl
  | _ => rfl

theorem Next.to_rwlockRelease (h : Next a pc os pc')
    (hpc : pc' = .rwlockRelease r) : pc = .rwlockRelease r ∨ ∃ t, a = .rwlockRelease t r := by
  cases h with
  | stay => exact .inl hpc
  | call he =>
    subst hpc
    cases a with
    | rwlockRelease =>
      cases he
      exact .inr ⟨_, rfl⟩
    | _ => cases he
  | woken | unwound =>
    cases pc with
    | rwlockRelease => exact .inl hpc
    | _ => cases hpc
  | @acquired _ _ _ _ k | @mutexDone _ _ _ k => cases k <;> cases hpc
  | releaseFail hk | releaseDone hk =>
    refine hk.elim ?_ ?_ ?_ ?_ hpc <;> nofun
  | post hk => refine hk.elim ?_ ?_ ?_ ?_ ?_ ?_ hpc <;> nofun
  | _ => cases hpc

theorem Step.releasing (h : Step home ops s a s') (ha : ReleasesHeld s a)
    (hpc : (s'.tcb t).pc = .rwlockRelease r) :
    (s.tcb t).pc = .rwlockRelease r ∨ ∃ op, t ∈ rwHolders r op s.log := by
  by_cases ht : a.actor = some t
  · obtain ⟨os, -, hn⟩ := h.next ht
    rcases hn.to_rwlockRelease hpc with hpc | ⟨u, rfl⟩
    · exact .inl hpc
    · cases ht
      exact .inr (ha t r rfl)
  · rw [h.pc_of_ne ht] at hpc
    exact .inl hpc

/-- `rw_owner` while `t` holds the lock. -/
def RwOp.owner (t : Tid) : RwOp → Option Tid
  | .rw => some t
  | .rd => none

theorem Rwlock.LastOut.owner {x : Rwlock} (h : x.LastOut t op) : x.owner = op.owner t := by
  cases op with
  | rd => exact h.1
  | rw => exact h

theorem RwHolds.of_frame (inv : RwHolds r s) (ho : (s'.rwlock r).owner = (s.rwlock r).owner)
    (hn : (s'.rwlock r).readers = (s.rwlock r).readers)
    (hh : ∀ op, rwHolders r op s'.log = rwHolders r op s.log)
    (hp : ∀ t, (s'.tcb t).pc = .rwlockRelease r →
      (s.tcb t).pc = .rwlockRelease r ∨ ∃ op, t ∈ rwHolders r op s.log) : RwHolds r s' := by
  refine ⟨?_, ?_, ?_, fun t ht => ?_⟩
  · rw [hh, ho]; exact inv.writers
  · rw [hh, hn]; exact inv.readers
  · rw [ho, hn]; exact inv.exclusive
  · simp only [hh]
    exact (hp t ht).elim (inv.releasing t) id

theorem RwHolds.enter (inv : RwHolds r s) (ha : (s.rwlock r).admits op = true)
    (ho : (s'.rwlock r).owner = ((s.rwlock r).enter t op).owner)
    (hn : (s'.rwlock r).readers = ((s.rwlock r).enter t op).readers)
    (hl : s'.log = .rwlockAcquire t r op .ok :: s.log)
    (hp : ∀ t, (s'.tcb t).pc = .rwlockRelease r →
      (s.tcb t).pc = .rwlockRelease r ∨ ∃ op, t ∈ rwHolders r op s.log) : RwHolds r s' := by
  obtain ⟨writers, readers, exclusive, releasing⟩ := inv
  have hrel : ∀ u, (s'.tcb u).pc = .rwlockRelease r → ∃ op, u ∈ rwHolders r op s'.log := by
    intro u hu
    obtain ⟨op', hmem⟩ := (hp u hu).elim (releasing u) id
    refine ⟨op', ?_⟩
    simp only [hl, rwHolders]
    split
    · exact List.mem_cons_of_mem _ hmem
    · exact hmem
  cases op with
  | rd =>
    simp only [Rwlock.admits, decide_eq_true_eq] at ha
    refine ⟨?_, ?_, ?_, hrel⟩
    · simp [hl, rwHolders, writers, ho, Rwlock.enter]
    · simp [hl, rwHolders, readers, hn, Rwlock.enter]
    · simp [ho, Rwlock.enter, ha.1]
  | rw =>
    simp only [Rwlock.admits, decide_eq_true_eq] at ha
    refine ⟨?_, ?_, ?_, hrel⟩
    · simp [hl, rwHolders, writers, ho, Rwlock.enter, ha.1]
    · simp [hl, rwHolders, readers, hn, Rwlock.enter]
    · simp [hn, Rwlock.enter, ha.2]

theorem RwHolds.vacate (inv : RwHolds r s) (hpc : (s.tcb t).pc = .rwlockRelease r)
    (hx : (s.rwlock r).owner = op.owner t)
    (ho : (s'.rwlock r).owner = ((s.rwlock r).vacate op).owner)
    (hn : (s'.rwlock r).readers = ((s.rwlock r).vacate op).readers)
    (hl : s'.log = .rwlockRelease t r op .ok :: s.log)
    (hpc' : (s'.tcb t).pc ≠ .rwlockRelease r) (hne : ∀ u ≠ t, s'.tcb u = s.tcb u) :
    RwHolds r s' := by
  obtain ⟨writers, readers, exclusive, releasing⟩ := inv
  have hrel : ∀ u, (s'.tcb u).pc = .rwlockRelease r → ∃ op, u ∈ rwHolders r op s'.log := by
    intro u hu
    have hut : u ≠ t := by
      rintro rfl
      exact hpc' hu
    obtain ⟨op', hmem⟩ := releasing u (by rwa [hne u hut] at hu)
    refine ⟨op', ?_⟩
    simp only [hl, rwHolders]
    split
    · exact (List.mem_erase_of_ne hut).mpr hmem
    · exact hmem
  cases op with
  | rd =>
    -- without a writer, the caller is one of the readers
    have hmem : t ∈ rwHolders r .rd s.log := by
      obtain ⟨op, hmem⟩ := releasing t hpc
      cases op with
      | rd => exact hmem
      | rw => simp [writers, hx, RwOp.owner] at hmem
    refine ⟨?_, ?_, ?_, hrel⟩
    · simp [hl, rwHolders, writers, ho, Rwlock.vacate]
    · simp [hl, rwHolders, readers, hn, Rwlock.vacate, List.length_erase_of_mem hmem]
    · simp [ho, Rwlock.vacate, hx, RwOp.owner]
  | rw =>
    refine ⟨?_, ?_, ?_, hrel⟩
    · simp [hl, rwHolders, writers, ho, hx, Rwlock.vacate, RwOp.owner]
    · simp [hl, rwHolders, readers, hn, Rwlock.vacate]
    · simp [ho, Rwlock.vacate]

theorem RwHolds.step (inv : RwHolds r s) (ha : ReleasesHeld s a) (h : Step home ops s a s') :
    RwHolds r s' := by
  have hrel := fun t => h.releasing ha (t := t) (r := r)
  have hne := fun t ha u => h.tcb_of_ne (t := t) (u := u) ha
  cases h with
  | @rwlockEnter t r' op tryonly extra hr hpc hi had =>
    by_cases hr' : r' = r
    · subst hr'
      exact inv.enter had (by simp) (by simp) rfl hrel
    · refine inv.of_frame ?_ ?_ (fun _ => rwHolders_acquire_of_ne hr') hrel
      all_goals simp [Ne.symm hr']
  | @rwlockReenter t r' op extra b store hr hpc hrem he had =>
    rw [Rwlock.admits_unwait] at had
    by_cases hr' : r' = r
    · subst hr'
      refine inv.enter had ?_ ?_ rfl hrel
      all_goals cases op <;> simp [Rwlock.enter]
    · refine inv.of_frame ?_ ?_ (fun _ => rwHolders_acquire_of_ne hr') hrel
      all_goals simp [Ne.symm hr']
  | @rwlockPark t r' | @rwlockTimeout t r' | @rwlockRepark t r' | @rwlockCleanup t r' =>
    -- only `rw_wrwait` changes
    refine inv.of_frame ?_ ?_ (fun _ => rfl) hrel
    all_goals by_cases hr' : r' = r
    · subst hr'; simp
    · simp [Ne.symm hr']
    · subst hr'; simp
    · simp [Ne.symm hr']
  | @readersLeft t r' hr hpc ho =>
    by_cases hr' : r' = r
    · subst hr'
      have hx : (s.rwlock r').owner = RwOp.rd.owner t := ho
      exact inv.vacate hpc hx (by simp) (by simp) rfl (by simp) (hne t rfl)
    · refine inv.of_frame ?_ ?_ (fun _ => rwHolders_release_of_ne hr') hrel
      all_goals simp [Ne.symm hr']
  | @wakeWriter t r' op w store hr hpc hx | @herd t r' op chain store₁ store₂ hr hpc hx =>
    by_cases hr' : r' = r
    · subst hr'
      exact inv.vacate hpc hx.owner (by simp) (by simp) rfl (by simp) (hne t rfl)
    · refine inv.of_frame ?_ ?_ (fun _ => rwHolders_release_of_ne hr') hrel
      all_goals simp [Ne.symm hr']
  | acquireFail | take | recurse | grant | mutexTimeout | retake =>
    exact inv.of_frame rfl rfl (fun _ => rwHolders_acquire_obs) hrel
  | post => exact inv.of_frame rfl rfl (fun _ => rwHolders_post_obs) hrel
  | _ => exact inv.of_frame rfl rfl (fun _ => rfl) hrel

end

theorem rwHolds (hP : ∀ s a, P s a → ReleasesHeld s a)
    (h : Reachable ((pthSystem home).restrict P) s) : RwHolds r s := by
  refine h.invariant ?_ ?_
  · rintro _ ⟨cfg, rfl⟩
    constructor <;> simp [initial, rwHolders]
  · rintro s a s' inv ⟨ha, fuel, hstep⟩
    exact inv.step (hP s a ha) (exec_step hstep)

/-! ### The lock and its queues -/

/-- What a thread is doing with one given lock: the three places in the wait of
`pth_rwlock_acquire`. -/
inductive RwlockRole
  | out
  | waiting (op : RwOp)
  | woken (op : RwOp)
  | cleanup (op : RwOp)
  deriving DecidableEq, Repr

def Pc.rwlockRole (r : RwlockId) : Pc → RwlockRole
  | .rwlockWait r' op _ => if r' = r then .waiting op else .out
  | .rwlockWoken r' op _ => if r' = r then .woken op else .out
  | .rwlockCleanup r' op => if r' = r then .cleanup op else .out
  | _ => .out

@[ext] structure RwlockView where
  lock : Rwlock
  queue : RwOp → List Tid
  role : Tid → RwlockRole

@[simps] def rwlockView (r : RwlockId) (s : State WaitLists) : RwlockView where
  lock := s.rwlock r
  queue op := s.store (.queue (op.queue r))
  role u := (s.tcb u).pc.rwlockRole r

inductive RwlockEvent
  | enter (t : Tid) (op : RwOp)
  | park (t : Tid) (op : RwOp)
  | resume (t : Tid) (op : RwOp)
  | unwind (t : Tid) (op : RwOp)
  | timeout (t : Tid) (op : RwOp)
  | reenter (t : Tid) (op : RwOp)
  | repark (t : Tid) (op : RwOp)
  | leave (t : Tid)
  | readersLeft
  | wakeWriter (t w : Tid)
  | herd

/-- The queue without `t`, and the count of parked writers that goes with it. -/
@[simps] def RwlockView.dequeue (v : RwlockView) (t : Tid) (op : RwOp) : RwlockView :=
  { v with
    lock := v.lock.unwait op (decide (t ∈ v.queue op))
    queue := update v.queue op ((v.queue op).erase t) }

@[simps] def RwlockView.enqueue (v : RwlockView) (t : Tid) (op : RwOp) : RwlockView :=
  { v with
    lock := v.lock.addWait op 1
    queue := update v.queue op (v.queue op ++ [t]) }

@[simps] def RwlockView.setRole (v : RwlockView) (t : Tid) (x : RwlockRole) : RwlockView :=
  { v with role := update v.role t x }

inductive RwlockStep : RwlockView → RwlockEvent → RwlockView → Prop
  | enter {v t op} (hr : v.role t = .out) (ha : v.lock.admits op = true) :
      RwlockStep v (.enter t op) { v with lock := v.lock.enter t op }
  | park {v t op} (hr : v.role t = .out) (ha : v.lock.admits op = false) :
      RwlockStep v (.park t op) ((v.enqueue t op).setRole t (.waiting op))
  | resume {v t op} (hr : v.role t = .waiting op) :
      RwlockStep v (.resume t op) (v.setRole t (.woken op))
  | unwind {v t op} (hr : v.role t = .waiting op) :
      RwlockStep v (.unwind t op) (v.setRole t (.cleanup op))
  | timeout {v t op} (hr : v.role t = .woken op) :
      RwlockStep v (.timeout t op) ((v.dequeue t op).setRole t .out)
  | reenter {v t op} (hr : v.role t = .woken op) (ha : v.lock.admits op = true) :
      RwlockStep v (.reenter t op)
        { (v.dequeue t op).setRole t .out with lock := (v.dequeue t op).lock.enter t op }
  | repark {v t op} (hr : v.role t = .woken op) (ha : v.lock.admits op = false) :
      RwlockStep v (.repark t op) (((v.dequeue t op).enqueue t op).setRole t (.waiting op))
  | leave {v t op} (hr : v.role t = .cleanup op) :
      RwlockStep v (.leave t) (((v.dequeue t .rw).dequeue t .rd).setRole t .out)
  | readersLeft {v} (hn : v.lock.readers > 1) :
      RwlockStep v .readersLeft { v with lock := v.lock.vacate .rd }
  | wakeWriter {v t w ws op} (hr : v.role t = .out) (hx : v.lock.LastOut t op)
      (hq : v.queue .rw = w :: ws) :
      RwlockStep v (.wakeWriter t w)
        { v with
          lock := (v.lock.vacate op).addWait .rw (-1), queue := update v.queue .rw ws }
  | herd {v t op} (hx : v.lock.LastOut t op) (hq : v.queue .rw = []) :
      RwlockStep v .herd { v with lock := v.lock.vacate op, queue := update v.queue .rd [] }

/-! ### What the protocol keeps -/

def RwlockRole.op : RwlockRole → Option RwOp
  | .out => none
  | .waiting op | .woken op | .cleanup op => some op

structure RwlockView.Ok (v : RwlockView) : Prop where
  counted : v.lock.wrwait = (v.queue .rw).length
  nodup : ∀ op, (v.queue op).Nodup
  queued : ∀ op, ∀ t ∈ v.queue op, (v.role t).op = some op

section
variable {v : RwlockView}

theorem RwlockView.Ok.setLock (ok : v.Ok) (hl : l.wrwait = v.lock.wrwait) :
    ({ v with lock := l } : RwlockView).Ok := ⟨hl.trans ok.counted, ok.nodup, ok.queued⟩

theorem RwlockView.Ok.setRole (ok : v.Ok) (hx : ∀ op, t ∈ v.queue op → x.op = some op) :
    (v.setRole t x).Ok := by
  refine ⟨ok.counted, ok.nodup, fun op u hu => ?_⟩
  by_cases hut : u = t
  · subst hut
    simpa using hx op hu
  · simpa [hut] using ok.queued op u hu

theorem RwlockView.Ok.dequeue (ok : v.Ok) : (v.dequeue t op).Ok := by
  refine ⟨?_, fun op' => ?_, fun op' u hu => ok.queued op' u ?_⟩
  · have hc := ok.counted
    cases op with
    | rd => simpa using hc
    | rw =>
      by_cases ht : t ∈ v.queue .rw
      · have := List.length_pos_of_mem ht
        simp only [RwlockView.dequeue_lock, Rwlock.unwait, ht, decide_true, ite_true, Rwlock.addWait,
          RwlockView.dequeue_queue, update_self, List.length_erase_of_mem ht]
        omega
      · simp [Rwlock.unwait, ht, List.erase_of_not_mem ht, hc]
  · by_cases hop : op' = op
    · subst hop; simpa using (ok.nodup op').erase t
    · simpa [hop] using ok.nodup op'
  · by_cases hop : op' = op
    · subst hop; exact List.mem_of_mem_erase (by simpa using hu)
    · simpa [hop] using hu

theorem RwlockView.Ok.notMem_dequeue (ok : v.Ok)
    (hr : op' = op ∨ (v.role t).op ≠ some op') : t ∉ (v.dequeue t op).queue op' := by
  by_cases hop : op' = op
  · subst hop; simpa using (ok.nodup op').not_mem_erase
  · simpa [hop] using mt (ok.queued op' t) (hr.resolve_left hop)

theorem RwlockView.Ok.enqueue (ok : v.Ok) (ht : ∀ op, t ∉ v.queue op) :
    ((v.enqueue t op).setRole t (.waiting op)).Ok := by
  refine ⟨?_, fun op' => ?_, fun op' u hu => ?_⟩
  · cases op <;> simp [Rwlock.addWait, ok.counted]
  · by_cases hop : op' = op
    · subst hop
      simpa using (ok.nodup op').append (List.nodup_singleton t) (by simpa using ht op')
    · simpa [hop] using ok.nodup op'
  · by_cases hop : op' = op
    · subst hop
      by_cases hut : u = t
      · subst hut; simp [RwlockRole.op]
      · simpa [hut] using ok.queued op' u (by simpa [hut] using hu)
    · have hmem : u ∈ v.queue op' := by simpa [hop] using hu
      have hut : u ≠ t := by
        rintro rfl
        exact ht op' hmem
      simpa [hut] using ok.queued op' u hmem

theorem RwlockView.Ok.notMem_of_woken (ok : v.Ok) (hr : v.role t = .woken op) (op' : RwOp) :
    t ∉ (v.dequeue t op).queue op' := by
  apply ok.notMem_dequeue
  by_cases hop : op' = op
  · exact .inl hop
  · exact .inr (by simpa [hr, RwlockRole.op] using Ne.symm hop)

theorem RwlockStep.ok (h : RwlockStep v e v') (ok : v.Ok) : v'.Ok := by
  cases h with
  | @enter t op => exact ok.setLock (by cases op <;> rfl)
  | park hr => exact ok.enqueue fun op ht => by simpa [hr, RwlockRole.op] using ok.queued op _ ht
  | resume hr | unwind hr =>
    refine ok.setRole fun op ht => ?_
    have := ok.queued op _ ht
    rwa [hr] at this
  | timeout hr => exact ok.dequeue.setRole fun op ht => absurd ht (ok.notMem_of_woken hr op)
  | @reenter t op hr =>
    have hout : ((v.dequeue t op).setRole t .out).Ok :=
      ok.dequeue.setRole fun op ht => absurd ht (ok.notMem_of_woken hr op)
    exact hout.setLock (by cases op <;> rfl)
  | repark hr => exact ok.dequeue.enqueue (ok.notMem_of_woken hr)
  | leave =>
    refine ok.dequeue.dequeue.setRole fun op ht => absurd ht ?_
    cases op with
    | rd => exact ok.dequeue.notMem_dequeue (.inl rfl)
    | rw => simpa using (ok.nodup .rw).not_mem_erase
  | readersLeft => exact ok.setLock rfl
  | @wakeWriter t w ws op hr hx hq =>
    have hc := ok.counted
    have hnd := ok.nodup .rw
    rw [hq] at hc hnd
    refine ⟨?_, fun op' => ?_, fun op' u hu => ok.queued op' u ?_⟩
    · have hv : (v.lock.vacate op).wrwait = v.lock.wrwait := by cases op <;> rfl
      simp only [Rwlock.addWait, hv, hc, update_self, List.length_cons]
      omega
    · cases op' with
      | rd => simpa using ok.nodup .rd
      | rw => simpa using hnd.of_cons
    · cases op' with
      | rd => simpa using hu
      | rw =>
        rw [hq]
        exact List.mem_cons_of_mem w (by simpa using hu)
  | @herd t op =>
    refine ⟨?_, fun op' => ?_, fun op' u hu => ok.queued op' u ?_⟩
    · cases op <;> simpa [Rwlock.vacate] using ok.counted
    · cases op' with
      | rd => simp
      | rw => simpa using ok.nodup .rw
    · cases op' with
      | rd => simp at hu
      | rw => simpa using hu

end

/-- What the event says about the action, beyond its rule. -/
def RwlockEvent.By {σ : Type} (s : State σ) (a : Act) (r : RwlockId) : RwlockEvent → Prop
  | .unwind t _ => ActsOnCancel s a t
  | .timeout t op =>
    a = .step t ∧ (s.tcb t).pc = .rwlockWoken r op true ∧ (s.tcb t).status op.key = .pending
  | .wakeWriter t _ => a = .step t ∧ (s.tcb t).pc = .rwlockRelease r
  | _ => True

section
variable {r : RwlockId}

theorem Pc.rwlockRole_spec (r : RwlockId) (pc : Pc) :
    match pc.rwlockRole r with
    | .out => True
    | .waiting op => ∃ extra, pc = .rwlockWait r op extra
    | .woken op => ∃ extra, pc = .rwlockWoken r op extra
    | .cleanup op => pc = .rwlockCleanup r op := by
  cases pc with
  | rwlockWait r' | rwlockWoken r' | rwlockCleanup r' =>
    by_cases hr : r' = r <;> simp [Pc.rwlockRole, hr]
  | _ => trivial

attribute [simp] Pc.rwlockRole.eq_1 Pc.rwlockRole.eq_2 Pc.rwlockRole.eq_3 Pc.rwlockRole.eq_4

variable {k : AcquireFrom}

@[simp] theorem AcquireFrom.pc_rwlockRole : (k.pc m).rwlockRole r = .out := by cases k <;> rfl

theorem ReleaseFrom.ReturnsTo.rwlockRole {k : ReleaseFrom}
    (h : k.ReturnsTo m pc) : pc.rwlockRole r = .out :=
  h.elim rfl (fun _ _ => rfl) rfl (fun _ _ => rfl)

theorem PostThen.ReturnsTo.rwlockRole {k : PostThen} (h : k.ReturnsTo pc) :
    pc.rwlockRole r = .out :=
  h.elim rfl (fun _ _ _ => rfl) rfl (fun _ _ => rfl) (fun _ _ => rfl) (fun _ => rfl)

theorem Act.entry_rwlockRole {a : Act} (h : a.entry = some (t, pc)) :
    pc.rwlockRole r = .out := by
  cases a with
  | acquire | release | await | notify | rwlockAcquire | rwlockRelease | join => cases h; rfl
  | _ => cases h

theorem Pc.woken_rwlockRole (pc : Pc) :
    (∃ op, pc.rwlockRole r = .waiting op ∧ pc.woken.rwlockRole r = .woken op) ∨
      pc.woken.rwlockRole r = pc.rwlockRole r := by
  cases pc with
  | rwlockWait r' op =>
    by_cases hr : r' = r
    · exact .inl ⟨op, by simp [Pc.woken, hr]⟩
    · exact .inr (by simp [Pc.woken, hr])
  | _ => exact .inr rfl

theorem Pc.unwound_rwlockRole (pc : Pc) :
    (∃ op, pc.rwlockRole r = .waiting op ∧ pc.unwound.rwlockRole r = .cleanup op) ∨
      pc.unwound.rwlockRole r = pc.rwlockRole r := by
  cases pc with
  | rwlockWait r' op =>
    by_cases hr : r' = r
    · exact .inl ⟨op, by simp [Pc.unwound, hr]⟩
    · exact .inr (by simp [Pc.unwound, hr])
  | _ => exact .inr rfl

end

section
variable {home : Tid → SchedId}
variable {v : RwlockView}

theorem Step.rwlockRole_eq (h : Step home listOps s a s') (ha : a.actor = some t) :
    (rwlockView r s').role = update (rwlockView r s).role t ((s'.tcb t).pc.rwlockRole r) := by
  funext u
  by_cases hu : u = t
  · subst hu; simp
  · simp [hu, h.tcb_of_ne ha hu]

theorem Step.rwlockView_of_event (h : Step home listOps s a s')
    (ha : a.actor = some t) (he : RwlockStep (rwlockView r s) e w) (hx : s'.rwlock r = w.lock)
    (hq : ∀ op : RwOp, s'.store (.queue (op.queue r)) = w.queue op)
    (hw : w.role = update (rwlockView r s).role t x) (ht : (s'.tcb t).pc.rwlockRole r = x) :
    RwlockStep (rwlockView r s) e (rwlockView r s') := by
  suffices hv : rwlockView r s' = w by rwa [hv]
  refine RwlockView.ext hx (funext hq) ?_
  rw [h.rwlockRole_eq ha, ht, hw]

theorem Step.rwlockView_of_frame (h : Step home listOps s a s') (ha : a.actor = some t)
    (hx : s'.rwlock r = s.rwlock r)
    (hq : ∀ op : RwOp, s'.store (.queue (op.queue r)) = s.store (.queue (op.queue r)))
    (ht : (s'.tcb t).pc.rwlockRole r = (s.tcb t).pc.rwlockRole r) :
    rwlockView r s' = rwlockView r s := by
  refine RwlockView.ext hx (funext hq) ?_
  rw [h.rwlockRole_eq ha, ht]
  exact update_eq_self _ _

theorem Step.rwlockView (h : Step home listOps s a s') :
    rwlockView r s' = rwlockView r s ∨
      ∃ e, RwlockStep (rwlockView r s) e (rwlockView r s') ∧ e.By s a r := by
  have hframe := fun {t} => h.rwlockView_of_frame (r := r) (t := t)
  have hev := fun {t e w x} => h.rwlockView_of_event (r := r) (t := t) (e := e) (w := w) (x := x)
  have hsame {t : Tid} := (update_eq_self t (GnuPth.rwlockView r s).role).symm
  cases h with
  | drain | cancelPoint => exact .inl rfl
  | call hr hpc he =>
    exact .inl (hframe (Act.entry_actor he) rfl (fun _ => rfl) (by simp [hpc, Act.entry_rwlockRole he]))
  | @exit t v pc hr hpc hp =>
    refine .inl (hframe rfl rfl (fun _ => rfl) ?_)
    rcases hp with rfl | ⟨rn, rfl⟩ <;> simp [hpc, Pc.rwlockRole]
  | @resume t ha hw =>
    rcases (s.tcb t).pc.woken_rwlockRole (r := r) with ⟨op, hop, hw⟩ | hw
    · refine .inr ⟨_, hev rfl (.resume hop) rfl (fun _ => rfl) rfl ?_, trivial⟩
      simpa using hw
    · exact .inl (hframe rfl rfl (fun _ => rfl) (by simpa using hw))
  | @unwind t ha hw hc =>
    rcases (s.tcb t).pc.unwound_rwlockRole (r := r) with ⟨op, hop, hw⟩ | hw
    · refine .inr ⟨_, hev rfl (.unwind hop) rfl (fun _ => rfl) rfl ?_,
        .inl ⟨rfl, by simpa using hc⟩⟩
      simpa using hw
    · exact .inl (hframe rfl rfl (fun _ => rfl) (by simpa using hw))
  | @cancelAsync t ha hpc hc =>
    rcases (s.tcb t).pc.unwound_rwlockRole (r := r) with ⟨op, hop, hw⟩ | hw
    · refine .inr ⟨_, hev rfl (.unwind hop) rfl (fun _ => rfl) rfl ?_,
        .inr ⟨rfl, by simpa using hc⟩⟩
      simpa using hw
    · exact .inl (hframe rfl rfl (fun _ => rfl) (by simpa using hw))
  | @rwlockEnter t r' op tryonly extra hr hpc hi ha =>
    by_cases hr' : r' = r
    · subst hr'
      refine .inr ⟨.enter t op, hev rfl (.enter ?_ ha) ?_ (fun _ => rfl) hsame ?_, trivial⟩
      all_goals simp [hpc]
    · exact .inl (hframe rfl (by simp [Ne.symm hr']) (fun _ => rfl) (by simp [hpc]))
  | @rwlockPark t r' op extra hr hpc hi ha =>
    by_cases hr' : r' = r
    · subst hr'
      refine .inr ⟨.park t op, hev rfl (.park ?_ ha) ?_ (fun op' => ?_) rfl ?_, trivial⟩
      case refine_3 => by_cases hop : op' = op <;> simp [hop]
      all_goals simp [hpc]
    · exact .inl (hframe rfl (by simp [Ne.symm hr']) (by simp [Ne.symm hr']) (by simp [hpc, hr']))
  | @rwlockTimeout t r' op extra b store hr hpc hrem he =>
    obtain ⟨rfl, rfl⟩ := listOps_remove.mp hrem
    by_cases hr' : r' = r
    · subst hr'
      obtain ⟨rfl, hst⟩ := he
      refine .inr ⟨.timeout t op, hev rfl (.timeout ?_) ?_ (fun op' => ?_) rfl ?_, rfl, hpc, hst⟩
      case refine_3 => by_cases hop : op' = op <;> simp [hop]
      all_goals simp [hpc]
    · exact .inl (hframe rfl (by simp [Ne.symm hr']) (by simp [Ne.symm hr']) (by simp [hpc, hr']))
  | @rwlockReenter t r' op extra b store hr hpc hrem he ha =>
    obtain ⟨rfl, rfl⟩ := listOps_remove.mp hrem
    rw [Rwlock.admits_unwait] at ha
    by_cases hr' : r' = r
    · subst hr'
      refine .inr ⟨.reenter t op, hev rfl (.reenter ?_ ha) ?_ (fun op' => ?_) rfl ?_, trivial⟩
      case refine_3 => by_cases hop : op' = op <;> simp [hop]
      all_goals simp [hpc]
    · exact .inl (hframe rfl (by simp [Ne.symm hr']) (by simp [Ne.symm hr']) (by simp [hpc, hr']))
  | @rwlockRepark t r' op extra b store hr hpc hrem he ha =>
    obtain ⟨rfl, rfl⟩ := listOps_remove.mp hrem
    rw [Rwlock.admits_unwait] at ha
    by_cases hr' : r' = r
    · subst hr'
      refine .inr ⟨.repark t op, hev rfl (.repark ?_ ha) ?_ (fun op' => ?_) rfl ?_, trivial⟩
      case refine_3 => by_cases hop : op' = op <;> simp [hop]
      all_goals simp [hpc]
    · exact .inl (hframe rfl (by simp [Ne.symm hr']) (by simp [Ne.symm hr']) (by simp [hpc, hr']))
  | @rwlockCleanup t r' op b₁ store₁ b₂ store₂ hr hpc h₁ h₂ =>
    obtain ⟨rfl, rfl⟩ := listOps_remove.mp h₁
    obtain ⟨-, rfl⟩ := listOps_remove.mp h₂
    by_cases hr' : r' = r
    · subst hr'
      refine .inr ⟨.leave t, hev rfl (.leave (show _ = RwlockRole.cleanup op from ?_)) ?_
        (fun op' => ?_) rfl ?_, trivial⟩
      case refine_3 => cases op' <;> simp [RwOp.queue]
      all_goals simp [hpc, RwOp.queue]
    · exact .inl (hframe rfl (by simp [Ne.symm hr']) (by simp [Ne.symm hr']) (by simp [hpc, hr']))
  | @readersLeft t r' hr hpc ho hn =>
    by_cases hr' : r' = r
    · subst hr'
      refine .inr ⟨.readersLeft, hev rfl (.readersLeft hn) ?_ (fun _ => rfl) hsame ?_, trivial⟩
      all_goals simp [hpc]
    · exact .inl (hframe rfl (by simp [Ne.symm hr']) (fun _ => rfl) (by simp [hpc]))
  | @wakeWriter t r' op w store hr hpc hx hs =>
    obtain ⟨ws, hq, rfl⟩ := listOps_shift_some.mp hs
    by_cases hr' : r' = r
    · subst hr'
      refine .inr ⟨.wakeWriter t w, hev rfl (.wakeWriter ?_ hx hq) ?_ (fun op' => ?_) hsame ?_,
        rfl, hpc⟩
      case refine_3 => cases op' <;> simp [RwOp.queue]
      all_goals simp [hpc]
    · exact .inl (hframe rfl (by simp [Ne.symm hr']) (by simp [Ne.symm hr']) (by simp [hpc]))
  | @herd t r' op chain store₁ store₂ hr hpc hx hs hh =>
    obtain ⟨hq, rfl⟩ := listOps_shift_none.mp hs
    obtain ⟨-, rfl⟩ := listOps_herd.mp hh
    by_cases hr' : r' = r
    · subst hr'
      refine .inr ⟨.herd, hev rfl (.herd hx hq) ?_ (fun op' => ?_) hsame ?_, trivial⟩
      case refine_2 => cases op' <;> simp [RwOp.queue]
      all_goals simp [hpc]
    · exact .inl (hframe rfl (by simp [Ne.symm hr']) (by simp [Ne.symm hr']) (by simp [hpc]))
  | @releaseFail t m k e b g hr hpc ho hb | @unlock t m k store b g hr hpc hn hs hb
  | @unrecurse t m k b g hr hpc hn hb =>
    exact .inl (hframe rfl rfl (by simp_all) (by simp [hpc, hb.rwlockRole]))
  | @post t w k b g hr hpc hb =>
    exact .inl (hframe rfl rfl (fun _ => rfl) (by simp [hpc, hb.rwlockRole]))
  | @condDequeue t c m pc b store hr hpc hrem =>
    obtain ⟨-, rfl⟩ := listOps_remove.mp hrem
    refine .inl (hframe rfl rfl (by simp) ?_)
    rcases hpc with ⟨hpc, rfl⟩ | ⟨hpc, rfl⟩ <;> simp [hpc]
  | passOn hr hpc ho hs | handoff hr hpc hn hs | wakeOne hr hpc hn hs | notifyOne hr hpc hi hs =>
    obtain ⟨ws, hq, rfl⟩ := listOps_shift_some.mp hs
    exact .inl (hframe rfl rfl (by simp) (by simp [hpc]))
  | acquireFail hr hpc | take hr hpc | recurse hr hpc | grant hr hpc =>
    exact .inl (hframe rfl rfl (fun _ => rfl) (by simp [hpc]))
  | mutexTimeout hr hpc ho hrem | retake hr hpc ho hrem =>
    obtain ⟨-, rfl⟩ := listOps_remove.mp hrem
    exact .inl (hframe rfl rfl (by simp) (by simp [hpc]))
  | _ =>
    left
    refine hframe rfl ?_ ?_ ?_
    all_goals clear hframe hev hsame
    all_goals simp_all

theorem rwlockView_ok (h : Reachable (listSystem home) s) : (rwlockView r s).Ok := by
  induction h with
  | init h =>
    obtain ⟨cfg, rfl⟩ := h
    constructor <;> simp [initial]
  | step _ hs ih =>
    rcases Step.rwlockView hs with he | ⟨e, he, -⟩
    · rwa [he]
    · exact he.ok ih

end

end GnuPth
