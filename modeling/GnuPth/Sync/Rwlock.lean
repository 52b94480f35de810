import GnuPth.Sync.Wait

/-!
# Read-write locks

`pth_rwlock_acquire`, `pth_rwlock_release` and `pth_rwlock_wait_cleanup`. The
last reader or the writer that leaves wakes one parked writer, or else moves
all parked readers onto a private chain and walks it after unlocking.
-/

namespace GnuPth

def RwOp.queue (r : RwlockId) : RwOp → QueueId
  | .rd => .rwlockRd r
  | .rw => .rwlockRw r

section
variable {op : RwOp}

@[simp] theorem RwOp.queue_inj : op.queue r = op'.queue r' ↔ op = op' ∧ r = r' := by
  cases op <;> cases op' <;> simp [RwOp.queue]

@[simp] theorem RwOp.queue_ne_mutex : op.queue r ≠ .mutex m := by cases op <;> simp [RwOp.queue]

@[simp] theorem RwOp.queue_ne_cond : op.queue r ≠ .cond c := by cases op <;> simp [RwOp.queue]

@[simp] theorem RwOp.queue_ne_join : op.queue r ≠ .join tid := by cases op <;> simp [RwOp.queue]

@[simp] theorem RwOp.mutex_ne_queue : QueueId.mutex m ≠ op.queue r := Ne.symm RwOp.queue_ne_mutex

@[simp] theorem RwOp.queue_eq_rw : op.queue r = .rwlockRw r' ↔ op = .rw ∧ r = r' := by
  cases op <;> simp [RwOp.queue]

@[simp] theorem RwOp.queue_eq_rd : op.queue r = .rwlockRd r' ↔ op = .rd ∧ r = r' := by
  cases op <;> simp [RwOp.queue]

end

def RwOp.key : RwOp → EventKey
  | .rd => .rwlockRd
  | .rw => .rwlockRw

/-- Writers need the lock exclusively; readers pass unless a writer is active
or parked. -/
def Rwlock.admits (x : Rwlock) : RwOp → Bool
  | .rw => x.owner = none ∧ x.readers = 0
  | .rd => x.owner = none ∧ x.wrwait = 0

def Rwlock.enter (x : Rwlock) (t : Tid) : RwOp → Rwlock
  | .rw => { x with owner := some t, mode := .rw }
  | .rd => { x with readers := x.readers + 1, mode := .rd }

/-- `rw_wrwait` counts parked writers only. -/
def Rwlock.addWait (x : Rwlock) (op : RwOp) (d : Int) : Rwlock :=
  match op with
  | .rw => { x with wrwait := x.wrwait + d }
  | .rd => x

/-- `if (pth_waitq_remove(..)) rwlock->rw_wrwait--` for writers. -/
def Rwlock.unwait (x : Rwlock) (op : RwOp) (removed : Bool) : Rwlock :=
  if removed then x.addWait op (-1) else x

section
variable {x : Rwlock}

@[simp] theorem Rwlock.addWait_owner : (x.addWait op d).owner = x.owner := by cases op <;> rfl

@[simp] theorem Rwlock.addWait_readers : (x.addWait op d).readers = x.readers := by cases op <;> rfl

@[simp] theorem Rwlock.unwait_owner : (x.unwait op b).owner = x.owner := by cases b <;> simp
    [unwait]

@[simp] theorem Rwlock.unwait_readers : (x.unwait op b).readers = x.readers := by
  cases b <;> simp [unwait]

@[simp] theorem Rwlock.unwait_rd : x.unwait .rd b = x := by cases b <;> rfl

theorem Rwlock.admits_unwait : (x.unwait op b).admits op = x.admits op := by
  cases op <;> cases b <;> rfl

end

def Rwlock.vacate (x : Rwlock) : RwOp → Rwlock
  | .rw => { x with owner := none }
  | .rd => { x with readers := x.readers - 1 }

section
variable (home : Tid → SchedId) (ops : WaitOps σ) (s : State σ) (t : Tid) (r : RwlockId)

/-! ### pth_rwlock_acquire -/

/-- One turn of the loop from its head to `pth_wait`. -/
def rwlockExamine (op : RwOp) (tryonly extra : Bool) : Option (State σ) :=
  let x := s.rwlock r
  if x.admits op then some ((s.setRwlock r (x.enter t op)).ret t (.rwlockAcquire t r op .ok))
  else if tryonly then some (s.ret t (.rwlockAcquire t r op (.error .EBUSY)))
  else
    let s := (s.enqueue t ops op.key (op.queue r)).setRwlock r (x.addWait op 1)
    enterWait home s t op.key (.rwlockWait r op extra)

def rwlockEnter (op : RwOp) (tryonly extra : Bool) : Option (State σ) :=
  if !(s.rwlock r).initialized then some (s.ret t (.rwlockAcquire t r op (.error .EDEADLK)))
  else rwlockExamine home ops s t r op tryonly extra

def rwlockWoken (op : RwOp) (extra : Bool) : Option (State σ) :=
  match ops.remove s.store (op.queue r) t with
  | none => none
  | some (removed, store) =>
    let s := (s.setStore store).setRwlock r ((s.rwlock r).unwait op removed)
    if extra ∧ (s.tcb t).status op.key = .pending then
      some (s.ret t (.rwlockAcquire t r op (.error .EINTR)))
    else rwlockExamine home ops s t r op false extra

/-- `pth_rwlock_wait_cleanup` tries both queues. -/
def rwlockCleanup : Option (State σ) :=
  match ops.remove s.store (.rwlockRw r) t with
  | none => none
  | some (removed, store) =>
    let s := (s.setStore store).setRwlock r ((s.rwlock r).unwait .rw removed)
    match ops.remove s.store (.rwlockRd r) t with
    | none => none
    | some (_, store) => some ((s.setStore store).goto t .app)

/-! ### pth_rwlock_release -/

def rwlockWake : Option (State σ) :=
  match ops.shift s.store (.rwlockRw r) with
  | (some w, store) =>
    some (((s.setStore store).setRwlock r ((s.rwlock r).addWait .rw (-1))).goto t
      (.post w (.rwlockRelease r)))
  | (none, store) =>
    match ops.herd store t (.rwlockRd r) with
    | none => none
    | some (chain, store) => some ((s.setStore store).goto t (.herdWalk r chain))

def rwlockRelease : Option (State σ) :=
  let x := s.rwlock r
  if !x.initialized then some (s.ret t (.rwlockRelease t r .rd (.error .EDEADLK)))
  else if x.owner ≠ none then
    if x.owner ≠ some t then some (s.ret t (.rwlockRelease t r .rw (.error .EACCES)))
    else rwlockWake ops ((s.setRwlock r (x.vacate .rw)).emit (.rwlockRelease t r .rw .ok)) t r
  else if x.readers = 0 then some (s.ret t (.rwlockRelease t r .rd (.error .EPERM)))
  else
    let s := (s.setRwlock r (x.vacate .rd)).emit (.rwlockRelease t r .rd .ok)
    if (s.rwlock r).readers > 0 then some (s.goto t .app) else rwlockWake ops s t r

def herdWalk (chain : Option Tid) : State σ :=
  match chain with
  | none => s.goto t .app
  | some w => s.goto t (.herdClear r w (ops.chainNext s.store t w))

def herdClear (w : Tid) (chain : Option Tid) : State σ :=
  (s.setStore (ops.chainClear s.store t w)).goto t (.post w (.herd r chain))

end

end GnuPth
