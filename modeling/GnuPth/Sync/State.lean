import GnuPth.Waitq
import GnuPth.Ring

/-!
# The state shared by the schedulers

Threads, mutexes, condition variables, read-write locks, the wakeup inboxes
of the schedulers, and where in the library each thread is. A `Pc` names the
next atomic step of a thread: a spinlock section, one post to an inbox, or
one access to the link of a thread that no lock protects.

The memory of the wait queues is a parameter `σ`, so that the same code runs
over pointers (`WaitLinks`) and over lists (`WaitLists`).
-/

namespace GnuPth

open Function (update)

abbrev SchedId := Nat

inductive Status
  | pending
  | occurred
  | failed
  deriving DecidableEq, Repr

/-- The static events (`PTH_MODE_STATIC`) of a thread, by the call site that
owns the key. A thread has one event for each. -/
inductive EventKey
  | mutex
  | cond
  | rwlockRd
  | rwlockRw
  | join
  deriving DecidableEq, Repr

inductive Errno
  | EINVAL
  | EDEADLK
  | EBUSY
  | EINTR
  | EACCES
  | EPERM
  deriving DecidableEq, Repr

/-- What an API call returns: `TRUE`, or `FALSE` with `errno` set. -/
inductive Result
  | ok
  | error (e : Errno)
  deriving DecidableEq, Repr

inductive RwOp
  | rd
  | rw
  deriving DecidableEq, Repr

/-- A `void *`, as far as `pth_exit` and `pth_join` pass it on; `NULL` is 0. -/
abbrev Value := Int

def pthCanceled : Value := -1

/-! ### Synchronization objects -/

-- `mx_state` is kept as its three bits
structure Mutex where
  initialized : Bool
  locked : Bool
  fair : Bool
  owner : Option Tid
  count : Nat
  deriving DecidableEq, Repr

structure Cond where
  initialized : Bool
  waiters : Int
  deriving DecidableEq, Repr

structure Rwlock where
  initialized : Bool
  mode : RwOp
  readers : Nat
  owner : Option Tid
  wrwait : Int
  deriving DecidableEq, Repr

/-! ### Control -/

/-- Who called `pth_mutex_acquire`: the application, the end of
`pth_cond_await`, or `pth_cond_cleanup_handler`. -/
inductive AcquireFrom
  | app
  | await (c : CondId)
  | handler (c : CondId)
  deriving DecidableEq, Repr

/-- Who called `pth_mutex_release`: the application, `pth_cond_await`, or
`pth_mutex_releaseall` with the node it started from. -/
inductive ReleaseFrom
  | app
  | await (c : CondId) (extra : Bool)
  | all (rnf : MutexId)
  deriving DecidableEq, Repr

/-- What follows the post of a `PTH_GMSG_WAKE`. -/
inductive PostThen
  | release (m : MutexId) (k : ReleaseFrom)
  | unwind (m : MutexId) (k : AcquireFrom)
  | rwlockRelease (r : RwlockId)
  | herd (r : RwlockId) (chain : Option Tid)
  | notify (c : CondId) (broadcast : Bool)
  deriving DecidableEq, Repr

/-- The next atomic step of a thread. `app` is application code, including
the application's cleanup handlers; the `Wait` points are inside `pth_wait`,
the `Woken` points behind it, the `Cleanup` points in the handlers that a
cancellation runs. At `post w` the thread has taken `w` off a queue and has
still to post its wakeup. -/
inductive Pc
  | app
  | mutexEnter (m : MutexId) (tryonly extra : Bool) (k : AcquireFrom)
  | mutexWait (m : MutexId) (extra : Bool) (k : AcquireFrom)
  | mutexWoken (m : MutexId) (extra : Bool) (k : AcquireFrom)
  | mutexCleanup (m : MutexId) (k : AcquireFrom)
  | releaseCheck (m : MutexId) (k : ReleaseFrom)
  | releaseLock (m : MutexId) (k : ReleaseFrom)
  | post (w : Tid) (k : PostThen)
  | condPark (c : CondId) (m : MutexId) (extra : Bool)
  | condWait (c : CondId) (m : MutexId) (extra : Bool)
  | condWoken (c : CondId) (m : MutexId)
  -- the second half of `pth_cond_cleanup_handler`
  | condUnpark (c : CondId) (m : MutexId)
  | notify (c : CondId) (broadcast : Bool)
  | rwlockEnter (r : RwlockId) (op : RwOp) (tryonly extra : Bool)
  | rwlockWait (r : RwlockId) (op : RwOp) (extra : Bool)
  | rwlockWoken (r : RwlockId) (op : RwOp) (extra : Bool)
  | rwlockCleanup (r : RwlockId) (op : RwOp)
  | rwlockRelease (r : RwlockId)
  -- the loop over the private chain of readers, with the spinlock released
  | herdWalk (r : RwlockId) (chain : Option Tid)
  | herdClear (r : RwlockId) (w : Tid) (chain : Option Tid)
  | joinEnter (tid : Tid)
  | joinWait (tid : Tid)
  | joinWoken (tid : Tid)
  | joinCleanup (tid : Tid)
  | joinReap (tid : Tid) (v : Value)
  | dying
  | dead
  deriving DecidableEq, Repr

/-! ### State -/

structure Tcb where
  pc : Pc
  wqEvent : Option EventKey
  status : EventKey → Status
  -- the events given as `ev_extra`: `pending` while none occurred or failed
  extra : Status
  cancelreq : Bool
  cancelEnable : Bool
  cancelAsync : Bool
  -- `pth_thread_cleanup` runs for this thread on another stack (asynchronous
  -- cancellation)
  foreign : Bool
  mutexring : Ring MutexId
  joinable : Bool
  -- the argument of `pth_exit`
  exitArg : Value
  joinArg : Value
  joinDone : Bool
  freed : Bool

/-- `pth_gmsg_t`, as far as its kind concerns synchronization. -/
inductive Msg
  | wake (t : Tid) (ev : Option EventKey)
  | reap (t : Tid)
  deriving DecidableEq, Repr

/-- What a caller observes: the results of API calls and the moment a
cancellation request is acted upon. The `op` of `rwlockRelease` is the branch
taken: a write lock was held, or not. -/
inductive Obs
  | acquire (t : Tid) (m : MutexId) (r : Result)
  | release (t : Tid) (m : MutexId) (r : Result)
  | setfair (t : Tid) (m : MutexId) (r : Result)
  | await (t : Tid) (c : CondId) (m : MutexId) (r : Result)
  | notify (t : Tid) (c : CondId) (r : Result)
  | rwlockAcquire (t : Tid) (r : RwlockId) (op : RwOp) (res : Result)
  | rwlockRelease (t : Tid) (r : RwlockId) (op : RwOp) (res : Result)
  | joinFail (t tid : Tid) (e : Errno)
  | joined (t tid : Tid) (v : Value)
  | exit (t : Tid) (v : Value)
  | cancelled (t : Tid)
  deriving DecidableEq, Repr

structure State (σ : Type) where
  tcb : Tid → Tcb
  mutex : MutexId → Mutex
  cond : CondId → Cond
  rwlock : RwlockId → Rwlock
  store : σ
  -- posted and not yet drained, oldest first
  inbox : SchedId → List Msg
  -- the threads a scheduler is executing, `pth_current` first: more than one
  -- while `pth_thread_cleanup` has swapped a thread in, none while the
  -- scheduler itself runs
  active : SchedId → List Tid
  rings : RingLinks MutexId
  -- history variable: everything observed so far, latest first
  log : List Obs

section
variable (s : State σ) (t : Tid)

@[simp] def State.modTcb (f : Tcb → Tcb) : State σ := { s with tcb := update s.tcb t (f (s.tcb t)) }

@[simp] def State.goto (pc : Pc) : State σ := s.modTcb t fun b => { b with pc }

theorem State.goto_pc (pc : Pc) : ((s.goto t pc).tcb t).pc = pc := by simp

@[simp] def State.emit (o : Obs) : State σ := { s with log := o :: s.log }

@[simp] def State.setMutex (m : MutexId) (x : Mutex) : State σ := { s with mutex := update s.mutex m x }

@[simp] def State.setCond (c : CondId) (x : Cond) : State σ := { s with cond := update s.cond c x }

@[simp] def State.setRwlock (r : RwlockId) (x : Rwlock) : State σ :=
  { s with rwlock := update s.rwlock r x }

@[simp] def State.setStore (store : σ) : State σ := { s with store }

@[simp] def State.ret (o : Obs) : State σ := (s.emit o).goto t .app

@[simp] def State.ringAdd (m : MutexId) : State σ :=
  let r := ringAppend s.rings (s.tcb t).mutexring m
  { s.modTcb t fun b => { b with mutexring := r.2 } with rings := r.1 }

@[simp] def State.ringDel (m : MutexId) : State σ :=
  let r := ringDelete s.rings (s.tcb t).mutexring m
  { s.modTcb t fun b => { b with mutexring := r.2 } with rings := r.1 }

end

end GnuPth
