import GnuPth.Inbox
import GnuPth.Pqueue
import GnuPth.Time
import GnuPth.Sync.State

/-!
# The state of one scheduler

The control blocks of the threads that live on one scheduler, its five queues,
the events its threads wait for, its inbox, and where its OS thread is: in a
thread, in the scheduler loop, or in a pass of the event manager. The inbox is
the list of the messages pushed and not yet taken, oldest first.

A control block that was freed keeps its fields, as freed memory does until it
is used again, but is no longer `alive`. When the code goes on to use such a
block, `fault` is set and the model says nothing about what follows.
-/

namespace GnuPth.Sched

open Function (update)
open Inbox (Gmsg)

abbrev EventId := Inbox.EventAddr

inductive ThreadState
  | new
  | ready
  | waiting
  | dead
  deriving DecidableEq, Repr

inductive Errno
  | EINVAL
  | EPERM
  | ESRCH
  | EDEADLK
  | Eio
  deriving DecidableEq, Repr

/-! ### Events -/

/-- The type of an event with the arguments the scheduler computes with. A
function event tests `pth_exit_cb` or a function of the application. -/
inductive Spec
  | fd
  | select
  | sigs
  | msg
  | notify
  | time (tv : Timeval)
  | tid (t : Option Tid) (goal : ThreadState)
  | func (exitCb : Bool) (tv : Timeval)
  deriving DecidableEq, Repr

structure Event where
  spec : Spec
  status : Status
  -- not freed
  live : Bool
  -- the thread whose specific data holds it (`PTH_MODE_STATIC`)
  owner : Option Tid
  deriving DecidableEq, Repr

/-! ### Threads -/

/-- Who called `pth_wait`: the application, `pth_join`, or `pth_exit` of the
main thread. -/
inductive Cont
  | app
  | join (tid : Option Tid)
  | exit
  deriving DecidableEq, Repr

/-- Where a thread goes on when it is dispatched: in the application, behind the
switch inside `pth_wait`, or in the cleanup handlers that `pth_exit` runs. -/
inductive Pc
  | app
  | inWait (k : Cont)
  | exiting
  deriving DecidableEq, Repr

/-- `join_arg`: as `pth_spawn` sets it, the argument of `pth_exit`, or
`PTH_CANCELED`. -/
inductive JoinArg
  | null
  | exit
  | canceled
  deriving DecidableEq, Repr

structure Tcb where
  alive : Bool
  -- the scheduler has put it into its new queue
  adopted : Bool
  state : ThreadState
  prio : Int
  joinable : Bool
  cancelreq : Bool
  cancelEnable : Bool
  cancelAsync : Bool
  joinArg : JoinArg
  -- the ring `events`, from its hook on
  events : List EventId
  sigpending : List Int
  sigpendcnt : Int
  pc : Pc
  deriving DecidableEq, Repr

/-- What `pth_spawn_common` takes from the attributes. -/
structure Attr where
  prio : Int
  joinable : Bool
  cancelEnable : Bool
  cancelAsync : Bool
  deriving DecidableEq, Repr

def Attr.tcb (a : Attr) (adopted : Bool) : Tcb where
  alive := true
  adopted := adopted
  state := .new
  prio := a.prio
  joinable := a.joinable
  cancelreq := false
  cancelEnable := a.cancelEnable
  cancelAsync := a.cancelAsync
  joinArg := .null
  events := []
  sigpending := []
  sigpendcnt := 0
  pc := .app

inductive Qname
  | nq
  | rq
  | wq
  | sq
  | dq
  deriving DecidableEq, Repr

/-- The queue that the `switch` statements over the state select. -/
def Qname.ofState : ThreadState → Option Qname
  | .new => some .nq
  | .ready => some .rq
  | .waiting => some .wq
  | .dead => none

/-! ### Control -/

/-- `nexttimer_thread`, `nexttimer_ev` and `nexttimer_value` -/
structure Timer where
  thread : Tid
  event : EventId
  value : Timeval
  deriving DecidableEq, Repr

/-- A pass of the event manager: at `loop_entry`, in the first drain with the
messages still to be processed, before the scan, in the wait call (with its
timeout in microseconds and the clock when it was entered), behind it, in the
second drain, and before the timer branch. -/
inductive Em
  | enter (dopoll : Bool) (now : Timeval)
  | drain (dopoll : Bool) (now : Timeval) (any : Bool) (batch : List Gmsg)
  | scan (dopoll : Bool) (now : Timeval)
  | wait (dopoll : Bool) (timer : Option Timer) (timeout : Option Int) (since : Int)
  | woken (dopoll : Bool) (timer : Option Timer) (rc0 : Bool)
  | redrain (dopoll : Bool) (timer : Option Timer) (rc0 : Bool) (batch : List Gmsg)
  | finish (dopoll : Bool) (timer : Option Timer) (rc0 : Bool)
  deriving DecidableEq, Repr

/-- The scheduler's OS thread: at the top of the loop, in a thread, back from
one, in the event manager, back in its bootstrap context, or at the end of the
process. -/
inductive Ctl
  | loop
  | run (t : Tid)
  | back (t : Tid)
  | em (e : Em)
  | left
  | exited
  | aborted
  deriving DecidableEq, Repr

structure State where
  tcb : Tid → Tcb
  event : EventId → Event
  queue : Qname → Pqueue
  ctl : Ctl
  -- the asynchronous cancellations under way, the innermost first: their
  -- handlers run, as `pth_current`, on the stack of whoever cancelled
  cleaning : List Tid
  inbox : List Gmsg
  stop : Bool
  -- microseconds
  clock : Int
  fault : Bool
  -- history: the time events the event manager tagged, with the clock then, and
  -- the threads that other schedulers spawned here and that were adopted
  fired : List (Timeval × Int)
  spawned : List Tid
  adoptions : List Tid

/-- The event manager compiled in, with the heartbeat of the event port. -/
inductive Backend
  | select
  | poll
  | evport (revalMs : Int)
  deriving DecidableEq, Repr

structure Config where
  -- scheduler 0 has the main thread
  main : Option Tid
  favournew : Bool
  backend : Backend
  deriving DecidableEq, Repr

/-! ### Access -/

namespace State

variable (s : State)

def setTcb (t : Tid) (f : Tcb → Tcb) : State := { s with tcb := update s.tcb t (f (s.tcb t)) }

def setEvent (e : EventId) (f : Event → Event) : State :=
  { s with event := update s.event e (f (s.event e)) }

def setStatus (e : EventId) (st : Status) : State := s.setEvent e ({ · with status := st })

def enqueue (n : Qname) (prio : Int) (t : Tid) : State :=
  { s with queue := update s.queue n ((s.queue n).insert prio t) }

def dequeue (n : Qname) (t : Tid) : State :=
  { s with queue := update s.queue n ((s.queue n).delete t) }

def members (n : Qname) : List Tid := (s.queue n).members

def elements (n : Qname) : Nat := (s.queue n).length

def contains (n : Qname) (t : Tid) : Bool := (s.queue n).contains t

def now : Timeval := .ofMicros s.clock

end State

/-- `pth_tcb_free` -/
def tcbFree (s : State) (t : Tid) : State := s.setTcb t ({ · with alive := false })

/-- The destructors of the static events of `t`, in `pth_key_destroydata`. -/
def destroyEvents (s : State) (t : Tid) : State :=
  { s with event := fun e =>
      if (s.event e).owner = some t then { s.event e with live := false } else s.event e }

end GnuPth.Sched
