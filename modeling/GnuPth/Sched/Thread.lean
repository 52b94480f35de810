import GnuPth.Sched.State

/-!
# What threads do to threads

`pth_lib.c` and `pth_cancel.c`, as they run on the home scheduler of their
target: directly, called by a thread of the same scheduler, or from the drain
of the inbox. A function returns the state and `errno`, `none` for `TRUE`.

Signals stay a set for each thread; delivering them is left to the OS.
-/

namespace GnuPth.Sched

variable (s : State)

def threadExists (t : Tid) : Bool :=
  s.contains .nq t || s.contains .rq t || s.contains .wq t || s.contains .sq t || s.contains .dq t

/-! ### Suspending and favouring -/

def suspendLocal (t : Tid) : State × Option Errno :=
  if ¬ threadExists s t then (s, some .ESRCH)
  else match Qname.ofState (s.tcb t).state with
    | none => (s, some .EPERM)
    | some q =>
      if ¬ s.contains q t then (s, some .ESRCH)
      else ((s.dequeue q t).enqueue .sq prioStd t, none)

def pthSuspend (cur t : Tid) : State × Option Errno :=
  if t = cur then (s, some .EPERM) else suspendLocal s t

def resumeLocal (t : Tid) : State × Option Errno :=
  if ¬ s.contains .sq t then (s, some .EPERM)
  else match Qname.ofState (s.tcb t).state with
    -- `pth_pqueue_insert` with a null queue does nothing
    | none => (s.dequeue .sq t, none)
    | some q => ((s.dequeue .sq t).enqueue q prioStd t, none)

def pthResume (cur t : Tid) : State × Option Errno :=
  if t = cur then (s, some .EPERM) else resumeLocal s t

def favorite (q : Qname) (t : Tid) : State :=
  { s with queue := Function.update s.queue q ((s.queue q).favorite t) }

def favorQueue (t : Tid) : Option Qname :=
  match (s.tcb t).state with
  | .new => if s.contains .nq t then some .nq else none
  | .ready => if s.contains .rq t then some .rq else none
  | _ => none

def favorLocal (t : Tid) : State :=
  if ¬ threadExists s t then s
  else match favorQueue s t with
    | none => s
    | some q => favorite s q t

/-! ### Signals -/

def addSignal (t : Tid) (sig : Int) : State :=
  if sig ∈ (s.tcb t).sigpending then s
  else s.setTcb t fun b =>
    { b with sigpending := sig :: b.sigpending, sigpendcnt := b.sigpendcnt + 1 }

def raiseLocal (t : Tid) (sig : Int) : State :=
  if ¬ threadExists s t then s
  else if (s.tcb t).state = .dead then s
  else addSignal s t sig

/-! ### Cancellation -/

/-- With asynchronous cancellation the target leaves its queue and its cleanup
handlers run, until `cancelDone`. -/
def cancelLocal (t : Tid) : State × Option Errno :=
  if ¬ threadExists s t then (s, some .ESRCH)
  else if (s.tcb t).state = .dead then (s, some .EPERM)
  else
    let s := s.setTcb t ({ · with cancelreq := true })
    if (s.tcb t).cancelEnable ∧ (s.tcb t).cancelAsync then
      match Qname.ofState (s.tcb t).state with
      | none => (s, some .ESRCH)
      | some q =>
        if ¬ s.contains q t then (s, some .ESRCH)
        else
          let s := s.dequeue q t
          ({ s with cleaning := t :: s.cleaning }, none)
    else (s, none)

/-- The end of `pth_thread_cleanup` and the rest of `pth_cancel_local`. -/
def cancelDone (t : Tid) : State :=
  let s := destroyEvents s t
  if ¬ (s.tcb t).joinable then tcbFree s t
  else (s.setTcb t ({ · with state := .dead, joinArg := .canceled })).enqueue .dq prioStd t

def pthCancel (cur t : Tid) : State × Option Errno :=
  if t = cur then (s, some .EINVAL)
  else if (s.tcb t).state = .dead then (s, some .EPERM)
  else cancelLocal s t

/-- Detached and asynchronously cancellable. -/
def forceCancel (t : Tid) : State :=
  s.setTcb t fun b => { b with joinable := false, cancelEnable := true, cancelAsync := true }

/-- Taking a thread out of the dead queue and freeing it, without a look whether
it is there. -/
def reap (t : Tid) : State :=
  if (s.tcb t).alive ∧ s.contains .dq t then tcbFree (s.dequeue .dq t) t
  else { s with fault := true }

def abortLocal (t : Tid) : State :=
  if ¬ threadExists s t then s
  else if (s.tcb t).state = .dead then
    if (s.tcb t).joinable then reap s t else s
  else (cancelLocal (forceCancel s t) t).1

/-! ### Joining -/

/-- `pth_ctrl(PTH_CTRL_GETTHREADS)` -/
def getThreads : Nat :=
  s.elements .nq + s.elements .rq + 1 + s.elements .wq + s.elements .sq + s.elements .dq

/-- `tid`, or the head of the dead queue when the caller joins any thread. -/
def joinTarget (tid : Option Tid) : Option Tid :=
  match tid with
  | some t => some t
  | none => (s.members .dq).head?

/-- `pth_join` behind its wait: `tid` may have been freed meanwhile. -/
def joinEnd (tid : Option Tid) : State × Option Errno :=
  match joinTarget s tid with
  | none => (s, some .Eio)
  | some t =>
    if (s.tcb t).state ≠ .dead then
      -- the state was read from a block that may be gone
      ({ s with fault := s.fault || !(s.tcb t).alive }, some .Eio)
    else (reap s t, none)

/-- The checks of `pth_join` for a thread of the same scheduler. -/
def joinCheck (cur : Tid) (tid : Option Tid) : Option Errno :=
  if tid = some cur then some .EDEADLK
  else if (tid.any fun t => !(s.tcb t).joinable) then some .EINVAL
  else if getThreads s = 1 then some .EDEADLK
  else none

/-- `pth_join` has to wait for its target. -/
def joinWaits (tid : Option Tid) : Bool :=
  match joinTarget s tid with
  | none => true
  | some t => (s.tcb t).state ≠ .dead

/-- On a dead thread `pth_abort` is `pth_join`, otherwise it detaches the target
and cancels it asynchronously. -/
def pthAbort (cur t : Tid) : State × Option Errno :=
  if t = cur then (s, some .EINVAL)
  else if (s.tcb t).state = .dead ∧ (s.tcb t).joinable then
    match joinCheck s cur (some t) with
    | some e => (s, some e)
    | none => joinEnd s (some t)
  else pthCancel (forceCancel s t) cur t

end GnuPth.Sched
