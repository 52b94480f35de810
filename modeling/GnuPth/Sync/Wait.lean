import GnuPth.Sync.State

/-!
# Waiting and waking

`pth_wait` up to its switch into the scheduler, its way back through
`pth_cancel_point`, and the inbox by which one scheduler wakes a thread of
another. A thread never migrates: `home` is its `sched_home`.
-/

namespace GnuPth

open Function (update)

section
variable (home : Tid → SchedId) (s : State σ) (t : Tid)

/-! ### pth_wait -/

/-- `pth_current->wq_event = ev; pth_waitq_append(q, pth_current)` -/
@[simp] def State.enqueue (ops : WaitOps σ) (key : EventKey) (q : QueueId) : State σ :=
  let s := s.modTcb t fun b => { b with wqEvent := some key }
  s.setStore (ops.append s.store q t)

/-- Mark the events of the ring pending and switch to the scheduler. -/
@[simp] def State.sleep (key : EventKey) (pc : Pc) : State σ :=
  { s.modTcb t fun b =>
      { b with pc, status := update b.status key .pending, extra := .pending } with
    active := update s.active (home t) (s.active (home t)).tail }

/-- A thread whose cleanup runs on a foreign stack has no context of its own to
switch from: what the C code does then is outside this model. -/
def enterWait (key : EventKey) (pc : Pc) : Option (State σ) :=
  if (s.tcb t).foreign then none else some (s.sleep home t key pc)

/-- The own event and whether there are extra ones, at a point inside `pth_wait`. -/
def Pc.waitsFor : Pc → Option (EventKey × Bool)
  | .mutexWait _ extra _ => some (.mutex, extra)
  | .condWait _ _ extra => some (.cond, extra)
  | .rwlockWait _ .rd extra => some (.rwlockRd, extra)
  | .rwlockWait _ .rw extra => some (.rwlockRw, extra)
  | .joinWait _ => some (.join, false)
  | _ => none

def Pc.woken : Pc → Pc
  | .mutexWait m extra k => .mutexWoken m extra k
  | .condWait c m _ => .condWoken c m
  | .rwlockWait r op extra => .rwlockWoken r op extra
  | .joinWait tid => .joinWoken tid
  | pc => pc

/-- The topmost cleanup handler, which `pth_exit` runs first. -/
def Pc.unwound : Pc → Pc
  | .mutexWait m _ k => .mutexCleanup m k
  | .condWait c m _ => .mutexEnter m false false (.handler c)
  | .rwlockWait r op _ => .rwlockCleanup r op
  | .joinWait tid => .joinCleanup tid
  | pc => pc

/-- The event manager has moved the thread to the ready queue and the
scheduler dispatches it: some event of its ring is no longer pending, or a
cancellation request is. -/
def runnable (b : Tcb) : Bool :=
  match b.pc.waitsFor with
  | some (key, extra) =>
    b.status key != .pending || (extra && b.extra != .pending) || b.cancelreq
  | none => false

def resume : Option (State σ) :=
  let b := s.tcb t
  if s.active (home t) = [] ∧ runnable b then
    let s := { s with active := update s.active (home t) [t] }
    if b.cancelreq && b.cancelEnable then
      some (({ s with log := .cancelled t :: s.log }).modTcb t fun b =>
        { b with pc := b.pc.unwound, cancelreq := false })
    else some (s.goto t (s.tcb t).pc.woken)
  else none

def fire : Option (State σ) :=
  match (s.tcb t).pc.waitsFor with
  | some (_, true) =>
    if s.active (home t) = [] then some (s.modTcb t fun b => { b with extra := .occurred })
    else none
  | _ => none

/-! ### The wakeup inbox -/

/-- `pth_gsched_wake(w->sched_home, w, w->wq_event)`, reading `wq_event` now. -/
@[simp] def gschedWake (w : Tid) : State σ :=
  { s with inbox := update s.inbox (home w) (s.inbox (home w) ++ [.wake w (s.tcb w).wqEvent]) }

/-- The messages that wake `ws`, each read off the thread when it is posted. -/
def State.wakes (ws : List Tid) : List Msg := ws.map fun w => .wake w (s.tcb w).wqEvent

@[simp] def applyMsg (s : State σ) : Msg → State σ
  | .wake w (some key) => s.modTcb w fun b => { b with status := update b.status key .occurred }
  | .wake _ none => s
  | .reap tid => s.modTcb tid fun b => { b with freed := true }

/-- `pth_gsched_drain`, run by the scheduler `g` itself. -/
def gschedDrain (g : SchedId) : Option (State σ) :=
  if s.active g = [] then
    some ((s.inbox g).foldl applyMsg { s with inbox := update s.inbox g [] })
  else none

/-! ### Cancellation -/

/-- `pth_cancel_local`, for a thread that is not executing, called by the
application code of another one or by the scheduler for a request in its
inbox. In asynchronous mode the cleanup handlers run at once, with the thread
swapped in. -/
def cancelLocal : Option (State σ) :=
  let b := s.tcb t
  let current := (s.active (home t)).head?
  if (∀ u ∈ current, (s.tcb u).pc = .app) ∧ t ∉ s.active (home t) ∧
      (b.pc = .app ∨ b.pc.waitsFor.isSome) then
    if b.cancelEnable && b.cancelAsync then
      some { s with
        tcb := update s.tcb t { b with pc := b.pc.unwound, cancelreq := true, foreign := true }
        active := update s.active (home t) (t :: s.active (home t))
        log := .cancelled t :: s.log }
    else some (s.modTcb t fun b => { b with cancelreq := true })
  else none

/-- `pth_abort_local` up to its call of `pth_cancel_local` (`cancelLocal`), made
by the application code of another thread or by the scheduler. A dead thread
that still waits to be joined is freed. -/
def abortLocal : Option (State σ) :=
  let b := s.tcb t
  let current := (s.active (home t)).head?
  if (∀ u ∈ current, (s.tcb u).pc = .app) ∧ t ∉ s.active (home t) then
    if b.pc = .dead then
      if b.joinDone ∧ b.freed = false ∧ b.joinable then
        some (s.modTcb t fun b => { b with freed := true })
      else none
    else if b.pc = .app ∨ b.pc.waitsFor.isSome then
      some (s.modTcb t fun b =>
        { b with joinable := false, cancelEnable := true, cancelAsync := true })
    else none
  else none

/-- `pth_cancel_point`, called by the application. -/
def cancelPoint : State σ :=
  let b := s.tcb t
  if b.cancelreq && b.cancelEnable then
    (s.emit (.cancelled t)).modTcb t fun b => { b with cancelreq := false }
  else s

@[simp] def cancelState (enable async : Bool) : State σ :=
  s.modTcb t fun b => { b with cancelEnable := enable, cancelAsync := async }

end

end GnuPth
