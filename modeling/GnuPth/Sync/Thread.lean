import GnuPth.Sync.Mutex

/-!
# Joining and dying

`pth_join` across schedulers and the death of a thread on its home
scheduler: the joiners park on a queue in the control block of the thread
they wait for.
-/

namespace GnuPth

open Function (update)

section
variable (home : Tid → SchedId) (ops : WaitOps σ) (s : State σ) (t tid : Tid)

/-- The checks of `pth_join`. A join on the own scheduler waits for a polled
event and not on a queue; it is not part of this model. -/
def joinCall : Option (State σ) :=
  if tid = t then some (s.emit (.joinFail t tid .EDEADLK))
  else if !(s.tcb tid).joinable then some (s.emit (.joinFail t tid .EINVAL))
  else if home tid = home t then none
  else some (s.goto t (.joinEnter tid))

def joinEnter : Option (State σ) :=
  if (s.tcb tid).joinDone then some (s.goto t (.joinReap tid (s.tcb tid).joinArg))
  else enterWait home (s.enqueue t ops .join (.join tid)) t .join (.joinWait tid)

/-- `pth_waitq_remove(&tid->join_waitq, pth_current)`, then on to `pc`: after
the wait, and in `pth_join_cleanup`. -/
def joinDequeue (pc : Pc) : Option (State σ) :=
  match ops.remove s.store (.join tid) t with
  | none => none
  | some (_, store) => some ((s.setStore store).goto t pc)

/-- Ask the home scheduler to free the dead thread. -/
@[simp] def joinReap (v : Value) : State σ :=
  let inbox := update s.inbox (home tid) (s.inbox (home tid) ++ [.reap tid])
  { s with inbox }.ret t (.joined t tid v)

/-- `pth_exit` up to `pth_mutex_releaseall`; the application's cleanup handlers
have run. -/
def pthExit (v : Value) : State σ :=
  mutexReleaseall ((s.emit (.exit t v)).modTcb t fun b => { b with exitArg := v }) t

/-- What the joiner of a dead thread gets. -/
def Tcb.result (b : Tcb) : Value := if b.foreign then pthCanceled else b.exitArg

/-- The scheduler's death path, or the end of `pth_cancel_local`: publish the
death and wake the joiners, or free the control block of a detached thread. -/
def die : Option (State σ) :=
  let s := { s with active := update s.active (home t) (s.active (home t)).tail }
  if (s.tcb t).joinable then
    match ops.shiftAll s.store (.join t) with
    | none => none
    | some (ws, store) =>
      let s := (s.setStore store).modTcb t fun b =>
        { b with pc := .dead, joinArg := b.result, joinDone := true }
      some (ws.foldl (gschedWake home) s)
  else some (s.modTcb t fun b => { b with pc := .dead, freed := true })

end

end GnuPth
