import GnuPth.Sync.Wait

/-!
# Condition variables

`pth_cond_await` parks before it releases the mutex (`condPark`, then the
release with `ReleaseFrom.await`), waits, takes itself off the queue and
acquires the mutex again. When it is cancelled in the wait,
`pth_cond_cleanup_handler` acquires the mutex first and takes the thread off
the queue afterwards (`condUnpark`).
-/

namespace GnuPth

section
variable (ops : WaitOps σ) (s : State σ) (t : Tid) (c : CondId)

def condPark (m : MutexId) (extra : Bool) : Option (State σ) :=
  let x := s.cond c
  if !x.initialized then some (s.ret t (.await t c m (.error .EDEADLK)))
  else if (s.tcb t).foreign then none
  else
    let s := (s.enqueue t ops .cond (.cond c)).setCond c { x with waiters := x.waiters + 1 }
    some (s.goto t (.releaseCheck m (.await c extra)))

/-- `if (pth_waitq_remove(&cond->cn_waitq, pth_current)) cond->cn_waiters--`,
then on to `pc`. -/
def condDequeue (pc : Pc) : Option (State σ) :=
  match ops.remove s.store (.cond c) t with
  | none => none
  | some (removed, store) =>
    let x := s.cond c
    let s := (s.setStore store).setCond c
      { x with waiters := if removed then x.waiters - 1 else x.waiters }
    some (s.goto t pc)

def condWoken (m : MutexId) : Option (State σ) :=
  condDequeue ops s t c (.mutexEnter m false false (.await c))

def condUnpark : Option (State σ) := condDequeue ops s t c .app

/-- One turn of the loop of `pth_cond_notify`. -/
def condNotify (broadcast : Bool) : State σ :=
  let x := s.cond c
  if !x.initialized then s.ret t (.notify t c (.error .EDEADLK))
  else match ops.shift s.store (.cond c) with
    | (none, store) => (s.setStore store).ret t (.notify t c .ok)
    | (some w, store) =>
      ((s.setStore store).setCond c { x with waiters := x.waiters - 1 }).goto t
        (.post w (.notify c broadcast))

end

end GnuPth
