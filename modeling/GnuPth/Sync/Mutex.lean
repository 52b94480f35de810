import GnuPth.Sync.Wait

/-!
# Mutual exclusion locks

`pth_mutex_acquire`, `pth_mutex_release`, `pth_mutex_setfair` and
`pth_mutex_wait_cleanup`, one definition for each spinlock section.
-/

namespace GnuPth

/-- Where the caller of `pth_mutex_acquire` goes on. -/
def AcquireFrom.pc (m : MutexId) : AcquireFrom → Pc
  | .app | .await _ => .app
  | .handler c => .condUnpark c m

/-- What is observed when `pth_mutex_acquire` returns `r`, latest first. It is
the last thing `pth_cond_await` does, which ignores the result. -/
def AcquireFrom.obs (t : Tid) (m : MutexId) (r : Result) : AcquireFrom → List Obs
  | .app | .handler _ => [.acquire t m r]
  | .await c => [.await t c m .ok, .acquire t m r]

section
variable (home : Tid → SchedId) (ops : WaitOps σ) (s : State σ) (t : Tid) (m : MutexId)

/-! ### pth_mutex_acquire -/

@[simp] def acquireReturn (k : AcquireFrom) (r : Result) : State σ :=
  { s.goto t (k.pc m) with log := k.obs t m r ++ s.log }

/-- Set `LOCKED`, the owner and the count. -/
@[simp] def mutexTake : State σ :=
  (s.setMutex m { s.mutex m with locked := true, owner := some t, count := 1 }).ringAdd t m

/-- The head of the wait loop: park with the spinlock held, then `pth_wait`. -/
def mutexPark (extra : Bool) (k : AcquireFrom) : Option (State σ) :=
  enterWait home (s.enqueue t ops .mutex (.mutex m)) t .mutex (.mutexWait m extra k)

def mutexEnter (tryonly extra : Bool) (k : AcquireFrom) : Option (State σ) :=
  let x := s.mutex m
  if !x.initialized then some (acquireReturn s t m k (.error .EDEADLK))
  else if !x.locked then some (acquireReturn (mutexTake s t m) t m k .ok)
  else if x.count ≥ 1 ∧ x.owner = some t then
    some (acquireReturn (s.setMutex m { x with count := x.count + 1 }) t m k .ok)
  else if tryonly then some (acquireReturn s t m k (.error .EBUSY))
  else mutexPark home ops s t m extra k

def mutexWoken (extra : Bool) (k : AcquireFrom) : Option (State σ) :=
  let x := s.mutex m
  if x.owner = some t then some (acquireReturn (s.ringAdd t m) t m k .ok)
  else match ops.remove s.store (.mutex m) t with
    | none => none
    | some (_, store) =>
      let s := s.setStore store
      if extra ∧ (s.tcb t).status .mutex = .pending then
        some (acquireReturn s t m k (.error .EINTR))
      else if !x.locked then some (acquireReturn (mutexTake s t m) t m k .ok)
      else mutexPark home ops s t m extra k

/-! ### pth_mutex_wait_cleanup -/

def Mutex.handTo (x : Mutex) (w : Tid) : Mutex := { x with owner := some w, count := 1 }

def Mutex.unlock (x : Mutex) : Mutex := { x with locked := false, owner := none, count := 0 }

/-- After the handler the application's own handlers run. -/
def mutexCleanup (k : AcquireFrom) : Option (State σ) :=
  let x := s.mutex m
  if x.owner = some t then
    match ops.shift s.store (.mutex m) with
    | (some w, store) =>
      some (((s.setStore store).setMutex m (x.handTo w)).goto t (.post w (.unwind m k)))
    | (none, store) => some (((s.setStore store).setMutex m x.unlock).goto t .app)
  else match ops.remove s.store (.mutex m) t with
    | none => none
    | some (_, store) => some ((s.setStore store).goto t .app)

/-! ### pth_mutex_release -/

/-- The step of `pth_mutex_releaseall` from node `rn` to the next one. -/
def releaseallNext (rn rnf : MutexId) : State σ :=
  match ringNext s.rings (s.tcb t).mutexring rn with
  | none => s.goto t .dying
  | some rn' => if rn' = rnf then s.goto t .dying else s.goto t (.releaseCheck rn' (.all rnf))

/-- `pth_mutex_release` returns to whoever called it. `pth_cond_await` ignores
the result and goes on to wait. -/
def releaseReturn (k : ReleaseFrom) : Option (State σ) :=
  match k with
  | .app => some (s.goto t .app)
  | .await c extra => enterWait home s t .cond (.condWait c m extra)
  | .all rnf => some (releaseallNext s t m rnf)

/-- The consistency checks, made without the spinlock. -/
def releaseCheck (k : ReleaseFrom) : Option (State σ) :=
  let x := s.mutex m
  if !x.initialized || !x.locked then
    releaseReturn home (s.emit (.release t m (.error .EDEADLK))) t m k
  else if x.owner ≠ some t then releaseReturn home (s.emit (.release t m (.error .EACCES))) t m k
  else some (s.goto t (.releaseLock m k))

def releaseLock (k : ReleaseFrom) : Option (State σ) :=
  let x := s.mutex m
  -- from here on the call returns `TRUE`
  let s := s.emit (.release t m .ok)
  if x.count - 1 = 0 then
    match ops.shift s.store (.mutex m) with
    | (some w, store) =>
      let x := if x.fair then x.handTo w else x.unlock
      some ((((s.setStore store).setMutex m x).ringDel t m).goto t (.post w (.release m k)))
    | (none, store) =>
      releaseReturn home (((s.setStore store).setMutex m x.unlock).ringDel t m) t m k
  else releaseReturn home (s.setMutex m { x with count := x.count - 1 }) t m k

/-- `pth_mutex_releaseall`, the last part of `pth_thread_cleanup`. -/
def mutexReleaseall : State σ :=
  match ringFirst (s.tcb t).mutexring with
  | none => s.goto t .dying
  | some rn => s.goto t (.releaseCheck rn (.all rn))

def mutexSetfair (fair : Bool) : State σ :=
  let x := s.mutex m
  if !x.initialized then s.emit (.setfair t m (.error .EDEADLK))
  else (s.setMutex m { x with fair }).emit (.setfair t m .ok)

end

end GnuPth
