import GnuPth.Sync.Returns

/-!
# The steps as rules

`Step` has one rule for each way an atomic step of the system can go, with the
branch conditions as premises. `exec_step` reads a success of `exec` as a
rule; the invariants of the development are proved rule by rule.
-/

namespace GnuPth

open Function (update)
open Transition

/-- The calls that only move the caller to the first step of a library function. -/
def Act.entry : Act → Option (Tid × Pc)
  | .acquire t m tryonly extra => some (t, .mutexEnter m tryonly extra .app)
  | .release t m => some (t, .releaseCheck m .app)
  | .await t c m extra => some (t, .condPark c m extra)
  | .notify t c broadcast => some (t, .notify c broadcast)
  | .rwlockAcquire t r op tryonly extra => some (t, .rwlockEnter r op tryonly extra)
  | .rwlockRelease t r => some (t, .rwlockRelease r)
  | .join t tid => some (t, .joinEnter tid)
  | _ => none

/-- The release by `t` of a lock held in mode `op` makes it free. -/
def Rwlock.LastOut (x : Rwlock) (t : Tid) : RwOp → Prop
  | .rw => x.owner = some t
  | .rd => x.owner = none ∧ x.readers = 1

/-- The next step of `t` puts it onto a wait queue. -/
def parks {σ : Type} (s : State σ) (t : Tid) : Prop :=
  match (s.tcb t).pc with
  | .mutexEnter m tryonly _ _ =>
    let x := s.mutex m
    x.initialized = true ∧ x.locked = true ∧ ¬(x.count ≥ 1 ∧ x.owner = some t) ∧ tryonly = false
  | .mutexWoken m extra _ =>
    let x := s.mutex m
    x.owner ≠ some t ∧ x.locked = true ∧ ¬(extra = true ∧ (s.tcb t).status .mutex = .pending)
  | .condPark c _ _ => (s.cond c).initialized = true
  | .rwlockEnter r op tryonly _ =>
    (s.rwlock r).initialized = true ∧ (s.rwlock r).admits op = false ∧ tryonly = false
  | .rwlockWoken r op extra =>
    (s.rwlock r).admits op = false ∧ ¬(extra = true ∧ (s.tcb t).status op.key = .pending)
  | .joinEnter tid => (s.tcb tid).joinDone = false
  | _ => False

/-- With `a`, the thread `t` acts upon a cancellation request. -/
def ActsOnCancel {σ : Type} (s : State σ) (a : Act) (t : Tid) : Prop :=
  (a = .resume t ∧ (s.tcb t).cancelreq = true ∧ (s.tcb t).cancelEnable = true) ∨
  (a = .cancel t ∧ (s.tcb t).cancelEnable = true ∧ (s.tcb t).cancelAsync = true)

def Emits {σ : Type} (s s' : State σ) (o : Obs) : Prop := ∃ os, s'.log = os ++ s.log ∧ o ∈ os

section
variable (home : Tid → SchedId) (ops : WaitOps σ)

inductive Step : State σ → Act → State σ → Prop
  -- schedulers
  | dispatch {s t} (ha : s.active (home t) = []) (hpc : (s.tcb t).pc = .app) :
      Step s (.dispatch t) { s with active := update s.active (home t) [t] }
  | yield {s t} (hr : running home s t) (hpc : (s.tcb t).pc = .app)
      (hf : (s.tcb t).foreign = false) :
      Step s (.yield t) { s with active := update s.active (home t) (s.active (home t)).tail }
  | resume {s t} (ha : s.active (home t) = []) (hw : runnable (s.tcb t))
      (hc : ((s.tcb t).cancelreq && (s.tcb t).cancelEnable) = false) :
      Step s (.resume t)
        ({ s with active := update s.active (home t) [t] }.goto t (s.tcb t).pc.woken)
  | unwind {s t} (ha : s.active (home t) = []) (hw : runnable (s.tcb t))
      (hc : ((s.tcb t).cancelreq && (s.tcb t).cancelEnable) = true) :
      Step s (.resume t)
        (({ s with active := update s.active (home t) [t] }.emit (.cancelled t)).modTcb t fun b =>
          { b with pc := b.pc.unwound, cancelreq := false })
  | fire {s t key} (hw : (s.tcb t).pc.waitsFor = some (key, true)) (ha : s.active (home t) = []) :
      Step s (.fire t) (s.modTcb t fun b => { b with extra := .occurred })
  | drain {s g} (ha : s.active g = []) :
      Step s (.drain g)
        { s with
          tcb := fun u => (s.tcb u).drained (s.inbox g) u
          inbox := update s.inbox g [] }
  | cancel {s t} (ha : t ∉ s.active (home t))
      (hpc : (s.tcb t).pc = .app ∨ (s.tcb t).pc.waitsFor.isSome) :
      Step s (.cancel t) (s.modTcb t fun b => { b with cancelreq := true })
  | cancelAsync {s t} (ha : t ∉ s.active (home t))
      (hpc : (s.tcb t).pc = .app ∨ (s.tcb t).pc.waitsFor.isSome)
      (hc : ((s.tcb t).cancelEnable && (s.tcb t).cancelAsync) = true) :
      Step s (.cancel t)
        { s with
          tcb := update s.tcb t
            { s.tcb t with pc := (s.tcb t).pc.unwound, cancelreq := true, foreign := true }
          active := update s.active (home t) (t :: s.active (home t))
          log := .cancelled t :: s.log }
  | abort {s t} (ha : t ∉ s.active (home t))
      (hpc : (s.tcb t).pc = .app ∨ (s.tcb t).pc.waitsFor.isSome) :
      Step s (.abort t) (s.modTcb t fun b =>
        { b with joinable := false, cancelEnable := true, cancelAsync := true })
  | abortDead {s t} (hpc : (s.tcb t).pc = .dead) (hd : (s.tcb t).joinDone = true) :
      Step s (.abort t) (s.modTcb t fun b => { b with freed := true })
  | setJoinable {s t joinable} :
      Step s (.setJoinable t joinable) (s.modTcb t fun b => { b with joinable })
  -- calls
  | call {s a t pc} (hr : running home s t) (hpc : (s.tcb t).pc = .app)
      (he : a.entry = some (t, pc)) (hj : ∀ tid, a = .join t tid → (s.tcb tid).joinable = true) :
      Step s a (s.goto t pc)
  | setfair {s t m fair} (hr : running home s t) (hpc : (s.tcb t).pc = .app)
      (hi : (s.mutex m).initialized = true) :
      Step s (.setfair t m fair)
        ((s.setMutex m { s.mutex m with fair }).emit (.setfair t m .ok))
  | setfairFail {s t m fair} (hr : running home s t) (hpc : (s.tcb t).pc = .app)
      (hi : (s.mutex m).initialized = false) :
      Step s (.setfair t m fair) (s.emit (.setfair t m (.error .EDEADLK)))
  | joinFail {s t tid e} (hr : running home s t) (hpc : (s.tcb t).pc = .app) :
      Step s (.join t tid) (s.emit (.joinFail t tid e))
  | cancelState {s t enable async} (hr : running home s t) (hpc : (s.tcb t).pc = .app) :
      Step s (.cancelState t enable async) (cancelState s t enable async)
  | cancelPoint {s t} (hr : running home s t) (hpc : (s.tcb t).pc = .app) :
      Step s (.cancelPoint t) s
  | cancelActed {s t} (hr : running home s t) (hpc : (s.tcb t).pc = .app) :
      Step s (.cancelPoint t)
        ((s.emit (.cancelled t)).modTcb t fun b => { b with cancelreq := false })
  | exit {s t v pc} (hr : running home s t) (hpc : (s.tcb t).pc = .app)
      (hp : pc = .dying ∨ ∃ rn, pc = .releaseCheck rn (.all rn)) :
      Step s (.exit t v)
        ((s.emit (.exit t v)).modTcb t fun b => { b with pc, exitArg := v })
  -- pth_mutex_acquire
  | acquireFail {s t m tryonly extra k e} (hr : running home s t)
      (hpc : (s.tcb t).pc = .mutexEnter m tryonly extra k)
      (he : (s.mutex m).initialized = false ∨ tryonly = true) :
      Step s (.step t) (acquireReturn s t m k (.error e))
  | take {s t m tryonly extra k} (hr : running home s t)
      (hpc : (s.tcb t).pc = .mutexEnter m tryonly extra k)
      (hi : (s.mutex m).initialized = true) (hl : (s.mutex m).locked = false) :
      Step s (.step t) (acquireReturn (mutexTake s t m) t m k .ok)
  | recurse {s t m tryonly extra k} (hr : running home s t)
      (hpc : (s.tcb t).pc = .mutexEnter m tryonly extra k)
      (hi : (s.mutex m).initialized = true) (hl : (s.mutex m).locked = true)
      (hn : (s.mutex m).count ≥ 1) (ho : (s.mutex m).owner = some t) :
      Step s (.step t)
        (acquireReturn (s.setMutex m { s.mutex m with count := (s.mutex m).count + 1 }) t m k .ok)
  | mutexPark {s t m extra k} (hr : running home s t)
      (hpc : (s.tcb t).pc = .mutexEnter m false extra k)
      (hi : (s.mutex m).initialized = true) (hl : (s.mutex m).locked = true)
      (ho : ¬((s.mutex m).count ≥ 1 ∧ (s.mutex m).owner = some t))
      (hf : (s.tcb t).foreign = false) :
      Step s (.step t)
        ((s.enqueue t ops .mutex (.mutex m)).sleep home t .mutex (.mutexWait m extra k))
  | grant {s t m extra k} (hr : running home s t) (hpc : (s.tcb t).pc = .mutexWoken m extra k)
      (ho : (s.mutex m).owner = some t) :
      Step s (.step t) (acquireReturn (s.ringAdd t m) t m k .ok)
  | mutexTimeout {s t m extra k b store} (hr : running home s t)
      (hpc : (s.tcb t).pc = .mutexWoken m extra k) (ho : (s.mutex m).owner ≠ some t)
      (hrem : ops.remove s.store (.mutex m) t = some (b, store))
      (he : extra = true ∧ (s.tcb t).status .mutex = .pending) :
      Step s (.step t) (acquireReturn (s.setStore store) t m k (.error .EINTR))
  | retake {s t m extra k b store} (hr : running home s t)
      (hpc : (s.tcb t).pc = .mutexWoken m extra k) (ho : (s.mutex m).owner ≠ some t)
      (hrem : ops.remove s.store (.mutex m) t = some (b, store))
      (he : ¬(extra = true ∧ (s.tcb t).status .mutex = .pending))
      (hl : (s.mutex m).locked = false) :
      Step s (.step t) (acquireReturn (mutexTake (s.setStore store) t m) t m k .ok)
  | mutexRepark {s t m extra k b store} (hr : running home s t)
      (hpc : (s.tcb t).pc = .mutexWoken m extra k) (ho : (s.mutex m).owner ≠ some t)
      (hrem : ops.remove s.store (.mutex m) t = some (b, store))
      (he : ¬(extra = true ∧ (s.tcb t).status .mutex = .pending))
      (hl : (s.mutex m).locked = true) (hf : (s.tcb t).foreign = false) :
      Step s (.step t)
        (((s.setStore store).enqueue t ops .mutex (.mutex m)).sleep home t .mutex
          (.mutexWait m extra k))
  -- pth_mutex_wait_cleanup
  | passOn {s t m k w store} (hr : running home s t) (hpc : (s.tcb t).pc = .mutexCleanup m k)
      (ho : (s.mutex m).owner = some t) (hs : ops.shift s.store (.mutex m) = (some w, store)) :
      Step s (.step t)
        (((s.setStore store).setMutex m ((s.mutex m).handTo w)).goto t (.post w (.unwind m k)))
  | passFree {s t m k store} (hr : running home s t) (hpc : (s.tcb t).pc = .mutexCleanup m k)
      (ho : (s.mutex m).owner = some t) (hs : ops.shift s.store (.mutex m) = (none, store)) :
      Step s (.step t) (((s.setStore store).setMutex m (s.mutex m).unlock).goto t .app)
  | mutexLeave {s t m k b store} (hr : running home s t) (hpc : (s.tcb t).pc = .mutexCleanup m k)
      (ho : (s.mutex m).owner ≠ some t) (hrem : ops.remove s.store (.mutex m) t = some (b, store)) :
      Step s (.step t) ((s.setStore store).goto t .app)
  -- pth_mutex_release
  | releaseFail {s t m k e b g} (hr : running home s t) (hpc : (s.tcb t).pc = .releaseCheck m k)
      (ho : (s.mutex m).initialized = false ∨ (s.mutex m).locked = false ∨
        (s.mutex m).owner ≠ some t) (hb : k.ReturnsTo m b.pc) (hc : (s.tcb t).Continues b)
      (hg : g = activeAfter home s t b.pc) :
      Step s (.step t)
        { s.emit (.release t m (.error e)) with tcb := update s.tcb t b, active := g }
  | releaseCheck {s t m k} (hr : running home s t) (hpc : (s.tcb t).pc = .releaseCheck m k)
      (hi : (s.mutex m).initialized = true) (hl : (s.mutex m).locked = true)
      (ho : (s.mutex m).owner = some t) :
      Step s (.step t) (s.goto t (.releaseLock m k))
  | handoff {s t m k w store} (hr : running home s t) (hpc : (s.tcb t).pc = .releaseLock m k)
      (hn : (s.mutex m).count - 1 = 0) (hs : ops.shift s.store (.mutex m) = (some w, store))
      (hf : (s.mutex m).fair = true) :
      Step s (.step t)
        (((((s.emit (.release t m .ok)).setStore store).setMutex m
          ((s.mutex m).handTo w)).ringDel t m).goto t (.post w (.release m k)))
  | wakeOne {s t m k w store} (hr : running home s t) (hpc : (s.tcb t).pc = .releaseLock m k)
      (hn : (s.mutex m).count - 1 = 0) (hs : ops.shift s.store (.mutex m) = (some w, store))
      (hf : (s.mutex m).fair = false) :
      Step s (.step t)
        (((((s.emit (.release t m .ok)).setStore store).setMutex m
          (s.mutex m).unlock).ringDel t m).goto t (.post w (.release m k)))
  | unlock {s t m k store b g} (hr : running home s t) (hpc : (s.tcb t).pc = .releaseLock m k)
      (hn : (s.mutex m).count - 1 = 0) (hs : ops.shift s.store (.mutex m) = (none, store))
      (hb : k.ReturnsTo m b.pc) (hc : (s.tcb t).Continues b)
      (hg : g = activeAfter home s t b.pc) :
      Step s (.step t)
        { (((s.emit (.release t m .ok)).setStore store).setMutex m (s.mutex m).unlock).ringDel
            t m with
          tcb := update s.tcb t b, active := g }
  | unrecurse {s t m k b g} (hr : running home s t) (hpc : (s.tcb t).pc = .releaseLock m k)
      (hn : (s.mutex m).count - 1 ≠ 0) (hb : k.ReturnsTo m b.pc) (hc : (s.tcb t).Continues b)
      (hg : g = activeAfter home s t b.pc) :
      Step s (.step t)
        { (s.emit (.release t m .ok)).setMutex m
            { s.mutex m with count := (s.mutex m).count - 1 } with
          tcb := update s.tcb t b, active := g }
  | post {s t w k b g} (hr : running home s t) (hpc : (s.tcb t).pc = .post w k)
      (hb : k.ReturnsTo b.pc) (hc : (s.tcb t).Continues b)
      (hg : g = activeAfter home s t b.pc) :
      Step s (.step t)
        { gschedWake home s w with
          tcb := update s.tcb t b, active := g, log := k.obs t ++ s.log }
  -- pth_cond_await, pth_cond_cleanup_handler, pth_cond_notify
  | awaitFail {s t c m extra} (hr : running home s t) (hpc : (s.tcb t).pc = .condPark c m extra)
      (hi : (s.cond c).initialized = false) :
      Step s (.step t) (s.ret t (.await t c m (.error .EDEADLK)))
  | condPark {s t c m extra} (hr : running home s t) (hpc : (s.tcb t).pc = .condPark c m extra)
      (hi : (s.cond c).initialized = true) (hf : (s.tcb t).foreign = false) :
      Step s (.step t)
        (((s.enqueue t ops .cond (.cond c)).setCond c
          { s.cond c with waiters := (s.cond c).waiters + 1 }).goto t
            (.releaseCheck m (.await c extra)))
  | condDequeue {s t c m pc b store} (hr : running home s t)
      (hpc : (s.tcb t).pc = .condWoken c m ∧ pc = .mutexEnter m false false (.await c) ∨
        (s.tcb t).pc = .condUnpark c m ∧ pc = .app)
      (hrem : ops.remove s.store (.cond c) t = some (b, store)) :
      Step s (.step t)
        (((s.setStore store).setCond c
          { s.cond c with waiters := if b then (s.cond c).waiters - 1 else (s.cond c).waiters }).goto
            t pc)
  | notifyFail {s t c broadcast} (hr : running home s t)
      (hpc : (s.tcb t).pc = .notify c broadcast) (hi : (s.cond c).initialized = false) :
      Step s (.step t) (s.ret t (.notify t c (.error .EDEADLK)))
  | notifyNone {s t c broadcast store} (hr : running home s t)
      (hpc : (s.tcb t).pc = .notify c broadcast) (hi : (s.cond c).initialized = true)
      (hs : ops.shift s.store (.cond c) = (none, store)) :
      Step s (.step t) ((s.setStore store).ret t (.notify t c .ok))
  | notifyOne {s t c broadcast w store} (hr : running home s t)
      (hpc : (s.tcb t).pc = .notify c broadcast) (hi : (s.cond c).initialized = true)
      (hs : ops.shift s.store (.cond c) = (some w, store)) :
      Step s (.step t)
        (((s.setStore store).setCond c
          { s.cond c with waiters := (s.cond c).waiters - 1 }).goto t (.post w (.notify c broadcast)))
  -- pth_rwlock_acquire, pth_rwlock_wait_cleanup
  | rwlockFail {s t r op tryonly extra e} (hr : running home s t)
      (hpc : (s.tcb t).pc = .rwlockEnter r op tryonly extra)
      (he : (s.rwlock r).initialized = false ∨ tryonly = true) :
      Step s (.step t) (s.ret t (.rwlockAcquire t r op (.error e)))
  | rwlockEnter {s t r op tryonly extra} (hr : running home s t)
      (hpc : (s.tcb t).pc = .rwlockEnter r op tryonly extra)
      (hi : (s.rwlock r).initialized = true) (ha : (s.rwlock r).admits op = true) :
      Step s (.step t)
        ((s.setRwlock r ((s.rwlock r).enter t op)).ret t (.rwlockAcquire t r op .ok))
  | rwlockPark {s t r op extra} (hr : running home s t)
      (hpc : (s.tcb t).pc = .rwlockEnter r op false extra)
      (hi : (s.rwlock r).initialized = true) (ha : (s.rwlock r).admits op = false)
      (hf : (s.tcb t).foreign = false) :
      Step s (.step t)
        (((s.enqueue t ops op.key (op.queue r)).setRwlock r ((s.rwlock r).addWait op 1)).sleep home
          t op.key (.rwlockWait r op extra))
  | rwlockTimeout {s t r op extra b store} (hr : running home s t)
      (hpc : (s.tcb t).pc = .rwlockWoken r op extra)
      (hrem : ops.remove s.store (op.queue r) t = some (b, store))
      (he : extra = true ∧ (s.tcb t).status op.key = .pending) :
      Step s (.step t)
        (((s.setStore store).setRwlock r ((s.rwlock r).unwait op b)).ret t
          (.rwlockAcquire t r op (.error .EINTR)))
  | rwlockReenter {s t r op extra b store} (hr : running home s t)
      (hpc : (s.tcb t).pc = .rwlockWoken r op extra)
      (hrem : ops.remove s.store (op.queue r) t = some (b, store))
      (he : ¬(extra = true ∧ (s.tcb t).status op.key = .pending))
      (ha : ((s.rwlock r).unwait op b).admits op = true) :
      Step s (.step t)
        (((s.setStore store).setRwlock r (((s.rwlock r).unwait op b).enter t op)).ret t
          (.rwlockAcquire t r op .ok))
  | rwlockRepark {s t r op extra b store} (hr : running home s t)
      (hpc : (s.tcb t).pc = .rwlockWoken r op extra)
      (hrem : ops.remove s.store (op.queue r) t = some (b, store))
      (he : ¬(extra = true ∧ (s.tcb t).status op.key = .pending))
      (ha : ((s.rwlock r).unwait op b).admits op = false) (hf : (s.tcb t).foreign = false) :
      Step s (.step t)
        ((((s.setStore store).enqueue t ops op.key (op.queue r)).setRwlock r
          (((s.rwlock r).unwait op b).addWait op 1)).sleep home t op.key (.rwlockWait r op extra))
  | rwlockCleanup {s t r op b₁ store₁ b₂ store₂} (hr : running home s t)
      (hpc : (s.tcb t).pc = .rwlockCleanup r op)
      (h₁ : ops.remove s.store (.rwlockRw r) t = some (b₁, store₁))
      (h₂ : ops.remove store₁ (.rwlockRd r) t = some (b₂, store₂)) :
      Step s (.step t)
        (((s.setStore store₂).setRwlock r ((s.rwlock r).unwait .rw b₁)).goto t .app)
  -- pth_rwlock_release
  | rwlockReleaseFail {s t r op e} (hr : running home s t)
      (hpc : (s.tcb t).pc = .rwlockRelease r) :
      Step s (.step t) (s.ret t (.rwlockRelease t r op (.error e)))
  | readersLeft {s t r} (hr : running home s t) (hpc : (s.tcb t).pc = .rwlockRelease r)
      (ho : (s.rwlock r).owner = none) (hn : (s.rwlock r).readers > 1) :
      Step s (.step t)
        ((s.setRwlock r ((s.rwlock r).vacate .rd)).ret t (.rwlockRelease t r .rd .ok))
  | wakeWriter {s t r op w store} (hr : running home s t) (hpc : (s.tcb t).pc = .rwlockRelease r)
      (hx : (s.rwlock r).LastOut t op) (hs : ops.shift s.store (.rwlockRw r) = (some w, store)) :
      Step s (.step t)
        ((((s.emit (.rwlockRelease t r op .ok)).setStore store).setRwlock r
          (((s.rwlock r).vacate op).addWait .rw (-1))).goto t (.post w (.rwlockRelease r)))
  | herd {s t r op chain store₁ store₂} (hr : running home s t)
      (hpc : (s.tcb t).pc = .rwlockRelease r) (hx : (s.rwlock r).LastOut t op)
      (hs : ops.shift s.store (.rwlockRw r) = (none, store₁))
      (hh : ops.herd store₁ t (.rwlockRd r) = some (chain, store₂)) :
      Step s (.step t)
        ((((s.emit (.rwlockRelease t r op .ok)).setStore store₂).setRwlock r
          ((s.rwlock r).vacate op)).goto t (.herdWalk r chain))
  | herdDone {s t r} (hr : running home s t) (hpc : (s.tcb t).pc = .herdWalk r none) :
      Step s (.step t) (s.goto t .app)
  | herdNext {s t r w} (hr : running home s t) (hpc : (s.tcb t).pc = .herdWalk r (some w)) :
      Step s (.step t) (s.goto t (.herdClear r w (ops.chainNext s.store t w)))
  | herdClear {s t r w chain} (hr : running home s t) (hpc : (s.tcb t).pc = .herdClear r w chain) :
      Step s (.step t)
        ((s.setStore (ops.chainClear s.store t w)).goto t (.post w (.herd r chain)))
  -- pth_join and the death of a thread
  | joinPast {s t tid} (hr : running home s t) (hpc : (s.tcb t).pc = .joinEnter tid)
      (hd : (s.tcb tid).joinDone = true) :
      Step s (.step t) (s.goto t (.joinReap tid (s.tcb tid).joinArg))
  | joinPark {s t tid} (hr : running home s t) (hpc : (s.tcb t).pc = .joinEnter tid)
      (hd : (s.tcb tid).joinDone = false) (hf : (s.tcb t).foreign = false) :
      Step s (.step t)
        ((s.enqueue t ops .join (.join tid)).sleep home t .join (.joinWait tid))
  | joinWoken {s t tid b store} (hr : running home s t) (hpc : (s.tcb t).pc = .joinWoken tid)
      (hrem : ops.remove s.store (.join tid) t = some (b, store)) :
      Step s (.step t) ((s.setStore store).goto t (.joinReap tid (s.tcb tid).joinArg))
  | joinCleanup {s t tid b store} (hr : running home s t) (hpc : (s.tcb t).pc = .joinCleanup tid)
      (hrem : ops.remove s.store (.join tid) t = some (b, store)) :
      Step s (.step t) ((s.setStore store).goto t .app)
  | joinReap {s t tid v} (hr : running home s t) (hpc : (s.tcb t).pc = .joinReap tid v) :
      Step s (.step t) (joinReap home s t tid v)
  | die {s t ws store} (hr : running home s t) (hpc : (s.tcb t).pc = .dying)
      (hj : (s.tcb t).joinable = true) (hs : ops.shiftAll s.store (.join t) = some (ws, store)) :
      Step s (.step t)
        { (s.setStore store).modTcb t fun b =>
            { b with pc := .dead, joinArg := b.result, joinDone := true } with
          active := update s.active (home t) (s.active (home t)).tail
          inbox := fun g => s.inbox g ++ s.wakes (ws.filter (home · = g)) }
  | dieDetached {s t} (hr : running home s t) (hpc : (s.tcb t).pc = .dying)
      (hj : (s.tcb t).joinable = false) :
      Step s (.step t)
        ({ s with active := update s.active (home t) (s.active (home t)).tail }.modTcb t fun b =>
          { b with pc := .dead, freed := true })

end

/-! ### From the code to the rules -/

section
variable {σ : Type}
variable {m : MutexId}

theorem mutexEnter_step (hr : running home s t) (hpc : (s.tcb t).pc = .mutexEnter m tryonly extra k)
    (h : mutexEnter home ops s t m tryonly extra k = some s') : Step home ops s (.step t) s' := by
  simp only [mutexEnter] at h
  split at h
  · rename_i hi
    cases h
    exact .acquireFail hr hpc (.inl (by simpa using hi))
  · rename_i hi
    split at h
    · rename_i hl
      cases h
      exact .take hr hpc (by simpa using hi) (by simpa using hl)
    · rename_i hl
      split at h
      · rename_i ho
        cases h
        exact .recurse hr hpc (by simpa using hi) (by simpa using hl) ho.1 ho.2
      · rename_i ho
        split at h
        · rename_i ht
          cases h
          exact .acquireFail hr hpc (.inr ht)
        · rename_i ht
          obtain ⟨hf, rfl⟩ := enterWait_some h
          obtain rfl : tryonly = false := by simpa using ht
          exact .mutexPark hr hpc (by simpa using hi) (by simpa using hl) ho (by simpa using hf)

theorem mutexWoken_step (hr : running home s t) (hpc : (s.tcb t).pc = .mutexWoken m extra k)
    (h : mutexWoken home ops s t m extra k = some s') : Step home ops s (.step t) s' := by
  simp only [mutexWoken] at h
  split at h
  · rename_i ho
    cases h
    exact .grant hr hpc ho
  · rename_i ho
    split at h
    · cases h
    · rename_i b store hrem
      split at h
      · rename_i he
        cases h
        exact .mutexTimeout hr hpc ho hrem he
      · rename_i he
        split at h
        · rename_i hl
          cases h
          exact .retake hr hpc ho hrem he (by simpa using hl)
        · rename_i hl
          obtain ⟨hf, rfl⟩ := enterWait_some h
          exact .mutexRepark hr hpc ho hrem he (by simpa using hl)
            (by simpa using hf)

theorem mutexCleanup_step (hr : running home s t) (hpc : (s.tcb t).pc = .mutexCleanup m k)
    (h : mutexCleanup ops s t m k = some s') : Step home ops s (.step t) s' := by
  simp only [mutexCleanup] at h
  split at h
  · rename_i ho
    split at h
    · rename_i hs
      cases h
      exact .passOn hr hpc ho hs
    · rename_i hs
      cases h
      exact .passFree hr hpc ho hs
  · rename_i ho
    split at h
    · cases h
    · rename_i hrem
      cases h
      exact .mutexLeave hr hpc ho hrem

theorem releaseCheck_step (hr : running home s t) (hpc : (s.tcb t).pc = .releaseCheck m k)
    (h : releaseCheck home s t m k = some s') : Step home ops s (.step t) s' := by
  simp only [releaseCheck] at h
  split at h
  · rename_i hi
    obtain ⟨b, g, rfl, hb, hc, hg⟩ := releaseReturn_some h
    refine .releaseFail hr hpc ?_ hb hc hg
    rcases Bool.or_eq_true_iff.mp hi with hi | hl
    · exact .inl (by simpa using hi)
    · exact .inr (.inl (by simpa using hl))
  · rename_i hi
    obtain ⟨hi, hl⟩ : (s.mutex m).initialized = true ∧ (s.mutex m).locked = true := by
      simpa using hi
    split at h
    · rename_i ho
      obtain ⟨b, g, rfl, hb, hc, hg⟩ := releaseReturn_some h
      exact .releaseFail hr hpc (.inr (.inr ho)) hb hc hg
    · rename_i ho
      cases h
      exact .releaseCheck hr hpc hi hl (by simpa using ho)

theorem releaseLock_step (hr : running home s t) (hpc : (s.tcb t).pc = .releaseLock m k)
    (h : releaseLock home ops s t m k = some s') : Step home ops s (.step t) s' := by
  simp only [releaseLock] at h
  split at h
  · rename_i hn
    split at h
    · rename_i hs
      cases h
      cases hf : (s.mutex m).fair with
      | true => exact .handoff hr hpc hn hs hf
      | false => exact .wakeOne hr hpc hn hs hf
    · rename_i hs
      obtain ⟨b, g, rfl, hb, hc, hg⟩ := releaseReturn_some h
      have hc' : (s.tcb t).Continues b := ⟨hc.rest.trans (by simp), hc.slept⟩
      simpa using Step.unlock hr hpc hn hs hb hc' hg
  · rename_i hn
    obtain ⟨b, g, rfl, hb, hc, hg⟩ := releaseReturn_some h
    exact .unrecurse hr hpc hn hb hc hg

theorem condPark_step (hr : running home s t) (hpc : (s.tcb t).pc = .condPark c m extra)
    (h : condPark ops s t c m extra = some s') : Step home ops s (.step t) s' := by
  simp only [condPark] at h
  split at h
  · rename_i hi
    cases h
    exact .awaitFail hr hpc (by simpa using hi)
  · rename_i hi
    split at h
    · cases h
    · rename_i hf
      cases h
      exact .condPark hr hpc (by simpa using hi) (by simpa using hf)

theorem condDequeue_some (h : condDequeue ops s t c pc = some s') :
    ∃ b store, ops.remove s.store (.cond c) t = some (b, store) ∧
      s' = ((s.setStore store).setCond c
        { s.cond c with waiters := if b then (s.cond c).waiters - 1 else (s.cond c).waiters }).goto
          t pc := by
  simp only [condDequeue] at h
  split at h
  · cases h
  · rename_i b store hrem
    exact ⟨b, store, hrem, (Option.some.inj h).symm⟩

theorem herdWalk_step (hr : running home s t) (hpc : (s.tcb t).pc = .herdWalk r chain) :
    Step home ops s (.step t) (herdWalk ops s t r chain) := by
  cases chain with
  | none => exact .herdDone hr hpc
  | some => exact .herdNext hr hpc

theorem condNotify_step (hr : running home s t) (hpc : (s.tcb t).pc = .notify c broadcast) :
    Step home ops s (.step t) (condNotify ops s t c broadcast) := by
  simp only [condNotify]
  split
  · rename_i hi
    exact .notifyFail hr hpc (by simpa using hi)
  · rename_i hi
    split
    · rename_i hs
      exact .notifyNone hr hpc (by simpa using hi) hs
    · rename_i hs
      exact .notifyOne hr hpc (by simpa using hi) hs

theorem rwlockEnter_step
    (hr : running home s t) (hpc : (s.tcb t).pc = .rwlockEnter r op tryonly extra)
    (h : rwlockEnter home ops s t r op tryonly extra = some s') : Step home ops s (.step t) s' := by
  simp only [rwlockEnter, rwlockExamine] at h
  split at h
  · rename_i hi
    cases h
    exact .rwlockFail hr hpc (.inl (by simpa using hi))
  · rename_i hi
    split at h
    · rename_i ha
      cases h
      exact .rwlockEnter hr hpc (by simpa using hi) ha
    · rename_i ha
      split at h
      · rename_i ht
        cases h
        exact .rwlockFail hr hpc (.inr ht)
      · rename_i ht
        obtain ⟨hf, rfl⟩ := enterWait_some h
        obtain rfl : tryonly = false := by simpa using ht
        exact .rwlockPark hr hpc (by simpa using hi) (by simpa using ha)
          (by simpa using hf)

theorem rwlockWoken_step (hr : running home s t) (hpc : (s.tcb t).pc = .rwlockWoken r op extra)
    (h : rwlockWoken home ops s t r op extra = some s') : Step home ops s (.step t) s' := by
  simp only [rwlockWoken, rwlockExamine] at h
  split at h
  · cases h
  · rename_i b store hrem
    split at h
    · rename_i he
      cases h
      exact .rwlockTimeout hr hpc hrem he
    · rename_i he
      split at h
      · rename_i ha
        cases h
        have hs := Step.rwlockReenter hr hpc hrem he (by simpa using ha)
        simpa using hs
      · rename_i ha
        obtain ⟨hf, rfl⟩ := enterWait_some h
        have hs := Step.rwlockRepark hr hpc hrem he (by simpa using ha)
          (by simpa using hf)
        simpa using hs

theorem rwlockCleanup_step (hr : running home s t) (hpc : (s.tcb t).pc = .rwlockCleanup r op)
    (h : rwlockCleanup ops s t r = some s') : Step home ops s (.step t) s' := by
  simp only [rwlockCleanup] at h
  split at h
  · cases h
  · rename_i h₁
    split at h
    · cases h
    · rename_i h₂
      cases h
      exact .rwlockCleanup hr hpc h₁ h₂

theorem rwlockWake_step (op : RwOp) (hr : running home s t) (hpc : (s.tcb t).pc = .rwlockRelease r)
    (hx : (s.rwlock r).LastOut t op)
    (h : rwlockWake ops ((s.setRwlock r ((s.rwlock r).vacate op)).emit
      (.rwlockRelease t r op .ok)) t r = some s') : Step home ops s (.step t) s' := by
  simp only [rwlockWake] at h
  split at h
  · rename_i hs
    cases h
    have hs := Step.wakeWriter hr hpc hx hs
    simpa using hs
  · rename_i hs
    split at h
    · cases h
    · rename_i hh
      cases h
      exact .herd hr hpc hx hs hh

theorem rwlockRelease_step (hr : running home s t) (hpc : (s.tcb t).pc = .rwlockRelease r)
    (h : rwlockRelease ops s t r = some s') : Step home ops s (.step t) s' := by
  simp only [rwlockRelease] at h
  split at h
  · cases h
    exact .rwlockReleaseFail hr hpc
  · split at h
    · split at h
      · cases h
        exact .rwlockReleaseFail hr hpc
      · rename_i ho
        exact rwlockWake_step .rw hr hpc (by simpa [Rwlock.LastOut] using ho) h
    · rename_i ho
      replace ho : (s.rwlock r).owner = none := by simpa using ho
      split at h
      · cases h
        exact .rwlockReleaseFail hr hpc
      · have hv : ((s.setRwlock r ((s.rwlock r).vacate .rd)).rwlock r).readers =
            (s.rwlock r).readers - 1 := by simp [Rwlock.vacate]
        split at h
        · rename_i hn'
          cases h
          exact .readersLeft hr hpc ho (by simp only [State.emit] at hn'; omega)
        · rename_i hn'
          refine rwlockWake_step .rd hr hpc ⟨ho, ?_⟩ h
          simp only [State.emit] at hn'
          omega

theorem joinEnter_step (hr : running home s t) (hpc : (s.tcb t).pc = .joinEnter tid)
    (h : joinEnter home ops s t tid = some s') : Step home ops s (.step t) s' := by
  simp only [joinEnter] at h
  split at h
  · rename_i hd
    cases h
    exact .joinPast hr hpc hd
  · rename_i hd
    obtain ⟨hf, rfl⟩ := enterWait_some h
    exact .joinPark hr hpc (by simpa using hd) (by simpa using hf)

theorem joinDequeue_some (h : joinDequeue ops s t tid pc = some s') :
    ∃ b store, ops.remove s.store (.join tid) t = some (b, store) ∧
      s' = (s.setStore store).goto t pc := by
  simp only [joinDequeue] at h
  split at h
  · cases h
  · rename_i b store hrem
    exact ⟨b, store, hrem, (Option.some.inj h).symm⟩

theorem die_step (hr : running home s t) (hpc : (s.tcb t).pc = .dying)
    (h : die home ops s t = some s') : Step home ops s (.step t) s' := by
  simp only [die] at h
  split at h
  · rename_i hj
    split at h
    · cases h
    · rename_i hs
      rw [Option.some.injEq, foldl_gschedWake] at h
      subst h
      have hstep := Step.die hr hpc hj hs
      have hw : ∀ u, (update s.tcb t { s.tcb t with
          pc := .dead, joinArg := (s.tcb t).result, joinDone := true } u).wqEvent =
            (s.tcb u).wqEvent := by
        intro u
        by_cases hu : u = t
        · subst hu; simp
        · simp [hu]
      simpa [State.wakes, hw] using hstep
  · rename_i hj
    cases h
    exact .dieDetached hr hpc (by simpa using hj)

theorem advance_step (hr : running home s t) (h : advance home ops s t = some s') :
    Step home ops s (.step t) s' := by
  unfold advance at h
  split at h
  · exact mutexEnter_step hr ‹_› h
  · exact mutexWoken_step hr ‹_› h
  · exact mutexCleanup_step hr ‹_› h
  · exact releaseCheck_step hr ‹_› h
  · exact releaseLock_step hr ‹_› h
  · obtain ⟨b, g, rfl, hb, hc, hg⟩ := postReturn_some h
    exact .post hr ‹_› hb hc hg
  · exact condPark_step hr ‹_› h
  · obtain ⟨b, store, hrem, rfl⟩ := condDequeue_some h
    exact .condDequeue hr (.inl ⟨‹_›, rfl⟩) hrem
  · obtain ⟨b, store, hrem, rfl⟩ := condDequeue_some h
    exact .condDequeue hr (.inr ⟨‹_›, rfl⟩) hrem
  · cases h; exact condNotify_step hr ‹_›
  · exact rwlockEnter_step hr ‹_› h
  · exact rwlockWoken_step hr ‹_› h
  · exact rwlockCleanup_step hr ‹_› h
  · exact rwlockRelease_step hr ‹_› h
  · cases h; exact herdWalk_step hr ‹_›
  · cases h; exact .herdClear hr ‹_›
  · exact joinEnter_step hr ‹_› h
  · obtain ⟨b, store, hrem, rfl⟩ := joinDequeue_some h
    exact .joinWoken hr ‹_› hrem
  · obtain ⟨b, store, hrem, rfl⟩ := joinDequeue_some h
    exact .joinCleanup hr ‹_› hrem
  · cases h; exact .joinReap hr ‹_›
  · exact die_step hr ‹_› h
  all_goals cases h

theorem call_some (h : call home s t f = some s') :
    running home s t ∧ (s.tcb t).pc = .app ∧ f s = some s' := by
  unfold call at h
  split at h
  · rename_i hg
    exact ⟨hg.1, hg.2, h⟩
  · cases h

theorem call_entry (he : a.entry = some (t, pc)) (hj : ∀ tid, a ≠ .join t tid)
    (h : call home s t (fun s => some (s.goto t pc)) = some s') : Step home ops s a s' := by
  obtain ⟨hr, hpc, h⟩ := call_some h
  cases h
  exact .call hr hpc he fun tid ha => absurd ha (hj tid)

theorem resume_step (h : resume home s t = some s') : Step home ops s (.resume t) s' := by
  simp only [resume] at h
  split at h
  · rename_i hg
    split at h
    · rename_i hc
      cases h
      exact .unwind hg.1 hg.2 hc
    · rename_i hc
      cases h
      exact .resume hg.1 hg.2 (by simpa using hc)
  · cases h

theorem cancelLocal_step (h : cancelLocal home s t = some s') : Step home ops s (.cancel t) s' := by
  simp only [cancelLocal] at h
  split at h
  · rename_i hg
    split at h
    · rename_i hc
      cases h
      exact .cancelAsync hg.2.1 hg.2.2 hc
    · cases h
      exact .cancel hg.2.1 hg.2.2
  · cases h

theorem abortLocal_step (h : abortLocal home s t = some s') : Step home ops s (.abort t) s' := by
  simp only [abortLocal] at h
  split at h
  · rename_i hg
    split at h
    · rename_i hpc
      split at h
      · rename_i hd
        cases h
        exact .abortDead hpc hd.1
      · cases h
    · split at h
      · rename_i hpc
        cases h
        exact .abort hg.2 hpc
      · cases h
  · cases h

theorem exec_step (h : exec home ops s a = some s') : Step home ops s a s' := by
  cases a with
  | dispatch =>
    simp only [exec] at h
    split at h
    · rename_i hg
      cases h
      exact .dispatch hg.1 hg.2
    · cases h
  | yield =>
    simp only [exec] at h
    obtain ⟨hr, hpc, h⟩ := call_some h
    split at h
    · cases h
    · rename_i hf
      cases h
      exact .yield hr hpc (by simpa using hf)
  | acquire t | release t | await | notify
  | rwlockAcquire | rwlockRelease => exact call_entry rfl nofun h
  | setfair =>
    simp only [exec] at h
    obtain ⟨hr, hpc, h⟩ := call_some h
    simp only [mutexSetfair] at h
    split at h
    · rename_i hi
      cases h
      exact .setfairFail hr hpc (by simpa using hi)
    · rename_i hi
      cases h
      exact .setfair hr hpc (by simpa using hi)
  | join t tid =>
    simp only [exec] at h
    obtain ⟨hr, hpc, h⟩ := call_some h
    simp only [joinCall] at h
    split at h
    · cases h
      exact .joinFail hr hpc
    · split at h
      · cases h
        exact .joinFail hr hpc
      · rename_i hj
        split at h
        · cases h
        · cases h
          refine .call hr hpc rfl fun tid ha => ?_
          cases ha
          simpa using hj
  | cancelState =>
    simp only [exec] at h
    obtain ⟨hr, hpc, h⟩ := call_some h
    cases h
    exact .cancelState hr hpc
  | cancelPoint =>
    simp only [exec] at h
    obtain ⟨hr, hpc, h⟩ := call_some h
    cases h
    unfold GnuPth.cancelPoint
    simp only
    split
    · exact .cancelActed hr hpc
    · exact .cancelPoint hr hpc
  | exit t v =>
    simp only [exec] at h
    obtain ⟨hr, hpc, h⟩ := call_some h
    cases h
    obtain ⟨pc, he, hp⟩ := mutexReleaseall_pc
      ((s.emit (.exit t v)).modTcb t fun b => { b with exitArg := v }) t
    rw [pthExit, he]
    simpa using Step.exit hr hpc hp
  | step =>
    simp only [exec] at h
    split at h
    · exact advance_step ‹_› h
    · cases h
  | resume => exact resume_step h
  | fire =>
    simp only [exec, fire] at h
    split at h
    · rename_i key hw
      split at h
      · rename_i ha
        cases h
        exact .fire hw ha
      · cases h
    · cases h
  | cancel => exact cancelLocal_step h
  | abort => exact abortLocal_step h
  | setJoinable => cases h; exact .setJoinable
  | drain =>
    simp only [exec, gschedDrain] at h
    split at h
    · rename_i ha
      rw [foldl_applyMsg, Option.some.injEq] at h
      subst h
      exact .drain ha
    · cases h

end

def listSystem (home : Tid → SchedId) : System (State WaitLists) Act where
  init s := ∃ cfg, s = initial (fun _ => []) cfg
  step := Step home listOps

end GnuPth
