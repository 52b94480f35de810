import GnuPth.Lib.Runs
import GnuPth.Sync.Cond
import GnuPth.Sync.Rwlock
import GnuPth.Sync.Thread

/-!
# The synchronization system

Any number of threads on any number of schedulers. An action is an API call
of a running thread, the next atomic step of a thread inside the library, or
something the schedulers do: dispatching, draining an inbox, noticing an extra
event, delivering a cancellation request.
-/

namespace GnuPth

open Function (update)
open Transition

inductive Act
  | dispatch (t : Tid)
  | yield (t : Tid)
  | acquire (t : Tid) (m : MutexId) (tryonly extra : Bool)
  | release (t : Tid) (m : MutexId)
  | setfair (t : Tid) (m : MutexId) (fair : Bool)
  | await (t : Tid) (c : CondId) (m : MutexId) (extra : Bool)
  | notify (t : Tid) (c : CondId) (broadcast : Bool)
  | rwlockAcquire (t : Tid) (r : RwlockId) (op : RwOp) (tryonly extra : Bool)
  | rwlockRelease (t : Tid) (r : RwlockId)
  | join (t tid : Tid)
  | cancelState (t : Tid) (enable async : Bool)
  | cancelPoint (t : Tid)
  | exit (t : Tid) (v : Value)
  | step (t : Tid)
  | resume (t : Tid)
  | fire (t : Tid)
  | cancel (t : Tid)
  | abort (t : Tid)
  -- `pth_attr_set(attr, PTH_ATTR_JOINABLE, joinable)` on an attribute object bound to `t`
  | setJoinable (t : Tid) (joinable : Bool)
  | drain (g : SchedId)
  deriving DecidableEq, Repr

section
variable (home : Tid → SchedId) (ops : WaitOps σ) (s : State σ) (t : Tid)

/-- `t` is `pth_current` of its scheduler. -/
def running : Prop := (s.active (home t)).head? = some t

instance : Decidable (running home s t) := inferInstanceAs (Decidable (_ = _))

def postReturn : PostThen → Option (State σ)
  | .release m k => releaseReturn home s t m k
  | .unwind _ _ => some (s.goto t .app)
  | .rwlockRelease _ => some (s.goto t .app)
  | .herd r chain => some (s.goto t (.herdWalk r chain))
  | .notify c broadcast =>
    some (if broadcast then s.goto t (.notify c broadcast) else s.ret t (.notify t c .ok))

def advance : Option (State σ) :=
  match (s.tcb t).pc with
  | .mutexEnter m tryonly extra k => mutexEnter home ops s t m tryonly extra k
  | .mutexWoken m extra k => mutexWoken home ops s t m extra k
  | .mutexCleanup m k => mutexCleanup ops s t m k
  | .releaseCheck m k => releaseCheck home s t m k
  | .releaseLock m k => releaseLock home ops s t m k
  | .post w k => postReturn home (gschedWake home s w) t k
  | .condPark c m extra => condPark ops s t c m extra
  | .condWoken c m => condWoken ops s t c m
  | .condUnpark c _ => condUnpark ops s t c
  | .notify c broadcast => some (condNotify ops s t c broadcast)
  | .rwlockEnter r op tryonly extra => rwlockEnter home ops s t r op tryonly extra
  | .rwlockWoken r op extra => rwlockWoken home ops s t r op extra
  | .rwlockCleanup r _ => rwlockCleanup ops s t r
  | .rwlockRelease r => rwlockRelease ops s t r
  | .herdWalk r chain => some (herdWalk ops s t r chain)
  | .herdClear r w chain => some (herdClear ops s t r w chain)
  | .joinEnter tid => joinEnter home ops s t tid
  | .joinWoken tid => joinDequeue ops s t tid (.joinReap tid (s.tcb tid).joinArg)
  | .joinCleanup tid => joinDequeue ops s t tid .app
  | .joinReap tid v => some (joinReap home s t tid v)
  | .dying => die home ops s t
  | .app | .mutexWait .. | .condWait .. | .rwlockWait .. | .joinWait .. | .dead => none

def call (f : State σ → Option (State σ)) : Option (State σ) :=
  if running home s t ∧ (s.tcb t).pc = .app then f s else none

def exec : Act → Option (State σ)
  | .dispatch t =>
    if s.active (home t) = [] ∧ (s.tcb t).pc = .app then
      some { s with active := update s.active (home t) [t] }
    else none
  | .yield t => call home s t fun s =>
      if (s.tcb t).foreign then none
      else some { s with active := update s.active (home t) (s.active (home t)).tail }
  | .acquire t m tryonly extra => call home s t fun s =>
      some (s.goto t (.mutexEnter m tryonly extra .app))
  | .release t m => call home s t fun s => some (s.goto t (.releaseCheck m .app))
  | .setfair t m fair => call home s t fun s => some (mutexSetfair s t m fair)
  | .await t c m extra => call home s t fun s => some (s.goto t (.condPark c m extra))
  | .notify t c broadcast => call home s t fun s => some (s.goto t (.notify c broadcast))
  | .rwlockAcquire t r op tryonly extra => call home s t fun s =>
      some (s.goto t (.rwlockEnter r op tryonly extra))
  | .rwlockRelease t r => call home s t fun s => some (s.goto t (.rwlockRelease r))
  | .join t tid => call home s t fun s => joinCall home s t tid
  | .cancelState t enable async => call home s t fun s => some (cancelState s t enable async)
  | .cancelPoint t => call home s t fun s => some (cancelPoint s t)
  | .exit t v => call home s t fun s => some (pthExit s t v)
  | .step t => if running home s t then advance home ops s t else none
  | .resume t => resume home s t
  | .fire t => fire home s t
  | .cancel t => cancelLocal home s t
  | .abort t => abortLocal home s t
  | .setJoinable t joinable => some (s.modTcb t fun b => { b with joinable })
  | .drain g => gschedDrain s g

end

/-! ### Initial states and the system -/

/-- What the application chooses before the threads start: which objects it
initializes, which mutexes are fair, the attributes of the threads. -/
structure Config where
  mutexInit : MutexId → Bool
  fair : MutexId → Bool
  condInit : CondId → Bool
  rwlockInit : RwlockId → Bool
  joinable : Tid → Bool
  cancelEnable : Tid → Bool
  cancelAsync : Tid → Bool

def initial {σ : Type} (store : σ) (cfg : Config) : State σ where
  tcb t :=
    { pc := .app, wqEvent := none, status := fun _ => .pending, extra := .pending
      cancelreq := false, cancelEnable := cfg.cancelEnable t, cancelAsync := cfg.cancelAsync t
      foreign := false, mutexring := ringInit, joinable := cfg.joinable t, exitArg := 0
      joinArg := 0, joinDone := false, freed := false }
  mutex m := ⟨cfg.mutexInit m, false, cfg.fair m, none, 0⟩
  cond c := ⟨cfg.condInit c, 0⟩
  rwlock r := ⟨cfg.rwlockInit r, .rd, 0, none, 0⟩
  store := store
  inbox _ := []
  active _ := []
  rings := ⟨id, id⟩
  log := []

def WaitLinks.empty : WaitLinks := ⟨fun _ => none, fun _ => ⟨none, none⟩⟩

/-- The code: wait queues are pointers, and a step happens when its loops end. -/
def pthSystem (home : Tid → SchedId) : System (State WaitLinks) Act where
  init s := ∃ cfg, s = initial .empty cfg
  step s a s' := ∃ fuel, exec home (linkOps fuel) s a = some s'

/-! ### Executions -/

/-- A sequence of actions that all pass a check, with a bound on the turns of
every queue loop. -/
def runActs (A : State WaitLinks → Act → Bool) (home : Tid → SchedId) (fuel : Nat)
    (s : State WaitLinks) : List Act → Option (State WaitLinks)
  | [] => some s
  | a :: as =>
    if A s a then (exec home (linkOps fuel) s a).bind fun s' => runActs A home fuel s' as else none

section
variable {A : State WaitLinks → Act → Bool}

theorem runActs_cons (h : runActs A home fuel s (a :: as) = some s') :
    A s a = true ∧ ∃ s₁, exec home (linkOps fuel) s a = some s₁ ∧
      runActs A home fuel s₁ as = some s' := by
  unfold runActs at h
  split at h
  · rename_i ha
    obtain ⟨s₁, h₁, hr⟩ := Option.bind_eq_some_iff.mp h
    exact ⟨ha, s₁, h₁, hr⟩
  · cases h

theorem runActs_reachable (hA : ∀ s a, A s a = true → P s a)
    (h : Reachable ((pthSystem home).restrict P) s) (hr : runActs A home fuel s as = some s') :
    Reachable ((pthSystem home).restrict P) s' := by
  induction as generalizing s with
  | nil =>
    cases hr
    exact h
  | cons a as ih =>
    obtain ⟨ha, s₁, h₁, hr⟩ := runActs_cons hr
    exact ih (.step h ⟨hA s a ha, fuel, h₁⟩) hr

theorem runActs_append (as bs : List Act) :
    runActs A home fuel s (as ++ bs) =
      (runActs A home fuel s as).bind fun s' => runActs A home fuel s' bs := by
  induction as generalizing s with
  | nil => rfl
  | cons a as ih =>
    rw [List.cons_append, runActs, runActs]
    split
    · cases exec home (linkOps fuel) s a with
      | none => rfl
      | some s₁ => exact ih
    · rfl

/-- The run of a schedule, whose states can be computed. -/
def runOf (A : State WaitLinks → Act → Bool) (cfg : Config) (home : Tid → SchedId) (fuel : Nat)
    (as : List Act) (h : (runActs A home fuel (initial .empty cfg) as).isSome = true) :
    Run ((pthSystem home).restrict fun s a => A s a = true) as.length where
  state i := (runActs A home fuel (initial .empty cfg) (as.take i)).getD (initial .empty cfg)
  act i := as.getD i (.drain 0)
  start := ⟨cfg, rfl⟩
  step i hi := by
    obtain ⟨s, hs⟩ := Option.isSome_iff_exists.mp h
    rw [← List.take_append_drop (i + 1) as, runActs_append] at hs
    obtain ⟨s', hs', -⟩ := Option.bind_eq_some_iff.mp hs
    have hnext := hs'
    rw [List.take_succ_eq_append_getElem hi, runActs_append] at hnext
    obtain ⟨s₁, h₁, hnext⟩ := Option.bind_eq_some_iff.mp hnext
    obtain ⟨ha, s₂, h₂, he⟩ := runActs_cons hnext
    cases he
    simpa [hi, h₁, hs'] using ⟨ha, fuel, h₂⟩

theorem reachable_end (A : State WaitLinks → Act → Bool) (cfg : Config) (home : Tid → SchedId)
    (fuel : Nat) (as : List Act) (h : (runActs A home fuel (initial .empty cfg) as).isSome = true) :
    Reachable ((pthSystem home).restrict fun s a => A s a = true)
      ((runOf A cfg home fuel as h).state as.length) :=
  (runOf A cfg home fuel as h).reachable (Nat.le_refl _)

/-- Everything initialized, barging mutexes, deferred cancellation. -/
def Config.plain : Config where
  mutexInit _ := true
  fair _ := false
  condInit _ := true
  rwlockInit _ := true
  joinable _ := true
  cancelEnable _ := true
  cancelAsync _ := false

end

end GnuPth
