import GnuPth.Sync.Client

/-!
# Barriers

`pth_barrier_reach` as code over the mutex and the condition of the barrier,
one step for each access to the shared fields and one for each call. Arrivals
are numbered in the order in which they decrement `br_count`; a batch is
`br_threshold` consecutive ones.
-/

namespace GnuPth

open Function (update)
open Transition

/-- What `pth_barrier_init` has fixed. -/
structure Barrier where
  mutex : MutexId
  cond : CondId
  threshold : Nat
  positive : 0 < threshold

namespace Barrier

/-- What `pth_barrier_reach` returns: `FALSE`, `TRUE`, or one of the lights. -/
inductive ReachResult
  | failed
  | passed
  | headlight
  | taillight
  deriving DecidableEq, Repr

/-- Where a thread is in `pth_barrier_reach`, with its local variables. At
`acquiring`, `notifying`, `awaiting` and `releasing` it is inside the call of a
primitive. -/
inductive Point
  | out
  | acquiring
  | reached
  | counting (cycle : Bool)
  | flipping
  | resetting
  | notifying
  | grading (cycle : Bool) (cancel : Bool × Bool)
  -- at the head of the loop
  | looking (cycle : Bool) (cancel : Bool × Bool) (rv : ReachResult)
  | awaiting (cycle : Bool) (cancel : Bool × Bool)
  | restoring (cancel : Bool × Bool) (rv : ReachResult)
  | leaving (rv : ReachResult)
  | releasing (rv : ReachResult)
  deriving DecidableEq, Repr

/-- A return from `pth_barrier_reach`: the number of its own arrival, and how
many arrivals there had been by then. -/
structure Passage where
  thread : Tid
  index : Nat
  result : ReachResult
  arrivals : Nat
  deriving DecidableEq, Repr

structure State (σ : Type) where
  sync : GnuPth.State σ
  count : Int
  cycle : Bool
  point : Tid → Point
  -- history variables: the number of arrivals, the number of each thread's
  -- latest one, and the returns after an arrival
  arrivals : Nat
  index : Tid → Nat
  returned : List Passage

inductive Action
  | sync (a : Act)
  | reach (t : Tid)
  -- the next step of the code of `pth_barrier_reach`
  | run (t : Tid)
  deriving DecidableEq, Repr

section
variable {σ : Type} (b : Barrier)

/-! ### The code -/

/-- Where a thread goes on when the call it is in comes to an end. -/
def Point.after (t : Tid) (p : Point) : CallEvent → Point
  | .none => p
  | .unwound => .out
  | .returned o =>
    match p with
    | .acquiring => if o = some (.acquire t b.mutex .ok) then .reached else .out
    | .notifying => .leaving (if o = some (.notify t b.cond .ok) then .taillight else .failed)
    | .awaiting cycle cancel =>
      if o = some (.await t b.cond b.mutex .ok) then .looking cycle cancel .passed
      else .restoring cancel .failed
    | .releasing _ => .out
    | p => p

section
variable (home : Tid → SchedId) (ops : WaitOps σ) (s : State σ) (t : Tid)

def State.goto (p : Point) : State σ := { s with point := update s.point t p }

/-- The return from `pth_barrier_reach` that a step makes. -/
def State.passes (a : Act) (sync : GnuPth.State σ) : List Passage :=
  match a with
  | .step t =>
    match s.point t, callEvent s.sync sync a t with
    | .releasing rv, .returned _ => [⟨t, s.index t, rv, s.arrivals⟩]
    | _, _ => []
  | _ => []

/-- A step of the primitives, as the threads in `pth_barrier_reach` see it. -/
def State.sees (a : Act) (sync : GnuPth.State σ) : State σ :=
  { s with
    sync
    point := fun t => (s.point t).after b t (callEvent s.sync sync a t)
    returned := s.passes a sync ++ s.returned }

/-- Application code makes calls only outside `pth_barrier_reach`, and leaves
the mutex of the barrier alone. -/
def State.permits (a : Act) : Bool :=
  !a.isCall || (a.actor.all (fun t => s.point t = .out) && a.mutex != some b.mutex)

def State.call (a : Act) (p : Point) : Option (State σ) :=
  (GnuPth.exec home ops s.sync a).map fun sync => { s with sync, point := update s.point t p }

/-- `--br_count`. -/
def State.arrive : State σ :=
  { s with
    count := s.count - 1
    arrivals := s.arrivals + 1
    index := update s.index t s.arrivals }

/-- `pth_barrier_reach`, after the checks and the call of `pth_mutex_acquire`. -/
def barrierReach : Option (State σ) :=
  match s.point t with
  | .reached => some (s.goto t (.counting s.cycle))
  | .counting cycle =>
    if (s.arrive t).count = 0 then some ((s.arrive t).goto t .flipping)
    else
      let cancel := ((s.sync.tcb t).cancelEnable, (s.sync.tcb t).cancelAsync)
      (s.arrive t).call home ops t (.cancelState t false false) (.grading cycle cancel)
  | .flipping => some ({ s with cycle := !s.cycle }.goto t .resetting)
  | .resetting =>
    { s with count := b.threshold }.call home ops t (.notify t b.cond true) .notifying
  | .grading cycle cancel =>
    some (s.goto t (.looking cycle cancel (if b.threshold = s.count then .headlight else .passed)))
  | .looking cycle cancel rv =>
    if cycle = s.cycle then
      s.call home ops t (.await t b.cond b.mutex false) (.awaiting cycle cancel)
    else s.call home ops t (.cancelState t cancel.1 cancel.2) (.leaving rv)
  | .restoring cancel rv => s.call home ops t (.cancelState t cancel.1 cancel.2) (.leaving rv)
  | .leaving rv => s.call home ops t (.release t b.mutex) (.releasing rv)
  | .out | .acquiring | .notifying | .awaiting .. | .releasing _ => none

def exec : Action → Option (State σ)
  | .sync a =>
    if s.permits b a then (GnuPth.exec home ops s.sync a).map (s.sees b a) else none
  | .reach t =>
    if s.point t = .out then
      s.call home ops t (.acquire t b.mutex false false) .acquiring
    else none
  | .run t =>
    if running home s.sync t ∧ (s.sync.tcb t).pc = .app then barrierReach b home ops s t else none

end

def initial (store : σ) (cfg : Config) : State σ where
  sync := GnuPth.initial store cfg
  count := b.threshold
  cycle := false
  point _ := .out
  arrivals := 0
  index _ := 0
  returned := []

def system (home : Tid → SchedId) : System (State WaitLinks) Action where
  init s := ∃ cfg, cfg.mutexInit b.mutex = true ∧ cfg.condInit b.cond = true ∧
    s = initial b .empty cfg
  step s a s' := ∃ fuel, exec b home (linkOps fuel) s a = some s'

/-- All arrivals of the batch that arrival `i` belongs to are among the first
`arrivals`. -/
def complete (i arrivals : Nat) : Prop := (i / b.threshold + 1) * b.threshold ≤ arrivals

instance (i arrivals : Nat) : Decidable (b.complete i arrivals) :=
  inferInstanceAs (Decidable (_ ≤ _))

/-! ### Rules -/

inductive Step (home : Tid → SchedId) (ops : WaitOps σ) (s : State σ) : Action → State σ → Prop
  | sync {a sync} (hp : s.permits b a = true) (h : GnuPth.Step home ops s.sync a sync) :
      Step home ops s (.sync a) (s.sees b a sync)
  | reach {t sync} (hp : s.point t = .out)
      (h : GnuPth.Step home ops s.sync (.acquire t b.mutex false false) sync) :
      Step home ops s (.reach t) { s with sync, point := update s.point t .acquiring }
  | read {t} (hp : s.point t = .reached) :
      Step home ops s (.run t) (s.goto t (.counting s.cycle))
  | last {t cycle} (hp : s.point t = .counting cycle) (hc : s.count = 1) :
      Step home ops s (.run t) ((s.arrive t).goto t .flipping)
  | count {t cycle cancel sync} (hp : s.point t = .counting cycle) (hc : s.count ≠ 1)
      (h : GnuPth.Step home ops s.sync (.cancelState t false false) sync) :
      Step home ops s (.run t)
        { s.arrive t with sync, point := update s.point t (.grading cycle cancel) }
  | flip {t} (hp : s.point t = .flipping) :
      Step home ops s (.run t) ({ s with cycle := !s.cycle }.goto t .resetting)
  | reset {t sync} (hp : s.point t = .resetting)
      (h : GnuPth.Step home ops s.sync (.notify t b.cond true) sync) :
      Step home ops s (.run t)
        { s with sync, count := b.threshold, point := update s.point t .notifying }
  | grade {t cycle cancel} (hp : s.point t = .grading cycle cancel) :
      Step home ops s (.run t) (s.goto t
        (.looking cycle cancel (if b.threshold = s.count then .headlight else .passed)))
  | await {t cycle cancel rv sync} (hp : s.point t = .looking cycle cancel rv)
      (hc : cycle = s.cycle)
      (h : GnuPth.Step home ops s.sync (.await t b.cond b.mutex false) sync) :
      Step home ops s (.run t)
        { s with sync, point := update s.point t (.awaiting cycle cancel) }
  | pass {t cycle cancel rv sync} (hp : s.point t = .looking cycle cancel rv)
      (hc : cycle ≠ s.cycle)
      (h : GnuPth.Step home ops s.sync (.cancelState t cancel.1 cancel.2) sync) :
      Step home ops s (.run t) { s with sync, point := update s.point t (.leaving rv) }
  | restore {t cancel rv sync} (hp : s.point t = .restoring cancel rv)
      (h : GnuPth.Step home ops s.sync (.cancelState t cancel.1 cancel.2) sync) :
      Step home ops s (.run t) { s with sync, point := update s.point t (.leaving rv) }
  | release {t rv sync} (hp : s.point t = .leaving rv)
      (h : GnuPth.Step home ops s.sync (.release t b.mutex) sync) :
      Step home ops s (.run t) { s with sync, point := update s.point t (.releasing rv) }

end

section
variable {s : State σ}

theorem call_some (h : s.call home ops t a p = some s') :
    ∃ sync, GnuPth.Step home ops s.sync a sync ∧
      s' = { s with sync, point := update s.point t p } := by
  obtain ⟨sync, hs, rfl⟩ := Option.map_eq_some_iff.mp h
  exact ⟨sync, exec_step hs, rfl⟩

theorem barrierReach_step (h : barrierReach b home ops s t = some s') :
    Step b home ops s (.run t) s' := by
  unfold barrierReach at h
  split at h
  case h_1 hp =>
    cases h
    exact .read hp
  case h_2 cycle hp =>
    have hcount : (s.arrive t).count = 0 ↔ s.count = 1 := by
      simp only [State.arrive]
      omega
    split at h
    case isTrue hc =>
      cases h
      exact .last hp (hcount.mp hc)
    case isFalse hc =>
      obtain ⟨sync, hs, rfl⟩ := call_some h
      exact .count hp (mt hcount.mpr hc) hs
  case h_3 hp =>
    cases h
    exact .flip hp
  case h_4 hp =>
    obtain ⟨sync, hs, rfl⟩ := call_some h
    exact .reset hp hs
  case h_5 hp =>
    cases h
    exact .grade hp
  case h_6 hp =>
    split at h
    case isTrue hc =>
      obtain ⟨sync, hs, rfl⟩ := call_some h
      exact .await hp hc hs
    case isFalse hc =>
      obtain ⟨sync, hs, rfl⟩ := call_some h
      exact .pass hp hc hs
  case h_7 hp =>
    obtain ⟨sync, hs, rfl⟩ := call_some h
    exact .restore hp hs
  case h_8 hp =>
    obtain ⟨sync, hs, rfl⟩ := call_some h
    exact .release hp hs
  all_goals cases h

theorem exec_rule (h : exec b home ops s a = some s') : Step b home ops s a s' := by
  cases a with
  | sync a =>
    simp only [exec] at h
    split at h
    case isTrue hp =>
      obtain ⟨sync, hs, rfl⟩ := Option.map_eq_some_iff.mp h
      exact .sync hp (exec_step hs)
    case isFalse => cases h
  | reach t =>
    simp only [exec] at h
    split at h
    case isTrue hp =>
      obtain ⟨sync, hs, rfl⟩ := call_some h
      exact .reach hp hs
    case isFalse => cases h
  | run t =>
    simp only [exec] at h
    split at h
    case isTrue => exact barrierReach_step h
    case isFalse => cases h

end

end Barrier

end GnuPth
