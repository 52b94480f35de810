import GnuPth.Io.Rings
import GnuPth.Time

/-!
# `pth_event`

The constructor of events. It takes an event structure from its caller, from the
thread-specific data of a key or from `malloc`, puts it into a ring, marks it pending
and only then looks at the type and at its arguments. `ν` are the event structures,
`π` the pointers an event refers to.
-/

namespace GnuPth

open Function (update)
open Intrusive (Segment)

namespace Event

inductive Errno
  | EBADF
  | EINVAL
  -- as it was before, or as `malloc` leaves it
  | inherited
  deriving DecidableEq, Repr

inductive Status
  | pending
  | occurred
  | failed
  deriving DecidableEq, Repr

inductive TidGoal
  | new
  | ready
  | waiting
  | dead
  deriving DecidableEq, Repr

/-- `ev_type`, `ev_goal` and `ev_args`. -/
inductive Body (π : Type)
  | fd (goal : Nat) (fd : Int)
  | select (goal : Nat) (n : π) (nfd : Int) (rfds wfds efds : π)
  | sigs (goal : Nat) (sigs sig : π)
  | time (goal : Nat) (tv : Timeval)
  | msg (goal : Nat) (mp : π)
  | mutex (goal : Nat) (mutex : π)
  | cond (goal : Nat) (cond : π)
  | notify (goal : Nat) (go : π)
  | tid (goal : TidGoal) (tid : π)
  | func (goal : Nat) (func arg : π) (tv : Timeval)
  deriving DecidableEq, Repr

/-- The arguments behind the structure and the ring, as each type reads them. -/
structure VaArgs (π : Type) where
  fd : Int
  select : π × Int × π × π × π
  sigs : π × π
  tv : Timeval
  mp : π
  mutex : π
  cond : π
  go : π
  tid : π
  func : π × π × Timeval

structure Call (ν π : Type) where
  -- the structure supplied with `PTH_MODE_REUSE`
  ev : Option ν
  -- `pth_key_getdata(*ev_key)`
  data : Option ν
  malloc : Option ν
  -- the event to chain to
  ch : ν
  va : VaArgs π
  -- `pth_util_fd_valid`
  fdValid : Int → Bool

structure Mem (ν π : Type) where
  links : EvLinks ν
  status : ν → Status
  -- `none` while the memory is not initialized
  body : ν → Option (Body π)

/-! ### The bits of `spec` -/

def untilOccurred (spec : Nat) : Nat := spec &&& 2 ^ 11

def untilFd (spec : Nat) : Nat := spec &&& (2 ^ 12 ||| 2 ^ 13 ||| 2 ^ 14)

def untilTid (spec : Nat) : TidGoal :=
  if spec.testBit 15 then .new
  else if spec.testBit 16 then .ready
  else if spec.testBit 17 then .waiting
  else if spec.testBit 18 then .dead
  else .ready

def modeReuse (spec : Nat) : Bool := spec.testBit 20

def modeChain (spec : Nat) : Bool := spec.testBit 21

def modeStatic (spec : Nat) : Bool := spec.testBit 22

section
variable {π : Type} [DecidableEq ν]

/-- "allocate new or reuse static or supplied event structure", and whether it is new. -/
def structureOf (c : Call ν π) (spec : Nat) : Option (ν × Bool) :=
  if modeReuse spec then c.ev.map (·, false)
  else if modeStatic spec then
    match c.data with
    | some ev => some (ev, false)
    | none => c.malloc.map (·, true)
  else c.malloc.map (·, true)

/-- "insert into existing ring" -/
def eventChain (k : EvLinks ν) (ev ch : ν) : EvLinks ν :=
  let prev := update k.evPrev ev (k.evPrev ch)
  let next := update (update k.evNext ev ch) (prev ev) ev
  ⟨next, update prev (next ev) ev⟩

/-- "initialize event specific ingredients" -/
def bodyOf (c : Call ν π) (spec : Nat) : Except Errno (Body π) :=
  let goal := untilOccurred spec
  let va := c.va
  if spec.testBit 1 then
    if !c.fdValid va.fd then .error .EBADF else .ok (.fd (untilFd spec) va.fd)
  else if spec.testBit 2 then
    .ok (.select goal va.select.1 va.select.2.1 va.select.2.2.1 va.select.2.2.2.1 va.select.2.2.2.2)
  else if spec.testBit 3 then .ok (.sigs goal va.sigs.1 va.sigs.2)
  else if spec.testBit 4 then .ok (.time goal va.tv)
  else if spec.testBit 5 then .ok (.msg goal va.mp)
  else if spec.testBit 6 then .ok (.mutex goal va.mutex)
  else if spec.testBit 7 then .ok (.cond goal va.cond)
  else if spec.testBit 10 then .ok (.notify goal va.go)
  else if spec.testBit 8 then .ok (.tid (untilTid spec) va.tid)
  else if spec.testBit 9 then .ok (.func goal va.func.1 va.func.2.1 va.func.2.2)
  else .error .EINVAL

def enter (c : Call ν π) (spec : Nat) (ev : ν) (new : Bool) (m : Mem ν π) : Mem ν π where
  links := if modeChain spec then eventChain m.links ev c.ch else eventSingle m.links ev
  status := update m.status ev .pending
  body := if new then update m.body ev none else m.body

def pthEvent (c : Call ν π) (spec : Nat) (m : Mem ν π) : Except Errno ν × Mem ν π :=
  match structureOf c spec with
  | none => (.error .inherited, m)
  | some (ev, new) =>
    let m := enter c spec ev new m
    match bodyOf c spec with
    | .error e => (.error e, m)
    | .ok body => (.ok ev, { m with body := update m.body ev (some body) })

/-! ### When it returns `NULL` -/

def single (m : Mem ν π) (ev : ν) : Bool := m.links.evNext ev = ev && m.links.evPrev ev = ev

/-- There is no structure, or one that is reused alone and stays alone. -/
def keepsRings (c : Call ν π) (spec : Nat) (m : Mem ν π) : Bool :=
  match structureOf c spec with
  | none => true
  | some (ev, new) => !new && !modeChain spec && single m ev

theorem eventSingle_of_single {m : Mem ν π} (h : single m ev = true) :
    eventSingle m.links ev = m.links := by
  simp only [single, Bool.and_eq_true, decide_eq_true_eq] at h
  rw [eventSingle, Function.update_eq_self_iff.mpr h.1.symm, Function.update_eq_self_iff.mpr h.2.symm]

theorem pthEvent_error {c : Call ν π}
    (h : pthEvent c spec m = (.error e, m')) :
    structureOf c spec = none ∧ m' = m ∨
      ∃ ev new, structureOf c spec = some (ev, new) ∧ m' = enter c spec ev new m := by
  unfold pthEvent at h
  split at h
  case h_1 hnone => exact .inl ⟨hnone, (Prod.mk.inj h).2.symm⟩
  case h_2 ev new hsome =>
    refine .inr ⟨ev, new, hsome, ?_⟩
    dsimp only at h
    split at h
    · exact (Prod.mk.inj h).2.symm
    · cases (Prod.mk.inj h).1

def walkTo (k : EvLinks ν) (direction : Nat) (ev : ν) : Except Errno ν :=
  if direction.testBit 1 then .ok (k.evNext ev)
  else if direction.testBit 2 then .ok (k.evPrev ev)
  else .error .EINVAL

/-- `pth_event_walk`, for at most `fuel` turns of its loop. -/
def eventWalk (m : Mem ν π) (direction : Nat) : Nat → Option ν → Option (Except Errno ν)
  | _, none => some (.error .EINVAL)
  | 0, some _ => none
  | fuel + 1, some ev =>
    match walkTo m.links direction ev with
    | .error e => some (.error e)
    | .ok ev =>
      if direction.testBit 11 && m.status ev ≠ .occurred then eventWalk m direction fuel (some ev)
      else some (.ok ev)

section
omit [DecidableEq ν]
variable {m : Mem ν π} {direction : Nat} (hocc : direction.testBit 11 = true)
include hocc

theorem eventWalk_segment
    (hto : ∀ ev, walkTo m.links direction ev = .ok (next ev)) (h : Segment next prev a l b)
    (hf : (l ++ [b]).find? (m.status · ≠ .pending) = some f) (ho : m.status f = .occurred) :
    eventWalk m direction (l.length + 1) (some a) = some (.ok f) := by
  induction l generalizing a with
  | nil =>
    obtain ⟨-, rfl⟩ : m.status b ≠ .pending ∧ b = f := by simpa using hf
    simp [eventWalk, hto, h.1, ho]
  | cons y ys ih =>
    rw [eventWalk, hto, h.1.1]
    cases hy : m.status y with
    | pending => simpa [hocc, hy] using ih h.2 (by simpa [hy] using hf)
    | _ =>
      obtain rfl : y = f := by simpa [hy] using hf
      simp [ho]

end

end

/-! ### Calls that fail -/

def somewhere : VaArgs Unit :=
  ⟨-1, ((), 0, (), (), ()), ((), ()), ⟨0, 0⟩, (), (), (), (), (), ((), (), ⟨0, 0⟩)⟩

/-- The ring 0 1, and 2 alone; 3 is not in use. -/
def twoRings : Mem Nat Unit where
  links := ⟨fun n => if n = 0 then 1 else if n = 1 then 0 else n,
    fun n => if n = 0 then 1 else if n = 1 then 0 else n⟩
  status _ := .occurred
  body n := if n = 3 then none else some (.time 0 ⟨0, 0⟩)

/-- The descriptor is not valid; 2 is to be reused, or 3 chained to 0. -/
def badFd : Call Nat Unit := ⟨some 2, none, some 3, 0, somewhere, fun fd => decide (0 ≤ fd)⟩

end Event

end GnuPth
