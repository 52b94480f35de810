import GnuPth.Lib.Circular
import GnuPth.Lib.Delta
import GnuPth.Pqueue
import Mathlib.Algebra.Order.Ring.Int

/-!
# Priority queues as they are stored

`pth_pqueue.c`: a queue is a circular doubly linked list through the control
blocks of its threads. The head stores its priority, every other thread stores
by how much its predecessor exceeds it. All queues are linked through the same
fields, so these are one memory; a thread is in at most one queue.

Priorities are values of type `int`. What becomes of the result of an operation is
part of the state: `id` is exact arithmetic, `wrap` that of the machine. `computed`
is a history of the results before that. A loop runs for at most `fuel` turns and
has no result if it has not ended by then.
-/

namespace GnuPth.Pq

open Function (update)

/-- `pth_t`; `none` is `NULL`. The code follows no null pointer, so what the fields
are there does not matter. -/
abbrev Ptr := Option Tid

structure Links where
  qNext : Ptr → Ptr
  qPrev : Ptr → Ptr
  qPrio : Ptr → Int
  int : Int → Int
  computed : List Int

/-- A 32-bit `int` -/
def Fits (v : Int) : Prop := -2 ^ 31 ≤ v ∧ v < 2 ^ 31

instance (v : Int) : Decidable (Fits v) := inferInstanceAs (Decidable (_ ∧ _))

def wrap (v : Int) : Int := v.bmod (2 ^ 32)

theorem wrap_of_fits (h : Fits v) : wrap v = v := by
  obtain ⟨hmin, hmax⟩ := h
  exact Int.bmod_eq_of_le (by omega) (by omega)

/-- `struct pth_pqueue_st` -/
structure Header where
  qHead : Ptr
  qNum : Int
  deriving DecidableEq, Repr

namespace Links

variable (k : Links)

def setNext (x v : Ptr) : Links := { k with qNext := update k.qNext x v }

def setPrev (x v : Ptr) : Links := { k with qPrev := update k.qPrev x v }

def setPrio (x : Ptr) (v : Int) : Links :=
  { k with qPrio := update k.qPrio x (k.int v), computed := v :: k.computed }

/-- A value that is only compared or passed on. -/
def compute (v : Int) : Links := { k with computed := v :: k.computed }

end Links

/-- `pth_pqueue_init` -/
def init : Header := ⟨none, 0⟩

/-! ### Insertion -/

/-- The `while` loop of `pth_pqueue_insert`, at `c` with the priority `p`. -/
def search (q : Header) (prio : Int) : Nat → Links → Ptr → Int → Option (Links × Ptr × Int)
  | 0, _, _, _ => none
  | fuel + 1, k, c, p =>
    let next := k.int (p - k.qPrio (k.qNext c))
    let k := k.compute (p - k.qPrio (k.qNext c))
    if next ≥ prio ∧ k.qNext c ≠ q.qHead then search q prio fuel k (k.qNext c) next
    else some (k, c, p)

/-- "add as first element" -/
def insertFirst (k : Links) (q : Header) (prio : Int) (t : Ptr) : Links × Header :=
  let k := k.setPrev t t
  let k := k.setNext t t
  let k := k.setPrio t prio
  (k, ⟨t, q.qNum + 1⟩)

/-- "add as new head of queue" -/
def insertHead (k : Links) (q : Header) (prio : Int) (t : Ptr) : Links × Header :=
  let k := k.setPrev t (k.qPrev q.qHead)
  let k := k.setNext t q.qHead
  let k := k.setNext (k.qPrev t) t
  let k := k.setPrev (k.qNext t) t
  let k := k.setPrio t prio
  let k := k.setPrio (k.qNext t) (prio - k.qPrio (k.qNext t))
  (k, ⟨t, q.qNum + 1⟩)

/-- Behind `c`, whose priority is `p`. -/
def insertAfter (k : Links) (q : Header) (prio : Int) (t c : Ptr) (p : Int) : Links × Header :=
  let k := k.setPrev t c
  let k := k.setNext t (k.qNext c)
  let k := k.setNext (k.qPrev t) t
  let k := k.setPrev (k.qNext t) t
  let k := k.setPrio t (p - prio)
  let k :=
    if k.qNext t ≠ q.qHead then k.setPrio (k.qNext t) (k.qPrio (k.qNext t) - k.qPrio t) else k
  (k, { q with qNum := q.qNum + 1 })

/-- `pth_pqueue_insert` -/
def insert (fuel : Nat) (k : Links) (q : Header) (prio : Int) (t : Tid) : Option (Links × Header) :=
  if q.qHead = none ∨ q.qNum = 0 then some (insertFirst k q prio t)
  else if k.qPrio q.qHead < prio then some (insertHead k q prio t)
  else
    match search q prio fuel k q.qHead (k.qPrio q.qHead) with
    | none => none
    | some (k, c, p) => some (insertAfter k q prio t c p)

/-! ### Removal -/

/-- "remove the last element and make queue empty" -/
def removeLast (k : Links) (t : Ptr) : Links × Header :=
  let k := k.setNext t none
  let k := k.setPrev t none
  let k := k.setPrio t 0
  (k, ⟨none, 0⟩)

/-- "remove head of queue" -/
def removeHead (k : Links) (q : Header) (t : Ptr) : Links × Header :=
  let k := k.setNext (k.qPrev t) (k.qNext t)
  let k := k.setPrev (k.qNext t) (k.qPrev t)
  let k := k.setPrio (k.qNext t) (k.qPrio t - k.qPrio (k.qNext t))
  let k := k.setPrio t 0
  (k, ⟨k.qNext t, q.qNum - 1⟩)

/-- `pth_pqueue_delmax` -/
def delmax (k : Links) (q : Header) : (Links × Header) × Ptr :=
  if q.qHead = none then ((k, q), none)
  else if k.qNext q.qHead = q.qHead then (removeLast k q.qHead, q.qHead)
  else (removeHead k q q.qHead, q.qHead)

/-- `pth_pqueue_delete` -/
def delete (k : Links) (q : Header) (t : Tid) : Links × Header :=
  if q.qHead = none then (k, q)
  else if q.qHead = some t then
    if k.qNext t = some t then removeLast k t else removeHead k q t
  else
    let k := k.setNext (k.qPrev t) (k.qNext t)
    let k := k.setPrev (k.qNext t) (k.qPrev t)
    let k :=
      if k.qNext t ≠ q.qHead then k.setPrio (k.qNext t) (k.qPrio (k.qNext t) + k.qPrio t) else k
    let k := k.setPrio t 0
    (k, { q with qNum := q.qNum - 1 })

/-! ### Favouring and ageing -/

/-- `pth_pqueue_favorite_prio`, before it is an `int`. -/
def favoriteSum (k : Links) (q : Header) : Int :=
  if q.qHead ≠ none then k.qPrio q.qHead + 1 else prioMax

/-- `pth_pqueue_favorite_prio` -/
def favoritePrio (k : Links) (q : Header) : Int := k.int (favoriteSum k q)

/-- `pth_pqueue_favorite` -/
def favorite (fuel : Nat) (k : Links) (q : Header) (t : Tid) : Option ((Links × Header) × Bool) :=
  if q.qHead = none ∨ q.qNum = 0 then some ((k, q), false)
  else if q.qNum = 1 then some ((k, q), true)
  else
    let (k, q) := delete k q t
    (insert fuel (k.compute (favoriteSum k q)) q (favoritePrio k q) t).map fun r => (r, true)

/-- `pth_pqueue_increase` -/
def increase (k : Links) (q : Header) : Links :=
  if q.qHead = none then k else k.setPrio q.qHead (k.qPrio q.qHead + 1)

/-! ### Walking -/

/-- `pth_pqueue_tail` -/
def tail (k : Links) (q : Header) : Ptr := if q.qHead = none then none else k.qPrev q.qHead

/-- `PTH_WALK_NEXT` and `PTH_WALK_PREV` -/
inductive Direction
  | next
  | prev
  deriving DecidableEq, Repr

/-- `pth_pqueue_walk` -/
def walk (k : Links) (q : Header) (t : Ptr) (direction : Direction) : Ptr :=
  if t = none then none
  else match direction with
    | .prev => if t ≠ q.qHead then k.qPrev t else none
    | .next => if k.qNext t = q.qHead then none else k.qNext t

/-- The threads that a walk from `t` on visits. -/
def walkFrom (k : Links) (q : Header) : Nat → Ptr → Option (List Tid)
  | _, none => some []
  | 0, some _ => none
  | fuel + 1, some t => (walkFrom k q fuel (walk k q t .next)).map (t :: ·)

/-- The loop of `pth_pqueue_contains`, at `tc`. -/
def containsFrom (k : Links) (q : Header) (t : Tid) : Nat → Ptr → Option Bool
  | _, none => some false
  | 0, some _ => none
  | fuel + 1, some tc =>
    if tc = t then some true else containsFrom k q t fuel (walk k q tc .next)

/-- `pth_pqueue_contains` -/
def contains (fuel : Nat) (k : Links) (q : Header) (t : Tid) : Option Bool :=
  containsFrom k q t fuel q.qHead

end GnuPth.Pq
