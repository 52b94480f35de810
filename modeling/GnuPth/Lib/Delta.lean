import Mathlib.Algebra.Group.Basic
import Mathlib.Data.List.Basic

/-!
# Values stored as differences

Along a list of cells with values, the first cell stores its value and every
other one by how much its predecessor exceeds it. The lemmas say what one has
to write when a cell is put in or taken out: at most two cells change.
-/

namespace Delta

variable {ν α : Type} [AddCommGroup α] {d : ν → α}

/-- The cells of `l` behind a cell with the value `p`. -/
def Falls (d : ν → α) : α → List (ν × α) → Prop
  | _, [] => True
  | p, (x, v) :: l => d x = p - v ∧ Falls d v l

def Encodes (d : ν → α) : List (ν × α) → Prop
  | [] => True
  | (x, v) :: l => d x = v ∧ Falls d v l

theorem Falls.congr (h : Falls d p l) (hd : ∀ e ∈ l, d' e.1 = d e.1) : Falls d' p l := by
  induction l generalizing p with
  | nil => trivial
  | cons e l ih =>
    exact ⟨(hd e (by simp)).trans h.1, ih h.2 fun e' he => hd e' (List.mem_cons_of_mem _ he)⟩

theorem Encodes.congr (h : Encodes d l) (hd : ∀ e ∈ l, d' e.1 = d e.1) : Encodes d' l := by
  cases l with
  | nil => trivial
  | cons e l =>
    exact ⟨(hd e (by simp)).trans h.1, h.2.congr fun e' he => hd e' (List.mem_cons_of_mem _ he)⟩

theorem falls_append :
    Falls d p (l₁ ++ (x, v) :: l₂) ↔ Falls d p (l₁ ++ [(x, v)]) ∧ Falls d v l₂ := by
  induction l₁ generalizing p with
  | nil => simp [Falls]
  | cons e l ih => simp only [List.cons_append, Falls, ih, and_assoc]

theorem encodes_append :
    Encodes d (l₁ ++ (x, v) :: l₂) ↔ Encodes d (l₁ ++ [(x, v)]) ∧ Falls d v l₂ := by
  cases l₁ with
  | nil => simp [Encodes, Falls]
  | cons e l =>
    simp only [List.cons_append, Encodes]
    rw [falls_append, and_assoc]

theorem Falls.behind (h : Falls d p l) (hfirst : ∀ e ∈ l.head?, d' e.1 = d e.1 + (p' - p))
    (hrest : ∀ e ∈ l.tail, d' e.1 = d e.1) : Falls d' p' l := by
  cases l with
  | nil => trivial
  | cons e l =>
    refine ⟨?_, h.2.congr hrest⟩
    rw [hfirst e rfl, h.1, sub_add_sub_cancel']

theorem Falls.shift (h : Falls d p l) (a : α) :
    Falls d (p + a) (l.map fun e => (e.1, e.2 + a)) := by
  induction l generalizing p with
  | nil => trivial
  | cons e l ih => exact ⟨by rw [h.1, add_sub_add_right_eq_sub], ih h.2⟩

theorem Encodes.shift (h : Encodes d ((x, v) :: l)) (hx : d' x = v + a)
    (hrest : ∀ e ∈ l, d' e.1 = d e.1) : Encodes d' (((x, v) :: l).map fun e => (e.1, e.2 + a)) :=
  ⟨hx, (h.2.congr hrest).shift a⟩

theorem Encodes.uncons (h : Encodes d ((x, v) :: (y, w) :: l)) (hy : d' y = v - d y)
    (hrest : ∀ e ∈ l, d' e.1 = d e.1) : Encodes d' ((y, w) :: l) := by
  refine ⟨?_, h.2.2.congr hrest⟩
  rw [hy, h.2.1, sub_sub_cancel]

theorem Encodes.cons (h : Encodes d ((y, w) :: l)) (hx : d' x = v) (hy : d' y = v - d y)
    (hrest : ∀ e ∈ l, d' e.1 = d e.1) : Encodes d' ((x, v) :: (y, w) :: l) := by
  refine ⟨hx, ?_, h.2.congr hrest⟩
  rw [hy, h.1]

end Delta
