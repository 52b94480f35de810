import Mathlib.Logic.Function.Basic
import Mathlib.Data.List.Nodup

/-!
# Intrusive singly linked lists

A list whose links live in its members: `next x` is the member after `x`.
`Linked next l` says that following `next` from the head of `l` visits the
members of `l` in order and ends in `none`. The lemmas say what one pointer
write does to a list: nothing when the written member is not in it, and the
three splices (at the end, at the front, in the middle) otherwise.
-/

namespace Intrusive

open Function (update)

variable {ν : Type} {next : ν → Option ν}

def Linked (next : ν → Option ν) : List ν → Prop
  | [] => True
  | x :: xs => next x = xs.head? ∧ Linked next xs

/-- The first and last member, as a queue header stores them. -/
structure Fifo (ν : Type) where
  head : Option ν
  tail : Option ν
  deriving DecidableEq, Repr

def Fifo.ofList (l : List ν) : Fifo ν := ⟨l.head?, l.getLast?⟩

@[simp] theorem Fifo.ofList_nil : Fifo.ofList ([] : List ν) = ⟨none, none⟩ := rfl

theorem Fifo.eq_singleton {l : List ν} (hn : l.Nodup) (hh : (Fifo.ofList l).head = some w)
    (ht : (Fifo.ofList l).tail = some w) : l = [w] := by
  obtain ⟨ws, rfl⟩ := List.head?_eq_some_iff.mp hh
  cases ws with
  | nil => rfl
  | cons x xs =>
    have hmem := List.mem_of_getLast? (List.getLast?_cons_cons.symm.trans ht)
    exact absurd hmem (List.nodup_cons.mp hn).1

@[simp] theorem linked_nil : Linked next [] := trivial

@[simp] theorem linked_cons : Linked next (x :: l) ↔ next x = l.head? ∧ Linked next l := Iff.rfl

theorem Linked.tail (h : Linked next l) : Linked next l.tail := by
  cases l with
  | nil => exact h
  | cons x xs => exact h.2

/-! ### Writes outside a list -/

theorem Linked.congr (h : Linked next l) (he : ∀ x ∈ l, next' x = next x) : Linked next' l := by
  induction l with
  | nil => trivial
  | cons y ys ih =>
    refine ⟨?_, ih h.2 fun x hx => he x (List.mem_cons_of_mem _ hx)⟩
    rw [he y (by simp)]
    exact h.1

theorem Linked.update_of_notMem [DecidableEq ν] (h : Linked next l) (hx : x ∉ l) (v : Option ν) :
    Linked (update next x v) l := by
  refine h.congr fun y hy => ?_
  have hne : y ≠ x := fun he => hx (he ▸ hy)
  simp [hne]

/-! ### Splitting -/

theorem linked_append :
    Linked next (l₁ ++ l₂) →
      Linked next l₂ ∧ ∀ y, l₁.getLast? = some y → next y = l₂.head? := by
  induction l₁ with
  | nil => intro h; exact ⟨h, by simp⟩
  | cons z zs ih =>
    rintro ⟨hz, h⟩
    obtain ⟨h₂, hlast⟩ := ih h
    refine ⟨h₂, fun y hy => ?_⟩
    cases zs with
    | nil =>
      obtain rfl : z = y := by simpa using hy
      simpa using hz
    | cons w ws => exact hlast y (by simpa [List.getLast?_cons_cons] using hy)

theorem Linked.next_of_mem (h : Linked next (l₁ ++ x :: l₂)) : next x = l₂.head? :=
  (linked_append h).1.1

/-! ### Splices -/

section
variable [DecidableEq ν]

/-- Appending `t` to a nonempty list: clear its link, then point the old last
member at it. -/
theorem Linked.snoc (h : Linked next l) (hn : l.Nodup) (ht : t ∉ l) (hy : l.getLast? = some y) :
    Linked (update (update next t none) y (some t)) (l ++ [t]) := by
  induction l with
  | nil => simp at hy
  | cons z zs ih =>
    obtain ⟨hzt, htz⟩ : t ≠ z ∧ t ∉ zs := by simpa using ht
    obtain ⟨hzs, hnz⟩ := List.nodup_cons.mp hn
    cases zs with
    | nil =>
      obtain rfl : z = y := by simpa using hy
      simp [hzt]
    | cons w ws =>
      have hy' : (w :: ws).getLast? = some y := by simpa [List.getLast?_cons_cons] using hy
      have hym : y ∈ w :: ws := List.mem_of_getLast? hy'
      have hzy : z ≠ y := fun he => hzs (he ▸ hym)
      refine ⟨?_, ih h.2 hnz htz hy'⟩
      simpa [hzy, Ne.symm hzt] using h.1

theorem Linked.singleton : Linked (update next t none) [t] := by simp

theorem Linked.uncons (h : Linked next (x :: l)) (hn : (x :: l).Nodup) :
    Linked (update next x none) l :=
  h.2.update_of_notMem (List.nodup_cons.mp hn).1 none

theorem Linked.push (h : Linked next l) (ht : t ∉ l) : Linked (update next t l.head?) (t :: l) := by
  refine ⟨by simp, h.update_of_notMem ht _⟩

/-- Unlinking `x` from behind `y`: `y` takes over the link of `x`. -/
theorem Linked.unlink (h : Linked next (l₁ ++ x :: l₂)) (hn : (l₁ ++ x :: l₂).Nodup)
    (hy : l₁.getLast? = some y) :
    Linked (update (update next y (next x)) x none) (l₁ ++ l₂) := by
  induction l₁ with
  | nil => simp at hy
  | cons z zs ih =>
    obtain ⟨hzn, hn'⟩ := List.nodup_cons.mp hn
    have hzx : z ≠ x := fun he => hzn (by simp [he])
    cases zs with
    | nil =>
      obtain rfl : z = y := by simpa using hy
      have hx : next x = l₂.head? := h.2.1
      have hx₂ : x ∉ l₂ := (List.nodup_cons.mp hn').1
      have hz₂ : z ∉ l₂ := fun hm => hzn (by simp [hm])
      refine ⟨by simp [hzx, hx], ?_⟩
      exact (h.2.2.update_of_notMem hz₂ _).update_of_notMem hx₂ _
    | cons w ws =>
      have hy' : (w :: ws).getLast? = some y := by simpa [List.getLast?_cons_cons] using hy
      have hym : y ∈ w :: ws := List.mem_of_getLast? hy'
      have hzy : z ≠ y := fun he => hzn (by rw [he]; exact List.mem_append_left _ hym)
      refine ⟨?_, ih h.2 hn' hy'⟩
      simpa [hzx, hzy] using h.1

end

/-! ### Reachability -/

/-- `t` is met when `next` is followed from `p`. -/
inductive Reaches (next : ν → Option ν) : Option ν → ν → Prop
  | here (t : ν) : Reaches next (some t) t
  | there (x t : ν) : Reaches next (next x) t → Reaches next (some x) t

theorem Linked.reaches_iff (h : Linked next l) : Reaches next l.head? t ↔ t ∈ l := by
  constructor
  · intro hr
    generalize hp : l.head? = p at hr
    induction hr generalizing l with
    | here => exact List.mem_of_mem_head? (by simp [hp])
    | there x t _ ih =>
      cases l with
      | nil => simp at hp
      | cons z zs =>
        obtain rfl : z = _ := by simpa using hp
        exact List.mem_cons_of_mem _ (ih h.2 h.1.symm)
  · intro hm
    induction l with
    | nil => simp at hm
    | cons z zs ih =>
      rcases List.mem_cons.mp hm with rfl | hm
      · exact .here _
      · refine .there z t ?_
        rw [h.1]
        exact ih h.2 hm

end Intrusive
