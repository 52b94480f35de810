import Mathlib.Logic.Function.Basic
import Mathlib.Data.List.Nodup

/-!
# Families of lists without repetition

A family of lists in which no element occurs twice, in one list or in two:
every element is in at most one place. The lemmas say how this survives when
elements are added, dropped, or moved from one list to others.
-/

namespace Placement

open Function (update)

variable {ι α : Type} {l : ι → List α}

/-- No element is met twice, in one list or in two. -/
structure Linear (l : ι → List α) : Prop where
  nodup : ∀ i, (l i).Nodup
  unique : ∀ {i j t}, t ∈ l i → t ∈ l j → i = j

theorem Linear.notMem_of_ne (h : Linear l) (hij : i ≠ j) (ht : t ∈ l i) : t ∉ l j :=
  fun hj => hij (h.unique ht hj)

theorem Linear.nodup_snoc (h : Linear l) (hf : t ∉ l i) : (l i ++ [t]).Nodup := by
  refine List.nodup_append.mpr ⟨h.nodup _, by simp, ?_⟩
  rintro a ha b hb rfl
  obtain rfl : a = t := by simpa using hb
  exact hf ha

theorem Linear.nodup_flatMap (h : Linear l) {is : List ι} (hi : is.Nodup) :
    (is.flatMap l).Nodup := by
  refine List.nodup_flatMap.mpr ⟨fun i _ => h.nodup i, hi.imp fun {i j} hij => ?_⟩
  intro t hti htj
  exact hij (h.unique hti htj)

theorem Linear.scatter (h : Linear l) (f : α → ι) (hi : l' i = [])
    (hf : ∀ x, f x ≠ i) (p : ι → α → Bool) (hp : ∀ j x, p j x = true ↔ f x = j)
    (hl : ∀ j, j ≠ i → l' j = l j ++ (l i).filter (p j)) : Linear l' := by
  have hmem : ∀ {j x}, x ∈ l' j → j ≠ i ∧ (x ∈ l j ∧ x ∉ l i ∨ x ∈ l i ∧ f x = j) := by
    intro j x hx
    have hj : j ≠ i := by
      rintro rfl
      simp [hi] at hx
    rw [hl j hj, List.mem_append, List.mem_filter, hp] at hx
    refine ⟨hj, hx.imp_left fun hx => ⟨hx, h.notMem_of_ne hj hx⟩⟩
  constructor
  · intro j
    by_cases hj : j = i
    · subst hj; simp [hi]
    · rw [hl j hj, List.nodup_append]
      refine ⟨h.nodup j, (h.nodup i).filter _, ?_⟩
      rintro x hx y hy rfl
      exact hj (h.unique hx (List.mem_filter.mp hy).1)
  · intro j k x hx hx'
    obtain ⟨-, ⟨hj, hni⟩ | ⟨hxi, rfl⟩⟩ := hmem hx
    · obtain ⟨-, ⟨hk, -⟩ | ⟨hxi, -⟩⟩ := hmem hx'
      · exact h.unique hj hk
      · exact absurd hxi hni
    · obtain ⟨-, ⟨-, hni⟩ | ⟨-, rfl⟩⟩ := hmem hx'
      · exact absurd hxi hni
      · rfl

section
variable [DecidableEq ι]

theorem Linear.update_list (h : Linear l) (hn : xs.Nodup)
    (hx : ∀ x ∈ xs, x ∈ l i ∨ ∀ j, x ∉ l j) : Linear (update l i xs) := by
  have hout : ∀ {j x}, j ≠ i → x ∈ update l i xs j → x ∉ xs := by
    intro j x hj hxj hxs
    rw [Function.update_of_ne hj] at hxj
    rcases hx x hxs with hi | hf
    · exact hj (h.unique hxj hi)
    · exact hf j hxj
  refine ⟨fun j => ?_, ?_⟩
  · by_cases hj : j = i
    · subst hj; simpa using hn
    · simpa [hj] using h.nodup j
  · intro j k x hj hk
    by_cases hji : j = i
    · subst hji
      by_contra hne
      exact hout (Ne.symm hne) hk (by simpa using hj)
    · by_cases hki : k = i
      · subst hki
        exact absurd (by simpa using hk) (hout hji hj)
      · exact h.unique (by simpa [hji] using hj) (by simpa [hki] using hk)

theorem Linear.append (h : Linear l) (hf : ∀ j, t ∉ l j) : Linear (update l i (l i ++ [t])) := by
  refine h.update_list (h.nodup_snoc (hf i)) fun x hx => ?_
  rcases List.mem_append.mp hx with hx | hx
  · exact .inl hx
  · obtain rfl : x = t := by simpa using hx
    exact .inr hf

theorem Linear.sublist (h : Linear l) (hs : xs.Sublist (l i)) :
    Linear (update l i xs) :=
  h.update_list ((h.nodup i).sublist hs) fun _ hx => .inl (hs.subset hx)

theorem Linear.free_of_dropped (h : Linear l) (ht : t ∈ l i) (hx : t ∉ xs) (j : ι) :
    t ∉ update l i xs j := by
  by_cases hj : j = i
  · subst hj; simpa using hx
  · simpa [hj] using h.notMem_of_ne (Ne.symm hj) ht

theorem Linear.move (h : Linear l) (hi : l i = t :: ws) :
    Linear (update (update l i ws) j [t]) := by
  have ht : t ∉ ws := by
    have := h.nodup i
    rw [hi] at this
    exact (List.nodup_cons.mp this).1
  refine (h.sublist (by simp [hi])).update_list (by simp) fun x hx => ?_
  obtain rfl : x = t := by simpa using hx
  exact .inr (h.free_of_dropped (by simp [hi]) ht)

theorem Linear.shift (h : Linear l) (hi : l i = t :: ws) (hij : i ≠ j) :
    Linear (update (update l i ws) j (t :: l j)) := by
  have ht : t ∉ ws := by
    have := h.nodup i
    rw [hi] at this
    exact (List.nodup_cons.mp this).1
  have htj : t ∉ l j := h.notMem_of_ne hij (by simp [hi])
  refine (h.sublist (by simp [hi])).update_list (List.nodup_cons.mpr ⟨htj, h.nodup j⟩) fun x hx => ?_
  rcases List.mem_cons.mp hx with rfl | hx
  · exact .inr (h.free_of_dropped (by simp [hi]) ht)
  · exact .inl (by simpa [hij.symm] using hx)

theorem Linear.transfer (h : Linear l) (hx : xs.Perm (l i)) :
    Linear (update (update l i []) j xs) := by
  refine (h.sublist (List.nil_sublist _)).update_list (hx.nodup_iff.mpr (h.nodup i)) fun x hm => ?_
  exact .inr (h.free_of_dropped (hx.subset hm) List.not_mem_nil)

end

end Placement
