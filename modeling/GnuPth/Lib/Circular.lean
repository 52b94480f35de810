import Mathlib.Logic.Function.Basic
import Mathlib.Data.List.Nodup

/-!
# Intrusive circular lists

A circular doubly linked list whose links live in its members. `Segment` is a
piece of it, from one member to another; a circle is a segment from a member to
itself. The lemmas say what the writes of an insertion at the end and of a
removal at the front do to a circle, and that writes elsewhere do nothing.
-/

namespace Intrusive

open Function (update update_self)

variable {ν : Type} {next : ν → ν} {l : List ν}

/-- From `a` through `l` to `b`, and back. -/
def Segment (next prev : ν → ν) : ν → List ν → ν → Prop
  | a, [], b => next a = b ∧ prev b = a
  | a, y :: ys, b => (next a = y ∧ prev y = a) ∧ Segment next prev y ys b

def Circular (next prev : ν → ν) : List ν → Prop
  | [] => True
  | x :: xs => Segment next prev x xs x

/-! ### Segments -/

theorem segment_snoc :
    Segment next prev a (l ++ [y]) b ↔ Segment next prev a l y ∧ next y = b ∧ prev b = y := by
  induction l generalizing a with
  | nil => exact Iff.rfl
  | cons z zs ih => simp only [List.cons_append, Segment, ih, and_assoc]

theorem segment_append :
    Segment next prev a (l₁ ++ y :: l₂) b ↔ Segment next prev a l₁ y ∧ Segment next prev y l₂ b := by
  induction l₁ generalizing a with
  | nil => exact Iff.rfl
  | cons z zs ih => simp only [List.cons_append, Segment, ih, and_assoc]

theorem Segment.congr (h : Segment next prev a l b) (hn : ∀ z ∈ a :: l, next' z = next z)
    (hp : ∀ z ∈ l ++ [b], prev' z = prev z) : Segment next' prev' a l b := by
  induction l generalizing a with
  | nil => exact ⟨(hn a (by simp)).trans h.1, (hp b (by simp)).trans h.2⟩
  | cons y ys ih =>
    refine ⟨⟨(hn a (by simp)).trans h.1.1, (hp y (by simp)).trans h.1.2⟩, ih h.2 ?_ ?_⟩
    · exact fun z hz => hn z (List.mem_cons_of_mem _ hz)
    · exact fun z hz => hp z (List.mem_cons_of_mem _ hz)

/-! ### Circles -/

theorem Circular.congr (h : Circular next prev l) (hn : ∀ z ∈ l, next' z = next z)
    (hp : ∀ z ∈ l, prev' z = prev z) : Circular next' prev' l := by
  cases l with
  | nil => trivial
  | cons x xs =>
    refine Segment.congr h hn fun z hz => hp z ?_
    rcases List.mem_append.mp hz with hz | hz
    · exact List.mem_cons_of_mem _ hz
    · rw [List.mem_singleton.mp hz]
      exact List.mem_cons_self

theorem Circular.prev_head (h : Circular next prev (x :: xs)) :
    (x :: xs).getLast? = some (prev x) := by
  rcases List.eq_nil_or_concat' xs with rfl | ⟨l, y, rfl⟩
  · rw [h.2]
    rfl
  · obtain ⟨-, -, hp⟩ := segment_snoc.mp h
    rw [hp, ← List.cons_append, List.getLast?_concat]

theorem Circular.prev_mem (h : Circular next prev (x :: xs)) : prev x ∈ x :: xs :=
  List.mem_of_getLast? h.prev_head

theorem Circular.next_head (h : Circular next prev (x :: y :: xs)) : next x = y := h.1.1

theorem notMem_of_nodup_snoc (h : (l ++ [y]).Nodup) : y ∉ l := fun hy =>
  (List.nodup_append.mp h).2.2 y hy y (List.mem_singleton_self y) rfl

theorem Segment.graft (h : Segment next prev a l b) (hn : next' x = next a)
    (hp : prev' (next a) = x) (hnext : ∀ z ∈ l, next' z = next z)
    (hprev : ∀ z ∈ l ++ [b], z ≠ next a → prev' z = prev z) (hl : (l ++ [b]).Nodup) :
    Segment next' prev' x l b := by
  cases l with
  | nil =>
    obtain ⟨rfl, -⟩ := h
    exact ⟨hn, hp⟩
  | cons y ys =>
    obtain ⟨⟨rfl, -⟩, hseg⟩ := h
    refine ⟨⟨hn, hp⟩, hseg.congr hnext fun z hz => hprev z (List.mem_cons_of_mem _ hz) ?_⟩
    rintro rfl
    exact (List.nodup_cons.mp hl).1 hz

theorem Circular.rotate (h : Circular next prev (x :: xs)) : Circular next prev (xs ++ [x]) := by
  cases xs with
  | nil => exact h
  | cons y ys => exact segment_snoc.mpr ⟨h.2, h.1⟩

theorem Circular.rotate_append (h : Circular next prev (l₁ ++ l₂)) :
    Circular next prev (l₂ ++ l₁) := by
  induction l₁ generalizing l₂ with
  | nil => simpa using h
  | cons x l₁ ih =>
    have hr : Circular next prev (l₁ ++ (l₂ ++ [x])) := by simpa using Circular.rotate h
    simpa using ih hr

theorem Segment.reverse (h : Segment next prev a l b) : Segment prev next b l.reverse a := by
  induction l generalizing a with
  | nil => exact h.symm
  | cons y ys ih =>
    rw [List.reverse_cons]
    exact segment_snoc.mpr ⟨ih h.2, h.1.symm⟩

theorem Circular.reverse (h : Circular next prev l) : Circular prev next l.reverse := by
  cases l with
  | nil => trivial
  | cons x xs =>
    have hr : Circular prev next (x :: xs.reverse) := Segment.reverse h
    rw [List.reverse_cons]
    exact hr.rotate

theorem Circular.next_last (h : Circular next prev (l ++ [y])) :
    (l ++ [y]).head? = some (next y) := by
  cases l with
  | nil => simpa using h.1.symm
  | cons x l => simpa using (segment_snoc.mp h).2.1.symm

theorem Circular.next_eq (h : Circular next prev (l₁ ++ y :: l₂)) :
    (l₂ ++ (l₁ ++ [y])).head? = some (next y) := by
  have hr : Circular next prev ((l₂ ++ l₁) ++ [y]) := by
    have hr : Circular next prev ((l₁ ++ [y]) ++ l₂) := by simpa using h
    simpa using hr.rotate_append
  simpa using hr.next_last

theorem Circular.prev_cons (h : Circular next prev (l₁ ++ x :: y :: l₂)) :
    prev y = x :=
  have hr : Circular next prev ((x :: y :: l₂) ++ l₁) := h.rotate_append
  hr.1.2

theorem Circular.prev_ne (h : Circular next prev (x :: y :: xs)) (hn : (x :: y :: xs).Nodup) :
    prev x ≠ x := by
  intro he
  have hlast := h.prev_head
  rw [he, List.getLast?_cons_cons] at hlast
  exact (List.nodup_cons.mp hn).1 (List.mem_of_getLast? hlast)

theorem Circular.next_mem (h : Circular next prev (x :: xs)) : next x ∈ xs ++ [x] := by
  cases xs with
  | nil => exact List.mem_singleton.mpr h.1
  | cons y ys =>
    rw [h.1.1]
    exact List.mem_cons_self

section
variable [DecidableEq ν]

theorem Circular.singleton : Circular (update next t t) (update prev t t) [t] :=
  ⟨update_self .., update_self ..⟩

theorem Circular.snoc (h : Circular next prev (x :: xs)) (hn : (x :: xs).Nodup) (ht : t ∉ x :: xs) :
    Circular (update (update next t x) (prev x) t) (update (update prev t (prev x)) x t) (x :: xs ++ [t]) := by
  have hxt : t ≠ x := fun he => ht (he ▸ List.mem_cons_self)
  have hlast : t ≠ prev x := fun he => ht (he ▸ h.prev_mem)
  have hclose : update (update next t x) (prev x) t t = x ∧ update (update prev t (prev x)) x t x = t := by
    simp [hlast]
  refine segment_snoc.mpr ⟨?_, hclose⟩
  rcases List.eq_nil_or_concat' xs with rfl | ⟨l, y, rfl⟩
  · rw [h.2]
    simp [Segment, hxt]
  · obtain ⟨hseg, -, hp⟩ := segment_snoc.mp h
    have hx := (List.nodup_cons.mp hn).1
    have hy : y ∉ x :: l := notMem_of_nodup_snoc hn
    rw [hp] at hlast ⊢
    refine segment_snoc.mpr ⟨hseg.congr (fun z hz => ?_) (fun z hz => ?_), by simp, by simp [hxt]⟩
    · have hzy : z ≠ y := fun he => hy (he ▸ hz)
      have hzt : z ≠ t := by
        rintro rfl
        exact ht (by simp only [List.mem_cons, List.mem_append] at hz ⊢; tauto)
      simp [hzy, hzt]
    · have hzx : z ≠ x := fun he => hx (he ▸ hz)
      have hzt : z ≠ t := by
        rintro rfl
        exact ht (List.mem_cons_of_mem _ hz)
      simp [hzx, hzt]

theorem Circular.splice (ha : Circular next prev (a :: ys))
    (hx : Circular next prev (x :: xs)) (hn : (a :: ys ++ x :: xs).Nodup) :
    Circular (update (update next a x) (prev x) (next a)) (update (update prev x a) (next a) (prev x))
      (a :: (x :: xs ++ ys)) := by
  obtain ⟨hna, hnx, hdisj⟩ := List.nodup_append.mp hn
  have hz : prev x ∈ x :: xs := hx.prev_mem
  have hy : next a ∈ ys ++ [a] := ha.next_mem
  have hys : (ys ++ [a]).Nodup := List.nodup_append_comm.mp hna
  have hring : ∀ u ∈ ys ++ [a], u ∈ a :: ys := by simp [or_comm]
  have hne {u v : ν} (hu : u ∈ ys ++ [a]) (hv : v ∈ x :: xs) : u ≠ v := hdisj u (hring u hu) v hv
  have ha' : a ∈ ys ++ [a] := by simp
  have hx' : x ∈ x :: xs := List.mem_cons_self
  -- from the last member of the second circle on, the way is that of the first one
  have htail {z : ν} (hz' : prev x = z) :
      Segment (update (update next a x) (prev x) (next a))
        (update (update prev x a) (next a) (prev x)) z ys a := by
    subst hz'
    refine Segment.graft ha (by simp) (by simp) (fun u hu => ?_) (fun u hu huy => ?_) hys
    · have hua : u ≠ a := by
        rintro rfl
        exact (List.nodup_cons.mp hna).1 hu
      simp [hua, hne (List.mem_append_left _ hu) hz]
    · simp [huy, hne hu hx']
  rw [List.cons_append]
  refine ⟨⟨?_, ?_⟩, ?_⟩
  · simp [hne ha' hz]
  · simp [(hne hy hx').symm]
  · rcases List.eq_nil_or_concat' xs with rfl | ⟨l, z, rfl⟩
    · exact htail hx.2
    · obtain ⟨hseg, -, hp⟩ := segment_snoc.mp hx
      rw [List.append_assoc, List.singleton_append]
      refine segment_append.mpr ⟨hseg.congr (fun u hu => ?_) (fun u hu => ?_), htail hp⟩
      · have hmem : u ∈ x :: (l ++ [z]) := by
          rw [← List.cons_append]
          exact List.mem_append_left _ hu
        have huz : u ≠ z := by
          rintro rfl
          exact notMem_of_nodup_snoc hnx hu
        simp [(hne ha' hmem).symm, hp, huz]
      · have hmem : u ∈ x :: (l ++ [z]) := List.mem_cons_of_mem _ hu
        have hux : u ≠ x := by
          rintro rfl
          exact (List.nodup_cons.mp hnx).1 hu
        simp [(hne hy hmem).symm, hux]

theorem Circular.uncons (h : Circular next prev (x :: y :: xs)) (hn : (x :: y :: xs).Nodup) :
    Circular (update next (prev x) y) (update prev y (prev x)) (y :: xs) := by
  obtain ⟨-, hseg⟩ := h
  have hny := (List.nodup_cons.mp hn).2
  rcases List.eq_nil_or_concat' xs with rfl | ⟨l, z, rfl⟩
  · rw [hseg.2]
    exact ⟨update_self .., update_self ..⟩
  · obtain ⟨hseg, -, hp⟩ := segment_snoc.mp hseg
    have hy := (List.nodup_cons.mp hny).1
    have hz : z ∉ y :: l := notMem_of_nodup_snoc hny
    rw [hp]
    refine segment_snoc.mpr ⟨hseg.congr (fun w hw => ?_) (fun w hw => ?_), by simp, by simp⟩
    · have hwz : w ≠ z := fun he => hz (he ▸ hw)
      simp [hwz]
    · have hwy : w ≠ y := fun he => hy (he ▸ hw)
      simp [hwy]

theorem Circular.insertAfter (h : Circular next prev (l₁ ++ y :: l₂))
    (hn : (l₁ ++ y :: l₂).Nodup) (ht : t ∉ l₁ ++ y :: l₂) :
    Circular (update (update next t (next y)) y t) (update (update prev t y) (next y) t)
      (l₁ ++ y :: t :: l₂) := by
  -- read from the member behind `y` on, the new one is put in at the end
  have hsplit : l₁ ++ y :: l₂ = (l₁ ++ [y]) ++ l₂ := by simp
  rw [hsplit] at h hn ht
  have hr : Circular next prev (l₂ ++ (l₁ ++ [y])) := h.rotate_append
  have hn' : (l₂ ++ (l₁ ++ [y])).Nodup := List.nodup_append_comm.mp hn
  have ht' : t ∉ l₂ ++ (l₁ ++ [y]) := by simpa [or_comm, or_assoc, or_left_comm] using ht
  have hhead : (l₂ ++ (l₁ ++ [y])).head? = some (next y) := by
    simpa using Circular.next_last (l := l₂ ++ l₁) (y := y) (by simpa using hr)
  have hlast : (l₂ ++ (l₁ ++ [y])).getLast? = some y := by simp
  generalize hw : l₂ ++ (l₁ ++ [y]) = w at hr hn' ht' hhead hlast
  obtain ⟨ws, rfl⟩ := List.head?_eq_some_iff.mp hhead
  have hprev : prev (next y) = y := Option.some.inj (hr.prev_head.symm.trans hlast)
  have hs := hr.snoc hn' ht'
  rw [hprev, ← hw] at hs
  have hback : Circular (update (update next t (next y)) y t)
      (update (update prev t y) (next y) t) (l₂ ++ ((l₁ ++ [y]) ++ [t])) := by simpa using hs
  simpa using hback.rotate_append

theorem Circular.remove (h : Circular next prev (l₁ ++ t :: l₂))
    (hn : (l₁ ++ t :: l₂).Nodup) (hne : l₁ ++ l₂ ≠ []) :
    Circular (update next (prev t) (next t)) (update prev (next t) (prev t)) (l₁ ++ l₂) ∧
      prev t ≠ t := by
  have hr : Circular next prev (t :: (l₂ ++ l₁)) := h.rotate_append
  have hn' : (t :: (l₂ ++ l₁)).Nodup := List.nodup_append_comm.mp hn
  have hw : l₂ ++ l₁ ≠ [] := by simpa [and_comm] using hne
  obtain ⟨y, ys, hys⟩ := List.exists_cons_of_ne_nil hw
  rw [hys] at hr hn'
  have hu := hr.uncons hn'
  rw [← hr.next_head, hr.next_head, ← hys] at hu
  rw [hr.next_head]
  exact ⟨hu.rotate_append, hr.prev_ne hn'⟩

end

end Intrusive
