import GnuPth.Lib.Circular

/-!
# Rings

`pth_ring_t`, a circular doubly linked list with a hook. The nodes are part
of the objects they link, so the links are one memory shared by all rings.
-/

namespace GnuPth

open Function (update)
open Intrusive (Circular)

variable [DecidableEq ν]

structure Ring (ν : Type) where
  hook : Option ν
  nodes : Int

structure RingLinks (ν : Type) where
  rnNext : ν → ν
  rnPrev : ν → ν

def ringInit : Ring ν := ⟨none, 0⟩

def ringElements (r : Ring ν) : Int := r.nodes

def ringFirst (r : Ring ν) : Option ν := r.hook

def ringNext (k : RingLinks ν) (r : Ring ν) (rn : ν) : Option ν :=
  if r.hook = some (k.rnNext rn) then none else some (k.rnNext rn)

def ringAppend (k : RingLinks ν) (r : Ring ν) (rn : ν) : RingLinks ν × Ring ν :=
  match r.hook with
  | none => (⟨update k.rnNext rn rn, update k.rnPrev rn rn⟩, ⟨some rn, r.nodes + 1⟩)
  | some hook =>
    let prev := update (update k.rnPrev rn (k.rnPrev hook)) hook rn
    (⟨update (update k.rnNext rn hook) (prev rn) rn, prev⟩, ⟨some hook, r.nodes + 1⟩)

def ringDelete (k : RingLinks ν) (r : Ring ν) (rn : ν) : RingLinks ν × Ring ν :=
  if r.hook = some rn ∧ k.rnPrev rn = rn ∧ k.rnNext rn = rn then (k, ⟨none, r.nodes - 1⟩)
  else
    let hook := if r.hook = some rn then some (k.rnNext rn) else r.hook
    let next := update k.rnNext (k.rnPrev rn) (k.rnNext rn)
    (⟨next, update k.rnPrev (next rn) (k.rnPrev rn)⟩, ⟨hook, r.nodes - 1⟩)

def ringPop (k : RingLinks ν) (r : Ring ν) : (RingLinks ν × Ring ν) × Option ν :=
  match ringFirst r with
  | none => ((k, r), none)
  | some rn => (ringDelete k r rn, some rn)

def ringLast (k : RingLinks ν) (r : Ring ν) : Option ν := r.hook.map k.rnPrev

/-- As `pth_ring_append`, but the hook is at the new node. -/
def ringPrepend (k : RingLinks ν) (r : Ring ν) (rn : ν) : RingLinks ν × Ring ν :=
  ((ringAppend k r rn).1, { (ringAppend k r rn).2 with hook := some rn })

def ringFavorite (k : RingLinks ν) (r : Ring ν) (rn : ν) : (RingLinks ν × Ring ν) × Bool :=
  match r.hook with
  | none => ((k, r), false)
  | some hook =>
    if hook = rn then ((k, r), true)
    else (ringPrepend (ringDelete k r rn).1 (ringDelete k r rn).2 rn, true)

def ringDequeue (k : RingLinks ν) (r : Ring ν) : (RingLinks ν × Ring ν) × Option ν :=
  match ringLast k r with
  | none => ((k, r), none)
  | some rn => (ringDelete k r rn, some rn)

def containsLoop (k : RingLinks ν) (r : Ring ν) (rns : ν) : Nat → ν → Option Bool
  | 0, _ => none
  | fuel + 1, rn =>
    if rn = rns then some true
    else if r.hook = some (k.rnNext rn) then some false
    else containsLoop k r rns fuel (k.rnNext rn)

def ringContains (k : RingLinks ν) (r : Ring ν) (rns : ν) (fuel : Nat) : Option Bool :=
  match r.hook with
  | none => some false
  | some rn => containsLoop k r rns fuel rn

/-- The nodes that `pth_ring_next` leads to, from one on. -/
def walkFrom (k : RingLinks ν) (r : Ring ν) : Nat → Option ν → Option (List ν)
  | _, none => some []
  | 0, some _ => none
  | fuel + 1, some rn => (walkFrom k r fuel (ringNext k r rn)).map (rn :: ·)

/-! ### Rings as lists -/

variable {r : Ring ν}

/-- The ring has the nodes `l`, from its hook on. -/
structure Ring.Holds (k : RingLinks ν) (r : Ring ν) (l : List ν) : Prop where
  hook : r.hook = l.head?
  nodes : r.nodes = l.length
  nodup : l.Nodup
  circular : Circular k.rnNext k.rnPrev l

structure RingLinks.SameOutside (l : List ν) (k k' : RingLinks ν) : Prop where
  next : ∀ x, x ∉ l → k'.rnNext x = k.rnNext x
  prev : ∀ x, x ∉ l → k'.rnPrev x = k.rnPrev x

omit [DecidableEq ν] in
theorem Ring.Holds.init : (ringInit : Ring ν).Holds k [] := ⟨rfl, rfl, List.nodup_nil, trivial⟩

omit [DecidableEq ν] in
theorem Ring.Holds.frame {l' : List ν} (h : r.Holds k l) (hk : RingLinks.SameOutside l' k k')
    (hd : ∀ x ∈ l, x ∉ l') :
    r.Holds k' l :=
  ⟨h.hook, h.nodes, h.nodup,
    h.circular.congr (fun x hx => hk.next x (hd x hx)) fun x hx => hk.prev x (hd x hx)⟩

omit [DecidableEq ν] in
theorem RingLinks.SameOutside.refl : RingLinks.SameOutside l k k := ⟨fun _ _ => rfl, fun _ _ => rfl⟩

omit [DecidableEq ν] in
theorem RingLinks.SameOutside.trans {k₁ k₂ k₃ : RingLinks ν} (h : RingLinks.SameOutside l k₁ k₂)
    (h' : RingLinks.SameOutside l k₂ k₃) :
    RingLinks.SameOutside l k₁ k₃ :=
  ⟨fun x hx => (h'.next x hx).trans (h.next x hx), fun x hx => (h'.prev x hx).trans (h.prev x hx)⟩

theorem RingLinks.SameOutside.write {v : ν} (hx : x ∈ l) (hy : y ∈ l) :
    RingLinks.SameOutside l k ⟨update k.rnNext x v, update k.rnPrev y w⟩ where
  next z hz := by
    have hne : z ≠ x := fun he => hz (he ▸ hx)
    simp [hne]
  prev z hz := by
    have hne : z ≠ y := fun he => hz (he ▸ hy)
    simp [hne]

theorem Ring.Holds.append (h : r.Holds k l) (hx : rn ∉ l) :
    (ringAppend k r rn).2.Holds (ringAppend k r rn).1 (l ++ [rn]) ∧
      RingLinks.SameOutside (l ++ [rn]) k (ringAppend k r rn).1 := by
  have hn : (l ++ [rn]).Nodup := by
    refine List.nodup_append.mpr ⟨h.nodup, List.nodup_singleton rn, ?_⟩
    rintro a ha b hb rfl
    rw [List.mem_singleton.mp hb] at ha
    exact hx ha
  have hnodes : r.nodes + 1 = (l ++ [rn]).length := by simp [h.nodes]
  have hmem : rn ∈ l ++ [rn] := by simp
  unfold ringAppend
  rw [h.hook]
  cases l with
  | nil => exact ⟨⟨rfl, hnodes, hn, .singleton⟩, .write hmem hmem⟩
  | cons z zs =>
    have hne : rn ≠ z := fun he => hx (he ▸ List.mem_cons_self)
    have hprev : update (update k.rnPrev rn (k.rnPrev z)) z rn rn = k.rnPrev z := by simp [hne]
    simp only [List.head?_cons, hprev]
    refine ⟨⟨rfl, hnodes, hn, h.circular.snoc h.nodup hx⟩, .trans (.write hmem hmem) (.write ?_ ?_)⟩
    · exact List.mem_append_left _ h.circular.prev_mem
    · exact List.mem_append_left _ List.mem_cons_self

theorem Ring.Holds.pop_nil (h : r.Holds k []) : ringPop k r = ((k, r), none) := by
  rw [ringPop, ringFirst, h.hook]
  rfl

theorem Ring.Holds.delete (h : r.Holds k (l₁ ++ x :: l₂)) :
    (ringDelete k r x).2.Holds (ringDelete k r x).1 (l₁ ++ l₂) ∧
      RingLinks.SameOutside (l₁ ++ x :: l₂) k (ringDelete k r x).1 := by
  have hhook := h.hook
  have hnodes : r.nodes - 1 = (l₁ ++ l₂).length := by simp [h.nodes]; omega
  have hn : (l₁ ++ l₂).Nodup := h.nodup.sublist ((List.sublist_cons_self x l₂).append_left l₁)
  unfold ringDelete
  by_cases he : l₁ ++ l₂ = []
  · obtain ⟨rfl, rfl⟩ := List.append_eq_nil_iff.mp he
    rw [if_pos ⟨hhook, h.circular.2, h.circular.1⟩]
    exact ⟨⟨rfl, hnodes, hn, trivial⟩, .refl⟩
  · obtain ⟨hcirc, hlast⟩ := h.circular.remove h.nodup he
    have hhd := h.circular.next_eq
    have hnx : update k.rnNext (k.rnPrev x) (k.rnNext x) x = k.rnNext x := by simp [hlast.symm]
    rw [if_neg (by simp [hlast])]
    simp only [hnx]
    have hr : Circular k.rnNext k.rnPrev (x :: (l₂ ++ l₁)) := h.circular.rotate_append
    have hmem : ∀ {y}, y ∈ x :: (l₂ ++ l₁) → y ∈ l₁ ++ x :: l₂ := by simp [or_comm, or_left_comm]
    refine ⟨⟨?_, hnodes, hn, hcirc⟩, .write (hmem hr.prev_mem) (hmem ?_)⟩
    · cases l₁ with
      | nil =>
        obtain ⟨y, ys, rfl⟩ := List.exists_cons_of_ne_nil he
        exact (if_pos hhook).trans hhd.symm
      | cons z zs =>
        have hzx : x ≠ z := by
          rintro rfl
          exact (List.nodup_cons.mp h.nodup).1 (by simp)
        rw [hhook, if_neg (by simpa using hzx.symm)]
        rfl
    · simpa [or_comm, or_assoc] using hr.next_mem

theorem Ring.Holds.pop_cons (h : r.Holds k (x :: l)) :
    ∃ k' r', ringPop k r = ((k', r'), some x) ∧ r'.Holds k' l ∧ RingLinks.SameOutside (x :: l) k k' := by
  have hhook : r.hook = some x := h.hook
  rw [ringPop, ringFirst, hhook]
  exact ⟨_, _, rfl, (show r.Holds k ([] ++ x :: l) from h).delete⟩

/-! ### Refinement -/

theorem Ring.Holds.prepend (h : r.Holds k l) (hx : rn ∉ l) :
    (ringPrepend k r rn).2.Holds (ringPrepend k r rn).1 (rn :: l) := by
  obtain ⟨-, hnodes, hnodup, hcircular⟩ := (h.append hx).1
  refine ⟨rfl, hnodes.trans (by simp), List.nodup_cons.mpr ⟨hx, h.nodup⟩, ?_⟩
  exact hcircular.rotate_append

theorem erase_middle {l₁ : List ν} (h : (l₁ ++ x :: l₂).Nodup) :
    (l₁ ++ x :: l₂).erase x = l₁ ++ l₂ := by
  have hx : x ∉ l₁ := fun hx => (List.nodup_append.mp h).2.2 x hx x List.mem_cons_self rfl
  rw [List.erase_append_right _ hx, List.erase_cons_head]

theorem Ring.Holds.erase (h : r.Holds k l) (hx : x ∈ l) :
    (ringDelete k r x).2.Holds (ringDelete k r x).1 (l.erase x) := by
  obtain ⟨l₁, l₂, rfl⟩ := List.append_of_mem hx
  rw [erase_middle h.nodup]
  exact h.delete.1

theorem Ring.Holds.favorite (h : r.Holds k l) (hx : x ∈ l) :
    (ringFavorite k r x).1.2.Holds (ringFavorite k r x).1.1 (x :: l.erase x) := by
  obtain ⟨y, ys, rfl⟩ := List.exists_cons_of_ne_nil (List.ne_nil_of_mem hx)
  have hhook : r.hook = some y := h.hook
  unfold ringFavorite
  simp only [hhook]
  split
  · rename_i hy
    subst hy
    simpa using h
  · exact (h.erase hx).prepend h.nodup.not_mem_erase

theorem Ring.Holds.dequeue (h : r.Holds k l) :
    (ringDequeue k r).1.2.Holds (ringDequeue k r).1.1 l.dropLast ∧ (ringDequeue k r).2 = l.getLast? := by
  cases l with
  | nil =>
    have hhook : r.hook = none := h.hook
    simpa [ringDequeue, ringLast, hhook] using h
  | cons y ys =>
    have hhook : r.hook = some y := h.hook
    have hlast := h.circular.prev_head
    obtain ⟨init, hinit⟩ := List.getLast?_eq_some_iff.mp hlast
    simp only [ringDequeue, ringLast, hhook, Option.map_some, hlast]
    rw [hinit] at h ⊢
    simpa using h.delete.1

/-- What comes behind `x` on the list, or nothing at its end. -/
theorem Ring.Holds.next (h : r.Holds k (l₁ ++ x :: l₂)) :
    ringNext k r x = l₂.head? := by
  have hnext := h.circular.next_eq
  have hhook := h.hook
  unfold ringNext
  cases l₂ with
  | nil => exact if_pos (hhook.trans hnext)
  | cons y ys =>
    have hy : k.rnNext x = y := by simpa using hnext.symm
    rw [hy, hhook]
    refine if_neg fun he => ?_
    have hmem : y ∈ l₁ ++ [x] := by
      cases l₁ with
      | nil => simpa using he.symm
      | cons z zs =>
        obtain rfl : z = y := by simpa using he
        exact List.mem_cons_self
    have hn : ((l₁ ++ [x]) ++ y :: ys).Nodup := by simpa using h.nodup
    exact (List.nodup_append.mp hn).2.2 y hmem y List.mem_cons_self rfl

theorem Ring.Holds.walkFrom (h : r.Holds k (l₁ ++ l₂))
    (hf : l₂.length ≤ fuel) : walkFrom k r fuel l₂.head? = some l₂ := by
  induction l₂ generalizing l₁ fuel with
  | nil => cases fuel <;> rfl
  | cons x l₂ ih =>
    obtain _ | fuel := fuel
    · cases hf
    · have hrest : r.Holds k ((l₁ ++ [x]) ++ l₂) := by simpa using h
      have hwalk := ih hrest (Nat.le_of_succ_le_succ hf)
      simp only [List.head?_cons, GnuPth.walkFrom, h.next, hwalk, Option.map_some]

theorem Ring.Holds.containsLoop (h : r.Holds k (l₁ ++ x :: l₂))
    (hf : l₂.length < fuel) : containsLoop k r y fuel x = some (decide (y ∈ x :: l₂)) := by
  induction l₂ generalizing l₁ x fuel with
  | nil =>
    obtain _ | fuel := fuel
    · cases hf
    · have hnext := h.next
      simp only [GnuPth.containsLoop]
      grind [ringNext]
  | cons z l₂ ih =>
    obtain _ | fuel := fuel
    · cases hf
    · have hnext := h.next
      have hrest : r.Holds k ((l₁ ++ [x]) ++ z :: l₂) := by simpa using h
      have hloop := ih hrest (Nat.lt_of_succ_lt_succ hf)
      rw [ringNext] at hnext
      split at hnext
      · cases hnext
      · rename_i hhook
        obtain rfl : k.rnNext x = z := by simpa using hnext
        rw [GnuPth.containsLoop, if_neg hhook, hloop]
        by_cases hy : x = y
        · simp [hy]
        · simp [hy, Ne.symm hy]

inductive RingOp (ν : Type)
  | append (rn : ν)
  | prepend (rn : ν)
  | delete (rn : ν)
  | pop
  | dequeue
  | favorite (rn : ν)

def RingOp.run (c : RingLinks ν × Ring ν) : RingOp ν → RingLinks ν × Ring ν
  | .append rn => ringAppend c.1 c.2 rn
  | .prepend rn => ringPrepend c.1 c.2 rn
  | .delete rn => ringDelete c.1 c.2 rn
  | .pop => (ringPop c.1 c.2).1
  | .dequeue => (ringDequeue c.1 c.2).1
  | .favorite rn => (ringFavorite c.1 c.2 rn).1

def RingOp.onList (l : List ν) : RingOp ν → List ν
  | .append rn => l ++ [rn]
  | .prepend rn => rn :: l
  | .delete rn => l.erase rn
  | .pop => l.tail
  | .dequeue => l.dropLast
  | .favorite rn => rn :: l.erase rn

/-- A node is added to a ring it is not in, and deleted from or favoured in one that it is in. -/
def RingOp.Legal (l : List ν) : RingOp ν → Prop
  | .append rn | .prepend rn => rn ∉ l
  | .delete rn | .favorite rn => rn ∈ l
  | .pop | .dequeue => True

def RingOp.Legals : List ν → List (RingOp ν) → Prop
  | _, [] => True
  | l, op :: ops => op.Legal l ∧ Legals (op.onList l) ops

theorem Ring.Holds.pop (h : r.Holds k l) :
    (ringPop k r).1.2.Holds (ringPop k r).1.1 l.tail ∧ (ringPop k r).2 = l.head? := by
  cases l with
  | nil => simpa [h.pop_nil] using h
  | cons y ys =>
    obtain ⟨k', r', he, hr', -⟩ := h.pop_cons
    simpa [he] using hr'

theorem RingOp.holds {op : RingOp ν} (h : c.2.Holds c.1 l)
    (hl : op.Legal l) : (op.run c).2.Holds (op.run c).1 (op.onList l) := by
  cases op with
  | append => exact (h.append hl).1
  | prepend => exact h.prepend hl
  | delete => exact h.erase hl
  | pop => exact h.pop.1
  | dequeue => exact h.dequeue.1
  | favorite => exact h.favorite hl

theorem RingOp.runs_hold {ops : List (RingOp ν)} (h : c.2.Holds c.1 l)
    (hl : Legals l ops) :
    (ops.foldl run c).2.Holds (ops.foldl run c).1 (ops.foldl onList l) := by
  induction ops generalizing c l with
  | nil => exact h
  | cons op ops ih => exact ih (op.holds h hl.1) hl.2

/-- A ring is the list that its operations make of the empty one. -/
theorem ring_refines (k : RingLinks ν) (ops : List (RingOp ν)) (hl : RingOp.Legals [] ops) :
    let c := ops.foldl RingOp.run (k, ringInit)
    let l := ops.foldl RingOp.onList []
    c.2.Holds c.1 l ∧ ringElements c.2 = l.length ∧
    (ringPop c.1 c.2).2 = l.head? ∧ (ringDequeue c.1 c.2).2 = l.getLast? ∧
    ∀ fuel, l.length ≤ fuel →
      walkFrom c.1 c.2 fuel (ringFirst c.2) = some l ∧
      ∀ rn, ringContains c.1 c.2 rn fuel = some (decide (rn ∈ l)) := by
  intro c l
  have h : c.2.Holds c.1 l := RingOp.runs_hold .init hl
  refine ⟨h, h.nodes, h.pop.2, h.dequeue.2, fun fuel hf => ⟨?_, fun rn => ?_⟩⟩
  · rw [ringFirst, h.hook]
    exact (show c.2.Holds c.1 ([] ++ l) from h).walkFrom hf
  · rw [ringContains, h.hook]
    cases hc : l with
    | nil => simp
    | cons y ys =>
      rw [hc] at h hf
      exact (show c.2.Holds c.1 ([] ++ y :: ys) from h).containsLoop hf

theorem ring_refines_favorite :
    let c := [.append 1, .append 2, .prepend 0, .favorite 2, .dequeue].foldl RingOp.run
      (⟨id, id⟩, ringInit)
    walkFrom c.1 c.2 2 (ringFirst c.2) = some [2, 0] :=
  ((ring_refines ⟨id, id⟩ _ (by simp [RingOp.Legals, RingOp.Legal, RingOp.onList])).2.2.2.2 2 (by decide)).1

end GnuPth
