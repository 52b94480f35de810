import Mathlib.Algebra.Group.Int.Defs
import Mathlib.Data.Option.Basic
import Mathlib.Tactic.Ring
import GnuPth.Pqueue.Links

/-!
# What the links represent

The circle through `q_next` and `q_prev` together with the differences in `q_prio`
stands for the list of the threads with their priorities. Each function of
`pth_pqueue.c` takes the links of a list to the links of the list that the
function of the same name in `Pqueue` gives, writes to no thread outside the
queue, and computes no values but priorities of members and their differences.
-/

namespace GnuPth.Pq

open Function (update)
open Intrusive (Circular)
open Delta (Encodes Falls)

def cells (l : Pqueue) : List (Ptr × Int) := l.map fun e => (some e.1, e.2)

def ptrs (l : Pqueue) : List Ptr := l.members.map some

structure Represents (k : Links) (q : Header) (l : Pqueue) : Prop where
  head : q.qHead = l.members.head?
  num : q.qNum = l.length
  nodup : l.members.Nodup
  circular : Circular k.qNext k.qPrev (ptrs l)
  deltas : Encodes k.qPrio (cells l)

structure Frame (ts : List Tid) (k k' : Links) : Prop where
  int : k'.int = k.int
  next : ∀ u : Tid, u ∉ ts → k'.qNext u = k.qNext u
  prev : ∀ u : Tid, u ∉ ts → k'.qPrev u = k.qPrev u
  prio : ∀ u : Tid, u ∉ ts → k'.qPrio u = k.qPrio u

def Spans (S : Int → Prop) (v : Int) : Prop := v = 0 ∨ S v ∨ ∃ a b, S a ∧ S b ∧ v = a - b

/-- The arithmetic is exact for the values in the span of `S`. -/
def Exact (k : Links) (S : Int → Prop) : Prop := ∀ v, Spans S v → k.int v = v

/-- What is computed on the way is within the span of `S`. -/
def Computes (S : Int → Prop) (k k' : Links) : Prop :=
  ∃ vs, k'.computed = vs ++ k.computed ∧ ∀ v ∈ vs, Spans S v

def Prio (l : Pqueue) (a : Int) : Prop := a ∈ l.map Prod.snd

/-- An operation on a queue with the list `l` leaves the list `l'`. -/
structure Performs (ts : List Tid) (S : Int → Prop) (l' : Pqueue) (k : Links) (r : Links × Header) :
    Prop where
  represents : Represents r.1 r.2 l'
  frame : Frame ts k r.1
  computes : Computes S k r.1

/-! ### Lists -/

section
variable {l : Pqueue}

@[simp] theorem cells_nil : cells [] = [] := rfl

@[simp] theorem cells_cons : cells ((t, v) :: l) = (some t, v) :: cells l := rfl

@[simp] theorem cells_append : cells (l₁ ++ l₂) = cells l₁ ++ cells l₂ := List.map_append

@[simp] theorem ptrs_nil : ptrs [] = [] := rfl

@[simp] theorem ptrs_cons : ptrs ((t, v) :: l) = some t :: ptrs l := rfl

@[simp] theorem members_append : Pqueue.members (l₁ ++ l₂) = l₁.members ++ l₂.members :=
  List.map_append

@[simp] theorem ptrs_append : ptrs (l₁ ++ l₂) = ptrs l₁ ++ ptrs l₂ := by
  simp [ptrs]

@[simp] theorem some_mem_ptrs : some t ∈ ptrs l ↔ t ∈ l.members := by
  simp [ptrs]

theorem mem_cells (h : e ∈ cells l) : ∃ u, e.1 = some u ∧ u ∈ l.members := by
  obtain ⟨e', he', rfl⟩ := List.mem_map.mp h
  exact ⟨e'.1, rfl, List.mem_map_of_mem he'⟩

theorem mem_ptrs (h : x ∈ ptrs l) : ∃ u, x = some u ∧ u ∈ l.members := by
  obtain ⟨u, hu, rfl⟩ := List.mem_map.mp h
  exact ⟨u, rfl, hu⟩

theorem ptrs_nodup : (ptrs l).Nodup ↔ l.members.Nodup :=
  List.nodup_map_iff (Option.some_injective _)

end

/-! ### Frames -/

section
variable {ts : List Tid} {x : Ptr}

theorem Frame.refl : Frame ts k k := ⟨rfl, fun _ _ => rfl, fun _ _ => rfl, fun _ _ => rfl⟩

theorem Frame.trans (h : Frame ts k₁ k₂) (h' : Frame ts k₂ k₃) : Frame ts k₁ k₃ where
  int := h'.int.trans h.int
  next u hu := (h'.next u hu).trans (h.next u hu)
  prev u hu := (h'.prev u hu).trans (h.prev u hu)
  prio u hu := (h'.prio u hu).trans (h.prio u hu)

theorem Frame.mono (h : Frame ts k₁ k₂) (hts : ∀ u ∈ ts, u ∈ ts') : Frame ts' k₁ k₂ where
  int := h.int
  next u hu := h.next u fun hm => hu (hts u hm)
  prev u hu := h.prev u fun hm => hu (hts u hm)
  prio u hu := h.prio u fun hm => hu (hts u hm)

theorem update_frame {α : Type} {f : Ptr → α} {a : α} (hx : x ∈ ts.map some)
    (hu : u ∉ ts) : update f x a (some u) = f (some u) := by
  refine Function.update_of_ne ?_ _ _
  rintro rfl
  simp only [List.mem_map, Option.some.injEq, exists_eq_right] at hx
  exact hu hx

theorem Frame.setPrio (hx : x ∈ ts.map some) : Frame ts k (k.setPrio x w) :=
  ⟨rfl, fun _ _ => rfl, fun _ _ => rfl, fun _ hu => update_frame hx hu⟩

theorem Computes.refl : Computes S k k := ⟨[], rfl, nofun⟩

theorem Computes.trans (h : Computes S k₁ k₂) (h' : Computes S k₂ k₃) : Computes S k₁ k₃ := by
  obtain ⟨vs, hvs, hS⟩ := h
  obtain ⟨vs', hvs', hS'⟩ := h'
  refine ⟨vs' ++ vs, by rw [hvs', hvs, List.append_assoc], fun v hv => ?_⟩
  rcases List.mem_append.mp hv with hv | hv
  · exact hS' v hv
  · exact hS v hv

theorem spans_pair (ha : Spans S a) (hb : Spans S b) : ∀ v ∈ [a, b], Spans S v := by
  simpa using ⟨ha, hb⟩

theorem Spans.mono (hS : ∀ a, S a → S' a) (h : Spans S w) : Spans S' w := by
  rcases h with h | h | ⟨a, b, ha, hb, h⟩
  · exact .inl h
  · exact .inr (.inl (hS w h))
  · exact .inr (.inr ⟨a, b, hS a ha, hS b hb, h⟩)

theorem Exact.mono (h : Exact k S') (hS : ∀ a, S a → S' a) : Exact k S :=
  fun v hv => h v (hv.mono hS)

theorem Exact.of_id (h : k.int = id) : Exact k S := fun v _ => congrFun h v

theorem Exact.frame (h : Exact k₁ S) (hk : Frame ts k₁ k₂) : Exact k₂ S := by
  unfold Exact
  rw [hk.int]
  exact h

theorem Computes.mono (hS : ∀ a, S a → S' a) (h : Computes S k₁ k₂) :
    Computes S' k₁ k₂ := by
  obtain ⟨vs, hvs, hspan⟩ := h
  exact ⟨vs, hvs, fun v hv => (hspan v hv).mono hS⟩

theorem Represents.frame (h : Represents k₁ q l) (hk : Frame ts k₁ k₂)
    (hd : ∀ u ∈ l.members, u ∉ ts) : Represents k₂ q l := by
  refine ⟨h.head, h.num, h.nodup, h.circular.congr ?_ ?_, h.deltas.congr ?_⟩
  · intro x hx
    obtain ⟨u, rfl, hu⟩ := mem_ptrs hx
    exact hk.next u (hd u hu)
  · intro x hx
    obtain ⟨u, rfl, hu⟩ := mem_ptrs hx
    exact hk.prev u (hd u hu)
  · intro e he
    obtain ⟨u, hu, hmem⟩ := mem_cells he
    rw [hu]
    exact hk.prio u (hd u hmem)

end

/-! ### Reading -/

section
variable {l l₁ l₂ : Pqueue} {c : Tid}

theorem represents_init (k : Links) : Represents k init [] :=
    ⟨rfl, rfl, List.nodup_nil, trivial, trivial⟩

theorem Represents.prio_head (h : Represents k q ((u, w) :: l)) : k.qPrio u = w := h.deltas.1

theorem Represents.prio_next (h : Represents k q (l₁ ++ (c, p) :: (y, v) :: l₂)) :
    k.qPrio y = p - v := by
  have hd := h.deltas
  rw [cells_append, cells_cons, Delta.encodes_append] at hd
  exact hd.2.1

theorem Represents.next_cons (h : Represents k q (l₁ ++ (c, p) :: (y, v) :: l₂)) :
    k.qNext c = some y := by
  have hn := h.circular
  rw [ptrs_append] at hn
  simpa using hn.next_eq.symm

theorem Represents.next_last (h : Represents k q (l₁ ++ [(c, p)])) : k.qNext c = q.qHead := by
  have hn := h.circular
  rw [ptrs_append] at hn
  have hhead := hn.next_eq
  rw [h.head]
  cases l₁ with
  | nil => simpa using hhead.symm
  | cons e =>
    obtain ⟨a, b⟩ := e
    simpa using hhead.symm

theorem Represents.head_ne (h : Represents k q (l₁ ++ (c, p) :: (y, v) :: l₂)) :
    some y ≠ q.qHead := by
  have hn := h.nodup
  rw [h.head]
  cases l₁ with
  | nil =>
    simp only [List.nil_append, Pqueue.members_cons, List.nodup_cons, List.mem_cons, not_or] at hn
    simpa [eq_comm] using hn.1.1
  | cons =>
    simp only [List.cons_append, Pqueue.members_cons, members_append, List.nodup_cons,
      List.mem_append, List.mem_cons, not_or] at hn
    simpa [eq_comm] using hn.1.2.2.1

theorem Represents.apart {b : Pqueue} (h : Represents k q (a ++ (y, v) :: b))
    (hu : u ∈ a.members ∨ u ∈ b.members) : u ≠ y := by
  have hn := h.nodup
  rw [members_append, Pqueue.members_cons, List.nodup_middle, List.nodup_cons, List.mem_append] at hn
  rintro rfl
  exact hn.1 hu

theorem Represents.nonempty (h : Represents k q ((u, w) :: l)) :
    ¬ (q.qHead = none ∨ q.qNum = 0) := by
  rw [h.head, h.num]
  simp only [Pqueue.members_cons, List.head?_cons, reduceCtorEq, List.length_cons, false_or]
  omega

theorem Represents.computed (h : Represents k q l) (vs : List Int) :
    Represents { k with computed := vs } q l :=
  ⟨h.head, h.num, h.nodup, h.circular, h.deltas⟩

end

/-! ### Insertion -/

section
variable {k : Links} {l l₂ : Pqueue} {t : Tid}

def Near (prio : Int) (l : Pqueue) (a : Int) : Prop := a = prio ∨ Prio l a

theorem performs_insertFirst (h : Represents k q []) (prio : Int) (t : Tid)
    (hint : Exact k (· = prio)) :
    Performs [t] (· = prio) [(t, prio)] k (insertFirst k q prio t) := by
  have hprio : k.int prio = prio := hint prio (.inr (.inl rfl))
  refine ⟨⟨rfl, ?_, List.nodup_singleton t, ?_, ?_⟩, ?_, [prio], rfl, ?_⟩
  · simp [insertFirst, h.num]
  · exact Circular.singleton
  · exact ⟨by simp [insertFirst, Links.setPrio, Links.setNext, Links.setPrev, hprio], trivial⟩
  · have ht : some t ∈ [t].map some := by simp
    exact ⟨rfl, fun _ hu => update_frame ht hu, fun _ hu => update_frame ht hu,
      fun _ hu => update_frame ht hu⟩
  · intro v hv
    rw [List.mem_singleton.mp hv]
    exact .inr (.inl rfl)

theorem performs_insertHead (h : Represents k q ((u, w) :: l))
    (ht : t ∉ Pqueue.members ((u, w) :: l)) (prio : Int)
    (hint : Exact k fun a => a = prio ∨ a = w) :
    Performs (t :: Pqueue.members ((u, w) :: l)) (fun a => a = prio ∨ a = w)
      ((t, prio) :: (u, w) :: l) k (insertHead k q prio t) := by
  have hspan : Spans (fun a => a = prio ∨ a = w) (prio - w) :=
    .inr (.inr ⟨prio, w, .inl rfl, .inr rfl, rfl⟩)
  have hint₁ : k.int prio = prio := hint prio (.inr (.inl (.inl rfl)))
  have hint₂ : k.int (prio - k.qPrio u) = prio - k.qPrio u := by
    rw [h.prio_head]
    exact hint _ hspan
  have hhead : q.qHead = some u := h.head
  have hcirc : Circular k.qNext k.qPrev (some u :: ptrs l) := h.circular
  have hn : (some u :: ptrs l).Nodup := ptrs_nodup.mpr h.nodup
  have htp : some t ∉ some u :: ptrs l := some_mem_ptrs.not.mpr ht
  have htu : t ≠ u := fun he => ht (by simp [he])
  have hpt : k.qPrev u ≠ some t := fun he => htp (he ▸ hcirc.prev_mem)
  have hnext : (insertHead k q prio t).1.qNext =
      update (update k.qNext t (some u)) (k.qPrev u) (some t) := by
    simp [insertHead, Links.setNext, Links.setPrev, Links.setPrio, hhead]
  have hprev : (insertHead k q prio t).1.qPrev =
      update (update k.qPrev t (k.qPrev u)) (some u) (some t) := by
    simp [insertHead, Links.setNext, Links.setPrev, Links.setPrio, hhead, hpt.symm]
  have hprio : (insertHead k q prio t).1.qPrio =
      update (update k.qPrio t prio) (some u) (prio - k.qPrio u) := by
    simp [insertHead, Links.setNext, Links.setPrev, Links.setPrio, hhead, hpt.symm, htu.symm,
      hint₁, hint₂]
  have hcomp : (insertHead k q prio t).1.computed = (prio - w) :: prio :: k.computed := by
    simp [insertHead, Links.setNext, Links.setPrev, Links.setPrio, hhead, hpt.symm, htu.symm,
      h.prio_head]
  refine ⟨⟨rfl, ?_, List.nodup_cons.mpr ⟨ht, h.nodup⟩, ?_, ?_⟩, ⟨rfl, ?_, ?_, ?_⟩,
    [_, _], hcomp, spans_pair hspan (.inr (.inl (.inl rfl)))⟩
  · simp [insertHead, h.num]
  · rw [hnext, hprev]
    have hs := (hcirc.snoc hn htp).rotate_append
    simpa using hs
  · rw [hprio]
    refine Encodes.cons h.deltas ?_ (by simp) fun e he => ?_
    · simp [htu]
    · obtain ⟨x, hx, hmem⟩ := mem_cells he
      have hxu : x ≠ u := h.apart (a := []) (.inr hmem)
      have hxt : x ≠ t := fun hxt => ht (by simp [← hxt, hmem])
      simp [hx, hxu, hxt]
  · intro x hx
    rw [hnext, update_frame (List.mem_cons_of_mem _ hcirc.prev_mem) hx, update_frame (by simp) hx]
  · intro x hx
    rw [hprev, update_frame (by simp) hx, update_frame (by simp) hx]
  · intro x hx
    rw [hprio, update_frame (by simp) hx, update_frame (by simp) hx]

theorem Represents.next_mem (h : Represents k q (l₁ ++ (c, p) :: l₂)) :
    k.qNext c ∈ ptrs (l₁ ++ (c, p) :: l₂) := by
  have hcirc : Circular k.qNext k.qPrev (ptrs l₁ ++ some c :: ptrs l₂) := by simpa using h.circular
  have hmem := List.mem_of_mem_head? hcirc.next_eq
  simp only [List.mem_append, List.mem_singleton] at hmem
  simp only [ptrs_append, ptrs_cons, List.mem_append, List.mem_cons]
  tauto

theorem spans_insertAfter (h : Represents k q (l₁ ++ (c, p) :: l₂)) (prio : Int) :
    Spans (Near prio (l₁ ++ (c, p) :: l₂)) (p - prio) ∧
      (k.qNext c ≠ q.qHead →
        Spans (Near prio (l₁ ++ (c, p) :: l₂)) (k.qPrio (k.qNext c) - (p - prio))) := by
  refine ⟨.inr (.inr ⟨p, prio, .inr (by simp [Prio]), .inl rfl, rfl⟩), fun hlast => ?_⟩
  -- the thread behind it comes down to its distance from the new one
  cases l₂ with
  | nil => exact absurd h.next_last hlast
  | cons e =>
    obtain ⟨y, v⟩ := e
    rw [h.next_cons, h.prio_next]
    exact .inr (.inr ⟨prio, v, .inl rfl, .inr (by simp [Prio]), by ring⟩)

theorem insertAfter_links (htc : c ≠ t) (hnt : k.qNext c ≠ some t)
    (hint₁ : k.int (p - prio) = p - prio)
    (hint₂ : k.qNext c ≠ q.qHead → k.int (k.qPrio (k.qNext c) - (p - prio)) =
      k.qPrio (k.qNext c) - (p - prio)) :
    (insertAfter k q prio t c p).1 =
      { qNext := update (update k.qNext t (k.qNext c)) c (some t)
        qPrev := update (update k.qPrev t (some c)) (k.qNext c) (some t)
        qPrio :=
          if k.qNext c = q.qHead then update k.qPrio t (p - prio)
          else update (update k.qPrio t (p - prio)) (k.qNext c) (k.qPrio (k.qNext c) - (p - prio))
        int := k.int
        computed :=
          if k.qNext c = q.qHead then (p - prio) :: k.computed
          else (k.qPrio (k.qNext c) - (p - prio)) :: (p - prio) :: k.computed } := by
  by_cases hlast : k.qNext c = q.qHead
  · simp [insertAfter, Links.setNext, Links.setPrev, Links.setPrio, htc.symm, hlast, hint₁]
  · simp [insertAfter, Links.setNext, Links.setPrev, Links.setPrio, htc.symm, hlast, hnt, hint₁,
      hint₂ hlast]

/-- The new thread stores what `c` exceeds it by, and the one behind it what it
exceeds that one by. -/
theorem encodes_insertAfter (h : Represents k q (l₁ ++ (c, p) :: l₂))
    (ht : t ∉ Pqueue.members (l₁ ++ (c, p) :: l₂)) :
    Encodes (if k.qNext c = q.qHead then update k.qPrio t (p - prio)
      else update (update k.qPrio t (p - prio)) (k.qNext c) (k.qPrio (k.qNext c) - (p - prio)))
      (cells (l₁ ++ (c, p) :: (t, prio) :: l₂)) := by
  have hdeltas := h.deltas
  rw [cells_append, cells_cons, Delta.encodes_append] at hdeltas
  rw [cells_append, cells_cons, Delta.encodes_append]
  have htm : ∀ u ∈ Pqueue.members (l₁ ++ (c, p) :: l₂), u ≠ t := fun u hu he => ht (he ▸ hu)
  cases l₂ with
  | nil =>
    rw [if_pos h.next_last]
    refine ⟨hdeltas.1.congr fun e he => ?_, by simp [Falls]⟩
    obtain ⟨u, hu, hmem⟩ := mem_cells (l := l₁ ++ [(c, p)]) (by simpa using he)
    simp [hu, htm u hmem]
  | cons e l₂ =>
    obtain ⟨y, v⟩ := e
    have h' : Represents k q ((l₁ ++ [(c, p)]) ++ (y, v) :: l₂) := by simpa using h
    have hyt : y ≠ t := htm y (by simp)
    rw [h.next_cons, if_neg h.head_ne]
    refine ⟨hdeltas.1.congr fun e he => ?_, ?_, hdeltas.2.behind ?_ ?_⟩
    · obtain ⟨u, hu, hmem⟩ := mem_cells (l := l₁ ++ [(c, p)]) (by simpa using he)
      have hut : u ≠ t := htm u (by simp at hmem ⊢; tauto)
      simp [hu, hut, h'.apart (.inl hmem)]
    · simp [hyt.symm]
    · intro e he
      cases he
      simp only [Function.update_self]
      ring
    · intro e he
      obtain ⟨u, hu, hmem⟩ := mem_cells he
      have hut : u ≠ t := htm u (by simp [hmem])
      simp [hu, hut, h'.apart (.inr hmem)]

theorem performs_insertAfter (h : Represents k q (l₁ ++ (c, p) :: l₂))
    (ht : t ∉ Pqueue.members (l₁ ++ (c, p) :: l₂)) (prio : Int)
    (hint : Exact k (Near prio (l₁ ++ (c, p) :: l₂))) :
    Performs (t :: Pqueue.members (l₁ ++ (c, p) :: l₂)) (Near prio (l₁ ++ (c, p) :: l₂))
      (l₁ ++ (c, p) :: (t, prio) :: l₂) k (insertAfter k q prio t c p) := by
  have hcirc : Circular k.qNext k.qPrev (ptrs l₁ ++ some c :: ptrs l₂) := by simpa using h.circular
  have hn : (ptrs l₁ ++ some c :: ptrs l₂).Nodup := by simpa using ptrs_nodup.mpr h.nodup
  have htp : some t ∉ ptrs l₁ ++ some c :: ptrs l₂ := by
    simpa using (some_mem_ptrs).not.mpr ht
  have htc : c ≠ t := fun he => ht (by simp [he])
  have hnt : k.qNext c ≠ some t := fun he => ht (some_mem_ptrs.mp (he ▸ h.next_mem))
  obtain ⟨hspan₁, hspan₂⟩ := spans_insertAfter h prio
  have hlinks : (insertAfter k q prio t c p).1 = _ :=
    insertAfter_links htc hnt (hint _ hspan₁) fun hlast => hint _ (hspan₂ hlast)
  have hmn : k.qNext c ∈ (t :: Pqueue.members (l₁ ++ (c, p) :: l₂)).map some :=
    List.mem_cons_of_mem _ h.next_mem
  refine ⟨⟨?_, ?_, ?_, ?_, hlinks ▸ encodes_insertAfter h ht⟩, ⟨hlinks ▸ rfl, ?_, ?_, ?_⟩, ?_⟩
  · rw [insertAfter, h.head]
    cases l₁ <;> rfl
  · simp only [insertAfter, h.num, List.length_append, List.length_cons]
    omega
  · have hperm : (Pqueue.members (l₁ ++ (c, p) :: (t, prio) :: l₂)).Perm
        (t :: Pqueue.members (l₁ ++ (c, p) :: l₂)) := by
      have : ((l₁.members ++ [c]) ++ t :: l₂.members).Perm (t :: (l₁.members ++ [c] ++ l₂.members)) :=
        List.perm_middle
      simpa using this
    exact hperm.nodup_iff.mpr (List.nodup_cons.mpr ⟨ht, h.nodup⟩)
  · rw [hlinks]
    simpa using hcirc.insertAfter hn htp
  · intro x hx
    rw [hlinks]
    exact (update_frame (by simp) hx).trans (update_frame (by simp) hx)
  · intro x hx
    rw [hlinks]
    exact (update_frame hmn hx).trans (update_frame (by simp) hx)
  · intro x hx
    rw [hlinks]
    split
    · exact update_frame (by simp) hx
    · exact (update_frame hmn hx).trans (update_frame (by simp) hx)
  · rw [hlinks]
    split
    · exact ⟨[p - prio], rfl, fun v hv => List.mem_singleton.mp hv ▸ hspan₁⟩
    · exact ⟨[_, _], rfl, spans_pair (hspan₂ ‹_›) hspan₁⟩

/-- Where the loop ends: behind the last member of the same or a higher priority. -/
structure Found (l : Pqueue) (prio : Int) (a : Pqueue) (e : Tid × Int) (b : Pqueue) : Prop where
  split : l = a ++ e :: b
  insert : ∀ t, l.insert prio t = a ++ e :: (t, prio) :: b

theorem Found.cons (h : Found l prio a e b) (he : ¬ e'.2 < prio) :
    Found (e' :: l) prio (e' :: a) e b where
  split := congrArg (e' :: ·) h.split
  insert t := by rw [Pqueue.insert, if_neg he, h.insert t, List.cons_append]

theorem spans_search (h : Represents k q (l₁ ++ (c, p) :: l₂)) :
    Spans (Prio (l₁ ++ (c, p) :: l₂)) (p - k.qPrio (k.qNext c)) := by
  cases l₂ with
  | nil =>
    -- behind the last member comes the head, and its priority is taken for a difference
    rw [h.next_last, h.head]
    cases l₁ with
    | nil =>
      refine .inr (.inr ⟨p, p, by simp [Prio], by simp [Prio], ?_⟩)
      exact congrArg (p - ·) h.prio_head
    | cons e =>
      obtain ⟨u, w⟩ := e
      refine .inr (.inr ⟨p, w, by simp [Prio], by simp [Prio], ?_⟩)
      exact congrArg (p - ·) (Represents.prio_head h)
  | cons =>
    rw [h.next_cons, h.prio_next]
    exact .inr (.inl (by simp [Prio]))

/-- The loop goes through the members of at least `prio` and does not turn round. -/
theorem search_spec (h : Represents k q (l₁ ++ (c, p) :: l₂)) (hp : ¬ p < prio)
    (hfuel : l₂.length < fuel) (hint : Exact k (Prio (l₁ ++ (c, p) :: l₂))) :
    ∃ vs a c' p' b, search q prio fuel k c p =
        some ({ k with computed := vs ++ k.computed }, some c', p') ∧
      (∀ v ∈ vs, Spans (Prio (l₁ ++ (c, p) :: l₂)) v) ∧ Found ((c, p) :: l₂) prio a (c', p') b := by
  induction l₂ generalizing fuel k l₁ c p with
  | nil =>
    obtain ⟨fuel, rfl⟩ := Nat.exists_eq_succ_of_ne_zero (Nat.ne_of_gt hfuel)
    refine ⟨[p - k.qPrio (k.qNext c)], [], c, p, [], ?_, ?_, rfl, fun t => ?_⟩
    · rw [search]
      simp only [Links.compute, h.next_last, ne_eq, not_true_eq_false, and_false]
      rfl
    · exact fun v hv => List.mem_singleton.mp hv ▸ spans_search h
    · rw [Pqueue.insert, if_neg hp]
      rfl
  | cons e l₂ ih =>
    obtain ⟨y, v⟩ := e
    obtain ⟨fuel, rfl⟩ := Nat.exists_eq_succ_of_ne_zero (Nat.ne_of_gt (Nat.zero_lt_of_lt hfuel))
    have hnext : k.qNext c = some y := h.next_cons
    have hprio : p - k.qPrio y = v := by rw [h.prio_next, sub_sub_cancel]
    have hv : Spans (Prio (l₁ ++ (c, p) :: (y, v) :: l₂)) v := .inr (.inl (by simp [Prio]))
    rw [search]
    simp only [Links.compute, hnext, hprio, hint v hv]
    by_cases hlt : v < prio
    · refine ⟨[v], [], c, p, (y, v) :: l₂, ?_, ?_, rfl, fun t => ?_⟩
      · rw [if_neg fun hc => absurd hlt (not_lt.mpr hc.1)]
        rfl
      · intro a ha
        rw [List.mem_singleton.mp ha]
        exact hv
      · rw [Pqueue.insert, if_neg hp, Pqueue.insert, if_pos hlt]
        rfl
    · have hsplit : (l₁ ++ [(c, p)]) ++ (y, v) :: l₂ = l₁ ++ (c, p) :: (y, v) :: l₂ := by simp
      have h' : Represents { k with computed := v :: k.computed } q
          ((l₁ ++ [(c, p)]) ++ (y, v) :: l₂) := by
        rw [hsplit]
        exact h.computed _
      obtain ⟨vs, a, c', p', b, hs, hvs, hfound⟩ :=
        ih h' hlt (Nat.lt_of_succ_lt_succ hfuel) (by rw [hsplit]; exact hint)
      refine ⟨vs ++ [v], (c, p) :: a, c', p', b, ?_, ?_, hfound.cons hp⟩
      · rw [if_pos ⟨not_lt.mp hlt, h.head_ne⟩, hs]
        simp
      · intro x hx
        rcases List.mem_append.mp hx with hx | hx
        · have := hvs x hx
          rwa [hsplit] at this
        · rw [List.mem_singleton.mp hx]
          exact hv

/-- `pth_pqueue_insert` of a thread that is in no queue. -/
theorem performs_insert (h : Represents k q l) (ht : t ∉ l.members) (prio : Int)
    (hfuel : l.length ≤ fuel) (hint : Exact k (Near prio l)) :
    ∃ r, insert fuel k q prio t = some r ∧
      Performs (t :: l.members) (Near prio l) (l.insert prio t) k r := by
  unfold insert
  cases l with
  | nil =>
    rw [if_pos (.inl h.head)]
    have hp := performs_insertFirst h prio t (hint.mono fun _ => .inl)
    exact ⟨_, rfl, hp.represents, hp.frame, hp.computes.mono fun _ => .inl⟩
  | cons e l =>
    obtain ⟨u, w⟩ := e
    have hprio : k.qPrio q.qHead = w := by
      rw [h.head]
      exact h.prio_head
    rw [if_neg h.nonempty, hprio]
    by_cases hlt : w < prio
    · have hnear : ∀ a, a = prio ∨ a = w → Near prio ((u, w) :: l) a := by
        rintro a (rfl | rfl)
        · exact .inl rfl
        · exact .inr (by simp [Prio])
      have hp := performs_insertHead h ht prio (hint.mono hnear)
      rw [if_pos hlt, Pqueue.insert, if_pos hlt]
      exact ⟨_, rfl, hp.represents, hp.frame, hp.computes.mono hnear⟩
    · have hrep : Represents k q ([] ++ (u, w) :: l) := h
      obtain ⟨vs, a, c, p, b, hs, hvs, hfound⟩ :=
        search_spec hrep hlt hfuel (hint.mono fun _ => .inr)
      have hhead : q.qHead = some u := h.head
      rw [if_neg hlt, hhead, hs, hfound.insert t]
      have hsame : Represents { k with computed := vs ++ k.computed } q (a ++ (c, p) :: b) := by
        rw [← hfound.split]
        exact h.computed _
      have hins := performs_insertAfter hsame (by rwa [← hfound.split]) prio
        (by rw [← hfound.split]; exact hint)
      rw [← hfound.split] at hins
      refine ⟨_, rfl, hins.represents,
        ⟨hins.frame.int, hins.frame.next, hins.frame.prev, hins.frame.prio⟩, ?_⟩
      have hsearch : Computes (Near prio ((u, w) :: l)) k { k with computed := vs ++ k.computed } :=
        ⟨vs, rfl, fun v hv => (hvs v hv).mono fun _ => .inr⟩
      exact hsearch.trans hins.computes

end

/-! ### Removal -/

section
variable {k : Links} {q : Header} {l l₂ : Pqueue}

theorem performs_removeLast (k : Links) (t : Tid) (S : Int → Prop) :
    Performs [t] S [] k (removeLast k t) := by
  have ht : some t ∈ [t].map some := by simp
  refine ⟨represents_init _, ⟨rfl, fun _ hu => update_frame ht hu, fun _ hu => update_frame ht hu,
    fun _ hu => update_frame ht hu⟩, [0], rfl, fun a ha => ?_⟩
  exact .inl (List.mem_singleton.mp ha)

theorem performs_removeHead (h : Represents k q ((t, v) :: (y, w) :: l))
    (hint : Exact k (Prio ((t, v) :: (y, w) :: l))) :
    Performs (Pqueue.members ((t, v) :: (y, w) :: l)) (Prio ((t, v) :: (y, w) :: l)) ((y, w) :: l) k
      (removeHead k q t) := by
  have hw : Spans (Prio ((t, v) :: (y, w) :: l)) w := .inr (.inl (by simp [Prio]))
  have hcirc : Circular k.qNext k.qPrev (some t :: some y :: ptrs l) := h.circular
  have hn : (some t :: some y :: ptrs l).Nodup := ptrs_nodup.mpr h.nodup
  have hnext : k.qNext t = some y := hcirc.next_head
  have hpt : k.qPrev t ≠ some t := hcirc.prev_ne hn
  have hty : t ≠ y := by
    rintro rfl
    simp at hn
  have hprioy : k.qPrio t - k.qPrio y = w := by
    have h' : Represents k q ([] ++ (t, v) :: (y, w) :: l) := h
    rw [h.prio_head, h'.prio_next, sub_sub_cancel]
  have hlinks : removeHead k q t =
      ({ qNext := update k.qNext (k.qPrev t) (some y)
         qPrev := update k.qPrev (some y) (k.qPrev t)
         qPrio := update (update k.qPrio (some y) w) (some t) 0
         int := k.int
         computed := 0 :: w :: k.computed }, ⟨some y, q.qNum - 1⟩) := by
    simp [removeHead, Links.setNext, Links.setPrev, Links.setPrio, hnext, hpt.symm, hprioy,
      hint w hw, hint 0 (.inl rfl)]
  rw [hlinks]
  refine ⟨⟨rfl, ?_, (List.nodup_cons.mp h.nodup).2, hcirc.uncons hn, ?_⟩,
    ⟨rfl, fun _ hu => update_frame (by exact hcirc.prev_mem) hu, fun _ hu => update_frame (by simp) hu,
      fun _ hu => (update_frame (by simp) hu).trans (update_frame (by simp) hu)⟩,
    [_, _], rfl, spans_pair (.inl rfl) hw⟩
  · simp only [h.num, List.length_cons]
    omega
  · have hx : ∀ e ∈ cells l, update (update k.qPrio (some y) w) (some t) 0 e.1 = k.qPrio e.1 := by
      intro e he
      obtain ⟨x, hx, hmem⟩ := mem_cells he
      have hxt : x ≠ t := h.apart (a := []) (.inr (List.mem_cons_of_mem _ hmem))
      have hxy : x ≠ y := h.apart (a := [(t, v)]) (.inr hmem)
      simp [hx, hxt, hxy]
    exact Encodes.uncons h.deltas (by simp [hty.symm, ← hprioy, h.prio_head]) hx

/-- What the links are behind the removal of a thread that is not the head. -/
theorem delete_links (hq : q.qHead ≠ none) (ht : some t ≠ q.qHead) (hprev : k.qPrev t = some c)
    (hct : c ≠ t) (hint₁ : k.int 0 = 0)
    (hint₂ : k.qNext t ≠ q.qHead →
      k.int (k.qPrio (k.qNext t) + k.qPrio t) = k.qPrio (k.qNext t) + k.qPrio t) :
    delete k q t =
      ({ qNext := update k.qNext c (k.qNext t)
         qPrev := update k.qPrev (k.qNext t) (some c)
         qPrio :=
           if k.qNext t = q.qHead then update k.qPrio t 0
           else update (update k.qPrio (k.qNext t) (k.qPrio (k.qNext t) + k.qPrio t)) t 0
         int := k.int
         computed :=
           if k.qNext t = q.qHead then 0 :: k.computed
           else 0 :: (k.qPrio (k.qNext t) + k.qPrio t) :: k.computed },
        { q with qNum := q.qNum - 1 }) := by
  by_cases hlast : k.qNext t = q.qHead
  · simp [delete, Links.setNext, Links.setPrev, Links.setPrio, hq, ht.symm, hprev, hct.symm, hlast,
      hint₁]
  · simp [delete, Links.setNext, Links.setPrev, Links.setPrio, hq, ht.symm, hprev, hct.symm, hlast,
      hint₁, hint₂ hlast]

theorem encodes_remove (h : Represents k q (l₁ ++ (c, p) :: (t, v) :: l₂)) :
    Encodes (if k.qNext t = q.qHead then update k.qPrio t 0
      else update (update k.qPrio (k.qNext t) (k.qPrio (k.qNext t) + k.qPrio t)) t 0)
      (cells (l₁ ++ (c, p) :: l₂)) := by
  have h' : Represents k q ((l₁ ++ [(c, p)]) ++ (t, v) :: l₂) := by simpa using h
  have hdeltas := h.deltas
  rw [cells_append, cells_cons, Delta.encodes_append] at hdeltas
  rw [cells_append, cells_cons, Delta.encodes_append]
  have hm : ∀ u ∈ Pqueue.members (l₁ ++ (c, p) :: l₂), u ≠ t :=
    fun u hu => h'.apart (by simpa [or_assoc] using hu)
  cases l₂ with
  | nil =>
    rw [if_pos h'.next_last]
    refine ⟨hdeltas.1.congr fun e he => ?_, trivial⟩
    obtain ⟨u, hu, hmem⟩ := mem_cells (l := l₁ ++ [(c, p)]) (by simpa using he)
    simp [hu, hm u hmem]
  | cons e l₂ =>
    obtain ⟨y, w⟩ := e
    have h'' : Represents k q ((l₁ ++ [(c, p), (t, v)]) ++ (y, w) :: l₂) := by simpa using h
    have hyt : y ≠ t := hm y (by simp)
    rw [h'.next_cons, if_neg h'.head_ne]
    refine ⟨hdeltas.1.congr fun e he => ?_, hdeltas.2.2.behind ?_ ?_⟩
    · obtain ⟨u, hu, hmem⟩ := mem_cells (l := l₁ ++ [(c, p)]) (by simpa using he)
      have hut : u ≠ t := hm u (by simp at hmem ⊢; tauto)
      have huy : u ≠ y := h''.apart (.inl (by simp at hmem ⊢; tauto))
      simp [hu, hut, huy]
    · intro e he
      cases he
      simp [hyt, hdeltas.2.1]
    · intro e he
      obtain ⟨u, hu, hmem⟩ := mem_cells he
      have hut : u ≠ t := hm u (by simp [hmem])
      simp [hu, hut, h''.apart (.inr hmem)]

theorem spans_remove (h : Represents k q (l₁ ++ (c, p) :: (t, v) :: l₂))
    (hlast : k.qNext t ≠ q.qHead) :
    Spans (Prio (l₁ ++ (c, p) :: (t, v) :: l₂)) (k.qPrio (k.qNext t) + k.qPrio t) := by
  have h' : Represents k q ((l₁ ++ [(c, p)]) ++ (t, v) :: l₂) := by simpa using h
  cases l₂ with
  | nil => exact absurd h'.next_last hlast
  | cons e =>
    obtain ⟨y, w⟩ := e
    rw [h'.next_cons, h'.prio_next, h.prio_next]
    exact .inr (.inr ⟨p, w, by simp [Prio], by simp [Prio], by ring⟩)

theorem performs_remove (h : Represents k q (l₁ ++ (c, p) :: (t, v) :: l₂))
    (hspan : k.qNext t ≠ q.qHead → Spans S (k.qPrio (k.qNext t) + k.qPrio t)) (hint : Exact k S) :
    Performs (Pqueue.members (l₁ ++ (c, p) :: (t, v) :: l₂)) S (l₁ ++ (c, p) :: l₂) k
      (delete k q t) := by
  have h' : Represents k q ((l₁ ++ [(c, p)]) ++ (t, v) :: l₂) := by simpa using h
  have hcirc : Circular k.qNext k.qPrev (ptrs l₁ ++ some c :: some t :: ptrs l₂) := by
    simpa using h.circular
  have hcirc' : Circular k.qNext k.qPrev ((ptrs l₁ ++ [some c]) ++ some t :: ptrs l₂) := by
    simpa using h.circular
  have hn : ((ptrs l₁ ++ [some c]) ++ some t :: ptrs l₂).Nodup := by
    simpa using ptrs_nodup.mpr h.nodup
  have hq : q.qHead ≠ none := by
    rw [h.head]
    cases l₁ <;> simp
  have hprev : k.qPrev t = some c := hcirc.prev_cons
  obtain ⟨hremoved, hpt⟩ := hcirc'.remove hn (by simp)
  have hct : c ≠ t := fun he => hpt (by rw [hprev, he])
  rw [hprev] at hremoved
  have hmn : k.qNext t ∈ (Pqueue.members (l₁ ++ (c, p) :: (t, v) :: l₂)).map some := by
    simpa [ptrs] using h'.next_mem
  have hlinks := delete_links hq h.head_ne hprev hct (hint 0 (.inl rfl)) fun hlast =>
    hint _ (hspan hlast)
  rw [hlinks]
  refine ⟨⟨?_, ?_, ?_, ?_, encodes_remove h⟩, ⟨rfl, ?_, ?_, ?_⟩, ?_⟩
  · rw [h.head]
    cases l₁ <;> rfl
  · simp only [h.num, List.length_append, List.length_cons]
    omega
  · have hsub : List.Sublist (l₁ ++ (c, p) :: l₂) (l₁ ++ (c, p) :: (t, v) :: l₂) := by simp
    exact (hsub.map Prod.fst).nodup h.nodup
  · simpa using hremoved
  · exact fun x hx => update_frame (by simp) hx
  · exact fun x hx => update_frame hmn hx
  · intro x hx
    split
    · exact update_frame (by simp) hx
    · exact (update_frame (by simp) hx).trans (update_frame hmn hx)
  · split
    · exact ⟨[0], rfl, fun a ha => .inl (List.mem_singleton.mp ha)⟩
    · exact ⟨[_, _], rfl, spans_pair (.inl rfl) (hspan ‹_›)⟩

theorem delete_append (ht : t ∉ l₁.members) :
    Pqueue.delete (l₁ ++ (t, v) :: l₂) t = l₁ ++ l₂ := by
  unfold Pqueue.delete
  rw [List.eraseP_append_right]
  · simp
  · intro e he
    have hne : e.1 ≠ t := fun het => ht (het ▸ List.mem_map_of_mem he)
    simpa using hne

/-- `pth_pqueue_delete` of a member. -/
theorem performs_delete (h : Represents k q l) (ht : t ∈ l.members) (hint : Exact k (Prio l)) :
    Performs l.members (Prio l) (l.delete t) k (delete k q t) := by
  obtain ⟨⟨t, v⟩, he, rfl⟩ := List.mem_map.mp ht
  obtain ⟨l₁, l₂, rfl⟩ := List.append_of_mem he
  have hnot : t ∉ Pqueue.members l₁ := fun hm => h.apart (.inl hm) rfl
  rw [delete_append hnot]
  rcases List.eq_nil_or_concat' l₁ with rfl | ⟨l₁, ⟨c, p⟩, rfl⟩
  · have hhead : q.qHead = some t := h.head
    unfold delete
    rw [if_neg (by simp [hhead]), if_pos hhead]
    cases l₂ with
    | nil =>
      have hself : k.qNext t = some t := h.next_last.trans hhead
      rw [if_pos hself]
      exact performs_removeLast k t _
    | cons =>
      have hyt : k.qNext t ≠ some t := by
        rw [h.next_cons, ← hhead]
        exact h.head_ne
      rw [if_neg hyt]
      exact performs_removeHead h hint
  · simp only [List.append_assoc] at h hint ⊢
    exact performs_remove h (spans_remove h) hint

theorem performs_deleteTail (h : Represents k q (l ++ [(t, v)])) (hint : Exact k S) :
    Performs (Pqueue.members (l ++ [(t, v)])) S l k (delete k q t) := by
  rcases List.eq_nil_or_concat' l with rfl | ⟨l, ⟨c, p⟩, rfl⟩
  · have hhead : q.qHead = some t := h.head
    have hself : k.qNext t = some t := h.next_last.trans hhead
    unfold delete
    rw [if_neg (by simp [hhead]), if_pos hhead, if_pos hself]
    exact performs_removeLast k t S
  · have hlast : k.qNext t = q.qHead := h.next_last
    simp only [List.append_assoc] at h ⊢
    exact performs_remove h (absurd hlast) hint

/-- `pth_pqueue_delmax` -/
theorem delmax_nil (h : Represents k q []) : delmax k q = ((k, q), none) := by
  have hhead : q.qHead = none := h.head
  unfold delmax
  rw [if_pos hhead]

theorem delmax_cons (h : Represents k q ((t, v) :: l)) : delmax k q = (delete k q t, some t) := by
  have hhead : q.qHead = some t := h.head
  unfold delmax delete
  simp only [hhead, reduceCtorEq, if_false]
  split <;> rfl

end

/-! ### Favouring and ageing -/

section
variable {l : Pqueue}

theorem favoriteSum_eq (h : Represents k q l) : favoriteSum k q = l.favoritePrio := by
  unfold favoriteSum
  rw [h.head]
  cases l with
  | nil => rfl
  | cons =>
    exact congrArg (· + 1) h.prio_head

/-- The head and the priority above it. -/
def Top (l : Pqueue) (a : Int) : Prop := a = l.favoritePrio ∨ ∃ e ∈ l.head?, a = e.2

theorem performs_insertTop (fuel : Nat) (h : Represents k q l) (ht : t ∉ l.members)
    (hint : Exact k (Top l)) :
    ∃ r, insert fuel k q l.favoritePrio t = some r ∧
      Performs (t :: l.members) (Top l) ((t, l.favoritePrio) :: l) k r := by
  unfold insert
  cases l with
  | nil =>
    rw [if_pos (.inl h.head)]
    have hp := performs_insertFirst h (Pqueue.favoritePrio []) t (hint.mono fun _ => .inl)
    exact ⟨_, rfl, hp.represents, hp.frame, hp.computes.mono fun _ => .inl⟩
  | cons e l =>
    obtain ⟨u, w⟩ := e
    have hprio : k.qPrio q.qHead = w := by
      rw [h.head]
      exact h.prio_head
    have hlt : w < Pqueue.favoritePrio ((u, w) :: l) := Int.lt_succ w
    have htop : ∀ a, a = Pqueue.favoritePrio ((u, w) :: l) ∨ a = w → Top ((u, w) :: l) a := by
      rintro a (rfl | rfl)
      · exact .inl rfl
      · exact .inr ⟨_, rfl, rfl⟩
    have hp := performs_insertHead h ht (Pqueue.favoritePrio ((u, w) :: l)) (hint.mono htop)
    rw [if_neg h.nonempty, hprio, if_pos hlt]
    exact ⟨_, rfl, hp.represents, hp.frame, hp.computes.mono htop⟩

theorem prio_insert (l : Pqueue) (prio : Int) (t : Tid) : Prio (l.insert prio t) prio :=
  List.mem_map_of_mem (Pqueue.insert_perm_cons.mem_iff.mpr List.mem_cons_self)

theorem prio_delete (h : Prio (l.delete t) a) : Prio l a :=
  (List.eraseP_sublist.map Prod.snd).subset h

theorem notMem_delete (h : l.members.Nodup) : t ∉ (l.delete t).members := by
  rw [Pqueue.members_delete]
  exact h.not_mem_erase

/-- `pth_pqueue_favorite` of a member. -/
theorem performs_favorite (h : Represents k q l) (ht : t ∈ l.members)
    (hfuel : l.length ≤ fuel) (hint : Exact k fun a => Prio l a ∨ Prio (l.favorite t) a) :
    ∃ r, favorite fuel k q t = some (r, true) ∧
      Performs l.members (fun a => Prio l a ∨ Prio (l.favorite t) a) (l.favorite t) k r := by
  have hpos : 0 < l.length := by
    obtain ⟨e, he, _⟩ := List.mem_map.mp ht
    exact List.length_pos_of_mem he
  have hne : ¬ (q.qHead = none ∨ q.qNum = 0) := by
    obtain ⟨e, l', rfl⟩ := List.exists_cons_of_length_pos hpos
    exact h.nonempty
  unfold favorite
  rw [if_neg hne]
  by_cases hone : l.length ≤ 1
  · have hnum : q.qNum = 1 := by
      rw [h.num]
      omega
    rw [if_pos hnum, Pqueue.favorite, if_pos hone]
    exact ⟨(k, q), rfl, h, .refl, .refl⟩
  · have hnum : q.qNum ≠ 1 := by
      rw [h.num]
      omega
    have hfav : l.favorite t = (l.delete t).insert (l.delete t).favoritePrio t := by
      rw [Pqueue.favorite, if_neg hone]
    have hnew : Prio (l.favorite t) (l.delete t).favoritePrio := hfav ▸ prio_insert _ _ t
    have hnear : ∀ a, Near (l.delete t).favoritePrio (l.delete t) a →
        Prio l a ∨ Prio (l.favorite t) a := by
      rintro a (rfl | ha)
      · exact .inr hnew
      · exact .inl (prio_delete ha)
    have hspan : Spans (fun a => Prio l a ∨ Prio (l.favorite t) a) (l.delete t).favoritePrio :=
      .inr (.inl (.inr hnew))
    have hdel := performs_delete h ht (hint.mono fun _ => .inl)
    rw [if_neg hnum]
    generalize delete k q t = r₁ at hdel ⊢
    obtain ⟨k₁, q₁⟩ := r₁
    have hint₁ : Exact k₁ fun a => Prio l a ∨ Prio (l.favorite t) a := hint.frame hdel.frame
    have hrep : Represents (k₁.compute (l.delete t).favoritePrio) q₁ (l.delete t) :=
      hdel.represents.computed _
    have hlen : (l.delete t).length ≤ fuel := List.eraseP_sublist.length_le.trans hfuel
    obtain ⟨r, hr, hins⟩ := performs_insert hrep (notMem_delete h.nodup) (l.delete t).favoritePrio
      hlen (hint₁.mono hnear)
    dsimp only
    rw [favoritePrio, favoriteSum_eq hdel.represents, hint₁ _ hspan, hr, hfav]
    refine ⟨r, rfl, hins.represents, ?_, ?_⟩
    · have hframe : Frame (t :: (l.delete t).members) k₁ r.1 :=
        ⟨hins.frame.int, hins.frame.next, hins.frame.prev, hins.frame.prio⟩
      refine hdel.frame.trans (hframe.mono fun u hu => ?_)
      rcases List.mem_cons.mp hu with rfl | hu
      · exact ht
      · rw [Pqueue.members_delete] at hu
        exact List.mem_of_mem_erase hu
    · rw [← hfav]
      refine (hdel.computes.mono fun _ => .inl).trans
        (Computes.trans ⟨[_], rfl, fun a ha => ?_⟩ (hins.computes.mono hnear))
      rw [List.mem_singleton.mp ha]
      exact hspan

/-- `pth_pqueue_increase`: only the head is touched. -/
theorem performs_increase (h : Represents k q l) (hint : Exact k (Prio l.increase)) :
    Performs l.members (Prio l.increase) l.increase k (increase k q, q) := by
  unfold increase
  cases l with
  | nil =>
    have hhead : q.qHead = none := h.head
    rw [if_pos hhead]
    exact ⟨h, .refl, .refl⟩
  | cons e l =>
    obtain ⟨u, w⟩ := e
    have hhead : q.qHead = some u := h.head
    rw [hhead, h.prio_head]
    have hspan : Spans (Prio (Pqueue.increase ((u, w) :: l))) (w + 1) :=
      .inr (.inl (by simp [Prio, Pqueue.increase]))
    have hcells : cells (Pqueue.increase ((u, w) :: l)) =
        (cells ((u, w) :: l)).map fun e => (e.1, e.2 + 1) := by
      simp [cells, Pqueue.increase]
    refine ⟨⟨hhead, ?_, ?_, ?_, ?_⟩, .setPrio (by simp), [w + 1], rfl, ?_⟩
    · rw [h.num, Pqueue.increase, List.length_map]
    · rw [Pqueue.members_increase]
      exact h.nodup
    · rw [ptrs, Pqueue.members_increase]
      exact h.circular
    · rw [hcells]
      refine Encodes.shift h.deltas (by simp [Links.setPrio, hint _ hspan]) fun e he => ?_
      obtain ⟨x, hx, hmem⟩ := mem_cells he
      simp [Links.setPrio, hx, h.apart (a := []) (.inr hmem)]
    · intro a ha
      rw [List.mem_singleton.mp ha]
      exact hspan

end

/-! ### Walking -/

section
variable {l₂ : Pqueue}

theorem walk_next (h : Represents k q (l₁ ++ (c, p) :: l₂)) :
    walk k q c .next = l₂.members.head? := by
  unfold walk
  cases l₂ with
  | nil => simp [h.next_last]
  | cons e =>
    obtain ⟨y, v⟩ := e
    have hne : ¬ some y = q.qHead := h.head_ne
    simp [h.next_cons, hne]

theorem walkFrom_eq (h : Represents k q (l₁ ++ l₂)) (hfuel : l₂.length ≤ fuel) :
    walkFrom k q fuel l₂.members.head? = some l₂.members := by
  induction l₂ generalizing l₁ fuel with
  | nil =>
    unfold walkFrom
    rfl
  | cons e l₂ ih =>
    obtain ⟨c, p⟩ := e
    obtain ⟨fuel, rfl⟩ := Nat.exists_eq_succ_of_ne_zero (Nat.ne_of_gt (Nat.zero_lt_of_lt hfuel))
    have h' : Represents k q ((l₁ ++ [(c, p)]) ++ l₂) := by simpa using h
    rw [Pqueue.members_cons, List.head?_cons, walkFrom, walk_next h,
      ih h' (Nat.le_of_succ_le_succ hfuel)]
    rfl

theorem containsFrom_eq (h : Represents k q (l₁ ++ l₂)) (hfuel : l₂.length ≤ fuel) :
    containsFrom k q t fuel l₂.members.head? = some (decide (t ∈ l₂.members)) := by
  induction l₂ generalizing l₁ fuel with
  | nil =>
    unfold containsFrom
    rfl
  | cons e l₂ ih =>
    obtain ⟨c, p⟩ := e
    obtain ⟨fuel, rfl⟩ := Nat.exists_eq_succ_of_ne_zero (Nat.ne_of_gt (Nat.zero_lt_of_lt hfuel))
    have h' : Represents k q ((l₁ ++ [(c, p)]) ++ l₂) := by simpa using h
    rw [Pqueue.members_cons, List.head?_cons, containsFrom, walk_next h,
      ih h' (Nat.le_of_succ_le_succ hfuel)]
    by_cases hc : c = t
    · simp [hc]
    · simp [hc, Ne.symm hc]

/-- `pth_pqueue_tail` -/
theorem tail_eq (h : Represents k q l) : tail k q = l.members.getLast? := by
  unfold tail
  rw [h.head]
  cases l with
  | nil => rfl
  | cons e l =>
    obtain ⟨u, w⟩ := e
    have hcirc : Circular k.qNext k.qPrev (some u :: ptrs l) := h.circular
    have hlast : ((Pqueue.members ((u, w) :: l)).map some).getLast? = some (k.qPrev u) :=
      hcirc.prev_head
    rw [List.getLast?_map] at hlast
    obtain ⟨z, hz, hzu⟩ := Option.map_eq_some_iff.mp hlast
    rw [hz]
    exact hzu.symm

end

end GnuPth.Pq
