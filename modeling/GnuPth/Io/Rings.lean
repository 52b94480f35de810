import GnuPth.Lib.Circular

/-!
# Event rings

`ev_next` and `ev_prev` of all events, and the ring surgery of `pth_event.c`:
a new event is a ring of its own, `pth_event_concat` puts rings in behind an
event, `pth_event_isolate` takes one event out.
-/

namespace GnuPth

open Function (update update_self update_of_ne update_apply)
open Intrusive (Circular)

structure EvLinks (ν : Type) where
  evNext : ν → ν
  evPrev : ν → ν

section
variable [DecidableEq ν] (k : EvLinks ν) (ev : ν)

/-- `ev->ev_prev = ev; ev->ev_next = ev` -/
def eventSingle : EvLinks ν := ⟨update k.evNext ev ev, update k.evPrev ev ev⟩

/-- "attach additional rings": one turn of the loop, with `evc`. -/
def eventAttach (p : EvLinks ν × ν) (evn : ν) : EvLinks ν × ν :=
  (⟨update p.1.evNext p.2 evn, update p.1.evPrev evn p.2⟩, p.1.evPrev evn)

def eventConcat (evf : ν) (rings : List ν) : EvLinks ν :=
  let evl := k.evNext evf
  let p := rings.foldl eventAttach (k, evf)
  ⟨update p.1.evNext p.2 evl, update p.1.evPrev evl p.2⟩

def eventIsolate : EvLinks ν :=
  if k.evNext ev = ev ∧ k.evPrev ev = ev then k
  else
    let next := update k.evNext (k.evPrev ev) (k.evNext ev)
    let prev := update k.evPrev (next ev) (k.evPrev ev)
    ⟨update next ev ev, update prev ev ev⟩

end

/-! ### Rings as lists -/

structure EventRing {ν : Type} (k : EvLinks ν) (l : List ν) : Prop where
  circular : Circular k.evNext k.evPrev l
  nodup : l.Nodup

section
variable {k : EvLinks ν}

theorem EventRing.congr (h : EventRing k l) (hn : ∀ z ∈ l, k'.evNext z = k.evNext z)
    (hp : ∀ z ∈ l, k'.evPrev z = k.evPrev z) : EventRing k' l :=
  ⟨h.circular.congr hn hp, h.nodup⟩

theorem EventRing.of_eq (h : EventRing k l) (hk : k' = k) : EventRing k' l := hk ▸ h

theorem EventRing.rotate (h : EventRing k (x :: xs)) : EventRing k (xs ++ [x]) :=
  ⟨h.circular.rotate, List.nodup_append_comm.mp h.nodup⟩

theorem EventRing.rotate_append (h : EventRing k (xs ++ ys)) : EventRing k (ys ++ xs) :=
  ⟨h.circular.rotate_append, List.nodup_append_comm.mp h.nodup⟩

theorem EventRing.prev_ne (h : EventRing k (ev :: y :: ys)) : k.evPrev ev ≠ ev := by
  intro he
  have hz := h.circular.prev_head
  rw [he] at hz
  exact (List.nodup_cons.mp h.nodup).1 (List.mem_of_getLast? hz)

variable [DecidableEq ν]

theorem eventSingle_ring : EventRing (eventSingle k ev) [ev] :=
  ⟨.singleton, List.nodup_singleton ev⟩

theorem EventRing.single (h : EventRing k l) (hev : ev ∉ l) : EventRing (eventSingle k ev) l := by
  refine h.congr (fun z hz => ?_) (fun z hz => ?_)
  all_goals
    have hne : z ≠ ev := fun he => hev (he ▸ hz)
    simp [eventSingle, hne]

theorem EventRing.concat (h : EventRing k (ev :: ys)) (hx : EventRing k (x :: xs))
    (hd : ∀ z ∈ ev :: ys, z ∉ x :: xs) :
    EventRing (eventConcat k ev [x]) (ev :: (x :: xs ++ ys)) := by
  have hn : (ev :: ys ++ x :: xs).Nodup := by
    refine List.nodup_append.mpr ⟨h.nodup, hx.nodup, ?_⟩
    rintro z hz _ hz' rfl
    exact hd z hz hz'
  refine ⟨h.circular.splice hx.circular hn, ?_⟩
  have hperm : (ys ++ x :: xs).Perm (x :: xs ++ ys) := List.perm_append_comm
  exact (hperm.cons ev).nodup hn

theorem EventRing.isolate_only (h : EventRing k [ev]) : eventIsolate k ev = k :=
  if_pos h.circular

theorem EventRing.concat_frame (hl : EventRing k l) (h : EventRing k (ev :: ys))
    (hx : EventRing k (x :: xs)) (hd : ∀ z ∈ l, z ∉ ev :: ys) (hd' : ∀ z ∈ l, z ∉ x :: xs) :
    EventRing (eventConcat k ev [x]) l := by
  have hlast : k.evPrev x ∈ x :: xs := hx.circular.prev_mem
  have hnext : k.evNext ev ∈ ev :: ys := by
    have hmem := h.circular.next_mem
    simp only [List.mem_append, List.mem_cons, List.not_mem_nil, or_false] at hmem ⊢
    exact hmem.symm
  refine hl.congr (fun z hz => ?_) (fun z hz => ?_)
  · have hne : z ≠ k.evPrev x := fun he => hd' z hz (he ▸ hlast)
    have hne' : z ≠ ev := fun he => hd z hz (he ▸ List.mem_cons_self)
    simp [eventConcat, eventAttach, hne, hne']
  · have hne : z ≠ k.evNext ev := fun he => hd z hz (he ▸ hnext)
    have hne' : z ≠ x := fun he => hd' z hz (he ▸ List.mem_cons_self)
    simp [eventConcat, eventAttach, hne, hne']

theorem EventRing.isolate (h : EventRing k (ev :: y :: ys)) :
    EventRing (eventIsolate k ev) [ev] ∧ EventRing (eventIsolate k ev) (y :: ys) := by
  have hnext : k.evNext ev = y := h.circular.next_head
  obtain ⟨hev, hnodup⟩ := List.nodup_cons.mp h.nodup
  have hlast := h.prev_ne
  rw [eventIsolate, if_neg fun he => hlast he.2]
  simp only [update_of_ne hlast.symm, hnext]
  refine ⟨⟨⟨update_self .., update_self ..⟩, List.nodup_singleton ev⟩, ?_, hnodup⟩
  refine (h.circular.uncons h.nodup).congr (fun z hz => ?_) (fun z hz => ?_)
  all_goals
    have hne : z ≠ ev := fun he => hev (he ▸ hz)
    simp [hne]

theorem EventRing.isolate_frame (hl : EventRing k l) (h : EventRing k (ev :: ys))
    (hd : ∀ z ∈ l, z ∉ ev :: ys) : EventRing (eventIsolate k ev) l := by
  cases ys with
  | nil => rwa [h.isolate_only]
  | cons y ys =>
    have hnext : k.evNext ev = y := h.circular.next_head
    have hlast : k.evPrev ev ∈ ev :: y :: ys := h.circular.prev_mem
    have hlast' := h.prev_ne
    rw [eventIsolate, if_neg fun he => hlast' he.2]
    simp only [update_of_ne hlast'.symm, hnext]
    refine hl.congr (fun z hz => ?_) (fun z hz => ?_)
    · have hne : z ≠ ev := fun he => hd z hz (he ▸ List.mem_cons_self)
      have hne' : z ≠ k.evPrev ev := fun he => hd z hz (he ▸ hlast)
      simp [hne, hne']
    · have hne : z ≠ ev := fun he => hd z hz (he ▸ List.mem_cons_self)
      have hne' : z ≠ y := fun he => hd z hz (he ▸ List.mem_cons_of_mem _ List.mem_cons_self)
      simp [hne, hne']

/-! ### Any number of rings -/

def eventClose (p : EvLinks ν × ν) (evl : ν) : EvLinks ν :=
  ⟨update p.1.evNext p.2 evl, update p.1.evPrev evl p.2⟩

def eventIsolateRing (k : EvLinks ν) (ev : ν) : Option ν :=
  if k.evNext ev = ev ∧ k.evPrev ev = ev then none else some (k.evNext ev)

/-- A turn of the loop puts a ring in behind `evc`, were the ring closed there. -/
theorem eventClose_attach {p : EvLinks ν × ν} (hne : x ≠ evl) :
    eventClose (eventAttach p x) evl = eventConcat (eventClose p evl) p.2 [x] := by
  simp [eventClose, eventAttach, eventConcat, hne, Function.update_comm hne]

/-- The loop of `pth_event_concat`, with the ring open behind `evc`. -/
theorem EventRing.attach {rings : List (ν × List ν)}
    (h : EventRing (eventClose p evl) (l ++ p.2 :: xs)) (hevl : evl ∈ l ++ p.2 :: xs)
    (hr : ∀ r ∈ rings, EventRing (eventClose p evl) (r.1 :: r.2))
    (hn : (l ++ p.2 :: xs ++ rings.flatMap fun r => r.1 :: r.2).Nodup) :
    EventRing (eventClose ((rings.map (·.1)).foldl eventAttach p) evl)
      (l ++ p.2 :: (rings.flatMap (fun r => r.1 :: r.2) ++ xs)) := by
  induction rings generalizing p l with
  | nil => exact h
  | cons r rings ih =>
    have hx : EventRing (eventClose p evl) (r.1 :: r.2) := hr r List.mem_cons_self
    have hring : EventRing (eventClose p evl) (p.2 :: (xs ++ l)) := h.rotate_append
    have hdisj : ∀ z ∈ l ++ p.2 :: xs, ∀ r' ∈ r :: rings, z ∉ r'.1 :: r'.2 := fun z hz r' hr' hz' =>
      (List.nodup_append.mp hn).2.2 z hz z (List.mem_flatMap.mpr ⟨r', hr', hz'⟩) rfl
    have hsame : ∀ z, z ∈ p.2 :: (xs ++ l) → z ∈ l ++ p.2 :: xs := by
      simp [or_comm, or_assoc]
    have hne : r.1 ≠ evl := fun he => hdisj evl hevl r List.mem_cons_self (he ▸ List.mem_cons_self)
    have hd : ∀ z ∈ p.2 :: (xs ++ l), z ∉ r.1 :: r.2 := fun z hz => hdisj z (hsame z hz) r List.mem_cons_self
    -- the new `evc` is the last event of the ring attached
    have hlast : (eventClose p evl).evPrev r.1 = p.1.evPrev r.1 := update_of_ne hne _ _
    have hprev := hx.circular.prev_head
    rw [hlast] at hprev
    obtain ⟨r', hr'⟩ := List.getLast?_eq_some_iff.mp hprev
    have hnew : EventRing (eventClose (eventAttach p r.1) evl)
        ((l ++ p.2 :: r') ++ (eventAttach p r.1).2 :: xs) := by
      have hc := hring.concat hx hd
      rw [← eventClose_attach hne, hr'] at hc
      have hc : EventRing (eventClose (eventAttach p r.1) evl)
          ((p.2 :: (r' ++ [p.1.evPrev r.1] ++ xs)) ++ l) := by simpa using hc
      simpa [eventAttach] using hc.rotate_append
    have hother : ∀ r₁ ∈ rings, EventRing (eventClose (eventAttach p r.1) evl) (r₁.1 :: r₁.2) := by
      intro r₁ hr₁
      rw [eventClose_attach hne]
      refine (hr r₁ (List.mem_cons_of_mem r hr₁)).concat_frame hring hx (fun z hz hz' => ?_)
        fun z hz hz' => ?_
      · exact hdisj z (hsame z hz') r₁ (List.mem_cons_of_mem r hr₁) hz
      · rw [List.flatMap_cons, ← List.append_assoc] at hn
        exact (List.nodup_append.mp hn).2.2 z (List.mem_append_right _ hz') z
          (List.mem_flatMap.mpr ⟨r₁, hr₁, hz⟩) rfl
    have hperm : ((l ++ p.2 :: r') ++ (eventAttach p r.1).2 :: xs ++
        rings.flatMap fun r => r.1 :: r.2).Perm
          (l ++ p.2 :: xs ++ (r :: rings).flatMap fun r => r.1 :: r.2) := by
      refine List.perm_iff_count.mpr fun z => ?_
      rw [List.flatMap_cons, hr']
      simp only [List.count_append, List.count_cons, List.count_nil, eventAttach]
      omega
    have hdone := ih hnew ?_ hother (hperm.nodup_iff.mpr hn)
    · simpa [hr', eventAttach] using hdone
    · simp only [List.mem_append, List.mem_cons] at hevl ⊢
      tauto

theorem EventRing.concat_rings {rings : List (ν × List ν)} (h : EventRing k (ev :: xs))
    (hr : ∀ r ∈ rings, EventRing k (r.1 :: r.2))
    (hn : (ev :: xs ++ rings.flatMap fun r => r.1 :: r.2).Nodup) :
    EventRing (eventConcat k ev (rings.map (·.1))) (ev :: (rings.flatMap (fun r => r.1 :: r.2) ++ xs)) := by
  have hback : k.evPrev (k.evNext ev) = ev := by
    cases xs with
    | nil => rw [h.circular.1, h.circular.2]
    | cons => rw [h.circular.next_head, h.circular.1.2]
  have hclose : eventClose (k, ev) (k.evNext ev) = k := by
    rw [eventClose, Function.update_eq_self, Function.update_eq_self_iff.mpr hback.symm]
  exact EventRing.attach (l := []) (hclose.symm ▸ h)
    (by simpa [or_comm] using h.circular.next_mem) (hclose.symm ▸ hr) hn

theorem EventRing.isolate_mem (h : EventRing k (xs ++ ev :: ys)) :
    EventRing (eventIsolate k ev) [ev] ∧ EventRing (eventIsolate k ev) (xs ++ ys) ∧
      eventIsolateRing k ev = (ys ++ xs).head? := by
  have hr : EventRing k (ev :: (ys ++ xs)) := h.rotate_append
  cases hl : ys ++ xs with
  | nil =>
    obtain ⟨rfl, rfl⟩ := List.append_eq_nil_iff.mp hl
    rw [hr.isolate_only]
    exact ⟨hr, ⟨trivial, List.nodup_nil⟩, if_pos hr.circular⟩
  | cons =>
    rw [hl] at hr
    obtain ⟨hone, hrest⟩ := hr.isolate
    rw [← hl] at hrest
    refine ⟨hone, hrest.rotate_append, ?_⟩
    rw [eventIsolateRing, if_neg fun he => hr.prev_ne he.2, hr.circular.next_head, List.head?_cons]

theorem EventRing.isolate_concat (h : EventRing k [ev]) (hx : EventRing k (x :: xs))
    (hev : ev ∉ x :: xs) :
    eventIsolate (eventConcat k ev [x]) ev = k := by
  have hc := h.concat hx fun z hz => List.mem_singleton.mp hz ▸ hev
  obtain ⟨hnext, hprev⟩ := h.circular
  have hlast : k.evPrev x ≠ ev := fun he => hev (he ▸ hx.circular.prev_mem)
  have hround : k.evNext (k.evPrev x) = x := by
    obtain ⟨l, hl⟩ := List.getLast?_eq_some_iff.mp hx.circular.prev_head
    have hcirc := hx.circular
    rw [hl] at hcirc
    have hhead := hcirc.next_last
    rw [← hl] at hhead
    exact (Option.some.inj hhead).symm
  rw [eventIsolate, if_neg fun he => hc.prev_ne he.2]
  have hn : (eventConcat k ev [x]).evNext = update (update k.evNext ev x) (k.evPrev x) ev := by
    simp [eventConcat, eventAttach, hnext]
  have hp : (eventConcat k ev [x]).evPrev = update (update k.evPrev x ev) ev (k.evPrev x) := by
    simp [eventConcat, eventAttach, hnext]
  have hn' : update (update (eventConcat k ev [x]).evNext (k.evPrev x) x) ev ev = k.evNext := by
    rw [hn]
    grind
  have hp' : update (update (eventConcat k ev [x]).evPrev x (k.evPrev x)) ev ev = k.evPrev := by
    rw [hp]
    grind
  have hfirst : (eventConcat k ev [x]).evNext ev = x := by simp [hn, hlast.symm]
  have hback : (eventConcat k ev [x]).evPrev ev = k.evPrev x := by simp [hp]
  simp [hfirst, hback, update_of_ne hlast.symm, hn', hp']

def EvLinks.flip (k : EvLinks ν) : EvLinks ν := ⟨k.evPrev, k.evNext⟩

omit [DecidableEq ν] in
theorem EventRing.reverse (h : EventRing k l) : EventRing k.flip l.reverse :=
  ⟨Circular.reverse h.circular, List.nodup_reverse.mpr h.nodup⟩

end

/-- `pth_event_concat` makes one ring, which reads the event, the rings given, each
from its given member on, and the rest, and backwards the reverse;
`pth_event_isolate` takes out one event and returns its successor; and it undoes the
concatenation of a single event with a ring. -/
theorem event_ring_algebra {ν : Type} [DecidableEq ν] (k : EvLinks ν) :
    (∀ evf xs (rings : List (ν × List ν)), EventRing k (evf :: xs) →
      (∀ r ∈ rings, EventRing k (r.1 :: r.2)) →
      (evf :: xs ++ rings.flatMap fun r => r.1 :: r.2).Nodup →
      EventRing (eventConcat k evf (rings.map (·.1)))
          (evf :: (rings.flatMap (fun r => r.1 :: r.2) ++ xs)) ∧
        EventRing (eventConcat k evf (rings.map (·.1))).flip
          (evf :: (rings.flatMap (fun r => r.1 :: r.2) ++ xs)).reverse) ∧
    (∀ e pre post, EventRing k (pre ++ e :: post) →
      EventRing (eventIsolate k e) [e] ∧ EventRing (eventIsolate k e) (pre ++ post) ∧
        eventIsolateRing k e = (post ++ pre).head?) ∧
    ∀ evf x xs, EventRing k [evf] → EventRing k (x :: xs) → evf ∉ x :: xs →
      eventIsolate (eventConcat k evf [x]) evf = k := by
  refine ⟨fun evf xs rings h hr hn => ?_, fun _ _ _ => EventRing.isolate_mem,
    fun _ _ _ => EventRing.isolate_concat⟩
  have hc := h.concat_rings hr hn
  exact ⟨hc, hc.reverse⟩

def threeRings : EvLinks Nat where
  evNext
    | 0 => 1
    | 1 => 0
    | 3 => 4
    | 4 => 3
    | n => n
  evPrev
    | 0 => 1
    | 1 => 0
    | 3 => 4
    | 4 => 3
    | n => n

theorem event_ring_algebra_three :
    EventRing (eventConcat threeRings 0 [2, 4]) [0, 2, 4, 3, 1] ∧
      eventIsolateRing threeRings 3 = some 4 ∧
      eventIsolate (eventConcat threeRings 2 [3]) 2 = threeRings := by
  have h₁ : EventRing threeRings [0, 1] := ⟨⟨⟨rfl, rfl⟩, rfl, rfl⟩, by decide⟩
  have h₂ : EventRing threeRings [2] := ⟨⟨rfl, rfl⟩, by decide⟩
  have h₃ : EventRing threeRings [3, 4] := ⟨⟨⟨rfl, rfl⟩, rfl, rfl⟩, by decide⟩
  have hr : ∀ r ∈ [(2, []), (4, [3])], EventRing threeRings (r.1 :: r.2) := by
    have h₄ : EventRing threeRings [4, 3] := h₃.rotate
    simp [h₂, h₄]
  obtain ⟨hconcat, hisolate, hundo⟩ := event_ring_algebra threeRings
  exact ⟨(hconcat 0 [1] [(2, []), (4, [3])] h₁ hr (by decide)).1, (hisolate 3 [] [4] h₃).2.2,
    hundo 2 3 [4] h₂ h₃ (by decide)⟩

end GnuPth
