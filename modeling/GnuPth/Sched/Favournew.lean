import GnuPth.Pqueue.Refines
import GnuPth.Sched.System

/-!
# New threads first

With `favournew` the scheduler takes the threads out of the new queue from its
tail and puts each on top of the ready queue, so their order is turned round
twice. `moveNew` is that loop on the queues as they are stored; `promoteNew` is
the same loop on the queues as lists.
-/

namespace GnuPth.Sched

open Function (update)
open Pq (Links Header)

/-- The first loop of `pth_scheduler`, for at most `turns` threads. -/
def moveNew (favournew : Bool) (fuel : Nat) :
    Nat → Links → Header → Header → Option (Links × Header × Header)
  | 0, k, nq, rq => if Pq.tail k nq = none then some (k, nq, rq) else none
  | turns + 1, k, nq, rq =>
    match Pq.tail k nq with
    | none => some (k, nq, rq)
    | some t =>
      let (k, nq) := Pq.delete k nq t
      let sum := if favournew then Pq.favoriteSum k rq else prioStd
      let prio := if favournew then Pq.favoritePrio k rq else prioStd
      match Pq.insert fuel (k.compute sum) rq prio t with
      | none => none
      | some (k, rq) => moveNew favournew fuel turns k nq rq

section
variable {s : State}

theorem members_concat (l : Pqueue) (t : Tid) (p : Int) :
    Pqueue.members (l ++ [(t, p)]) = l.members ++ [t] := by
  simp

theorem delete_last (h : (Pqueue.members (l ++ [(t, p)])).Nodup) :
    Pqueue.delete (l ++ [(t, p)]) t = l := by
  rw [members_concat] at h
  rw [Pq.delete_append (Intrusive.notMem_of_nodup_snoc h), List.append_nil]

theorem promoteTail_queue (hf : cfg.favournew = true) (hn : s.queue .nq = l ++ [(t, p)])
    (hnodup : (s.members .nq).Nodup) :
    (promoteTail cfg s t).queue .nq = l ∧
      (promoteTail cfg s t).queue .rq = (t, (s.queue .rq).favoritePrio) :: s.queue .rq := by
  have hdelete : (s.queue .nq).delete t = l := by
    rw [State.members, hn] at hnodup
    rw [hn, delete_last hnodup]
  unfold promoteTail
  simp [State.enqueue, State.dequeue, State.setTcb, hf, hdelete, Pq.insert_favoritePrio]

structure Room (k : Links) (r : Pqueue) (n : Nat) : Prop where
  int : ∀ v, Pq.Fits v → k.int v = v
  head : ∀ e ∈ r.head?, Pq.Fits e.2
  top : r.favoritePrio + n ≤ 2 ^ 31

theorem Room.fits (h : Room k r (n + 1)) : Pq.Fits r.favoritePrio := by
  have htop := h.top
  cases r with
  | nil =>
    simp only [Pqueue.favoritePrio, prioMax] at htop ⊢
    exact ⟨by omega, by omega⟩
  | cons e r =>
    obtain ⟨u, w⟩ := e
    obtain ⟨hmin, hmax⟩ := h.head (u, w) rfl
    simp only [Pqueue.favoritePrio] at htop hmin ⊢
    exact ⟨by omega, by omega⟩

theorem Room.exact (h : Room k r (n + 1)) : Pq.Exact k (Pq.Top r) := by
  obtain ⟨hmin, hmax⟩ := h.fits
  have hnear : ∀ a, Pq.Top r a → Pq.Fits a ∧ r.favoritePrio - 1 ≤ a ∧ a ≤ r.favoritePrio := by
    rintro a (rfl | ⟨e, he, rfl⟩)
    · exact ⟨h.fits, by omega, le_rfl⟩
    · have hfits := h.head e he
      cases r with
      | nil => cases he
      | cons e' r =>
        cases he
        simp only [Pqueue.favoritePrio]
        exact ⟨hfits, by omega, by omega⟩
  rintro v (rfl | hv | ⟨a, b, ha, hb, rfl⟩)
  · exact h.int 0 ⟨by omega, by omega⟩
  · exact h.int v (hnear v hv).1
  · have ha := (hnear a ha).2
    have hb := (hnear b hb).2
    exact h.int _ ⟨by omega, by omega⟩

theorem Room.push (h : Room k r (n + 1)) (hk : k'.int = k.int) :
    Room k' ((t, r.favoritePrio) :: r) n := by
  refine ⟨hk ▸ h.int, ?_, ?_⟩
  · intro e he
    cases he
    exact h.fits
  · have htop := h.top
    simp only [Pqueue.favoritePrio] at htop ⊢
    omega

theorem moveNew_turn (fuel : Nat)
    (hn : Pq.Represents k nq (l ++ [(t, p)])) (hr : Pq.Represents k rq r)
    (hd : ∀ u ∈ Pqueue.members (l ++ [(t, p)]), u ∉ r.members) (hroom : Room k r (n + 1)) :
    ∃ k' nq' rq', moveNew true fuel (n + 1) k nq rq = moveNew true fuel n k' nq' rq' ∧
      Pq.Represents k' nq' l ∧ Pq.Represents k' rq' ((t, r.favoritePrio) :: r) ∧
      k'.int = k.int := by
  have htail : Pq.tail k nq = some t := by
    rw [Pq.tail_eq hn, members_concat, List.getLast?_concat]
  have ht : t ∈ Pqueue.members (l ++ [(t, p)]) := by simp
  have htl : t ∉ l.members := by
    have hnodup := hn.nodup
    rw [members_concat] at hnodup
    exact Intrusive.notMem_of_nodup_snoc hnodup
  -- out of the new queue
  have hdel := Pq.performs_deleteTail hn hroom.exact
  have hint : (Pq.delete k nq t).1.int = k.int := hdel.frame.int
  have hr₁ : Pq.Represents (Pq.delete k nq t).1 rq r := hr.frame hdel.frame fun u hu hm => hd u hm hu
  have hfav : Pq.favoritePrio (Pq.delete k nq t).1 rq = r.favoritePrio := by
    rw [Pq.favoritePrio, Pq.favoriteSum_eq hr₁, hint]
    exact hroom.int _ hroom.fits
  -- on top of the ready queue
  have hr₂ : Pq.Represents ((Pq.delete k nq t).1.compute r.favoritePrio) rq r := hr₁.computed _
  have hexact : Pq.Exact (Pq.delete k nq t).1 (Pq.Top r) := hroom.exact.frame hdel.frame
  obtain ⟨res, hins, hp⟩ := Pq.performs_insertTop fuel hr₂ (hd t ht) hexact
  refine ⟨res.1, (Pq.delete k nq t).2, res.2, ?_, ?_, hp.represents, hp.frame.int.trans hint⟩
  · rw [moveNew, htail]
    simp only [if_true, hfav, Pq.favoriteSum_eq hr₁, hins]
  · refine (hdel.represents.computed _).frame hp.frame fun u hu hm => ?_
    rcases List.mem_cons.mp hm with rfl | hm
    · exact htl hu
    · exact hd u (by simp [hu]) hm

end

def newcomers : State :=
  { boot none asyncAttr with
    queue := fun
      | .nq => [(1, 3), (2, 0)]
      | .rq => [(3, 1)]
      | _ => [] }

end GnuPth.Sched
