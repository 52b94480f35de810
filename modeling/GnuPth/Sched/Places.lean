import GnuPth.Sched.Rules

/-!
# Where the threads are

Every thread of a scheduler has one place: a queue, the processor, the way back
from it, the stack of cancellations under way, or a spawn message that is still
to be drained. The operations of the scheduler take a thread out of one place,
work on it and put it into another one; `Placed` carries the thread in hand
between the two, and says for every place what the control blocks in it are
like.

`Placed` does not ask for every thread to have a place unless `full` holds: a
cleanup handler that ends its thread loses the thread on whose stack it runs.
-/

namespace GnuPth.Sched

open Function (update)
open Inbox (Gmsg)
open Placement
open Transition

inductive Spot
  | queue (n : Qname)
  | run
  | back
  | cleaning
  | flight
  deriving DecidableEq

def Ctl.running : Ctl → List Tid
  | .run t => [t]
  | _ => []

def Ctl.returning : Ctl → List Tid
  | .back t => [t]
  | _ => []

def Ctl.batch : Ctl → List Gmsg
  | .em (.drain _ _ _ batch) | .em (.redrain _ _ _ batch) => batch
  | _ => []

/-- The thread that a message hands over to the scheduler. -/
def spawnOf (m : Gmsg) : Option Tid :=
  if m.kind = .spawn then m.thread else none

def spots (s : State) : Spot → List Tid
  | .queue n => s.members n
  | .run => s.ctl.running
  | .back => s.ctl.returning
  | .cleaning => s.cleaning
  | .flight => (s.ctl.batch ++ s.inbox).filterMap spawnOf

def Qname.Admits : Qname → ThreadState → Prop
  | .nq, st => st = .new
  | .rq, st => st = .ready
  | .wq, st => st = .waiting
  | .sq, st => st ≠ .dead
  | .dq, st => st = .dead

def Spot.AdmitsState : Spot → ThreadState → Prop
  | .queue n, st => n.Admits st
  | .run, st => st = .ready
  | .back, st => st ≠ .new
  | .cleaning, st => st ≠ .dead
  | .flight, st => st = .new

structure Spot.Admits (c : Spot) (b : Tcb) : Prop where
  alive : b.alive = true
  adopted : b.adopted = true ↔ c ≠ .flight
  state : c.AdmitsState b.state

structure Placed (full : Prop) (hand : Option Tid) (s : State) : Prop where
  linear : Linear (spots s)
  inHand : ∀ t, hand = some t → ∀ c, t ∉ spots s c
  admits : ∀ c, ∀ t ∈ spots s c, c.Admits (s.tcb t)
  complete : full → ∀ t, (s.tcb t).alive = true → hand = some t ∨ ∃ c, t ∈ spots s c

/-! ### Rules -/

variable {c : Spot}

structure SamePlace (b b' : Tcb) : Prop where
  alive : b'.alive = b.alive
  adopted : b'.adopted = b.adopted
  state : b'.state = b.state

theorem SamePlace.refl (b : Tcb) : SamePlace b b := ⟨rfl, rfl, rfl⟩

theorem Spot.Admits.congr (h : c.Admits b) (hb : SamePlace b b') : c.Admits b' :=
  ⟨hb.alive.trans h.alive, by rw [hb.adopted]; exact h.adopted, by rw [hb.state]; exact h.state⟩

theorem Placed.congr (h : Placed full hand s) (hs : spots s' = spots s)
    (hb : ∀ u, SamePlace (s.tcb u) (s'.tcb u)) : Placed full hand s' where
  linear := hs ▸ h.linear
  inHand t ht c := by rw [hs]; exact h.inHand t ht c
  admits c t ht := by rw [hs] at ht; exact (h.admits c t ht).congr (hb t)
  complete hf t ht := by
    rw [(hb t).alive] at ht
    rw [hs]
    exact h.complete hf t ht

variable {xs : List Tid}

theorem Placed.perm (h : Placed full hand s) (hs : spots s' = update (spots s) c xs)
    (hx : xs.Perm (spots s c)) (hb : s'.tcb = s.tcb) : Placed full hand s' := by
  have hmem : ∀ d u, u ∈ spots s' d ↔ u ∈ spots s d := by
    intro d u
    rw [hs]
    by_cases hd : d = c
    · subst hd; simpa using hx.mem_iff
    · simp [hd]
  refine ⟨?_, fun t ht d hd => h.inHand t ht d ((hmem d t).mp hd), fun d u hu => ?_, fun hf u hu => ?_⟩
  · rw [hs]
    exact h.linear.update_list (hx.nodup_iff.mpr (h.linear.nodup c)) fun x hxm => .inl (hx.subset hxm)
  · rw [hb]; exact h.admits d u ((hmem d u).mp hu)
  · rw [hb] at hu
    exact (h.complete hf u hu).imp_right fun ⟨d, hd⟩ => ⟨d, (hmem d u).mpr hd⟩

theorem Placed.take (h : Placed full none s) (hs : spots s' = update (spots s) c xs)
    (hx : (t :: xs).Perm (spots s c)) (hb : s'.tcb = s.tcb) : Placed full (some t) s' := by
  have ht : t ∈ spots s c := hx.subset (List.mem_cons_self ..)
  have hn : (t :: xs).Nodup := hx.nodup_iff.mpr (h.linear.nodup c)
  have hsub : ∀ d, ∀ u ∈ spots s' d, u ∈ spots s d := by
    intro d u hu
    rw [hs] at hu
    by_cases hd : d = c
    · subst hd
      exact hx.subset (List.mem_cons_of_mem _ (by simpa using hu))
    · simpa [hd] using hu
  refine ⟨?_, ?_, fun d u hu => hb ▸ h.admits d u (hsub d u hu), fun hf u hu => ?_⟩
  · rw [hs]
    exact h.linear.update_list (List.nodup_cons.mp hn).2 fun x hxm =>
      .inl (hx.subset (List.mem_cons_of_mem _ hxm))
  · rintro u ⟨⟩ d
    rw [hs]
    exact h.linear.free_of_dropped ht (List.nodup_cons.mp hn).1 d
  · rw [hb] at hu
    by_cases hut : u = t
    · exact .inl (hut ▸ rfl)
    · obtain hnone | ⟨d, hd⟩ := h.complete hf u hu
      · cases hnone
      · refine .inr ⟨d, ?_⟩
        rw [hs]
        by_cases hdc : d = c
        · subst hdc
          exact by simpa [hut] using hx.symm.subset hd
        · simpa [hdc] using hd

theorem Placed.put (h : Placed full (some t) s) (hs : spots s' = update (spots s) c xs)
    (hx : xs.Perm (t :: spots s c)) (hb : s'.tcb = s.tcb) (ha : c.Admits (s.tcb t)) :
    Placed full none s' := by
  have hfree : ∀ d, t ∉ spots s d := h.inHand t rfl
  refine ⟨?_, by simp, fun d u hu => ?_, fun hf u hu => ?_⟩
  · rw [hs]
    refine h.linear.update_list ?_ fun x hxm => ?_
    · exact hx.nodup_iff.mpr (List.nodup_cons.mpr ⟨hfree c, h.linear.nodup c⟩)
    · rcases List.mem_cons.mp (hx.subset hxm) with rfl | hxm
      · exact .inr hfree
      · exact .inl hxm
  · rw [hb]
    rw [hs] at hu
    by_cases hd : d = c
    · subst hd
      rcases List.mem_cons.mp (hx.subset (by simpa using hu)) with rfl | hu
      · exact ha
      · exact h.admits d u hu
    · exact h.admits d u (by simpa [hd] using hu)
  · rw [hb] at hu
    refine .inr ?_
    obtain ⟨⟨⟩⟩ | ⟨d, hd⟩ := h.complete hf u hu
    · exact ⟨c, by rw [hs]; simpa using hx.symm.subset (List.mem_cons_self ..)⟩
    · refine ⟨d, ?_⟩
      rw [hs]
      by_cases hdc : d = c
      · subst hdc
        simpa using hx.symm.subset (List.mem_cons_of_mem _ hd)
      · simpa [hdc] using hd

theorem Placed.setHand (h : Placed full (some t) s) (hs : spots s' = spots s)
    (hb : ∀ u, u ≠ t → s'.tcb u = s.tcb u) : Placed full (some t) s' := by
  have hfree : ∀ d, t ∉ spots s d := h.inHand t rfl
  refine ⟨hs ▸ h.linear, by rw [hs]; exact h.inHand, fun d u hu => ?_, fun hf u hu => ?_⟩
  · rw [hs] at hu
    rw [hb u fun he => hfree d (he ▸ hu)]
    exact h.admits d u hu
  · rw [hs]
    by_cases hut : u = t
    · exact .inl (hut ▸ rfl)
    · exact h.complete hf u (hb u hut ▸ hu)

theorem Placed.drop (h : Placed full (some t) s) (ht : (s.tcb t).alive = false) :
    Placed full none s where
  linear := h.linear
  inHand := by simp
  admits := h.admits
  complete hf u hu := by
    obtain ⟨⟨⟩⟩ | hd := h.complete hf u hu
    · simp [hu] at ht
    · exact .inr hd

theorem Placed.pick (h : Placed full none s) (ht : ∀ c, t ∉ spots s c) : Placed full
    (some t) s where
  linear := h.linear
  inHand := by rintro u ⟨⟩; exact ht
  admits := h.admits
  complete hf u hu := by
    obtain hn | hd := h.complete hf u hu
    · cases hn
    · exact .inr hd

theorem Placed.notMem_of_freed (h : Placed full hand s) (ht : (s.tcb t).alive = false) (c : Spot) :
    t ∉ spots s c := by
  intro hc
  simp [(h.admits c t hc).alive] at ht

theorem Placed.mono (h : Placed full hand s) (hf : full' → full) : Placed full' hand s :=
  ⟨h.linear, h.inHand, h.admits, fun hf' => h.complete (hf hf')⟩

/-! ### The places after an update -/

theorem spots_queue :
    spots { s with queue := update s.queue n q } = update (spots s) (.queue n) q.members := by
  funext c
  cases c with
  | queue m =>
    by_cases hm : m = n
    · subst hm; simp [spots, State.members]
    · simp [spots, State.members, hm]
  | _ => simp [spots]

theorem spots_cleaning :
    spots { s with cleaning := xs } = update (spots s) .cleaning xs := by
  funext c
  cases c <;> simp [spots, State.members]

theorem spots_ctl (hr : k.running = s.ctl.running) (hb : k.returning = s.ctl.returning)
    (hm : k.batch = s.ctl.batch) : spots { s with ctl := k } = spots s := by
  funext c
  cases c <;> simp [spots, State.members, hr, hb, hm]

/-! ### Queues -/

theorem Placed.dequeue (h : Placed full none s) (ht : t ∈ s.members n) :
    Placed full (some t) (s.dequeue n t) := by
  refine h.take spots_queue ?_ rfl
  rw [Pqueue.members_delete]
  exact (List.perm_cons_erase ht).symm

theorem Placed.enqueue (h : Placed full (some t) s) (ha : (Spot.queue n).Admits (s.tcb t)) :
    Placed full none (s.enqueue n prio t) :=
  h.put spots_queue Pqueue.insert_perm rfl ha

theorem Placed.favorite (h : Placed full hand s) (ht : t ∈ s.members n) :
    Placed full hand (favorite s n t) :=
  h.perm spots_queue (Pqueue.favorite_perm ht) rfl

theorem Placed.setTcb_hand (h : Placed full (some t) s) :
    Placed full (some t) (s.setTcb t f) :=
  h.setHand rfl fun u hu => by simp [State.setTcb, hu]

theorem Placed.setTcb (h : Placed full hand s) (hf : SamePlace (s.tcb t) (f (s.tcb t))) :
    Placed full hand (s.setTcb t f) := by
  refine h.congr rfl fun u => ?_
  by_cases hu : u = t
  · subst hu; simpa [State.setTcb] using hf
  · simpa [State.setTcb, hu] using SamePlace.refl _

theorem Placed.tcbFree (h : Placed full (some t) s) : Placed full none (tcbFree s t) :=
  h.setTcb_hand.drop (by simp [State.setTcb])

end GnuPth.Sched
