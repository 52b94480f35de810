import GnuPth.Sync.Rules

/-!
# What a step leaves alone

A step changes the control block of at most one thread, its actor; only the
drain of an inbox writes to others, and then only their event status.
-/

namespace GnuPth

open Function (update)

variable {a : Act}

/-! ### Frames -/

def Act.actor : Act → Option Tid
  | .dispatch t | .yield t | .acquire t .. | .release t .. | .setfair t .. | .await t ..
  | .notify t .. | .rwlockAcquire t .. | .rwlockRelease t .. | .join t .. | .cancelState t ..
  | .cancelPoint t | .exit t _ | .step t | .resume t | .fire t | .cancel t | .abort t
  | .setJoinable t _ => some t
  | .drain _ => none

theorem Act.entry_actor (h : a.entry = some (t, pc)) : a.actor = some t := by
  cases a <;> simp_all [Act.entry, Act.actor]

theorem Step.tcb_of_ne (h : Step home ops s a s') (ht : a.actor = some t) (hu : u ≠ t) :
    s'.tcb u = s.tcb u := by
  cases h with
  | drain => cases ht
  | call hr hpc he =>
    obtain rfl := Option.some.inj (ht.symm.trans (Act.entry_actor he))
    simp [hu]
  | _ =>
    cases ht
    simp [hu]

theorem Step.drainsTo (h : Step home ops s a s') (hu : a.actor ≠ some u) :
    (s.tcb u).DrainsTo (s'.tcb u) := by
  cases ha : a.actor with
  | some t =>
    rw [h.tcb_of_ne ha (by rintro rfl; exact hu ha)]
    exact .refl _
  | none =>
    cases h with
    | drain => exact (s.tcb u).drainsTo_drained _ u
    | call hr hpc he => rw [Act.entry_actor he] at ha; cases ha
    | _ => cases ha

theorem Step.pc_of_ne (h : Step home ops s a s') (hu : a.actor ≠ some u) :
    (s'.tcb u).pc = (s.tcb u).pc := (h.drainsTo hu).pc

end GnuPth
