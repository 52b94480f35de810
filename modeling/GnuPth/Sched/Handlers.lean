import GnuPth.Sched.Works

/-!
# Where cleanup handlers run

The handlers of an asynchronous cancellation run on the stack of whoever
carries it out: the running thread, or the event manager while it processes the
messages of a drain. Calls of the library come from these places only.
-/

namespace GnuPth.Sched

open Transition

variable {s : State}

def Ctl.hosts : Ctl → Bool
  | .run _ | .em (.redrain ..) => true
  | .em (.drain _ _ any _) => any
  | _ => false

def Hosted (s : State) : Prop := s.cleaning = [] ∨ s.ctl.hosts = true

theorem Returns.control (h : Returns s cur o s') : SameControl s s' := by
  cases h with
  | touch _ _ h | resume _ h => exact h.control
  | _ => rfl

theorem Hosted.of_current (h : Hosted s) (hc : s.current = some cur) : s.ctl.hosts = true := by
  rcases h with hcl | hh
  · cases hctl : s.ctl with
    | run t => rfl
    | _ => simp [State.current, hcl, hctl] at hc
  · exact hh

theorem Hosted.of_cleaning (h : Hosted s) (hc : s.cleaning = t :: rest) :
    s.ctl.hosts = true :=
  h.resolve_left (by simp [hc])

theorem Hosted.step (h : Hosted s) (hs : exec cfg s a = some s') : Hosted s' := by
  obtain ⟨o, rfl, hcall⟩ | ⟨hop, hstep⟩ := exec_call hs
  · cases hcall with
    | returns hc _ hret =>
      refine .inr ?_
      rw [hret.control.ctl]
      exact h.of_current hc
    | works _ _ hw => exact .inl hw.cleaning
    | yield hr _ _ hcl => exact .inl (hcl.trans hr.cleaning)
    | joined _ _ hcl => exact .inl hcl
    | exited => exact .inl rfl
  cases hstep with
  | cleaned hc =>
    refine .inr ?_
    rw [SameControl.cancelDone.ctl]
    exact h.of_cleaning hc
  | post | spawnOn | tick => exact h
  | sched hcl =>
    refine .inl (Eq.trans ?_ hcl)
    unfold schedule
    dsimp only
    repeat' split
    all_goals exact (SameOutside.promoteNew _).cleaning
  | back hcl =>
    refine .inl (Eq.trans ?_ hcl)
    unfold comeBack
    dsimp only
    repeat' split
    all_goals exact SameOutside.putBack.cleaning
  | msg | remsg => exact .inr (congrArg Ctl.hosts drainMsg_ctl)
  | scan hcl => exact .inl (SameThreads.scanQueue.cleaning.trans hcl)
  | finish hcl =>
    exact .inl (SameOutside.cleanupLoop.cleaning.trans (SameThreads.timerBranch.cleaning.trans hcl))
  | take hcl | retake hcl | drained hcl | redrained hcl | woken hcl => exact .inl hcl
  | _ => exact absurd rfl (hop _)

theorem Hosted.returning (h : Hosted s) (hc : s.cleaning ≠ []) : s.ctl.returning = [] := by
  have hh := h.resolve_left hc
  cases hctl : s.ctl with
  | back t => simp [hctl, Ctl.hosts] at hh
  | _ => rfl

theorem hosted_of_reachable (h : Reachable (system cfg) s) : Hosted s := by
  refine h.invariant (I := Hosted) ?_ ?_
  · intro s hi
    exact .inl (Initial.cleaning hi)
  · intro s a s' hI hs
    exact hI.step hs

end GnuPth.Sched
