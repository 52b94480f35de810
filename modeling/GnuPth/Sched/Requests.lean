import GnuPth.Sched.System

/-!
# Failed requests

`pth_cancel`, `pth_abort`, `pth_suspend` and `pth_resume` on a thread of the
caller's scheduler. The first two write to the control block before they know
that they can find the thread: `pth_cancel_local` looks only into the queue that
the state of the target names, and a suspended thread keeps the state it had.
-/

namespace GnuPth.Sched

open Transition

inductive Request
  | cancel
  | abort
  | suspend
  | resume
  deriving DecidableEq, Repr

def Request.perform (s : State) (cur t : Tid) : Request → State × Option Errno
  | .cancel => pthCancel s cur t
  | .abort => pthAbort s cur t
  | .suspend => pthSuspend s cur t
  | .resume => pthResume s cur t

def InPlace (s : State) (t : Tid) : Prop :=
  ∃ q, Qname.ofState (s.tcb t).state = some q ∧ s.contains q t = true

/-- The targets for which a request is either carried out or refused before
anything is written: for `pth_cancel` a live thread that can be cancelled
asynchronously is in place, for `pth_abort` the target is in place, or dead and
not detached. -/
def Request.Clean (s : State) (t : Tid) : Request → Prop
  | .cancel => threadExists s t = true → (s.tcb t).state ≠ .dead →
      (s.tcb t).cancelEnable = true → (s.tcb t).cancelAsync = true → InPlace s t
  | .abort => InPlace s t ∨ (s.tcb t).state = .dead ∧ (s.tcb t).joinable = true
  | .suspend | .resume => True

variable {s : State}

theorem InPlace.not_dead (h : InPlace s t) : (s.tcb t).state ≠ .dead := by
  obtain ⟨q, hq, -⟩ := h
  intro hd
  rw [hd] at hq
  cases hq

theorem InPlace.exists (h : InPlace s t) : threadExists s t = true := by
  obtain ⟨q, hq, hc⟩ := h
  cases q <;> simp_all [threadExists]

theorem InPlace.forceCancel (h : InPlace s t) : InPlace (forceCancel s t) t := by
  obtain ⟨q, hq, hc⟩ := h
  exact ⟨q, by simpa [Sched.forceCancel, State.setTcb] using hq, hc⟩

theorem suspendLocal_failed : (suspendLocal s t).2 ≠ none → (suspendLocal s t).1 = s := by
  fun_cases suspendLocal s t with
  | case1 | case2 | case3 => exact fun _ => rfl
  | case4 => exact fun h => absurd rfl h

theorem pthSuspend_failed : (pthSuspend s cur t).2 ≠ none → (pthSuspend s cur t).1 = s := by
  fun_cases pthSuspend s cur t with
  | case1 => exact fun _ => rfl
  | case2 => exact suspendLocal_failed

theorem resumeLocal_failed : (resumeLocal s t).2 ≠ none → (resumeLocal s t).1 = s := by
  fun_cases resumeLocal s t with
  | case1 => exact fun _ => rfl
  | case2 | case3 => exact fun h => absurd rfl h

theorem pthResume_failed : (pthResume s cur t).2 ≠ none → (pthResume s cur t).1 = s := by
  fun_cases pthResume s cur t with
  | case1 => exact fun _ => rfl
  | case2 => exact resumeLocal_failed

theorem cancelLocal_inPlace (h : InPlace s t) : (cancelLocal s t).2 = none := by
  obtain ⟨q, hq, hc⟩ := h
  fun_cases cancelLocal s t with
  | case1 hex => exact absurd (InPlace.exists ⟨q, hq, hc⟩) hex
  | case2 _ hd => exact absurd hd (InPlace.not_dead ⟨q, hq, hc⟩)
  | case3 _ _ s₁ _ hn => simp [s₁, State.setTcb, hq] at hn
  | case4 _ _ s₁ _ q' hq' hc' =>
    simp only [s₁, State.setTcb, Function.update_self, hq, Option.some.injEq] at hq'
    subst hq'
    exact absurd hc hc'
  | case5 | case6 => rfl

theorem cancelLocal_failed (hc : Request.Clean s t .cancel) (hf : (cancelLocal s t).2 ≠ none) :
    (cancelLocal s t).1 = s := by
  have hout : ¬InPlace s t := fun h => hf (cancelLocal_inPlace h)
  revert hf
  fun_cases cancelLocal s t with
  | case1 | case2 => exact fun _ => rfl
  | case3 hex hd s₁ ha | case4 hex hd s₁ ha =>
    -- the target was marked before it was missed
    have ha : (s.tcb t).cancelEnable = true ∧ (s.tcb t).cancelAsync = true := by
      simpa [s₁, State.setTcb] using ha
    exact absurd (hc (not_not.mp hex) hd ha.1 ha.2) hout
  | case5 | case6 => exact fun h => absurd rfl h

theorem pthCancel_failed (hc : Request.Clean s t .cancel) :
    (pthCancel s cur t).2 ≠ none → (pthCancel s cur t).1 = s := by
  fun_cases pthCancel s cur t with
  | case1 | case2 => exact fun _ => rfl
  | case3 => exact cancelLocal_failed hc

theorem pthCancel_forced (h : InPlace s t) (ht : t ≠ cur) :
    (pthCancel (forceCancel s t) cur t).2 = none := by
  unfold pthCancel
  rw [if_neg ht, if_neg h.forceCancel.not_dead]
  exact cancelLocal_inPlace h.forceCancel

theorem joinEnd_dead (hd : (s.tcb t).state = .dead) : (joinEnd s (some t)).2 = none := by
  simp [joinEnd, joinTarget, hd]

theorem pthAbort_failed (hc : Request.Clean s t .abort) :
    (pthAbort s cur t).2 ≠ none → (pthAbort s cur t).1 = s := by
  fun_cases pthAbort s cur t with
  | case1 | case2 => exact fun _ => rfl
  | case3 _ hd => exact fun h => absurd (joinEnd_dead hd.1) h
  | case4 ht hd =>
    rcases hc with hc | hc
    · exact fun h => absurd (pthCancel_forced hc ht) h
    · exact absurd hc hd

end GnuPth.Sched
