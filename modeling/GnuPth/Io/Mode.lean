import GnuPth.Io.Os

/-!
# Restoring the blocking mode

The functions that may have to write more than once, or to wait in the middle,
switch their descriptor to non-blocking mode and back. The mode is restored on
the way through the end of the function and where an extra event interrupts a
wait, and on no other way out.
-/

namespace GnuPth

namespace Io

open Program

inductive ModeCall
  | write (buf : Bytes)
  | writev (iov : List Bytes)
  | sendto (buf : Bytes)
  | connect
  | accept

def ModeCall.code (b : Build) (fd : Fd) (extra : Option Ev) : ModeCall → Code Unit
  | .write buf => do let _ ← pthWriteEv b fd buf extra
  | .writev iov => do let _ ← pthWritevEv b fd iov extra
  | .sendto buf => do let _ ← pthSendtoEv b fd buf extra
  | .connect => do let _ ← pthConnectEv b fd extra
  | .accept => do let _ ← pthAcceptEv b fd extra

/-- The answers that do not lead to a way out past the restore: no cancellation
in a wait; no `EINVAL` or `EBADF` from the poll, which only some of the functions
return; memory for the vector or for the event. -/
def ModeCall.Benign : ModeCall → (e : Request) → Answer e → Prop
  | .connect, _, _ => True
  | .write _, .poll .., r => r ≠ .error .EINVAL ∧ r ≠ .error .EBADF
  | .sendto _, .poll .., r => r ≠ .error .EINVAL ∧ r ≠ .error .EBADF
  | .writev _, .malloc, r => r = true
  | .accept, .static _, r => ∀ e, r ≠ .error e
  | _, .wait _, r => r ≠ .cancelled
  | _, _, _ => True

/-! ### What leaves the mode alone -/

def Os.Mode (fd : Fd) (m : Bool) (s : Os) : Prop := s.nonblock fd = some m

def Quiet (fd : Fd) (e : Request) : Prop := ∀ nonblock, e ≠ .setfl fd nonblock

section
variable {s : Os}

theorem Os.answer_mode (h : s.answer e r s') (he : Quiet fd e)
    (hs : s.Mode fd m) : s'.Mode fd m := by
  cases e with
  | getfl | status => exact h.2 ▸ hs
  | setfl fd' nonblock =>
    obtain rfl : s' = s.setfl fd' nonblock := h
    have hne : fd ≠ fd' := by
      rintro rfl
      exact he nonblock rfl
    simpa [Os.Mode, Os.setfl, hne] using hs
  | accept =>
    cases r with
    | error => exact (h : s' = s) ▸ hs
    | ok fd' =>
      obtain ⟨hnew, m', rfl⟩ := h
      have hne : fd ≠ fd' := by
        rintro rfl
        cases hs.symm.trans hnew
      simpa [Os.Mode, hne] using hs
  | static =>
    cases r with
    | error => exact (h : s' = s) ▸ hs
    | ok => exact (h : s' = _) ▸ hs
  | concat | isolate => exact (h : s' = _) ▸ hs
  | wait =>
    obtain ⟨status, rfl⟩ := h
    exact hs
  | _ => exact (h : s' = s) ▸ hs

theorem Os.setfl_mode (hs : s.Mode fd m) : (s.setfl fd m').Mode fd m' := by
  simp only [Os.Mode] at hs
  simp [Os.Mode, Os.setfl, hs]

theorem only_concat : (pthEventConcat ev extra).Only (Quiet fd) H := by
  cases ev with
  | none => exact only_pure
  | some => cases extra <;> exact only_perform nofun

theorem only_isolate : (pthEventIsolate ev).Only (Quiet fd) H := by
  cases ev with
  | none => exact only_pure
  | some => exact only_perform nofun

end

/-! ### The mode in a call -/

def modeRule (P : (e : Request) → Answer e → Prop) : Rule Request Answer Os :=
  alone (Os.answerIf fun _ => P) fun _ _ => True

section
variable {P : (e : Request) → Answer e → Prop} {α : Type}

theorem wp_quiet {p : Code α}
    (h : p.Only (Quiet fd) H) (hs : s.Mode fd m) (hok : ∀ a s, Os.Mode fd m s → Q (.ok a) s)
    (herror : ∀ e s, H e → Os.Mode fd m s → Q (.error e) s) : p.wp (modeRule P) s Q :=
  h.wp
    (fun _ _ he hs => ⟨trivial, fun _ _ ha => Os.answer_mode ha.2 he hs⟩) hs hok herror

theorem wp_calm {p : Code α}
    (h : p.Only (Quiet fd) fun _ => False) (hs : s.Mode fd m)
    (hok : ∀ a s, Os.Mode fd m s → Q (.ok a) s) : p.wp (modeRule P) s Q :=
  wp_quiet h hs hok fun _ _ h => h.elim

theorem wp_getfl (h : Q (.ok (s.nonblock fd)) s) :
    (getfl fd).wp (modeRule P) s Q := by
  refine ⟨trivial, ?_⟩
  rintro r _ ⟨-, rfl, rfl⟩
  exact h

theorem wp_setfl (h : Q (.ok ()) (s.setfl fd m)) :
    (setfl fd m).wp (modeRule P) s Q := by
  refine ⟨trivial, ?_⟩
  rintro r _ ⟨-, rfl⟩
  exact h

variable {Q : Except Stop Bool → Os → Prop}

theorem wp_fdValid (hs : s.Mode fd m)
    (hQ : Q (.ok (b.holds fd)) s) : (pthUtilFdValid b fd).wp (modeRule P) s Q := by
  unfold pthUtilFdValid
  cases hb : b.holds fd with
  | false => rwa [hb] at hQ
  | true =>
    rw [hb] at hQ
    refine wp_seq <| wp_getfl ?_
    rw [show s.nonblock fd = some m from hs]
    exact hQ

theorem wp_fdmode_nonblock {Q : Except Stop FdMode → Os → Prop} (hs : s.Mode fd false)
    (hQ : ∀ s, Os.Mode fd true s → Q (.ok .block) s) :
    (pthFdmode fd .nonblock).wp (modeRule P) s Q := by
  rw [pthFdmode, wp_bind]
  refine wp_getfl ?_
  rw [show s.nonblock fd = some false from hs]
  simp only [andThen_ok, if_pos, wp_bind]
  exact wp_setfl (hQ _ (Os.setfl_mode hs))

theorem wp_fdmode_block {Q : Except Stop FdMode → Os → Prop} (hs : s.Mode fd m)
    (hQ : ∀ v s, Os.Mode fd false s → Q (.ok v) s) :
    (pthFdmode fd .block).wp (modeRule P) s Q := by
  rw [pthFdmode, wp_bind]
  refine wp_getfl ?_
  rw [show s.nonblock fd = some m from hs]
  cases m with
  | false => exact hQ _ _ hs
  | true =>
    simp only [andThen_ok, if_pos, wp_bind]
    exact wp_setfl (hQ _ _ (Os.setfl_mode hs))

theorem wp_wait (hP : ∀ ev r, P (.wait ev) r → r ≠ .cancelled) (hs : s.Mode fd m)
    {Q : Except Stop Unit → Os → Prop} (hQ : ∀ s, Os.Mode fd m s → Q (.ok ()) s) :
    (pthWait ev).wp (modeRule P) s Q := by
  cases ev with
  | none => exact hQ s hs
  | some ev =>
    refine ⟨trivial, fun r s' hr => ?_⟩
    have hs' := Os.answer_mode hr.2 nofun hs
    cases r with
    | returned => exact hQ s' hs'
    | cancelled => exact absurd rfl (hP ev _ hr.1)

theorem wp_waitWith (hP : ∀ ev r, P (.wait ev) r → r ≠ .cancelled) (hs : s.Mode fd m)
    (hQ : ∀ v s, Os.Mode fd m s → Q (.ok v) s) :
    (waitWith ev extra).wp (modeRule P) s Q := by
  cases extra with
  | none =>
    simp only [waitWith, Option.isSome_none, Bool.false_eq_true, if_false, wp_bind]
    exact wp_wait hP hs fun s hs => hQ _ s hs
  | some =>
    simp only [waitWith, Option.isSome_some, if_true, wp_bind]
    refine wp_calm only_concat hs fun _ s hs => ?_
    refine wp_seq <| wp_wait hP hs fun s hs => ?_
    refine wp_seq <| wp_calm only_isolate hs fun _ s hs => ?_
    exact wp_seq <| wp_calm (only_status fun _ => nofun) hs fun _ s hs => hQ _ s hs

theorem wp_waitFd (hP : ∀ ev r, P (.wait ev) r → r ≠ .cancelled) (hs : s.Mode fd m)
    (hQ : ∀ v s, Os.Mode fd m s → Q (.ok v) s) :
    (waitFd b site fd' goal extra).wp (modeRule P) s Q := by
  rw [waitFd, wp_bind]
  refine wp_calm (only_eventFd nofun nofun fun _ _ => nofun) hs fun ev s hs => ?_
  exact wp_waitWith hP hs hQ

/-! ### The write family -/

/-- The call is left in blocking mode, by a return or a cancellation. -/
def Restored (fd : Fd) : Except Stop α → Os → Prop
  | .error .fuel, _ => True
  | _, s => s.Mode fd false

/-- Where the loop is left to: the restore follows, or has been made. -/
def LoopRestored (fd : Fd) : Except Stop (LoopExit α) → Os → Prop
  | .ok (.done _), s => s.Mode fd true
  | .ok (.left _), s => s.Mode fd false
  | .error e, _ => e = .fuel

theorem wp_retry_quiet {Q : Except Stop (Res α) → Os → Prop}
    (hcall : call.Only (Quiet fd) fun _ => False) (hs : s.Mode fd m)
    (hok : ∀ r s, Os.Mode fd m s → Q (.ok r) s) (hfuel : ∀ s, Q (.error .fuel) s) :
    (retry b call).wp (modeRule P) s Q := by
  refine wp_retry (Os.Mode fd m) hs (fun s hs => ?_) fun s _ => hfuel s
  refine wp_calm hcall hs fun r s hs => ?_
  match r with
  | .ok a => exact hok _ s hs
  | .error e =>
    cases e with
    | EINTR => exact hs
    | _ => exact hok _ s hs

theorem wp_writeCall {k : WriteKind δ}
    (hcall : ∀ rest, (k.call rest).Only (Quiet fd) fun _ => False) (hs : s.Mode fd true) :
    (writeCall b k w).wp (modeRule P) s
      (Post.turn (fun _ => Os.Mode fd true) (LoopRestored fd)) := by
  rw [writeCall, wp_bind]
  refine wp_retry_quiet (hcall w.rest) hs (fun r s hs => ?_) fun _ => rfl
  rw [andThen_ok]
  cases r with
  | error => exact hs
  | ok => dsimp only; split <;> exact hs

theorem wp_writeTurn {k : WriteKind δ}
    (hP : ∀ ev r, P (.wait ev) r → r ≠ .cancelled)
    (hcall : ∀ rest, (k.call rest).Only (Quiet fd) fun _ => False) (hs : s.Mode fd true) :
    (writeTurn b k fd .block extra w).wp (modeRule P) s
      (Post.turn (fun _ => Os.Mode fd true) (LoopRestored fd)) := by
  unfold writeTurn
  split
  · refine wp_seq <| wp_waitFd hP hs fun v s hs => ?_
    cases v with
    | true => exact wp_writeCall hcall hs
    | false =>
      exact wp_seq <| wp_fdmode_block hs fun _ _ hs => hs
  · exact wp_writeCall hcall hs

theorem wp_writeLoop {k : WriteKind δ}
    (hP : ∀ ev r, P (.wait ev) r → r ≠ .cancelled)
    (hcall : ∀ rest, (k.call rest).Only (Quiet fd) fun _ => False) (hs : s.Mode fd true) :
    (writeLoop b k fd .block extra w).wp (modeRule P) s (Restored fd) := by
  rw [writeLoop, wp_bind]
  refine wp_iterate (fun _ => Os.Mode fd true) hs (fun w s hs => ?_) fun _ _ _ => trivial
  refine (wp_writeTurn hP hcall hs).mono fun r s hr => ?_
  match r with
  | .ok (.inl _) => exact hr
  | .error .fuel => trivial
  | .ok (.inr (.left _)) => exact hr
  | .ok (.inr (.done _)) =>
    exact wp_seq <| wp_fdmode_block hr fun _ _ hs => hs

/-- The switch to non-blocking mode at the beginning, for a descriptor that is in
blocking mode and accepted as valid. -/
theorem wp_enter {f : FdMode → Code (Res α)} (hs : s.Mode fd false)
    (hf : ∀ s, b.holds fd = true → Os.Mode fd true s →
      (f .block).wp (modeRule P) s (Restored fd)) :
    (do
      if !(← pthUtilFdValid b fd) then return Res.error Errno.EBADF
      let fdmode ← pthFdmode fd .nonblock
      if fdmode = .error then return Res.error Errno.EBADF
      f fdmode : Code (Res α)).wp (modeRule P) s (Restored fd) := by
  refine wp_seq <| wp_fdValid hs ?_
  cases hvalid : b.holds fd with
  | false => exact hs
  | true =>
    exact wp_seq <| wp_fdmode_nonblock hs fun s hs => hf s hvalid hs

theorem wp_poll {Q : Except Stop (Res Nat) → Os → Prop}
    (hpoll : ∀ fd goal r, P (.poll fd goal) r → r ≠ .error .EINVAL ∧ r ≠ .error .EBADF)
    (hs : s.Mode fd m)
    (hok : ∀ r s, r ≠ .error .EINVAL → r ≠ .error .EBADF → Os.Mode fd m s → Q (.ok r) s)
    (hfuel : ∀ s, Q (.error .fuel) s) : (retry b (poll fd' goal)).wp (modeRule P) s Q := by
  refine wp_retry (Os.Mode fd m) hs (fun s hs => ?_) fun s _ => hfuel s
  refine ⟨trivial, fun r s' hr => ?_⟩
  have hs' := Os.answer_mode hr.2 nofun hs
  obtain ⟨hinval, hbadf⟩ := hpoll fd' goal r hr.1
  match r with
  | .ok n => exact hok _ s' nofun nofun hs'
  | .error e =>
    cases e with
    | EINTR => exact hs'
    | _ => exact hok _ s' hinval hbadf hs'

theorem wp_pthWriteEv (hP : ∀ ev r, P (.wait ev) r → r ≠ .cancelled)
    (hpoll : ∀ fd goal r, P (.poll fd goal) r → r ≠ .error .EINVAL ∧ r ≠ .error .EBADF)
    (hs : s.Mode fd false) : (pthWriteEv b fd buf extra).wp (modeRule P) s (Restored fd) := by
  unfold pthWriteEv
  split
  · exact hs
  · refine wp_enter hs fun s _ hs => ?_
    rw [if_pos nofun, wp_bind]
    refine wp_poll hpoll hs (fun r s hinval hbadf hs => ?_) fun _ => trivial
    rw [andThen_ok]
    split
    · exact absurd rfl hinval
    · exact absurd rfl hbadf
    · exact wp_writeLoop hP (fun _ => only_perform nofun) hs

theorem wp_pthSendtoEv (hP : ∀ ev r, P (.wait ev) r → r ≠ .cancelled)
    (hpoll : ∀ fd goal r, P (.poll fd goal) r → r ≠ .error .EINVAL ∧ r ≠ .error .EBADF)
    (hs : s.Mode fd false) : (pthSendtoEv b fd buf extra).wp (modeRule P) s (Restored fd) := by
  unfold pthSendtoEv
  split
  · exact hs
  · refine wp_enter hs fun s _ hs => ?_
    rw [if_pos nofun, wp_bind]
    refine wp_calm (only_fdValid nofun) hs fun valid s hs => ?_
    cases valid with
    | false =>
      exact wp_seq <| wp_fdmode_block hs fun _ _ hs => hs
    | true =>
      refine wp_seq <| wp_poll hpoll hs (fun r s hinval hbadf hs => ?_) fun _ => trivial
      rw [andThen_ok]
      split
      · exact absurd rfl hinval
      · exact absurd rfl hbadf
      · exact wp_writeLoop hP (fun _ => only_perform nofun) hs

theorem wp_pthWritevEv (hP : ∀ ev r, P (.wait ev) r → r ≠ .cancelled)
    (hmalloc : ∀ r, P .malloc r → r = true) (hs : s.Mode fd false) :
    (pthWritevEv b fd iov extra).wp (modeRule P) s (Restored fd) := by
  unfold pthWritevEv
  split
  · exact hs
  · refine wp_enter hs fun s _ hs => ?_
    rw [if_pos nofun]
    have hloop : ∀ s, Os.Mode fd true s →
        (do
          let n ← retry b (poll fd .writeable)
          writeLoop b (writevKind fd) fd .block extra ⟨n, iov, iovBytes iov, 0⟩ :
          Code (Res Nat)).wp (modeRule P) s (Restored fd) := by
      intro s hs
      refine wp_seq <| wp_retry_quiet (only_perform nofun) hs (fun n s hs => ?_) fun _ => trivial
      exact wp_writeLoop hP (fun _ => only_perform nofun) hs
    split
    · refine wp_seq <| ⟨trivial, fun r s' hr => ?_⟩
      rw [hmalloc r hr.1]
      exact hloop s' (Os.answer_mode hr.2 nofun hs)
    · exact hloop s hs

/-! ### Sockets -/

theorem only_waitWith : (waitWith ev extra).Only (Quiet fd) fun _ => True := by
  have hwait : (pthWait ev).Only (Quiet fd) fun _ => True := by
    cases ev with
    | none => exact only_pure
    | some =>
      refine (only_perform nofun).bind fun r => ?_
      cases r with
      | returned => exact only_pure
      | cancelled => trivial
  cases extra with
  | none => exact hwait.bind fun _ => only_pure
  | some =>
    refine only_concat.bind fun _ => hwait.bind fun _ => ?_
    exact only_isolate.bind fun _ => (only_status fun _ => nofun).bind fun _ => only_pure

theorem wp_restored {p : Code α} (h : p.Only (Quiet fd) fun _ => True) (hs : s.Mode fd false) :
    p.wp (modeRule P) s (Restored fd) := by
  refine wp_quiet h hs (fun _ _ hs => hs) fun e _ _ hs => ?_
  cases e with
  | fuel => trivial
  | cancelled => exact hs

theorem wp_pthConnectEv (hs : s.Mode fd false) :
    (pthConnectEv b fd extra).wp (modeRule P) s (Restored fd) := by
  refine wp_enter hs fun s _ hs => ?_
  refine wp_seq <| wp_retry_quiet (only_perform nofun) hs (fun rv s hs => ?_) fun _ => trivial
  refine wp_seq <| wp_fdmode_block hs fun _ s hs => wp_restored ?_ hs
  split
  · refine (only_eventFd nofun nofun fun _ _ => nofun).bind fun ev => ?_
    cases ev with
    | error => exact only_pure
    | ok =>
      refine only_waitWith.bind fun v => ?_
      cases v with
      | false => exact only_pure
      | true =>
        refine (only_perform nofun).bind fun r => ?_
        split <;> exact only_pure
  · exact only_pure

theorem wp_eventFd {Q : Except Stop (Res Ev) → Os → Prop}
    (hstatic : ∀ site r, P (.static site) r → ∀ e, r ≠ .error e)
    (hvalid : b.holds fd = true) (hs : s.Mode fd m)
    (hQ : ∀ ev s, Os.Mode fd m s → Q (.ok (.ok ev)) s) :
    (pthEventFd b site fd goal).wp (modeRule P) s Q := by
  rw [pthEventFd, wp_bind]
  refine ⟨trivial, fun r s' hr => ?_⟩
  have hs' := Os.answer_mode hr.2 nofun hs
  cases r with
  | error e => exact absurd rfl (hstatic site _ hr.1 e)
  | ok =>
    refine wp_seq <| wp_fdValid hs' ?_
    rw [hvalid]
    exact wp_seq <| wp_calm (only_perform nofun) hs' fun _ s hs => hQ _ s hs

theorem wp_acceptEvent {Q : Except Stop (Res Ev) → Os → Prop}
    (hstatic : ∀ site r, P (.static site) r → ∀ e, r ≠ .error e)
    (hvalid : b.holds fd = true) (hs : s.Mode fd m)
    (hQ : ∀ ev s, Os.Mode fd m s → Q (.ok (.ok ev)) s) :
    (acceptEvent b fd extra ev).wp (modeRule P) s Q := by
  cases ev with
  | some ev => exact hQ ev s hs
  | none =>
    rw [acceptEvent, wp_bind]
    refine wp_eventFd hstatic hvalid hs fun ev s hs => ?_
    cases extra with
    | none => exact hQ ev s hs
    | some =>
      exact wp_seq <| wp_calm only_concat hs fun _ s hs => hQ ev s hs

theorem wp_acceptTurn (hP : ∀ ev r, P (.wait ev) r → r ≠ .cancelled)
    (hstatic : ∀ site r, P (.static site) r → ∀ e, r ≠ .error e)
    (hvalid : b.holds fd = true) (hs : s.Mode fd true) :
    (acceptTurn b fd .block extra ev).wp (modeRule P) s
      (Post.turn (fun _ => Os.Mode fd true) (LoopRestored fd)) := by
  rw [acceptTurn, wp_bind]
  refine wp_calm (only_perform nofun) hs fun r s hs => ?_
  rw [andThen_ok]
  match r with
  | .ok fd' => exact hs
  | .error e =>
    dsimp only
    split
    case isFalse => exact hs
    case isTrue =>
      refine wp_seq <| wp_acceptEvent hstatic hvalid hs fun ev s hs => ?_
      refine wp_seq <| wp_wait hP hs fun s hs => ?_
      cases extra with
      | none => exact hs
      | some =>
        refine wp_seq <| wp_calm only_isolate hs fun _ s hs => ?_
        refine wp_seq <| wp_calm (only_status fun _ => nofun) hs fun v s hs => ?_
        rw [andThen_ok]
        split
        · exact wp_seq <| wp_fdmode_block hs fun _ _ hs => hs
        · exact hs

theorem wp_fdmode_other (hs : s.Mode fd false) {Q : Except Stop FdMode → Os → Prop}
    (hQ : ∀ v s, Os.Mode fd false s → Q (.ok v) s) :
    (pthFdmode fd' .block).wp (modeRule P) s Q := by
  by_cases he : fd' = fd
  · subst he
    exact wp_fdmode_block hs hQ
  · have hquiet {nonblock : Bool} : Quiet fd (.setfl fd' nonblock) := by
      intro _ h
      cases h
      exact he rfl
    exact wp_calm (only_fdmode nofun fun _ => hquiet) hs hQ

theorem wp_pthAcceptEv (hP : ∀ ev r, P (.wait ev) r → r ≠ .cancelled)
    (hstatic : ∀ site r, P (.static site) r → ∀ e, r ≠ .error e) (hs : s.Mode fd false) :
    (pthAcceptEv b fd extra).wp (modeRule P) s (Restored fd) := by
  refine wp_enter hs fun s hvalid hs => ?_
  refine wp_seq <| wp_iterate (fun _ => Os.Mode fd true) hs (fun ev s hs => ?_) fun _ _ _ => trivial
  refine (wp_acceptTurn hP hstatic hvalid hs).mono fun r s hr => ?_
  match r with
  | .ok (.inl _) => exact hr
  | .error .fuel => trivial
  | .ok (.inr (.left _)) => exact hr
  | .ok (.inr (.done rv)) =>
    refine wp_seq <| wp_fdmode_block hr fun _ s hs => ?_
    match rv with
    | .error e => exact hs
    | .ok fd' =>
      exact wp_seq <| wp_fdmode_other hs fun _ _ hs => hs

/-! ### All of them -/

theorem wp_forget (h : p.wp (modeRule P) s (Restored fd)) :
    (do let _ ← p : Code Unit).wp (modeRule P) s (Restored fd) := by
  refine wp_seq <| h.mono fun r s hr => ?_
  match r with
  | .ok a => exact hr
  | .error .fuel => trivial
  | .error .cancelled => exact hr

theorem ModeCall.wp_code (b : Build) (extra : Option Ev) (c : ModeCall) (hs : s.Mode fd false) :
    (c.code b fd extra).wp (modeRule c.Benign) s (Restored fd) := by
  cases c with
  | write => exact wp_forget (wp_pthWriteEv (fun _ _ h => h) (fun _ _ _ h => h) hs)
  | writev => exact wp_forget (wp_pthWritevEv (fun _ _ h => h) (fun _ h => h) hs)
  | sendto => exact wp_forget (wp_pthSendtoEv (fun _ _ h => h) (fun _ _ _ h => h) hs)
  | connect => exact wp_forget (wp_pthConnectEv hs)
  | accept => exact wp_forget (wp_pthAcceptEv (fun _ _ h => h) (fun _ _ h => h) hs)

/-- With answers that are benign for the call, a descriptor in blocking mode is
in blocking mode again when the call is left, by a return or a cancellation. -/
theorem mode_restored {c : ModeCall} {p : Code Unit} (hs : s.Mode fd false)
    (h : Leads (Os.answerIf fun _ => c.Benign) (c.code b fd extra) s p s')
    (hp : p = .ret () ∨ p = .halt .cancelled) : s'.Mode fd false := by
  have hwp := c.wp_code b extra hs
  rcases hp with rfl | rfl
  · exact h.returned hwp
  · exact h.halted hwp

end

def eager : Script where
  pick s
    | .poll .. => .ok 1
    | .write _ buf => .ok buf.length
    | .wait _ => .returned
    | e => bleak.pick s e
  status := bleak.status

theorem eager_benign (s : Os) (e : Request) :
    s.answerIf (fun _ => (ModeCall.write [0]).Benign) e (eager.reply s e).1 (eager.reply s e).2 := by
  refine ⟨?_, eager.answer s e⟩
  cases e with
  | poll => exact ⟨nofun, nofun⟩
  | wait => exact nofun
  | _ => trivial

theorem mode_restored_eager :
    ∃ s', Leads Os.answer ((ModeCall.write [0]).code pollBuild 3 none) oneOpen (.ret ()) s' ∧
      s'.Mode 3 false := by
  have hopen : oneOpen.Mode 3 false := rfl
  have hrun := leads_play (fun s e (_ : false = false) => eager_benign s e) 20
    ((ModeCall.write [0]).code pollBuild 3 none) oneOpen
  exact ⟨_, eager.leads 20 _ _, mode_restored hopen hrun (.inl rfl)⟩

/-- The way out through a cancellation in the wait, and the way out through an
error of the poll. -/
theorem mode_not_restored :
    (∃ s', Leads Os.answer ((ModeCall.write [0]).code pollBuild 3 none) oneOpen (.halt .cancelled)
      s' ∧ s'.Mode 3 true) ∧
    ∃ s', Leads Os.answer ((ModeCall.write [0]).code pollBuild 3 none) oneOpen (.ret ()) s' ∧
      s'.Mode 3 true := by
  let invalid : Script :=
    { bleak with
      pick := fun s e =>
        match e with
        | .poll .. => .error .EINVAL
        | e => bleak.pick s e }
  exact ⟨⟨_, bleak.leads 20 _ _, rfl⟩, ⟨_, invalid.leads 20 _ _, rfl⟩⟩

end Io

end GnuPth
