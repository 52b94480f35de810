import GnuPth.Io.Os

/-!
# Extra events

A function that takes extra events puts them into one ring with its own event
for the time of a wait. The ring is right in every wait, and the extra events
are given back as they were, with two exceptions: `pth_accept_ev` makes the ring
for its first wait only, and `pth_select_ev` takes only one of the extra events
out of it again.
-/

namespace GnuPth

namespace Io

namespace Extra

open Program

inductive RingCall
  | select (nfd : Int) (sets : FdSets) (timeout : Option Timeval)
  | accept (fd : Fd)
  | connect (fd : Fd)
  | read (fd : Fd) (nbytes : Nat)
  | write (fd : Fd) (buf : Bytes)

def RingCall.code (b : Build) (extra : Option Ev) : RingCall → Code Unit
  | .select nfd sets timeout => do let _ ← pthSelectEv b nfd sets timeout extra
  | .accept fd => do let _ ← pthAcceptEv b fd extra
  | .connect fd => do let _ ← pthConnectEv b fd extra
  | .read fd nbytes => do let _ ← pthReadEv b fd nbytes extra
  | .write fd buf => do let _ ← pthWriteEv b fd buf extra

def RingCall.own : RingCall → List Ev
  | .select nfd sets timeout =>
    if (plainDelay nfd sets timeout).isSome then [.static .timeout]
    else if timeout.isSome then [.static .select, .static .timeout]
    else [.static .select]
  | .accept _ => [.static .accept]
  | .connect _ => [.static .connect]
  | .read .. => [.static .read]
  | .write .. => [.static .write]

/-- The extra events that `pth_select_ev` can handle: a single one, unless it
only has to wait for a timeout. -/
def RingCall.Fits : RingCall → List Ev → Prop
  | .select nfd sets timeout, xs => (plainDelay nfd sets timeout).isSome ∨ xs.length ≤ 1
  | _, _ => True

/-- The answers under which `pth_accept_ev` waits only once and `pth_select_ev`
has its timeout event. -/
def RingCall.Benign : RingCall → Os → (e : Request) → Answer e → Prop
  | .accept _, s, .accept _, r => s.waits ≠ 0 → r ≠ .error .EAGAIN ∧ r ≠ .error .EWOULDBLOCK
  | .select .., _, .static .timeout, r => ∀ e, r ≠ .error e
  | _, _, _, _ => True

def RingOf (s : Os) (ev : Ev) (evs : List Ev) : Prop :=
  ∃ l, EventRing s.links (ev :: l) ∧ ∀ e ∈ evs, e ∈ ev :: l

/-- The rule for answers allowed by `P`: a wait is to be for all of `evs`. -/
def ringRule (P : Os → (e : Request) → Answer e → Prop) (evs : List Ev) : Rule Request Answer Os :=
  alone (Os.answerIf P) fun s e => ∀ ev, e = .wait ev → RingOf s ev evs

/-! ### What leaves the rings alone -/

def Linkless : Request → Prop
  | .static _ | .concat .. | .isolate _ | .wait _ => False
  | _ => True

/-- The call returns, if at all, with the extra events in their ring. -/
def Intact (xs : List Ev) {α : Type} : Except Stop α → Os → Prop
  | .ok _, s => EventRing s.links xs
  | .error _, _ => True

section
variable {xs : List Ev} {s s' : Os}

theorem Os.answer_linkless (h : s.answer e r s') (he : Linkless e) :
    s'.links = s.links ∧ s'.waits = s.waits := by
  cases e with
  | static | concat | isolate | wait => cases he
  | getfl | status => exact h.2 ▸ ⟨rfl, rfl⟩
  | setfl => exact (h : s' = _) ▸ ⟨rfl, rfl⟩
  | accept =>
    cases r with
    | error => exact (h : s' = s) ▸ ⟨rfl, rfl⟩
    | ok =>
      obtain ⟨-, m, rfl⟩ := h
      exact ⟨rfl, rfl⟩
  | _ => exact (h : s' = s) ▸ ⟨rfl, rfl⟩

theorem wp_linkless {p : Code α}
    (h : p.Only Linkless H)
    (hok : ∀ a s', s'.links = s.links → s'.waits = s.waits → Q (.ok a) s')
    (herror : ∀ e s', H e → Q (.error e) s') : p.wp (ringRule P evs) s Q := by
  refine h.wp (I := fun s' => s'.links = s.links ∧ s'.waits = s.waits) (fun e s₁ he hs => ?_)
    ⟨rfl, rfl⟩ (fun a s' hs => hok a s' hs.1 hs.2) fun e s' he _ => herror e s' he
  refine ⟨fun ev hev => ?_, fun r s₂ hr => ?_⟩
  · subst hev
    cases he
  · obtain ⟨hl, hw⟩ := Os.answer_linkless hr.2 he
    exact ⟨hl.trans hs.1, hw.trans hs.2⟩

theorem wp_plain {p : Code α} (h : p.Only Linkless fun _ => False)
    (hok : ∀ a s', s'.links = s.links → s'.waits = s.waits → Q (.ok a) s') :
    p.wp (ringRule P evs) s Q :=
  wp_linkless h hok fun _ _ h => h.elim

theorem wp_retried {call : Code (Res α)}
    (h : call.Only Linkless fun _ => True)
    (hok : ∀ r s', s'.links = s.links → s'.waits = s.waits → Q (.ok r) s')
    (herror : ∀ e s', Q (.error e) s') : (retry b call).wp (ringRule P evs) s Q :=
  wp_linkless (only_retry h trivial) hok fun e s' _ => herror e s'

/-! ### Making events -/

theorem wp_static
    (hok : P s (.static site) (.ok ()) → ∀ s', s'.links = eventSingle s.links (.static site) →
      s'.waits = s.waits → Q (.ok (.ok ())) s')
    (herror : ∀ e, P s (.static site) (.error e) → Q (.ok (.error e)) s) :
    (static site).wp (ringRule P evs) s Q := by
  refine ⟨nofun, fun r s' hr => ?_⟩
  obtain ⟨hP, hr⟩ := hr
  cases r with
  | ok =>
    obtain rfl : s' = _ := hr
    exact hok hP _ rfl rfl
  | error e =>
    obtain rfl : s' = s := hr
    exact herror e hP

/-- What a new event leaves: its own ring, and the rings of others. -/
theorem wp_eventFd (hok : ∀ s', s'.links = eventSingle s.links (.static site) → s'.waits = s.waits →
      Q (.ok (.ok (.static site))) s')
    (herror : ∀ e s', s'.links = s.links ∨ s'.links = eventSingle s.links (.static site) →
      s'.waits = s.waits → Q (.ok (.error e)) s') :
    (pthEventFd b site fd goal).wp (ringRule P evs) s Q := by
  rw [pthEventFd, wp_bind]
  refine wp_static (fun _ s₁ hl hw => ?_) fun e _ => herror e s (.inl rfl) rfl
  refine wp_seq <| wp_plain (only_fdValid trivial) fun valid s₂ hl₂ hw₂ => ?_
  rw [hl] at hl₂
  rw [hw] at hw₂
  cases valid with
  | false => exact herror _ s₂ (.inr hl₂) hw₂
  | true =>
    refine wp_seq <| wp_plain (only_perform trivial) fun _ s₃ hl₃ hw₃ => ?_
    exact hok s₃ (hl₃.trans hl₂) (hw₃.trans hw₂)

theorem wp_event
    (hok : P s (.static site) (.ok ()) → ∀ s', s'.links = eventSingle s.links (.static site) →
      Q (.ok (some (.static site))) s')
    (herror : ∀ e, P s (.static site) (.error e) → Q (.ok none) s) :
    (pthEvent site args).wp (ringRule P evs) s Q := by
  rw [pthEvent, wp_bind]
  refine wp_static (fun hP s₁ hl _ => ?_) herror
  exact wp_seq <| wp_plain (only_perform trivial) fun _ s₂ hl₂ _ => hok hP s₂ (hl₂.trans hl)

/-! ### Waiting -/

variable {Q : Except Stop Unit → Os → Prop}

theorem wp_concat
    (hQ : ∀ s', s'.links = eventConcat s.links ev [y] → s'.waits = s.waits → Q (.ok ()) s') :
    (pthEventConcat (some ev) (some y)).wp (ringRule P evs) s Q := by
  refine ⟨nofun, ?_⟩
  rintro r s' ⟨-, rfl⟩
  exact hQ _ rfl rfl

theorem wp_isolate
    (hQ : ∀ s', s'.links = eventIsolate s.links ev → s'.waits = s.waits → Q (.ok ()) s') :
    (pthEventIsolate (some ev)).wp (ringRule P evs) s Q := by
  refine ⟨nofun, ?_⟩
  rintro r s' ⟨-, rfl⟩
  exact hQ _ rfl rfl

theorem wp_wait (h : RingOf s ev evs)
    (hok : ∀ s', s'.links = s.links → s'.waits ≠ 0 → Q (.ok ()) s')
    (hcancel : ∀ s', Q (.error .cancelled) s') :
    (pthWait (some ev)).wp (ringRule P evs) s Q := by
  refine ⟨fun ev' hev => ?_, ?_⟩
  · cases hev
    exact h
  · rintro r s' ⟨-, status, rfl⟩
    cases r with
    | returned => exact hok _ rfl (Nat.succ_ne_zero _)
    | cancelled => exact hcancel _

theorem ringOf_concat (hev : EventRing s.links [ev]) (hx : EventRing s.links (x :: xs))
    (hd : ev ∉ x :: xs) (hl : s'.links = eventConcat s.links ev [x]) :
    EventRing s'.links (ev :: x :: xs) := by
  have h := hev.concat hx fun z hz => by rwa [List.mem_singleton.mp hz]
  rw [hl]
  simpa using h

theorem wp_waitWith {Q : Except Stop Bool → Os → Prop} (hev : EventRing s.links [ev])
    (hx : EventRing s.links (x :: xs)) (hd : ev ∉ x :: xs) (hevs : ∀ e ∈ evs, e ∈ ev :: x :: xs)
    (hok : ∀ v s', EventRing s'.links (x :: xs) → Q (.ok v) s')
    (hcancel : ∀ s', Q (.error .cancelled) s') :
    (waitWith (some ev) (some x)).wp (ringRule P evs) s Q := by
  simp only [waitWith, Option.isSome_some, if_true, wp_bind]
  refine wp_concat fun s₁ hl₁ _ => ?_
  have hring := ringOf_concat hev hx hd hl₁
  refine wp_seq <| wp_wait ⟨_, hring, hevs⟩ (fun s₂ hl₂ _ => ?_) hcancel
  refine wp_seq <| wp_isolate fun s₃ hl₃ _ => ?_
  refine wp_seq <| wp_plain (only_status fun _ => trivial) fun v s₄ hl₄ _ => hok _ s₄ ?_
  rw [hl₄, hl₃, hl₂]
  exact hring.isolate.2

section
variable (hd : ∀ site, .static site ∉ x :: xs)
include hd

theorem wp_waitFd {Q : Except Stop Bool → Os → Prop} (hx : EventRing s.links (x :: xs))
    (hevs : ∀ e ∈ evs, e ∈ .static site :: x :: xs)
    (hok : ∀ v s', EventRing s'.links (x :: xs) → Q (.ok v) s')
    (hcancel : ∀ s', Q (.error .cancelled) s') :
    (waitFd b site fd goal (some x)).wp (ringRule P evs) s Q := by
  rw [waitFd, wp_bind]
  refine wp_eventFd (fun s₁ hl _ => ?_) fun e s₁ hl _ => ?_
  · have hx₁ : EventRing s₁.links (x :: xs) := (hx.single (hd site)).of_eq hl
    exact wp_waitWith (eventSingle_ring.of_eq hl) hx₁ (hd site) hevs hok hcancel
  · -- without an event there is no wait
    refine hok false s₁ ?_
    rcases hl with hl | hl
    · exact hx.of_eq hl
    · exact (hx.single (hd site)).of_eq hl

/-! ### One event, one wait for each ring -/

omit hd in
theorem wp_enter {mode : FdMode} {f : FdMode → Code (Res α)} (hx : EventRing s.links (x :: xs))
    (hf : ∀ fdmode s', s'.waits = s.waits → EventRing s'.links (x :: xs) →
      (f fdmode).wp (ringRule P evs) s' (Intact (x :: xs))) :
    (do
      if !(← pthUtilFdValid b fd) then return Res.error Errno.EBADF
      let fdmode ← pthFdmode fd mode
      if fdmode = .error then return Res.error Errno.EBADF
      f fdmode : Code (Res α)).wp (ringRule P evs) s (Intact (x :: xs)) := by
  refine wp_seq <| wp_plain (only_fdValid trivial) fun valid s₁ hl₁ hw₁ => ?_
  have hx₁ : EventRing s₁.links (x :: xs) := hx.of_eq hl₁
  cases valid with
  | false => exact hx₁
  | true =>
    refine wp_seq <| wp_plain (only_fdmode trivial fun _ => trivial) fun fdmode s₂ hl₂ hw₂ => ?_
    have hx₂ : EventRing s₂.links (x :: xs) := hx₁.of_eq hl₂
    rw [andThen_ok]
    split
    · exact hx₂
    · exact hf fdmode s₂ (hw₂.trans hw₁) hx₂

omit hd in
theorem wp_leave {mode : FdMode} {rv : α} (hx : EventRing s.links (x :: xs)) :
    (do
      let _ ← pthFdmode fd mode
      return rv : Code α).wp (ringRule P evs) s (Intact (x :: xs)) := by
  refine wp_seq <| wp_plain (only_fdmode trivial fun _ => trivial) fun _ s₁ hl _ => ?_
  exact hx.of_eq hl

theorem wp_pthReadEv (hx : EventRing s.links (x :: xs))
    (hevs : ∀ e ∈ evs, e ∈ .static .read :: x :: xs) :
    (pthReadEv b fd nbytes (some x)).wp (ringRule P evs) s (Intact (x :: xs)) := by
  have hread : ∀ s, EventRing s.links (x :: xs) →
      (retry b (read fd nbytes)).wp (ringRule P evs) s (Intact (x :: xs)) := fun s hx =>
    wp_retried (only_perform trivial) (fun _ _ hl _ => hx.of_eq hl) fun _ _ => trivial
  unfold pthReadEv
  split
  · exact hx
  · refine wp_enter hx fun fdmode s _ hx => ?_
    split
    case isFalse => exact hread s hx
    case isTrue =>
      refine wp_seq <| wp_retried (only_perform trivial) (fun n s₁ hl _ => ?_) fun _ _ => trivial
      have hx₁ : EventRing s₁.links (x :: xs) := hx.of_eq hl
      rw [andThen_ok]
      split
      · exact hx₁
      · exact hx₁
      · split
        case isFalse => exact hread s₁ hx₁
        case isTrue =>
          refine wp_seq <| wp_waitFd hd hx₁ hevs (fun v s₂ hx₂ => ?_) fun _ => trivial
          cases v with
          | false => exact hx₂
          | true => exact hread s₂ hx₂

theorem wp_pthConnectEv (hx : EventRing s.links (x :: xs))
    (hevs : ∀ e ∈ evs, e ∈ .static .connect :: x :: xs) :
    (pthConnectEv b fd (some x)).wp (ringRule P evs) s (Intact (x :: xs)) := by
  refine wp_enter hx fun fdmode s _ hx => ?_
  refine wp_seq <| wp_retried (only_perform trivial) (fun rv s₁ hl₁ _ => ?_) fun _ _ => trivial
  refine wp_seq <| wp_plain (only_fdmode trivial fun _ => trivial) fun _ s₂ hl₂ _ => ?_
  have hx₂ : EventRing s₂.links (x :: xs) := (hx.of_eq hl₁).of_eq hl₂
  split
  case isFalse => exact hx₂
  case isTrue =>
    refine wp_seq <| wp_eventFd (fun s₃ hl₃ _ => ?_) fun e s₃ hl₃ _ => ?_
    · have hx₃ : EventRing s₃.links (x :: xs) := (hx₂.single (hd .connect)).of_eq hl₃
      refine wp_seq <| wp_waitWith (eventSingle_ring.of_eq hl₃) hx₃ (hd .connect) hevs (fun v s₄ hx₄ => ?_)
        fun _ => trivial
      cases v with
      | false => exact hx₄
      | true =>
        refine wp_seq <| wp_plain (only_perform trivial) fun r s₅ hl₅ _ => ?_
        have hx₅ : EventRing s₅.links (x :: xs) := hx₄.of_eq hl₅
        rw [andThen_ok]
        split <;> exact hx₅
    · rcases hl₃ with hl₃ | hl₃
      · exact hx₂.of_eq hl₃
      · exact (hx₂.single (hd .connect)).of_eq hl₃

variable {fdmode : FdMode}

theorem wp_writeTurn (hx : EventRing s.links (x :: xs))
    (hevs : ∀ e ∈ evs, e ∈ .static .write :: x :: xs) :
    (writeTurn b (writeKind fd) fd fdmode (some x) w).wp (ringRule P evs) s
      (Post.turn (fun _ s => EventRing s.links (x :: xs)) (Intact (x :: xs))) := by
  have hcall : ∀ s, EventRing s.links (x :: xs) →
      (writeCall b (writeKind fd) w).wp (ringRule P evs) s
        (Post.turn (fun _ s => EventRing s.links (x :: xs)) (Intact (x :: xs))) := by
    intro s hx
    rw [writeCall, wp_bind]
    refine wp_retried (only_perform trivial) (fun r s₁ hl _ => ?_) fun _ _ => trivial
    have hx₁ : EventRing s₁.links (x :: xs) := hx.of_eq hl
    rw [andThen_ok]
    cases r with
    | error => exact hx₁
    | ok => dsimp only; split <;> exact hx₁
  unfold writeTurn
  split
  case isFalse => exact hcall s hx
  case isTrue =>
    refine wp_seq <| wp_waitFd hd hx hevs (fun v s₁ hx₁ => ?_) fun _ => trivial
    cases v with
    | true => exact hcall s₁ hx₁
    | false =>
      refine wp_seq <| wp_plain (only_fdmode trivial fun _ => trivial) fun _ s₂ hl _ => ?_
      exact hx₁.of_eq hl

theorem wp_pthWriteEv (hx : EventRing s.links (x :: xs))
    (hevs : ∀ e ∈ evs, e ∈ .static .write :: x :: xs) :
    (pthWriteEv b fd buf (some x)).wp (ringRule P evs) s (Intact (x :: xs)) := by
  unfold pthWriteEv
  split
  · exact hx
  · refine wp_enter hx fun fdmode s _ hx => ?_
    split
    case isFalse =>
      rw [writeOnce, wp_bind]
      refine wp_retried (only_perform trivial) (fun rv s₁ hl _ => ?_) fun _ _ => trivial
      exact wp_leave (hx.of_eq hl)
    case isTrue =>
      refine wp_seq <| wp_retried (only_perform trivial) (fun n s₁ hl _ => ?_) fun _ _ => trivial
      have hx₁ : EventRing s₁.links (x :: xs) := hx.of_eq hl
      rw [andThen_ok]
      split
      · exact hx₁
      · exact hx₁
      · rw [writeLoop, wp_bind]
        refine wp_iterate (fun _ s => EventRing s.links (x :: xs)) hx₁ (fun w s hx => ?_)
          fun _ _ _ => trivial
        refine (wp_writeTurn hd hx hevs).mono fun r s hr => ?_
        match r with
        | .ok (.inl _) => exact hr
        | .error _ => trivial
        | .ok (.inr (.left _)) => exact hr
        | .ok (.inr (.done _)) => exact wp_leave hr

/-! ### pth_accept_ev -/

def Accepting (xs : List Ev) (ev : Option Ev) (s : Os) : Prop :=
  EventRing s.links xs ∧ (ev = none ↔ s.waits = 0)

theorem wp_acceptWait (hx : EventRing s.links (x :: xs))
    (hevs : ∀ e ∈ evs, e ∈ .static .accept :: x :: xs) :
    (do
      match ← acceptEvent b fd (some x) none with
      | .error e => return .inr (.left e)
      | .ok ev =>
        pthWait (some ev)
        if (some x).isSome then
          pthEventIsolate (some ev)
          if (← pthEventStatus (some ev)) ≠ .occurred then
            let _ ← pthFdmode fd fdmode
            return .inr (.left .EINTR)
        return .inl (some ev) : Code (Option Ev ⊕ LoopExit (Res Fd))).wp (ringRule P evs) s
      (Post.turn (Accepting (x :: xs)) (Intact (x :: xs))) := by
  simp only [acceptEvent, wp_bind]
  refine wp_eventFd (fun s₁ hl₁ _ => ?_) fun e s₁ hl₁ _ => ?_
  · have hx₁ : EventRing s₁.links (x :: xs) := (hx.single (hd .accept)).of_eq hl₁
    refine wp_seq <| wp_concat fun s₂ hl₂ _ => ?_
    have hring := ringOf_concat (eventSingle_ring.of_eq hl₁) hx₁ (hd .accept) hl₂
    refine wp_seq <| wp_wait ⟨_, hring, hevs⟩ (fun s₃ hl₃ hw₃ => ?_) fun _ => trivial
    refine wp_seq <| wp_isolate fun s₄ hl₄ hw₄ => ?_
    have hx₄ : EventRing s₄.links (x :: xs) := by
      rw [hl₄, hl₃]
      exact hring.isolate.2
    refine wp_seq <| wp_plain (only_status fun _ => trivial) fun v s₅ hl₅ hw₅ => ?_
    have hx₅ : EventRing s₅.links (x :: xs) := hx₄.of_eq hl₅
    rw [andThen_ok]
    split
    · refine wp_seq <| wp_plain (only_fdmode trivial fun _ => trivial) fun _ s₆ hl₆ _ => ?_
      exact hx₅.of_eq hl₆
    · have hw : s₅.waits ≠ 0 := by rwa [hw₅, hw₄]
      exact ⟨hx₅, ⟨(by rintro ⟨⟩), fun h => absurd h hw⟩⟩
  · rcases hl₁ with hl₁ | hl₁
    · exact hx.of_eq hl₁
    · exact (hx.single (hd .accept)).of_eq hl₁

theorem wp_acceptTurn (hP : ∀ s fd r, P s (.accept fd) r → s.waits ≠ 0 →
      r ≠ .error .EAGAIN ∧ r ≠ .error .EWOULDBLOCK)
    (h : Accepting (x :: xs) ev s) (hevs : ∀ e ∈ evs, e ∈ .static .accept :: x :: xs) :
    (acceptTurn b fd fdmode (some x) ev).wp (ringRule P evs) s
      (Post.turn (Accepting (x :: xs)) (Intact (x :: xs))) := by
  rw [acceptTurn, wp_bind]
  refine ⟨nofun, fun r s₁ hr => ?_⟩
  obtain ⟨hl, hw⟩ := Os.answer_linkless hr.2 trivial
  have hx₁ : EventRing s₁.links (x :: xs) := h.1.of_eq hl
  match r with
  | .ok fd' => exact hx₁
  | .error e =>
    simp only [wp_ret, andThen_ok]
    split
    case isFalse => exact hx₁
    case isTrue hagain =>
      cases ev with
      | none => exact wp_acceptWait hd hx₁ hevs
      | some =>
        have hwaits : s.waits ≠ 0 := fun h0 => nomatch h.2.mpr h0
        obtain ⟨h₁, h₂⟩ := hP s fd _ hr.1 hwaits
        rcases hagain.1 with rfl | rfl
        · exact absurd rfl h₁
        · exact absurd rfl h₂

theorem wp_pthAcceptEv (hP : ∀ s fd r, P s (.accept fd) r → s.waits ≠ 0 →
      r ≠ .error .EAGAIN ∧ r ≠ .error .EWOULDBLOCK)
    (hx : EventRing s.links (x :: xs)) (hw : s.waits = 0)
    (hevs : ∀ e ∈ evs, e ∈ .static .accept :: x :: xs) :
    (pthAcceptEv b fd (some x)).wp (ringRule P evs) s (Intact (x :: xs)) := by
  refine wp_enter hx fun fdmode s₁ hw₁ hx₁ => ?_
  have hstart : Accepting (x :: xs) none s₁ := ⟨hx₁, fun _ => hw₁.trans hw, fun _ => rfl⟩
  refine wp_seq <| wp_iterate (Accepting (x :: xs)) hstart (fun ev s h => ?_) fun _ _ _ => trivial
  refine (wp_acceptTurn hd hP h hevs).mono fun r s hr => ?_
  match r with
  | .ok (.inl _) => exact hr
  | .error _ => trivial
  | .ok (.inr (.left _)) => exact hr
  | .ok (.inr (.done rv)) =>
    have hx : EventRing s.links (x :: xs) := hr
    refine wp_seq <| wp_plain (only_fdmode trivial fun _ => trivial) fun _ s₂ hl₂ _ => ?_
    have hx₂ : EventRing s₂.links (x :: xs) := hx.of_eq hl₂
    match rv with
    | .error e => exact hx₂
    | .ok fd' => exact wp_leave hx₂

/-! ### pth_select_ev -/

theorem wp_selectDelay (hx : EventRing s.links (x :: xs))
    (hevs : ∀ e ∈ evs, e ∈ .static .timeout :: x :: xs) :
    (selectDelay b tv sets (some x)).wp (ringRule P evs) s (Intact (x :: xs)) := by
  unfold selectDelay
  split
  · refine wp_seq <| wp_retried (only_perform trivial) (fun _ _ hl _ => hx.of_eq hl) fun _ _ => trivial
  · refine wp_seq <| wp_event (fun _ s₁ hl => ?_) fun _ _ => ?_
    · have hx₁ : EventRing s₁.links (x :: xs) := (hx.single (hd .timeout)).of_eq hl
      refine wp_seq <| wp_waitWith (eventSingle_ring.of_eq hl) hx₁ (hd .timeout) hevs (fun v s₂ hx₂ => ?_)
        fun _ => trivial
      cases v <;> exact hx₂
    · exact hx

end

theorem wp_selectResult (hx : EventRing s.links (x :: xs)) :
    (selectResult evSelect evTimeout extra).wp (ringRule P evs) s (Intact (x :: xs)) := by
  have honly : (selectResult evSelect evTimeout extra).Only Linkless fun _ => False := by
    refine (only_perform trivial).bind fun r => ?_
    refine (only_status fun _ => trivial).bind fun status => ?_
    refine (only_status fun _ => trivial).bind fun expired => ?_
    split
    · exact only_pure
    · split
      · exact only_pure
      · split <;> exact only_pure
  exact wp_plain honly fun _ _ hl _ => hx.of_eq hl

theorem wp_selectWait_forever (hx : EventRing s.links [x])
    (hd : ∀ site, .static site ∉ [x]) (hevs : ∀ e ∈ evs, e ∈ [.static .select, x]) :
    (selectWait nfd sets none (some x)).wp (ringRule P evs) s (Intact [x]) := by
  simp only [selectWait, selectTimeout, wp_bind]
  refine wp_event (fun _ s₁ hl₁ => ?_) fun _ _ => ?_
  · have hx₁ : EventRing s₁.links [x] := (hx.single (hd .select)).of_eq hl₁
    simp only [andThen_ok, wp_pure, wp_bind, Option.isSome_some, if_true]
    refine wp_concat fun s₂ hl₂ _ => ?_
    have hring := ringOf_concat (eventSingle_ring.of_eq hl₁) hx₁ (hd .select) hl₂
    refine wp_seq <| wp_wait ⟨_, hring, hevs⟩ (fun s₃ hl₃ _ => ?_) fun _ => trivial
    refine wp_seq <| wp_isolate fun s₄ hl₄ _ => ?_
    have hx₄ : EventRing s₄.links [x] := by
      rw [hl₄, hl₃]
      exact hring.rotate.isolate.1
    exact wp_selectResult hx₄
  · -- no event and no wait
    simp only [andThen_ok, wp_pure, wp_bind, Option.isSome_some, if_true, pthEventConcat_none,
      pthWait_none]
    refine wp_isolate fun s₁ hl₁ _ => ?_
    have hx₁ : EventRing s₁.links [x] := by rwa [hl₁, hx.isolate_only]
    exact wp_selectResult hx₁

/-- The three rings of a `pth_select_ev` with a timeout, before the wait. -/
structure Three (k : EvLinks Ev) (x : Ev) : Prop where
  select : EventRing k [.static .select]
  timeout : EventRing k [.static .timeout]
  extra : EventRing k [x]

theorem Three.joined (h : Three k x) (hd : ∀ site, .static site ∉ [x]) :
    EventRing (eventConcat (eventConcat k (.static .select) [.static .timeout]) (.static .select) [x])
      [.static .select, x, .static .timeout] := by
  have hown : EventRing (eventConcat k (.static .select) [.static .timeout])
      [.static .select, .static .timeout] := h.select.concat h.timeout (by simp)
  have hnot {site : Site} : x ∉ [.static site] := by
    intro hx
    rw [List.mem_singleton] at hx
    exact hd site (by simp [hx])
  have hx : EventRing (eventConcat k (.static .select) [.static .timeout]) [x] :=
    h.extra.concat_frame h.select h.timeout (by simpa using hnot) (by simpa using hnot)
  refine hown.concat hx fun z hz => ?_
  rcases List.mem_pair.mp hz with rfl | rfl
  · exact hd .select
  · exact hd .timeout

theorem extra_of_joined {k : EvLinks Ev} (hd : ∀ site, .static site ∉ [x])
    (h : EventRing k [.static .select, x, .static .timeout]) :
    EventRing (eventIsolate (eventIsolate k x) (.static .timeout)) [x] := by
  have hx : EventRing k [x, .static .timeout, .static .select] := h.rotate
  refine hx.isolate.1.isolate_frame hx.isolate.2 fun z hz => ?_
  rw [List.mem_singleton.mp hz]
  intro hmem
  rcases List.mem_pair.mp hmem with he | he
  · exact hd .timeout (by simp [he])
  · exact hd .select (by simp [he])

theorem wp_selectWait_until
    (hP : ∀ s e, ¬P s (.static .timeout) (.error e)) (hx : EventRing s.links [x])
    (hd : ∀ site, .static site ∉ [x])
    (hevs : ∀ e ∈ evs, e ∈ [.static .select, x, .static .timeout]) :
    (selectWait nfd sets (some tv) (some x)).wp (ringRule P evs) s (Intact [x]) := by
  simp only [selectWait, wp_bind]
  refine wp_event (fun _ s₁ hl₁ => ?_) fun _ _ => ?_
  · refine wp_seq <| wp_seq <| wp_event (fun _ s₂ hl₂ => ?_) fun e he => absurd he (hP s₁ e)
    have hthree : Three s₂.links x := by
      rw [hl₂]
      refine ⟨?_, eventSingle_ring, ?_⟩
      · exact (eventSingle_ring.of_eq hl₁).single (by simp)
      · exact ((hx.single (hd .select)).of_eq hl₁).single (hd .timeout)
    refine wp_seq <| wp_concat fun s₃ hl₃ _ => ?_
    refine wp_seq <| wp_concat fun s₄ hl₄ _ => ?_
    have hring : EventRing s₄.links [.static .select, x, .static .timeout] := by
      rw [hl₄, hl₃]
      exact hthree.joined hd
    refine wp_seq <| wp_wait ⟨_, hring, hevs⟩ (fun s₅ hl₅ _ => ?_) fun _ => trivial
    refine wp_seq <| wp_isolate fun s₆ hl₆ _ => ?_
    refine wp_seq <| wp_isolate fun s₇ hl₇ _ => ?_
    have hx₇ : EventRing s₇.links [x] := by
      rw [hl₇, hl₆, hl₅]
      exact extra_of_joined hd hring
    exact wp_selectResult hx₇
  · refine wp_seq <| wp_seq <| wp_event (fun _ s₂ hl₂ => ?_) fun e he => absurd he (hP s e)
    have hx₂ : EventRing s₂.links [x] := (hx.single (hd .timeout)).of_eq hl₂
    have htime : EventRing s₂.links [.static .timeout] := eventSingle_ring.of_eq hl₂
    simp only [andThen_ok, wp_pure, wp_bind, Option.isSome_some, if_true, pthEventConcat_none,
      pthWait_none]
    refine wp_isolate fun s₃ hl₃ _ => ?_
    rw [hx₂.isolate_only] at hl₃
    refine wp_seq <| wp_isolate fun s₄ hl₄ _ => ?_
    rw [hl₃, htime.isolate_only] at hl₄
    exact wp_selectResult (hx₂.of_eq hl₄)

theorem plainDelay_map :
    plainDelay nfd sets (timeout.map f) = (plainDelay nfd sets timeout).map f := by
  unfold plainDelay
  split <;> rfl

theorem wp_selectPoll (hP : ∀ s e, ¬P s (.static .timeout) (.error e)) (hx : EventRing s.links [x])
    (hd : ∀ site, .static site ∉ [x])
    (hevs : ∀ e ∈ evs, e = .static .select ∨ e = x ∨ e = .static .timeout ∧ timeout.isSome) :
    (selectPoll b nfd sets timeout (some x)).wp (ringRule P evs) s (Intact [x]) := by
  rw [selectPoll, wp_bind]
  refine wp_retried (only_perform trivial) (fun r s₁ hl _ => ?_) fun _ _ => trivial
  have hx₁ : EventRing s₁.links [x] := hx.of_eq hl
  rw [andThen_ok]
  match r with
  | .error e => exact hx₁
  | .ok (rc, ready) =>
    dsimp only
    split
    · exact hx₁
    · cases timeout with
      | none => exact wp_selectWait_forever hx₁ hd (by simpa using hevs)
      | some => exact wp_selectWait_until hP hx₁ hd (by simpa using hevs)

theorem wp_pthSelectEv
    (hP : ∀ s e, ¬P s (.static .timeout) (.error e)) (hx : EventRing s.links (x :: xs))
    (hd : ∀ site, .static site ∉ x :: xs)
    (hfits : (RingCall.select nfd sets timeout).Fits (x :: xs)) :
    (pthSelectEv b nfd sets timeout (some x)).wp
      (ringRule P ((RingCall.select nfd sets timeout).own ++ x :: xs)) s (Intact (x :: xs)) := by
  unfold pthSelectEv
  split
  · exact hx
  · split
    · exact hx
    · dsimp only
      rw [plainDelay_map]
      simp only [RingCall.Fits, RingCall.own] at hfits ⊢
      cases hdelay : plainDelay nfd sets timeout with
      | some => exact wp_selectDelay hd hx (by simp)
      | none =>
        simp only [hdelay] at hfits ⊢
        -- there is only one extra event
        obtain rfl : xs = [] := List.eq_nil_of_length_eq_zero (by simpa using hfits)
        refine wp_selectPoll hP hx hd fun e he => ?_
        cases timeout with
        | none => simpa using he
        | some => simpa [or_comm] using he

theorem RingCall.wp_code (c : RingCall) (hx : EventRing s.links (x :: xs))
    (hd : ∀ site, .static site ∉ x :: xs) (hw : s.waits = 0) (hfits : c.Fits (x :: xs)) :
    (c.code b (some x)).wp (ringRule c.Benign (c.own ++ x :: xs)) s (Intact (x :: xs)) := by
  have forget {α : Type} {p : Code α} {ρ : Rule Request Answer Os}
      (h : p.wp ρ s (Intact (x :: xs))) :
      (do let _ ← p : Code Unit).wp ρ s (Intact (x :: xs)) := by
    refine wp_seq <| h.mono fun r s hr => ?_
    cases r with
    | ok => exact hr
    | error => trivial
  cases c with
  | select =>
    exact forget (wp_pthSelectEv (fun _ e h => h e rfl) hx hd hfits)
  | accept => exact forget (wp_pthAcceptEv hd (fun _ _ _ h => h) hx hw fun _ he => he)
  | connect => exact forget (wp_pthConnectEv hd hx fun _ he => he)
  | read => exact forget (wp_pthReadEv hd hx fun _ he => he)
  | write => exact forget (wp_pthWriteEv hd hx fun _ he => he)

/-- With benign answers, and one extra event for `pth_select_ev`, every wait is
for the own events and all extra ones, and the extra events are a ring as before
when the call returns. -/
theorem extra_intact {c : RingCall} (hx : EventRing s.links (x :: xs))
    (hd : ∀ site, .static site ∉ x :: xs) (hw : s.waits = 0) (hfits : c.Fits (x :: xs)) :
    (∀ ev k s', Leads (Os.answerIf c.Benign) (c.code b (some x)) s (.ask (.wait ev) k) s' →
      RingOf s' ev (c.own ++ x :: xs)) ∧
    ∀ s', Leads (Os.answerIf c.Benign) (c.code b (some x)) s (.ret ()) s' →
      EventRing s'.links (x :: xs) := by
  have hwp := c.wp_code (b := b) hx hd hw hfits
  exact ⟨fun ev k s' h => h.asked hwp ev rfl, fun s' h => h.returned hwp⟩

end

def twoExtra : Os :=
  { oneOpen with
    links :=
      let swap : Ev → Ev
        | .extra 0 => .extra 1
        | .extra 1 => .extra 0
        | ev => ev
      ⟨swap, swap⟩ }

theorem twoExtra_ring : EventRing twoExtra.links [.extra 0, .extra 1] :=
  ⟨⟨⟨rfl, rfl⟩, rfl, rfl⟩, by decide⟩

/-- Nothing is ready until a wait is over, which the own event of a function ends. -/
def patient : Script where
  pick s
    | .read .. => .ok [0]
    | .wait _ => .returned
    | e => bleak.pick s e
  status _
    | .static _ => .occurred
    | .extra _ => .pending

theorem patient_benign (s : Os) (e : Request) :
    s.answerIf (RingCall.read 3 1).Benign e (patient.reply s e).1 (patient.reply s e).2 :=
  ⟨trivial, patient.answer s e⟩

theorem extra_intact_read :
    (∃ k s', Leads Os.answer ((RingCall.read 3 1).code pollBuild (some (.extra 0))) twoExtra
        (.ask (.wait (.static .read)) k) s' ∧
      RingOf s' (.static .read) [.static .read, .extra 0, .extra 1]) ∧
    ∃ s', Leads Os.answer ((RingCall.read 3 1).code pollBuild (some (.extra 0))) twoExtra
        (.ret ()) s' ∧ EventRing s'.links [.extra 0, .extra 1] := by
  have h := extra_intact (b := pollBuild) (c := .read 3 1) twoExtra_ring (by simp) rfl trivial
  have hrun (n : Nat) := leads_play (fun s e (_ : false = false) => patient_benign s e) n
    ((RingCall.read 3 1).code pollBuild (some (.extra 0))) twoExtra
  exact ⟨⟨_, _, patient.leads 7 _ _, h.1 _ _ _ (hrun 7)⟩, _, patient.leads 20 _ _, h.2 _ (hrun 20)⟩

/-- `pth_accept_ev` waits a second time without the extra events; `pth_select_ev`
returns with one of the extra events in a ring with its own event. -/
theorem extra_lost :
    (∃ k s', Leads Os.answer ((RingCall.accept 3).code pollBuild (some (.extra 0))) twoExtra
        (.ask (.wait (.static .accept)) k) s' ∧ EventRing s'.links [.static .accept]) ∧
    ∃ s', Leads Os.answer ((RingCall.select 1 ⟨none, none, none⟩ none).code pollBuild
        (some (.extra 0))) twoExtra (.ret ()) s' ∧
      EventRing s'.links [.extra 0] ∧ EventRing s'.links [.static .select, .extra 1] := by
  refine ⟨⟨_, _, patient.leads 12 _ _, ⟨rfl, rfl⟩, by decide⟩, _, patient.leads 20 _ _,
    ⟨⟨rfl, rfl⟩, by decide⟩, ⟨⟨rfl, rfl⟩, rfl, rfl⟩, by decide⟩

end Extra

end Io

end GnuPth
