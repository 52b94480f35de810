import GnuPth.Io.Os

/-!
# The read family and the process

A `read(2)` on a descriptor in blocking mode stops all threads unless there is
something to read. `pth_read_ev`, `pth_readv_ev` and `pth_recvfrom_ev` first poll
the descriptor and then wait for an event. The read is `Cleared` if one of the two
has found the descriptor ready, or the event has failed.
-/

namespace GnuPth

namespace Io

namespace Guarded

open Program

@[ext] structure Watched where
  os : Os
  -- history variables of the call: the last poll with its result, and the last
  -- event that was made
  polled : Option (Fd × Goal × Res Nat)
  made : Option (Ev × EvArgs)

def Watched.answer (s : Watched) : (e : Request) → Answer e → Watched → Prop
  | .poll fd goal, r, s' => s' = { s with polled := some (fd, goal, r) }
  | .init ev args, _, s' => s' = { s with made := some (ev, args) }
  | e, r, s' => s.os.answer e r s'.os ∧ s'.polled = s.polled ∧ s'.made = s.made

def IsRead : Request → Prop
  | .read .. | .readv .. | .recvfrom .. => True
  | _ => False

inductive ReadCall
  | read (nbytes : Nat)
  | readv (iov : List Nat)
  | recvfrom (nbytes : Nat)

def ReadCall.code (b : Build) (fd : Fd) (extra : Option Ev) : ReadCall → Code (Res Bytes)
  | .read nbytes => pthReadEv b fd nbytes extra
  | .readv iov => pthReadvEv b fd iov extra
  | .recvfrom nbytes => pthRecvfromEv b fd nbytes extra

def ReadCall.site : ReadCall → Site
  | .read _ => .read
  | .readv _ => .readv
  | .recvfrom _ => .recvfrom

/-- The poll has reported the descriptor, or its event is `OCCURRED` or `FAILED`. -/
def Cleared (fd : Fd) (site : Site) (s : Watched) : Prop :=
  (∃ n, s.polled = some (fd, .readable, .ok n) ∧ 0 < n) ∨
    s.made = some (.static site, .fd fd .readable) ∧
      (s.os.status (.static site) = .occurred ∨ s.os.status (.static site) = .failed)

/-- The errors of the poll, `EINTR` apart, after which there is no read right away. -/
def ReadCall.Notices : ReadCall → Errno → Prop
  | .readv _, _ => True
  | _, e => e = .EINVAL ∨ e = .EBADF

/-- The poll fails only in ways that are noticed; without extra events, the event
of the function can be made, and it is not pending when a wait is over. -/
def ReadCall.Benign (c : ReadCall) (extra : Option Ev) (s' : Watched) :
    (e : Request) → Answer e → Prop
  | .poll .., r => ∀ e, r = .error e → e = .EINTR ∨ c.Notices e
  | .static _, r => extra = none → ∃ u, r = .ok u
  | .wait ev, _ => extra = none → s'.os.status ev ≠ .pending
  | _, _ => True

def ReadCall.answer (c : ReadCall) (extra : Option Ev) (s : Watched) (e : Request) (r : Answer e)
    (s' : Watched) : Prop :=
  c.Benign extra s' e r ∧ s.answer e r s'

def rule (c : ReadCall) (fd : Fd) (extra : Option Ev) : Rule Request Answer Watched :=
  alone (c.answer extra) fun s e => IsRead e → Cleared fd c.site s

/-! ### Before the wait -/

def Valid (fd : Fd) (s : Watched) : Prop := (s.os.nonblock fd).isSome = true

section
variable {c : ReadCall}

theorem Valid.answer (hs : Valid fd s) (h : s.answer e r s') :
    Valid fd s' := by
  cases e with
  | poll | init =>
    obtain rfl : s' = _ := h
    exact hs
  | _ => exact Os.answer_valid h.1 hs

theorem wp_fdValid (hQ : ∀ v, (b.holds fd = true → Valid fd s → v = true) →
      (v = true → b.holds fd = true) → Q (.ok v) s) :
    (pthUtilFdValid b fd).wp (rule c fd extra) s Q := by
  unfold pthUtilFdValid
  cases hb : b.holds fd with
  | false => exact hQ false (fun h => by simp [hb] at h) nofun
  | true =>
    refine ⟨nofun, fun r s' hr => ?_⟩
    obtain ⟨⟨rfl, hos⟩, hpolled, hmade⟩ := hr.2
    obtain rfl : s' = s := Watched.ext hos hpolled hmade
    exact hQ _ (fun _ h => h) fun _ => hb

/-- `pth_fdmode(fd, PTH_FDMODE_POLL)` -/
theorem wp_fdmode (hs : s.os.nonblock fd = some false)
    (hQ : Q (.ok .block) s) : (pthFdmode fd .poll).wp (rule c fd extra) s Q := by
  refine ⟨nofun, fun r s' hr => ?_⟩
  obtain ⟨⟨rfl, hos⟩, hpolled, hmade⟩ := hr.2
  obtain rfl : s' = s := Watched.ext hos hpolled hmade
  rw [hs]
  exact hQ

theorem wp_poll (hs : Valid fd s)
    (hok : ∀ r s', Valid fd s' → s'.polled = some (fd, .readable, r) →
      (∀ e, r = .error e → c.Notices e) → Q (.ok r) s')
    (hfuel : ∀ s', Q (.error .fuel) s') :
    (retry b (poll fd .readable)).wp (rule c fd extra) s Q := by
  refine wp_retry (Valid fd) hs (fun s hs => ?_) fun s _ => hfuel s
  refine ⟨nofun, fun r s' hr => ?_⟩
  have hs' := hs.answer hr.2
  obtain rfl : s' = _ := hr.2
  cases r with
  | ok n => exact hok (.ok n) _ hs' rfl nofun
  | error e =>
    have hnoticed : e ≠ .EINTR → ∀ e', (Res.error e : Res Nat) = .error e' → c.Notices e' := by
      rintro hne _ ⟨⟩
      exact (hr.1 e rfl).resolve_left hne
    cases e with
    | EINTR => exact hs'
    | _ => exact hok _ _ hs' rfl (hnoticed nofun)

theorem wp_enter {f : FdMode → Code (Res Bytes)} (hs : s.os.nonblock fd = some false)
    (hf : b.holds fd = true → (f .block).wp (rule c fd extra) s fun _ _ => True) :
    (do
      if !(← pthUtilFdValid b fd) then return Res.error Errno.EBADF
      let fdmode ← pthFdmode fd .poll
      if fdmode = .error then return Res.error Errno.EBADF
      f fdmode : Code (Res Bytes)).wp (rule c fd extra) s fun _ _ => True := by
  refine wp_seq <| wp_fdValid fun v _ hv => ?_
  cases v with
  | false => trivial
  | true =>
    exact wp_seq <| wp_fdmode hs (hf (hv rfl))

end

/-! ### The wait -/

def Made (fd : Fd) (site : Site) (s : Watched) : Prop :=
  s.made = some (.static site, .fd fd .readable)

section
variable {c : ReadCall}

theorem Made.cleared (hs : Made fd site s) (h : s.os.status (.static site) ≠ .pending) :
    Cleared fd site s := by
  refine .inr ⟨hs, ?_⟩
  cases hst : s.os.status (.static site) with
  | pending => exact absurd hst h
  | occurred => exact .inl rfl
  | failed => exact .inr rfl

theorem wp_eventFd (hb : b.holds fd = true)
    (hs : Valid fd s) (hok : ∀ s', Made fd site s' → Q (.ok (.ok (.static site))) s')
    (herror : extra ≠ none → ∀ e s', Q (.ok (.error e)) s') :
    (pthEventFd b site fd .readable).wp (rule c fd extra) s Q := by
  rw [pthEventFd, wp_bind]
  refine ⟨nofun, fun r s₁ hr => ?_⟩
  have hs₁ := hs.answer hr.2
  cases r with
  | error e =>
    refine herror (fun hx => ?_) e s₁
    obtain ⟨u, hu⟩ := hr.1 hx
    cases hu
  | ok =>
    refine wp_seq <| wp_fdValid fun v hv _ => ?_
    obtain rfl := hv hb hs₁
    refine wp_seq <| ⟨nofun, fun _ s₂ hr₂ => hok s₂ ?_⟩
    obtain rfl : s₂ = _ := hr₂.2
    rfl

theorem wp_concat (hs : Made fd site s)
    (hQ : ∀ s', Made fd site s' → Q (.ok ()) s') :
    (pthEventConcat (some ev) (some ring)).wp (rule c fd extra) s Q :=
  ⟨nofun, fun _ s' hr => hQ s' (hr.2.2.2.trans hs)⟩

theorem wp_wait (hs : Made fd site s)
    (hok : ∀ s', Made fd site s' → (extra = none → s'.os.status ev ≠ .pending) → Q (.ok ()) s')
    (hcancel : ∀ s', Q (.error .cancelled) s') :
    (pthWait (some ev)).wp (rule c fd extra) s Q := by
  refine ⟨nofun, fun r s' hr => ?_⟩
  cases r with
  | returned => exact hok s' (hr.2.2.2.trans hs) hr.1
  | cancelled => exact hcancel s'

/-- With extra events: is it the event of the function that has occurred? -/
theorem wp_occurred (hs : Made fd site s)
    (hQ : ∀ v s', (v = true → Cleared fd site s') → Q (.ok v) s') :
    (do
      pthEventIsolate (some (.static site))
      return (← pthEventStatus (some (.static site))) = .occurred : Code Bool).wp
        (rule c fd extra) s Q := by
  refine wp_seq <| ⟨nofun, fun _ s₁ hr => ?_⟩
  refine wp_seq <| ⟨nofun, fun st s₂ hr₂ => ?_⟩
  obtain ⟨⟨rfl, hos⟩, -, hmade⟩ := hr₂.2
  have hs₂ : Made fd site s₂ := (hmade.trans hr.2.2.2).trans hs
  refine hQ _ s₂ fun hv => hs₂.cleared ?_
  rw [hos, of_decide_eq_true hv]
  exact nofun

theorem wp_waitFd (hb : b.holds fd = true)
    (hs : Valid fd s) (hQ : ∀ v s', (v = true → Cleared fd site s') → Q (.ok v) s')
    (hcancel : ∀ s', Q (.error .cancelled) s') :
    (waitFd b site fd .readable extra).wp (rule c fd extra) s Q := by
  rw [waitFd, wp_bind]
  refine wp_eventFd hb hs (fun s₁ hs₁ => ?_) fun hx e s₁ => ?_
  · cases extra with
    | none =>
      simp only [andThen_ok, waitWith, Option.isSome_none, Bool.false_eq_true,
        if_false, wp_bind]
      refine wp_wait hs₁ (fun s₂ hs₂ hst => ?_) hcancel
      exact hQ true s₂ fun _ => hs₂.cleared (hst rfl)
    | some =>
      simp only [andThen_ok, waitWith, Option.isSome_some, if_true, wp_bind]
      refine wp_concat hs₁ fun s₂ hs₂ => ?_
      exact wp_seq <| wp_wait hs₂ (fun s₃ hs₃ _ => wp_occurred hs₃ hQ) hcancel
  · -- `pth_event` has failed: only with extra events is this noticed
    cases extra with
    | none => exact absurd rfl hx
    | some => exact hQ false s₁ nofun

end

/-! ### The three functions -/

section
variable {c : ReadCall}
  {call : Code (Res Bytes)}

theorem wp_call (hs : Cleared fd c.site s) (hcall : call.Only IsRead fun e => e = .fuel) :
    (retry b call).wp (rule c fd extra) s fun _ _ => True := by
  refine (only_retry hcall rfl).wp (fun e s he hs => ?_) hs
    (fun _ _ _ => trivial) fun _ _ _ _ => trivial
  refine ⟨fun _ => hs, fun r s' hr => ?_⟩
  have hsame : s' = s := by
    cases e with
    | read | readv | recvfrom => exact Watched.ext hr.2.1 hr.2.2.1 hr.2.2.2
    | _ => exact False.elim he
  exact hsame ▸ hs

theorem wp_waitThenCall (hb : b.holds fd = true) (hs : Valid fd s)
    (hcall : call.Only IsRead fun e => e = .fuel) :
    (do
      if !(← waitFd b c.site fd .readable extra) then return .error .EINTR
      retry b call : Code (Res Bytes)).wp (rule c fd extra) s fun _ _ => True := by
  refine wp_seq <| wp_waitFd hb hs (fun v s' hv => ?_) fun _ => trivial
  cases v with
  | false => trivial
  | true => exact wp_call (hv rfl) hcall

/-- The poll of `pth_read_ev` and `pth_recvfrom_ev`, and what follows. -/
theorem wp_polled (hc : ∀ e, c.Notices e → e = .EINVAL ∨ e = .EBADF) (hb : b.holds fd = true)
    (hs : Valid fd s) (hcall : call.Only IsRead fun e => e = .fuel) :
    (do
      match ← retry b (poll fd .readable) with
      | .error .EINVAL => return .error .EINVAL
      | .error .EBADF => return .error .EBADF
      | n =>
        if n = .ok 0 then
          if !(← waitFd b c.site fd .readable extra) then return .error .EINTR
      retry b call : Code (Res Bytes)).wp (rule c fd extra) s fun _ _ => True := by
  refine wp_seq <| wp_poll hs (fun n s₁ hs₁ hpolled hn => ?_) fun _ => trivial
  simp only [andThen_ok]
  split
  · trivial
  · trivial
  case h_3 hne₁ hne₂ =>
    split
    case isTrue => exact wp_waitThenCall hb hs₁ hcall
    case isFalse hzero =>
      cases n with
      | ok n =>
        have hpos : n ≠ 0 := fun h => hzero (by rw [h])
        exact wp_call (.inl ⟨n, hpolled, Nat.pos_of_ne_zero hpos⟩) hcall
      | error e =>
        obtain rfl | rfl := hc e (hn e rfl)
        · exact absurd rfl hne₁
        · exact absurd rfl hne₂

theorem wp_pthReadEv (hs : s.os.nonblock fd = some false) :
    (pthReadEv b fd nbytes extra).wp (rule (.read nbytes) fd extra) s fun _ _ => True := by
  have hvalid : Valid fd s := by simp [Valid, hs]
  unfold pthReadEv
  split
  · trivial
  · refine wp_enter hs fun hb => ?_
    exact wp_polled (fun _ h => h) hb hvalid (only_perform trivial)

theorem wp_pthRecvfromEv (hs : s.os.nonblock fd = some false) :
    (pthRecvfromEv b fd nbytes extra).wp (rule (.recvfrom nbytes) fd extra) s fun _ _ => True := by
  have hvalid : Valid fd s := by simp [Valid, hs]
  unfold pthRecvfromEv
  split
  · trivial
  · refine wp_enter hs fun hb => ?_
    refine wp_seq <| wp_fdValid fun v hv _ => ?_
    obtain rfl := hv hb hvalid
    exact wp_polled (fun _ h => h) hb hvalid (only_perform trivial)

/-- `pth_readv_ev` waits after every error of the poll. -/
theorem wp_pthReadvEv (hs : s.os.nonblock fd = some false) :
    (pthReadvEv b fd iov extra).wp (rule (.readv iov) fd extra) s fun _ _ => True := by
  have hvalid : Valid fd s := by simp [Valid, hs]
  unfold pthReadvEv
  split
  · trivial
  · refine wp_enter hs fun hb => ?_
    refine wp_seq <| wp_poll hvalid (fun n s₁ hs₁ hpolled _ => ?_) fun _ => trivial
    rw [andThen_ok]
    split
    case isTrue => exact wp_waitThenCall hb hs₁ (only_perform trivial)
    case isFalse hready =>
      cases n with
      | ok n =>
        have hpos : 0 < n := by simpa [notReady, Nat.pos_iff_ne_zero] using hready
        exact wp_call (.inl ⟨n, hpolled, hpos⟩) (only_perform trivial)
      | error => exact absurd rfl hready

theorem ReadCall.wp_code (c : ReadCall) (hs : s.os.nonblock fd = some false) :
    (c.code b fd extra).wp (rule c fd extra) s fun _ _ => True := by
  cases c with
  | read => exact wp_pthReadEv hs
  | readv => exact wp_pthReadvEv hs
  | recvfrom => exact wp_pthRecvfromEv hs

/-- In every run with benign answers, on a descriptor in blocking mode: a read is
issued only if the poll has reported the descriptor, or its event is `OCCURRED` or
`FAILED`. -/
theorem read_cleared (c : ReadCall) {e : Request} {k : Answer e → Code (Res Bytes)}
    (hs : s.os.nonblock fd = some false)
    (h : Leads (c.answer extra) (c.code b fd extra) s (.ask e k) s') (he : IsRead e) :
    Cleared fd c.site s' :=
  h.asked (c.wp_code hs) he

end

def watch (c : Script) (s : Watched) : (e : Request) → Answer e × Watched
  | .poll fd goal =>
    (c.pick s.os (.poll fd goal), { s with polled := some (fd, goal, c.pick s.os (.poll fd goal)) })
  | .init ev args => ((), { s with made := some (ev, args) })
  | e => ((c.reply s.os e).1, { s with os := (c.reply s.os e).2 })

theorem watch_answer (c : Script) (s : Watched) (e : Request) :
    s.answer e (watch c s e).1 (watch c s e).2 := by
  cases e with
  | poll | init => rfl
  | _ => exact ⟨c.answer s.os _, rfl, rfl⟩

def polls (n : Res Nat) (st : Status) : Script where
  pick s
    | .poll .. => n
    | .wait _ => .returned
    | e => bleak.pick s e
  status _ _ := st

def stopsAtRead (_ : Watched) : Request → Bool
  | .read .. => true
  | _ => false

theorem polls_benign (c : ReadCall) (s : Watched) (e : Request) :
    c.answer none s e (watch (polls (.ok 0) .occurred) s e).1
      (watch (polls (.ok 0) .occurred) s e).2 := by
  refine ⟨?_, watch_answer _ s e⟩
  cases e with
  | poll => exact nofun
  | static => exact fun _ => ⟨(), rfl⟩
  | wait => exact fun _ => nofun
  | _ => trivial

theorem read_cleared_occurred :
    ∃ k s', Leads Watched.answer (pthReadEv pollBuild 3 4 none) ⟨oneOpen, none, none⟩
      (.ask (.read 3 4) k) s' ∧ Cleared 3 .read s' := by
  have hrun := leads_play
    (fun s e (_ : stopsAtRead s e = false) => polls_benign (.read 4) s e) 40
    (pthReadEv pollBuild 3 4 none) ⟨oneOpen, none, none⟩
  have hleads := leads_play
    (fun s e (_ : stopsAtRead s e = false) => watch_answer (polls (.ok 0) .occurred) s e) 40
    (pthReadEv pollBuild 3 4 none) ⟨oneOpen, none, none⟩
  exact ⟨_, _, hleads, read_cleared (.read 4) rfl hrun trivial⟩

/-- Reads that may block: after a wait that a cancellation request has ended, with
the event still pending, and after a poll that has failed for want of memory. -/
theorem read_uncleared :
    (∃ k s', Leads Watched.answer (pthReadEv pollBuild 3 4 none) ⟨oneOpen, none, none⟩
      (.ask (.read 3 4) k) s' ∧ s'.polled = some (3, .readable, .ok 0) ∧ ¬ Cleared 3 .read s') ∧
    ∃ k s', Leads Watched.answer (pthReadEv pollBuild 3 4 none) ⟨oneOpen, none, none⟩
      (.ask (.read 3 4) k) s' ∧ s'.polled = some (3, .readable, .error .ENOMEM) ∧
        ¬ Cleared 3 .read s' := by
  have hleads (c : Script) := leads_play
    (fun s e (_ : stopsAtRead s e = false) => watch_answer c s e) 40
    (pthReadEv pollBuild 3 4 none) ⟨oneOpen, none, none⟩
  refine ⟨⟨_, _, hleads (polls (.ok 0) .pending), rfl, ?_⟩,
    _, _, hleads (polls (.error .ENOMEM) .pending), rfl, ?_⟩
  · rintro (⟨n, hn, hpos⟩ | ⟨-, hst⟩)
    · cases hn
      cases hpos
    · cases hst with
      | inl h => cases h
      | inr h => cases h
  · rintro (⟨n, hn, -⟩ | ⟨hmade, -⟩)
    · cases hn
    · cases hmade

end Guarded

end Io

end GnuPth
