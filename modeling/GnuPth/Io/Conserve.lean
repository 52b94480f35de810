import GnuPth.Io.Os

/-!
# The write family conserves data

A kernel that keeps the bytes it accepts, against the loop of `pth_write_ev`,
`pth_writev_ev` and `pth_sendto_ev`: a running total, the data that is left, and
its length, after every partial write. An extra event that ends a wait after a
partial write ends the call with -1.
-/

namespace GnuPth

namespace Io

namespace Conserve

open Program

@[ext] structure Sink where
  os : Os
  -- history variable: what the kernel has accepted
  accepted : Bytes

/-- The kernel accepts as many bytes as it says, from the front of what it was
given. -/
def Sink.answer (s : Sink) : (e : Request) → Answer e → Sink → Prop
  | .write _ buf, .ok n, s' | .sendto _ buf, .ok n, s' =>
    n ≤ buf.length ∧ s' = { s with accepted := s.accepted ++ buf.take n }
  | .writev _ iov, .ok n, s' =>
    n ≤ iov.flatten.length ∧ s' = { s with accepted := s.accepted ++ iov.flatten.take n }
  | e, r, s' => s.os.answer e r s'.os ∧ s'.accepted = s.accepted

inductive WriteCall
  | write (buf : Bytes)
  | writev (iov : List Bytes)
  | sendto (buf : Bytes)

def WriteCall.data : WriteCall → Bytes
  | .write buf | .sendto buf => buf
  | .writev iov => iov.flatten

def WriteCall.site : WriteCall → Site
  | .write _ => .write
  | .writev _ => .writev
  | .sendto _ => .sendto

def WriteCall.code (b : Build) (fd : Fd) (extra : Option Ev) : WriteCall → Code (Res Nat)
  | .write buf => pthWriteEv b fd buf extra
  | .writev iov => pthWritevEv b fd iov extra
  | .sendto buf => pthSendtoEv b fd buf extra

/-- With extra events, once there are accepted bytes: the event of the function
can be made, and it has occurred when a wait is over. -/
def Steady (site : Site) (extra : Option Ev) (s : Sink) (e : Request) (r : Answer e) (s' : Sink) :
    Prop :=
  extra.isSome = true → s.accepted ≠ [] →
    match e, r with
    | .wait _, _ => s'.os.status (.static site) = .occurred
    | .static _, r => ∃ u, r = .ok u
    | _, _ => True

def steadyAnswer (site : Site) (extra : Option Ev) (s : Sink) (e : Request) (r : Answer e)
    (s' : Sink) : Prop :=
  Steady site extra s e r s' ∧ s.answer e r s'

def rule (site : Site) (extra : Option Ev) (data : Bytes) : Rule Request Answer Sink :=
  alone (steadyAnswer site extra) fun s _ => s.accepted <+: data

def Agrees (data : Bytes) : Except Stop (Res Nat) → Sink → Prop
  | .ok (.ok n), s => s.accepted <+: data ∧ n = s.accepted.length
  | .ok (.error _), s => s.accepted = []
  | .error _, s => s.accepted <+: data

/-! ### Requests that transfer nothing -/

def Quiet : Request → Prop
  | .write .. | .writev .. | .sendto .. => False
  | _ => True

structure Held (fd : Fd) (acc : Bytes) (s : Sink) : Prop where
  accepted : s.accepted = acc
  valid : (s.os.nonblock fd).isSome = true

section
variable {data : Bytes}
  {s : Sink}

theorem answer_quiet (h : s.answer e r s') (he : Quiet e) :
    s.os.answer e r s'.os ∧ s'.accepted = s.accepted := by
  cases e with
  | write | writev | sendto => cases he
  | _ => exact h

theorem Held.isPrefix (hs : Held fd acc s) (hacc : acc <+: data) : s.accepted <+: data := by
  rw [hs.accepted]
  exact hacc

theorem Held.quiet (hs : Held fd acc s) (h : s.answer e r s')
    (he : Quiet e) : Held fd acc s' := by
  obtain ⟨ho, ha⟩ := answer_quiet h he
  exact ⟨ha.trans hs.accepted, Os.answer_valid ho hs.valid⟩

theorem wp_quiet {p : Code α}
    (hs : Held fd acc s) (hacc : acc <+: data) (h : p.Only Quiet H)
    (hok : ∀ a s', Held fd acc s' → Q (.ok a) s')
    (herror : ∀ e s', H e → Held fd acc s' → Q (.error e) s') :
    p.wp (rule site extra data) s Q := by
  refine h.wp (fun e s₁ he hs₁ => ?_) hs hok herror
  exact ⟨hs₁.isPrefix hacc, fun r s₂ hr => hs₁.quiet hr.2 he⟩

theorem wp_plain {p : Code α} (hs : Held fd acc s)
    (hacc : acc <+: data) (h : p.Only Quiet fun _ => False)
    (hok : ∀ a s', Held fd acc s' → Q (.ok a) s') : p.wp (rule site extra data) s Q :=
  wp_quiet hs hacc h hok fun _ _ h => h.elim

theorem wp_poll (hs : Held fd [] s)
    (hok : ∀ r s', Held fd [] s' → Q (.ok r) s') (herror : ∀ s', Held fd [] s' → Q (.error .fuel) s') :
    (retry b (poll fd goal)).wp (rule site extra data) s Q := by
  refine wp_quiet hs List.nil_prefix
    (only_retry (only_perform trivial) rfl) hok ?_
  rintro _ s' rfl hs'
  exact herror s' hs'

theorem wp_fdValid (hacc : s.accepted <+: data)
    (hQ : ∀ v, (v = true → b.holds fd = true ∧ (s.os.nonblock fd).isSome = true) →
      (b.holds fd = true → (s.os.nonblock fd).isSome = true → v = true) → Q (.ok v) s) :
    (pthUtilFdValid b fd).wp (rule site extra data) s Q := by
  unfold pthUtilFdValid
  cases hb : b.holds fd with
  | false => exact hQ false nofun fun h => by simp [hb] at h
  | true =>
    refine ⟨hacc, fun r s' hr => ?_⟩
    obtain ⟨⟨rfl, hos⟩, ha⟩ := hr.2
    obtain rfl : s' = s := Sink.ext hos ha
    exact hQ _ (fun h => ⟨hb, h⟩) fun _ h => h

theorem wp_eventFd (hb : b.holds fd = true)
    (hs : Held fd acc s) (hacc : acc <+: data)
    (hok : ∀ s', Held fd acc s' → Q (.ok (.ok (.static site))) s')
    (herror : (extra.isSome = true → acc = []) → ∀ e s', Held fd acc s' → Q (.ok (.error e)) s') :
    (pthEventFd b site fd goal).wp (rule site extra data) s Q := by
  rw [pthEventFd, wp_bind]
  refine ⟨hs.isPrefix hacc, fun r s₁ hr => ?_⟩
  have hs₁ := hs.quiet hr.2 trivial
  cases r with
  | error e =>
    refine herror (fun hx => ?_) e s₁ hs₁
    by_contra hne
    obtain ⟨u, hu⟩ := hr.1 hx (by rw [hs.accepted]; exact hne)
    cases hu
  | ok =>
    refine wp_seq <| wp_fdValid (hs₁.isPrefix hacc) fun v _ hv => ?_
    obtain rfl := hv hb hs₁.valid
    exact wp_seq <| wp_plain hs₁ hacc (only_perform trivial) fun _ s₂ hs₂ => hok s₂ hs₂

theorem wp_wait (hs : Held fd acc s)
    (hacc : acc <+: data)
    (hok : ∀ s', Held fd acc s' →
      (extra.isSome = true → acc ≠ [] → s'.os.status (.static site) = .occurred) → Q (.ok ()) s')
    (hcancel : ∀ s', Held fd acc s' → Q (.error .cancelled) s') :
    (pthWait (some ev)).wp (rule site extra data) s Q := by
  refine ⟨hs.isPrefix hacc, fun r s₁ hr => ?_⟩
  have hs₁ := hs.quiet hr.2 trivial
  cases r with
  | returned => exact hok s₁ hs₁ fun hx hne => hr.1 hx (by rw [hs.accepted]; exact hne)
  | cancelled => exact hcancel s₁ hs₁

theorem wp_isolate (hs : Held fd acc s)
    (hacc : acc <+: data)
    (hQ : ∀ s', Held fd acc s' → s'.os.status = s.os.status → Q (.ok ()) s') :
    (pthEventIsolate (some ev)).wp (rule site extra data) s Q := by
  refine ⟨hs.isPrefix hacc, fun r s' hr => ?_⟩
  have hos : s'.os = _ := hr.2.1
  exact hQ s' (hs.quiet hr.2 trivial) (by rw [hos])

theorem wp_status (hs : Held fd acc s)
    (hacc : acc <+: data) (hQ : ∀ s', Held fd acc s' → Q (.ok (s.os.status ev)) s') :
    (pthEventStatus (some ev)).wp (rule site extra data) s Q := by
  refine ⟨hs.isPrefix hacc, fun r s' hr => ?_⟩
  obtain rfl : r = s.os.status ev := hr.2.1.1
  exact hQ s' (hs.quiet hr.2 trivial)

/-- Without extra events a wait that comes back is taken for a success; with
extra events it is one if the event of the function has occurred. -/
theorem wp_waitFd (hb : b.holds fd = true)
    (hs : Held fd acc s) (hacc : acc <+: data)
    (hQ : ∀ v s', Held fd acc s' → (acc ≠ [] → v = true) → Q (.ok v) s')
    (hcancel : ∀ s', Held fd acc s' → Q (.error .cancelled) s') :
    (waitFd b site fd goal extra).wp (rule site extra data) s Q := by
  rw [waitFd, wp_bind]
  refine wp_eventFd hb hs hacc (fun s₁ hs₁ => ?_) fun hx e s₁ hs₁ => ?_
  · cases extra with
    | none =>
      simp only [andThen_ok, waitWith, Option.isSome_none, Bool.false_eq_true, if_false,
        wp_bind]
      exact wp_wait hs₁ hacc (fun s₂ hs₂ _ => hQ true s₂ hs₂ fun _ => rfl) hcancel
    | some =>
      simp only [andThen_ok, waitWith, Option.isSome_some, if_true, wp_bind]
      refine wp_plain hs₁ hacc (only_perform trivial) fun _ s₂ hs₂ => ?_
      refine wp_seq <| wp_wait hs₂ hacc (fun s₃ hs₃ hst => ?_) hcancel
      refine wp_seq <| wp_isolate hs₃ hacc fun s₄ hs₄ hst₄ => ?_
      refine wp_seq <| wp_status hs₄ hacc fun s₅ hs₅ => hQ _ s₅ hs₅ fun hne => ?_
      rw [hst₄, hst rfl hne]
      rfl
  · cases extra with
    | none => exact hQ true s₁ hs₁ fun _ => rfl
    | some => exact hQ false s₁ hs₁ fun hne => absurd (hx rfl) hne

end

/-! ### The loop -/

/-- What the loop needs to know of its system call: it takes from the front of
`flat rest`, and `advance` drops as much. -/
structure Carries {δ : Type} (k : WriteKind δ) (flat : δ → Bytes) (extra : Option Ev)
    (data : Bytes) : Prop where
  advance : ∀ n rest, flat (k.advance n rest) = (flat rest).drop n
  call : ∀ {rest s} {Q : Except Stop (Res Nat) → Sink → Prop}, s.accepted <+: data →
    (∀ n, n ≤ (flat rest).length →
      Q (.ok (.ok n)) { s with accepted := s.accepted ++ (flat rest).take n }) →
    (∀ e, Q (.ok (.error e)) s) → (k.call rest).wp (rule k.site extra data) s Q

/-- The invariant of the loop: what was accepted and what is left make up the
data, and the two counters agree with them. -/
structure Partway {δ : Type} (fd : Fd) (flat : δ → Bytes) (data : Bytes) (w : Writing δ)
    (s : Sink) : Prop where
  whole : s.accepted ++ flat w.rest = data
  left : w.nbytes = (flat w.rest).length
  total : w.rv = s.accepted.length
  valid : (s.os.nonblock fd).isSome = true

def Leaves (fd : Fd) (data : Bytes) : Except Stop (LoopExit (Res Nat)) → Sink → Prop
  | .ok (.done rv), s => Agrees data (.ok rv) s ∧ (s.os.nonblock fd).isSome = true
  | .ok (.left _), s => s.accepted = []
  | .error _, s => s.accepted <+: data

section
variable {s : Sink}

theorem Partway.isPrefix (h : Partway fd flat data w s) : s.accepted <+: data :=
  ⟨flat w.rest, h.whole⟩

theorem Partway.held (h : Partway fd flat data w s) : Held fd s.accepted s := ⟨rfl, h.valid⟩

theorem Held.partway (hs : Held fd [] s) (hwhole : flat w.rest = data)
    (hleft : w.nbytes = (flat w.rest).length) (htotal : w.rv = 0) : Partway fd flat data w s := by
  refine ⟨?_, hleft, ?_, hs.valid⟩
  · rw [hs.accepted]
    exact hwhole
  · rw [hs.accepted]
    exact htotal

theorem Partway.advance (hk : Carries k flat extra data) (h : Partway fd flat data w s)
    (hn : n ≤ (flat w.rest).length) :
    Partway fd flat data ⟨.ok 0, k.advance n w.rest, w.nbytes - n, w.rv + n⟩
      { s with accepted := s.accepted ++ (flat w.rest).take n } := by
  refine ⟨?_, ?_, ?_, h.valid⟩
  · rw [hk.advance, List.append_assoc, List.take_append_drop]
    exact h.whole
  · rw [hk.advance, List.length_drop, h.left]
  · rw [List.length_append, List.length_take_of_le hn, h.total]

theorem wp_writeCall (hk : Carries k flat extra data) (hw : Partway fd flat data w s) :
    (writeCall b k w).wp (rule k.site extra data) s
      (Post.turn (Partway fd flat data) (Leaves fd data)) := by
  rw [writeCall, wp_bind]
  refine wp_retry (Partway fd flat data w) hw (fun s hw => ?_) fun s hw => hw.isPrefix
  refine hk.call hw.isPrefix (fun n hn => ?_) fun e => ?_
  · have hnext := hw.advance hk hn
    simp only [andThen_ok]
    split
    · exact hnext
    · exact ⟨⟨hnext.isPrefix, hnext.total⟩, hnext.valid⟩
  · have hdone : Leaves fd data (.ok (.done (if w.rv = 0 then .error e else .ok w.rv))) s := by
      refine ⟨?_, hw.valid⟩
      split
      case isTrue h => exact List.eq_nil_of_length_eq_zero (hw.total.symm.trans h)
      case isFalse => exact ⟨hw.isPrefix, hw.total⟩
    cases e with
    | EINTR => exact hw
    | _ => exact hdone

theorem wp_writeTurn (hb : b.holds fd = true) (hk : Carries k flat extra data)
    (hw : Partway fd flat data w s) :
    (writeTurn b k fd fdmode extra w).wp (rule k.site extra data) s
      (Post.turn (Partway fd flat data) (Leaves fd data)) := by
  unfold writeTurn
  split
  case isFalse => exact wp_writeCall hk hw
  case isTrue =>
    refine wp_seq <| wp_waitFd hb hw.held hw.isPrefix (fun v s₁ hs₁ hv => ?_) fun s₁ hs₁ =>
      hs₁.isPrefix hw.isPrefix
    have hw₁ : Partway fd flat data w s₁ := by
      refine ⟨?_, hw.left, ?_, hs₁.valid⟩
      · rw [hs₁.accepted]
        exact hw.whole
      · rw [hs₁.accepted]
        exact hw.total
    cases v with
    | true => exact wp_writeCall hk hw₁
    | false =>
      -- the call is given up, which it may be only at the start
      have hnil : s.accepted = [] := by
        by_contra hne
        cases hv hne
      refine wp_seq <| wp_plain hs₁ hw.isPrefix (only_fdmode trivial fun _ => trivial) fun _ s₂ hs₂ => ?_
      exact hs₂.accepted.trans hnil

theorem wp_restore (h : Agrees data (.ok rv) s)
    (hvalid : (s.os.nonblock fd).isSome = true) :
    (do
      let _ ← pthFdmode fd fdmode
      return rv : Code (Res Nat)).wp (rule site extra data) s (Agrees data) := by
  have hacc : s.accepted <+: data := by
    cases rv with
    | ok => exact h.1
    | error =>
      rw [show s.accepted = [] from h]
      exact List.nil_prefix
  refine wp_seq <| wp_plain ⟨rfl, hvalid⟩ hacc (only_fdmode trivial fun _ => trivial) fun _ s' hs' => ?_
  cases rv with
  | ok => exact ⟨hs'.isPrefix hacc, by rw [hs'.accepted]; exact h.2⟩
  | error => exact hs'.accepted.trans h

theorem wp_writeLoop (hb : b.holds fd = true) (hk : Carries k flat extra data)
    (hw : Partway fd flat data w s) :
    (writeLoop b k fd fdmode extra w).wp (rule k.site extra data) s (Agrees data) := by
  rw [writeLoop, wp_bind]
  refine wp_iterate (Partway fd flat data) hw (fun w s hw => ?_) fun _ s hw => hw.isPrefix
  refine (wp_writeTurn hb hk hw).mono fun r s' hr => ?_
  match r with
  | .error _ => exact hr
  | .ok (.inl w) => exact hr
  | .ok (.inr (.left e)) => exact hr
  | .ok (.inr (.done rv)) => exact wp_restore hr.1 hr.2

theorem wp_writeOnce (hk : Carries k flat extra data) (hs : Held fd [] s)
    (hrest : flat rest = data) :
    (writeOnce b fd fdmode (k.call rest)).wp (rule k.site extra data) s (Agrees data) := by
  have hnil : ∀ {s}, Held fd [] s → s.accepted <+: data := fun hs => hs.isPrefix List.nil_prefix
  rw [writeOnce, wp_bind]
  refine wp_retry (Held fd []) hs (fun s hs => ?_) fun s hs => hnil hs
  refine hk.call (hnil hs) (fun n hn => wp_restore ⟨?_, ?_⟩ hs.valid) fun e => ?_
  · rw [hs.accepted, hrest]
    exact List.take_prefix n data
  · rw [hs.accepted, List.nil_append, List.length_take_of_le hn]
  · cases e with
    | EINTR => exact hs
    | _ => exact wp_restore hs.accepted hs.valid

theorem wp_enter {f : FdMode → Code (Res Nat)} (hs : s.accepted = [])
    (hf : ∀ fdmode s', b.holds fd = true → Held fd [] s' →
      (f fdmode).wp (rule site extra data) s' (Agrees data)) :
    (do
      if !(← pthUtilFdValid b fd) then return Res.error Errno.EBADF
      let fdmode ← pthFdmode fd mode
      if fdmode = .error then return Res.error Errno.EBADF
      f fdmode : Code (Res Nat)).wp (rule site extra data) s (Agrees data) := by
  refine wp_seq <| wp_fdValid (by rw [hs]; exact List.nil_prefix) fun v hv _ => ?_
  cases v with
  | false => exact hs
  | true =>
    obtain ⟨hb, hvalid⟩ := hv rfl
    refine wp_seq <| wp_plain ⟨hs, hvalid⟩ List.nil_prefix (only_fdmode trivial fun _ => trivial) fun m s₁ hs₁ => ?_
    rw [andThen_ok]
    split
    · exact hs₁.accepted
    · exact hf m s₁ hb hs₁

end

/-! ### The three functions -/

section
variable {s : Sink}

theorem carries_write : Carries (writeKind fd) id extra data where
  advance _ _ := rfl
  call {rest s Q} hacc hok herror := by
    refine ⟨hacc, fun r s' hr => ?_⟩
    cases r with
    | ok n =>
      obtain ⟨hn, rfl⟩ := hr.2
      exact hok n hn
    | error e =>
      obtain rfl : s' = s := Sink.ext hr.2.1 hr.2.2
      exact herror e

theorem carries_sendto : Carries (sendtoKind fd) id extra data where
  advance _ _ := rfl
  call {rest s Q} hacc hok herror := by
    refine ⟨hacc, fun r s' hr => ?_⟩
    cases r with
    | ok n =>
      obtain ⟨hn, rfl⟩ := hr.2
      exact hok n hn
    | error e =>
      obtain rfl : s' = s := Sink.ext hr.2.1 hr.2.2
      exact herror e

theorem carries_writev : Carries (writevKind fd) List.flatten extra data where
  advance := iovAdvance_flatten
  call {rest s Q} hacc hok herror := by
    refine ⟨hacc, fun r s' hr => ?_⟩
    cases r with
    | ok n =>
      obtain ⟨hn, rfl⟩ := hr.2
      exact hok n hn
    | error e =>
      obtain rfl : s' = s := Sink.ext hr.2.1 hr.2.2
      exact herror e

theorem wp_pthWriteEv (hs : s.accepted = []) :
    (pthWriteEv b fd data extra).wp (rule .write extra data) s (Agrees data) := by
  unfold pthWriteEv
  split
  · exact ⟨by rw [hs]; exact List.nil_prefix, by rw [hs]; rfl⟩
  · refine wp_enter hs fun fdmode s hb hs => ?_
    split
    case isFalse => exact wp_writeOnce carries_write hs rfl
    case isTrue =>
      refine wp_seq <| wp_poll hs (fun n s₁ hs₁ => ?_) fun s₁ hs₁ => hs₁.isPrefix List.nil_prefix
      rw [andThen_ok]
      split
      · exact hs₁.accepted
      · exact hs₁.accepted
      · exact wp_writeLoop hb carries_write (hs₁.partway rfl rfl rfl)

theorem wp_pthSendtoEv (hs : s.accepted = []) :
    (pthSendtoEv b fd data extra).wp (rule .sendto extra data) s (Agrees data) := by
  unfold pthSendtoEv
  split
  · exact ⟨by rw [hs]; exact List.nil_prefix, by rw [hs]; rfl⟩
  · refine wp_enter hs fun fdmode s hb hs => ?_
    split
    case isFalse => exact wp_writeOnce carries_sendto hs rfl
    case isTrue =>
      refine wp_seq <| wp_fdValid (hs.isPrefix List.nil_prefix) fun v _ hv => ?_
      obtain rfl := hv hb hs.valid
      refine wp_seq <| wp_poll hs (fun n s₁ hs₁ => ?_) fun s₁ hs₁ => hs₁.isPrefix List.nil_prefix
      rw [andThen_ok]
      split
      · exact hs₁.accepted
      · exact hs₁.accepted
      · exact wp_writeLoop hb carries_sendto (hs₁.partway rfl rfl rfl)

theorem wp_pthWritevEv (hs : s.accepted = []) :
    (pthWritevEv b fd iov extra).wp (rule .writev extra iov.flatten) s (Agrees iov.flatten) := by
  unfold pthWritevEv
  split
  · exact hs
  · refine wp_enter hs fun fdmode s hb hs => ?_
    split
    case isFalse => exact wp_writeOnce carries_writev hs rfl
    case isTrue =>
      have hroom : ∀ room s, Held fd [] s → (do
          if !room then return Res.error Errno.ENOMEM
          let n ← retry b (poll fd .writeable)
          writeLoop b (writevKind fd) fd fdmode extra ⟨n, iov, iovBytes iov, 0⟩ :
            Code (Res Nat)).wp (rule .writev extra iov.flatten) s (Agrees iov.flatten) := by
        intro room s hs
        cases room with
        | false => exact hs.accepted
        | true =>
          refine wp_seq <| wp_poll hs (fun n s₁ hs₁ => ?_) fun s₁ hs₁ => hs₁.isPrefix List.nil_prefix
          exact wp_writeLoop hb carries_writev (hs₁.partway rfl (by simp [iovBytes]) rfl)
      split
      · exact wp_seq <| wp_plain hs List.nil_prefix (only_perform trivial) hroom
      · exact hroom true s hs

end

section
variable {s : Sink}

theorem WriteCall.wp_code (c : WriteCall) (hs : s.accepted = []) :
    (c.code b fd extra).wp (rule c.site extra c.data) s (Agrees c.data) := by
  cases c with
  | write => exact wp_pthWriteEv hs
  | writev => exact wp_pthWritevEv hs
  | sendto => exact wp_pthSendtoEv hs

/-- In every run in which the function's own event ends every wait after a
partial write: the bytes that the kernel has accepted are, at every moment, a
prefix of the caller's data, a result of at least 0 is their number, and after a
result of -1 there are none. -/
theorem write_conserves (c : WriteCall) {p : Code (Res Nat)} (hs : s.accepted = [])
    (h : Leads (steadyAnswer c.site extra) (c.code b fd extra) s p s') :
    s'.accepted <+: c.data ∧ (∀ n, p = .ret (.ok n) → n = s'.accepted.length) ∧
      ∀ e, p = .ret (.error e) → s'.accepted = [] := by
  have hwp := h.wp (c.wp_code hs)
  cases p with
  | ret r =>
    cases r with
    | ok => exact ⟨hwp.1, by rintro _ ⟨⟩; exact hwp.2, nofun⟩
    | error => 
      exact ⟨by rw [hwp]; exact List.nil_prefix, nofun, fun _ _ => hwp⟩
  | halt => exact ⟨hwp, nofun, nofun⟩
  | ask => exact ⟨hwp.1, nofun, nofun⟩

end

def feed (c : Script) (s : Sink) : (e : Request) → Answer e × Sink
  | .write fd buf =>
    match c.pick s.os (.write fd buf) with
    | .ok n =>
      (.ok (min n buf.length), { s with accepted := s.accepted ++ buf.take (min n buf.length) })
    | .error e => (.error e, s)
  | .sendto _ _ => (.error .EAGAIN, s)
  | .writev _ _ => (.error .EAGAIN, s)
  | e => ((c.reply s.os e).1, { s with os := (c.reply s.os e).2 })

theorem feed_answer (c : Script) (s : Sink) (e : Request) :
    s.answer e (feed c s e).1 (feed c s e).2 := by
  cases e with
  | write =>
    simp only [feed]
    split
    · exact ⟨Nat.min_le_right _ _, rfl⟩
    · exact ⟨rfl, rfl⟩
  | sendto | writev => exact ⟨rfl, rfl⟩
  | _ => exact ⟨c.answer s.os _, rfl⟩

/-- Two bytes at once, and the rest after a wait that leaves the events in `st`. -/
def twoFirst (st : Ev → Status) : Script where
  pick s
    | .poll .. => .ok 1
    | .write _ buf => .ok (if s.waits = 0 then 2 else buf.length)
    | .wait _ => .returned
    | e => bleak.pick s e
  status _ := st

theorem twoFirst_steady (s : Sink) (e : Request) :
    steadyAnswer .write (some (.extra 0)) s e (feed (twoFirst fun _ => .occurred) s e).1
      (feed (twoFirst fun _ => .occurred) s e).2 := by
  refine ⟨fun _ _ => ?_, feed_answer _ s e⟩
  cases e with
  | wait => rfl
  | static => exact ⟨(), rfl⟩
  | _ => trivial

theorem write_conserves_parts :
    ∃ s', Leads Sink.answer (pthWriteEv pollBuild 3 [7, 8, 9] (some (.extra 0))) ⟨oneOpen, []⟩
        (.ret (.ok 3)) s' ∧ s'.accepted <+: [7, 8, 9] ∧ 3 = s'.accepted.length := by
  have hrun := leads_play (fun s e (_ : false = false) => twoFirst_steady s e) 40
    (pthWriteEv pollBuild 3 [7, 8, 9] (some (.extra 0))) ⟨oneOpen, []⟩
  have hleads := leads_play (fun s e (_ : false = false) => feed_answer (twoFirst fun _ => .occurred) s e) 40
    (pthWriteEv pollBuild 3 [7, 8, 9] (some (.extra 0))) ⟨oneOpen, []⟩
  obtain ⟨hacc, hlength, -⟩ := write_conserves (.write [7, 8, 9]) rfl hrun
  exact ⟨_, hleads, hacc, hlength 3 rfl⟩

/-- Two bytes are accepted, then the wait for the rest is ended by the extra
event: the result is -1. -/
theorem write_loses_count :
    ∃ s', Leads Sink.answer (pthWriteEv pollBuild 3 [7, 8, 9] (some (.extra 0))) ⟨oneOpen, []⟩
      (.ret (.error .EINTR)) s' ∧ s'.accepted = [7, 8] :=
  ⟨_, leads_play (fun s e (_ : false = false) => feed_answer (twoFirst fun
    | .extra _ => .occurred
    | .static _ => .pending) s e) 40 _ _, rfl⟩

end Conserve

end Io

end GnuPth
