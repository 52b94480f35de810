import GnuPth.Io.Os
import GnuPth.Lib.Coop

/-!
# Concurrent calls on a descriptor in blocking mode

Threads of one scheduler that read and write one descriptor. A write that has to
wait does so with the descriptor in non-blocking mode, which is what every other
call then takes for the mode that the application has chosen.
-/

namespace GnuPth

namespace Io

namespace Blocking

open Function (update update_self)
open Program
open Transition

abbrev Tid := Nat

inductive Call
  | read (nbytes : Nat)
  | write (buf : Bytes)

def Call.isWrite : Call → Bool
  | .read _ => false
  | .write _ => true

def errnoOf {α : Type} : Res α → Option Errno
  | .ok _ => none
  | .error e => some e

def Call.code (b : Build) (fd : Fd) : Call → Code (Option Errno)
  | .read nbytes => do return errnoOf (← pthReadEv b fd nbytes none)
  | .write buf => do return errnoOf (← pthWriteEv b fd buf none)

structure Descriptor where
  nonblock : Bool
  readable : Bool
  writeable : Bool
  deriving DecidableEq, Repr

def Descriptor.ready (d : Descriptor) : Goal → Bool
  | .readable => d.readable
  | .writeable => d.writeable

def Again (e : Errno) : Prop := e = .EAGAIN ∨ e = .EWOULDBLOCK

/-- Reading or writing fails with `EAGAIN` exactly when the descriptor is in
non-blocking mode and not ready. What a transfer leaves of the readiness is open. -/
def Descriptor.transfer (d : Descriptor) (goal : Goal) {α : Type} (r : Res α) (d' : Descriptor) :
    Prop :=
  match r with
  | .ok _ => (d.nonblock = true → d.ready goal = true) ∧ d'.nonblock = d.nonblock
  | .error e => (Again e → d.nonblock = true ∧ d.ready goal = false) ∧ d' = d

def Descriptor.answer (d : Descriptor) : (e : Request) → Answer e → Descriptor → Prop
  | .getfl _, r, d' => r = some d.nonblock ∧ d' = d
  | .setfl _ nonblock, _, d' => d' = { d with nonblock }
  | .poll _ goal, r, d' => (∀ n, r = .ok n → (0 < n ↔ d.ready goal = true)) ∧ d' = d
  | .read .., r, d' => d.transfer .readable r d'
  | .write .., r, d' => d.transfer .writeable r d'
  | _, _, d' => d' = d

def threads (b : Build) (fd : Fd) : Coop Tid Call Request Answer Stop (Option Errno) Descriptor where
  code := Call.code b fd
  enter _ _ d := d
  answer _ := Descriptor.answer
  yields _ _
    | .wait _ => True
    | _ => False
  wake _ d
    | .wait _, r, d' => r = .returned ∧ d' = d
    | _, _, _ => False
  ends _ := False
  unwind _ d := d
  env d d' := d'.nonblock = d.nonblock

abbrev Threads := Pool Tid Call Request Answer Stop (Option Errno) Descriptor

/-- The application has left the descriptor in blocking mode. -/
def system (b : Build) (fd : Fd) : System Threads (Move Tid Call Request Answer Descriptor) :=
  (threads b fd).system fun d => d.nonblock = false

/-- No thread but `t` is in a write. -/
def NoOtherWrite (s : Threads) (t : Tid) : Prop :=
  ∀ u c p, u ≠ t → s.thread u = some (c, p) → c.isWrite = false

/-- While a write waits, no other call begins or goes on; a write that was woken
finds the descriptor writeable, and it stays so while a thread runs; the poll and
the event do not fail. -/
def Orderly (s : Threads) : Move Tid Call Request Answer Descriptor → Prop
  | .start t _ => NoOtherWrite s t
  | .resume t _ _ =>
    NoOtherWrite s t ∧
      ∀ c p, s.thread t = some (c, p) → c.isWrite = true → s.shared.writeable = true
  | .run _ (.poll ..) r => r ≠ .error .EINVAL ∧ r ≠ .error .EBADF
  | .run _ (.static _) r => ∀ e, r ≠ .error e
  | .env d => s.current ≠ none → s.shared.writeable = true → d.writeable = true
  | _ => True

/-! ### One thread -/

def Calm (d d' : Descriptor) : Prop :=
  d'.nonblock = d.nonblock ∧ (d.writeable = true → d'.writeable = true)

def Fine : (e : Request) → Answer e → Prop
  | .poll .., r => r ≠ .error .EINVAL ∧ r ≠ .error .EBADF
  | .static _, r => ∀ e, r ≠ .error e
  | _, _ => True

/-- A reader waits in blocking mode; a writer waits in non-blocking mode, and for
the descriptor to be writeable. -/
def rule (write : Bool) : Rule Request Answer Descriptor where
  req
    | .wait _, d, K => d.nonblock = write ∧
        ∀ d', d'.nonblock = write → (write = true → d'.writeable = true) → K .returned d'
    | e, d, K => ∀ r d₁ d', Fine e r → d.answer e r d₁ → Calm d₁ d' → K r d'
  mono {e d K K'} h hr := by
    cases e with
    | wait => exact ⟨hr.1, fun d' hm hw => h _ _ (hr.2 d' hm hw)⟩
    | _ => exact fun r d₁ d' hf ha hc => h _ _ (hr r d₁ d' hf ha hc)

/-- The call does not fail with `EAGAIN`, and leaves the descriptor in blocking
mode. -/
def Good {α : Type} (again : α → Prop) : Except Stop α → Descriptor → Prop
  | .ok r, d => ¬again r ∧ d.nonblock = false
  | .error _, _ => True

def Refused {α : Type} : Res α → Prop
  | .ok _ => False
  | .error e => Again e

section
variable {write : Bool} {d : Descriptor}

theorem Calm.refl : Calm d d := ⟨rfl, id⟩

theorem Calm.trans (h : Calm d₁ d₂) (h' : Calm d₂ d₃) : Calm d₁ d₃ :=
  ⟨h'.1.trans h.1, fun hw => h'.2 (h.2 hw)⟩

def Still : Request → Prop
  | .setfl .. | .read .. | .write .. | .wait _ => False
  | _ => True

theorem answer_still (h : d.answer e r d') (he : Still e) :
    d' = d := by
  cases e with
  | setfl | read | write | wait => cases he
  | getfl | poll => exact h.2
  | _ => exact h

theorem wp_still {p : Code α}
    (h : p.Only Still fun _ => False) (hok : ∀ a d', Calm d d' → Q (.ok a) d') :
    p.wp (rule write) d Q := by
  refine h.wp (fun e d₁ he hd => ?_) .refl hok fun _ _ h => h.elim
  have hnext : ∀ r d₂ d', Fine e r → d₁.answer e r d₂ → Calm d₂ d' → Calm d d' := by
    rintro r d₂ d' - ha hc
    rw [answer_still ha he] at hc
    exact hd.trans hc
  cases e with
  | wait => cases he
  | _ => exact hnext

theorem wp_getfl
    (h : ∀ d', Calm d d' → Q (.ok (some d.nonblock)) d') : (getfl fd).wp (rule write) d Q := by
  rintro r _ d' - ⟨rfl, rfl⟩ hc
  exact h d' hc

theorem wp_setfl
    (h : ∀ d', d'.nonblock = m → (d.writeable = true → d'.writeable = true) → Q (.ok ()) d') :
    (setfl fd m).wp (rule write) d Q := by
  rintro r _ d' - rfl hc
  exact h d' hc.1 hc.2

theorem wp_fdmode_nonblock (hd : d.nonblock = false)
    (hQ : ∀ d', d'.nonblock = true → Q (.ok .block) d') :
    (pthFdmode fd .nonblock).wp (rule write) d Q := by
  rw [pthFdmode, wp_bind]
  refine wp_getfl fun d₁ _ => ?_
  rw [hd]
  exact wp_seq <| wp_setfl fun d₂ hd₂ _ => hQ d₂ hd₂

theorem wp_fdmode_block (hQ : ∀ v d', d'.nonblock = false → Q (.ok v) d') :
    (pthFdmode fd .block).wp (rule write) d Q := by
  rw [pthFdmode, wp_bind]
  refine wp_getfl fun d₁ hc => ?_
  cases hm : d.nonblock with
  | false => exact hQ _ d₁ (hc.1.trans hm)
  | true =>
    exact wp_seq <| wp_setfl fun d₂ hd₂ _ => hQ _ d₂ hd₂

theorem wp_fdValid (hQ : ∀ d', Calm d d' → Q (.ok (b.holds fd)) d') :
    (pthUtilFdValid b fd).wp (rule write) d Q := by
  unfold pthUtilFdValid
  cases hb : b.holds fd with
  | false =>
    rw [hb] at hQ
    exact hQ d .refl
  | true =>
    rw [hb] at hQ
    exact wp_seq <| wp_getfl hQ

theorem wp_poll (hd : d.nonblock = m)
    (hok : ∀ r d', r ≠ .error .EINVAL → r ≠ .error .EBADF → d'.nonblock = m →
      (notReady r = false → d'.writeable = true) → Q (.ok r) d')
    (hfuel : ∀ d', Q (.error .fuel) d') :
    (retry b (poll fd .writeable)).wp (rule write) d Q := by
  refine wp_retry (fun d => d.nonblock = m) hd (fun d hd => ?_) fun d _ => hfuel d
  rintro r _ d' ⟨hinval, hbadf⟩ ⟨hready, rfl⟩ hc
  have hd' : d'.nonblock = m := hc.1.trans hd
  match r with
  | .ok n =>
    refine hok _ d' hinval hbadf hd' fun hn => hc.2 ((hready n rfl).mp ?_)
    simp only [notReady, decide_eq_false_iff_not] at hn
    omega
  | .error e =>
    cases e with
    | EINTR => exact hd'
    | _ => exact hok _ d' hinval hbadf hd' nofun

theorem wp_waitFd (hb : b.holds fd = true) (hd : d.nonblock = write)
    (hQ : ∀ d', d'.nonblock = write → (write = true → d'.writeable = true) → Q (.ok true) d') :
    (waitFd b site fd goal none).wp (rule write) d Q := by
  rw [waitFd, pthEventFd]
  simp only [wp_bind]
  intro r d₁ d₂ hfine ha hc
  obtain rfl : d₁ = d := answer_still ha trivial
  cases r with
  | error e => exact absurd rfl (hfine e)
  | ok =>
    refine wp_seq <| wp_fdValid fun d₃ hc₃ => ?_
    rw [hb]
    refine wp_seq <| wp_still (only_perform trivial) fun _ d₄ hc₄ => ?_
    have hmode : d₄.nonblock = write := ((hc.trans hc₃).trans hc₄).1.trans hd
    exact ⟨hmode, hQ⟩

/-! ### Reading -/

theorem wp_read (hd : d.nonblock = false) :
    (retry b (read fd nbytes)).wp (rule write) d (Good Refused) := by
  refine wp_retry (fun d => d.nonblock = false) hd (fun d hd => ?_) fun _ _ => trivial
  rintro r d₁ d' - ha hc
  match r with
  | .ok bs => exact ⟨id, (hc.1.trans ha.2).trans hd⟩
  | .error e =>
    obtain ⟨hagain, rfl⟩ := ha
    have hd' : d'.nonblock = false := hc.1.trans hd
    have hno : ¬Again e := fun h => by
      rw [(hagain h).1] at hd
      cases hd
    cases e with
    | EINTR => exact hd'
    | _ => exact ⟨hno, hd'⟩

theorem not_again (h₁ : e ≠ .EAGAIN) (h₂ : e ≠ .EWOULDBLOCK) : ¬Again e :=
  fun h => h.elim h₁ h₂

theorem wp_enter {f : FdMode → Code (Res α)} (hd : d.nonblock = false)
    (hf : ∀ d', b.holds fd = true → d'.nonblock = false →
      (pthFdmode fd mode).wp (rule write) d' fun r d =>
        match r with
        | .ok fdmode => fdmode = .block ∧ (f .block).wp (rule write) d (Good Refused)
        | .error _ => True) :
    (do
      if !(← pthUtilFdValid b fd) then return Res.error Errno.EBADF
      let fdmode ← pthFdmode fd mode
      if fdmode = .error then return Res.error Errno.EBADF
      f fdmode : Code (Res α)).wp (rule write) d (Good Refused) := by
  refine wp_seq <| wp_fdValid fun d₁ hc₁ => ?_
  have hd₁ : d₁.nonblock = false := hc₁.1.trans hd
  cases hb : b.holds fd with
  | false => exact ⟨not_again nofun nofun, hd₁⟩
  | true =>
    refine wp_seq <| (hf d₁ hb hd₁).mono fun r d₂ hr => ?_
    cases r with
    | error => trivial
    | ok =>
      obtain ⟨rfl, hwp⟩ := hr
      exact hwp

theorem wp_pthReadEv (hd : d.nonblock = false) :
    (pthReadEv b fd nbytes none).wp (rule false) d (Good Refused) := by
  unfold pthReadEv
  split
  · exact ⟨id, hd⟩
  · refine wp_enter hd fun d₁ hb hd₁ => ?_
    rw [pthFdmode, wp_bind]
    refine wp_getfl fun d₂ hc₂ => ?_
    have hd₂ : d₂.nonblock = false := hc₂.1.trans hd₁
    rw [hd₁]
    refine ⟨rfl, ?_⟩
    rw [if_pos rfl, wp_bind]
    refine wp_retry (fun d => d.nonblock = false) hd₂ (fun d hd => ?_) fun _ _ => trivial
    rintro r _ d' ⟨hinval, hbadf⟩ ⟨-, rfl⟩ hc
    have hd' : d'.nonblock = false := hc.1.trans hd
    have hwait : (do
        if !(← waitFd b .read fd .readable none) then return Res.error Errno.EINTR
        retry b (read fd nbytes) : Code (Res Bytes)).wp (rule false) d' (Good Refused) := by
      exact wp_seq <| wp_waitFd hb hd' fun d₃ hd₃ _ => wp_read hd₃
    match r with
    | .ok 0 => exact hwait
    | .ok (n + 1) => exact wp_read hd'
    | .error e =>
      cases e with
      | EINTR => exact hd'
      | EINVAL => exact absurd rfl hinval
      | EBADF => exact absurd rfl hbadf
      | _ => exact wp_read hd'

/-! ### Writing -/

/-- At the head of the loop: the descriptor is writeable, or the turn waits. -/
def AtTurn (w : Writing Bytes) (d : Descriptor) : Prop :=
  d.nonblock = true ∧ (notReady w.ready = false → d.writeable = true)

/-- The loop is left to the restore of the mode, and not by an interruption. -/
def LoopGood : Except Stop (LoopExit (Res Nat)) → Descriptor → Prop
  | .ok (.done rv), _ => ¬Refused rv
  | .ok (.left _), _ => False
  | .error _, _ => True

theorem wp_writeCall (hd : d.nonblock = true) (hw : d.writeable = true) :
    (writeCall b (writeKind fd) w).wp (rule write) d (Post.turn AtTurn LoopGood) := by
  rw [writeCall, wp_bind]
  refine wp_retry (fun d => d.nonblock = true ∧ d.writeable = true) ⟨hd, hw⟩
    (fun d hd => ?_) fun _ _ => trivial
  rintro r d₁ d' - ha hc
  match r with
  | .ok n =>
    have hd' : d'.nonblock = true := (hc.1.trans ha.2).trans hd.1
    simp only [wp_ret, andThen_ok]
    split
    · exact ⟨hd', nofun⟩
    · exact id
  | .error e =>
    obtain ⟨hagain, rfl⟩ := ha
    have hno : ¬Again e := fun h => by
      have := (hagain h).2
      rw [Descriptor.ready, hd.2] at this
      cases this
    have hdone : ¬Refused (if w.rv = 0 then .error e else .ok w.rv) := by
      split
      · exact hno
      · exact id
    cases e with
    | EINTR => exact ⟨hc.1.trans hd.1, hc.2 hd.2⟩
    | _ => exact hdone

theorem wp_writeTurn (hb : b.holds fd = true)
    (h : AtTurn w d) :
    (writeTurn b (writeKind fd) fd fdmode none w).wp (rule true) d (Post.turn AtTurn LoopGood) := by
  unfold writeTurn
  split
  case isTrue =>
    exact wp_seq <| wp_waitFd hb h.1 fun d' hd' hw => wp_writeCall hd' (hw rfl)
  case isFalse hready => exact wp_writeCall h.1 (h.2 (by simpa [writeKind] using hready))

theorem wp_pthWriteEv (hd : d.nonblock = false) :
    (pthWriteEv b fd buf none).wp (rule true) d (Good Refused) := by
  unfold pthWriteEv
  split
  · exact ⟨id, hd⟩
  · refine wp_enter hd fun d₁ hb hd₁ => ?_
    refine wp_fdmode_nonblock hd₁ fun d₂ hd₂ => ⟨rfl, ?_⟩
    rw [if_pos nofun, wp_bind]
    refine wp_poll hd₂ (fun n d₃ hinval hbadf hd₃ hready => ?_) fun _ => trivial
    rw [andThen_ok]
    split
    · exact absurd rfl hinval
    · exact absurd rfl hbadf
    · rw [writeLoop, wp_bind]
      refine wp_iterate AtTurn ⟨hd₃, hready⟩ (fun w d h => ?_) fun _ _ _ => trivial
      refine (wp_writeTurn hb h).mono fun r d hr => ?_
      match r with
      | .ok (.inl _) => exact hr
      | .error _ => trivial
      | .ok (.inr (.left _)) => exact hr.elim
      | .ok (.inr (.done rv)) =>
        exact wp_seq <| wp_fdmode_block fun _ d' hd' => ⟨hr, hd'⟩

theorem Call.wp_code (c : Call) (hd : d.nonblock = false) :
    (c.code b fd).wp (rule c.isWrite) d
      (Good fun r => ∃ e, r = some e ∧ Again e) := by
  have errno {β : Type} {write : Bool} {p : Code (Res β)}
      (h : p.wp (rule write) d (Good Refused)) :
      (do return errnoOf (← p) : Code (Option Errno)).wp (rule write) d
        (Good fun r => ∃ e, r = some e ∧ Again e) := by
    refine wp_seq <| h.mono fun r d hr => ?_
    match r with
    | .error _ => trivial
    | .ok (.ok a) => exact ⟨nofun, hr.2⟩
    | .ok (.error e) =>
      refine ⟨?_, hr.2⟩
      rintro ⟨_, he, hagain⟩
      cases he
      exact hr.1 hagain
  cases c with
  | read => exact errno (wp_pthReadEv hd)
  | write => exact errno (wp_pthWriteEv hd)

end

/-! ### All threads -/

def Outcome : Except Stop (Option Errno) → Descriptor → Prop := Good fun r => ∃ e, r = some e ∧ Again e

def Parked (c : Call) (p : Code (Option Errno)) : Prop :=
  ∃ ev k, p = .ask (.wait ev) k ∧ ∀ d : Descriptor, d.nonblock = c.isWrite →
    (c.isWrite = true → d.writeable = true) → (k .returned).wp (rule c.isWrite) d Outcome

structure Safe (s : Threads) : Prop where
  parked : ∀ t c p, s.thread t = some (c, p) → s.current ≠ some t → Parked c p
  running : ∀ t, s.current = some t → NoOtherWrite s t ∧ ∃ c p, s.thread t = some (c, p) ∧
    ∀ d, Calm s.shared d → p.wp (rule c.isWrite) d Outcome
  -- while nobody runs, the mode is that of the write that waits, if there is one
  writer : s.current = none → ∀ t c p, s.thread t = some (c, p) → c.isWrite = true →
    s.shared.nonblock = true ∧ NoOtherWrite s t
  free : s.current = none → (∀ t c p, s.thread t = some (c, p) → c.isWrite = false) →
    s.shared.nonblock = false
  finished : ∀ t c r, (t, c, r) ∈ s.finished → ∀ e, r = .ok (some e) → ¬Again e

section
variable {s' : Threads} {p : Code (Option Errno)}

theorem Safe.mode (h : Safe s) (hc : s.current = none) (hno : NoOtherWrite s t)
    (ht : s.thread t = some (c, p)) : s.shared.nonblock = c.isWrite := by
  cases hw : c.isWrite with
  | true => exact (h.writer hc t c p ht hw).1
  | false =>
    refine h.free hc fun u c' p' hu => ?_
    by_cases hut : u = t
    · subst hut
      cases ht.symm.trans hu
      exact hw
    · exact hno u c' p' hut hu

theorem Safe.goOn (h : Safe s) (hc : s.current = none ∨ s.current = some t)
    (hno : NoOtherWrite s t) (hp : ∀ d', Calm d d' → p.wp (rule c.isWrite) d' Outcome) :
    Safe { s with shared := d, thread := update s.thread t (some (c, p)), current := some t } where
  parked u c' p' hu hcur := by
    have hut : u ≠ t := fun he => hcur (congrArg some he.symm)
    have hcur' : s.current ≠ some u := by
      rcases hc with hc | hc <;> rw [hc]
      · nofun
      · exact fun he => hut (Option.some.inj he).symm
    exact h.parked u c' p' (by simpa [hut] using hu) hcur'
  running u hu := by
    cases hu
    refine ⟨fun u c' p' hut hu => hno u c' p' hut (by simpa [hut] using hu), c, p, ?_, hp⟩
    exact update_self ..
  writer := nofun
  free := nofun
  finished := h.finished

/-- No thread has control, and the descriptor is in blocking mode unless a write
is waiting. -/
theorem Safe.stop {thread : Tid → Option (Call × Code (Option Errno))}
    {finished : List (Tid × Call × Except Stop (Option Errno))} (h : Safe s)
    (hc : s.current = some t) (hthread : ∀ u, u ≠ t → thread u = s.thread u)
    (hp : ∀ c p, thread t = some (c, p) → Parked c p ∧ s.shared.nonblock = c.isWrite)
    (hfree : thread t = none → s.shared.nonblock = false)
    (hfin : ∀ u c r, (u, c, r) ∈ finished → ∀ e, r = .ok (some e) → ¬Again e) :
    Safe { s with thread, current := none, finished } := by
  obtain ⟨hno, -⟩ := h.running t hc
  have hothers : ∀ u c p, u ≠ t → thread u = some (c, p) → c.isWrite = false :=
    fun u c p hut hu => hno u c p hut (hthread u hut ▸ hu)
  refine ⟨fun u c p hu _ => ?_, nofun, fun _ u c p hu hw => ?_, fun _ hall => ?_, hfin⟩
  · by_cases hut : u = t
    · subst hut
      exact (hp c p hu).1
    · refine h.parked u c p (hthread u hut ▸ hu) ?_
      rw [hc]
      exact fun he => hut (Option.some.inj he).symm
  · by_cases hut : u = t
    · subst hut
      exact ⟨(hp c p hu).2.trans hw, hothers⟩
    · rw [hothers u c p hut hu] at hw
      cases hw
  · cases ht : thread t with
    | none => exact hfree ht
    | some cp => exact (hp cp.1 cp.2 ht).2.trans (hall t cp.1 cp.2 ht)

theorem Safe.run {k : Answer e → Code (Option Errno)}
    (h : Safe s) (hc : s.current = some t) (ht : s.thread t = some (c, .ask e k))
    (hy : ∀ ev, e ≠ .wait ev) (hf : Fine e r) (ha : s.shared.answer e r d) :
    Safe { s with shared := d, thread := update s.thread t (some (c, k r)) } := by
  obtain ⟨hno, c', p', ht', hwp⟩ := h.running t hc
  cases ht.symm.trans ht'
  have hnext : ∀ d', Calm d d' → (k r).wp (rule c.isWrite) d' Outcome := by
    intro d' hcalm
    have hreq := hwp s.shared .refl
    cases e with
    | wait ev => exact absurd rfl (hy ev)
    | _ => exact hreq r d d' hf ha hcalm
  have hs := h.goOn (.inr hc) hno hnext
  rwa [← hc] at hs

theorem Safe.step (h : Safe s) (ho : Orderly s a)
    (hs : (threads b fd).Step s a s') : Safe s' := by
  cases hs with
  | @start t c hc ht =>
    refine h.goOn (.inl hc) ho fun d hcalm => c.wp_code (hcalm.1.trans ?_)
    refine h.free hc fun u c' p' hu => ho u c' p' ?_ hu
    rintro rfl
    cases ht.symm.trans hu
  | @run t c e k r d hc ht hy ha =>
    have hf : Fine e r := by
      cases e with
      | poll | static => exact ho
      | _ => trivial
    exact h.run hc ht (fun ev he => by subst he; exact hy trivial) hf ha
  | @yield t c e k hc ht hy =>
    obtain ⟨hno, c', p', ht', hwp⟩ := h.running t hc
    cases ht.symm.trans ht'
    cases e with
    | wait ev =>
      obtain ⟨hmode, hk⟩ := hwp s.shared .refl
      refine h.stop hc (fun _ _ => rfl) (fun c₁ p₁ h₁ => ?_) (fun hn => ?_) h.finished
      · cases ht.symm.trans h₁
        exact ⟨⟨ev, k, rfl, hk⟩, hmode⟩
      · cases ht.symm.trans hn
    | _ => exact hy.elim
  | @resume t c e k r d hc ht hw =>
    obtain ⟨ev, k', he, hk⟩ := h.parked t c _ ht (by rw [hc]; nofun)
    cases he
    obtain ⟨rfl, rfl⟩ := hw
    have hmode := h.mode hc ho.1 ht
    refine h.goOn (.inl hc) ho.1 fun d hcalm => hk d (hcalm.1.trans hmode) fun hwr => ?_
    exact hcalm.2 (ho.2 c _ ht hwr)
  | @finish t c a hc ht =>
    obtain ⟨hno, c', p', ht', hwp⟩ := h.running t hc
    cases ht.symm.trans ht'
    obtain ⟨hgood, hmode⟩ := hwp s.shared .refl
    refine h.stop hc (fun u hut => Function.update_of_ne hut ..) (fun c₁ p₁ h₁ => ?_)
      (fun _ => hmode) fun u c₁ r hmem e he => ?_
    · rw [update_self] at h₁
      cases h₁
    · rcases List.mem_cons.mp hmem with heq | hmem
      · cases heq
        exact fun hagain => hgood ⟨e, Except.ok.inj he, hagain⟩
      · exact h.finished u c₁ r hmem e he
  | unwind _ _ hh => exact hh.elim
  | @env d hx =>
    refine ⟨h.parked, fun t hc => ?_, fun hc t c p ht hw => ?_, fun hc hall => ?_, h.finished⟩
    · obtain ⟨hno, c, p, ht, hwp⟩ := h.running t hc
      have hcalm : Calm s.shared d := ⟨hx, ho (by rw [show s.current = _ from hc]; nofun)⟩
      exact ⟨hno, c, p, ht, fun d' hd' => hwp d' (hcalm.trans hd')⟩
    · obtain ⟨hmode, hno⟩ := h.writer hc t c p ht hw
      exact ⟨hx.trans hmode, hno⟩
    · exact hx.trans (h.free hc hall)

theorem safe_of_reachable (h : Reachable ((system b fd).restrict Orderly) s) : Safe s := by
  refine h.invariant ?_ ?_
  · rintro s ⟨d, hd, rfl⟩
    exact ⟨nofun, nofun, nofun, fun _ _ => hd, nofun⟩
  · rintro s a s' h ⟨ho, hs⟩
    exact h.step ho hs

/-- In every orderly run no call fails with `EAGAIN`, and the descriptor is in
blocking mode when no call is in progress. -/
theorem blocking_kept (h : Reachable ((system b fd).restrict Orderly) s) :
    (∀ t c r, (t, c, r) ∈ s.finished → r ≠ .ok (some .EAGAIN) ∧ r ≠ .ok (some .EWOULDBLOCK)) ∧
      ((∀ t, s.thread t = none) → s.shared.nonblock = false) := by
  have hsafe := safe_of_reachable h
  refine ⟨fun t c r hr => ⟨fun he => ?_, fun he => ?_⟩, fun hnone => hsafe.free ?_ ?_⟩
  · exact hsafe.finished t c r hr _ he (.inl rfl)
  · exact hsafe.finished t c r hr _ he (.inr rfl)
  · cases hc : s.current with
    | none => rfl
    | some t =>
      obtain ⟨-, c, p, ht, -⟩ := hsafe.running t hc
      cases (hnone t).symm.trans ht
  · intro t c p ht
    cases (hnone t).symm.trans ht

end

/-! ### Runs -/

def Descriptor.reply (d : Descriptor) : (e : Request) → Answer e × Descriptor
  | .getfl _ => (some d.nonblock, d)
  | .setfl _ nonblock => ((), { d with nonblock })
  | .poll _ goal => (.ok (if d.ready goal then 1 else 0), d)
  | .read .. => (if d.nonblock && !d.readable then .error .EAGAIN else .ok [], d)
  | .write _ buf => (if d.nonblock && !d.writeable then .error .EAGAIN else .ok buf.length, d)
  | e => (bleak.pick oneOpen e, d)

theorem Descriptor.reply_answer (d : Descriptor) (e : Request) :
    Fine e (d.reply e).1 ∧ d.answer e (d.reply e).1 (d.reply e).2 := by
  obtain ⟨nonblock, readable, writeable⟩ := d
  cases e with
  | getfl => exact ⟨trivial, rfl, rfl⟩
  | poll =>
    refine ⟨⟨nofun, nofun⟩, ?_, rfl⟩
    rintro n hn
    cases hn
    split <;> simp_all
  | read => cases nonblock <;> cases readable <;>
      simp [Fine, Descriptor.reply, Descriptor.answer, Descriptor.transfer, Descriptor.ready]
  | write => cases nonblock <;> cases writeable <;>
      simp [Fine, Descriptor.reply, Descriptor.answer, Descriptor.transfer, Descriptor.ready]
  | static => exact ⟨nofun, rfl⟩
  | _ => exact ⟨trivial, rfl⟩

def atWait (_ : Descriptor) : Request → Bool
  | .wait _ => true
  | _ => false

theorem reachable_play {p : Code (Option Errno)} (n : Nat)
    (hP : ∀ s e r, Fine e r → P s (.run t e r))
    (h : Reachable ((system b fd).restrict P) s) (hc : s.current = some t)
    (ht : s.thread t = some (c, p)) :
    Reachable ((system b fd).restrict P)
      { s with
        shared := (p.play atWait Descriptor.reply n s.shared).2
        thread := update s.thread t (some (c, (p.play atWait Descriptor.reply n s.shared).1)) } := by
  refine reachable_leads (A := fun _ => Fine) h hP hc ht (leads_play (fun d e he => ?_) n p s.shared)
  obtain ⟨hfine, ha⟩ := d.reply_answer e
  refine ⟨hfine, ?_, ha⟩
  cases e with
  | wait => cases he
  | _ => exact id

theorem orderly_run (s : Threads) (t : Tid) (e : Request) (r : Answer e) (hf : Fine e r) :
    Orderly s (.run t e r) := by
  cases e with
  | poll | static => exact hf
  | _ => trivial

theorem blocking_kept_alone :
    ∃ s, Reachable ((system pollBuild 3).restrict Orderly) s ∧
      s.finished = [(1, .write [0], .ok none)] ∧ s.shared.nonblock = false := by
  have hno (s : Threads) (hs : ∀ u, u ≠ 1 → s.thread u = none) : NoOtherWrite s 1 := by
    intro u c p hu ht
    cases (hs u hu).symm.trans ht
  have h₀ : Reachable ((system pollBuild 3).restrict Orderly) (.init ⟨false, false, false⟩) :=
    .init ⟨_, rfl, rfl⟩
  have h₁ := Reachable.step h₀ (a := Move.start 1 (Call.write [0])) ⟨hno _ fun _ _ => rfl, .start rfl rfl⟩
  have h₂ := reachable_play 20 (fun s e r => orderly_run s 1 e r) h₁ rfl rfl
  have h₃ := Reachable.step h₂ (a := Move.yield 1) ⟨trivial, .yield rfl rfl trivial⟩
  have h₄ := Reachable.step h₃ (a := Move.env (Descriptor.mk true false true))
    ⟨absurd rfl, .env rfl⟩
  have h₅ := Reachable.step h₄ (a := Move.resume (R := Answer) 1 (.wait (.static .write)) .returned)
    ⟨⟨hno _ fun u hu => by simp [hu, Pool.init], fun _ _ _ _ => rfl⟩, .resume rfl rfl ⟨rfl, rfl⟩⟩
  have h₆ := reachable_play 20 (fun s e r => orderly_run s 1 e r) h₅ rfl rfl
  have h₇ := Reachable.step h₆ (a := Move.finish 1) ⟨trivial, .finish rfl rfl⟩
  refine ⟨_, h₇, rfl, (blocking_kept h₇).2 fun u => ?_⟩
  by_cases hu : u = 1 <;> simp [Pool.init]

/-- A second write begins while the first one waits, and fails with `EAGAIN`. -/
theorem second_write_refused :
    ∃ s, Reachable (system pollBuild 3) s ∧
      s.finished = [(2, .write [0], .ok (some .EAGAIN))] := by
  have h₀ : Reachable ((system pollBuild 3).restrict fun _ _ => True) (.init ⟨false, false, false⟩) :=
    .init ⟨_, rfl, rfl⟩
  have h₁ := Reachable.step h₀ ⟨trivial, .start (t := 1) (c := .write [0]) rfl rfl⟩
  have h₂ := reachable_play 20 (fun _ _ _ _ => trivial) h₁ rfl rfl
  have h₃ := Reachable.step h₂ ⟨trivial, .yield rfl rfl trivial⟩
  have h₄ := Reachable.step h₃ ⟨trivial, .start (t := 2) (c := .write [0]) rfl rfl⟩
  have h₅ := reachable_play 20 (fun _ _ _ _ => trivial) h₄ rfl rfl
  have h₆ := Reachable.step h₅ ⟨trivial, .finish rfl rfl⟩
  exact ⟨_, h₆.of_restrict, rfl⟩

end Blocking

end Io

end GnuPth
