import GnuPth.Io.Code
import GnuPth.Io.Rings

/-!
# The surroundings of one call

A call of an I/O function on its own. The kernel answers as it likes, except
that the flags of a descriptor are what they were set to and a new descriptor is
not one that is open; a wait changes the states of events and nothing else.
-/

namespace GnuPth

namespace Io

open Function (update)
open Program

structure Os where
  -- `O_NONBLOCK` of the open descriptors
  nonblock : Fd → Option Bool
  links : EvLinks Ev
  status : Ev → Status
  -- history variable: how many waits there have been
  waits : Nat

def Os.setfl (s : Os) (fd : Fd) (nonblock : Bool) : Os :=
  { s with nonblock := update s.nonblock fd ((s.nonblock fd).map fun _ => nonblock) }

def Os.answer (s : Os) : (e : Request) → Answer e → Os → Prop
  | .getfl fd, r, s' => r = s.nonblock fd ∧ s' = s
  | .setfl fd nonblock, _, s' => s' = s.setfl fd nonblock
  | .accept _, .ok fd, s' =>
    s.nonblock fd = none ∧ ∃ m, s' = { s with nonblock := update s.nonblock fd (some m) }
  | .static site, .ok _, s' =>
    s' = { s with
      links := eventSingle s.links (.static site)
      status := update s.status (.static site) .pending }
  | .concat ev rings, _, s' => s' = { s with links := eventConcat s.links ev rings }
  | .isolate ev, _, s' => s' = { s with links := eventIsolate s.links ev }
  | .status ev, r, s' => r = s.status ev ∧ s' = s
  | .wait _, _, s' => ∃ status, s' = { s with status, waits := s.waits + 1 }
  | _, _, s' => s' = s

/-- Answers that all satisfy `P`, which may depend on the state of the request. -/
def Os.answerIf (P : Os → (e : Request) → Answer e → Prop) (s : Os) (e : Request) (r : Answer e)
    (s' : Os) : Prop :=
  P s e r ∧ s.answer e r s'

theorem Os.answer_valid {o : Os} (h : o.answer e r o')
    (hfd : (o.nonblock fd).isSome = true) : (o'.nonblock fd).isSome = true := by
  cases e with
  | getfl | status => exact h.2 ▸ hfd
  | setfl fd' m =>
    obtain rfl : o' = o.setfl fd' m := h
    by_cases hne : fd = fd'
    · subst hne
      simpa [Os.setfl] using hfd
    · simpa [Os.setfl, hne] using hfd
  | accept =>
    cases r with
    | error => exact (h : o' = o) ▸ hfd
    | ok fd' =>
      obtain ⟨-, m, rfl⟩ := h
      by_cases hne : fd = fd'
      · simp [hne]
      · simpa [hne] using hfd
  | static =>
    cases r with
    | ok =>
      obtain rfl : o' = _ := h
      exact hfd
    | error => exact (h : o' = o) ▸ hfd
  | concat | isolate =>
    obtain rfl : o' = _ := h
    exact hfd
  | wait =>
    obtain ⟨status, rfl⟩ := h
    exact hfd
  | _ => exact (h : o' = o) ▸ hfd

/-! ### Scripts -/

/-- What a kernel and a scheduler answer, where they have a choice: `status` is
what a wait leaves the events in. -/
structure Script where
  pick (s : Os) (e : Request) : Answer e
  status (s : Os) : Ev → Status

def Script.reply (c : Script) (s : Os) : (e : Request) → Answer e × Os
  | .getfl fd => (s.nonblock fd, s)
  | .setfl fd nonblock => ((), s.setfl fd nonblock)
  | .accept fd =>
    match c.pick s (.accept fd) with
    | .ok fd' =>
      if s.nonblock fd' = none then
        (.ok fd', { s with nonblock := update s.nonblock fd' (some false) })
      else (.error .EBADF, s)
    | .error e => (.error e, s)
  | .static site =>
    match c.pick s (.static site) with
    | .ok u =>
      (.ok u, { s with
        links := eventSingle s.links (.static site)
        status := update s.status (.static site) .pending })
    | .error e => (.error e, s)
  | .concat ev rings => ((), { s with links := eventConcat s.links ev rings })
  | .isolate ev => ((), { s with links := eventIsolate s.links ev })
  | .status ev => (s.status ev, s)
  | .wait ev => (c.pick s (.wait ev), { s with status := c.status s, waits := s.waits + 1 })
  | e => (c.pick s e, s)

theorem Script.answer (c : Script) (s : Os) (e : Request) :
    s.answer e (c.reply s e).1 (c.reply s e).2 := by
  cases e with
  | getfl | status => exact ⟨rfl, rfl⟩
  | accept fd =>
    simp only [Script.reply]
    split
    · split
      case isTrue hnew => exact ⟨hnew, false, rfl⟩
      case isFalse => rfl
    · rfl
  | static site =>
    simp only [Script.reply]
    split <;> rfl
  | wait => exact ⟨_, rfl⟩
  | _ => rfl

/-- Nothing is ready, every system call fails with `EAGAIN`, and there is no
memory for a vector; a wait is cancelled. -/
def bleak : Script where
  pick _
    | .getfl _ => none
    | .setfl .. => ()
    | .poll .. => .ok 0
    | .select _ sets _ => .ok (0, sets)
    | .connect _ | .accept _ | .sockError _ | .read .. | .readv .. | .recvfrom .. => .error .EAGAIN
    | .write .. | .writev .. | .sendto .. | .seekCur _ | .seekSet .. => .error .EAGAIN
    | .malloc => false
    | .acquire _ => .acquired
    | .release _ => ()
    | .static _ => .ok ()
    | .init .. | .concat .. | .isolate _ => ()
    | .status _ => .pending
    | .wait _ => .cancelled
    | .selected => (0, ⟨none, none, none⟩)
  status _ _ := .pending

def oneOpen : Os where
  nonblock fd := if fd = 3 then some false else none
  links := ⟨id, id⟩
  status _ := .pending
  waits := 0

def pollBuild : Build := ⟨1024, true, 5⟩

theorem Script.leads (c : Script) (n : Nat) (p : Code α) (s : Os) :
    Leads Os.answer p s (p.play (fun _ _ => false) c.reply n s).1
      (p.play (fun _ _ => false) c.reply n s).2 :=
  leads_play (fun s e _ => c.answer s e) n p s

/-! ### Rules -/

section
variable {X : Type}

theorem wp_retry {b : Build} {call : Code (Res α)}
    (I : X → Prop) (hx : I x)
    (hcall : ∀ x, I x → call.wp ρ x fun
      | .ok (.error .EINTR), x => I x
      | r, x => Q r x)
    (hstop : ∀ x, I x → Q (.error .fuel) x) : (retry b call).wp ρ x Q := by
  refine wp_iterate (fun _ => I) hx (fun _ x hx => ?_) fun _ x hx => hstop x hx
  refine wp_seq <| (hcall x hx).mono fun r x' hr => ?_
  match r with
  | .ok (.ok a) => exact hr
  | .error h => exact hr
  | .ok (.error e) =>
    cases e with
    | EINTR => exact hr
    | _ => exact hr

theorem only_retry (h : call.Only P H) (hfuel : H .fuel) : (retry b call).Only P H := by
  refine .iterate (fun _ => h.bind fun r => ?_) hfuel
  split <;> trivial

end

/-! ### Which requests the helpers make -/

section
variable {P : Request → Prop}

theorem only_fdValid (h : P (.getfl fd)) : (pthUtilFdValid b fd).Only P H := by
  unfold pthUtilFdValid
  split
  · exact only_pure
  · exact (only_perform h).bind fun _ => only_pure

theorem only_fdmode (h : P (.getfl fd)) (hset : ∀ nonblock, P (.setfl fd nonblock)) :
    (pthFdmode fd mode).Only P H := by
  refine (only_perform h).bind fun r => ?_
  match r with
  | none => exact only_pure
  | some true | some false =>
    dsimp only
    split
    · exact (only_perform (hset _)).bind fun _ => only_pure
    · exact only_pure

theorem only_eventFd (hstatic : P (.static site)) (h : P (.getfl fd))
    (hinit : ∀ ev args, P (.init ev args)) : (pthEventFd b site fd goal).Only P H := by
  refine (only_perform hstatic).bind fun r => ?_
  cases r with
  | error => exact only_pure
  | ok =>
    refine (only_fdValid h).bind fun valid => ?_
    cases valid with
    | false => exact only_pure
    | true => exact (only_perform (hinit _ _)).bind fun _ => only_pure

theorem only_status (h : ∀ ev, P (.status ev)) : (pthEventStatus ev).Only P H := by
  cases ev with
  | none => exact only_pure
  | some ev => exact only_perform (h ev)

end

end Io

end GnuPth
