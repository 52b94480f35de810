import GnuPth.Io.Select
import Mathlib.Data.Finset.Lattice.Lemmas

/-!
# `pth_poll_ev`

The entries of the array are folded into sets for `pth_select_ev`, and the outcome is
read back entry by entry. Where an `FD_SET` or `FD_ISSET` has an index outside of the
sets, the index is the result of the call.
-/

namespace GnuPth

namespace Io

namespace Poll

open Function (update)
open Manager (Bits Sets)
open Program
open Select

inductive Flag
  | pollin
  | pollpri
  | pollout
  | pollhup
  | pollnval
  | pollrdnorm
  | pollrdband
  | pollwrnorm
  | pollwrband
  deriving DecidableEq, Repr

def input : Finset Flag := {.pollin, .pollrdnorm}

-- `POLLWRBAND` goes to `wfds`
def output : Finset Flag := {.pollout, .pollwrnorm, .pollwrband}

def priority : Finset Flag := {.pollpri, .pollrdband}

structure Pollfd where
  fd : Int
  events : Finset Flag
  revents : Finset Flag
  deriving DecidableEq

def Pollfd.wants (p : Pollfd) : Bits :=
  ⟨p.events ∩ input ≠ ∅, p.events ∩ output ≠ ∅, p.events ∩ priority ≠ ∅⟩

@[ext] structure Folded where
  -- `rfds`, `wfds` and `efds`
  sets : Sets
  xfds : Fd → Bool
  maxfd : Int

def Folded.zero : Folded := ⟨.zero, fun _ => false, -1⟩

def Folded.fdSets (f : Folded) : FdSets :=
  ⟨some fun fd => (f.sets fd).r, some fun fd => (f.sets fd).w, some fun fd => (f.sets fd).e⟩

inductive Found
  | nothing
  | invalid
  | input
  | output
  | priority
  deriving DecidableEq

def Found.ofBits (bits : Bits) : Found :=
  if bits.r then .input else if bits.w then .output else if bits.e then .priority else .nothing

def Folded.found (f : Folded) (fd : Fd) : Found :=
  if f.xfds fd then .invalid else if f.maxfd = -1 then .nothing else .ofBits (f.sets fd)

def Found.revents (events : Finset Flag) (lost : Bool) : Found → Finset Flag
  | .nothing => ∅
  | .invalid => {.pollnval}
  -- the flags of input are cleared again for `POLLHUP`
  | .input => if lost then {.pollhup} else events ∩ Poll.input
  | .output => events ∩ Poll.output
  | .priority => events ∩ Poll.priority

def pollTimeout (timeout : Int) : Res (Option Timeval) :=
  if timeout = 0 then .ok (some ⟨0, 0⟩)
  else if timeout = -1 then .ok none
  else if 0 < timeout then .ok (some ⟨timeout / 1000, timeout % 1000 * 1000⟩)
  else .error .EINVAL

section
variable (b : Build)

/-- The index of an `FD_SET` or `FD_ISSET`. -/
def fdIndex (fd : Int) : Except Int Fd :=
  if 0 ≤ fd ∧ fd < b.fdSetsize then .ok fd.toNat else .error fd

def fdValid (fd : Int) : Code Bool :=
  if fd < 0 then return false else pthUtilFdValid b fd.toNat

def Folded.add (f : Folded) (p : Pollfd) (valid : Bool) : Except Int Folded :=
  if !valid then do
    let fd ← fdIndex b p.fd
    return { f with xfds := update f.xfds fd true }
  -- without any of the flags nothing is done
  else if p.wants = .zero then return f
  else do
    let fd ← fdIndex b p.fd
    return { f with sets := f.sets.add fd p.wants, maxfd := max f.maxfd p.fd }

def foldFds : List Pollfd → Folded → Code (Except Int Folded)
  | [], f => return .ok f
  | p :: pfd, f => do
    let valid ← fdValid b p.fd
    match f.add b p valid with
    | .error i => return .error i
    | .ok f => foldFds pfd f

/-- `recv` with `MSG_PEEK`: "support for POLLHUP" -/
def peek (f : Folded) (fd : Fd) : Code Bool := do
  if f.found fd = .input then return hungUp (← recvfrom fd 64) else return false

/-- The second loop. Each `FD_ISSET` of a turn has the same index, so that the test for
a negative descriptor after the first one decides nothing. -/
def results (f : Folded) : List Pollfd → Code (Except Int (List Pollfd × Nat))
  | [] => return .ok ([], 0)
  | p :: pfd => do
    match fdIndex b p.fd with
    | .error i => return .error i
    | .ok fd =>
      let lost ← peek f fd
      match ← results f pfd with
      | .error i => return .error i
      | .ok (out, n) =>
        return .ok ({ p with revents := (f.found fd).revents p.events lost } :: out,
          n + if f.found fd = .nothing then 0 else 1)

def pollResults (f : Folded) (pfd : List Pollfd) : Code (Except Int (Res Int × List Pollfd)) := do
  match ← results b f pfd with
  | .error i => return .error i
  | .ok (out, n) => return .ok (.ok n, out)

/-- "examine fd sets with pth_select(3)" -/
def pollSelect (f : Folded) (pfd : List Pollfd) (timeout : Option Timeval) (extra : Option Ev) :
    Code (Except Int (Res Int × List Pollfd)) := do
  if f.maxfd = -1 then pollResults b f pfd
  else
    match ← pthSelectEv b (f.maxfd + 1) f.fdSets timeout extra with
    | (.error e, _) => return .ok (.error e, pfd)
    | (.ok rc, sets) =>
      if rc < 0 then return .ok (.ok (-1), pfd)
      else if rc = 0 then return .ok (.ok 0, pfd)
      else pollResults b { f with sets := sets.bits } pfd

def pthPollEv (pfd : Option (List Pollfd)) (timeout : Int) (extra : Option Ev) :
    Code (Except Int (Res Int × List Pollfd)) := do
  match pfd with
  -- `EFAULT`
  | none => return .ok (.error (.other 14), [])
  | some pfd =>
    if b.fdSetsize < pfd.length then return .ok (.error .EINVAL, pfd)
    match pollTimeout timeout with
    | .error e => return .ok (.error e, pfd)
    | .ok tv =>
      match ← foldFds b pfd .zero with
      | .error i => return .error i
      | .ok f => pollSelect b f pfd tv extra

end

/-! ### The first loop -/

section
variable {p : Pollfd} {fd : Fd}

def Pollfd.InRange (b : Build) (p : Pollfd) : Prop := 0 ≤ p.fd ∧ p.fd < b.fdSetsize

theorem fdIndex_ok (h : p.InRange b) : fdIndex b p.fd = .ok p.fd.toNat := if_pos h

/-- The descriptors of the entries that a test selects. -/
def marked (test : Pollfd → Bool) (pfd : List Pollfd) (fd : Fd) : Bool :=
  pfd.any fun p => fd = p.fd.toNat && test p

def Pollfd.asks (valid : Fd → Bool) (p : Pollfd) : Bool := valid p.fd.toNat && p.wants ≠ .zero

/-- What the first loop makes of the entries. -/
def folded (valid : Fd → Bool) (pfd : List Pollfd) : Folded where
  sets fd := ⟨marked (fun p => valid p.fd.toNat && p.wants.r) pfd fd,
    marked (fun p => valid p.fd.toNat && p.wants.w) pfd fd,
    marked (fun p => valid p.fd.toNat && p.wants.e) pfd fd⟩
  xfds := marked (fun p => !valid p.fd.toNat) pfd
  maxfd := ((pfd.filter (·.asks valid)).map (·.fd)).foldl max (-1)

theorem folded_add (hp : p.InRange b) :
    (folded valid pfd).add b p (valid p.fd.toNat) = .ok (folded valid (pfd ++ [p])) := by
  have happend : ∀ test fd, marked test (pfd ++ [p]) fd =
      (marked test pfd fd || fd = p.fd.toNat && test p) := by simp [marked]
  rw [Folded.add, fdIndex_ok hp]
  cases hv : valid p.fd.toNat with
  | false =>
    refine congrArg Except.ok (Folded.ext (funext fun fd => ?_) (funext fun fd => ?_) ?_)
    · simp [folded, happend, hv]
    · by_cases he : fd = p.fd.toNat <;> simp [folded, happend, hv, he]
    · simp [folded, Pollfd.asks, hv]
  | true =>
    by_cases hw : p.wants = .zero
    · rw [if_pos hw]
      refine congrArg Except.ok (Folded.ext (funext fun fd => ?_) (funext fun fd => ?_) ?_)
      · simp [folded, happend, hw, Bits.zero]
      · simp [folded, happend, hv]
      · simp [folded, Pollfd.asks, hw]
    · rw [if_neg hw]
      refine congrArg Except.ok (Folded.ext (funext fun fd => ?_) (funext fun fd => ?_) ?_)
      · by_cases he : fd = p.fd.toNat <;> simp [folded, happend, hv, he, Sets.add, Bits.or]
      · simp [folded, happend, hv]
      · simp [folded, Pollfd.asks, hv, hw]

theorem le_foldl_max (l : List Int) (m : Int) : m ≤ l.foldl max m ∧ ∀ i ∈ l, i ≤ l.foldl max m := by
  induction l generalizing m with
  | nil => simp
  | cons j l ih =>
    obtain ⟨hm, hl⟩ := ih (max m j)
    exact ⟨(le_max_left m j).trans hm, List.forall_mem_cons.mpr ⟨(le_max_right m j).trans hm, hl⟩⟩

theorem folded_above (hin : ∀ p ∈ pfd, p.InRange b) (hfd : (folded valid pfd).maxfd < fd) :
    (folded valid pfd).sets fd = .zero := by
  have hzero : ∀ p ∈ pfd, fd = p.fd.toNat → valid p.fd.toNat = true → p.wants = .zero := by
    rintro p hp rfl hv
    by_contra hw
    have hmem : p.fd ∈ (pfd.filter (·.asks valid)).map (·.fd) :=
      List.mem_map_of_mem (List.mem_filter.mpr ⟨hp, by simp [Pollfd.asks, hv, hw]⟩)
    have hle := (le_foldl_max _ (-1)).2 _ hmem
    have hpos := (hin p hp).1
    simp only [folded] at hfd
    omega
  simp only [folded, marked, Bits.zero, Bits.mk.injEq, List.any_eq_false, Bool.and_eq_true,
    decide_eq_true_eq, not_and]
  refine ⟨?_, ?_, ?_⟩ <;>
  · intro p hp he hv
    rw [hzero p hp he hv]
    exact Bool.false_ne_true

theorem marked_and (hp : p ∈ pfd)
    (h : ∀ q ∈ pfd, q.fd.toNat = p.fd.toNat → (test q && x) = y) :
    (marked test pfd p.fd.toNat && x) = y := by
  have hp' := h p hp rfl
  cases x with
  | false => simpa using hp'
  | true =>
    simp only [Bool.and_true] at h hp' ⊢
    cases y with
    | false => simpa [marked] using fun q hq he => h q hq he.symm
    | true => exact List.any_eq_true.mpr ⟨p, hp, by simp [hp']⟩

theorem wp_fdValid (hp : p.InRange b)
    (h : Q (.ok (s.valid p.fd.toNat)) s) : (fdValid b p.fd).wp rule s Q := by
  have hholds : b.holds p.fd.toNat = true := by
    simp [Build.holds, (Int.toNat_lt hp.1).mpr hp.2]
  rw [fdValid, if_neg (not_lt.mpr hp.1), pthUtilFdValid, hholds]
  refine ⟨trivial, ?_⟩
  rintro r _ ⟨hr, rfl⟩
  rw [← hr] at h
  exact h

theorem wp_foldFds
    (hin : ∀ p ∈ pfd, p.InRange b) (hQ : Q (.ok (.ok (folded s.valid (done ++ pfd)))) s) :
    (foldFds b pfd (folded s.valid done)).wp rule s Q := by
  induction pfd generalizing done with
  | nil => exact List.append_nil done ▸ hQ
  | cons p pfd ih =>
    obtain ⟨hp, hin⟩ := List.forall_mem_cons.mp hin
    rw [foldFds, wp_bind]
    refine wp_fdValid hp ?_
    rw [andThen_ok, folded_add hp]
    exact ih hin (by simpa using hQ)

/-! ### The second loop -/

def Pollfd.read (f : Folded) (s : Host) (p : Pollfd) : Pollfd :=
  { p with revents := (f.found p.fd.toNat).revents p.events (s.reset p.fd.toNat) }

theorem wp_peek (h : ∀ lost, (f.found fd = .input → lost = s.reset fd) → Q (.ok lost) s) :
    (peek f fd).wp rule s Q := by
  rw [peek]
  split
  · refine ⟨trivial, ?_⟩
    rintro r _ ⟨hr, rfl⟩
    exact h _ fun _ => hr
  · exact h _ fun hf => absurd hf ‹_›

theorem wp_results (hin : ∀ p ∈ pfd, p.InRange b)
    (hQ : Q (.ok (.ok (pfd.map (·.read f s), pfd.countP (f.found ·.fd.toNat ≠ .nothing)))) s) :
    (results b f pfd).wp rule s Q := by
  induction pfd generalizing Q with
  | nil => exact hQ
  | cons p pfd ih =>
    obtain ⟨hp, hin⟩ := List.forall_mem_cons.mp hin
    rw [results, fdIndex_ok hp]
    refine wp_seq <| wp_peek fun lost hlost => ?_
    refine wp_seq <| ih hin ?_
    have hread : { p with revents := (f.found p.fd.toNat).revents p.events lost } = p.read f s := by
      unfold Pollfd.read
      cases hf : f.found p.fd.toNat with
      | input => rw [hlost hf]
      | _ => rfl
    rw [hread]
    simpa [List.countP_cons] using hQ

/-! ### The whole call -/

structure Known (valid : Fd → Bool) (pfd : List Pollfd) (s : Host) (f : Folded) : Prop where
  invalid : ∀ p ∈ pfd, valid p.fd.toNat = false → f.found p.fd.toNat = .invalid
  ready : ∀ p ∈ pfd, valid p.fd.toNat = true → ∀ v, (∀ q ∈ pfd, q.fd.toNat = p.fd.toNat →
    q.wants.and (s.reported p.fd.toNat) = v) → f.found p.fd.toNat = .ofBits v

def Ends (valid : Fd → Bool) (pfd : List Pollfd) :
    Except Stop (Except Int (Res Int × List Pollfd)) → Host → Prop
  | .ok (.error _), _ => False
  | .ok (.ok (.ok n, out)), s =>
    n < 0 ∨ (n = 0 ∧ ∃ p ∈ pfd, p.asks valid = true) ∨
      ∃ f, Known valid pfd s f ∧ out = pfd.map (·.read f s) ∧
        n = pfd.countP (f.found ·.fd.toNat ≠ .nothing)
  | _, _ => True

theorem wp_pollResults (hin : ∀ p ∈ pfd, p.InRange b) (hf : Known valid pfd s f) :
    (pollResults b f pfd).wp rule s (Ends valid pfd) := by
  rw [pollResults, wp_bind]
  exact wp_results hin (.inr (.inr ⟨f, hf, rfl, rfl⟩))

theorem folded_known (hin : ∀ p ∈ pfd, p.InRange b)
    (hsets : (folded valid pfd).maxfd ≠ -1 →
      ∀ fd, sets fd = ((folded valid pfd).sets fd).and (s.reported fd)) :
    Known valid pfd s { folded valid pfd with sets } where
  invalid p hp hv := if_pos (List.any_eq_true.mpr ⟨p, hp, by simp [hv]⟩)
  ready p hp hv v hq := by
    have hx : ¬ (folded valid pfd).xfds p.fd.toNat = true := by
      simpa [folded, marked] using fun q _ he => he ▸ hv
    have hand : ((folded valid pfd).sets p.fd.toNat).and (s.reported p.fd.toNat) = v := by
      obtain ⟨vr, vw, ve⟩ := v
      simp only [Bits.and, Bits.mk.injEq] at hq ⊢
      refine ⟨marked_and hp fun q hm he => ?_, marked_and hp fun q hm he => ?_,
        marked_and hp fun q hm he => ?_⟩
      · simpa [he, hv] using (hq q hm he).1
      · simpa [he, hv] using (hq q hm he).2.1
      · simpa [he, hv] using (hq q hm he).2.2
    rw [Folded.found, if_neg hx]
    split
    case isTrue hmax =>
      rw [← hand, folded_above hin (by simp only at hmax; omega)]
      rfl
    case isFalse hmax => exact congrArg Found.ofBits ((hsets hmax _).trans hand)

theorem folded_asks (h : (folded valid pfd).maxfd ≠ -1) : ∃ p ∈ pfd, p.asks valid = true := by
  by_contra hnone
  have hnil : pfd.filter (·.asks valid) = [] := by simpa using hnone
  exact h (by simp [folded, hnil])

theorem wp_pollSelect (hin : ∀ p ∈ pfd, p.InRange b) :
    (pollSelect b (folded valid pfd) pfd timeout extra).wp rule s (Ends valid pfd) := by
  rw [pollSelect]
  split
  case isTrue hmax => exact wp_pollResults hin (folded_known hin fun h => absurd hmax h)
  case isFalse hmax =>
    refine wp_seq <| (wp_pthSelectEv (by simp [plainDelay, Folded.fdSets])).mono fun r s' hr => ?_
    match r, hr with
    | .error _, _ => trivial
    | .ok (.error _, _), _ => trivial
    | .ok (.ok rc, sets), hr =>
      rw [andThen_ok]
      dsimp only
      split
      case isTrue => exact .inl (by decide)
      case isFalse hneg =>
        split
        case isTrue => exact .inr (.inl ⟨rfl, folded_asks hmax⟩)
        case isFalse hne =>
          rcases hr with ⟨-, hr⟩ | ⟨h0, -⟩ | ⟨h1, -⟩
          · refine wp_pollResults hin (folded_known hin fun _ fd => ?_)
            by_cases hfd : fd < ((folded valid pfd).maxfd + 1).toNat
            · exact hr.below fd hfd
            · have habove : (folded valid pfd).sets fd = .zero :=
                folded_above hin (Int.lt_of_add_one_le (Int.toNat_le.mp (not_lt.mp hfd)))
              rw [hr.above fd (not_lt.mp hfd) habove, habove]
              rfl
          · exact absurd h0 hne
          · omega

theorem wp_pthPollEv (hin : ∀ p ∈ pfd, p.InRange b) :
    (pthPollEv b (some pfd) timeout extra).wp rule s (Ends s.valid pfd) := by
  unfold pthPollEv
  dsimp only
  split
  · trivial
  split
  · trivial
  have hzero : Folded.zero = folded s.valid [] := rfl
  rw [hzero, wp_bind]
  exact wp_foldFds hin (wp_pollSelect hin)

/-! ### The result -/

def flags (bits : Bits) : Finset Flag :=
  (if bits.r then input else ∅) ∪ (if bits.w then output else ∅) ∪ if bits.e then priority else ∅

/-- `POLLNVAL`, or the requested flags of the classes that the descriptor is ready in;
`POLLHUP` takes the place of the latter when input finds a lost connection. -/
def Pollfd.answer (p : Pollfd) (valid : Bool) (ready : Bits) (lost : Bool) : Finset Flag :=
  if !valid then {.pollnval}
  else if p.wants.r && ready.r && lost then {.pollhup}
  else p.events ∩ flags ready

theorem inter_class {x : Bool} :
    (p.events ∩ if x then c else ∅) = if p.events ∩ c ≠ ∅ && x then p.events ∩ c else ∅ := by
  cases x with
  | false => simp
  | true => by_cases h : p.events ∩ c = ∅ <;> simp

theorem answer_of_ready (lost : Bool) (hv : p.wants.and ready = v)
    (hone : v.count ≤ 1) :
    (Found.ofBits v).revents p.events lost = p.answer true ready lost ∧
      (Found.ofBits v ≠ .nothing ↔ p.answer true ready lost ≠ ∅) := by
  obtain ⟨r, w, e⟩ := v
  simp only [Bits.and, Pollfd.wants, Bits.mk.injEq] at hv
  obtain ⟨hr, hw, he⟩ := hv
  simp only [Pollfd.answer, flags, Finset.inter_union_distrib_left, inter_class, Pollfd.wants, hr, hw, he]
  cases r <;> cases w <;> cases e <;> cases lost <;>
    simp_all [Bits.count, Found.ofBits, Found.revents]

variable {s' : Host}

end

def twoEntries : List Pollfd := [⟨3, {.pollin}, ∅⟩, ⟨12, {.pollin}, ∅⟩]

theorem twoEntries_inRange : ∀ p ∈ twoEntries, p.InRange pollBuild := by
  unfold Pollfd.InRange
  decide

end Poll

end Io

end GnuPth
