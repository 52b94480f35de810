import GnuPth.Manager.Pass

/-!
# The select and the poll event manager

What each of the two keeps of the descriptors and how it reads the answer. The
answer of the OS is any that the call can give; how long the call was to wait
is not part of it.
-/

namespace GnuPth.Manager

open Function (update)

/-! ### select(2) -/

/-- `rfds`, `wfds`, `efds` and `fdmax` -/
structure FdSets where
  sets : Sets
  fdmax : Int

/-- From `nfds` and the sets to the sets that are left, or to an error. -/
abbrev SelectOs := Nat → Sets → Option Sets

def Sets.count (sets : Sets) (nfds : Nat) : Nat :=
  ((List.range nfds).map fun fd => (sets fd).count).sum

namespace Select

def wantFd (q : FdSets) (fd : Fd) (goal : Bits) : FdSets :=
  ⟨q.sets.add fd goal, max q.fdmax fd⟩

/-- `pth_util_fds_merge` -/
def fdsMerge (a : SelectArgs) (mem : Mem) (sets : Sets) : Sets :=
  (List.range a.nfd).foldl (fun sets fd => sets.add fd (a.bits mem fd)) sets

def wantSelect (q : FdSets) (mem : Mem) (a : SelectArgs) : FdSets :=
  ⟨fdsMerge a mem q.sets, max q.fdmax (a.nfd - 1)⟩

def select (os : SelectOs) (nfds : Nat) (sets : Sets) : Sets × Int :=
  match os nfds sets with
  | some out => (out, out.count nfds)
  | none => (sets, -1)

def wait (pipe : Fd) (os : SelectOs) (q : FdSets) (dopoll : Bool) : FdSets × Int :=
  let q := wantFd q pipe ⟨true, false, false⟩
  if dopoll ∧ q.fdmax = -1 then (q, -1)
  else
    let (sets, rc) := select os (q.fdmax + 1).toNat q.sets
    ({ q with sets }, rc)

def adjust (pipe : Fd) (q : FdSets) (dopoll : Bool) (rc : Int) : FdSets × Int :=
  let (q, rc) :=
    if !dopoll ∧ rc > 0 ∧ (q.sets pipe).r then
      ({ q with sets := update q.sets pipe { q.sets pipe with r := false } }, rc - 1)
    else (q, rc)
  (if rc ≤ 0 then { q with sets := .zero } else q, rc)

/-- After an error each descriptor is checked again, in the common sets. -/
def lateFd (os : SelectOs) (rc : Int) (q : FdSets) (fd : Fd) (goal : Bits) :
    FdSets × Option Status :=
  if (goal.and (q.sets fd)).any then (q, some .occurred)
  else if rc < 0 then
    let (sets, rc2) := select os (fd + 1) (q.sets.add fd goal)
    if rc2 > 0 then ({ q with sets := update sets fd .zero }, none)
    else if rc2 < 0 then ({ q with sets := .zero }, some .failed)
    else ({ q with sets }, none)
  else (q, none)

/-- After an error the sets of the event are checked again, in a copy. -/
def lateSelect (os : SelectOs) (rc : Int) (q : FdSets) (mem : Mem) (a : SelectArgs) :
    FdSets × Option (Status × Mem) :=
  if fdsTest a mem q.sets then (q, some (.occurred, selectOccurred a mem q.sets))
  else if rc < 0 ∧ (select os (a.nfd + 1) (a.bits mem)).2 < 0 then (q, some (.failed, mem))
  else (q, none)

end Select

def selectCore (pipe : Fd) : Core FdSets SelectOs where
  clear _ := ⟨.zero, -1⟩
  wantFd := Select.wantFd
  wantSelect := Select.wantSelect
  wait os q _ dopoll _ := Select.wait pipe os q dopoll
  adjust := Select.adjust pipe
  lateFd := Select.lateFd
  lateSelect := Select.lateSelect

/-! ### Replies for one descriptor -/

/-- What poll and the event port know of a descriptor: where it is ready, and
that it is invalid. -/
structure Reply where
  bits : Bits
  fail : Bool
  deriving DecidableEq, Repr

def Reply.none : Reply := ⟨.zero, false⟩

def replyFd (re : Reply) (goal : Bits) : Option Status :=
  if (goal.and re.bits).any then some .occurred
  else if re.fail then some .failed
  else Option.none

def replySets (re : Fd → Reply) (mem : Mem) (a : SelectArgs) : Sets := fun fd =>
  if fd < a.nfd then (a.bits mem fd).and (re fd).bits else .zero

/-- The flag `bad` looks at every descriptor below `nfd`, also at those that are
in none of the sets. -/
def replyBad (re : Fd → Reply) (a : SelectArgs) : Bool :=
  (List.range a.nfd).any fun fd => (re fd).fail

def replySelect (re : Fd → Reply) (mem : Mem) (a : SelectArgs) : Option (Status × Mem) :=
  let out := replySets re mem a
  if fdsTest a mem out then some (.occurred, selectOccurred a mem out)
  else if replyBad re a then some (.failed, mem)
  else Option.none

/-! ### poll(2) -/

structure Revents where
  pollin : Bool
  pollout : Bool
  pollpri : Bool
  pollerr : Bool
  pollhup : Bool
  pollnval : Bool
  deriving DecidableEq, Repr

namespace Revents

variable (re : Revents)

def zero : Revents := ⟨false, false, false, false, false, false⟩

def any : Bool :=
  re.pollin || re.pollout || re.pollpri || re.pollerr || re.pollhup || re.pollnval

/-- Errors are reported whether or not they were asked for. -/
def mask (events : Bits) : Revents :=
  { re with
    pollin := re.pollin && events.r
    pollout := re.pollout && events.w
    pollpri := re.pollpri && events.e }

def reply : Reply where
  bits :=
    ⟨re.pollin || re.pollhup || re.pollerr, re.pollout || re.pollerr || re.pollhup, re.pollpri⟩
  fail := re.pollnval

end Revents

/-- `struct pollfd` -/
structure PollFd where
  fd : Fd
  events : Bits
  revents : Revents
  deriving DecidableEq, Repr

abbrev Pollset := List PollFd

/-- The condition of each descriptor when the call returns, or an error. -/
abbrev PollOs := Option (Fd → Revents)

/-- `pth_pollset_add` -/
def pollsetAdd : Pollset → Fd → Bits → Pollset
  | [], fd, ev => [⟨fd, ev, .zero⟩]
  | p :: l, fd, ev =>
    if p.fd = fd then { p with events := p.events.or ev } :: l else p :: pollsetAdd l fd ev

/-- `pth_pollset_revents` -/
def pollsetRevents : Pollset → Fd → Revents
  | [], _ => .zero
  | p :: l, fd => if p.fd = fd then p.revents else pollsetRevents l fd

namespace Poll

def wantSelect (q : Pollset) (mem : Mem) (a : SelectArgs) : Pollset :=
  (List.range a.nfd).foldl
    (fun q fd => if (a.bits mem fd).any then pollsetAdd q fd (a.bits mem fd) else q) q

def wait (pipe : Fd) (os : PollOs) (q : Pollset) (dopoll : Bool) : Pollset × Int :=
  let q := pollsetAdd q pipe ⟨true, false, false⟩
  if dopoll ∧ q.isEmpty then (q, -1)
  else match os with
    | some cond =>
      let q := q.map fun p => { p with revents := (cond p.fd).mask p.events }
      (q, q.countP (·.revents.any))
    | none => (q, -1)

/-- The signal pipe is taken off the count but keeps its `revents`. -/
def adjust (pipe : Fd) (q : Pollset) (dopoll : Bool) (rc : Int) : Pollset × Int :=
  let rc := if !dopoll ∧ rc > 0 ∧ (pollsetRevents q pipe).pollin then rc - 1 else rc
  (if rc = 0 then q.map ({ · with revents := .zero }) else q, rc)

def reply (q : Pollset) (fd : Fd) : Reply := (pollsetRevents q fd).reply

end Poll

def pollCore (pipe : Fd) : Core Pollset PollOs where
  clear _ := []
  wantFd := pollsetAdd
  wantSelect := Poll.wantSelect
  wait os q _ dopoll _ := Poll.wait pipe os q dopoll
  adjust := Poll.adjust pipe
  lateFd _ _ q fd goal := (q, replyFd (Poll.reply q fd) goal)
  lateSelect _ _ q mem a := (q, replySelect (Poll.reply q) mem a)

end GnuPth.Manager
