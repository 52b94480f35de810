import GnuPth.Lib.Program
import Mathlib.Algebra.Order.Ring.Int

/-!
# The I/O functions

The functions of `pth_high.c` that transfer data, with the requests they make
of the kernel and of the scheduler. What the answers are is left open here.
-/

namespace GnuPth

namespace Io

open Program

abbrev Fd := Nat

abbrev Bytes := List UInt8

inductive Errno
  | EINTR
  | EAGAIN
  | EWOULDBLOCK
  | EINPROGRESS
  | EBADF
  | EINVAL
  | ENOMEM
  | other (code : Nat)
  deriving DecidableEq, Repr

/-- A result, or -1 with `errno`. -/
inductive Res (α : Type)
  | ok (a : α)
  | error (e : Errno)
  deriving DecidableEq, Repr

def Res.toOption {α : Type} : Res α → Option α
  | .ok a => some a
  | .error _ => none

inductive FdMode
  | error
  | poll
  | block
  | nonblock
  deriving DecidableEq, Repr

inductive Goal
  | readable
  | writeable
  deriving DecidableEq, Repr

inductive Status
  | pending
  | occurred
  | failed
  deriving DecidableEq, Repr

/-- The keys of the static events (`PTH_MODE_STATIC`), by the function that
has them. -/
inductive Site
  | select
  | timeout
  | connect
  | accept
  | read
  | readv
  | recvfrom
  | write
  | writev
  | sendto
  deriving DecidableEq, Repr

/-- An event of the calling thread: a static one, or one of the application. -/
inductive Ev
  | static (site : Site)
  | extra (n : Nat)
  deriving DecidableEq, Repr

/-- The three sets of `select(2)`; `none` is `NULL`. -/
structure FdSets where
  rfds : Option (Fd → Bool)
  wfds : Option (Fd → Bool)
  efds : Option (Fd → Bool)

def FdSets.zero (sets : FdSets) : FdSets where
  rfds := sets.rfds.map fun _ _ => false
  wfds := sets.wfds.map fun _ _ => false
  efds := sets.efds.map fun _ _ => false

structure Timeval where
  sec : Int
  usec : Int
  deriving DecidableEq, Repr

/-- What an event waits for. A `SELECT` event refers to sets in the memory of
the caller. -/
inductive EvArgs
  | fd (fd : Fd) (goal : Goal)
  | select (nfd : Nat) (sets : FdSets)
  | time (timeout : Timeval)

/-- The static mutexes of `pth_pread` and `pth_pwrite`. -/
inductive OffsetMutex
  | pread
  | pwrite
  deriving DecidableEq, Repr

/-! ### Requests -/

inductive Request
  -- `fcntl(fd, F_GETFL)`, as far as `O_NONBLOCK` goes
  | getfl (fd : Fd)
  | setfl (fd : Fd) (nonblock : Bool)
  -- `poll` or `select` on one descriptor, with a timeout of zero
  | poll (fd : Fd) (goal : Goal)
  | select (nfd : Nat) (sets : FdSets) (delay : Timeval)
  | connect (fd : Fd)
  | accept (fd : Fd)
  -- `getsockopt(fd, SOL_SOCKET, SO_ERROR)`
  | sockError (fd : Fd)
  | read (fd : Fd) (nbytes : Nat)
  -- the lengths of the vector
  | readv (fd : Fd) (iov : List Nat)
  | recvfrom (fd : Fd) (nbytes : Nat)
  | write (fd : Fd) (buf : Bytes)
  | writev (fd : Fd) (iov : List Bytes)
  | sendto (fd : Fd) (buf : Bytes)
  | seekCur (fd : Fd)
  | seekSet (fd : Fd) (offset : Int)
  | malloc
  | acquire (m : OffsetMutex)
  | release (m : OffsetMutex)
  -- the structure of a static event as a ring of its own, pending
  | static (site : Site)
  | init (ev : Ev) (args : EvArgs)
  | concat (ev : Ev) (rings : List Ev)
  | isolate (ev : Ev)
  | status (ev : Ev)
  | wait (ev : Ev)
  -- what is in the memory that a `SELECT` event refers to
  | selected

/-- `pth_wait` comes back, or a cancellation request is acted upon in it. -/
inductive Waited
  | returned
  | cancelled
  deriving DecidableEq, Repr

inductive Acquired
  | acquired
  | failed (e : Errno)
  | cancelled
  deriving DecidableEq, Repr

abbrev Answer : Request → Type
  | .getfl _ => Option Bool
  | .setfl .. => Unit
  | .poll .. => Res Nat
  | .select .. => Res (Nat × FdSets)
  | .connect _ => Res Unit
  | .accept _ => Res Fd
  | .sockError _ => Res (Option Errno)
  | .read .. | .readv .. | .recvfrom .. => Res Bytes
  | .write .. | .writev .. | .sendto .. => Res Nat
  | .seekCur _ | .seekSet .. => Res Nat
  | .malloc => Bool
  | .acquire _ => Acquired
  | .release _ => Unit
  | .static _ => Res Unit
  | .init .. | .concat .. | .isolate _ => Unit
  | .status _ => Status
  | .wait _ => Waited
  | .selected => Int × FdSets

/-- How a call is left without a return: `pth_exit` in a cancellation, or the
bound on the turns of a loop. -/
inductive Stop
  | cancelled
  | fuel
  deriving DecidableEq, Repr

abbrev Code := Prog Request Answer Stop

def getfl (fd : Fd) : Code (Option Bool) := perform (Request.getfl fd)

def setfl (fd : Fd) (nonblock : Bool) : Code Unit := perform (Request.setfl fd nonblock)

def poll (fd : Fd) (goal : Goal) : Code (Res Nat) := perform (Request.poll fd goal)

def connect (fd : Fd) : Code (Res Unit) := perform (Request.connect fd)

def accept (fd : Fd) : Code (Res Fd) := perform (Request.accept fd)

def sockError (fd : Fd) : Code (Res (Option Errno)) := perform (Request.sockError fd)

def read (fd : Fd) (nbytes : Nat) : Code (Res Bytes) := perform (Request.read fd nbytes)

def readv (fd : Fd) (iov : List Nat) : Code (Res Bytes) := perform (Request.readv fd iov)

def recvfrom (fd : Fd) (nbytes : Nat) : Code (Res Bytes) := perform (Request.recvfrom fd nbytes)

def write (fd : Fd) (buf : Bytes) : Code (Res Nat) := perform (Request.write fd buf)

def writev (fd : Fd) (iov : List Bytes) : Code (Res Nat) := perform (Request.writev fd iov)

def sendto (fd : Fd) (buf : Bytes) : Code (Res Nat) := perform (Request.sendto fd buf)

def select (nfd : Nat) (sets : FdSets) (delay : Timeval) : Code (Res (Nat × FdSets)) :=
  perform (Request.select nfd sets delay)

def selected : Code (Int × FdSets) := perform Request.selected

def seekCur (fd : Fd) : Code (Res Nat) := perform (Request.seekCur fd)

def seekSet (fd : Fd) (offset : Int) : Code (Res Nat) := perform (Request.seekSet fd offset)

def acquire (m : OffsetMutex) : Code Acquired := perform (Request.acquire m)

def release (m : OffsetMutex) : Code Unit := perform (Request.release m)

def malloc : Code Bool := perform Request.malloc

def static (site : Site) : Code (Res Unit) := perform (Request.static site)

def init (ev : Ev) (args : EvArgs) : Code Unit := perform (Request.init ev args)

/-! ### Helpers -/

/-- The build: the core over `select(2)` has no room for descriptors from
`FD_SETSIZE` on, the core over `poll(2)` has no such limit. The number of turns
of a loop is bounded by `fuel`. -/
structure Build where
  fdSetsize : Nat
  pollCore : Bool
  fuel : Nat
  deriving Repr

section
variable (b : Build)

/-- `while ((n = call(..)) < 0 && errno == EINTR) ;` -/
def retry {α : Type} (call : Code (Res α)) : Code (Res α) :=
  Prog.iterate .fuel (fun _ : Unit => do
    match ← call with
    | .error .EINTR => return .inl ()
    | r => return .inr r) b.fuel ()

def Build.holds (fd : Fd) : Bool := b.pollCore || fd < b.fdSetsize

def pthUtilFdValid (fd : Fd) : Code Bool := do
  if !b.holds fd then return false
  return (← getfl fd).isSome

def pthFdmode (fd : Fd) (newmode : FdMode) : Code FdMode := do
  match ← getfl fd with
  | none => return .error
  | some true =>
    if newmode = .block then setfl fd false
    return .nonblock
  | some false =>
    if newmode = .nonblock then setfl fd true
    return .block

/-- `pth_event(PTH_EVENT_FD|goal|PTH_MODE_STATIC, &ev_key, fd)` -/
def pthEventFd (site : Site) (fd : Fd) (goal : Goal) : Code (Res Ev) := do
  match ← static site with
  | .error e => return .error e
  | .ok _ =>
    if !(← pthUtilFdValid b fd) then return .error .EBADF
    init (.static site) (.fd fd goal)
    return .ok (.static site)

/-- `pth_event` for a `SELECT` or `TIME` event. -/
def pthEvent (site : Site) (args : EvArgs) : Code (Option Ev) := do
  match ← static site with
  | .error _ => return none
  | .ok _ =>
    init (.static site) args
    return some (.static site)

/-- `pth_event_concat(ev, ring, NULL)` -/
def pthEventConcat (ev : Option Ev) (ring : Option Ev) : Code Unit :=
  match ev, ring with
  | some ev, some ring => perform (Request.concat ev [ring])
  | some ev, none => perform (Request.concat ev [])
  | none, _ => return ()

def pthEventIsolate (ev : Option Ev) : Code Unit :=
  match ev with
  | some ev => perform (Request.isolate ev)
  | none => return ()

/-- `pth_event_status(ev)`; that of `NULL` is `FALSE`, which is pending. -/
def pthEventStatus (ev : Option Ev) : Code Status :=
  match ev with
  | some ev => perform (Request.status ev)
  | none => return .pending

def pthWait (ev : Option Ev) : Code Unit :=
  match ev with
  | some ev => do
    match ← perform (Request.wait ev) with
    | .returned => return ()
    | .cancelled => .halt .cancelled
  | none => return ()

-- `NULL` as an event is refused
@[simp] theorem pthEventConcat_none (ring : Option Ev) : pthEventConcat none ring = pure () := rfl

@[simp] theorem pthEventIsolate_none : pthEventIsolate none = pure () := rfl

@[simp] theorem pthWait_none : pthWait none = pure () := rfl

/-- Wait for an event together with the extra ones. With extra events the result
tells whether it was the event itself that occurred. -/
def waitWith (ev : Option Ev) (extra : Option Ev) : Code Bool := do
  if extra.isSome then pthEventConcat ev extra
  pthWait ev
  if extra.isSome then
    pthEventIsolate ev
    return (← pthEventStatus ev) = .occurred
  return true

/-- Wait until a descriptor is ready. A failure of `pth_event` goes unnoticed. -/
def waitFd (site : Site) (fd : Fd) (goal : Goal) (extra : Option Ev) : Code Bool := do
  let ev ← pthEventFd b site fd goal
  waitWith ev.toOption extra

/-! ### Sockets -/

def pthConnectEv (fd : Fd) (extra : Option Ev) : Code (Res Unit) := do
  if !(← pthUtilFdValid b fd) then return .error .EBADF
  let fdmode ← pthFdmode fd .nonblock
  if fdmode = .error then return .error .EBADF
  let rv ← retry b (connect fd)
  let _ ← pthFdmode fd fdmode
  if rv = .error .EINPROGRESS ∧ fdmode ≠ .nonblock then
    match ← pthEventFd b .connect fd .writeable with
    | .error e => return .error e
    | .ok ev =>
      if !(← waitWith (some ev) extra) then return .error .EINTR
      match ← sockError fd with
      | .error e => return .error e
      | .ok none => return .ok ()
      | .ok (some e) => return .error e
  return rv

/-- How the loop of a function that restores the mode at its end is left. -/
inductive LoopExit (α : Type)
  -- to the end of the function
  | done (rv : α)
  -- to a return from inside the loop
  | left (e : Errno)

/-- "do lazy event allocation": the event is made by the first turn that waits,
and only then is it put into a ring with the extra ones. -/
def acceptEvent (fd : Fd) (extra : Option Ev) (ev : Option Ev) : Code (Res Ev) := do
  match ev with
  | some ev => return .ok ev
  | none =>
    match ← pthEventFd b .accept fd .readable with
    | .error e => return .error e
    | .ok ev =>
      if extra.isSome then pthEventConcat (some ev) extra
      return .ok ev

/-- A turn of the loop of `pth_accept_ev`. -/
def acceptTurn (fd : Fd) (fdmode : FdMode) (extra : Option Ev) (ev : Option Ev) :
    Code (Option Ev ⊕ LoopExit (Res Fd)) := do
  match ← accept fd with
  | .ok fd' => return .inr (.done (.ok fd'))
  | .error e =>
    if (e = .EAGAIN ∨ e = .EWOULDBLOCK) ∧ fdmode ≠ .nonblock then
      match ← acceptEvent b fd extra ev with
      | .error e => return .inr (.left e)
      | .ok ev =>
        pthWait (some ev)
        if extra.isSome then
          pthEventIsolate (some ev)
          if (← pthEventStatus (some ev)) ≠ .occurred then
            let _ ← pthFdmode fd fdmode
            return .inr (.left .EINTR)
        return .inl (some ev)
    else return .inr (.done (.error e))

def pthAcceptEv (fd : Fd) (extra : Option Ev) : Code (Res Fd) := do
  if !(← pthUtilFdValid b fd) then return .error .EBADF
  let fdmode ← pthFdmode fd .nonblock
  if fdmode = .error then return .error .EBADF
  match ← Prog.iterate .fuel (acceptTurn b fd fdmode extra) b.fuel none with
  | .left e => return .error e
  | .done rv =>
    let _ ← pthFdmode fd fdmode
    if let .ok fd' := rv then
      let _ ← pthFdmode fd' fdmode
    return rv

/-! ### Reading -/

def uioMaxiov : Nat := 1024

def notReady : Res Nat → Bool
  | .ok n => n < 1
  | .error _ => true

def pthReadEv (fd : Fd) (nbytes : Nat) (extra : Option Ev) : Code (Res Bytes) := do
  if nbytes = 0 then return .ok []
  if !(← pthUtilFdValid b fd) then return .error .EBADF
  let fdmode ← pthFdmode fd .poll
  if fdmode = .error then return .error .EBADF
  if fdmode = .block then
    match ← retry b (poll fd .readable) with
    | .error .EINVAL => return .error .EINVAL
    | .error .EBADF => return .error .EBADF
    | n =>
      if n = .ok 0 then
        if !(← waitFd b .read fd .readable extra) then return .error .EINTR
  retry b (read fd nbytes)

/-- Here every error of the poll leads to a wait. -/
def pthReadvEv (fd : Fd) (iov : List Nat) (extra : Option Ev) : Code (Res Bytes) := do
  if iov.length = 0 ∨ uioMaxiov < iov.length then return .error .EINVAL
  if !(← pthUtilFdValid b fd) then return .error .EBADF
  let fdmode ← pthFdmode fd .poll
  if fdmode = .error then return .error .EBADF
  if fdmode = .block then
    let n ← retry b (poll fd .readable)
    if notReady n then
      if !(← waitFd b .readv fd .readable extra) then return .error .EINTR
  retry b (readv fd iov)

def pthRecvfromEv (fd : Fd) (nbytes : Nat) (extra : Option Ev) : Code (Res Bytes) := do
  if nbytes = 0 then return .ok []
  if !(← pthUtilFdValid b fd) then return .error .EBADF
  let fdmode ← pthFdmode fd .poll
  if fdmode = .error then return .error .EBADF
  if fdmode = .block then
    if !(← pthUtilFdValid b fd) then return .error .EBADF
    match ← retry b (poll fd .readable) with
    | .error .EINVAL => return .error .EINVAL
    | .error .EBADF => return .error .EBADF
    | n =>
      if n = .ok 0 then
        if !(← waitFd b .recvfrom fd .readable extra) then return .error .EINTR
  retry b (recvfrom fd nbytes)

/-! ### Writing -/

structure Writing (δ : Type) where
  -- the result of the poll, or 0 after a partial write
  ready : Res Nat
  rest : δ
  nbytes : Nat
  rv : Nat

/-- What `pth_write_ev`, `pth_writev_ev` and `pth_sendto_ev` differ in: the
event, the system call, how the data advances, and when the first turn waits. -/
structure WriteKind (δ : Type) where
  site : Site
  call (rest : δ) : Code (Res Nat)
  advance (n : Nat) (rest : δ) : δ
  waits (ready : Res Nat) : Bool

/-- "now perform the actual write operation" -/
def writeCall {δ : Type} (k : WriteKind δ) (w : Writing δ) :
    Code (Writing δ ⊕ LoopExit (Res Nat)) := do
  match ← retry b (k.call w.rest) with
  | .ok s =>
    if 0 < s ∧ s < w.nbytes then
      return .inl ⟨.ok 0, k.advance s w.rest, w.nbytes - s, w.rv + s⟩
    else return .inr (.done (.ok (w.rv + s)))
  | .error e => return .inr (.done (if w.rv = 0 then .error e else .ok w.rv))

def writeTurn {δ : Type} (k : WriteKind δ) (fd : Fd) (fdmode : FdMode) (extra : Option Ev)
    (w : Writing δ) : Code (Writing δ ⊕ LoopExit (Res Nat)) := do
  if k.waits w.ready then
    if !(← waitFd b k.site fd .writeable extra) then
      let _ ← pthFdmode fd fdmode
      return .inr (.left .EINTR)
  writeCall b k w

/-- The loop of the three functions, and the restore of the mode after it. -/
def writeLoop {δ : Type} (k : WriteKind δ) (fd : Fd) (fdmode : FdMode) (extra : Option Ev)
    (w : Writing δ) : Code (Res Nat) := do
  match ← Prog.iterate .fuel (writeTurn b k fd fdmode extra) b.fuel w with
  | .left e => return .error e
  | .done rv =>
    let _ ← pthFdmode fd fdmode
    return rv

/-- A descriptor that is in non-blocking mode already: one system call. -/
def writeOnce (fd : Fd) (fdmode : FdMode) (call : Code (Res Nat)) : Code (Res Nat) := do
  let rv ← retry b call
  let _ ← pthFdmode fd fdmode
  return rv

def writeKind (fd : Fd) : WriteKind Bytes where
  site := .write
  call buf := write fd buf
  advance n buf := buf.drop n
  waits := notReady

def pthWriteEv (fd : Fd) (buf : Bytes) (extra : Option Ev) : Code (Res Nat) := do
  if buf.length = 0 then return .ok 0
  if !(← pthUtilFdValid b fd) then return .error .EBADF
  let fdmode ← pthFdmode fd .nonblock
  if fdmode = .error then return .error .EBADF
  if fdmode ≠ .nonblock then
    match ← retry b (poll fd .writeable) with
    | .error .EINVAL => return .error .EINVAL
    | .error .EBADF => return .error .EBADF
    | n => writeLoop b (writeKind fd) fd fdmode extra ⟨n, buf, buf.length, 0⟩
  else writeOnce b fd fdmode (write fd buf)

def sendtoKind (fd : Fd) : WriteKind Bytes where
  site := .sendto
  call buf := sendto fd buf
  advance n buf := buf.drop n
  -- `n == 0`
  waits n := n = .ok 0

def pthSendtoEv (fd : Fd) (buf : Bytes) (extra : Option Ev) : Code (Res Nat) := do
  if buf.length = 0 then return .ok 0
  if !(← pthUtilFdValid b fd) then return .error .EBADF
  let fdmode ← pthFdmode fd .nonblock
  if fdmode = .error then return .error .EBADF
  if fdmode ≠ .nonblock then
    if !(← pthUtilFdValid b fd) then
      let _ ← pthFdmode fd fdmode
      return .error .EBADF
    match ← retry b (poll fd .writeable) with
    | .error .EINVAL => return .error .EINVAL
    | .error .EBADF => return .error .EBADF
    | n => writeLoop b (sendtoKind fd) fd fdmode extra ⟨n, buf, buf.length, 0⟩
  else writeOnce b fd fdmode (sendto fd buf)

/-- `pth_writev_iov_bytes` -/
def iovBytes (iov : List Bytes) : Nat := (iov.map List.length).sum

/-- `pth_writev_iov_advance`, on the vector that is left. -/
def iovAdvance : Nat → List Bytes → List Bytes
  | 0, iov => iov
  | _ + 1, [] => []
  | n + 1, v :: iov =>
    if n + 1 < v.length then v.drop (n + 1) :: iov else iovAdvance (n + 1 - v.length) iov
termination_by _ iov => iov.length

theorem iovAdvance_flatten (n : Nat) (iov : List Bytes) :
    (iovAdvance n iov).flatten = iov.flatten.drop n := by
  fun_induction iovAdvance n iov with
  | case1 => rfl
  | case2 => simp
  | case3 n v iov h =>
    rw [List.flatten_cons, List.flatten_cons, List.drop_append_of_le_length (Nat.le_of_lt h)]
  | case4 n v iov h ih =>
    rw [ih, List.flatten_cons, List.drop_append, List.drop_eq_nil_of_le (Nat.le_of_not_lt h),
      List.nil_append]

def writevKind (fd : Fd) : WriteKind (List Bytes) where
  site := .writev
  call iov := writev fd iov
  advance := iovAdvance
  waits := notReady

/-- `sizeof(tiov_stack)`, which is a number of bytes. -/
def sizeofTiovStack : Nat := 32 * 16

def pthWritevEv (fd : Fd) (iov : List Bytes) (extra : Option Ev) : Code (Res Nat) := do
  if iov.length = 0 ∨ uioMaxiov < iov.length then return .error .EINVAL
  if !(← pthUtilFdValid b fd) then return .error .EBADF
  let fdmode ← pthFdmode fd .nonblock
  if fdmode = .error then return .error .EBADF
  if fdmode ≠ .nonblock then
    let room ← if sizeofTiovStack < iov.length then malloc else pure true
    if !room then return .error .ENOMEM
    let n ← retry b (poll fd .writeable)
    writeLoop b (writevKind fd) fd fdmode extra ⟨n, iov, iovBytes iov, 0⟩
  else writeOnce b fd fdmode (writev fd iov)

/-! ### Transfers at an offset -/

/-- Save the offset, seek, transfer, seek back, under a mutex. -/
def atOffset {α : Type} (m : OffsetMutex) (fd : Fd) (offset : Int) (transfer : Code (Res α)) :
    Code (Res α) := do
  match ← acquire m with
  | .failed e => return .error e
  | .cancelled => .halt .cancelled
  | .acquired =>
    match ← seekCur fd with
    | .error e =>
      release m
      return .error e
    | .ok oldOffset =>
      match ← seekSet fd offset with
      | .error e =>
        release m
        return .error e
      | .ok _ =>
        let rc ← transfer
        let _ ← seekSet fd oldOffset
        release m
        return rc

def pthPread (fd : Fd) (nbytes : Nat) (offset : Int) : Code (Res Bytes) :=
  atOffset .pread fd offset (pthReadEv b fd nbytes none)

def pthPwrite (fd : Fd) (buf : Bytes) (offset : Int) : Code (Res Nat) :=
  atOffset .pwrite fd offset (pthWriteEv b fd buf none)

/-! ### Selecting -/

/-- "first deal with the special situation of a plain microsecond delay" -/
def selectDelay (timeout : Timeval) (sets : FdSets) (extra : Option Ev) :
    Code (Res Int × FdSets) := do
  if timeout.sec = 0 ∧ timeout.usec ≤ 10000 then
    let _ ← retry b (select 0 sets timeout)
  else
    let ev ← pthEvent .timeout (.time timeout)
    if !(← waitWith ev extra) then return (.error .EINTR, sets)
  return (.ok 0, sets.zero)

/-- "select return code semantics" -/
def selectResult (ev evTimeout extra : Option Ev) : Code (Res Int × FdSets) := do
  let (rc, sets) ← selected
  let status ← pthEventStatus ev
  let expired ← pthEventStatus evTimeout
  if status = .failed then return (.error .EBADF, sets)
  if expired = .occurred then return (.ok 0, sets.zero)
  if extra.isSome ∧ status ≠ .occurred then return (.error .EINTR, sets)
  return (.ok rc, sets)

/-- The event of the timeout, if there is one, in a ring with `ev`. -/
def selectTimeout (ev : Option Ev) (timeout : Option Timeval) : Code (Option Ev) := do
  match timeout with
  | none => return none
  | some tv =>
    let evTimeout ← pthEvent .timeout (.time tv)
    pthEventConcat ev evTimeout
    return evTimeout

/-- "suspend current thread until one filedescriptor is ready or the timeout
occurred" -/
def selectWait (nfd : Nat) (sets : FdSets) (timeout : Option Timeval) (extra : Option Ev) :
    Code (Res Int × FdSets) := do
  let ev ← pthEvent .select (.select nfd sets)
  let evTimeout ← selectTimeout ev timeout
  if extra.isSome then pthEventConcat ev extra
  pthWait ev
  pthEventIsolate extra
  pthEventIsolate evTimeout
  selectResult ev evTimeout extra

def Timeval.cut (tv : Timeval) : Timeval :=
  if 31 * 24 * 60 * 60 < tv.sec then { tv with sec := 31 * 24 * 60 * 60 } else tv

def Timeval.invalid (tv : Timeval) : Bool := tv.sec < 0 || tv.usec < 0 || 1000000 ≤ tv.usec

/-- The timeout, when there is nothing else to wait for. -/
def plainDelay (nfd : Int) (sets : FdSets) (timeout : Option Timeval) : Option Timeval :=
  if nfd = 0 ∧ sets.rfds.isNone ∧ sets.wfds.isNone ∧ sets.efds.isNone then timeout else none

/-- "now directly poll filedescriptor sets" -/
def selectPoll (nfd : Nat) (sets : FdSets) (timeout : Option Timeval) (extra : Option Ev) :
    Code (Res Int × FdSets) := do
  match ← retry b (select nfd sets ⟨0, 0⟩) with
  | .error e => return (.error e, sets)
  | .ok (rc, ready) =>
    if 0 < rc ∨ timeout = some ⟨0, 0⟩ then return (.ok rc, ready)
    selectWait nfd sets timeout extra

def pthSelectEv (nfd : Int) (sets : FdSets) (timeout : Option Timeval) (extra : Option Ev) :
    Code (Res Int × FdSets) := do
  if nfd < 0 ∨ b.fdSetsize < nfd then return (.error .EINVAL, sets)
  if timeout.any Timeval.invalid then return (.error .EINVAL, sets)
  let timeout := timeout.map Timeval.cut
  match plainDelay nfd sets timeout with
  | some tv => selectDelay b tv sets extra
  | none => selectPoll b nfd.toNat sets timeout extra

end

end Io

end GnuPth
