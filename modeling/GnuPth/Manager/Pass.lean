import GnuPth.Sched.EventManager

/-!
# The event managers and descriptors

`pth_sched_eventmanager_select`, `_poll` and `_evport` scan the waiting queue, wait,
and go through the waiting queue again in the same way. They differ in the
descriptors: how the interest of all events is collected, how the OS is asked,
and how its answer is read for an event. A `Core` is that part of an event
manager; the rest is written once, and `eventmanager` puts the two together.

The fd sets of a `SELECT` event and the variables that an event fills in are in
the memory of the application, and events may share them. What the two drains
of the inbox do to the state comes in as functions, and so do the functions of
the application that a function event tests; these write to the memory only.
-/

namespace GnuPth.Manager

open Function (update)
open Sched (EventId Timer)

abbrev Fd := Nat

abbrev SetAddr := Nat

abbrev IntAddr := Nat

abbrev PortAddr := Nat

/-- One bit for each of readable, writeable and exceptional. -/
structure Bits where
  r : Bool
  w : Bool
  e : Bool
  deriving DecidableEq, Repr

namespace Bits

def zero : Bits := ⟨false, false, false⟩

def or (a b : Bits) : Bits := ⟨a.r || b.r, a.w || b.w, a.e || b.e⟩

def and (a b : Bits) : Bits := ⟨a.r && b.r, a.w && b.w, a.e && b.e⟩

def any (a : Bits) : Bool := a.r || a.w || a.e

def count (a : Bits) : Nat := a.r.toNat + a.w.toNat + a.e.toNat

end Bits

/-- A read, a write and an exception set. -/
abbrev Sets := Fd → Bits

def Sets.zero : Sets := fun _ => .zero

def Sets.add (sets : Sets) (fd : Fd) (bits : Bits) : Sets :=
  update sets fd ((sets fd).or bits)

/-! ### Memory -/

@[ext] structure Mem where
  set : SetAddr → Fd → Bool
  int : IntAddr → Int

/-- `FD_CLR` -/
def Mem.clear (mem : Mem) (a : SetAddr) (fd : Fd) : Mem :=
  { mem with set := update mem.set a (update (mem.set a) fd false) }

def Mem.store (mem : Mem) (a : Option IntAddr) (v : Int) : Mem :=
  match a with
  | some a => { mem with int := update mem.int a v }
  | none => mem

/-- `ev_args.SELECT` -/
structure SelectArgs where
  nfd : Nat
  rfds : Option SetAddr
  wfds : Option SetAddr
  efds : Option SetAddr
  n : Option IntAddr
  deriving DecidableEq, Repr

/-- `FD_ISSET`; `NULL` is an empty set. -/
def Mem.isset (mem : Mem) (a : Option SetAddr) (fd : Fd) : Bool :=
  match a with
  | some a => mem.set a fd
  | none => false

def SelectArgs.bits (a : SelectArgs) (mem : Mem) (fd : Fd) : Bits :=
  ⟨mem.isset a.rfds fd, mem.isset a.wfds fd, mem.isset a.efds fd⟩

/-- `pth_util_fds_test` -/
def fdsTest (a : SelectArgs) (mem : Mem) (out : Sets) : Bool :=
  (List.range a.nfd).any fun fd => ((a.bits mem fd).and (out fd)).any

/-- One of the three sets in `pth_util_fds_select`. -/
def keepOccurred (a : Option SetAddr) (occurred : Bool) (fd : Fd) (c : Mem × Nat) : Mem × Nat :=
  match a with
  | none => c
  | some a =>
    if c.1.set a fd then
      if occurred then (c.1, c.2 + 1) else (c.1.clear a fd, c.2)
    else c

def keepFd (a : SelectArgs) (out : Sets) (c : Mem × Nat) (fd : Fd) : Mem × Nat :=
  let c := keepOccurred a.rfds (out fd).r fd c
  let c := keepOccurred a.wfds (out fd).w fd c
  keepOccurred a.efds (out fd).e fd c

/-- `pth_util_fds_select` -/
def fdsSelect (a : SelectArgs) (mem : Mem) (out : Sets) : Mem × Nat :=
  (List.range a.nfd).foldl (keepFd a out) (mem, 0)

def selectOccurred (a : SelectArgs) (mem : Mem) (out : Sets) : Mem :=
  (fdsSelect a mem out).1.store a.n (fdsSelect a mem out).2

/-! ### The state -/

/-- `ev_args.SIGS` -/
structure SigsArgs where
  sigs : List Int
  sig : Option IntAddr
  deriving DecidableEq, Repr

/-- The scheduler with the arguments of its events and the memory they are in. -/
structure St where
  sched : Sched.State
  fdArgs : EventId → Fd × Bits
  selectArgs : EventId → SelectArgs
  sigsArgs : EventId → SigsArgs
  msgPort : EventId → PortAddr
  elements : PortAddr → Nat
  mem : Mem

namespace St

variable (s : St)

def event (e : EventId) : Sched.Event := s.sched.event e

def pending (e : EventId) : Bool := (s.event e).status = .pending

def ring (t : Tid) : List EventId := (s.sched.tcb t).events

def refers (e : EventId) (fd : Fd) : Bool :=
  match (s.event e).spec with
  | .fd => (s.fdArgs e).1 = fd
  | .select => fd < (s.selectArgs e).nfd && ((s.selectArgs e).bits s.mem fd).any
  | _ => false

def waitsOn (fd : Fd) : Bool :=
  (s.sched.members .wq).any fun t => (s.ring t).any fun e => s.pending e && s.refers e fd

def setStatus (e : EventId) (st : Status) : St := { s with sched := s.sched.setStatus e st }

def tag (e : EventId) : St := { s with sched := (Sched.logFired s.sched e).setStatus e .occurred }

def store (a : Option IntAddr) (v : Int) : St := { s with mem := s.mem.store a v }

end St

/-- The part of an event manager that deals with descriptors. `Q` is what it keeps
of them, `A` is what the OS answers to it. -/
structure Core (Q A : Type) where
  -- at `loop_entry`
  clear : Q → Q
  -- during the scan
  wantFd : Q → Fd → Bits → Q
  wantSelect : Q → Mem → SelectArgs → Q
  -- the wait call, with the clock at the start of the pass, `dopoll` and `delay`
  wait : A → Q → Timeval → Bool → Option Timeval → Q × Int
  -- the results adjusted for the signal pipe
  adjust : Q → Bool → Int → Q × Int
  -- the late handling
  lateFd : A → Int → Q → Fd → Bits → Q × Option Status
  lateSelect : A → Int → Q → Mem → SelectArgs → Q × Option (Status × Mem)

/-- The functions of the application, and `PTH_NSIG`. -/
structure Env where
  func : EventId → St → Bool × Mem
  nsig : Nat

/-- What comes from outside during a turn of the loop, descriptors apart: the
clock, what the drains do, the signals that are pending for the process, and
those that arrive during the wait. -/
structure Input where
  now : Timeval
  drain : St → Bool × St
  redrain : St → St
  sigpending : List Int
  caught : List Int

def Env.sigs (env : Env) : List Int := (List.range' 1 (env.nsig - 1)).map Int.ofNat

section
variable {Q : Type}

/-! ### The scan -/

structure SigScan where
  st : St
  sigpending : List Int
  sigcatch : List Int
  occurred : Bool

/-- "thread signal handling"; the variable is filled in without a test for `NULL`. -/
def threadSig (t : Tid) (a : SigsArgs) (c : SigScan) (sig : Int) : SigScan :=
  if sig ∈ (c.st.sched.tcb t).sigpending then
    let s := c.st.store a.sig sig
    let sched := s.sched.setTcb t fun b =>
      { b with sigpending := b.sigpending.filter (· ≠ sig), sigpendcnt := b.sigpendcnt - 1 }
    { c with
      st := { s with sched := { sched with fault := sched.fault || a.sig.isNone } }
      occurred := true }
  else c

def processSig (a : SigsArgs) (c : SigScan) (sig : Int) : SigScan :=
  if sig ∈ c.sigpending then
    { c with
      st := c.st.store a.sig sig
      sigpending := c.sigpending.filter (· ≠ sig)
      occurred := true }
  else { c with sigcatch := sig :: c.sigcatch }

def scanSig (t : Tid) (a : SigsArgs) (c : SigScan) (sig : Int) : SigScan :=
  if sig ∈ a.sigs then processSig a (threadSig t a c sig) sig else c

structure Scan (Q : Type) where
  st : St
  req : Q
  sigpending : List Int
  sigcatch : List Int
  anyOccurred : Bool
  timer : Option Timer

namespace Scan

variable (c : Scan Q)

def tag (e : EventId) : Scan Q := { c with st := c.st.tag e, anyOccurred := true }

def tagIf (occurred : Bool) (e : EventId) : Scan Q := if occurred then c.tag e else c

def remember (t : Tid) (e : EventId) (tv : Timeval) : Scan Q :=
  { c with timer := Sched.nextTimer c.timer t e tv }

def sigs (env : Env) (t : Tid) (e : EventId) : Scan Q :=
  let d := env.sigs.foldl (scanSig t (c.st.sigsArgs e)) ⟨c.st, c.sigpending, c.sigcatch, false⟩
  tagIf { c with st := d.st, sigpending := d.sigpending, sigcatch := d.sigcatch } d.occurred e

/-- A function event is tested: `pth_exit_cb`, or a function of the application. -/
def func (env : Env) (exitCb : Bool) (e : EventId) : Bool × Mem :=
  if exitCb then (Sched.exitCb c.st.sched, c.st.mem) else env.func e c.st

end Scan

def scanEvent (K : Core Q A) (env : Env) (now : Timeval) (t : Tid) (c : Scan Q) (e : EventId) :
    Scan Q :=
  if (c.st.event e).status ≠ .pending then c
  else match (c.st.event e).spec with
    | .fd => { c with req := K.wantFd c.req (c.st.fdArgs e).1 (c.st.fdArgs e).2 }
    | .select => { c with req := K.wantSelect c.req c.st.mem (c.st.selectArgs e) }
    | .sigs => c.sigs env t e
    | .time tv => if timeCmp tv now < 0 then c.tag e else c.remember t e tv
    | .msg => c.tagIf (0 < c.st.elements (c.st.msgPort e)) e
    | .notify => c
    | .tid u goal => c.tagIf (Sched.tidOccurred c.st.sched u goal) e
    | .func exitCb tv =>
      let (occurred, mem) := c.func env exitCb e
      let c := { c with st := { c.st with mem } }
      if occurred then c.tag e else c.remember t e (timeAdd now tv)

def scanThread (K : Core Q A) (env : Env) (now : Timeval) (c : Scan Q) (t : Tid) : Scan Q :=
  let c := if (c.st.sched.tcb t).cancelreq then { c with anyOccurred := true } else c
  (c.st.ring t).foldl (scanEvent K env now t) c

def scanQueue (K : Core Q A) (env : Env) (now : Timeval) (c : Scan Q) : Scan Q :=
  (c.st.sched.members .wq).foldl (scanThread K env now) c

/-! ### The late handling -/

structure Late (Q : Type) where
  st : St
  req : Q
  sigraised : List Int

def lateSig (a : SigsArgs) (e : EventId) (l : Late Q) (sig : Int) : Late Q :=
  if sig ∈ a.sigs ∧ sig ∈ l.sigraised then
    { l with
      st := (l.st.store a.sig sig).setStatus e .occurred
      sigraised := l.sigraised.filter (· ≠ sig) }
  else l

def Late.fd (l : Late Q) (e : EventId) (res : Q × Option Status) : Late Q :=
  match res with
  | (req, some status) => { l with st := l.st.setStatus e status, req }
  | (req, none) => { l with req }

def Late.select (l : Late Q) (e : EventId) (res : Q × Option (Status × Mem)) : Late Q :=
  match res with
  | (req, some (status, mem)) => { l with st := { l.st.setStatus e status with mem }, req }
  | (req, none) => { l with req }

def lateEvent (K : Core Q A) (env : Env) (os : A) (rc : Int) (l : Late Q) (e : EventId) : Late Q :=
  if (l.st.event e).status ≠ .pending then l
  else match (l.st.event e).spec with
    | .fd => l.fd e (K.lateFd os rc l.req (l.st.fdArgs e).1 (l.st.fdArgs e).2)
    | .select => l.select e (K.lateSelect os rc l.req l.st.mem (l.st.selectArgs e))
    | .sigs => env.sigs.foldl (lateSig (l.st.sigsArgs e) e) l
    | _ => l

/-- "move last thread to ready queue if any events occurred for it" -/
def toReady (s : St) (t : Tid) : St :=
  if Sched.anyOccurred s.sched t then
    { s with
      sched := ((s.sched.dequeue .wq t).setTcb t ({ · with state := .ready })).enqueue .rq
        ((s.sched.tcb t).prio + 1) t }
  else s

def cleanupThread (K : Core Q A) (env : Env) (os : A) (rc : Int) (l : Late Q) (t : Tid) : Late Q :=
  let l := (l.st.ring t).foldl (lateEvent K env os rc) l
  { l with st := toReady l.st t }

/-- The final cleanup loop. The walk takes the next thread before it moves one. -/
def cleanupLoop (K : Core Q A) (env : Env) (os : A) (rc : Int) (l : Late Q) : Late Q :=
  (l.st.sched.members .wq).foldl (cleanupThread K env os rc) l

/-! ### A turn of the loop -/

/-- `dopoll` and the local variables behind the scan. -/
structure Scanned (Q : Type) where
  dopoll : Bool
  scan : Scan Q

def scanned (K : Core Q A) (env : Env) (i : Input) (dopoll : Bool) (q : Q) (s : St) : Scanned Q :=
  let drained := i.drain s
  let scan := scanQueue K env i.now ⟨drained.2, K.clear q, i.sigpending, [], false, none⟩
  ⟨dopoll || drained.1 || scan.anyOccurred, scan⟩

/-- "now decide how to poll for fd I/O and timers" -/
def Scanned.delay (c : Scanned Q) (now : Timeval) : Option Timeval :=
  if c.dopoll then some ⟨0, 0⟩ else c.scan.timer.map fun n => timeSub n.value now

def Scanned.wait (K : Core Q A) (c : Scanned Q) (now : Timeval) (os : A) : Q × Int :=
  K.wait os c.scan.req now c.dopoll (c.delay now)

/-- The second drain and the timer branch; the second component is `loop_repeat`. -/
def Scanned.timers (c : Scanned Q) (i : Input) (rc : Int) : St × Bool :=
  let s := i.redrain c.scan.st
  let (sched, loopRepeat) := Sched.timerBranch s.sched c.dopoll c.scan.timer (rc = 0)
  ({ s with sched }, loopRepeat)

/-- What the late handling starts with, and the result of the wait call then. -/
def Scanned.late (K : Core Q A) (c : Scanned Q) (i : Input) (os : A) : Late Q × Int :=
  let waited := c.wait K i.now os
  let adjusted := K.adjust waited.1 c.dopoll waited.2
  (⟨(c.timers i waited.2).1, adjusted.1, c.scan.sigcatch.filter (· ∈ i.caught)⟩, adjusted.2)

structure Passed (Q : Type) where
  st : St
  req : Q
  dopoll : Bool
  loopRepeat : Bool

/-- One turn of the loop of an event manager. -/
def pass (K : Core Q A) (env : Env) (i : Input) (os : A) (dopoll : Bool) (q : Q) (s : St) :
    Passed Q :=
  let c := scanned K env i dopoll q s
  let late := c.late K i os
  let l := cleanupLoop K env os late.2 late.1
  ⟨l.st, l.req, c.dopoll, (c.timers i (c.wait K i.now os).2).2⟩

/-- The event manager, for at most as many turns as there are answers. When it is
cut short, `loopRepeat` says that it would go on. -/
def eventmanager (K : Core Q A) (env : Env) : List (Input × A) → Bool → Q → St → Passed Q
  | [], dopoll, q, s => ⟨s, q, dopoll, true⟩
  | (i, os) :: turns, dopoll, q, s =>
    let p := pass K env i os dopoll q s
    if p.loopRepeat then eventmanager K env turns p.dopoll p.req p.st else p

end

/-! ### Waiting threads -/

def St.waiting (wq : List Tid) (spec : EventId → Sched.Spec) : St where
  sched :=
    { tcb := fun t =>
        { (Sched.Attr.tcb ⟨prioStd, true, true, false⟩ true) with
          state := .waiting
          events := [t] }
      event := fun e => ⟨spec e, .pending, true, none⟩
      queue := fun n => if n = .wq then wq.map fun t => (t, prioStd) else []
      ctl := .loop
      cleaning := []
      inbox := []
      stop := false
      clock := 0
      fault := false
      fired := []
      spawned := []
      adoptions := [] }
  fdArgs _ := (0, .zero)
  selectArgs _ := ⟨0, none, none, none, none⟩
  sigsArgs _ := ⟨[], none⟩
  msgPort _ := 0
  elements _ := 0
  mem := ⟨fun _ _ => false, fun _ => 0⟩

def Env.plain : Env := ⟨fun _ s => (false, s.mem), 65⟩

def Input.quiet : Input := ⟨⟨0, 0⟩, fun s => (false, s), id, [], []⟩

end GnuPth.Manager
