import GnuPth.Sched.Thread

/-!
# The event manager

One pass over the waiting queue, as the three event managers have it in
common, with the timeout each of them computes for its wait call. What the OS,
the message ports and the functions of the application answer comes in as an
argument: `fires e` for an event tested during the scan, `late e` for a
descriptor, descriptor set or signal event looked at after the wait.
-/

namespace GnuPth.Sched

open Inbox (Gmsg)

/-! ### pth_gsched_drain -/

def adopt (s : State) (t : Tid) : State :=
  let s := { s with adoptions := s.adoptions ++ [t] }
  (s.setTcb t ({ · with state := .new, adopted := true })).enqueue .nq (s.tcb t).prio t

def drainMsg (s : State) (m : Gmsg) : State :=
  match m.kind, m.thread with
  | .wake, _ =>
    match m.event with
    | some e => s.setStatus e .occurred
    | none => s
  | .stop, _ => { s with stop := true }
  | .spawn, some t => adopt s t
  | .reap, some t => reap s t
  | .cancel, some t => (cancelLocal s t).1
  | .raise, some t => raiseLocal s t m.sig
  | .suspend, some t => (suspendLocal s t).1
  | .resume, some t => (resumeLocal s t).1
  | .favor, some t => favorLocal s t
  | .abort, some t => abortLocal s t
  | _, none => s

/-! ### The scan -/

/-- `pth_exit_cb` -/
def exitCb (s : State) : Bool :=
  s.elements .nq + s.elements .rq + s.elements .wq + s.elements .sq = 1

def tidOccurred (s : State) (t : Option Tid) (goal : ThreadState) : Bool :=
  match t with
  | none => s.elements .dq > 0
  | some t => (s.tcb t).state = goal

structure Scan where
  state : State
  anyOccurred : Bool
  timer : Option Timer

/-- Remember `tv` if it is the timer that elapses next. -/
def nextTimer (timer : Option Timer) (t : Tid) (e : EventId) (tv : Timeval) : Option Timer :=
  match timer with
  | none => some ⟨t, e, tv⟩
  | some n => if timeCmp tv n.value < 0 then some ⟨t, e, tv⟩ else some n

/-- Whether a pending event of the scan has occurred; a time event is compared
with the time the pass started at. -/
def scanOccurred (s : State) (now : Timeval) (fires : EventId → Bool) (e : EventId) : Bool :=
  match (s.event e).spec with
  | .fd | .select | .notify => false
  | .sigs | .msg => fires e
  | .time tv => timeCmp tv now < 0
  | .tid t goal => tidOccurred s t goal
  | .func cb _ => if cb then exitCb s else fires e

def scanTimer (s : State) (now : Timeval) (e : EventId) : Option Timeval :=
  match (s.event e).spec with
  | .time tv => some tv
  | .func _ tv => some (timeAdd now tv)
  | _ => none

/-- The deadlines the event manager has tagged as reached. -/
def logFired (s : State) (e : EventId) : State :=
  match (s.event e).spec with
  | .time tv => { s with fired := s.fired ++ [(tv, s.clock)] }
  | _ => s

section
variable {s : State}

@[simp] theorem logFired_event : (logFired s e).event = s.event := by
  unfold logFired
  split <;> rfl

@[simp] theorem logFired_tcb : (logFired s e).tcb = s.tcb := by
  unfold logFired
  split <;> rfl

@[simp] theorem logFired_queue : (logFired s e).queue = s.queue := by
  unfold logFired
  split <;> rfl

end

def scanEvent (now : Timeval) (fires : EventId → Bool) (t : Tid) (c : Scan) (e : EventId) : Scan :=
  if (c.state.event e).status ≠ .pending then c
  else if scanOccurred c.state now fires e then
    { c with state := (logFired c.state e).setStatus e .occurred, anyOccurred := true }
  else match scanTimer c.state now e with
    | none => c
    | some tv => { c with timer := nextTimer c.timer t e tv }

def scanThread (now : Timeval) (fires : EventId → Bool) (c : Scan) (t : Tid) : Scan :=
  let c := if (c.state.tcb t).cancelreq then { c with anyOccurred := true } else c
  (c.state.tcb t).events.foldl (scanEvent now fires t) c

def scanQueue (s : State) (now : Timeval) (fires : EventId → Bool) : Scan :=
  (s.members .wq).foldl (scanThread now fires) ⟨s, false, none⟩

/-! ### The wait call -/

/-- `ptimeout`: milliseconds as an `int`, rounded up, not negative. -/
def pollTimeout (delay : Timeval) : Int :=
  max 0 (int32 (delay.sec * 1000 + (delay.usec + 999).tdiv 1000))

/-- Never past the heartbeat. -/
def clampReval (revalMs : Int) (ms : Option Int) : Option Int :=
  if revalMs > 0 then
    match ms with
    | none => some revalMs
    | some ms => some (min ms revalMs)
  else ms

/-- The timeout the OS gets, in microseconds. -/
def waitTimeout (cfg : Config) (dopoll : Bool) (now : Timeval) (timer : Option Timer) : Option Int :=
  let delay := if dopoll then some ⟨0, 0⟩ else timer.map fun n => timeSub n.value now
  match cfg.backend with
  | .select => delay.map (·.micros)
  | .poll => delay.map fun d => 1000 * pollTimeout d
  | .evport revalMs => (clampReval revalMs (delay.map pollTimeout)).map (1000 * ·)

/-- The wait call may return 0: the timeout has passed. With an event port it
also returns 0 at once when there is no buffer for the results. -/
def mayTimeOut (cfg : Config) (timeout : Option Int) (since clock : Int) (noBuffer : Bool) : Bool :=
  match timeout with
  | some d => (0 ≤ d ∧ since + d ≤ clock) || (noBuffer && cfg.backend matches .evport _)
  | none => noBuffer && cfg.backend matches .evport _

/-! ### After the wait -/

/-- The timer branch: tag the event without looking at the clock, or repeat the
pass for a function event. -/
def timerBranch (s : State) (dopoll : Bool) (timer : Option Timer) (rc0 : Bool) : State × Bool :=
  match timer with
  | some n =>
    if dopoll = false ∧ rc0 = true then
      match (s.event n.event).spec with
      | .func _ _ => (s, true)
      | _ => ((logFired s n.event).setStatus n.event .occurred, false)
    else (s, false)
  | none => (s, false)

/-- The late handling of one event. -/
def lateEvent (late : EventId → Option Status) (s : State) (e : EventId) : State :=
  if (s.event e).status ≠ .pending then s
  else match (s.event e).spec, late e with
    | .fd, some st | .select, some st | .sigs, some st => s.setStatus e st
    | _, _ => s

/-- A thread of the waiting queue has something to go on with. -/
def anyOccurred (s : State) (t : Tid) : Bool :=
  (s.tcb t).events.any (fun e => (s.event e).status ≠ .pending) || (s.tcb t).cancelreq

def cleanupThread (late : EventId → Option Status) (s : State) (t : Tid) : State :=
  let s := (s.tcb t).events.foldl (lateEvent late) s
  if anyOccurred s t then
    ((s.dequeue .wq t).setTcb t ({ · with state := .ready })).enqueue .rq ((s.tcb t).prio + 1) t
  else s

/-- The final cleanup loop. The walk takes the next thread before it moves one,
so it meets the members the queue had at the start. -/
def cleanupLoop (late : EventId → Option Status) (s : State) : State :=
  (s.members .wq).foldl (cleanupThread late) s

end GnuPth.Sched
