import GnuPth.Sched.EventManager

/-!
# The scheduler loop

The steps of one scheduler: the calls its running thread makes, the scheduler
loop, the passes of the event manager, and what happens around it: other OS
threads push messages, other schedulers spawn threads here, time passes.

While an asynchronous cancellation runs the cleanup handlers of its target, the
target is `pth_current` and its handlers make the calls. Handlers do not block.
-/

namespace GnuPth.Sched

open Function (update)
open Inbox (Gmsg)
open Transition

/-- A call of `pth_current`. The event and the timeout of `exit`, `cancelPoint`
and `waitReturn` are those of the function event that `pth_exit` waits for in
the main thread; its timeout is not initialized. -/
inductive Op
  | spawn (t : Tid) (attr : Attr)
  | event (e : EventId) (spec : Spec) (static : Bool)
  | eventFree (e : EventId)
  | wait (ring : List EventId)
  | waitReturn (e : EventId) (tv : Timeval)
  | yield (dest : Option Tid)
  | exit (e : EventId) (tv : Timeval)
  | die
  | cancelState (enable async : Bool)
  | cancelPoint (e : EventId) (tv : Timeval)
  | suspend (t : Tid)
  | resume (t : Tid)
  | cancel (t : Tid)
  | abort (t : Tid)
  | raise (t : Tid) (sig : Int)
  | join (tid : Option Tid) (e : EventId)

inductive Act
  | op (o : Op)
  | cleaned
  | sched
  | back
  | take
  | msg
  | drained
  | scan (fires : EventId → Bool)
  | woken (rc0 noBuffer : Bool)
  | finish (late : EventId → Option Status)
  | post (m : Gmsg)
  | spawnOn (t : Tid) (attr : Attr)
  | tick (dt : Nat)

/-- `pth_current`, while a thread or a cleanup handler runs. -/
def State.current (s : State) : Option Tid :=
  match s.cleaning, s.ctl with
  | t :: _, _ => some t
  | [], .run t => some t
  | [], _ => none

/-! ### Calls that switch to the scheduler -/

def switchOut (s : State) (cur : Tid) : State := { s with ctl := .back cur }

def markPending (s : State) (ring : List EventId) : State :=
  ring.foldl (fun s e => s.setStatus e .pending) s

/-- `pth_wait`, up to the switch. -/
def pthWait (s : State) (cur : Tid) (ring : List EventId) (k : Cont) : State :=
  let s := markPending s ring
  switchOut (s.setTcb cur ({ · with events := ring, state := .waiting, pc := .inWait k })) cur

/-- `pth_event`: a new event, or the static one of this call site again. -/
def newEvent (s : State) (cur : Tid) (e : EventId) (spec : Spec) (static : Bool) : Option State :=
  if (s.event e).live ∧ ¬ (static ∧ (s.event e).owner = some cur) then none
  else some (s.setEvent e fun _ => ⟨spec, .pending, true, if static then some cur else none⟩)

/-- `pth_exit`: the main thread waits until it is the last one. -/
def pthExit (cfg : Config) (s : State) (cur : Tid) (e : EventId) (tv : Timeval) : Option State :=
  if cfg.main = some cur ∧ ¬ exitCb s then do
    let s ← newEvent s cur e (.func true tv) false
    pure (pthWait s cur [e] .exit)
  else some (s.setTcb cur ({ · with pc := .exiting }))

/-- The cleanups have run: the thread is dead, or the process ends. -/
def pthDie (cfg : Config) (s : State) (cur : Tid) : State :=
  if cfg.main = some cur then { s with ctl := .exited }
  else switchOut ((destroyEvents s cur).setTcb cur ({ · with state := .dead, joinArg := .exit })) cur

/-- A request that the thread has to act upon. -/
def cancelDue (s : State) (cur : Tid) : Bool := (s.tcb cur).cancelreq && (s.tcb cur).cancelEnable

def ackCancel (s : State) (cur : Tid) : State := s.setTcb cur ({ · with cancelreq := false })

/-- `pth_wait` behind the switch, and what its caller does next. -/
def waitReturn (cfg : Config) (s : State) (cur : Tid) (k : Cont) (e : EventId) (tv : Timeval) :
    Option State :=
  if cancelDue s cur then pthExit cfg (ackCancel s cur) cur e tv
  else
    let ring := (s.tcb cur).events
    let s := s.setTcb cur ({ · with events := [], pc := .app })
    match k with
    | .app => some s
    | .join tid => some (joinEnd s tid).1
    | .exit =>
      let s := ring.foldl (fun s e => s.setEvent e ({ · with live := false })) s
      some (s.setTcb cur ({ · with pc := .exiting }))

def pthYield (s : State) (cur : Tid) (dest : Option Tid) : State :=
  match dest with
  | none => switchOut s cur
  | some t =>
    match favorQueue s t with
    | none => s
    | some q => switchOut (favorite s q t) cur

/-! ### Calls -/

/-- The calls that return to the caller. A handle must be that of a thread which
is not freed. -/
def callNonblocking (s : State) (cur : Tid) : Op → Option State
  | .spawn t attr =>
    if (s.tcb t).alive then none
    else some ((s.setTcb t fun _ => attr.tcb true).enqueue .nq attr.prio t)
  | .event e spec static => newEvent s cur e spec static
  | .eventFree e => some (s.setEvent e ({ · with live := false }))
  | .cancelState enable async =>
    some (s.setTcb cur ({ · with cancelEnable := enable, cancelAsync := async }))
  | .suspend t => if (s.tcb t).alive then some (pthSuspend s cur t).1 else none
  | .resume t => if (s.tcb t).alive then some (pthResume s cur t).1 else none
  | .cancel t => if (s.tcb t).alive then some (pthCancel s cur t).1 else none
  | .abort t => if (s.tcb t).alive then some (pthAbort s cur t).1 else none
  -- `pth_raise` ends in a yield to the target, which fails for most states
  | .raise t sig =>
    if (s.tcb t).alive ∧ t ≠ cur ∧ favorQueue s t = none then some (addSignal s t sig) else none
  | .join tid _ =>
    if tid.all fun t => (s.tcb t).alive then
      match joinCheck s cur tid with
      | some _ => some s
      | none => if joinWaits s tid then none else some (joinEnd s tid).1
    else none
  | _ => none

def callBlocking (s : State) (cur : Tid) : Op → Option State
  | .wait ring => if ring = [] then none else some (pthWait s cur ring .app)
  | .yield dest => some (pthYield s cur dest)
  | .raise t sig =>
    if (s.tcb t).alive ∧ t ≠ cur ∧ favorQueue s t ≠ none then
      some (pthYield (addSignal s t sig) cur (some t))
    else none
  | .join tid e =>
    if (tid.all fun t => (s.tcb t).alive) ∧ joinCheck s cur tid = none ∧ joinWaits s tid then do
      let target := joinTarget s tid
      let s ← newEvent s cur e (.tid target .dead) true
      pure (pthWait s cur [e] (.join target))
    else none
  | _ => none

def callRunning (cfg : Config) (s : State) (cur : Tid) (o : Op) : Option State :=
  match (s.tcb cur).pc, o with
  | .inWait k, .waitReturn e tv => waitReturn cfg s cur k e tv
  | .inWait _, _ => none
  | .exiting, .die => some (pthDie cfg s cur)
  | .app, .exit e tv => pthExit cfg s cur e tv
  | .app, .cancelPoint e tv =>
    if cancelDue s cur then pthExit cfg (ackCancel s cur) cur e tv else some s
  | .exiting, .cancelPoint _ _ => some (if cancelDue s cur then ackCancel s cur else s)
  | .app, o => callNonblocking s cur o <|> callBlocking s cur o
  | .exiting, o => callNonblocking s cur o

/-- A handler of `cur` ends its thread: `pth_exit` switches to the scheduler in
the name of `cur`, and the stack it runs on is abandoned. -/
def exitInHandler (cfg : Config) (s : State) (cur : Tid) : Option State :=
  if cfg.main = some cur ∧ ¬ exitCb s then none
  else some { pthDie cfg s cur with cleaning := [] }

def callHandler (cfg : Config) (s : State) (cur : Tid) : Op → Option State
  | .exit _ _ => exitInHandler cfg s cur
  | .cancelPoint _ _ =>
    if cancelDue s cur then exitInHandler cfg (ackCancel s cur) cur else some s
  | o => callNonblocking s cur o

def call (cfg : Config) (s : State) (o : Op) : Option State :=
  match s.cleaning, s.ctl with
  | t :: _, _ => callHandler cfg s t o
  | [], .run t => callRunning cfg s t o
  | [], _ => none

/-! ### pth_scheduler -/

/-- One thread of the new queue, from its tail, becomes ready. -/
def promoteTail (cfg : Config) (s : State) (t : Tid) : State :=
  let s := (s.dequeue .nq t).setTcb t ({ · with state := .ready })
  s.enqueue .rq (if cfg.favournew then (s.queue .rq).favoritePrio else prioStd) t

def promoteNew (cfg : Config) : Nat → State → State
  | 0, s => s
  | n + 1, s =>
    match (s.members .nq).getLast? with
    | none => s
    | some t => promoteNew cfg n (promoteTail cfg s t)

/-- An auxiliary scheduler that was told to stop and has nothing left. -/
def runDry (cfg : Config) (s : State) : Bool :=
  cfg.main.isNone && s.stop && s.elements .nq = 0 && s.elements .wq = 0 && s.elements .sq = 0

/-- The top of the loop, up to the switch into a thread. -/
def schedule (cfg : Config) (s : State) : State :=
  let s := promoteNew cfg (s.elements .nq) s
  match s.queue .rq with
  | (t, _) :: rq => { s with queue := update s.queue .rq rq, ctl := .run t }
  | [] =>
    if runDry cfg s then { s with ctl := .left }
    else if cfg.main.isNone ∨ s.elements .wq > 0 ∨ s.elements .nq > 0 ∨ s.elements .sq > 0 then
      { s with ctl := .em (.enter false s.now) }
    else { s with ctl := .aborted }

/-- Where the thread that came back goes. -/
def putBack (s : State) (t : Tid) : State :=
  match (s.tcb t).state with
  | .dead =>
    let s := if (s.tcb t).joinable then s.enqueue .dq prioStd t else tcbFree s t
    { s with queue := update s.queue .rq (s.queue .rq).increase }
  | .waiting =>
    let s := s.enqueue .wq (s.tcb t).prio t
    { s with queue := update s.queue .rq (s.queue .rq).increase }
  | _ =>
    let s := { s with queue := update s.queue .rq (s.queue .rq).increase }
    s.enqueue .rq (s.tcb t).prio t

/-- The rest of the loop: wait if nothing is ready, poll otherwise. -/
def comeBack (cfg : Config) (s : State) (t : Tid) : State :=
  let now := s.now
  let s := putBack s t
  if s.elements .rq = 0 ∧ s.elements .nq = 0 then
    if runDry cfg s then { s with ctl := .left } else { s with ctl := .em (.enter false now) }
  else { s with ctl := .em (.enter true now) }

/-! ### The event manager -/

def drainTake (s : State) : Option State :=
  match s.ctl with
  | .em (.enter dopoll now) =>
    some { s with inbox := [], ctl := .em (.drain dopoll now false s.inbox) }
  | .em (.woken dopoll timer rc0) =>
    some { s with inbox := [], ctl := .em (.redrain dopoll timer rc0 s.inbox) }
  | _ => none

def drainNext (s : State) : Option State :=
  match s.ctl with
  | .em (.drain dopoll now _ (m :: batch)) =>
    some (drainMsg { s with ctl := .em (.drain dopoll now true batch) } m)
  | .em (.redrain dopoll timer rc0 (m :: batch)) =>
    some (drainMsg { s with ctl := .em (.redrain dopoll timer rc0 batch) } m)
  | _ => none

def drainEnd (s : State) : Option State :=
  match s.ctl with
  | .em (.drain dopoll now any []) => some { s with ctl := .em (.scan (dopoll || any) now) }
  | .em (.redrain dopoll timer rc0 []) => some { s with ctl := .em (.finish dopoll timer rc0) }
  | _ => none

def emScan (cfg : Config) (s : State) (fires : EventId → Bool) : Option State :=
  match s.ctl with
  | .em (.scan dopoll now) =>
    let c := scanQueue s now fires
    let dopoll := dopoll || c.anyOccurred
    let timeout := waitTimeout cfg dopoll now c.timer
    some { c.state with ctl := .em (.wait dopoll c.timer timeout s.clock) }
  | _ => none

def emWoken (cfg : Config) (s : State) (rc0 noBuffer : Bool) : Option State :=
  match s.ctl with
  | .em (.wait dopoll timer timeout since) =>
    if rc0 ∧ ¬ mayTimeOut cfg timeout since s.clock noBuffer then none
    else some { s with ctl := .em (.woken dopoll timer rc0) }
  | _ => none

def emFinish (s : State) (late : EventId → Option Status) : Option State :=
  match s.ctl with
  | .em (.finish dopoll timer rc0) =>
    let (s, loopRepeat) := timerBranch s dopoll timer rc0
    let s := cleanupLoop late s
    some { s with ctl := if loopRepeat then .em (.enter dopoll s.now) else .loop }
  | _ => none

/-! ### Steps -/

def schedStep (cfg : Config) (s : State) : Act → Option State
  | .sched =>
    match s.ctl with
    | .loop => some (schedule cfg s)
    | _ => none
  | .back =>
    match s.ctl with
    | .back t => some (comeBack cfg s t)
    | _ => none
  | .take => drainTake s
  | .msg => drainNext s
  | .drained => drainEnd s
  | .scan fires => emScan cfg s fires
  | .woken rc0 noBuffer => emWoken cfg s rc0 noBuffer
  | .finish late => emFinish s late
  | _ => none

def exec (cfg : Config) (s : State) (a : Act) : Option State :=
  if s.fault ∨ s.ctl = .exited then none
  else match a with
    | .op o => call cfg s o
    | .cleaned =>
      match s.cleaning with
      | t :: rest => some (cancelDone { s with cleaning := rest } t)
      | [] => none
    -- `pth_spawn_on` posts its message itself
    | .post m => if m.kind = .spawn then none else some { s with inbox := s.inbox ++ [m] }
    | .spawnOn t attr =>
      if (s.tcb t).alive then none
      else
        let s := s.setTcb t fun _ => attr.tcb false
        let m := (Inbox.Call.gschedPost .spawn (some t) none).msg
        some { s with inbox := s.inbox ++ [m], spawned := s.spawned ++ [t] }
    | .tick dt => some { s with clock := s.clock + dt }
    | a => if s.cleaning = [] then schedStep cfg s a else none

/-- The main thread of scheduler 0 starts in the new queue. -/
structure Initial (cfg : Config) (s : State) : Prop where
  ctl : s.ctl = .loop
  cleaning : s.cleaning = []
  inbox : s.inbox = []
  stop : s.stop = false
  fault : s.fault = false
  fired : s.fired = []
  spawned : s.spawned = []
  adoptions : s.adoptions = []
  alive : ∀ t, (s.tcb t).alive = true ↔ cfg.main = some t
  main : ∀ t, cfg.main = some t → ∃ attr : Attr, s.tcb t = attr.tcb true
  nq : s.members .nq = cfg.main.toList
  queues : ∀ n, n ≠ .nq → s.queue n = []

def system (cfg : Config) : System State Act where
  init := Initial cfg
  step s a s' := exec cfg s a = some s'

/-! ### Schedules -/

def boot (main : Option Tid) (attr : Attr) : State where
  tcb t := if main = some t then attr.tcb true else { attr.tcb false with alive := false }
  event _ := ⟨.fd, .pending, false, none⟩
  queue n := if n = .nq then main.toList.map (·, attr.prio) else []
  ctl := .loop
  cleaning := []
  inbox := []
  stop := false
  clock := 0
  fault := false
  fired := []
  spawned := []
  adoptions := []

variable {cfg : Config}

theorem boot_initial : Initial cfg (boot cfg.main attr) where
  ctl := rfl
  cleaning := rfl
  inbox := rfl
  stop := rfl
  fault := rfl
  fired := rfl
  spawned := rfl
  adoptions := rfl
  alive t := by
    by_cases h : cfg.main = some t
    · simp [boot, h, Attr.tcb]
    · simp [boot, h]
  main t h := ⟨attr, by simp [boot, h]⟩
  nq := by
    cases h : cfg.main <;> rfl
  queues n h := by simp [boot, h]

def execIf (cfg : Config) (ok : State → Act → Bool) (s : State) (a : Act) : Option State :=
  if ok s a then exec cfg s a else none

theorem exists_reachable (cfg : Config) (ok : State → Act → Bool)
    [DecidablePred P] (attr : Attr) (acts : List Act)
    (h : (acts.foldlM (execIf cfg ok) (boot cfg.main attr)).any (fun s => decide (P s)) = true) :
    ∃ s, Reachable ((system cfg).restrict fun s a => ok s a = true) s ∧ P s :=
  exists_reachable_restrict (fun _ _ _ h => h) boot_initial h

theorem exists_state (cfg : Config) [DecidablePred P] (attr : Attr) (acts : List Act)
    (h : (acts.foldlM (exec cfg) (boot cfg.main attr)).any (fun s => decide (P s)) = true) :
    ∃ s, Reachable (system cfg) s ∧ P s :=
  exists_reachable_foldlM (fun _ _ _ h => h) boot_initial acts h

/-- A pass of the event manager in which nothing happens, up to the top of the
scheduler loop. -/
def idlePass : List Act :=
  [.take, .drained, .scan fun _ => false, .woken true false, .take, .drained, .finish fun _ => none]

def asyncAttr : Attr := ⟨prioStd, true, true, true⟩

def pollConfig : Config := ⟨some 0, true, .poll⟩

end GnuPth.Sched
