import GnuPth.Inbox
import GnuPth.Msgport

/-!
# The arrival of messages on ports

A thread that waits for a message has an event of type `PTH_EVENT_MSG`. Nobody
posts a wakeup for it: the event manager looks at the port when it scans the
waiting queue. `pth_msgport_put` appends to the port and then writes a byte to the
pipe of every other scheduler, so that none of them sleeps over the message.

The model is one scheduler, `own`, among others. Its OS thread runs its threads
and the passes of the event manager: clear the pipe, drain, evaluate the events
of the waiting queue one by one, wait, drain again, finish. Threads of the other
schedulers use the ports at any time. What the threads and the messages of a
drain do to the waiting queue is left open. Custom event functions do not put
messages.
-/

namespace GnuPth.Arrival

open Function (update)
open Inbox (OsThread EventAddr)
open Msgport (Port Message)
open Transition

structure Event where
  -- `none` for the other types of events
  port : Option Port
  pending : Bool
  deriving DecidableEq, Repr

structure Waiter where
  thread : Tid
  events : List EventAddr
  deriving DecidableEq, Repr

/-- The scheduler's OS thread. In the scan, with the events that are still to be
evaluated. -/
inductive Phase
  | threads
  | clear (dopoll : Bool)
  | drain (dopoll : Bool)
  | scan (dopoll any : Bool) (todo : List EventAddr)
  | wait (dopoll : Bool)
  | redrain (dopoll : Bool)
  | finish (dopoll : Bool)
  deriving DecidableEq, Repr

/-- An OS thread behind the section of a put: in `pth_gsched_kick_others`, before it
has read the number of schedulers, or in the loop. -/
inductive Putter
  | idle
  | loading
  | kicking (i n : Nat)
  deriving DecidableEq, Repr

structure State where
  ports : Msgport.State
  putter : OsThread → Putter
  -- `pth_gsched_ntab`
  ntab : Nat
  sigpipe : Nat
  phase : Phase
  wq : List Waiter
  event : EventAddr → Event
  -- history: the OS thread that has put a message last
  putBy : Message → OsThread

inductive Act
  | call (o : OsThread) (a : Msgport.Act)
  | kick (o : OsThread) (full : Bool)
  -- a byte of a post or a signal handler
  | byte
  | register (n : Nat)
  -- what threads and messages do to the waiting queue
  | arrange (wq : List Waiter) (event : EventAddr → Event)
  | enter (dopoll : Bool)
  | read (n : Nat)
  | drained (any : Bool)
  | eval (fires : Bool)
  | scanned (cancelreq : Bool)
  | woken
  | redrained
  | leave
  | loopRepeat

/-! ### Ports -/

def Phase.runs : Phase → Bool
  | .threads | .drain _ | .redrain _ => true
  | _ => false

/-- A call of a thread of scheduler `o`. Its own scheduler is not nudged. -/
def call (own : OsThread) (s : State) (o : OsThread) (a : Msgport.Act) : Option State :=
  if o = own ∧ ¬ s.phase.runs ∨ s.putter o ≠ .idle then none
  else (Msgport.exec s.ports a).map fun ports =>
    match Msgport.putOf s.ports a with
    | none => { s with ports := ports }
    | some (_, m) =>
      { s with
        ports := ports
        putter := if o = own then s.putter else update s.putter o .loading
        putBy := fun x => if m = some x then o else s.putBy x }

/-- One turn of the loop in `pth_gsched_kick_others`, as far as the pipe of `own` is
concerned. A write to a full pipe does nothing. -/
def kick (own : OsThread) (s : State) (o : OsThread) (full : Bool) : Option State :=
  match s.putter o with
  | .idle => none
  | .loading => some { s with putter := update s.putter o (.kicking 0 s.ntab) }
  | .kicking i n =>
    if i < n then
      if i = own then
        if full ∧ s.sigpipe = 0 then none
        else some { s with
          putter := update s.putter o (.kicking (i + 1) n)
          sigpipe := if full then s.sigpipe else s.sigpipe + 1 }
      else some { s with putter := update s.putter o (.kicking (i + 1) n) }
    else some { s with putter := update s.putter o .idle }

/-! ### The event manager -/

def arranges : Phase → Bool
  | .threads | .drain _ | .redrain _ | .finish _ => true
  | _ => false

/-- Whether an event has occurred. A message port is looked at under its lock. -/
def occurs (s : State) (e : EventAddr) (fires : Bool) : Bool :=
  (s.event e).pending &&
    match (s.event e).port with
    | some p => 0 < ringElements (s.ports.mpQueue p)
    | none => fires

def eval (s : State) (fires : Bool) : Option State :=
  match s.phase with
  | .scan dopoll any (e :: todo) =>
    if occurs s e fires then
      some { s with
        phase := .scan dopoll true todo
        event := update s.event e { s.event e with pending := false } }
    else some { s with phase := .scan dopoll any todo }
  | _ => none

def advance (s : State) : Act → Option Phase
  | .enter dopoll =>
    match s.phase with
    | .threads => some (.clear dopoll)
    | _ => none
  | .drained any =>
    match s.phase with
    | .drain dopoll => some (.scan (dopoll || any) false (s.wq.flatMap (·.events)))
    | _ => none
  | .scanned cancelreq =>
    match s.phase with
    | .scan dopoll any [] => some (.wait (dopoll || any || cancelreq))
    | _ => none
  | .woken =>
    match s.phase with
    | .wait dopoll => some (.redrain dopoll)
    | _ => none
  | .redrained =>
    match s.phase with
    | .redrain dopoll => some (.finish dopoll)
    | _ => none
  | .leave =>
    match s.phase with
    | .finish _ => some .threads
    | _ => none
  | .loopRepeat =>
    match s.phase with
    | .finish dopoll => some (.clear dopoll)
    | _ => none
  | _ => none

/-- The loop that reads the pipe, up to `n` bytes at a time, ends when it is empty. -/
def read (s : State) (n : Nat) : Option State :=
  match s.phase with
  | .clear dopoll =>
    if s.sigpipe = 0 then some { s with phase := .drain dopoll }
    else some { s with sigpipe := s.sigpipe - n }
  | _ => none

def exec (own : OsThread) (s : State) : Act → Option State
  | .call o a => call own s o a
  | .kick o full => kick own s o full
  | .byte => some { s with sigpipe := s.sigpipe + 1 }
  -- the scheduler stays in the table while it has threads
  | .register n => if own < n then some { s with ntab := n } else none
  | .arrange wq event => if arranges s.phase then some { s with wq := wq, event := event } else none
  | .read n => read s n
  | .eval fires => eval s fires
  | a => (advance s a).map fun phase => { s with phase := phase }

structure Initial (own : OsThread) (s : State) : Prop where
  ports : Msgport.Initial s.ports
  putter : ∀ o, s.putter o = .idle
  ntab : own < s.ntab
  phase : s.phase = .threads

def system (own : OsThread) : System State Act where
  init := Initial own
  step s a s' := exec own s a = some s'

/-! ### The invariant -/

variable {own o : OsThread} {s s' : State} {e : EventAddr} {p : Port} {m : Message} {todo : List EventAddr}
  {a : Act}

def Putter.Kicks (own : OsThread) : Putter → Prop
  | .idle => False
  | .loading => True
  | .kicking i n => i ≤ own ∧ own < n

def Rung (own : OsThread) (s : State) : Prop :=
  0 < s.sigpipe ∨ ∃ o, o ≠ own ∧ (s.putter o).Kicks own

/-- The port of a pending event was empty in this pass: what is there now was put by
other schedulers, which have rung or are about to. -/
def Seen (own : OsThread) (s : State) (e : EventAddr) : Prop :=
  ∀ p, s.event e = ⟨some p, true⟩ →
    (s.ports.pending p ≠ [] → Rung own s) ∧ ∀ m ∈ s.ports.pending p, s.putBy m ≠ own

def Scanned (own : OsThread) (s : State) (todo : List EventAddr) : Prop :=
  ∀ w ∈ s.wq, ∀ e ∈ w.events, e ∈ todo ∨ Seen own s e

def Phase.Ok (own : OsThread) (s : State) : Phase → Prop
  | .scan _ _ todo => Scanned own s todo
  | .wait _ => Scanned own s []
  | _ => True

structure Safe (own : OsThread) (s : State) : Prop where
  ports : Reachable Msgport.system s.ports
  ntab : own < s.ntab
  phase : s.phase.Ok own s

theorem Phase.Ok.mono {ph : Phase} (h : ph.Ok own s) (hwq : s'.wq = s.wq)
    (hseen : ∀ e, Seen own s e → Seen own s' e) : ph.Ok own s' := by
  have hscan : ∀ {todo}, Scanned own s todo → Scanned own s' todo :=
    fun hs w hw e he => (hs w (hwq ▸ hw) e he).imp_right (hseen e)
  cases ph with
  | scan | wait => exact hscan h
  | _ => trivial

theorem Seen.rung (h : Seen own s e) (hp : s'.ports = s.ports) (he : s'.event = s.event)
    (hb : s'.putBy = s.putBy) (hr : Rung own s → Rung own s') : Seen own s' e := by
  intro p hpe
  rw [hp, hb]
  exact ⟨fun hne => hr ((h p (he ▸ hpe)).1 hne), (h p (he ▸ hpe)).2⟩

/-! ### Steps of others -/

theorem Seen.get (h : Seen own s e) {a : Msgport.Act}
    (hr : Reachable Msgport.system s.ports) (hs : Msgport.exec s.ports a = some ports)
    (ha : Msgport.putOf s.ports a = none) : Seen own { s with ports := ports } e := by
  intro p hp
  have hold : ∀ m ∈ ports.pending p, m ∈ s.ports.pending p := fun m hm =>
    (Msgport.pending_step hr hs hm).resolve_right (by simp [ha])
  refine ⟨fun hne => (h p hp).1 ?_, fun m hm => (h p hp).2 m (hold m hm)⟩
  obtain ⟨m, hm⟩ := List.exists_mem_of_ne_nil _ hne
  exact List.ne_nil_of_mem (hold m hm)

theorem Seen.put (h : Seen own s e) {ports : Msgport.State} {a : Msgport.Act} {m : Option Message}
    (hr : Reachable Msgport.system s.ports) (hs : Msgport.exec s.ports a = some ports)
    (ha : Msgport.putOf s.ports a = some (p, m)) (ho : o ≠ own) :
    Seen own { s with
      ports := ports
      putter := update s.putter o .loading
      putBy := fun x => if m = some x then o else s.putBy x } e := by
  intro p' hp
  have hrung : Rung own { s with
      ports := ports
      putter := update s.putter o .loading
      putBy := fun x => if m = some x then o else s.putBy x } :=
    .inr ⟨o, ho, by simp [Putter.Kicks]⟩
  refine ⟨fun _ => hrung, fun x hx => ?_⟩
  by_cases hxm : m = some x
  · simpa [hxm] using ho
  · have hold := (Msgport.pending_step hr hs hx).resolve_right (by simp [ha, hxm])
    simpa [hxm] using (h p' hp).2 x hold

theorem Safe.call (h : Safe own s) {a : Msgport.Act} (hs : call own s o a = some s') :
    Safe own s' := by
  unfold Arrival.call at hs
  split at hs
  case isTrue => cases hs
  case isFalse hmay =>
  obtain ⟨ports, hexec, rfl⟩ := Option.map_eq_some_iff.mp hs
  have hports : Reachable Msgport.system ports := .step h.ports hexec
  split
  case h_1 ha => exact ⟨hports, h.ntab, h.phase.mono rfl fun e he => he.get h.ports hexec ha⟩
  case h_2 p m ha =>
    refine ⟨hports, h.ntab, ?_⟩
    by_cases ho : o = own
    · -- the scheduler's own threads run, so there is no scan under way
      have hruns : s.phase.runs = true := by
        by_contra hr
        exact hmay (.inl ⟨ho, by simpa using hr⟩)
      change s.phase.Ok own _
      cases hp : s.phase with
      | scan | wait => rw [hp] at hruns; cases hruns
      | _ => trivial
    · rw [if_neg ho]
      exact h.phase.mono rfl fun e he => he.put h.ports hexec ha ho

theorem kick_inv (hn : own < s.ntab) (hs : kick own s o full = some s') :
    ∃ x n, s' = { s with putter := update s.putter o x, sigpipe := n } ∧ s.sigpipe ≤ n ∧
      ((s.putter o).Kicks own → 0 < n ∨ x.Kicks own) := by
  unfold kick at hs
  split at hs
  case h_1 => cases hs
  case h_2 =>
    cases hs
    exact ⟨_, _, rfl, Nat.le_refl _, fun _ => .inr ⟨Nat.zero_le _, hn⟩⟩
  case h_3 i n hp =>
    rw [hp]
    split at hs
    case isFalse hin =>
      cases hs
      refine ⟨_, _, rfl, Nat.le_refl _, fun hk => ?_⟩
      exact absurd (Nat.lt_of_le_of_lt hk.1 hk.2) hin
    case isTrue hin =>
    split at hs
    case isTrue hi =>
      split at hs
      case isTrue => cases hs
      case isFalse hfull =>
        cases hs
        -- the byte is in the pipe, or the pipe was full and so not empty
        cases full with
        | false => exact ⟨_, _, rfl, Nat.le_succ _, fun _ => .inl (Nat.succ_pos _)⟩
        | true => exact ⟨_, _, rfl, Nat.le_refl _, fun _ => .inl (by simpa [Nat.pos_iff_ne_zero] using hfull)⟩
    case isFalse hi =>
      cases hs
      exact ⟨_, _, rfl, Nat.le_refl _, fun hk => .inr ⟨Nat.lt_of_le_of_ne hk.1 hi, hk.2⟩⟩

theorem Safe.kick (h : Safe own s) (hs : kick own s o full = some s') : Safe own s' := by
  obtain ⟨x, n, rfl, hle, hk⟩ := kick_inv h.ntab hs
  refine ⟨h.ports, h.ntab, h.phase.mono rfl fun e he => he.rung rfl rfl rfl ?_⟩
  rintro (hpipe | ⟨o', ho', hkick⟩)
  · exact .inl (Nat.lt_of_lt_of_le hpipe hle)
  · by_cases heq : o' = o
    · subst heq
      rcases hk hkick with hn | hx
      · exact .inl hn
      · exact .inr ⟨o', ho', by simpa using hx⟩
    · exact .inr ⟨o', ho', by simpa [heq] using hkick⟩

/-! ### Steps of the scheduler -/

theorem seen_of_not_occurs (hr : Reachable Msgport.system s.ports)
    (ho : occurs s e fires = false) : Seen own s e := by
  intro p hp
  have hempty : s.ports.pending p = [] := by
    rw [occurs, hp] at ho
    have hlen := Msgport.elements_eq hr p
    refine List.length_eq_zero_iff.mp ?_
    simp only [Bool.true_and, decide_eq_false_iff_not] at ho
    omega
  simp [hempty]

theorem Safe.eval (h : Safe own s) (hs : eval s fires = some s') : Safe own s' := by
  unfold Arrival.eval at hs
  split at hs
  case h_2 => cases hs
  case h_1 dopoll any e todo hp =>
  have hscan : Scanned own s (e :: todo) := by simpa only [hp, Phase.Ok] using h.phase
  split at hs
  case isTrue ho =>
    cases hs
    refine ⟨h.ports, h.ntab, fun w hw e' he' => ?_⟩
    by_cases hee : e' = e
    · -- it is not pending any more
      refine .inr fun p hpe => ?_
      simp [hee] at hpe
    · rcases hscan w hw e' he' with hmem | hseen
      · exact .inl ((List.mem_cons.mp hmem).resolve_left hee)
      · exact .inr fun p hpe => hseen p (by simpa [hee] using hpe)
  case isFalse ho =>
    cases hs
    refine ⟨h.ports, h.ntab, fun w hw e' he' => ?_⟩
    rcases hscan w hw e' he' with hmem | hseen
    · rcases List.mem_cons.mp hmem with rfl | hmem
      · exact .inr (seen_of_not_occurs h.ports (Bool.eq_false_iff.mpr ho))
      · exact .inl hmem
    · exact .inr hseen

theorem Safe.advance (h : Safe own s) (hs : advance s a = some ph) :
    Safe own { s with phase := ph } := by
  refine ⟨h.ports, h.ntab, ?_⟩
  cases a with
  | drained =>
    simp only [Arrival.advance] at hs
    split at hs <;> cases hs
    exact fun w hw e he => .inl (List.mem_flatMap.mpr ⟨w, hw, he⟩)
  | scanned =>
    simp only [Arrival.advance] at hs
    split at hs <;> cases hs
    rename_i dopoll any hp
    have hscan : Scanned own s [] := by simpa only [hp, Phase.Ok] using h.phase
    exact hscan
  | enter | woken | redrained | leave | loopRepeat =>
    simp only [Arrival.advance] at hs
    split at hs <;> cases hs
    trivial
  | _ => cases hs

theorem Safe.step (h : Safe own s) (hs : exec own s a = some s') : Safe own s' := by
  cases a with
  | call o a => exact h.call hs
  | kick o full => exact h.kick hs
  | byte =>
    cases hs
    refine ⟨h.ports, h.ntab, h.phase.mono rfl fun e he => he.rung rfl rfl rfl fun hr => ?_⟩
    exact .inl (Nat.succ_pos _)
  | register n =>
    simp only [exec] at hs
    split at hs <;> cases hs
    exact ⟨h.ports, ‹_›, h.phase.mono rfl fun e he => he⟩
  | arrange wq event =>
    simp only [exec] at hs
    split at hs <;> cases hs
    rename_i hp
    refine ⟨h.ports, h.ntab, ?_⟩
    change s.phase.Ok own _
    cases hph : s.phase with
    | scan | wait => rw [hph] at hp; cases hp
    | _ => trivial
  | read n =>
    simp only [exec, read] at hs
    split at hs
    case h_2 => cases hs
    case h_1 dopoll hp =>
    split at hs <;> cases hs
    · exact ⟨h.ports, h.ntab, trivial⟩
    · refine ⟨h.ports, h.ntab, ?_⟩
      change s.phase.Ok own _
      rw [hp]
      trivial
  | eval fires => exact h.eval hs
  | _ =>
    obtain ⟨ph, hph, rfl⟩ := Option.map_eq_some_iff.mp hs
    exact h.advance hph

theorem safe_of_reachable (h : Reachable (system own) s) : Safe own s := by
  refine h.invariant (I := Safe own) ?_ ?_
  · intro s hi
    have hi : Initial own s := hi
    exact ⟨.init hi.ports, hi.ntab, by rw [hi.phase]; trivial⟩
  · intro s a s' hI hs
    exact hI.step hs

/-- No lost arrival. While the event manager is in its wait call and a waiting thread
has a pending event for a port with messages, the pipe is not empty or another
scheduler has still to write to it. None of these messages was put by a thread of the
scheduler itself. -/
theorem blocked_arrival (h : Reachable (system own) s) {dopoll : Bool} (hb : s.phase = .wait dopoll)
    {w : Waiter} (hw : w ∈ s.wq) (he : e ∈ w.events) (hp : s.event e = ⟨some p, true⟩)
    (hm : 0 < ringElements (s.ports.mpQueue p)) :
    (0 < s.sigpipe ∨ ∃ o, o ≠ own ∧ (s.putter o).Kicks own) ∧
      ∀ l, s.ports.puts p = s.ports.gets p ++ l → ∀ m ∈ l, s.putBy m ≠ own := by
  have hI := safe_of_reachable h
  have hscan : Scanned own s [] := by simpa only [hb, Phase.Ok] using hI.phase
  obtain ⟨hrung, hother⟩ := (hscan w hw e he).resolve_left List.not_mem_nil p hp
  refine ⟨hrung fun hnil => ?_, fun l hl m hml => hother m ?_⟩
  · rw [Msgport.elements_eq hI.ports p, hnil] at hm
    exact absurd hm (by decide)
  · rw [Msgport.State.pending, hl, List.drop_left]
    exact hml

/-- Thread 5 waits for port 1. A message is put while the scheduler sleeps, and the
byte is on its way. -/
def putAsleep : List Act :=
  [.arrange [⟨5, [3]⟩] fun _ => ⟨some 1, true⟩, .enter false, .read 1, .drained false, .eval false,
    .scanned false, .call 1 (.put (some 1) (some 10)), .kick 1 false]

def boot : State where
  ports := Msgport.boot
  putter _ := .idle
  ntab := 2
  sigpipe := 0
  phase := .threads
  wq := []
  event _ := ⟨none, false⟩
  putBy _ := 0

theorem blocked_arrival_putAsleep :
    ∃ s, Reachable (system 0) s ∧ s.phase = .wait false ∧ (⟨5, [3]⟩ : Waiter) ∈ s.wq ∧
      s.event 3 = ⟨some 1, true⟩ ∧ 0 < ringElements (s.ports.mpQueue 1) ∧
      (0 < s.sigpipe ∨ ∃ o, o ≠ 0 ∧ (s.putter o).Kicks 0) ∧
      ∀ l, s.ports.puts 1 = s.ports.gets 1 ++ l → ∀ m ∈ l, s.putBy m ≠ 0 := by
  have hi : Initial 0 boot := ⟨⟨fun _ => rfl, fun _ => rfl, fun _ => rfl⟩, fun _ => rfl, by decide, rfl⟩
  have hrun : (putAsleep.foldlM (exec 0) boot).any (fun s => decide
      (s.phase = .wait false ∧ (⟨5, [3]⟩ : Waiter) ∈ s.wq ∧ s.event 3 = ⟨some 1, true⟩ ∧
        0 < ringElements (s.ports.mpQueue 1))) = true := by decide +kernel
  obtain ⟨s, hs, hb, hw, he, hm⟩ := exists_reachable_foldlM (S := system 0) (fun _ _ _ h => h) hi _ hrun
  exact ⟨s, hs, hb, hw, he, hm, blocked_arrival hs hb hw List.mem_cons_self he hm⟩

end GnuPth.Arrival
