import GnuPth.Manager.Late
import GnuPth.Manager.Scanning

/-!
# From the scan to the late handling

Between the two a turn waits, drains the inbox again and handles the timer. The
timer branch may tag an event without a look at it, but that is never one about
descriptors.
-/

namespace GnuPth.Manager

open Sched (EventId)

structure Call (Q A : Type) where
  env : Env
  input : Input
  os : A
  dopoll : Bool
  req : Q
  st : St

section
variable {A : Type}

namespace Call

variable (K : Core Q A) (p : Call Q A)

def scanned : Scanned Q := Manager.scanned K p.env p.input p.dopoll p.req p.st

def late : Late Q := ((p.scanned K).late K p.input p.os).1

def pass : Passed Q := Manager.pass K p.env p.input p.os p.dopoll p.req p.st

end Call

variable {p : Call Q A}

/-! ### Up to the late handling -/

structure Timed (s s' : St) : Prop where
  ring : ∀ t, s'.ring t = s.ring t
  members : s'.sched.members .wq = s.sched.members .wq
  fdArgs : s'.fdArgs = s.fdArgs
  selectArgs : s'.selectArgs = s.selectArgs
  mem : s'.mem = s.mem

theorem timers_timed (c : Scanned Q) (i : Input) (rc : Int) :
    Timed (i.redrain c.scan.st) (c.timers i rc).1 := by
  have hbranch : ∀ s : Sched.State, (Sched.timerBranch s c.dopoll c.scan.timer (rc = 0)).1.tcb =
      s.tcb ∧ (Sched.timerBranch s c.dopoll c.scan.timer (rc = 0)).1.queue = s.queue := by
    intro s
    unfold Sched.timerBranch
    repeat' split
    · exact ⟨rfl, rfl⟩
    · exact ⟨Sched.logFired_tcb, Sched.logFired_queue⟩
    · exact ⟨rfl, rfl⟩
    · exact ⟨rfl, rfl⟩
  obtain ⟨htcb, hqueue⟩ := hbranch (i.redrain c.scan.st).sched
  refine ⟨fun t => ?_, ?_, rfl, rfl, rfl⟩
  · exact congrArg (fun tcb : Tid → Sched.Tcb => (tcb t).events) htcb
  · exact congrArg (fun queue : Sched.Qname → Pqueue => (queue .wq).members) hqueue

theorem timers_event {c : Scanned Q}
    (he : ∀ n, c.scan.timer = some n → n.event ≠ e) :
    (c.timers i rc).1.event e = (i.redrain c.scan.st).event e := by
  have hbranch : ∀ s : Sched.State,
      (Sched.timerBranch s c.dopoll c.scan.timer (rc = 0)).1.event e = s.event e := by
    intro s
    unfold Sched.timerBranch
    cases hn : c.scan.timer with
    | none => rfl
    | some n =>
      simp only
      split
      · split
        · rfl
        · simp [Sched.State.setStatus, Sched.State.setEvent, (he n hn).symm]
      · rfl
  exact hbranch (i.redrain c.scan.st).sched

theorem scanned_run (hS : p.env.Leaves S) :
    ScanRun K S ⟨(p.input.drain p.st).2, K.clear p.req, p.input.sigpending, [], false, none⟩
      (p.scanned K).scan :=
  .threads hS _ _

theorem scanned_timer (he : Descriptors ((p.scanned K).scan.st.event e).spec) :
    ∀ n, (p.scanned K).scan.timer = some n → n.event ≠ e := by
  intro n hn hne
  have hrun : ScanRun K (fun _ => False) _ (p.scanned K).scan := scanned_run p.env.leaves_none
  exact hrun.timer nofun n hn (hne ▸ he)

theorem late_timed : Timed (p.input.redrain (p.scanned K).scan.st) (p.late K).st :=
  timers_timed _ _ _

theorem late_event (he : Descriptors ((p.scanned K).scan.st.event e).spec) :
    (p.late K).st.event e = (p.input.redrain (p.scanned K).scan.st).event e :=
  timers_event (scanned_timer he)

end

end GnuPth.Manager
