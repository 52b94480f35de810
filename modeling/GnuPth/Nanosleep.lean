import GnuPth.Time
import GnuPth.Lib.Program

/-!
# `pth_nanosleep`

The request is turned into microseconds, added to the time of day and handed to a
static time event; behind the wait the rest is the deadline minus the time of day
again. What the clock says and when the wait comes back is left open.
-/

namespace GnuPth

namespace Nanosleep

open Program

structure Timespec where
  sec : Int
  nsec : Int
  deriving DecidableEq, Repr

inductive Errno
  | EFAULT
  | EINVAL
  -- of `pth_event`
  | other (code : Nat)
  deriving DecidableEq, Repr

inductive Request
  -- `gettimeofday`
  | now
  -- `pth_event(PTH_EVENT_TIME|PTH_MODE_STATIC, &ev_key, until)`
  | event (deadline : Timeval)
  | wait

inductive Waited
  | returned
  | cancelled

abbrev Answer : Request → Type
  | .now => Timeval
  | .event _ => Except Errno Unit
  | .wait => Waited

inductive Stop
  | cancelled

abbrev Code := Prog Request Answer Stop

/-- `rmtp` tells whether there is a place for the rest. The result is 0 with what
is stored there, if anything, or -1 with `errno`. -/
def pthNanosleep (rqtp : Option Timespec) (rmtp : Bool) : Code (Except Errno (Option Timespec)) := do
  match rqtp with
  | none => return .error .EFAULT
  | some rq =>
    if rq.nsec < 0 ∨ rq.nsec > 1000 * 1000000 then return .error .EINVAL
    -- "short-circuit"
    if rq.sec = 0 ∧ rq.nsec = 0 then return .ok none
    -- "calculate asleep time"
    let offset : Timeval := ⟨rq.sec, rq.nsec.tdiv 1000⟩
    let deadline := timeAdd (← perform Request.now) offset
    match ← perform (Request.event deadline) with
    | .error e => return .error e
    | .ok _ =>
      match ← perform Request.wait with
      | .cancelled => .halt .cancelled
      | .returned =>
        if rmtp then
          let left := timeSub deadline (← perform Request.now)
          return .ok (some ⟨left.sec, left.usec * 1000⟩)
        return .ok none

/-! ### The clock -/

structure St where
  reads : List Timeval
  deadlines : List Timeval

def St.init : St := ⟨[], []⟩

def answer (s : St) : (e : Request) → Answer e → St → Prop
  | .now, tv, s' => tv.Normalized ∧ s' = { s with reads := s.reads ++ [tv] }
  | .event tv, _, s' => s' = { s with deadlines := s.deadlines ++ [tv] }
  | .wait, _, s' => s' = s

namespace Timespec

def Valid (rq : Timespec) : Prop := 0 ≤ rq.nsec ∧ rq.nsec ≤ 999999999

def nanos (rq : Timespec) : Int := rq.sec * 1000000000 + rq.nsec

instance (rq : Timespec) : Decidable rq.Valid := inferInstanceAs (Decidable (_ ∧ _))

end Timespec

/-- Whole microseconds, which do not add up to exactly a second, and a deadline that
a 64-bit number of seconds can hold. -/
def unrounded (rq : Timespec) (now : Timeval) : Bool :=
  rq.nsec % 1000 = 0 && now.usec + rq.nsec / 1000 ≠ 1000000 &&
    -2 ^ 63 ≤ now.sec + rq.sec && now.sec + rq.sec + 1 < 2 ^ 63

/-- The deadline is a time of day and is not before the end of the request. -/
structure Late (rq : Timespec) (now deadline : Timeval) : Prop where
  normalized : deadline.Normalized
  late : now.micros * 1000 + rq.nanos ≤ deadline.micros * 1000

theorem late_timeAdd (hv : rq.Valid) (hnow : now.Normalized)
    (hx : unrounded rq now = true) : Late rq now (timeAdd now ⟨rq.sec, rq.nsec.tdiv 1000⟩) := by
  obtain ⟨h₀, h₁⟩ := hv
  simp only [unrounded, Bool.and_eq_true, decide_eq_true_eq] at hx
  rw [Int.tdiv_eq_ediv_of_nonneg h₀]
  refine ⟨timeAdd_normalized hnow ⟨?_, ?_⟩ hx.1.1.2, ?_⟩
  · dsimp only
    omega
  · dsimp only
    omega
  · rw [micros_timeAdd]
    simp only [Timespec.nanos, Timeval.micros]
    omega

/-- The rest is that of the deadline, and not negative if the deadline has not passed. -/
structure Rest (now deadline : Timeval) (rm : Timespec) : Prop where
  valid : rm.Valid
  nanos : rm.nanos = (deadline.micros - now.micros) * 1000
  nonneg : now.micros ≤ deadline.micros → 0 ≤ rm.sec

theorem rest_timeSub (h : deadline.Normalized) (hnow : now.Normalized) :
    Rest now deadline ⟨(timeSub deadline now).sec, (timeSub deadline now).usec * 1000⟩ := by
  have hvalue := micros_timeSub deadline now
  obtain ⟨h₀, h₁⟩ := timeSub_normalized h hnow
  simp only [Timeval.micros] at hvalue
  refine ⟨⟨?_, ?_⟩, ?_, fun hle => ?_⟩
  · dsimp only
    omega
  · dsimp only
    omega
  · simp only [Timespec.nanos, Timeval.micros]
    omega
  · simp only [Timeval.micros] at hle ⊢
    omega

/-! ### Every call -/

def Asks (rq : Timespec) (s : St) : Request → Prop
  | .event deadline => ∃ now, s.reads = [now] ∧ (unrounded rq now = true → Late rq now deadline)
  | _ => True

def Stores (rq : Timespec) (s : St) (rm : Timespec) : Prop :=
  ∃ now later deadline, s = ⟨[now, later], [deadline]⟩ ∧ (unrounded rq now = true → Rest later deadline rm)

theorem nanosleep_wp (hv : rq.Valid) (rmtp : Bool) :
    (pthNanosleep (some rq) rmtp).wp (alone answer (Asks rq)) .init fun r s =>
      ∀ rm, r = .ok (.ok (some rm)) → Stores rq s rm := by
  unfold pthNanosleep
  dsimp only
  split
  · exact nofun
  · split
    · exact nofun
    · simp only [wp_bind, wp_perform]
      refine ⟨trivial, ?_⟩
      rintro now _ ⟨hnow, rfl⟩
      have hlate := fun hx => late_timeAdd hv hnow hx
      simp only [andThen_ok, wp_bind, wp_perform]
      refine ⟨⟨now, rfl, hlate⟩, ?_⟩
      rintro r _ rfl
      cases r with
      | error e => exact nofun
      | ok _ =>
        simp only [andThen_ok, wp_bind, wp_perform]
        refine ⟨trivial, ?_⟩
        rintro w _ rfl
        cases w with
        | cancelled => exact nofun
        | returned =>
          cases rmtp with
          | false => exact nofun
          | true =>
            simp only [andThen_ok, if_true, wp_bind, wp_perform]
            refine ⟨trivial, ?_⟩
            rintro later _ ⟨hlater, rfl⟩ rm hrm
            cases hrm
            exact ⟨now, later, _, rfl, fun hx => rest_timeSub (hlate hx).normalized hlater⟩

def replies (first later : Timeval) (s : St) : (e : Request) → Answer e × St
  | .now =>
    let tv := if s.reads.isEmpty then first else later
    (tv, { s with reads := s.reads ++ [tv] })
  | .event tv => (.ok (), { s with deadlines := s.deadlines ++ [tv] })
  | .wait => (.returned, s)

theorem leads_replies (first later : Timeval) (h₁ : first.Normalized) (h₂ : later.Normalized)
    (n : Nat)
    (p : Code (Except Errno (Option Timespec))) :
    Leads answer p .init (p.play (fun _ _ => false) (replies first later) n .init).1
      (p.play (fun _ _ => false) (replies first later) n .init).2 := by
  refine leads_play (fun s e _ => ?_) n p St.init
  cases e with
  | now =>
    refine ⟨?_, rfl⟩
    dsimp only [replies]
    split
    · exact h₁
    · exact h₂
  | event tv => rfl
  | wait => rfl

end Nanosleep

end GnuPth
