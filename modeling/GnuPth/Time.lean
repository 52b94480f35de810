import Mathlib.Data.Int.Basic
import Mathlib.Tactic.Ring

/-!
# Times

`pth_time_t` is a `struct timeval`. Seconds are 64-bit on the platforms the
library runs on; the comparison returns an `int`, so the difference of the
seconds loses its upper half. The arithmetic is on integers with that
truncation written out.
-/

namespace GnuPth

@[ext] structure Timeval where
  sec : Int
  usec : Int
  deriving DecidableEq, Repr

/-- The value of a C `int` that `x` is assigned to. -/
def int32 (x : Int) : Int := x.bmod (2 ^ 32)

def timeCmp (t₁ t₂ : Timeval) : Int :=
  let rc := int32 (t₁.sec - t₂.sec)
  if rc = 0 then int32 (t₁.usec - t₂.usec) else rc

def timeAdd (t₁ t₂ : Timeval) : Timeval :=
  let sec := t₁.sec + t₂.sec
  let usec := t₁.usec + t₂.usec
  if usec > 1000000 then ⟨sec + 1, usec - 1000000⟩ else ⟨sec, usec⟩

def timeSub (t₁ t₂ : Timeval) : Timeval :=
  let sec := t₁.sec - t₂.sec
  let usec := t₁.usec - t₂.usec
  if usec < 0 then ⟨sec - 1, usec + 1000000⟩ else ⟨sec, usec⟩

namespace Timeval

def micros (t : Timeval) : Int := t.sec * 1000000 + t.usec

/-- What `gettimeofday` stores when `c` microseconds have passed. -/
def ofMicros (c : Int) : Timeval := ⟨c / 1000000, c % 1000000⟩

def Normalized (t : Timeval) : Prop := 0 ≤ t.usec ∧ t.usec < 1000000

instance (t : Timeval) : Decidable t.Normalized := inferInstanceAs (Decidable (_ ∧ _))

theorem micros_ofMicros (c : Int) : (ofMicros c).micros = c := Int.ediv_mul_add_emod c 1000000

theorem ofMicros_normalized (c : Int) : (ofMicros c).Normalized :=
  ⟨Int.emod_nonneg c (by decide), Int.emod_lt_of_pos c (by decide)⟩

end Timeval

/-! ### Where the arithmetic is exact -/

theorem int32_of_range (h₁ : -2 ^ 31 ≤ x) (h₂ : x < 2 ^ 31) : int32 x = x :=
  Int.bmod_eq_of_le (by omega) (by omega)

theorem micros_timeSub (t₁ t₂ : Timeval) : (timeSub t₁ t₂).micros = t₁.micros - t₂.micros := by
  unfold timeSub Timeval.micros
  dsimp only
  split <;> ring

variable {t₁ : Timeval}

theorem timeSub_normalized (h₁ : t₁.Normalized) (h₂ : t₂.Normalized) :
    (timeSub t₁ t₂).Normalized := by
  obtain ⟨h₁, h₁'⟩ := h₁
  obtain ⟨h₂, h₂'⟩ := h₂
  unfold timeSub Timeval.Normalized
  dsimp only
  split <;> constructor <;> dsimp only <;> omega

theorem micros_timeAdd (t₁ t₂ : Timeval) : (timeAdd t₁ t₂).micros = t₁.micros + t₂.micros := by
  unfold timeAdd Timeval.micros
  dsimp only
  split <;> ring

theorem timeAdd_normalized (h₁ : t₁.Normalized) (h₂ : t₂.Normalized)
    (hne : t₁.usec + t₂.usec ≠ 1000000) : (timeAdd t₁ t₂).Normalized := by
  obtain ⟨h₁, h₁'⟩ := h₁
  obtain ⟨h₂, h₂'⟩ := h₂
  unfold timeAdd Timeval.Normalized
  dsimp only
  split <;> constructor <;> dsimp only <;> omega

theorem timeSub_timeAdd (h₁ : t₁.Normalized) (h₂ : t₂.Normalized) :
    timeSub (timeAdd t₁ t₂) t₂ = t₁ := by
  obtain ⟨h₁, h₁'⟩ := h₁
  obtain ⟨h₂, h₂'⟩ := h₂
  by_cases hcarry : t₁.usec + t₂.usec > 1000000
  · have hadd : timeAdd t₁ t₂ = ⟨t₁.sec + t₂.sec + 1, t₁.usec + t₂.usec - 1000000⟩ := if_pos hcarry
    have hborrow : t₁.usec + t₂.usec - 1000000 - t₂.usec < 0 := by omega
    rw [hadd, timeSub, if_pos hborrow]
    ext <;> dsimp only <;> ring
  · have hadd : timeAdd t₁ t₂ = ⟨t₁.sec + t₂.sec, t₁.usec + t₂.usec⟩ := if_neg hcarry
    have hborrow : ¬ t₁.usec + t₂.usec - t₂.usec < 0 := by omega
    rw [hadd, timeSub, if_neg hborrow]
    ext <;> dsimp only <;> ring

/-- A time that compares as earlier is earlier, if it is not 2^31 seconds or more
ahead. -/
theorem micros_lt_of_timeCmp (h₁ : t₁.Normalized) (h₂ : t₂.Normalized)
    (hnear : t₁.sec - t₂.sec < 2 ^ 31) (h : timeCmp t₁ t₂ < 0) : t₁.micros < t₂.micros := by
  obtain ⟨h₁, h₁'⟩ := h₁
  obtain ⟨h₂, h₂'⟩ := h₂
  unfold Timeval.micros
  by_cases hsec : t₁.sec < t₂.sec
  · omega
  · unfold timeCmp at h
    rw [int32_of_range (by omega) hnear, int32_of_range (by omega) (by omega)] at h
    dsimp only at h
    split at h
    · omega
    · omega

theorem timeCmp_eq (h₁ : -2 ^ 31 ≤ t₁.sec - t₂.sec) (h₂ : t₁.sec - t₂.sec < 2 ^ 31)
    (hu₁ : -2 ^ 31 ≤ t₁.usec - t₂.usec) (hu₂ : t₁.usec - t₂.usec < 2 ^ 31) :
    timeCmp t₁ t₂ = if t₁.sec - t₂.sec = 0 then t₁.usec - t₂.usec else t₁.sec - t₂.sec := by
  unfold timeCmp
  rw [int32_of_range h₁ h₂, int32_of_range hu₁ hu₂]

/-! ### Chains of operations -/

/-- A time that is computed with `pth_time_add` and `pth_time_sub`. -/
inductive TimeCalc
  | time (t : Timeval)
  | add (c₁ c₂ : TimeCalc)
  | sub (c₁ c₂ : TimeCalc)
  deriving Repr

namespace TimeCalc

def value : TimeCalc → Timeval
  | time t => t
  | add c₁ c₂ => timeAdd c₁.value c₂.value
  | sub c₁ c₂ => timeSub c₁.value c₂.value

def micros : TimeCalc → Int
  | time t => t.micros
  | add c₁ c₂ => c₁.micros + c₂.micros
  | sub c₁ c₂ => c₁.micros - c₂.micros

def Normal : TimeCalc → Prop
  | time t => t.Normalized
  | add c₁ c₂ | sub c₁ c₂ => c₁.Normal ∧ c₂.Normal

/-- In no addition the microseconds make up exactly one second. -/
def Uneven : TimeCalc → Prop
  | time _ => True
  | add c₁ c₂ => c₁.Uneven ∧ c₂.Uneven ∧ c₁.value.usec + c₂.value.usec ≠ 1000000
  | sub c₁ c₂ => c₁.Uneven ∧ c₂.Uneven

instance : DecidablePred Normal := decNormal
where
  decNormal : (c : TimeCalc) → Decidable c.Normal
    | time t => inferInstanceAs (Decidable t.Normalized)
    | add c₁ c₂ | sub c₁ c₂ => @instDecidableAnd _ _ (decNormal c₁) (decNormal c₂)

instance : DecidablePred Uneven := decUneven
where
  decUneven : (c : TimeCalc) → Decidable c.Uneven
    | time _ => .isTrue trivial
    | add c₁ c₂ =>
      @instDecidableAnd _ _ (decUneven c₁) (@instDecidableAnd _ _ (decUneven c₂) inferInstance)
    | sub c₁ c₂ => @instDecidableAnd _ _ (decUneven c₁) (decUneven c₂)

theorem micros_value (c : TimeCalc) : c.value.micros = c.micros := by
  induction c with
  | time t => rfl
  | add c₁ c₂ ih₁ ih₂ => rw [value, micros_timeAdd, ih₁, ih₂, micros]
  | sub c₁ c₂ ih₁ ih₂ => rw [value, micros_timeSub, ih₁, ih₂, micros]

theorem value_normalized {c : TimeCalc} (hn : c.Normal) (hu : c.Uneven) : c.value.Normalized := by
  induction c with
  | time t => exact hn
  | add c₁ c₂ ih₁ ih₂ => exact timeAdd_normalized (ih₁ hn.1 hu.1) (ih₂ hn.2 hu.2.1) hu.2.2
  | sub c₁ c₂ ih₁ ih₂ => exact timeSub_normalized (ih₁ hn.1 hu.1) (ih₂ hn.2 hu.2)

end TimeCalc

end GnuPth
