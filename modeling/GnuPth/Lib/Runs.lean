import Mathlib.Logic.Function.Basic
import Mathlib.Order.Basic

/-!
# Runs of a labelled transition system

Reachability, runs of a given length, and the two rules the rest of the
development is built on: what every step preserves holds of every reachable
state, and a step-by-step simulation carries a whole run over.
-/

namespace Transition

variable {σ τ α : Type}

structure System (σ α : Type) where
  init : σ → Prop
  step : σ → α → σ → Prop

/-- The system with only the steps that satisfy `P` in the state before them. -/
def System.restrict (S : System σ α) (P : σ → α → Prop) : System σ α where
  init := S.init
  step s a s' := P s a ∧ S.step s a s'

inductive Reachable (S : System σ α) : σ → Prop
  | init {s : σ} : S.init s → Reachable S s
  | step {s s' : σ} {a : α} : Reachable S s → S.step s a s' → Reachable S s'

/-- `n` consecutive steps from an initial state. What the two functions do
beyond step `n` is irrelevant. -/
structure Run (S : System σ α) (n : Nat) where
  state : Nat → σ
  act : Nat → α
  start : S.init (state 0)
  step : ∀ i < n, S.step (state i) (act i) (state (i + 1))

variable {S : System σ α} {P Q : σ → α → Prop}

/-! ### Invariants -/

theorem Reachable.invariant {I : σ → Prop} (hi : ∀ s, S.init s → I s)
    (hs : ∀ s a s', I s → S.step s a s' → I s') (h : Reachable S s) : I s := by
  induction h with
  | init h => exact hi _ h
  | step _ ht ih => exact hs _ _ _ ih ht

theorem Reachable.invariant_of_reachable {I : σ → Prop} (hi : ∀ s, S.init s → I s)
    (hs : ∀ s a s', Reachable S s → I s → S.step s a s' → I s') (h : Reachable S s) :
    I s := by
  induction h with
  | init h => exact hi _ h
  | step hr ht ih => exact hs _ _ _ hr ih ht

/-- A restriction may be traded for one that it implies in reachable states. -/
theorem Reachable.mono (hPQ : ∀ s a, Reachable (S.restrict P) s → P s a → Q s a)
    (h : Reachable (S.restrict P) s) : Reachable (S.restrict Q) s := by
  induction h with
  | init h => exact .init h
  | step hr ht ih => exact .step ih ⟨hPQ _ _ hr ht.1, ht.2⟩

theorem Reachable.of_restrict (h : Reachable (S.restrict P) s) : Reachable S s := by
  induction h with
  | init h => exact .init h
  | step _ ht ih => exact .step ih ht.2

theorem Reachable.of_foldlM (hf : ∀ s a s', f s a = some s' → S.step s a s')
    {acts : List α} (h : Reachable S s) (hs : acts.foldlM f s = some s') :
    Reachable S s' := by
  induction acts generalizing s with
  | nil =>
    cases hs
    exact h
  | cons a acts ih =>
    rw [List.foldlM_cons, Option.bind_eq_bind, Option.bind_eq_some_iff] at hs
    obtain ⟨s₁, ha, hs⟩ := hs
    exact ih (.step h (hf _ _ _ ha)) hs

def stepIf (ok : σ → α → Bool) (f : σ → α → Option σ) (s : σ) (a : α) : Option σ :=
  if ok s a then f s a else none

/-- A schedule of steps leads to a reachable state. -/
theorem exists_reachable_foldlM {f : σ → α → Option σ}
    (hf : ∀ s a s', f s a = some s' → S.step s a s') (hi : S.init s₀) [DecidablePred I]
    (acts : List α) (h : (acts.foldlM f s₀).any (fun s => decide (I s)) = true) :
    ∃ s, Reachable S s ∧ I s := by
  obtain ⟨s, hs, hp⟩ := (Option.any_eq_true _ _).mp h
  exact ⟨s, Reachable.of_foldlM hf (.init hi) hs, of_decide_eq_true hp⟩

/-- A schedule of allowed steps leads to a state that is reachable by such steps. -/
theorem exists_reachable_restrict
    (hf : ∀ s a s', f s a = some s' → S.step s a s') (hi : S.init s₀) [DecidablePred I]
    {acts : List α} (h : (acts.foldlM (stepIf ok f) s₀).any (fun s => decide (I s)) = true) :
    ∃ s, Reachable (S.restrict fun s a => ok s a = true) s ∧ I s := by
  refine exists_reachable_foldlM (S := S.restrict _) (fun s a s' ha => ?_) hi acts h
  unfold stepIf at ha
  split at ha
  case isTrue hok => exact ⟨hok, hf s a s' ha⟩
  case isFalse => cases ha

/-! ### History variables -/

section
variable {η : Type} {h₀ : η}

/-- The system with a variable that notes something about each step and that
no step reads. -/
def System.history (S : System σ α) (h₀ : η) (note : η → σ → α → σ → η) : System (σ × η) α where
  init p := S.init p.1 ∧ p.2 = h₀
  step p a p' := S.step p.1 a p'.1 ∧ p'.2 = note p.2 p.1 a p'.1

theorem Reachable.of_history (h : Reachable ((S.history h₀ note).restrict fun p a => P p.1 a) p) :
    Reachable (S.restrict P) p.1 := by
  induction h with
  | init h => exact .init h.1
  | step _ ht ih => exact .step ih ⟨ht.1, ht.2.1⟩

theorem Reachable.exists_history (h : Reachable (S.restrict P) s) :
    ∃ v, Reachable ((S.history h₀ note).restrict fun p a => P p.1 a) (s, v) := by
  induction h with
  | init h => exact ⟨h₀, .init ⟨h, rfl⟩⟩
  | step _ ht ih =>
    obtain ⟨v, hv⟩ := ih
    exact ⟨note v _ _ _, .step hv ⟨ht.1, ht.2, rfl⟩⟩

end

/-! ### Runs -/

theorem Run.reachable (r : Run S n) (hi : i ≤ n) : Reachable S (r.state i) := by
  induction i with
  | zero => exact .init r.start
  | succ i ih => exact .step (ih (by omega)) (r.step i hi)

def Run.mono (r : Run (S.restrict P) n)
    (hPQ : ∀ s a, Reachable (S.restrict P) s → P s a → Q s a) : Run (S.restrict Q) n where
  state := r.state
  act := r.act
  start := r.start
  step i hi :=
    ⟨hPQ _ _ (r.reachable (Nat.le_of_lt hi)) (r.step i hi).1, (r.step i hi).2⟩

theorem lasts_until {Q R : Nat → Prop} (hp : Q p)
    (hs : ∀ i, p ≤ i → i < k → Q i → R (i + 1) ∨ Q (i + 1)) (hk : p ≤ k) :
    (∃ l, p < l ∧ l ≤ k ∧ R l) ∨ Q k := by
  induction hk with
  | refl => exact .inr hp
  | @step k hpk ih =>
    rcases ih fun i hi hik => hs i hi (by omega) with ⟨l, hl, hlk, hR⟩ | hQ
    · exact .inl ⟨l, hl, by omega, hR⟩
    · rcases hs k hpk (by omega) hQ with hR | hQ
      · exact .inl ⟨k + 1, Nat.lt_succ_of_le hpk, Nat.le_refl _, hR⟩
      · exact .inr hQ

/-! ### Simulation -/

/-- Every step of `S` from related states is matched by a step of `T` with the
same label. -/
structure Simulates (S : System σ α) (T : System τ α) (R : σ → τ → Prop) : Prop where
  init : ∀ s, S.init s → ∃ t, T.init t ∧ R s t
  step : ∀ s t a s', Reachable S s → Reachable T t → R s t → S.step s a s' →
    ∃ t', T.step t a t' ∧ R s' t'

theorem Simulates.mono {R : σ → τ → Prop} (hPQ : ∀ s a, Reachable (S.restrict P) s → P s a → Q s a)
    (h : Simulates (S.restrict Q) T R) : Simulates (S.restrict P) T R where
  init := h.init
  step s t a s' hs ht hR hstep :=
    h.step s t a s' (hs.mono hPQ) ht hR ⟨hPQ s a hs hstep.1, hstep.2⟩

/-- Every reachable state stands for one that satisfies `I`, if every matched
step keeps it. -/
theorem Simulates.invariant {I : τ → Prop} (h : Simulates S T R)
    (hi : ∀ t, T.init t → I t)
    (hI : ∀ s t a s' t', Reachable S s → Reachable T t → R s t → I t → S.step s a s' →
      T.step t a t' → R s' t' → I t') (hs : Reachable S s) :
    ∃ t, Reachable T t ∧ R s t ∧ I t := by
  induction hs with
  | init hs =>
    obtain ⟨t, ht, hr⟩ := h.init _ hs
    exact ⟨t, .init ht, hr, hi t ht⟩
  | step hs hstep ih =>
    obtain ⟨t, ht, hr, hit⟩ := ih
    obtain ⟨t', ht', hr'⟩ := h.step _ _ _ _ hs ht hr hstep
    exact ⟨t', .step ht ht', hr', hI _ _ _ _ _ hs ht hr hit hstep ht' hr'⟩

theorem Simulates.reachable {R : σ → τ → Prop} (h : Simulates S T R)
    (hs : Reachable S s) : ∃ t, Reachable T t ∧ R s t := by
  obtain ⟨t, ht, hr, -⟩ := h.invariant (I := fun _ => True) (fun _ _ => trivial)
    (fun _ _ _ _ _ _ _ _ _ _ _ _ => trivial) hs
  exact ⟨t, ht, hr⟩

theorem Simulates.run {R : σ → τ → Prop} (h : Simulates S T R) (r : Run S n) :
    ∃ r' : Run T n, r'.act = r.act ∧ ∀ i ≤ n, R (r.state i) (r'.state i) := by
  -- the abstract states are chosen one step at a time, so the induction is on
  -- the length of the prefix matched so far
  suffices hk : ∀ k ≤ n, ∃ f : Nat → τ, T.init (f 0) ∧
      (∀ i < k, T.step (f i) (r.act i) (f (i + 1))) ∧ ∀ i ≤ k, R (r.state i) (f i) by
    obtain ⟨f, h0, hf, hR⟩ := hk n (Nat.le_refl n)
    exact ⟨⟨f, r.act, h0, hf⟩, rfl, hR⟩
  intro k
  induction k with
  | zero =>
    intro _
    obtain ⟨t, ht, hr⟩ := h.init _ r.start
    refine ⟨fun _ => t, ht, by simp, fun i hi => ?_⟩
    obtain rfl : i = 0 := Nat.le_zero.mp hi
    exact hr
  | succ k ih =>
    intro hk
    obtain ⟨f, h0, hf, hR⟩ := ih (by omega)
    have hreach : Reachable T (f k) :=
      (Run.mk f r.act h0 hf).reachable (Nat.le_refl k)
    obtain ⟨t', ht', hr'⟩ :=
      h.step _ _ _ _ (r.reachable (by omega)) hreach (hR k (Nat.le_refl k)) (r.step k hk)
    refine ⟨Function.update f (k + 1) t', ?_, fun i hi => ?_, fun i hi => ?_⟩
    · simpa using h0
    · rcases Nat.lt_succ_iff_lt_or_eq.mp hi with hlt | rfl
      · have h1 : i ≠ k + 1 := by omega
        have h2 : i + 1 ≠ k + 1 := by omega
        rw [Function.update_of_ne h1, Function.update_of_ne h2]
        exact hf i hlt
      · have h1 : i ≠ i + 1 := by omega
        simpa [h1] using ht'
    · rcases Nat.lt_or_eq_of_le hi with hlt | rfl
      · have h1 : i ≠ k + 1 := by omega
        simpa [h1] using hR i (by omega)
      · simpa using hr'

end Transition
