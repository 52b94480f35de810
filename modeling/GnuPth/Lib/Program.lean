import Mathlib.Logic.Basic

/-!
# Programs that make requests

Code as a tree: it returns, it is left for good, or it makes a request of its
surroundings and goes on with the answer. One program can be run in different
surroundings. A `Rule` says what a request does as a predicate transformer, and
`wp` is the weakest precondition that follows from it.
-/

namespace Program

/-- `halt` is a way out of the whole program, past everything that would follow. -/
inductive Prog (E : Type) (R : E → Type) (ε α : Type)
  | ret (a : α)
  | halt (h : ε)
  | ask (e : E) (k : R e → Prog E R ε α)

section
variable {R : E → Type} {ε α : Type}

def Prog.bind : Prog E R ε α → (α → Prog E R ε β) → Prog E R ε β
  | .ret a, f => f a
  | .halt h, _ => .halt h
  | .ask e k, f => .ask e fun r => (k r).bind f

instance : Monad (Prog E R ε) where
  pure := .ret
  bind := .bind

def perform (e : E) : Prog E R ε (R e) := .ask e .ret

/-- Turns of a loop until one of them gives a result, at most so many. -/
def Prog.iterate (stop : ε) (body : β → Prog E R ε (β ⊕ α)) : Nat → β → Prog E R ε α
  | 0, _ => .halt stop
  | n + 1, b => do
    match ← body b with
    | .inl b' => Prog.iterate stop body n b'
    | .inr a => return a

end

/-! ### Equal programs -/

section
variable {R : E → Type} {ε : Type}

theorem Prog.bind_ret (p : Prog E R ε α) : p.bind .ret = p := by
  induction p with
  | ret => rfl
  | halt => rfl
  | ask e k ih => exact congrArg _ (funext ih)

theorem Prog.bind_bind (p : Prog E R ε α) (f : α → Prog E R ε β) (g : β → Prog E R ε γ) :
    (p.bind f).bind g = p.bind fun a => (f a).bind g := by
  induction p with
  | ret => rfl
  | halt => rfl
  | ask e k ih => exact congrArg _ (funext ih)

instance : LawfulMonad (Prog E R ε) :=
  LawfulMonad.mk' _ Prog.bind_ret (fun _ _ => rfl) Prog.bind_bind

/-- Every value that the program may return satisfies `P`. -/
def Prog.Yields (P : α → Prop) : Prog E R ε α → Prop
  | .ret a => P a
  | .halt _ => True
  | .ask _ k => ∀ r, (k r).Yields P

theorem yields_bind {f : β → Prog E R ε α} (p : Prog E R ε β) (hf : ∀ b, (f b).Yields P) :
    (p >>= f).Yields P := by
  show (p.bind f).Yields P
  induction p with
  | ret b => exact hf b
  | halt => trivial
  | ask e k ih => exact ih

theorem Prog.Yields.bind_congr {f : α → Prog E R ε β} (h : p.Yields P)
    (hfg : ∀ a, P a → f a = g a) : p >>= f = p >>= g := by
  show p.bind f = p.bind g
  induction p with
  | ret a => exact hfg a h
  | halt => rfl
  | ask e k ih => exact congrArg (Prog.ask e) (funext fun r => ih r (h r))

theorem iterate_map {body : β → Prog E R ε (β ⊕ α)} {body' : γ → Prog E R ε (γ ⊕ α)}
    (hyields : ∀ b, I b → (body b).Yields (Sum.elim I fun _ => True))
    (hbody : ∀ b, I b → body' (f b) = Sum.map f id <$> body b) (hb : I b) (n : Nat) :
    Prog.iterate stop body' n (f b) = Prog.iterate stop body n b := by
  induction n generalizing b with
  | zero => rfl
  | succ n ih =>
    rw [Prog.iterate, Prog.iterate, hbody b hb, bind_map_left]
    refine (hyields b hb).bind_congr fun c hc => ?_
    cases c with
    | inl b' => exact ih hc
    | inr a => rfl

end

/-! ### Weakest preconditions -/

/-- When a request made in state `x` leads to `K`, whatever the answer. -/
structure Rule (E : Type) (R : E → Type) (X : Type) where
  req (e : E) (x : X) (K : R e → X → Prop) : Prop
  mono {e : E} {x : X} {K K' : R e → X → Prop} (h : ∀ r x', K r x' → K' r x') :
    req e x K → req e x K'

section
variable {ε α β : Type} (ρ : Rule E R X)

def Prog.wp : Prog E R ε α → X → (Except ε α → X → Prop) → Prop
  | .ret a, x, Q => Q (.ok a) x
  | .halt h, x, Q => Q (.error h) x
  | .ask e k, x, Q => ρ.req e x fun r x' => (k r).wp x' Q

def Post.andThen (f : α → Prog E R ε β) (Q : Except ε β → X → Prop) : Except ε α → X → Prop
  | .ok a, x => (f a).wp ρ x Q
  | .error h, x => Q (.error h) x

def Post.turn (I : β → X → Prop) (Q : Except ε α → X → Prop) : Except ε (β ⊕ α) → X → Prop
  | .ok (.inl b), x => I b x
  | .ok (.inr a), x => Q (.ok a) x
  | .error h, x => Q (.error h) x

end

section
variable {p : Prog E R ε α}

@[simp] theorem wp_ret : (Prog.ret a : Prog E R ε α).wp ρ x Q = Q (.ok a) x := rfl

@[simp] theorem wp_pure : (pure a : Prog E R ε α).wp ρ x Q = Q (.ok a) x := rfl

@[simp] theorem wp_perform :
    (perform e : Prog E R ε (R e)).wp ρ x Q = ρ.req e x fun r x' => Q (.ok r) x' := rfl

@[simp] theorem wp_bind {f : α → Prog E R ε β} :
    (p >>= f).wp ρ x Q = p.wp ρ x (Post.andThen ρ f Q) := by
  show (p.bind f).wp ρ x Q = _
  induction p generalizing x with
  | ret a => rfl
  | halt h => rfl
  | ask e k ih => simp only [Prog.bind, Prog.wp, ih]

/-- The rule for one program after another. -/
theorem wp_seq {f : α → Prog E R ε β} (h : p.wp ρ x (Post.andThen ρ f Q)) :
    (p >>= f).wp ρ x Q := by
  rwa [wp_bind]

@[simp] theorem andThen_ok {f : α → Prog E R ε β} :
    Post.andThen ρ f Q (.ok a) x = (f a).wp ρ x Q := rfl

theorem Prog.wp.mono (hp : p.wp ρ x Q) (h : ∀ r x', Q r x' → Q' r x') : p.wp ρ x Q' := by
  induction p generalizing x with
  | ret a | halt e => exact h _ _ hp
  | ask e k ih => exact ρ.mono (fun r x' hr => ih r hr) hp

/-- The loop rule: every turn keeps `I` or ends in `Q`. -/
theorem wp_iterate {body : β → Prog E R ε (β ⊕ α)} (I : β → X → Prop)
    (hI : I b x) (hbody : ∀ b x, I b x → (body b).wp ρ x (Post.turn I Q))
    (hstop : ∀ b x, I b x → Q (.error stop) x) :
    (Prog.iterate stop body n b).wp ρ x Q := by
  induction n generalizing b x with
  | zero => exact hstop b x hI
  | succ n ih =>
    rw [Prog.iterate, wp_bind]
    refine (hbody b x hI).mono fun r x' hr => ?_
    match r with
    | .ok (.inl b') => exact ih hr
    | .ok (.inr a) => exact hr
    | .error h => exact hr

end

/-! ### Programs that make some requests only -/

section
variable {p : Prog E R ε α}

/-- Every request satisfies `P` and every way out `H`, whatever the answers were. -/
def Prog.Only (P : E → Prop) (H : ε → Prop) : Prog E R ε α → Prop
  | .ret _ => True
  | .halt h => H h
  | .ask e k => P e ∧ ∀ r, (k r).Only P H

theorem only_pure : (pure a : Prog E R ε α).Only P H := trivial

theorem only_perform (h : P e) : (perform e : Prog E R ε (R e)).Only P H :=
  ⟨h, fun _ => trivial⟩

theorem Prog.Only.bind {f : α → Prog E R ε β} (h : p.Only P H) (hf : ∀ a, (f a).Only P H) :
    (p >>= f).Only P H := by
  show (p.bind f).Only P H
  induction p with
  | ret a => exact hf a
  | halt e => exact h
  | ask e k ih => exact ⟨h.1, fun r => ih r (h.2 r)⟩

theorem Prog.Only.iterate {body : β → Prog E R ε (β ⊕ α)}
    (h : ∀ b, (body b).Only P H) (hstop : H stop) : (Prog.iterate stop body n b).Only P H := by
  induction n generalizing b with
  | zero => exact hstop
  | succ n ih =>
    refine (h b).bind fun c => ?_
    cases c with
    | inl b' => exact ih
    | inr a => trivial

/-- The frame rule: what every one of the requests keeps, the program keeps. -/
theorem Prog.Only.wp {I : X → Prop} (h : p.Only P H)
    (hI : ∀ e x, P e → I x → ρ.req e x fun _ => I) (hx : I x)
    (hok : ∀ a x, I x → Q (.ok a) x) (herror : ∀ e x, H e → I x → Q (.error e) x) :
    p.wp ρ x Q := by
  induction p generalizing x with
  | ret a => exact hok a x hx
  | halt e => exact herror e x h hx
  | ask e k ih => exact ρ.mono (fun r x' hx' => ih r (h.2 r) hx') (hI e x h.1 hx)

end

/-! ### A program on its own -/

section
variable {R : E → Type} {S : Type} {ε α : Type} (answer : S → (e : E) → R e → S → Prop)

/-- The program `p` in state `s` comes to `p'` in `s'`. -/
inductive Leads : Prog E R ε α → S → Prog E R ε α → S → Prop
  | refl {p s} : Leads p s p s
  | ask {e k s r s₁ p' s'} (h : answer s e r s₁) (hk : Leads (k r) s₁ p' s') :
      Leads (.ask e k) s p' s'

/-- Run the program against surroundings that are a function, for so many
requests or until one at which to stop. -/
def Prog.play (stop : S → E → Bool) (reply : S → (e : E) → R e × S) :
    Nat → Prog E R ε α → S → Prog E R ε α × S
  | n + 1, .ask e k, s =>
    if stop s e then (.ask e k, s) else Prog.play stop reply n (k (reply s e).1) (reply s e).2
  | _, p, s => (p, s)

/-- Every request satisfies `A` and may get every answer. -/
def alone (A : S → E → Prop) : Rule E R S where
  req e s K := A s e ∧ ∀ r s', answer s e r s' → K r s'
  mono h hr := ⟨hr.1, fun r s' ha => h r s' (hr.2 r s' ha)⟩

end

section
variable {R : E → Type}

theorem Leads.wp (h : Leads answer p s p' s') (hp : p.wp (alone answer A) s Q) :
    p'.wp (alone answer A) s' Q := by
  induction h with
  | refl => exact hp
  | ask ha _ ih => exact ih (hp.2 _ _ ha)

theorem leads_play {stop : S → E → Bool}
    (h : ∀ s e, stop s e = false → answer s e (reply s e).1 (reply s e).2) (n : Nat)
    (p : Prog E R ε α) (s : S) :
    Leads answer p s (p.play stop reply n s).1 (p.play stop reply n s).2 := by
  induction n generalizing p s with
  | zero => cases p <;> exact .refl
  | succ n ih =>
    cases p with
    | ret => exact .refl
    | halt => exact .refl
    | ask e k =>
      rw [Prog.play]
      split
      case isTrue => exact .refl
      case isFalse hs => exact .ask (h s e (by simpa using hs)) (ih _ _)

theorem Leads.returned (h : Leads answer p s (.ret a) s')
    (hp : p.wp (alone answer A) s Q) : Q (.ok a) s' :=
  h.wp hp

theorem Leads.halted (h : Leads answer p s (.halt e) s') (hp : p.wp (alone answer A) s Q) :
    Q (.error e) s' :=
  h.wp hp

theorem Leads.asked (h : Leads answer p s (.ask e k) s')
    (hp : p.wp (alone answer A) s Q) : A s' e :=
  (h.wp hp).1

end

end Program
