import GnuPth.Lib.Program
import GnuPth.Lib.Runs

/-!
# Cooperative threads

Threads that run programs over shared state, one at a time. A thread goes on
until it makes a request at which it gives up control; it is dispatched again
with the answer. The surroundings may change the shared state at any time.
-/

namespace Program

open Function (update)
open Transition

variable {E : Type} {R : E → Type} {ε α X : Type}

structure Coop (T C E : Type) (R : E → Type) (ε α X : Type) where
  code : C → Prog E R ε α
  enter : T → C → X → X
  -- a request that is answered at once
  answer : T → X → (e : E) → R e → X → Prop
  -- a request at which the thread gives up control, and the answer when it goes on
  yields : T → X → E → Prop
  wake : T → X → (e : E) → R e → X → Prop
  -- the ways out of a program that end the thread, and what is done then
  ends : ε → Prop
  unwind : T → X → X
  env : X → X → Prop

/-- The threads that are in a call, with what they have still to run. -/
structure Pool (T C E : Type) (R : E → Type) (ε α X : Type) where
  shared : X
  thread : T → Option (C × Prog E R ε α)
  current : Option T
  -- history variable: the calls that are over, latest first
  finished : List (T × C × Except ε α)

inductive Move (T C E : Type) (R : E → Type) (X : Type)
  | start (t : T) (c : C)
  | run (t : T) (e : E) (r : R e)
  | yield (t : T)
  | resume (t : T) (e : E) (r : R e)
  | finish (t : T)
  | env (x : X)

section
variable [DecidableEq T] (M : Coop T C E R ε α X)

inductive Coop.Step (s : Pool T C E R ε α X) : Move T C E R X → Pool T C E R ε α X → Prop
  | start {t c} (hc : s.current = none) (ht : s.thread t = none) :
      Coop.Step s (.start t c)
        { s with
          shared := M.enter t c s.shared
          thread := update s.thread t (some (c, M.code c))
          current := some t }
  | run {t c e k r x} (hc : s.current = some t) (ht : s.thread t = some (c, .ask e k))
      (hy : ¬M.yields t s.shared e) (ha : M.answer t s.shared e r x) :
      Coop.Step s (.run t e r)
        { s with shared := x, thread := update s.thread t (some (c, k r)) }
  | yield {t c e k} (hc : s.current = some t) (ht : s.thread t = some (c, .ask e k))
      (hy : M.yields t s.shared e) : Coop.Step s (.yield t) { s with current := none }
  | resume {t c e k r x} (hc : s.current = none) (ht : s.thread t = some (c, .ask e k))
      (hw : M.wake t s.shared e r x) :
      Coop.Step s (.resume t e r)
        { s with shared := x, thread := update s.thread t (some (c, k r)), current := some t }
  | finish {t c a} (hc : s.current = some t) (ht : s.thread t = some (c, .ret a)) :
      Coop.Step s (.finish t)
        { s with
          thread := update s.thread t none
          current := none
          finished := (t, c, .ok a) :: s.finished }
  | unwind {t c h} (hc : s.current = some t) (ht : s.thread t = some (c, .halt h))
      (hh : M.ends h) :
      Coop.Step s (.finish t)
        { s with
          shared := M.unwind t s.shared
          thread := update s.thread t none
          current := none
          finished := (t, c, .error h) :: s.finished }
  | env {x} (hx : M.env s.shared x) : Coop.Step s (.env x) { s with shared := x }

def Pool.init (x : X) : Pool T C E R ε α X := ⟨x, fun _ => none, none, []⟩

def Coop.system (init : X → Prop) : System (Pool T C E R ε α X) (Move T C E R X) where
  init s := ∃ x, init x ∧ s = .init x
  step := M.Step

end

/-! ### Several requests in a row -/

section
variable [DecidableEq T] {M : Coop T C E R ε α X}

/-- The answers that a thread gets without giving up control. -/
def Coop.atOnce (M : Coop T C E R ε α X) (t : T) (A : X → (e : E) → R e → Prop) (x : X) (e : E)
    (r : R e) (x' : X) : Prop :=
  A x e r ∧ ¬M.yields t x e ∧ M.answer t x e r x'

theorem reachable_leads (h : Reachable ((M.system init).restrict P) s)
    (hP : ∀ s e r, A s.shared e r → P s (.run t e r)) (hc : s.current = some t)
    (ht : s.thread t = some (c, p)) (hl : Leads (M.atOnce t A) p s.shared p' x') :
    Reachable ((M.system init).restrict P)
      { s with shared := x', thread := update s.thread t (some (c, p')) } := by
  obtain ⟨x, thread, current, finished⟩ := s
  replace hc : current = some t := hc
  replace ht : thread t = some (c, p) := ht
  replace hl : Leads (M.atOnce t A) p x p' x' := hl
  induction hl generalizing thread with
  | refl =>
    have hsame : update thread t (some (c, _)) = thread := Function.update_eq_self_iff.mpr ht.symm
    simpa [hsame] using h
  | @ask e k x r x₁ p' x' ha hk ih =>
    have hstep : M.Step ⟨x, thread, current, finished⟩ (.run t e r)
        ⟨x₁, update thread t (some (c, k r)), current, finished⟩ :=
      .run hc ht ha.2.1 ha.2.2
    have h₁ := Reachable.step h ⟨hP _ e r ha.1, hstep⟩
    simpa using ih (update thread t (some (c, k r))) h₁ (Function.update_self ..)

end

end Program
