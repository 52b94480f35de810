import GnuPth.Sync.Control

/-!
# Cleaning up after another thread

An asynchronous cancellation runs `pth_thread_cleanup` on the stack of the
canceller, with `pth_current` swapped: the handlers of the cancelled thread,
then `pth_mutex_releaseall`. A handler that waits would switch away from the
wrong context. Of the handlers that the library pushes itself only the one of
`pth_cond_await` acquires a lock.
-/

namespace GnuPth

open Function (update)
open Transition

abbrev OnceId := Nat

/-- The cleanup handlers that the blocking calls of the library push. -/
inductive Handler
  | mutexWait (m : MutexId) (k : AcquireFrom)
  | rwlockWait (r : RwlockId) (op : RwOp)
  | condAwait (c : CondId) (m : MutexId)
  | join (tid : Tid)
  | once (o : OnceId)
  deriving DecidableEq, Repr

/-- The state of `pth_thread_cleanup`. -/
structure Cleanup where
  sync : State WaitLinks
  -- what is left of `thread->cleanups`
  stack : List Handler
  -- the control words of `pth_once`
  once : OnceId → Nat

/-- The call of a handler: up to its first section, or the whole of
`pth_once_cleanup`. -/
def Handler.enter (x : Cleanup) (t : Tid) : Handler → Cleanup
  | .mutexWait m k => { x with sync := x.sync.goto t (.mutexCleanup m k) }
  | .rwlockWait r op => { x with sync := x.sync.goto t (.rwlockCleanup r op) }
  | .condAwait c m => { x with sync := x.sync.goto t (.mutexEnter m false false (.handler c)) }
  | .join tid => { x with sync := x.sync.goto t (.joinCleanup tid) }
  | .once o => { x with once := update x.once o 0 }

/-- The handler that a thread waiting at this point has pushed last. -/
def Pc.handler : Pc → Option Handler
  | .mutexWait m _ k => some (.mutexWait m k)
  | .rwlockWait r op _ => some (.rwlockWait r op)
  | .condWait c m _ => some (.condAwait c m)
  | .joinWait tid => some (.join tid)
  | _ => none

theorem Pc.unwound_eq_enter {pc : Pc} (x : Cleanup) (t : Tid)
    (h : pc.handler = some hd) : (hd.enter x t).sync = x.sync.goto t pc.unwound := by
  cases pc <;> cases h <;> rfl

inductive CleanupAct
  | pop
  | step
  | releaseall
  | env (a : Act)

/-- The step happens on a scheduler other than `g`. -/
def Act.elsewhere (home : Tid → SchedId) (g : SchedId) (a : Act) : Prop :=
  (∀ u, a.actor = some u → home u ≠ g) ∧ a ≠ .drain g

/-- `pth_thread_cleanup(t)` while `rest` is what runs below it on the scheduler
of `t` and the other schedulers go on. It is over at `dying`. -/
def cleanupSystem (home : Tid → SchedId) (t : Tid) (rest : List Tid) :
    System Cleanup CleanupAct where
  init x := (x.sync.tcb t).pc = .app ∧ (x.sync.tcb t).foreign = true ∧
    x.sync.active (home t) = t :: rest
  step x a x' :=
    match a with
    | .pop => (x.sync.tcb t).pc = .app ∧
        ∃ hd stack, x.stack = hd :: stack ∧ x' = hd.enter { x with stack } t
    | .step => (x.sync.tcb t).pc ≠ .dying ∧
        ∃ fuel sync, exec home (linkOps fuel) x.sync (.step t) = some sync ∧ x' = { x with sync }
    | .releaseall => (x.sync.tcb t).pc = .app ∧ x.stack = [] ∧
        x' = { x with sync := mutexReleaseall x.sync t }
    | .env a => a.elsewhere home (home t) ∧
        ∃ fuel sync, exec home (linkOps fuel) x.sync a = some sync ∧ x' = { x with sync }

theorem State.goto_goto_self {s : State σ} (h : (s.tcb t).pc = pc) :
    (s.goto t .app).goto t pc = s := by
  subst h
  simp

/-- An asynchronous cancellation in a wait is the first call of a handler in
`pth_thread_cleanup`, whatever was pushed before. -/
theorem cancelAsync_cleanup (h : exec home (linkOps fuel) s (.cancel t) = some s')
    (hh : (s.tcb t).pc.handler = some hd) (hf : (s'.tcb t).foreign = true)
    (hn : (s.tcb t).foreign = false) (stack : List Handler) (once : OnceId → Nat) :
    Reachable (cleanupSystem home t (s.active (home t))) ⟨s', stack, once⟩ := by
  have hs' : (s'.tcb t).pc = (s.tcb t).pc.unwound ∧ s'.active (home t) = t :: s.active (home t) := by
    cases exec_step h with
    | call _ _ he => cases he
    | cancel => simp [hn] at hf
    | cancelAsync => simp
  have hinit : Reachable (cleanupSystem home t (s.active (home t)))
      ⟨s'.goto t .app, hd :: stack, once⟩ := .init ⟨by simp, by simpa using hf, hs'.2⟩
  have hpop : hd.enter ⟨s'.goto t .app, stack, once⟩ t = ⟨s', stack, once⟩ := by
    have hsync := Pc.unwound_eq_enter ⟨s'.goto t .app, stack, once⟩ t hh
    rw [State.goto_goto_self hs'.1] at hsync
    generalize (s.tcb t).pc = pc at hh
    cases pc <;> cases hh <;> exact congrArg (Cleanup.mk · stack once) hsync
  exact .step hinit (a := .pop) ⟨by simp, hd, stack, rfl, hpop.symm⟩

/-! ### No handler waits -/

/-- The control points of the handlers that do not acquire a lock, and of
`pth_mutex_releaseall`. -/
def Pc.cleaning : Pc → Bool
  | .app | .mutexCleanup .. | .rwlockCleanup .. | .joinCleanup _ | .post _ (.unwind ..) => true
  | .releaseCheck _ (.all _) | .releaseLock _ (.all _) | .post _ (.release _ (.all _)) => true
  | .dying => true
  | _ => false

section
variable {σ : Type}

theorem not_parks_of_cleaning (h : (s.tcb t).pc.cleaning = true) : ¬parks s t := by
  unfold parks
  split <;> simp_all [Pc.cleaning]

theorem Step.active_of_ne (h : Step home ops s a s') (ha : a.actor = some u)
    (hg : home u ≠ g) : s'.active g = s.active g := by
  cases h with
  | drain => cases ha
  | call => rfl
  | releaseFail _ _ _ _ _ he | unlock _ _ _ _ _ _ he | unrecurse _ _ _ _ _ he
  | post _ _ _ _ he =>
    cases ha
    subst he
    unfold activeAfter
    split <;> simp [Ne.symm hg]
  | _ =>
    cases ha
    simp [Ne.symm hg]

/-- A section of a handler, or of `pth_mutex_releaseall`, neither waits nor
switches. -/
theorem Step.cleaning (h : Step home ops s (.step t) s') (hc : (s.tcb t).pc.cleaning = true)
    (hd : (s.tcb t).pc ≠ .dying) :
    (s'.tcb t).pc.cleaning = true ∧ s'.active = s.active := by
  cases h with
  | call _ _ he => cases he
  | passOn | passFree | mutexLeave | rwlockCleanup | joinCleanup => simp [Pc.cleaning]
  | @releaseCheck _ m k hr hpc | @handoff _ m k w store hr hpc | @wakeOne _ m k w store hr hpc =>
    rw [hpc] at hc
    cases k with
    | all => simp [Pc.cleaning]
    | _ => cases hc
  | @releaseFail _ m k e b g hr hpc ho hb _ he | @unlock _ m k store b g hr hpc hn hs hb _ he
  | @unrecurse _ m k b g hr hpc hn hb _ he =>
    rw [hpc] at hc
    cases k with
    | all rnf =>
      subst he
      rcases hb with hb | ⟨rn, hb⟩ <;> simp [hb, activeAfter, Pc.waitsFor, Pc.cleaning]
    | _ => cases hc
  | @post _ w k b g hr hpc hb _ he =>
    rw [hpc] at hc
    subst he
    cases k with
    | release m k =>
      cases k with
      | all rnf =>
        rcases hb with hb | ⟨rn, hb⟩ <;> simp [hb, activeAfter, Pc.waitsFor, Pc.cleaning]
      | _ => cases hc
    | unwind m k =>
      have hb : b.pc = .app := hb
      simp [hb, activeAfter, Pc.waitsFor, Pc.cleaning]
    | _ => cases hc
  | condDequeue hr hpc => rcases hpc with ⟨hpc, -⟩ | ⟨hpc, -⟩ <;> (rw [hpc] at hc; cases hc)
  | die hr hpc | dieDetached hr hpc => exact absurd hpc hd
  | _ =>
    -- no other control point belongs to a handler
    rw [‹(s.tcb t).pc = _›] at hc
    cases hc

end

section
variable {x : Cleanup}

/-- No handler of `pth_cond_await` is run. -/
def NoAwait (x : Cleanup) (a : CleanupAct) : Prop :=
  ∀ c m stack, a = .pop → x.stack ≠ .condAwait c m :: stack

def Cleanup.Ok (home : Tid → SchedId) (t : Tid) (rest : List Tid) (x : Cleanup) : Prop :=
  (x.sync.tcb t).pc.cleaning = true ∧ x.sync.active (home t) = t :: rest

theorem Cleanup.Ok.env {sync : State WaitLinks} (h : x.Ok home t rest)
    (ha : a.elsewhere home (home t)) (he : exec home (linkOps fuel) x.sync a = some sync) :
    Cleanup.Ok home t rest { x with sync } := by
  have hstep := exec_step he
  have hact : a.actor ≠ some t ∧ sync.active (home t) = x.sync.active (home t) := by
    cases hact : a.actor with
    | some u =>
      have hu : home u ≠ home t := ha.1 u hact
      refine ⟨?_, hstep.active_of_ne hact hu⟩
      rintro ht
      cases ht
      exact hu rfl
    | none =>
      refine ⟨nofun, ?_⟩
      cases hstep with
      | drain => rfl
      | call _ _ hen => rw [Act.entry_actor hen] at hact; cases hact
      | _ => cases hact
  refine ⟨?_, hact.2.trans h.2⟩
  rw [hstep.pc_of_ne hact.1]
  exact h.1

theorem Cleanup.Ok.step (h : x.Ok home t rest) (hn : NoAwait x a)
    (hs : (cleanupSystem home t rest).step x a x') : x'.Ok home t rest := by
  cases a with
  | pop =>
    obtain ⟨hpc, hd, stack, hstack, rfl⟩ := hs
    cases hd with
    | condAwait c m => exact absurd hstack (hn c m stack rfl)
    | once o => exact h
    | _ => exact ⟨by simp [Handler.enter, Pc.cleaning], h.2⟩
  | step =>
    obtain ⟨hpc, fuel, sync, he, rfl⟩ := hs
    obtain ⟨hc, hact⟩ := (exec_step he).cleaning h.1 hpc
    exact ⟨hc, by rw [← h.2]; exact congrFun hact _⟩
  | releaseall =>
    obtain ⟨hpc, -, rfl⟩ := hs
    obtain ⟨pc, he, hpc'⟩ := mutexReleaseall_pc x.sync t
    refine ⟨?_, by rw [he]; exact h.2⟩
    rw [he, State.goto_pc]
    rcases hpc' with rfl | ⟨rn, rfl⟩ <;> rfl
  | env a =>
    obtain ⟨ha, fuel, sync, he, rfl⟩ := hs
    exact h.env ha he

end

end GnuPth
