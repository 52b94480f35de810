import GnuPth.Sync.Joining

/-!
# How threads end

A thread ends in `pth_exit` with a value, or by asynchronous cancellation.
Either way its handlers and its thread-specific data are gone before it is
dead, and its control block is freed only after that.
-/

namespace GnuPth

open Function (update)
open Transition

/-- The cleanup handlers have run and the thread-specific data is destroyed, the
static events with it. -/
def Pc.cleanedUp : Pc → Bool
  | .releaseCheck _ (.all _) | .releaseLock _ (.all _) | .post _ (.release _ (.all _)) => true
  | .dying | .dead => true
  | _ => false

/-- `t` has exited with `v`, or `v` is `PTH_CANCELED` and `t` was cancelled. -/
def Ended {σ : Type} (s : State σ) (t : Tid) (v : Value) : Prop :=
  .exit t v ∈ s.log ∨ v = pthCanceled ∧ .cancelled t ∈ s.log

/-! ### The way out -/

section
variable {a : Act}

theorem Next.to_cleanedUp (h : Next a pc os pc') (hc : pc'.cleanedUp = true) :
    pc.cleanedUp = true ∨ ∃ t v, a = .exit t v := by
  cases h with
  | stay => exact .inl hc
  | call he => cases a <;> cases he <;> cases hc
  | exit | exitAll => exact .inr ⟨_, _, rfl⟩
  | woken | unwound => cases pc <;> exact .inl hc
  | @acquired _ _ _ _ k | @mutexDone _ _ _ k => cases k <;> cases hc
  | @releaseFail _ _ k _ _ hk | @releaseDone _ _ k _ hk =>
    cases k with
    | all => exact .inl rfl
    | _ => cases hk; cases hc
  | @releaseWake _ _ k | @releaseCheck _ _ k => cases k <;> first | exact .inl rfl | cases hc
  | @post _ _ k _ hk =>
    cases k with
    | release m k =>
      cases k with
      | all => exact .inl rfl
      | _ => cases hk; cases hc
    | notify c broadcast => cases broadcast <;> (cases hk; cases hc)
    | _ => cases hk; cases hc
  | die => exact .inl rfl
  | _ => cases hc

theorem Next.of_dead (h : Next a .dead os pc') : pc' = .dead := by
  generalize he : Pc.dead = pc at h
  cases h with
  | woken | unwound => subst he; rfl
  | _ => first | rfl | cases he

end

section
variable {σ : Type}

theorem Step.log_mono (h : Step home ops s a s') (ho : o ∈ s.log) : o ∈ s'.log := by
  obtain ⟨os, hos⟩ := h.log
  rw [hos]
  exact List.mem_append_right _ ho

theorem Ended.mono (he : Ended s t v) (h : Step home ops s a s') : Ended s' t v :=
  he.imp h.log_mono fun hc => ⟨hc.1, h.log_mono hc.2⟩

theorem Step.exitArg (h : Step home ops s a s') (t : Tid) :
    (s'.tcb t).exitArg = (s.tcb t).exitArg ∨ .exit t (s'.tcb t).exitArg ∈ s'.log := by
  cases h.markStep t with
  | exit _ ho h => exact .inr (by rwa [show (s'.tcb t).exitArg = _ from congrArg Marks.exitArg h])
  | same h | drain _ h | cancelled _ _ h | detach _ h | abortDead _ _ h | setJoinable _ h
  | die _ _ _ _ h | dieDetached _ _ _ h => exact .inl (congrArg Marks.exitArg h)

theorem Step.foreign (h : Step home ops s a s') (t : Tid) :
    (s'.tcb t).foreign = (s.tcb t).foreign ∨ .cancelled t ∈ s'.log := by
  cases h.markStep t with
  | cancelled _ ho => exact .inr ho
  | same h | drain _ h | exit _ _ h | detach _ h | abortDead _ _ h | setJoinable _ h | die _ _ _ _ h
  | dieDetached _ _ _ h => exact .inl (congrArg Marks.foreign h)

theorem Step.dead (h : Step home ops s a s') (hpc : (s.tcb t).pc = .dead) :
    (s'.tcb t).pc = .dead := by
  by_cases ha : a.actor = some t
  · obtain ⟨os, -, hnext⟩ := h.next ha
    rw [hpc] at hnext
    exact hnext.of_dead
  · rw [h.pc_of_ne ha, hpc]

theorem Step.exit_of_cleanedUp (h : Step home ops s a s') (hc : (s'.tcb t).pc.cleanedUp = true)
    (hn : (s.tcb t).pc.cleanedUp = false) : .exit t (s'.tcb t).exitArg ∈ s'.log := by
  have ha : a.actor = some t := by
    by_contra ha
    rw [h.pc_of_ne ha, hn] at hc
    cases hc
  obtain ⟨os, -, hnext⟩ := h.next ha
  rcases hnext.to_cleanedUp hc with hc | ⟨u, v, rfl⟩
  · rw [hn] at hc
    cases hc
  · cases ha
    cases h with
    | call _ _ he => cases he
    | exit => simp

end

/-! ### What is left of a thread -/

/-- The value a joiner is given is what the thread ended with. -/
structure Results {σ : Type} (s : State σ) : Prop where
  exiting : ∀ {t}, (s.tcb t).pc.cleanedUp = true → .exit t (s.tcb t).exitArg ∈ s.log
  foreign : ∀ {t}, (s.tcb t).foreign = true → .cancelled t ∈ s.log
  dead : ∀ {t}, (s.tcb t).joinDone = true → (s.tcb t).pc = .dead
  ended : ∀ {t}, (s.tcb t).joinDone = true → Ended s t (s.tcb t).joinArg

section
variable {σ : Type}

theorem Results.result (inv : Results s) (hpc : (s.tcb t).pc.cleanedUp = true) :
    Ended s t (s.tcb t).result := by
  unfold Tcb.result
  split
  · rename_i hf
    exact .inr ⟨rfl, inv.foreign hf⟩
  · exact .inl (inv.exiting hpc)

theorem Results.step (inv : Results s) (h : Step home ops s a s') : Results s' where
  exiting {t} hc := by
    cases hpc : (s.tcb t).pc.cleanedUp with
    | true =>
      rcases h.exitArg t with he | hx
      · rw [he]
        exact h.log_mono (inv.exiting hpc)
      · exact hx
    | false => exact h.exit_of_cleanedUp hc hpc
  foreign {t} hf := by
    rcases h.foreign t with he | hx
    · rw [he] at hf
      exact h.log_mono (inv.foreign hf)
    · exact hx
  dead {t} hd := by
    rcases h.joinDone t with ⟨he, -⟩ | ⟨-, -, hpc, -⟩
    · rw [he] at hd
      exact h.dead (inv.dead hd)
    · exact hpc
  ended {t} hd := by
    rcases h.joinDone t with ⟨he, harg⟩ | ⟨-, hpc, -, -, harg, -⟩
    · rw [he] at hd
      rw [harg]
      exact (inv.ended hd).mono h
    · rw [harg]
      refine (inv.result ?_).mono h
      rw [hpc]
      rfl

theorem results_initial (store : σ) (cfg : Config) : Results (initial store cfg) := by
  constructor <;> intros <;> simp_all [initial, Pc.cleanedUp]

theorem Step.freed (h : Step home ops s a s') (hf : (s'.tcb t).freed = true) :
    (s.tcb t).freed = true ∨ Frees s a t := by
  cases h.markStep t with
  | @drain g ha h =>
    have hor : ((s.tcb t).freed || decide (.reap t ∈ s.inbox g)) = true :=
      (congrArg Marks.freed h).symm.trans hf
    rcases Bool.or_eq_true_iff.mp hor with hf | hm
    · exact .inl hf
    · exact .inr (.inr (.inr ⟨g, ha, of_decide_eq_true hm⟩))
  | abortDead ha hpc => exact .inr (.inr (.inl ⟨ha, hpc⟩))
  | dieDetached ha hpc hj => exact .inr (.inl ⟨ha, hpc, hj⟩)
  | same h | exit _ _ h | cancelled _ _ h | detach _ h | setJoinable _ h | die _ _ _ _ h =>
    exact .inl ((congrArg Marks.freed h).symm.trans hf)

end

/-- Everything that holds of the ends of threads while joiners wait for the
death of the thread they join. -/
structure Ends {σ : Type} (s : State σ) : Prop extends Results s, AfterDeath s where
  freed : ∀ {t}, (s.tcb t).freed = true → (s.tcb t).pc = .dead

section
variable {σ : Type}

theorem Step.dies (h : Step home ops s a s') (ha : a = .step t) (hpc : (s.tcb t).pc = .dying) :
    (s'.tcb t).pc = .dead := by
  subst ha
  cases h with
  | die | dieDetached => simp
  | call _ _ he => cases he
  | _ => simp_all

theorem Ends.step (inv : Ends s) (hk : AwaitsDeath s a) (h : Step home ops s a s') : Ends s' where
  toResults := inv.toResults.step h
  toAfterDeath := inv.toAfterDeath.step hk h
  freed {t} hf := by
    rcases h.freed hf with hf | ⟨ha, hpc, -⟩ | ⟨-, hpc⟩ | ⟨g, -, hm⟩
    · exact h.dead (inv.freed hf)
    · exact h.dies ha hpc
    · exact h.dead hpc
    · exact h.dead (inv.dead (inv.reaped hm))

theorem ends_initial (store : σ) (cfg : Config) : Ends (initial store cfg) where
  toResults := results_initial store cfg
  toAfterDeath := afterDeath_initial store cfg
  freed := by intro t hf; cases hf

end

end GnuPth
