import GnuPth.Sync.Refinement
import GnuPth.Sync.Wakeups
import Mathlib.Tactic.IntervalCases

/-!
# Condition variables in runs of the code

What a caller of `pth_cond_await` can rely on when it gets control back, and
what a notification can rely on. The first does not depend on the wait queues:
`OwnerStep` is all that a step can do to the owner of a mutex over any memory
for them.
-/

namespace GnuPth

open Function (update update_self)
open Transition

/-! ### Owners -/

section
variable {σ : Type}

def GivesAway (s : State σ) (t : Tid) (m : MutexId) : Prop :=
  (∃ k, (s.tcb t).pc = .mutexCleanup m k) ∧ (s.mutex m).owner = some t ∨
    ∃ k, (s.tcb t).pc = .releaseLock m k

inductive OwnerStep (s s' : State σ) (a : Act) (m : MutexId) : Prop
  | same (ho : (s'.mutex m).owner = (s.mutex m).owner)
      (hl : (s'.mutex m).locked = (s.mutex m).locked)
  | take {t : Tid} (ha : a = .step t) (hl : (s.mutex m).locked = false)
      (ho : (s'.mutex m).owner = some t) (hl' : (s'.mutex m).locked = true)
  | give {t w : Tid} (ha : a = .step t) (hg : GivesAway s t m)
      (ho : (s'.mutex m).owner = some w) (hl : (s'.mutex m).locked = (s.mutex m).locked)
  | drop {t : Tid} (ha : a = .step t) (hg : GivesAway s t m) (ho : (s'.mutex m).owner = none)
      (hl : (s'.mutex m).locked = false)

theorem OwnerStep.of_ne (hm : m' ≠ m)
    (h : s'.mutex = update s.mutex m' x) : OwnerStep s s' a m := by
  have hx : s'.mutex m = s.mutex m := by rw [h, Function.update_of_ne (Ne.symm hm)]
  exact .same (by rw [hx]) (by rw [hx])

theorem Step.ownerStep (h : Step home ops s a s') (m : MutexId) : OwnerStep s s' a m := by
  cases h with
  | @setfair t m' | @recurse t m' | @unrecurse t m' =>
    by_cases hm : m' = m
    · subst hm
      exact .same (by simp) (by simp)
    · exact .of_ne hm rfl
  | @take t m' tryonly extra k hr hpc hi hl | @retake t m' extra k b store hr hpc ho hrem he hl =>
    by_cases hm : m' = m
    · subst hm
      exact .take rfl hl (by simp) (by simp)
    · exact .of_ne hm rfl
  | @passOn t m' k w store hr hpc ho =>
    by_cases hm : m' = m
    · subst hm
      exact .give rfl (.inl ⟨⟨k, hpc⟩, ho⟩) (w := w) (by simp [Mutex.handTo]) (by simp [Mutex.handTo])
    · exact .of_ne hm rfl
  | @handoff t m' k w store hr hpc =>
    by_cases hm : m' = m
    · subst hm
      exact .give rfl (.inr ⟨k, hpc⟩) (w := w) (by simp [Mutex.handTo]) (by simp [Mutex.handTo])
    · exact .of_ne hm rfl
  | @passFree t m' k store hr hpc ho =>
    by_cases hm : m' = m
    · subst hm
      exact .drop rfl (.inl ⟨⟨k, hpc⟩, ho⟩) (by simp [Mutex.unlock]) (by simp [Mutex.unlock])
    · exact .of_ne hm rfl
  | @wakeOne t m' k w store hr hpc | @unlock t m' k store b g hr hpc =>
    by_cases hm : m' = m
    · subst hm
      exact .drop rfl (.inr ⟨k, hpc⟩) (by simp [Mutex.unlock]) (by simp [Mutex.unlock])
    · exact .of_ne hm rfl
  | _ => exact .same rfl rfl

structure OwnerOk (s : State σ) : Prop where
  locked : ∀ m, (s.mutex m).locked = true ↔ (s.mutex m).owner ≠ none
  releasing : ∀ t m k, (s.tcb t).pc = .releaseLock m k → (s.mutex m).owner = some t

theorem OwnerOk.givesAway (inv : OwnerOk s) (h : GivesAway s t m) : (s.mutex m).owner = some t := by
  rcases h with ⟨-, ho⟩ | ⟨k, hpc⟩
  · exact ho
  · exact inv.releasing t m k hpc

theorem OwnerOk.owner_of_ne (inv : OwnerOk s) (h : Step home ops s a s')
    (ho : (s.mutex m).owner = some t) (ha : a ≠ .step t) : (s'.mutex m).owner = some t := by
  have hne : ∀ u, a = .step u → GivesAway s u m → False := by
    rintro u rfl hg
    have hu := ho.symm.trans (inv.givesAway hg)
    cases hu
    exact ha rfl
  cases h.ownerStep m with
  | same ho' => rw [ho', ho]
  | take _ hl =>
    have hlock := (inv.locked m).mpr (by simp [ho])
    rw [hl] at hlock
    cases hlock
  | give ha' hg | drop ha' hg => exact (hne _ ha' hg).elim

/-- A thread gets behind the checks of `pth_mutex_release` only as the owner. -/
theorem Step.to_releaseLock (h : Step home ops s a s') (ha : a.actor = some t)
    (hpc' : (s'.tcb t).pc = .releaseLock m k) :
    (s.tcb t).pc = .releaseLock m k ∧ s'.mutex = s.mutex ∨ (s'.mutex m).owner = some t := by
  cases h with
  | drain => cases ha
  | dispatch | yield | setfair | setfairFail | joinFail | cancelPoint =>
    cases ha
    simp_all
  | fire | cancel | abort | abortDead | setJoinable | cancelState | cancelActed =>
    cases ha
    exact .inl ⟨by simpa using hpc', rfl⟩
  | releaseCheck hr hpc hi hl ho =>
    cases ha
    simp only [State.goto_pc] at hpc'
    obtain ⟨rfl, rfl⟩ := hpc'
    exact .inr ho
  | call hr hpc he =>
    obtain rfl := Option.some.inj (ha.symm.trans (Act.entry_actor he))
    simp only [State.goto_pc] at hpc'
    subst hpc'
    cases a <;> cases he
  | exit hr hpc hp =>
    cases ha
    simp only [State.modTcb, update_self] at hpc'
    subst hpc'
    rcases hp with hp | ⟨rn, hp⟩ <;> cases hp
  | resume =>
    cases ha
    exact .inl ⟨Pc.of_woken (by simpa using hpc') rfl, rfl⟩
  | unwind | cancelAsync =>
    cases ha
    exact .inl ⟨Pc.of_unwound (by simpa using hpc') rfl, rfl⟩
  | @acquireFail _ _ _ _ k₁ | @take _ _ _ _ k₁ | @recurse _ _ _ _ k₁ | @grant _ _ _ k₁
  | @mutexTimeout _ _ _ k₁ | @retake _ _ _ k₁ =>
    cases ha
    cases k₁ <;> simp [AcquireFrom.pc] at hpc'
  | releaseFail hr hpc ho hb | unlock hr hpc hn hs hb | unrecurse hr hpc hn hb =>
    cases ha
    simp only [update_self] at hpc'
    refine hb.elim ?_ ?_ ?_ ?_ hpc' <;> nofun
  | post hr hpc hb =>
    cases ha
    simp only [update_self] at hpc'
    refine hb.elim ?_ ?_ ?_ ?_ ?_ ?_ hpc' <;> nofun
  | condDequeue hr hpc =>
    cases ha
    rcases hpc with ⟨-, rfl⟩ | ⟨-, rfl⟩ <;> simp at hpc'
  | _ =>
    cases ha
    simp at hpc'

theorem OwnerOk.step (inv : OwnerOk s) (h : Step home ops s a s') : OwnerOk s' := by
  refine ⟨fun m => ?_, fun t m k hpc => ?_⟩
  · cases h.ownerStep m with
    | same ho hl => rw [ho, hl]; exact inv.locked m
    | take _ _ ho hl => simp [ho, hl]
    | give _ hg ho hl => simp [ho, hl, inv.locked m, inv.givesAway hg]
    | drop _ _ ho hl => simp [ho, hl]
  · by_cases ha : a.actor = some t
    · rcases h.to_releaseLock ha hpc with ⟨hpc, hm⟩ | ho
      · rw [hm]; exact inv.releasing t m k hpc
      · exact ho
    · rw [h.pc_of_ne ha] at hpc
      refine inv.owner_of_ne h (inv.releasing t m k hpc) ?_
      rintro rfl
      exact ha rfl

theorem Step.initialized (h : Step home ops s a s') (m : MutexId) :
    (s'.mutex m).initialized = (s.mutex m).initialized := by
  cases h with
  | @setfair _ m' | @take _ m' | @recurse _ m' | @retake _ m' | @passOn _ m' | @passFree _ m'
  | @handoff _ m' | @wakeOne _ m' | @unlock _ m' | @unrecurse _ m' =>
    by_cases hm : m' = m
    · subst hm
      simp [Mutex.handTo, Mutex.unlock]
    · simp [Ne.symm hm]
  | _ => rfl

/-! ### Leaving pth_cond_await -/

/-- An acquire made for `pth_cond_await` is a plain blocking one, and it is not
being cancelled. -/
def Pc.Plain : Pc → Prop
  | .mutexEnter _ tryonly extra k => k ≠ .app → tryonly = false ∧ extra = false
  | .mutexWait _ extra k | .mutexWoken _ extra k => k ≠ .app → extra = false
  | .mutexCleanup _ k | .post _ (.unwind _ k) => k = .app
  | _ => True

/-- `t` does not act upon a cancellation request while it waits for the mutex
that `pth_cond_await` or its cleanup handler re-acquires. -/
def KeepsMutex (t : Tid) (s : State σ) (a : Act) : Prop :=
  ∀ m extra k, (s.tcb t).pc = .mutexWait m extra k → k ≠ .app → ¬ActsOnCancel s a t

theorem Next.plain (h : Next a pc os pc') (hp : pc.Plain) :
    pc'.Plain ∨ ∃ t m extra k, (a = .resume t ∨ a = .cancel t) ∧ pc = .mutexWait m extra k ∧
      k ≠ .app ∧ pc' = .mutexCleanup m k := by
  cases h with
  | stay => exact .inl hp
  | call he =>
    cases a with
    | acquire => cases he; exact .inl fun h => absurd rfl h
    | release | await | notify | rwlockAcquire | rwlockRelease | join => cases he; exact .inl trivial
    | _ => cases he
  | woken => exact .inl (by cases pc <;> exact hp)
  | @unwound _ t _ ha =>
    cases pc with
    | mutexWait m extra k =>
      by_cases hk : k = .app
      · exact .inl hk
      · exact .inr ⟨t, m, extra, k, ha, rfl, hk, rfl⟩
    | condWait => exact .inl fun _ => ⟨rfl, rfl⟩
    | _ => exact .inl hp
  | @acquired _ _ _ _ k | @mutexDone _ _ _ k => cases k <;> exact .inl trivial
  | mutexPark | mutexRepark => exact .inl fun hk => (by simpa using hp hk)
  | passOn => exact .inl hp
  | releaseFail hk | releaseDone hk =>
    exact .inl (hk.elim trivial (fun _ _ => trivial) trivial (fun _ _ => trivial))
  | post hk =>
    exact .inl (hk.elim trivial (fun _ _ _ => trivial) trivial (fun _ _ => trivial)
      (fun _ _ => trivial) (fun _ => trivial))
  | condWoken => exact .inl fun _ => ⟨rfl, rfl⟩
  | _ => exact .inl trivial

theorem Step.plain (h : Step home ops s a s') (ha : KeepsMutex t s a) (hp : (s.tcb t).pc.Plain) :
    (s'.tcb t).pc.Plain := by
  by_cases ht : a.actor = some t
  · obtain ⟨os, -, hn⟩ := h.next ht
    rcases hn.plain hp with hp | ⟨u, m, extra, k, hact, hpc, hk, hpc'⟩
    · exact hp
    · -- the request was acted upon
      have hnot := ha m extra k hpc hk
      cases h with
      | unwind _ _ hc =>
        cases ht
        exact absurd (.inl ⟨rfl, by simpa using hc⟩) hnot
      | cancelAsync _ _ hc =>
        cases ht
        exact absurd (.inr ⟨rfl, by simpa using hc⟩) hnot
      | resume | cancel =>
        cases ht
        simp [hpc, Pc.woken] at hpc'
      | call hr hpc he => rcases hact with rfl | rfl <;> cases he
      | _ => rcases hact with hact | hact <;> cases hact
  · rw [h.pc_of_ne ht]
    exact hp

theorem Next.awaits (h : Next a pc os pc') :
    pc'.awaits = pc.awaits ∨ pc'.awaits = none ∨
      ∃ c m extra, pc = .condPark c m extra ∧ pc' = .releaseCheck m (.await c extra) := by
  cases h with
  | call he =>
    cases a with
    | acquire | release | await | notify | rwlockAcquire | rwlockRelease | join =>
      cases he
      exact .inl rfl
    | _ => cases he
  | woken | unwound => cases pc <;> exact .inl rfl
  | @acquired _ _ _ _ k | @mutexDone _ _ _ k =>
    cases k with
    | app | handler => exact .inl rfl
    | await => exact .inr (.inl rfl)
  | @releaseFail _ _ k _ _ hk | @releaseDone _ _ k _ hk =>
    cases k with
    | app | await => cases hk; exact .inl rfl
    | all => rcases hk with rfl | ⟨rn, rfl⟩ <;> exact .inl rfl
  | @post _ _ k _ hk =>
    cases k with
    | release m k =>
      cases k with
      | app | await => cases hk; exact .inl rfl
      | all => rcases hk with rfl | ⟨rn, rfl⟩ <;> exact .inl rfl
    | unwind => cases hk; exact .inr (.inl rfl)
    | rwlockRelease | herd => cases hk; exact .inl rfl
    | notify c broadcast => cases broadcast <;> (cases hk; exact .inl rfl)
  | condPark => exact .inr (.inr ⟨_, _, _, rfl, rfl⟩)
  | mutexLeave | condUnpark => exact .inr (.inl rfl)
  | _ => exact .inl rfl

theorem AcquireFrom.cond_ne {k : AcquireFrom} {m' : MutexId}
    (h : k.cond.map (·, m') = some (c, m)) : k ≠ .app ∧ m' = m := by
  cases k with
  | app => cases h
  | await | handler => cases h; exact ⟨nofun, rfl⟩

/-- The step that gives control back to the caller, or on to the second half of
the cleanup handler, leaves the mutex with the thread. -/
theorem Step.reacquired (h : Step home ops s a s') (ha : a.actor = some t)
    (hi : (s.mutex m).initialized = true) (hp : (s.tcb t).pc.Plain)
    (hpc : (s.tcb t).pc.awaits = some (c, m))
    (ho : (s.tcb t).pc = .condUnpark c m → (s.mutex m).owner = some t)
    (hpc' : (s'.tcb t).pc = .app ∨ (s'.tcb t).pc = .condUnpark c m) :
    (s'.mutex m).owner = some t := by
  have hstay : (s.tcb t).pc = .app ∨ (s.tcb t).pc = .condUnpark c m →
      (s.tcb t).pc = .condUnpark c m := by
    refine Or.rec (fun happ => ?_) id
    rw [happ] at hpc
    cases hpc
  cases h with
  | drain => cases ha
  | @acquireFail _ m' tryonly extra k e hr hpc₁ he =>
    cases ha
    rw [hpc₁] at hpc hp
    obtain ⟨hk, rfl⟩ := AcquireFrom.cond_ne hpc
    simp [hi, (hp hk).1] at he
  | take hr hpc₁ | retake hr hpc₁ =>
    cases ha
    rw [hpc₁] at hpc
    obtain ⟨-, rfl⟩ := AcquireFrom.cond_ne hpc
    simp
  | recurse hr hpc₁ _ _ _ ho₁ =>
    cases ha
    rw [hpc₁] at hpc
    obtain ⟨-, rfl⟩ := AcquireFrom.cond_ne hpc
    simpa using ho₁
  | grant hr hpc₁ ho₁ =>
    cases ha
    rw [hpc₁] at hpc
    obtain ⟨-, rfl⟩ := AcquireFrom.cond_ne hpc
    exact ho₁
  | mutexTimeout hr hpc₁ ho₁ hrem he =>
    cases ha
    rw [hpc₁] at hpc hp
    obtain ⟨hk, rfl⟩ := AcquireFrom.cond_ne hpc
    simp [hp hk] at he
  | condDequeue hr hpc₁ =>
    cases ha
    rcases hpc₁ with ⟨hpc₁, rfl⟩ | ⟨hpc₁, rfl⟩
    · simp at hpc'
    · rw [hpc₁] at hpc ho
      cases hpc
      exact ho rfl
  -- the thread stays where it is: it would still be in the wait otherwise
  | resume =>
    cases ha
    simp only [State.goto_pc] at hpc'
    exact ho (hstay (hpc'.imp (Pc.of_woken · rfl) (Pc.of_woken · rfl)))
  | unwind | cancelAsync =>
    cases ha
    simp only [State.modTcb, update_self] at hpc'
    exact ho (hstay (hpc'.imp (Pc.of_unwound · rfl) (Pc.of_unwound · rfl)))
  | fire | cancel | abort | abortDead | setJoinable =>
    cases ha
    exact ho (hstay (by simpa using hpc'))
  | passOn hr hpc₁ | passFree hr hpc₁ | mutexLeave hr hpc₁ =>
    cases ha
    rw [hpc₁] at hpc hp
    exact absurd hp (AcquireFrom.cond_ne hpc).1
  | @releaseFail _ _ k _ _ _ hr hpc₁ | @unlock _ _ k _ _ _ hr hpc₁
  | @unrecurse _ _ k _ _ hr hpc₁ =>
    cases ha
    rw [hpc₁] at hpc
    cases k with
    | await => simp_all [ReleaseFrom.ReturnsTo]
    | _ => cases hpc
  | @post _ _ k _ _ hr hpc₁ =>
    cases ha
    rw [hpc₁] at hpc hp
    cases k with
    | unwind => exact absurd hp (AcquireFrom.cond_ne hpc).1
    | release m k =>
      cases k with
      | await => simp_all [PostThen.ReturnsTo, ReleaseFrom.ReturnsTo]
      | _ => cases hpc
    | _ => cases hpc
  | call hr hpc₁ he =>
    obtain rfl := Option.some.inj (ha.symm.trans (Act.entry_actor he))
    simp [hpc₁, Pc.awaits] at hpc
  | _ =>
    cases ha
    simp_all [Pc.awaits]

/-- What holds of one thread in runs where it keeps the mutex. -/
structure AwaitOk (t : Tid) (s : State σ) : Prop where
  owners : OwnerOk s
  plain : (s.tcb t).pc.Plain
  unparking : ∀ c m, (s.tcb t).pc = .condUnpark c m → (s.mutex m).initialized = true →
    (s.mutex m).owner = some t

theorem AwaitOk.step (inv : AwaitOk t s) (ha : KeepsMutex t s a) (h : Step home ops s a s') :
    AwaitOk t s' := by
  refine ⟨inv.owners.step h, h.plain ha inv.plain, fun c m hpc' hi => ?_⟩
  rw [h.initialized] at hi
  by_cases ht : a.actor = some t
  · obtain ⟨os, -, hn⟩ := h.next ht
    have hpc : (s.tcb t).pc.awaits = some (c, m) := by
      rw [hpc'] at hn
      rcases hn.awaits with hpc | hpc | ⟨_, _, _, -, hpc⟩
      · exact hpc.symm
      · cases hpc
      · cases hpc
    exact h.reacquired ht hi inv.plain hpc (fun hpc => inv.unparking c m hpc hi) (.inr hpc')
  · rw [h.pc_of_ne ht] at hpc'
    refine inv.owners.owner_of_ne h (inv.unparking c m hpc' hi) ?_
    rintro rfl
    exact ht rfl

end

section
variable {home : Tid → SchedId}

theorem awaitOk (h : Reachable ((pthSystem home).restrict (KeepsMutex t)) s) : AwaitOk t s := by
  refine h.invariant ?_ ?_
  · rintro _ ⟨cfg, rfl⟩
    refine ⟨⟨fun m => by simp [initial], nofun⟩, trivial, nofun⟩
  · rintro s a s' inv ⟨ha, fuel, hstep⟩
    exact inv.step ha (exec_step hstep)

/-- In every run in which a thread is not cancelled while it re-acquires the
mutex, it owns the mutex whenever it leaves `pth_cond_await`: when the call
returns, and when the first cleanup handler of the caller is about to run. -/
theorem await_owns (h : Reachable ((pthSystem home).restrict (KeepsMutex t)) s)
    (hs : ((pthSystem home).restrict (KeepsMutex t)).step s a s')
    (hi : (s.mutex m).initialized = true) (hpc : (s.tcb t).pc.awaits = some (c, m))
    (hpc' : (s'.tcb t).pc = .app) : (s'.mutex m).owner = some t := by
  obtain ⟨-, fuel, hstep⟩ := hs
  have hstep := exec_step hstep
  have inv := awaitOk h
  have ha : a.actor = some t := by
    by_contra ha
    rw [hstep.pc_of_ne ha] at hpc'
    simp [hpc', Pc.awaits] at hpc
  exact hstep.reacquired ha hi inv.plain hpc (fun hpc => inv.unparking c m hpc hi) (.inl hpc')

/-- Thread 1 is cancelled in the wait for the condition: the handler takes the
mutex before the handlers of the application run. -/
theorem await_owns_cancelled :
    ∃ home s s', (pthSystem home).step s (.step 1) s' ∧ (s.tcb 1).pc = .condUnpark 0 0 ∧
      (s'.tcb 1).pc = .app ∧ .cancelled 1 ∈ s'.log ∧ (s'.mutex 0).owner = some 1 := by
  let run := runOf (fun s _ => match (s.tcb 1).pc with | .mutexWait .. => false | _ => true)
    .plain (fun _ => 0) 5
    [.dispatch 1, .acquire 1 0 false false, .step 1, .await 1 0 0 false, .step 1, .step 1, .step 1,
      .cancel 1, .resume 1, .step 1] rfl
  have hkeep : ∀ s : State WaitLinks, ∀ a,
      (match (s.tcb 1).pc with | .mutexWait .. => false | _ => true) = true → KeepsMutex 1 s a := by
    intro s a ha m extra k hpc
    simp [hpc] at ha
  have hs := (run.reachable (Nat.le_refl 10)).mono fun s a _ => hkeep s a
  have hstep : exec (fun _ => 0) (linkOps 5) (run.state 10) (.step 1) = some _ := rfl
  refine ⟨_, run.state 10, _, ⟨5, hstep⟩, rfl, rfl, .tail _ (.head _), ?_⟩
  exact await_owns hs ⟨hkeep _ _ rfl, 5, hstep⟩ rfl rfl rfl

/-- Cancelled while it re-acquires the mutex after a notification, thread 1
leaves `pth_cond_await` although thread 2 owns the mutex. -/
theorem await_disowned :
    ∃ home s s', Reachable (pthSystem home) s ∧ (pthSystem home).step s (.step 1) s' ∧
      (s.mutex 0).initialized = true ∧ (s.tcb 1).pc.awaits = some (0, 0) ∧
      (s'.tcb 1).pc = .app ∧ (s'.mutex 0).owner = some 2 := by
  have hs := reachable_end (fun _ _ => true) .plain (fun _ => 0) 5
    [.dispatch 1, .acquire 1 0 false false, .step 1, .await 1 0 0 false, .step 1, .step 1, .step 1,
      .dispatch 2, .acquire 2 0 false false, .step 2, .notify 2 0 false, .step 2, .step 2, .yield 2,
      .drain 0, .resume 1, .step 1, .step 1, .cancel 1, .resume 1] rfl
  exact ⟨_, _, _, hs.of_restrict, ⟨5, rfl⟩, rfl, rfl, rfl, rfl⟩

end

/-! ### Notifications -/

/-- The thread has acted upon a cancellation request in `pth_cond_await` and is
on its way out. -/
def Pc.unwinds : Pc → Bool
  | .condUnpark .. => true
  | .mutexEnter _ _ _ (.handler _) | .mutexWait _ _ (.handler _) => true
  | .mutexWoken _ _ (.handler _) => true
  | .mutexCleanup _ k | .post _ (.unwind _ k) => k != .app
  | _ => false

/-- No waiter that a notification took off the queue is cancelled before its
`pth_cond_await` is over, and none is taken off that is being cancelled. -/
def KeepsSignal (c : CondId) (s : State WaitLinks) (a : Act) : Prop :=
  (∀ t m, (s.tcb t).pc.awaits = some (c, m) → ¬OnList s t (.queue (.cond c)) →
    ¬ActsOnCancel s a t) ∧
  ∀ t w, a = .step t → (s.tcb t).pc = .notify c false →
    (s.store.waitq (.cond c)).head = some w → (s.tcb w).pc.unwinds = false

/-- The waiter `w` of state `i` has been cancelled, or is later on, before it is
out of this call of `pth_cond_await`. -/
def CancelledOut {S : System (State WaitLinks) Act} {n : Nat} (run : Run S n) (c : CondId) (i : Nat)
    (w : Tid) : Prop :=
  ((run.state i).tcb w).pc.unwinds = true ∨
    ∃ l, i ≤ l ∧ l < n ∧
      (∀ j, i ≤ j → j ≤ l → ∃ m, ((run.state j).tcb w).pc.awaits = some (c, m)) ∧
      ActsOnCancel (run.state l) (run.act l) w

section
variable {home : Tid → SchedId}

theorem Step.notifies (h : Step home listOps s (.step t) s')
    (hpc : (s.tcb t).pc = .notify c broadcast) (hi : (s.cond c).initialized = true)
    (hq : s.store (.queue (.cond c)) = w :: ws) :
    (s'.tcb t).pc = .post w (.notify c broadcast) ∧ s'.store (.queue (.cond c)) = ws := by
  cases h with
  | notifyOne hr hpc₁ hi₁ hs =>
    cases hpc.symm.trans hpc₁
    obtain ⟨ws', hq', rfl⟩ := listOps_shift_some.mp hs
    rw [hq] at hq'
    obtain ⟨rfl, rfl⟩ := hq'
    simp
  | notifyNone hr hpc₁ hi₁ hs =>
    cases hpc.symm.trans hpc₁
    obtain ⟨hq', -⟩ := listOps_shift_none.mp hs
    simp [hq] at hq'
  | notifyFail hr hpc₁ hi₁ =>
    cases hpc.symm.trans hpc₁
    simp [hi] at hi₁
  | call hr hpc₁ he => cases he
  | condDequeue hr hpc₁ => simp [hpc] at hpc₁
  | _ => simp_all

theorem Step.cond_notMem (h : Step home listOps s a s') (hpc : (s.tcb w).pc.awaits = some (c, m))
    (hw : w ∉ s.store (.queue (.cond c))) : w ∉ s'.store (.queue (.cond c)) := by
  have hpark : (s.tcb w).pc.parksOn ≠ some (.cond c) := by
    intro hq
    cases hpc' : (s.tcb w).pc <;> simp_all [Pc.parksOn, Pc.awaits]
  intro hmem
  cases h.queueStep (.cond c) with
  | same he => exact hw (he ▸ hmem)
  | push ha hq he =>
    rw [he, List.mem_append, List.mem_singleton] at hmem
    rcases hmem with hmem | rfl
    · exact hw hmem
    · exact hpark hq
  | drop ha he => exact hw (List.mem_of_mem_erase (he ▸ hmem))
  | repush ha hq he =>
    rw [he, List.mem_append, List.mem_singleton] at hmem
    rcases hmem with hmem | rfl
    · exact hw (List.mem_of_mem_erase hmem)
    · exact hpark hq
  | pop ha _ he => exact hw (he ▸ List.mem_cons_of_mem _ hmem)
  | flush _ he => simp [he] at hmem

end

section
variable {home : Tid → SchedId}

/-- In every run whose steps are link-safe and keep the signal, a
`pth_cond_notify(cond, FALSE)` that finds a waiter takes one off the queue, and
goes on to post its wakeup, that is never cancelled out of its wait. -/
theorem signal_kept
    (run : Run ((pthSystem home).restrict fun s a => LinkSafe s a ∧ KeepsSignal c s a) n)
    (hi : i < n) (ha : run.act i = .step t) (hpc : ((run.state i).tcb t).pc = .notify c false)
    (hc : ((run.state i).cond c).initialized = true)
    (hu : OnList (run.state i) u (.queue (.cond c))) :
    ∃ w, OnList (run.state i) w (.queue (.cond c)) ∧
      ((run.state (i + 1)).tcb t).pc = .post w (.notify c false) ∧
      ¬OnList (run.state (i + 1)) w (.queue (.cond c)) ∧ ¬CancelledOut run c i w := by
  have hsim := (refines home).mono fun s a _ (h : LinkSafe s a ∧ KeepsSignal c s a) => h.1
  obtain ⟨l, hact, hR⟩ := hsim.run run
  have hon : ∀ j ≤ n, ∀ w, OnList (run.state j) w (.queue (.cond c)) ↔
      w ∈ (l.state j).store (.queue (.cond c)) :=
    fun j hj w => (hR j hj).onList (l.reachable hj) _
  have htcb : ∀ j ≤ n, (l.state j).tcb = (run.state j).tcb := fun j hj => (hR j hj).tcb
  -- the head of the queue is taken
  rw [hon i (by omega)] at hu
  obtain ⟨w, ws, hq⟩ := List.exists_cons_of_ne_nil (List.ne_nil_of_mem hu)
  have hplaced := placed_reachable (l.reachable (Nat.le_of_lt hi))
  have hstep := (l.step i hi).2
  rw [hact, ha] at hstep
  obtain ⟨hpost, hws⟩ := hstep.notifies (by rw [htcb i (by omega)]; exact hpc)
    (by rw [(hR i (by omega)).cond]; exact hc) hq
  have hw : w ∉ (l.state (i + 1)).store (.queue (.cond c)) := by
    have hnd := hplaced.linear.nodup (.queue (.cond c))
    rw [hq] at hnd
    rw [hws]
    exact (List.nodup_cons.mp hnd).1
  refine ⟨w, ?_, ?_, ?_, ?_⟩
  · rw [hon i (by omega), hq]
    simp
  · rw [← htcb (i + 1) hi]
    exact hpost
  · rw [hon (i + 1) hi]
    exact hw
  · rintro (hun | ⟨k, hik, hkn, hawaits, hcancel⟩)
    · -- it was not being cancelled
      have hhead : ((run.state i).store.waitq (.cond c)).head = some w := by
        rw [(hR i (by omega)).2.header, hq]
        rfl
      rw [(run.step i hi).1.2.2 t w ha hpc hhead] at hun
      cases hun
    · rcases Nat.lt_or_eq_of_le hik with hlt | rfl
      · -- it stays off the queue as long as it is in the call
        have hoff := lasts_until (Q := fun j => w ∉ (l.state j).store (.queue (.cond c)))
          (R := fun _ => False) hw ?_ hlt
        · rcases hoff with ⟨_, _, _, h⟩ | hoff
          · exact h
          · obtain ⟨m, hm⟩ := hawaits k hik (Nat.le_refl k)
            exact (run.step k hkn).1.2.1 w m hm (mt (hon k (by omega) w).mp hoff) hcancel
        · intro j hij hjk hoff
          obtain ⟨m, hm⟩ := hawaits j (by omega) (by omega)
          rw [← htcb j (by omega)] at hm
          exact .inr ((l.step j (by omega)).2.cond_notMem hm hoff)
      · -- in this step it is the notifier that acts
        rw [ha] at hcancel
        rcases hcancel with ⟨h, -⟩ | ⟨h, -⟩ <;> cases h

end

/-- A check that implies `LinkSafe`: no private chains, and the cleanup handler of
`pth_cond_await` finds the mutex free. -/
def unbroken (s : State WaitLinks) : Act → Bool
  | .rwlockRelease .. => false
  | .step t => match (s.tcb t).pc with
    | .mutexEnter m _ _ (.handler _) => !(s.mutex m).locked
    | _ => true
  | _ => true

theorem linkSafe_of_unbroken (hP : ∀ s a, P s a → unbroken s a = true)
    (h : Reachable ((pthSystem home).restrict P) s) (ha : P s a) : LinkSafe s a := by
  have ha := hP s a ha
  rintro t rfl hk
  refine ⟨fun u => not_onList_chain (not_inRwlockRelease ?_ h u), fun m tryonly extra c hpc => ?_⟩
  · rintro s a ha t r rfl
    cases hP _ _ ha
  · simp only [parks, hpc] at hk
    simp [unbroken, hpc, hk.2.1] at ha

/-- A check that implies `KeepsSignal`: nobody is cancelled. -/
def uncancelled (c : CondId) (s : State WaitLinks) : Act → Bool
  | .cancel _ => false
  | .resume t => !(s.tcb t).cancelreq
  | .step _ => (s.store.waitq (.cond c)).head.all fun w => !(s.tcb w).pc.unwinds
  | _ => true

theorem keepsSignal_of_uncancelled (h : uncancelled c s a = true) : KeepsSignal c s a := by
  refine ⟨fun t m _ _ hc => ?_, ?_⟩
  · rcases hc with ⟨rfl, hreq, -⟩ | ⟨rfl, -⟩
    · simp [uncancelled, hreq] at h
    · cases h
  · rintro t w rfl - hw
    simpa [uncancelled, hw] using h

theorem signal_kept_one :
    ∃ home n, ∃ run : Run ((pthSystem home).restrict fun s a => LinkSafe s a ∧ KeepsSignal 0 s a) n,
      ∃ i w, ((run.state i).tcb 2).pc = .notify 0 false ∧
        OnList (run.state i) w (.queue (.cond 0)) ∧
        ((run.state (i + 1)).tcb 2).pc = .post w (.notify 0 false) ∧
        ¬OnList (run.state (i + 1)) w (.queue (.cond 0)) ∧ ¬CancelledOut run 0 i w := by
  let run := (runOf (fun s a => unbroken s a && uncancelled 0 s a) .plain (fun _ => 0) 5
    [.dispatch 1, .acquire 1 0 false false, .step 1, .await 1 0 0 false, .step 1, .step 1, .step 1,
      .dispatch 2, .notify 2 0 false, .step 2, .step 2, .yield 2, .drain 0, .resume 1, .step 1,
      .step 1] rfl).mono (Q := fun s a => LinkSafe s a ∧ KeepsSignal 0 s a) fun s a hs ha => by
    refine ⟨linkSafe_of_unbroken (fun s a ha => (Bool.and_eq_true_iff.mp ha).1) hs ha, ?_⟩
    exact keepsSignal_of_uncancelled (Bool.and_eq_true_iff.mp ha).2
  have hon : OnList (run.state 9) 1 (.queue (.cond 0)) := .here 1
  obtain ⟨w, hw⟩ := signal_kept run (by simp) rfl rfl rfl hon
  exact ⟨_, _, run, 9, w, rfl, hw⟩

/-- A notification goes to waiter 2, which has a cancellation request pending:
it leaves without passing the notification on, and waiter 3, which nobody
cancels, is still parked when the two threads involved are done. -/
theorem signal_swallowed :
    ∃ home n, ∃ run : Run ((pthSystem home).restrict LinkSafe) n, ∃ i < n,
      run.act i = .step 1 ∧ ((run.state i).tcb 1).pc = .notify 0 false ∧
      ((run.state i).cond 0).initialized = true ∧
      OnList (run.state i) 2 (.queue (.cond 0)) ∧ OnList (run.state i) 3 (.queue (.cond 0)) ∧
      CancelledOut run 0 i 2 ∧ ¬CancelledOut run 0 i 3 ∧
      (∀ j, i < j → j ≤ n → OnList (run.state j) 3 (.queue (.cond 0))) ∧
      ((run.state n).tcb 1).pc = .app ∧ ((run.state n).tcb 2).pc = .app := by
  let run := (runOf unbroken .plain (fun _ => 0) 5
    [.dispatch 2, .acquire 2 0 false false, .step 2, .await 2 0 0 false, .step 2, .step 2, .step 2,
      .dispatch 3, .acquire 3 0 false false, .step 3, .await 3 0 0 false, .step 3, .step 3, .step 3,
      .dispatch 1, .cancel 2, .notify 1 0 false, .step 1, .step 1, .yield 1,
      .resume 2, .step 2, .step 2] rfl).mono
    fun s a => linkSafe_of_unbroken fun _ _ ha => ha
  refine ⟨_, _, run, 17, by simp, rfl, rfl, rfl, .here 2, .there 2 3 (.here 3), ?_, ?_, ?_, rfl, rfl⟩
  · refine .inr ⟨20, by simp, by simp, fun j hj hj' => ⟨0, ?_⟩, .inl ⟨rfl, rfl, rfl⟩⟩
    interval_cases j <;> rfl
  · rintro (hun | ⟨l, hl, hln, -, hcancel⟩)
    · cases hun
    · have hno : run.act l ≠ .resume 3 ∧ run.act l ≠ .cancel 3 := by
        simp only [List.length_cons, List.length_nil] at hln
        interval_cases l <;> exact ⟨nofun, nofun⟩
      rcases hcancel with ⟨h, -⟩ | ⟨h, -⟩
      · exact hno.1 h
      · exact hno.2 h
  · intro j hj hjn
    simp only [List.length_cons, List.length_nil] at hjn
    interval_cases j <;> exact .here 3

end GnuPth
