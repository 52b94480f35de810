import GnuPth.Sync.CondRuns

/-!
# Code on top of the primitives

Barriers and the POSIX interface are code that a thread runs between its calls
of the primitives. A `CallEvent` is all that such code notices of a step: the
call it is in returns, or a cancellation unwinds it.
-/

namespace GnuPth

open Function (update update_self)
open Transition

/-- The action is a call made by the code of the thread, not a step inside the
library or something the schedulers do. -/
def Act.isCall : Act → Bool
  | .dispatch _ | .step _ | .resume _ | .fire _ | .cancel _ | .abort _ | .setJoinable _ _
  | .drain _ => false
  | _ => true

theorem Act.isCall_of_entry {a : Act} (h : a.entry = some (t, pc)) :
    a.isCall = true := by
  cases a <;> first | rfl | cases h

def Act.mutex : Act → Option MutexId
  | .acquire _ m _ _ | .release _ m | .await _ _ m _ => some m
  | _ => none

/-- What a step means for the call that a thread is in. A return comes with the
latest observation, which is the result of the call. -/
inductive CallEvent
  | none
  | returned (o : Option Obs)
  | unwound
  deriving DecidableEq

def callEvent {σ : Type} (s s' : State σ) (a : Act) (t : Tid) : CallEvent :=
  match a with
  | .step u => if u = t ∧ (s'.tcb t).pc = .app then .returned s'.log.head? else .none
  | .resume u | .cancel u => if u = t ∧ s'.log.length ≠ s.log.length then .unwound else .none
  | _ => .none

/-- How the control point of a thread changes that makes no call itself. -/
inductive CallStep (a : Act) (t : Tid) (pc pc' : Pc) (log : List Obs) : CallEvent → Prop
  | stay (ha : a ≠ .step t) (hpc : pc' = pc) : CallStep a t pc pc' log .none
  | woken (ha : a ≠ .step t) (hpc : pc' = pc.woken) : CallStep a t pc pc' log .none
  | going {os : List Obs} (ha : a = .step t) (hn : Next (.step t) pc os pc') (hpc : pc' ≠ .app) :
      CallStep a t pc pc' log .none
  | returned {os old : List Obs} (ha : a = .step t) (hn : Next (.step t) pc os pc')
      (hpc : pc' = .app) (hl : log = os ++ old) : CallStep a t pc pc' log (.returned log.head?)
  | unwound : CallStep a t pc pc' log .unwound

section
variable {pc : Pc}

theorem callEvent_of_ne (ha : a.actor ≠ some t) : callEvent s s' a t = .none := by
  cases a with
  | step u | resume u | cancel u =>
    have hu : u ≠ t := by rintro rfl; exact ha rfl
    simp [callEvent, hu]
  | _ => rfl

theorem Step.callStep (h : Step home ops s a s') (ha : a.actor = some t → a.isCall = false) :
    CallStep a t (s.tcb t).pc (s'.tcb t).pc s'.log (callEvent s s' a t) := by
  by_cases ht : a.actor = some t
  case neg =>
    rw [callEvent_of_ne ht]
    exact .stay (by rintro rfl; exact ht rfl) (h.pc_of_ne ht)
  obtain ⟨os, hl, hn⟩ := h.next ht
  have ha := ha ht
  cases a with
  | step =>
    cases ht
    by_cases hpc : (s'.tcb t).pc = .app
    · rw [callEvent, if_pos ⟨rfl, hpc⟩]
      exact .returned rfl hn hpc hl
    · rw [callEvent, if_neg fun h => hpc h.2]
      exact .going rfl hn hpc
  | resume =>
    cases ht
    rw [callEvent, hl]
    generalize (s.tcb t).pc = pc, (s'.tcb t).pc = pc' at hn
    cases hn with
    | stay => simpa using .stay nofun rfl
    | woken => simpa using .woken nofun rfl
    | unwound => simpa using .unwound
    | call he => cases he
  | cancel =>
    cases ht
    rw [callEvent, hl]
    generalize (s.tcb t).pc = pc, (s'.tcb t).pc = pc' at hn
    cases hn with
    | stay => simpa using .stay nofun rfl
    | unwound => simpa using .unwound
    | call he => cases he
  | dispatch | fire | abort | setJoinable =>
    generalize (s.tcb t).pc = pc, (s'.tcb t).pc = pc' at hn ⊢
    cases hn with
    | stay => exact .stay nofun rfl
    | unwound ha => rcases ha with ha | ha <;> cases ha
    | call he => cases he
  | drain => cases ht
  | _ => cases ha

/-! ### Outside the calls -/

theorem mem_active_of_tail (hr : running home s u) (hut : u ≠ t)
    (ht : t ∈ s.active (home t)) :
    t ∈ update s.active (home u) (s.active (home u)).tail (home t) := by
  by_cases hg : home t = home u
  · rw [hg] at ht
    rw [hg, update_self]
    obtain ⟨us, hus⟩ := List.head?_eq_some_iff.mp hr
    rw [hus] at ht ⊢
    exact (List.mem_cons.mp ht).resolve_left (Ne.symm hut)
  · rwa [Function.update_of_ne hg]

/-- A thread that its scheduler executes goes on being executed until it waits
or dies. -/
theorem Step.mem_active (h : Step home ops s a s') (ht : t ∈ s.active (home t))
    (ha : a.actor = some t → a.isCall = false) :
    t ∈ s'.active (home t) ∨ (s'.tcb t).pc.waitsFor.isSome = true ∨ (s'.tcb t).pc = .dead := by
  cases h with
  | @dispatch u hact | @resume u hact | @unwind u hact =>
    by_cases hg : home t = home u
    · rw [hg, hact] at ht
      cases ht
    · exact .inl (by simpa [hg] using ht)
  | @yield u hr =>
    by_cases hut : u = t
    · cases ha (congrArg some hut)
    · exact .inl (mem_active_of_tail hr hut ht)
  | @cancelAsync u =>
    left
    by_cases hg : home t = home u
    · simp only [hg, update_self]
      exact List.mem_cons_of_mem _ (hg ▸ ht)
    · simpa [hg] using ht
  | @mutexPark u _ _ _ hr | @mutexRepark u _ _ _ _ _ hr | @joinPark u _ hr =>
    by_cases hut : u = t
    · subst hut
      exact .inr (.inl (by simp [Pc.waitsFor]))
    · exact .inl (mem_active_of_tail hr hut ht)
  | @rwlockPark u _ op _ hr | @rwlockRepark u _ op _ _ _ hr =>
    by_cases hut : u = t
    · subst hut
      exact .inr (.inl (by cases op <;> simp [Pc.waitsFor]))
    · exact .inl (mem_active_of_tail hr hut ht)
  | @releaseFail u _ _ _ b g hr _ _ _ _ hg | @unlock u _ _ _ b g hr _ _ _ _ _ hg
  | @unrecurse u _ _ b g hr _ _ _ _ hg | @post u _ _ b g hr _ _ _ hg =>
    subst hg
    by_cases hw : b.pc.waitsFor.isSome = true
    · by_cases hut : u = t
      · subst hut
        exact .inr (.inl (by simpa using hw))
      · exact .inl (by simpa [activeAfter, hw] using mem_active_of_tail hr hut ht)
    · exact .inl (by simpa [activeAfter, hw] using ht)
  | @die u _ _ hr | @dieDetached u hr =>
    by_cases hut : u = t
    · subst hut
      exact .inr (.inr (by simp))
    · exact .inl (mem_active_of_tail hr hut ht)
  | _ => exact .inl ht

theorem Step.running (h : Step home ops s (.step t) s') : running home s t := by
  cases h with
  | call _ _ he => cases he
  | _ => assumption

theorem Step.pc_ne_app (h : Step home ops s (.step t) s') : (s.tcb t).pc ≠ .app := by
  intro hpc
  cases h with
  | call _ _ he => cases he
  | _ => simp_all

theorem Step.callEvent_app (h : Step home ops s a s') (hpc : (s.tcb t).pc = .app)
    (ht : t ∈ s.active (home t)) (ha : a.actor = some t → a.isCall = false) :
    callEvent s s' a t = .none ∧ (s'.tcb t).pc = .app ∧ t ∈ s'.active (home t) ∧ a ≠ .step t := by
  have hne : a ≠ .step t := by
    rintro rfl
    exact h.pc_ne_app hpc
  have hstay : callEvent s s' a t = .none ∧ (s'.tcb t).pc = .app := by
    by_cases hact : a.actor = some t
    case neg => exact ⟨callEvent_of_ne hact, by rw [h.pc_of_ne hact, hpc]⟩
    have ha := ha hact
    cases h with
    | call _ _ he => simp [Act.isCall_of_entry he] at ha
    | resume _ hw | unwind _ hw =>
      cases hact
      simp [runnable, hpc, Pc.waitsFor] at hw
    | cancelAsync hout =>
      cases hact
      exact absurd ht hout
    | drain => cases hact
    | dispatch | fire | cancel | abort | abortDead | setJoinable =>
      cases hact
      exact ⟨by simp [callEvent], by simpa using hpc⟩
    | yield | setfair | setfairFail | joinFail | cancelState | cancelPoint | cancelActed | exit =>
      cases ha
    | _ =>
      cases hact
      exact absurd rfl hne
  refine ⟨hstay.1, hstay.2, ?_, hne⟩
  rcases h.mem_active ht ha with hin | hw | hd
  · exact hin
  · simp [hstay.2, Pc.waitsFor] at hw
  · simp [hstay.2] at hd

/-! ### Inside the calls -/

def Pc.InAcquire (m : MutexId) (k : AcquireFrom) : Pc → Prop
  | .mutexEnter m' _ extra k' | .mutexWait m' extra k' | .mutexWoken m' extra k' =>
    m' = m ∧ extra = false ∧ k' = k
  | _ => False

def Pc.InAwait (c : CondId) (m : MutexId) : Pc → Prop
  | .condPark c' m' extra | .condWait c' m' extra => c' = c ∧ m' = m ∧ extra = false
  | .condWoken c' m' => c' = c ∧ m' = m
  | .mutexEnter m' tryonly extra k => m' = m ∧ tryonly = false ∧ extra = false ∧ k = .await c
  | .mutexWait m' extra k | .mutexWoken m' extra k => m' = m ∧ extra = false ∧ k = .await c
  | .releaseCheck m' k | .releaseLock m' k | .post _ (.release m' k) => m' = m ∧ k = .await c false
  | _ => False

def Pc.InNotify (c : CondId) (broadcast : Bool) : Pc → Prop
  | .notify c' broadcast' | .post _ (.notify c' broadcast') => c' = c ∧ broadcast' = broadcast
  | _ => False

theorem Pc.InAcquire.woken (h : pc.InAcquire m k) : pc.woken.InAcquire m k := by
  cases pc <;> exact h

theorem Pc.InAwait.woken (h : pc.InAwait c m) : pc.woken.InAwait c m := by
  cases pc <;> first | exact h | exact ⟨h.1, h.2.1⟩

theorem not_unwound (h : Act.step t = .resume u ∨ Act.step t = .cancel u) : False := by
  rcases h with h | h <;> cases h

theorem Next.inAcquire (h : Next (.step t) pc os pc') (hpc : pc.InAcquire m .app) :
    pc'.InAcquire m .app ∨ pc' = .app ∧ ∃ r, os = [.acquire t m r] := by
  cases h with
  | stay | mutexPark | mutexRepark => exact .inl hpc
  | unwound ha => exact (not_unwound ha).elim
  | call he => cases he
  | acquired | mutexDone =>
    obtain ⟨rfl, -, rfl⟩ := hpc
    exact .inr ⟨rfl, _, rfl⟩
  | _ => cases hpc

theorem Next.inNotify (h : Next (.step t) pc os pc') (hpc : pc.InNotify c true) :
    pc'.InNotify c true ∨ pc' = .app := by
  cases h with
  | stay | notifyOne => exact .inl hpc
  | unwound ha => exact (not_unwound ha).elim
  | call he => cases he
  | notifyDone => exact .inr rfl
  | @post _ w k _ hk =>
    cases k with
    | notify c' =>
      obtain ⟨rfl, rfl⟩ := hpc
      exact .inl (by rw [show pc' = .notify c' true from hk]; exact ⟨rfl, rfl⟩)
    | _ => cases hpc
  | _ => cases hpc

theorem Pc.InNotify.of_woken (h : pc.InNotify c broadcast) :
    pc.woken.InNotify c broadcast := by
  cases pc with
  | notify | post => exact h
  | _ => cases h

theorem Next.stays_inAwait (h : Next (.step t) pc os pc') (hpc : pc.InAwait c m) :
    pc'.InAwait c m ∨ pc' = .app := by
  cases h with
  | stay | releaseCheck | releaseWake | mutexRepark => exact .inl hpc
  | unwound ha => exact (not_unwound ha).elim
  | call he => cases he
  | awaitFail => exact .inr rfl
  | condPark =>
    obtain ⟨rfl, rfl, rfl⟩ := hpc
    exact .inl ⟨rfl, rfl⟩
  | releaseFail hk | releaseDone hk =>
    obtain ⟨rfl, rfl⟩ := hpc
    exact .inl (by rw [show pc' = _ from hk]; exact ⟨rfl, rfl, rfl⟩)
  | @post _ w k _ hk =>
    cases k with
    | release =>
      obtain ⟨rfl, rfl⟩ := hpc
      exact .inl (by rw [show pc' = _ from hk]; exact ⟨rfl, rfl, rfl⟩)
    | _ => cases hpc
  | condWoken =>
    obtain ⟨rfl, rfl⟩ := hpc
    exact .inl ⟨rfl, rfl, rfl, rfl⟩
  | acquired =>
    obtain ⟨-, -, -, rfl⟩ := hpc
    exact .inr rfl
  | mutexDone =>
    obtain ⟨-, -, rfl⟩ := hpc
    exact .inr rfl
  | mutexPark =>
    obtain ⟨rfl, -, rfl, rfl⟩ := hpc
    exact .inl ⟨rfl, rfl, rfl⟩
  | _ => cases hpc

theorem Step.acquired (h : Step home ops s (.step t) s') (hpc : (s.tcb t).pc.InAcquire m .app)
    (hl : s'.log.head? = some (.acquire t m .ok)) (hpc' : (s'.tcb t).pc = .app) :
    (s'.mutex m).owner = some t := by
  cases h with
  | acquireFail hr hpc₁ | mutexTimeout hr hpc₁ =>
    rw [hpc₁] at hpc
    obtain ⟨rfl, -, rfl⟩ := hpc
    simp [AcquireFrom.obs] at hl
  | take hr hpc₁ | retake hr hpc₁ =>
    rw [hpc₁] at hpc
    obtain ⟨rfl, -, -⟩ := hpc
    simp
  | recurse hr hpc₁ _ _ _ ho =>
    rw [hpc₁] at hpc
    obtain ⟨rfl, -, -⟩ := hpc
    simpa using ho
  | grant hr hpc₁ ho =>
    rw [hpc₁] at hpc
    obtain ⟨rfl, -, -⟩ := hpc
    exact ho
  | mutexPark | mutexRepark => simp at hpc'
  | condDequeue hr hpc₁ =>
    rcases hpc₁ with ⟨hpc₁, -⟩ | ⟨hpc₁, -⟩ <;> (rw [hpc₁] at hpc; cases hpc)
  | call hr hpc₁ he => cases he
  | _ => simp_all [Pc.InAcquire]

theorem Pc.InAwait.awaits (h : pc.InAwait c m) :
    pc = .condPark c m false ∨ pc.awaits = some (c, m) ∧ pc.Plain ∧ pc ≠ .condUnpark c m := by
  cases pc with
  | condPark =>
    obtain ⟨rfl, rfl, rfl⟩ := h
    exact .inl rfl
  | condWait =>
    obtain ⟨rfl, rfl, rfl⟩ := h
    exact .inr ⟨rfl, trivial, nofun⟩
  | condWoken | releaseCheck | releaseLock =>
    obtain ⟨rfl, rfl⟩ := h
    exact .inr ⟨rfl, trivial, nofun⟩
  | mutexEnter =>
    obtain ⟨rfl, rfl, rfl, rfl⟩ := h
    exact .inr ⟨rfl, fun _ => ⟨rfl, rfl⟩, nofun⟩
  | mutexWait | mutexWoken =>
    obtain ⟨rfl, rfl, rfl⟩ := h
    exact .inr ⟨rfl, fun _ => rfl, nofun⟩
  | post w k =>
    cases k with
    | release =>
      obtain ⟨rfl, rfl⟩ := h
      exact .inr ⟨rfl, trivial, nofun⟩
    | _ => cases h
  | _ => cases h

/-- `pth_cond_await` without an extra event returns with the mutex. -/
theorem Step.awaited (h : Step home ops s (.step t) s') (hi : (s.mutex m).initialized = true)
    (hpc : (s.tcb t).pc.InAwait c m) (hl : s'.log.head? = some (.await t c m .ok))
    (hpc' : (s'.tcb t).pc = .app) : (s'.mutex m).owner = some t := by
  rcases hpc.awaits with hpc | ⟨haw, hp, hne⟩
  · obtain ⟨os, hlog, hn⟩ := h.next rfl
    rw [hpc, hpc'] at hn
    cases hn with
    | awaitFail => simp [hlog] at hl
  · exact h.reacquired rfl hi hp haw (fun hpc => absurd hpc hne) (.inl hpc')

theorem Step.cond_initialized (h : Step home ops s a s') (c : CondId) :
    (s'.cond c).initialized = (s.cond c).initialized := by
  cases h with
  | @condPark _ c' | @condDequeue _ c' | @notifyOne _ c' =>
    by_cases hc : c' = c
    · subst hc
      simp
    · simp [Ne.symm hc]
  | _ => rfl

/-- `pth_cond_await` fails only on a condition that is not initialized. -/
theorem Step.await_ok (h : Step home ops s (.step t) s') (hi : (s.cond c).initialized = true)
    (hpc : (s.tcb t).pc.InAwait c m) (hpc' : (s'.tcb t).pc = .app) :
    s'.log.head? = some (.await t c m .ok) := by
  have hpark : (s.tcb t).pc ≠ .condPark c m false := by
    intro hpark
    cases h with
    | awaitFail _ hpc₁ hi₁ =>
      cases hpark.symm.trans hpc₁
      rw [hi] at hi₁
      cases hi₁
    | condPark => simp at hpc'
    | call _ _ he => cases he
    | _ => simp_all
  obtain ⟨os, hl, hn⟩ := h.next rfl
  rw [hl]
  generalize (s.tcb t).pc = pc, (s'.tcb t).pc = pc' at hn hpc hpark hpc'
  cases hn with
  | unwound ha => exact (not_unwound ha).elim
  | call he => cases he
  | acquired =>
    obtain ⟨rfl, -, -, rfl⟩ := hpc
    rfl
  | mutexDone =>
    obtain ⟨rfl, -, rfl⟩ := hpc
    rfl
  | awaitFail =>
    obtain ⟨rfl, rfl, rfl⟩ := hpc
    exact absurd rfl hpark
  | releaseFail hk | releaseDone hk =>
    obtain ⟨rfl, rfl⟩ := hpc
    cases hpc'.symm.trans hk
  | @post _ _ k _ hk =>
    cases k with
    | release =>
      obtain ⟨rfl, rfl⟩ := hpc
      cases hpc'.symm.trans hk
    | _ => cases hpc
  | stay =>
    subst hpc'
    cases hpc
  | condPark | releaseCheck | releaseWake | condWoken | mutexPark | mutexRepark => cases hpc'
  | _ => cases hpc

/-- `pth_cond_notify` fails only on a condition that is not initialized. -/
theorem Step.notify_ok (h : Step home ops s (.step t) s') (hi : (s.cond c).initialized = true)
    (hpc : (s.tcb t).pc.InNotify c true) (hpc' : (s'.tcb t).pc = .app) :
    s'.log.head? = some (.notify t c .ok) := by
  cases h with
  | notifyFail _ hpc₁ hi₁ =>
    rw [hpc₁] at hpc
    obtain ⟨rfl, -⟩ := hpc
    rw [hi] at hi₁
    cases hi₁
  | notifyNone _ hpc₁ =>
    rw [hpc₁] at hpc
    obtain ⟨rfl, -⟩ := hpc
    rfl
  | notifyOne => simp at hpc'
  | @post _ w k b g _ hpc₁ hb =>
    rw [hpc₁] at hpc
    cases k with
    | notify =>
      obtain ⟨rfl, rfl⟩ := hpc
      simp only [update_self] at hpc'
      cases hpc'.symm.trans hb
    | _ => cases hpc
  | condDequeue _ hpc₁ =>
    rcases hpc₁ with ⟨hpc₁, -⟩ | ⟨hpc₁, -⟩ <;> (rw [hpc₁] at hpc; cases hpc)
  | call _ _ he => cases he
  | _ => simp_all [Pc.InNotify]

end

end GnuPth
