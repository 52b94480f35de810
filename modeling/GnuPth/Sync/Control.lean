import GnuPth.Sync.Frame

/-!
# Control flow

`Next` is the control flow of a thread through the library, without the state,
and what is observed on each edge: every step moves its actor along one
(`Step.next`). A thread gets into
`pth_cond_await` or into the reader chain of `pth_rwlock_release` only by
calling them, so runs without these calls stay away from their control points.
-/

namespace GnuPth

open Function (update)
open Transition

inductive Next : Act → Pc → List Obs → Pc → Prop
  | stay {a pc} : Next a pc [] pc
  | setfair {t m fair r} : Next (.setfair t m fair) .app [.setfair t m r] .app
  | joinFail {t tid e} : Next (.join t tid) .app [.joinFail t tid e] .app
  | cancelPoint {t} : Next (.cancelPoint t) .app [.cancelled t] .app
  | call {a t pc} (he : a.entry = some (t, pc)) : Next a .app [] pc
  | exit {t v} : Next (.exit t v) .app [.exit t v] .dying
  | exitAll {t v rn} : Next (.exit t v) .app [.exit t v] (.releaseCheck rn (.all rn))
  | woken {t pc} : Next (.resume t) pc [] pc.woken
  | unwound {a t pc} (ha : a = .resume t ∨ a = .cancel t) : Next a pc [.cancelled t] pc.unwound
  | acquired {t m tryonly extra k r} :
      Next (.step t) (.mutexEnter m tryonly extra k) (k.obs t m r) (k.pc m)
  | mutexPark {t m extra k} :
      Next (.step t) (.mutexEnter m false extra k) [] (.mutexWait m extra k)
  | mutexDone {t m extra k r} : Next (.step t) (.mutexWoken m extra k) (k.obs t m r) (k.pc m)
  | mutexRepark {t m extra k} : Next (.step t) (.mutexWoken m extra k) [] (.mutexWait m extra k)
  | passOn {t m k w} : Next (.step t) (.mutexCleanup m k) [] (.post w (.unwind m k))
  | mutexLeave {t m k} : Next (.step t) (.mutexCleanup m k) [] .app
  | releaseCheck {t m k} : Next (.step t) (.releaseCheck m k) [] (.releaseLock m k)
  | releaseFail {t m k e pc} (hk : k.ReturnsTo m pc) :
      Next (.step t) (.releaseCheck m k) [.release t m (.error e)] pc
  | releaseWake {t m k w} :
      Next (.step t) (.releaseLock m k) [.release t m .ok] (.post w (.release m k))
  | releaseDone {t m k pc} (hk : k.ReturnsTo m pc) :
      Next (.step t) (.releaseLock m k) [.release t m .ok] pc
  | post {t w k pc} (hk : k.ReturnsTo pc) : Next (.step t) (.post w k) (k.obs t) pc
  | awaitFail {t c m extra e} :
      Next (.step t) (.condPark c m extra) [.await t c m (.error e)] .app
  | condPark {t c m extra} :
      Next (.step t) (.condPark c m extra) [] (.releaseCheck m (.await c extra))
  | condWoken {t c m} :
      Next (.step t) (.condWoken c m) [] (.mutexEnter m false false (.await c))
  | condUnpark {t c m} : Next (.step t) (.condUnpark c m) [] .app
  | notifyDone {t c broadcast r} : Next (.step t) (.notify c broadcast) [.notify t c r] .app
  | notifyOne {t c broadcast w} :
      Next (.step t) (.notify c broadcast) [] (.post w (.notify c broadcast))
  | rwlockDone {t r op tryonly extra res} :
      Next (.step t) (.rwlockEnter r op tryonly extra) [.rwlockAcquire t r op res] .app
  | rwlockPark {t r op extra} :
      Next (.step t) (.rwlockEnter r op false extra) [] (.rwlockWait r op extra)
  | rwlockRedone {t r op extra res} (hres : res = .ok ∨ res = .error .EINTR) :
      Next (.step t) (.rwlockWoken r op extra) [.rwlockAcquire t r op res] .app
  | rwlockRepark {t r op extra} :
      Next (.step t) (.rwlockWoken r op extra) [] (.rwlockWait r op extra)
  | rwlockCleanup {t r op} : Next (.step t) (.rwlockCleanup r op) [] .app
  | rwlockReleased {t r op res} :
      Next (.step t) (.rwlockRelease r) [.rwlockRelease t r op res] .app
  | wakeWriter {t r op w} :
      Next (.step t) (.rwlockRelease r) [.rwlockRelease t r op .ok] (.post w (.rwlockRelease r))
  | herd {t r op chain} :
      Next (.step t) (.rwlockRelease r) [.rwlockRelease t r op .ok] (.herdWalk r chain)
  | herdDone {t r} : Next (.step t) (.herdWalk r none) [] .app
  | herdNext {t r w chain} : Next (.step t) (.herdWalk r (some w)) [] (.herdClear r w chain)
  | herdClear {t r w chain} :
      Next (.step t) (.herdClear r w chain) [] (.post w (.herd r chain))
  | joinPast {t tid v} : Next (.step t) (.joinEnter tid) [] (.joinReap tid v)
  | joinPark {t tid} : Next (.step t) (.joinEnter tid) [] (.joinWait tid)
  | joinWoken {t tid v} : Next (.step t) (.joinWoken tid) [] (.joinReap tid v)
  | joinCleanup {t tid} : Next (.step t) (.joinCleanup tid) [] .app
  | joinReap {t tid v} : Next (.step t) (.joinReap tid v) [.joined t tid v] .app
  | die {t} : Next (.step t) .dying [] .dead

/-! ### Out of a wait -/

def Pc.afterWait : Pc → Bool
  | .mutexWoken .. | .condWoken .. | .rwlockWoken .. | .joinWoken .. => true
  | _ => false

def Pc.handling : Pc → Bool
  | .mutexCleanup .. | .mutexEnter _ _ _ (.handler _) | .rwlockCleanup .. | .joinCleanup .. => true
  | _ => false

variable {pc : Pc}

theorem Pc.of_woken (h : pc.woken = pc') (hp : pc'.afterWait = false) : pc = pc' := by
  subst h
  cases pc <;> first | rfl | cases hp

theorem Pc.of_unwound (h : pc.unwound = pc') (hp : pc'.handling = false) :
    pc = pc' := by
  subst h
  cases pc <;> first | rfl | cases hp

/-! ### Every step -/

section
variable {σ : Type}

theorem Step.next (h : Step home ops s a s') (ht : a.actor = some t) :
    ∃ os, s'.log = os ++ s.log ∧ Next a (s.tcb t).pc os (s'.tcb t).pc := by
  cases h with
  | drain => cases ht
  | call hr hpc he =>
    obtain rfl := Option.some.inj (ht.symm.trans (Act.entry_actor he))
    exact ⟨[], rfl, by simpa [hpc] using .call he⟩
  | cancelPoint => exact ⟨[], rfl, .stay⟩
  | exit hr hpc hp =>
    cases ht
    rcases hp with rfl | ⟨rn, rfl⟩
    · exact ⟨[_], rfl, by simpa [hpc] using .exit⟩
    · exact ⟨[_], rfl, by simpa [hpc] using .exitAll⟩
  | resume => cases ht; exact ⟨[], rfl, by simpa using .woken⟩
  | unwind => cases ht; exact ⟨[_], rfl, by simpa using .unwound (.inl rfl)⟩
  | cancelAsync => cases ht; exact ⟨[_], rfl, by simpa using .unwound (.inr rfl)⟩
  | releaseFail hr hpc ho hb =>
    cases ht
    exact ⟨[_], rfl, by simpa [hpc] using .releaseFail hb⟩
  | unlock hr hpc hn hs hb | unrecurse hr hpc hn hb =>
    cases ht
    exact ⟨[_], rfl, by simpa [hpc] using .releaseDone hb⟩
  | post hr hpc hb =>
    cases ht
    exact ⟨_, rfl, by simpa [hpc] using .post hb⟩
  | rwlockTimeout hr hpc => cases ht; exact ⟨[_], rfl, by simpa [hpc] using .rwlockRedone (.inr rfl)⟩
  | rwlockReenter hr hpc => cases ht; exact ⟨[_], rfl, by simpa [hpc] using .rwlockRedone (.inl rfl)⟩
  | condDequeue hr hpc =>
    cases ht
    rcases hpc with ⟨hpc, rfl⟩ | ⟨hpc, rfl⟩
    · exact ⟨[], rfl, by simpa [hpc] using .condWoken⟩
    · exact ⟨[], rfl, by simpa [hpc] using .condUnpark⟩
  | _ =>
    cases ht
    first
    | exact ⟨[], rfl, by constructor⟩
    | exact ⟨[_], rfl, by simp_all; constructor⟩
    | exact ⟨_, rfl, by simp_all; constructor⟩

theorem Step.log_of_drain (h : Step home ops s a s') (ha : a.actor = none) : s'.log = s.log := by
  cases h with
  | drain => rfl
  | call hr hpc he => rw [Act.entry_actor he] at ha; cases ha
  | _ => cases ha

theorem Step.log (h : Step home ops s a s') : ∃ os, s'.log = os ++ s.log := by
  cases ha : a.actor with
  | none => exact ⟨[], h.log_of_drain ha⟩
  | some =>
    obtain ⟨os, hos, -⟩ := h.next ha
    exact ⟨os, hos⟩

theorem Step.emits (h : Step home ops s a s') (ho : Emits s s' o) :
    ∃ t os, a.actor = some t ∧ o ∈ os ∧ Next a (s.tcb t).pc os (s'.tcb t).pc := by
  obtain ⟨os, hos, ho⟩ := ho
  cases ha : a.actor with
  | none =>
    rw [h.log_of_drain ha] at hos
    obtain rfl : os = [] := List.self_eq_append_left.mp hos
    cases ho
  | some t =>
    obtain ⟨os', hos', hn⟩ := h.next ha
    obtain rfl := List.append_cancel_right (hos.symm.trans hos')
    exact ⟨t, os, rfl, ho, hn⟩

end

theorem not_emits_of_notMem (r : Run ((pthSystem home).restrict P) n) (ho : o ∉ (r.state n).log)
    (hl : l < n) :
    ¬Emits (r.state l) (r.state (l + 1)) o := by
  rintro ⟨os, hos, hmem⟩
  have hlast := lasts_until (Q := fun i => o ∈ (r.state i).log) (R := fun _ => False)
    (p := l + 1) (by simp [hos, hmem]) ?_ hl
  · rcases hlast with ⟨_, _, _, h⟩ | h
    · exact h
    · exact ho h
  · intro i _ hi hmem
    obtain ⟨-, fuel, hstep⟩ := r.step i hi
    obtain ⟨os, hos⟩ := (exec_step hstep).log
    exact .inr (by simp [hos, hmem])

/-! ### Being inside a call -/

def AcquireFrom.cond : AcquireFrom → Option CondId
  | .app => none
  | .await c | .handler c => some c

def ReleaseFrom.cond : ReleaseFrom → Option CondId
  | .await c _ => some c
  | .app | .all _ => none

/-- The condition and the mutex of the `pth_cond_await` a thread is in, from
the moment it has parked until control is back with the application. -/
def Pc.awaits : Pc → Option (CondId × MutexId)
  | .condWait c m _ | .condWoken c m | .condUnpark c m => some (c, m)
  | .mutexEnter m _ _ k | .mutexWait m _ k | .mutexWoken m _ k | .mutexCleanup m k
  | .post _ (.unwind m k) => k.cond.map (·, m)
  | .releaseCheck m k | .releaseLock m k | .post _ (.release m k) => k.cond.map (·, m)
  | _ => none

def Pc.inAwait : Pc → Bool
  | .condPark .. => true
  | pc => pc.awaits.isSome

def Pc.inRwlockRelease : Pc → Bool
  | .rwlockRelease _ | .herdWalk .. | .herdClear .. => true
  | .post _ (.herd ..) | .post _ (.rwlockRelease ..) => true
  | _ => false

theorem Next.inAwait (h : Next a pc os pc')
    (ha : ∀ t c m extra, a ≠ .await t c m extra)
    (hpc : pc.inAwait = false) : pc'.inAwait = false := by
  cases h with
  | stay => exact hpc
  | call he =>
    cases a with
    | await t c m extra => exact absurd rfl (ha t c m extra)
    | acquire | release | notify | rwlockAcquire | rwlockRelease | join => cases he; rfl
    | _ => cases he
  | woken | unwound => cases pc <;> exact hpc
  | @acquired t m tryonly extra k | @mutexDone t m extra k =>
    cases k with
    | app => rfl
    | _ => cases hpc
  | @releaseFail t m k e pc hk | @releaseDone t m k pc hk =>
    cases k with
    | app => cases hk; rfl
    | await => cases hpc
    | all => rcases hk with rfl | ⟨rn, rfl⟩ <;> rfl
  | @post t w k pc hk =>
    cases k with
    | release m k =>
      cases k with
      | app => cases hk; rfl
      | await => cases hpc
      | all => rcases hk with rfl | ⟨rn, rfl⟩ <;> rfl
    | unwind | rwlockRelease | herd => cases hk; rfl
    | notify c broadcast => cases broadcast <;> (cases hk; rfl)
  | awaitFail | condPark | condWoken | condUnpark => cases hpc
  | _ => first | rfl | exact hpc

theorem Next.inRwlockRelease (h : Next a pc os pc')
    (ha : ∀ t r, a ≠ .rwlockRelease t r) (hpc : pc.inRwlockRelease = false) :
    pc'.inRwlockRelease = false := by
  cases h with
  | stay => exact hpc
  | call he =>
    cases a with
    | rwlockRelease t r => exact absurd rfl (ha t r)
    | acquire | release | await | notify | rwlockAcquire | join => cases he; rfl
    | _ => cases he
  | woken | unwound => cases pc <;> exact hpc
  | @acquired t m tryonly extra k | @mutexDone t m extra k => cases k <;> rfl
  | @releaseFail t m k e pc hk | @releaseDone t m k pc hk =>
    cases k with
    | app | await => cases hk; rfl
    | all => rcases hk with rfl | ⟨rn, rfl⟩ <;> rfl
  | @post t w k pc hk =>
    cases k with
    | release m k =>
      cases k with
      | app | await => cases hk; rfl
      | all => rcases hk with rfl | ⟨rn, rfl⟩ <;> rfl
    | unwind => cases hk; rfl
    | rwlockRelease | herd => cases hpc
    | notify c broadcast => cases broadcast <;> (cases hk; rfl)
  | rwlockReleased | wakeWriter | herd | herdDone | herdNext | herdClear => cases hpc
  | _ => rfl

/-! ### Programs that use only some of the calls -/

/-- The calls of the mutex interface, and what may happen to any thread. -/
def Act.mutexOnly : Act → Bool
  | .await .. | .notify .. | .rwlockAcquire .. | .rwlockRelease .. | .join .. => false
  | _ => true

/-- The calls of the read-write lock interface, and what may happen to any thread. -/
def Act.rwlockOnly : Act → Bool
  | .acquire .. | .release .. | .setfair .. | .await .. | .notify .. | .join .. => false
  | _ => true

section
variable {σ : Type}

/-- A property of control points that every edge keeps holds of all threads. -/
theorem Step.all_pc {P : Pc → Prop} (h : Step home ops s a s')
    (hn : ∀ pc os pc', Next a pc os pc' → P pc → P pc') (hs : ∀ t, P (s.tcb t).pc) (t : Tid) :
    P (s'.tcb t).pc := by
  by_cases ht : a.actor = some t
  · obtain ⟨os, -, hn'⟩ := h.next ht
    exact hn _ _ _ hn' (hs t)
  · rw [h.pc_of_ne ht]
    exact hs t

variable {A : State WaitLinks → Act → Prop}

theorem pthSystem_all_pc {P : Pc → Prop}
    (happ : P .app) (hn : ∀ s a pc os pc', A s a → Next a pc os pc' → P pc → P pc')
    (h : Reachable ((pthSystem home).restrict A) s) (t : Tid) : P (s.tcb t).pc := by
  induction h generalizing t with
  | init h =>
    obtain ⟨cfg, rfl⟩ := h
    exact happ
  | step _ hs ih =>
    obtain ⟨ha, fuel, hstep⟩ := hs
    exact (exec_step hstep).all_pc (fun pc os pc' => hn _ _ pc os pc' ha) ih t

theorem pc_of_idle (hA : ∀ s a, A s a → a.actor ≠ some t)
    (h : Reachable ((pthSystem home).restrict A) s) : (s.tcb t).pc = .app := by
  induction h with
  | init h =>
    obtain ⟨cfg, rfl⟩ := h
    rfl
  | step _ hs ih =>
    obtain ⟨ha, fuel, hstep⟩ := hs
    rw [(exec_step hstep).pc_of_ne (hA _ _ ha), ih]

theorem not_inAwait (hA : ∀ s a, A s a → ∀ t c m extra, a ≠ .await t c m extra)
    (h : Reachable ((pthSystem home).restrict A) s) (t : Tid) : (s.tcb t).pc.inAwait = false :=
  pthSystem_all_pc (P := fun pc => pc.inAwait = false) rfl
    (fun s a _ _ _ ha hn => hn.inAwait (hA s a ha)) h t

theorem not_inRwlockRelease (hA : ∀ s a, A s a → ∀ t r, a ≠ .rwlockRelease t r)
    (h : Reachable ((pthSystem home).restrict A) s) (t : Tid) :
    (s.tcb t).pc.inRwlockRelease = false :=
  pthSystem_all_pc (P := fun pc => pc.inRwlockRelease = false) rfl
    (fun s a _ _ _ ha hn => hn.inRwlockRelease (hA s a ha)) h t

end

end GnuPth
