import GnuPth.Sync.CondRuns

/-!
# The recursion count across pth_cond_await

`pth_cond_await` releases its mutex once and acquires it once, whatever the
recursion count is. The count a thread holds a mutex with can be read off the
log (`MutexView.Ok.held`), where only the thread's own acquires and releases
matter: `Pc.Counted` says how many of them are still there at each point of the
call.
-/

namespace GnuPth

open Function (update)
open Transition

/-- A thread that called `pth_cond_await` with `n` acquires of the mutex to its
name now has `h` of them. Nothing is said of a thread that is being cancelled:
the call does not return to it. -/
def Pc.Counted (n h : Nat) : Pc → Prop
  | .releaseCheck .. | .releaseLock .. => h = n
  | .post _ (.release ..) | .condWait .. | .condWoken .. => h + 1 = n
  | .mutexEnter _ tryonly extra (.await _) => h + 1 = n ∧ tryonly = false ∧ extra = false
  | .mutexWait _ extra (.await _) | .mutexWoken _ extra (.await _) => h + 1 = n ∧ extra = false
  | _ => True

section
variable {log : List Obs} {pc : Pc}

theorem AcquireFrom.await_mem {k : AcquireFrom}
    (h : .await t c m .ok ∈ k.obs u m' r) : u = t ∧ m' = m ∧ k = .await c := by
  cases k <;> simp_all [AcquireFrom.obs]

theorem Pc.Counted.woken (hc : pc.Counted n h) : pc.woken.Counted n h := by
  cases pc with
  | mutexWait m extra k => cases k <;> exact hc
  | _ => exact hc

theorem Pc.Counted.unwound (hc : pc.Counted n h) : pc.unwound.Counted n h := by
  cases pc with
  | condWait => trivial
  | mutexWait => trivial
  | _ => exact hc

/-- `pth_cond_await` returns with the second acquire. -/
theorem Next.await_ok (hn : Next a pc os pc') (ho : .await t c m .ok ∈ os) :
    a = .step t ∧ ((∃ tryonly extra, pc = .mutexEnter m tryonly extra (.await c)) ∨
      ∃ extra, pc = .mutexWoken m extra (.await c)) := by
  cases hn with
  | @acquired _ _ tryonly extra =>
    obtain ⟨rfl, rfl, rfl⟩ := AcquireFrom.await_mem ho
    exact ⟨rfl, .inl ⟨tryonly, extra, rfl⟩⟩
  | @mutexDone _ _ extra =>
    obtain ⟨rfl, rfl, rfl⟩ := AcquireFrom.await_mem ho
    exact ⟨rfl, .inr ⟨extra, rfl⟩⟩
  | @post _ _ k =>
    cases k with
    | notify _ broadcast => cases broadcast <;> simp [PostThen.obs] at ho
    | _ => cases ho
  | _ => simp at ho

theorem Next.holders_count (hn : Next a pc os pc') (ha : a.actor = some u) (ht : t ≠ u) :
    (holders m (os ++ log)).count t = (holders m log).count t := by
  cases hn with
  | @acquired u' m' _ _ k r | @mutexDone u' m' _ k r =>
    cases ha
    by_cases hm : m' = m
    · subst hm
      cases r with
      | ok => simp [Ne.symm ht]
      | error => simp
    · rw [holders_obs_of_ne hm]
  | @releaseWake u' m' | @releaseDone u' m' =>
    cases ha
    by_cases hm : m' = m
    · subst hm
      simp [holders, List.count_erase_of_ne ht]
    · simp [holders, hm]
  | post => rw [holders_post_obs]
  | _ => rfl

end

section
variable {σ : Type}

theorem Step.holders_count (h : Step home ops s a s') (ht : a.actor ≠ some t) :
    (holders m s'.log).count t = (holders m s.log).count t := by
  cases ha : a.actor with
  | none => rw [h.log_of_drain ha]
  | some =>
    obtain ⟨os, hlog, hn⟩ := h.next ha
    rw [hlog]
    refine hn.holders_count ha ?_
    rintro rfl
    exact ht ha

theorem Step.releases (h : Step home ops s (.step t) s')
    (hpc : (s.tcb t).pc = .releaseCheck m k) (hi : (s.mutex m).initialized = true)
    (hl : (s.mutex m).locked = true) (ho : (s.mutex m).owner = some t) :
    s'.log = s.log ∧ (s'.tcb t).pc = .releaseLock m k := by
  cases h with
  | releaseFail hr hpc₁ ho₁ =>
    cases hpc.symm.trans hpc₁
    simp [hi, hl, ho] at ho₁
  | releaseCheck hr hpc₁ =>
    cases hpc.symm.trans hpc₁
    exact ⟨rfl, by simp⟩
  | call hr hpc₁ he => cases he
  | condDequeue hr hpc₁ => simp [hpc] at hpc₁
  | _ => simp_all

theorem Step.enters (h : Step home ops s (.step t) s')
    (hpc : (s.tcb t).pc = .mutexEnter m false extra k) (hi : (s.mutex m).initialized = true) :
    s'.log = s.log ∨ s'.log = k.obs t m .ok ++ s.log := by
  cases h with
  | acquireFail hr hpc₁ he =>
    cases hpc.symm.trans hpc₁
    simp [hi] at he
  | take hr hpc₁ | recurse hr hpc₁ =>
    cases hpc.symm.trans hpc₁
    exact .inr rfl
  | mutexPark => exact .inl rfl
  | call hr hpc₁ he => cases he
  | condDequeue hr hpc₁ => simp [hpc] at hpc₁
  | _ => simp_all

theorem Step.reenters (h : Step home ops s (.step t) s')
    (hpc : (s.tcb t).pc = .mutexWoken m false k) :
    s'.log = s.log ∨ s'.log = k.obs t m .ok ++ s.log := by
  cases h with
  | mutexTimeout hr hpc₁ ho hrem he =>
    cases hpc.symm.trans hpc₁
    cases he.1
  | grant hr hpc₁ | retake hr hpc₁ =>
    cases hpc.symm.trans hpc₁
    exact .inr rfl
  | mutexRepark => exact .inl rfl
  | call hr hpc₁ he => cases he
  | condDequeue hr hpc₁ => simp [hpc] at hpc₁
  | _ => simp_all

end

section
variable {home : Tid → SchedId}

theorem MutexView.Ok.owner_of_holders {v : MutexView} (ok : v.Ok) (hn : 1 ≤ n)
    (hh : v.holders.count t = n) : v.mx.owner = some t ∧ v.mx.count = n := by
  have hheld := ok.held t
  by_cases ho : v.mx.owner = some t ∧ (v.role t).inWait = false
  · rw [if_pos ho] at hheld
    exact ⟨ho.1, by omega⟩
  · rw [if_neg ho] at hheld
    omega

theorem MutexView.Ok.holders_of_owner {v : MutexView} (ok : v.Ok) (ho : v.mx.owner = some t)
    (hr : v.role t = .out) (hn : v.mx.count = n) : v.holders.count t = n := by
  rw [ok.held, if_pos ⟨ho, by rw [hr]; rfl⟩, hn]

theorem count_released {log : List Obs} (hn : 1 ≤ n) (hc : (holders m log).count t = n) :
    (holders m (.release t m .ok :: log)).count t + 1 = n := by
  rw [holders, if_pos rfl, List.count_erase_self]
  omega

theorem Step.counted (h : Step home listOps s a s') (ok : (GnuPth.mutexView m s).Ok)
    (hi : (s.mutex m).initialized = true) (hn : 1 ≤ n) (hpc : (s.tcb t).pc.awaits = some (c, m))
    (hpc' : (s'.tcb t).pc.awaits = some (c, m))
    (hc : (s.tcb t).pc.Counted n ((holders m s.log).count t)) :
    (s'.tcb t).pc.Counted n ((holders m s'.log).count t) := by
  by_cases ha : a.actor = some t
  · obtain ⟨os, hlog, hnext⟩ := h.next ha
    -- the checks of pth_mutex_release succeed
    have hfail : ∀ k e, (s.tcb t).pc = .releaseCheck m k → a = .step t →
        os ≠ [.release t m (.error e)] := by
      rintro k e hck rfl rfl
      rw [hck] at hc
      obtain ⟨ho, -⟩ := ok.owner_of_holders hn hc
      have hl : (s.mutex m).locked = true := ok.locked.mpr (by rw [ho]; simp)
      obtain ⟨hlog', -⟩ := h.releases hck hi hl ho
      simp [hlog'] at hlog
    rw [hlog]
    generalize (s.tcb t).pc = pc, (s'.tcb t).pc = pc' at hnext hpc hpc' hc hfail
    cases hnext with
    | woken => exact hc.woken
    | unwound => exact hc.unwound
    | @acquired _ m' _ _ k | @mutexDone _ m' _ k => cases k <;> trivial
    | @mutexPark _ m' extra k =>
      cases k with
      | await => exact ⟨hc.1, hc.2.2⟩
      | _ => trivial
    | @mutexRepark _ m' extra k => cases k <;> exact hc
    | releaseCheck => exact hc
    | @releaseFail _ m' k e =>
      cases ha
      obtain ⟨-, rfl⟩ : k.cond = some c ∧ m' = m := by simpa [Pc.awaits] using hpc
      exact absurd rfl (hfail k e rfl rfl)
    | @releaseWake _ m' k =>
      cases ha
      obtain ⟨-, rfl⟩ : k.cond = some c ∧ m' = m := by simpa [Pc.awaits] using hpc
      exact count_released hn hc
    | @releaseDone _ m' k _ hk =>
      cases ha
      obtain ⟨hk', rfl⟩ : k.cond = some c ∧ m' = m := by simpa [Pc.awaits] using hpc
      cases k with
      | await =>
        cases hk
        exact count_released hn hc
      | _ => cases hk'
    | @post _ w k _ hk =>
      cases k with
      | release m k =>
        cases k with
        | await =>
          cases hk
          exact hc
        | _ => cases hpc
      | unwind =>
        cases hk
        trivial
      | _ => cases hpc
    | condWoken => exact ⟨hc, rfl, rfl⟩
    | _ => trivial
  · rw [h.holders_count ha, h.pc_of_ne ha]
    exact hc

theorem Step.counted_return (h : Step home listOps s a s') (hi : (s.mutex m).initialized = true)
    (hc : (s.tcb t).pc.Counted n ((holders m s.log).count t)) (ho : Emits s s' (.await t c m .ok)) :
    (holders m s'.log).count t = n := by
  obtain ⟨os, hlog, hmem⟩ := ho
  obtain ⟨u, os', hau, hmem', hnext⟩ := h.emits ⟨os, hlog, hmem⟩
  obtain ⟨rfl, hpos⟩ := hnext.await_ok hmem'
  cases hau
  -- the acquire succeeds: it has no way out
  have hos : s'.log = (AcquireFrom.await c).obs t m .ok ++ s.log ∧
      (holders m s.log).count t + 1 = n := by
    have hne : s'.log ≠ s.log := by
      intro heq
      rw [List.append_left_eq_self.mp (hlog.symm.trans heq)] at hmem
      cases hmem
    rcases hpos with ⟨tryonly, extra, hpos⟩ | ⟨extra, hpos⟩
    · rw [hpos] at hc
      obtain ⟨hc, rfl, rfl⟩ := hc
      exact ⟨(h.enters hpos hi).resolve_left hne, hc⟩
    · rw [hpos] at hc
      obtain ⟨hc, rfl⟩ := hc
      exact ⟨(h.reenters hpos).resolve_left hne, hc⟩
  rw [hos.1, holders_obs_ok, List.count_cons_self]
  exact hos.2

end

section
variable {home : Tid → SchedId}

theorem counted_run (l : Run ((listSystem home).restrict SafeStep) N) (hik : i < k) (hk : k ≤ N)
    (ha : l.act i = .step t) (hpc : ((l.state i).tcb t).pc = .condPark c m extra)
    (hi : ((l.state i).mutex m).initialized = true) (ho : ((l.state i).mutex m).owner = some t)
    (hn : ((l.state i).mutex m).count = n)
    (hin : ∀ j, i < j → j ≤ k → ((l.state j).tcb t).pc.awaits = some (c, m)) :
    ((l.state k).mutex m).initialized = true ∧
      ((l.state k).tcb t).pc.Counted n ((holders m (l.state k).log).count t) := by
  have hok : ∀ j ≤ N, (mutexView m (l.state j)).Ok :=
    fun j hj => mutexView_ok (l.reachable hj).of_restrict
  have hone : 1 ≤ n := hn ▸ (hok i (by omega)).counted.mp (by simp [mutexView, ho])
  induction hik with
  | refl =>
    have hstep := (l.step i (by omega)).2
    obtain ⟨os, hlog, hnext⟩ := hstep.next (by rw [ha]; rfl)
    refine ⟨by rw [hstep.initialized]; exact hi, ?_⟩
    have hin := hin (i + 1) (Nat.lt_succ_self i) (Nat.le_refl _)
    rw [hpc, ha] at hnext
    generalize ((l.state (i + 1)).tcb t).pc = pc at hnext hin
    cases hnext with
    | condPark =>
      rw [hlog]
      exact (hok i (by omega)).holders_of_owner ho (by simp [mutexView, hpc]) hn
    | _ => cases hin
  | @step k hik ih =>
    obtain ⟨hi, hc⟩ := ih (by omega) fun j hij hjk => hin j hij (by omega)
    have hstep := (l.step k (by omega)).2
    refine ⟨by rw [hstep.initialized]; exact hi, ?_⟩
    exact hstep.counted (hok k (by omega)) hi hone (hin k hik (Nat.le_succ k))
      (hin (k + 1) (Nat.lt_succ_of_lt hik) (Nat.le_refl _)) hc

/-- In every run whose steps are link-safe: a thread that calls `pth_cond_await`
as the owner of the mutex gets it back with the recursion count it had, and if
that count is 1 then the thread is not the owner while it is parked. -/
theorem await_keeps_count (run : Run ((pthSystem home).restrict LinkSafe) N) (hik : i < k)
    (hk : k ≤ N) (ha : run.act i = .step t)
    (hpc : ((run.state i).tcb t).pc = .condPark c m extra)
    (hi : ((run.state i).mutex m).initialized = true)
    (ho : ((run.state i).mutex m).owner = some t) (hn : ((run.state i).mutex m).count = n)
    (hin : ∀ j, i < j → j ≤ k → ((run.state j).tcb t).pc.awaits = some (c, m)) :
    (n = 1 → ((run.state k).tcb t).pc = .condWait c m extra →
      ((run.state k).mutex m).owner ≠ some t) ∧
    (k < N → Emits (run.state k) (run.state (k + 1)) (.await t c m .ok) →
      ((run.state (k + 1)).mutex m).owner = some t ∧
        ((run.state (k + 1)).mutex m).count = n) := by
  obtain ⟨l, hact, hR⟩ := (refines home).run run
  have htcb : ∀ j ≤ N, (l.state j).tcb = (run.state j).tcb := fun j hj => (hR j hj).tcb
  have hmutex : ∀ j ≤ N, (l.state j).mutex = (run.state j).mutex := fun j hj => (hR j hj).mutex
  have hok : ∀ j ≤ N, (mutexView m (l.state j)).Ok :=
    fun j hj => mutexView_ok (l.reachable hj).of_restrict
  rw [← hmutex i (by omega)] at hi ho hn
  rw [← htcb i (by omega)] at hpc
  have hcounted := counted_run l hik hk (by rw [hact, ha]) hpc hi ho hn fun j hij hjk => by
    rw [htcb j (by omega)]
    exact hin j hij hjk
  obtain ⟨hi, hc⟩ := hcounted
  have hone : 1 ≤ n := hn ▸ (hok i (by omega)).counted.mp (by simp [mutexView, ho])
  refine ⟨fun hn1 hwait howner => ?_, fun hkN hemits => ?_⟩
  · -- the only acquire is given back, and an owner outside the wait has one
    rw [← htcb k hk] at hwait
    rw [← hmutex k hk] at howner
    rw [hwait] at hc
    have hcount := (hok k hk).counted.mp (by simp [mutexView, howner])
    have hheld : (holders m (l.state k).log).count t = (mutexView m (l.state k)).mx.count :=
      (hok k hk).holders_of_owner howner (by simp [mutexView, hwait]) rfl
    rw [Pc.Counted] at hc
    omega
  · have hemits : Emits (l.state k) (l.state (k + 1)) (.await t c m .ok) := by
      rw [Emits, (hR k hk).log, (hR (k + 1) hkN).log]
      exact hemits
    rw [← hmutex (k + 1) hkN]
    exact (hok (k + 1) hkN).owner_of_holders hone ((l.step k hkN).2.counted_return hi hc hemits)

/-- Thread 1 holds the mutex once. Thread 2 takes it while thread 1 is parked, and
notifies; thread 1 comes back with the mutex. -/
theorem await_keeps_count_once :
    ∃ home N, ∃ run : Run ((pthSystem home).restrict LinkSafe) N, ∃ k l,
      ((run.state k).tcb 1).pc = .condWait 0 0 false ∧ ((run.state k).mutex 0).owner ≠ some 1 ∧
      ((run.state (l + 1)).mutex 0).owner = some 1 ∧ ((run.state (l + 1)).mutex 0).count = 1 := by
  let run := (runOf unbroken .plain (fun _ => 0) 5
    [.dispatch 1, .acquire 1 0 false false, .step 1, .await 1 0 0 false, .step 1, .step 1, .step 1,
      .dispatch 2, .acquire 2 0 false false, .step 2, .notify 2 0 false, .step 2, .step 2,
      .release 2 0, .step 2, .step 2, .yield 2, .drain 0, .resume 1, .step 1, .step 1] rfl).mono
    (Q := LinkSafe) fun s a => linkSafe_of_unbroken fun _ _ ha => ha
  have hin : ∀ j, 4 < j → j ≤ 20 → ((run.state j).tcb 1).pc.awaits = some (0, 0) := by
    intro j hj hj'
    interval_cases j <;> rfl
  have hparked := await_keeps_count run (k := 7) (by simp) (by simp) rfl rfl rfl rfl rfl
    fun j hj hj' => hin j hj (by omega)
  have hreturn := await_keeps_count run (by simp) (by simp) rfl rfl rfl rfl rfl hin
  refine ⟨_, _, run, 7, 20, rfl, hparked.1 rfl rfl, hreturn.2 (by simp) ?_⟩
  exact ⟨[.await 1 0 0 .ok, .acquire 1 0 .ok], rfl, by simp⟩

/-- Thread 1 holds the mutex twice: it owns the mutex while it is parked, and
thread 2, which could notify it, waits for the mutex. -/
theorem await_keeps_recursive_owner :
    ∃ home N, ∃ run : Run ((pthSystem home).restrict LinkSafe) N, ∃ i,
      i < N ∧ run.act i = .step 1 ∧ ((run.state i).tcb 1).pc = .condPark 0 0 false ∧
      ((run.state i).mutex 0).initialized = true ∧ ((run.state i).mutex 0).owner = some 1 ∧
      ((run.state i).mutex 0).count = 2 ∧
      (∀ j, i < j → j ≤ N → ((run.state j).tcb 1).pc.awaits = some (0, 0)) ∧
      ((run.state N).tcb 1).pc = .condWait 0 0 false ∧ ((run.state N).mutex 0).owner = some 1 ∧
      ((run.state N).tcb 2).pc = .mutexWait 0 false .app := by
  let run := (runOf unbroken .plain (fun _ => 0) 5
    [.dispatch 1, .acquire 1 0 false false, .step 1, .acquire 1 0 false false, .step 1,
      .await 1 0 0 false, .step 1, .step 1, .step 1,
      .dispatch 2, .acquire 2 0 false false, .step 2] rfl).mono
    fun s a => linkSafe_of_unbroken fun _ _ ha => ha
  refine ⟨_, _, run, 6, by simp, rfl, rfl, rfl, rfl, rfl, fun j hj hj' => ?_, rfl, rfl, rfl⟩
  simp only [List.length_cons, List.length_nil] at hj'
  interval_cases j <;> rfl

end

end GnuPth
