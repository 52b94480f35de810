import GnuPth.Sync.Client

/-!
# pth_cond_notify with broadcast

The loop of `pth_cond_notify(cond, TRUE)` gives up the lock of the condition
between two dequeues and ends when it finds the queue empty. `dequeued` and
`woken` are the threads that one call takes off the queue and posts a wakeup to,
as far as a run has got; `Sweep` relates them to the queue the call started with.
-/

namespace GnuPth

open Function (update)
open Transition

/-- While `t` is in a broadcast on `c`, no other thread parks on `c` or notifies
it. -/
def Undisturbed {σ : Type} (t : Tid) (c : CondId) (s : State σ) (a : Act) : Prop :=
  (s.tcb t).pc.InNotify c true → ∀ u, a = .step u → u ≠ t →
    (∀ m extra, (s.tcb u).pc ≠ .condPark c m extra) ∧ ∀ broadcast, (s.tcb u).pc ≠ .notify c broadcast

/-! ### One step -/

section
variable {pc : Pc}

theorem Pc.InNotify.cases (h : pc.InNotify c true) :
    pc = .notify c true ∨ ∃ w, pc = .post w (.notify c true) := by
  cases pc with
  | notify =>
    obtain ⟨rfl, rfl⟩ := h
    exact .inl rfl
  | post w k =>
    cases k with
    | notify =>
      obtain ⟨rfl, rfl⟩ := h
      exact .inr ⟨w, rfl⟩
    | _ => cases h
  | _ => cases h

theorem Next.notify_ok (h : Next a pc os pc') (ho : .notify t c .ok ∈ os) : a = .step t := by
  cases h with
  | notifyDone =>
    simp only [List.mem_singleton, Obs.notify.injEq] at ho
    rw [ho.1]
  | @post _ _ k =>
    cases k with
    | notify _ broadcast =>
      cases broadcast with
      | false =>
        simp only [PostThen.obs, List.mem_singleton, Obs.notify.injEq] at ho
        rw [ho.1]
      | true => cases ho
    | _ => cases ho
  | @acquired _ _ _ _ k | @mutexDone _ _ _ k => cases k <;> simp [AcquireFrom.obs] at ho
  | _ => simp at ho

theorem Next.notify_stays (h : Next a pc os pc') (ha : ∀ t, a ≠ .step t)
    (hpc : pc.InNotify c broadcast) : pc' = pc := by
  cases h with
  | stay => rfl
  | woken | unwound =>
    cases pc with
    | notify | post => rfl
    | _ => cases hpc
  | call | setfair | joinFail | cancelPoint | exit | exitAll => cases hpc
  | _ => exact absurd rfl (ha _)

end

section
variable {s' : State WaitLists}

inductive CondQueueStep (s s' : State WaitLists) (a : Act) (c : CondId) : Prop
  | same (h : s'.store (.queue (.cond c)) = s.store (.queue (.cond c)))
  | park {u : Tid} {m : MutexId} {extra : Bool} (ha : a = .step u)
      (hpc : (s.tcb u).pc = .condPark c m extra)
  | leave {u : Tid} (ha : a = .step u) (hpc : ¬(s.tcb u).pc.InNotify c true)
      (h : s'.store (.queue (.cond c)) = (s.store (.queue (.cond c))).erase u)
  | notify {u w : Tid} {broadcast : Bool} (ha : a = .step u)
      (hpc : (s.tcb u).pc = .notify c broadcast)
      (hpc' : (s'.tcb u).pc = .post w (.notify c broadcast))
      (h : s.store (.queue (.cond c)) = w :: s'.store (.queue (.cond c)))

theorem CondQueueStep.of_ne
    (hs : s'.store = update s.store (.queue q) ws) (hq : q ≠ .cond c) : CondQueueStep s s' a c :=
  .same (by simp [hs, Ne.symm hq])

theorem Step.condQueueStep (h : Step home listOps s a s') (c : CondId) :
    CondQueueStep s s' a c := by
  cases h.listStep with
  | drain hs | keep _ hs => exact .same (by rw [hs])
  | @park u q _ hq _ hs | @repark u q _ hq _ hs =>
    by_cases hc : q = .cond c
    · subst hc
      obtain ⟨m, extra, hpc⟩ := Pc.of_parksOn_cond hq
      exact .park rfl hpc
    · exact .of_ne hs hc
  | @leave u q hl hs =>
    by_cases hc : q = .cond c
    · subst hc
      refine .leave rfl (fun h => ?_) (by simp [hs])
      rcases h.cases with hpc | ⟨w, hpc⟩ <;> simp [hpc, Pc.leaves] at hl
    · exact .of_ne hs hc
  | leaveBoth _ h₁ h₂ =>
    obtain ⟨-, rfl⟩ := listOps_remove.mp h₁
    obtain ⟨-, hs⟩ := listOps_remove.mp h₂
    exact .same (by simp [hs])
  | @shift u w ws k hpc hpc' hq hs =>
    by_cases hc : k.queue = .cond c
    · cases k <;> cases hc
      exact .notify rfl (Option.some.inj hpc).symm hpc' (by simpa [hs, PostThen.queue] using hq)
    · exact .of_ne hs hc
  | herd _ _ hs | unchain _ _ hs => exact .same (by simp [hs])
  | die _ _ _ hs => exact .of_ne hs nofun

theorem Step.notify_takes (h : Step home listOps s (.step t) s')
    (hpc : (s.tcb t).pc = .notify c true) (hpc' : (s'.tcb t).pc.InNotify c true) :
    ∃ w, (s'.tcb t).pc = .post w (.notify c true) ∧
      s.store (.queue (.cond c)) = w :: s'.store (.queue (.cond c)) := by
  cases h with
  | notifyOne hr hpc₁ hi hs =>
    cases hpc.symm.trans hpc₁
    obtain ⟨ws, hws, rfl⟩ := listOps_shift_some.mp hs
    exact ⟨_, State.goto_pc .., by simpa using hws⟩
  | notifyNone | notifyFail => simp [Pc.InNotify] at hpc'
  | call hr hpc₁ he => cases he
  | condDequeue hr hpc₁ => simp [hpc] at hpc₁
  | _ => simp_all

theorem Step.notify_posts (h : Step home listOps s (.step t) s')
    (hpc : (s.tcb t).pc = .post w (.notify c true)) :
    (s'.tcb t).pc = .notify c true ∧ s'.store = s.store := by
  cases h with
  | post hr hpc₁ hb =>
    cases hpc.symm.trans hpc₁
    exact ⟨by simpa [PostThen.ReturnsTo] using hb, by simp⟩
  | call hr hpc₁ he => cases he
  | condDequeue hr hpc₁ => simp [hpc] at hpc₁
  | _ => simp_all

theorem Step.notify_ends (h : Step home listOps s a s') (hpc : (s.tcb t).pc.InNotify c true)
    (ho : Emits s s' (.notify t c .ok)) :
    (s.tcb t).pc = .notify c true ∧ s.store (.queue (.cond c)) = [] := by
  obtain ⟨os, hlog, hmem⟩ := ho
  obtain ⟨u, os', hau, hmem', hn⟩ := h.emits ⟨os, hlog, hmem⟩
  obtain rfl := hn.notify_ok hmem'
  have hne : s'.log ≠ s.log := by
    intro heq
    rw [List.append_left_eq_self.mp (hlog.symm.trans heq)] at hmem
    cases hmem
  rcases hpc.cases with hpc | ⟨w, hpc⟩
  · refine ⟨hpc, ?_⟩
    cases h with
    | notifyNone hr hpc₁ hi hs =>
      cases hpc.symm.trans hpc₁
      exact (listOps_shift_none.mp hs).1
    | notifyFail hr hpc₁ =>
      cases hpc.symm.trans hpc₁
      have hos : [Obs.notify t c (.error .EDEADLK)] = os := List.append_cancel_right hlog
      simp [← hos] at hmem
    | notifyOne => exact absurd rfl hne
    | call hr hpc₁ he => cases he
    | condDequeue hr hpc₁ => simp [hpc] at hpc₁
    | _ => simp_all
  · cases h with
    | post hr hpc₁ =>
      cases hpc.symm.trans hpc₁
      exact absurd rfl hne
    | call hr hpc₁ he => cases he
    | condDequeue hr hpc₁ => simp [hpc] at hpc₁
    | _ => simp_all

/-- One step of the system while `t` is in a broadcast: it takes the next waiter,
or posts to the one it has taken, or waits while others leave. -/
theorem Step.sweep (h : Step home listOps s a s') (hu : Undisturbed t c s a)
    (hpc : (s.tcb t).pc.InNotify c true) (hpc' : (s'.tcb t).pc.InNotify c true) :
    (a = .step t ∧ ∃ w, (s.tcb t).pc = .notify c true ∧
      (s'.tcb t).pc = .post w (.notify c true) ∧
      s.store (.queue (.cond c)) = w :: s'.store (.queue (.cond c))) ∨
    (a = .step t ∧ ∃ w, (s.tcb t).pc = .post w (.notify c true) ∧
      (s'.tcb t).pc = .notify c true ∧
      s'.store (.queue (.cond c)) = s.store (.queue (.cond c))) ∨
    (a ≠ .step t ∧ (s'.tcb t).pc = (s.tcb t).pc ∧
      (s'.store (.queue (.cond c)) = s.store (.queue (.cond c)) ∨
        ∃ u, a = .step u ∧
          s'.store (.queue (.cond c)) = (s.store (.queue (.cond c))).erase u)) := by
  have hq := h.condQueueStep c
  by_cases ha : a = .step t
  · subst ha
    rcases hpc.cases with hpc | ⟨w, hpc⟩
    · obtain ⟨w, hpost, hq⟩ := h.notify_takes hpc hpc'
      exact .inl ⟨rfl, w, hpc, hpost, hq⟩
    · obtain ⟨hnotify, hstore⟩ := h.notify_posts hpc
      exact .inr (.inl ⟨rfl, w, hpc, hnotify, by rw [hstore]⟩)
  · have hother : ∀ u, a = .step u → u ≠ t := by
      rintro u hau rfl
      exact ha hau
    refine .inr (.inr ⟨ha, ?_, ?_⟩)
    · by_cases hact : a.actor = some t
      · obtain ⟨os, -, hn⟩ := h.next hact
        refine hn.notify_stays ?_ hpc
        rintro u rfl
        cases hact
        exact ha rfl
      · exact h.pc_of_ne hact
    · cases hq with
      | same h => exact .inl h
      | leave hau _ h => exact .inr ⟨_, hau, h⟩
      | park hau hpark => exact absurd hpark ((hu hpc _ hau (hother _ hau)).1 _ _)
      | notify hau hnotify => exact absurd hnotify ((hu hpc _ hau (hother _ hau)).2 _)

end

/-! ### The threads of one call -/

/-- The thread that a broadcast on `c` has taken off the queue and not posted to. -/
def Pc.taken (c : CondId) : Pc → List Tid
  | .post w (.notify c' true) => if c' = c then [w] else []
  | _ => []

section
variable {S : System (State σ) Act}

/-- What `t` takes off the queue of `c` in the `k` steps from `p` on, in order. -/
def dequeued (run : Run S N) (t : Tid) (c : CondId) (p : Nat) : Nat → List Tid
  | 0 => []
  | k + 1 => dequeued run t c p k ++
    if run.act (p + k) = .step t then ((run.state (p + k + 1)).tcb t).pc.taken c else []

def woken (run : Run S N) (t : Tid) (c : CondId) (p : Nat) : Nat → List Tid
  | 0 => []
  | k + 1 => woken run t c p k ++
    if run.act (p + k) = .step t then ((run.state (p + k)).tcb t).pc.taken c else []

def turns (run : Run S N) (t : Tid) (p : Nat) : Nat → Nat
  | 0 => 0
  | k + 1 => turns run t p k + if run.act (p + k) = .step t then 1 else 0

end

/-- The step `j` of `w` itself takes it off the queue of `c`. -/
def LeavesItself {S : System (State WaitLinks) Act} {N : Nat} (run : Run S N) (c : CondId) (w : Tid)
    (j : Nat) : Prop :=
  run.act j = .step w ∧ OnList (run.state j) w (.queue (.cond c)) ∧
    ¬OnList (run.state (j + 1)) w (.queue (.cond c))

section
variable {S : System (State WaitLinks) Act}

/-- What a call that found the queue `ws` has done after `k` steps, with `q` still
on the queue. -/
structure Sweep (run : Run S N) (t : Tid) (c : CondId) (p k : Nat) (ws q : List Tid) : Prop where
  order : (dequeued run t c p k ++ q).Sublist ws
  posted : dequeued run t c p k = woken run t c p k ++ ((run.state (p + k)).tcb t).pc.taken c
  turns : turns run t p k = (dequeued run t c p k).length + (woken run t c p k).length
  gone : ∀ w ∈ ws, w ∈ dequeued run t c p k ∨ w ∈ q ∨ ∃ j, p ≤ j ∧ j < p + k ∧ LeavesItself run c w j

variable {run : Run S N}

theorem Sweep.take (h : Sweep run t c p k ws (w :: q)) (ha : run.act (p + k) = .step t)
    (hpc : ((run.state (p + k)).tcb t).pc = .notify c true)
    (hpc' : ((run.state (p + k + 1)).tcb t).pc = .post w (.notify c true)) :
    Sweep run t c p (k + 1) ws q := by
  have hd : dequeued run t c p (k + 1) = dequeued run t c p k ++ [w] := by
    simp [dequeued, ha, hpc', Pc.taken]
  have hw : woken run t c p (k + 1) = woken run t c p k := by simp [woken, hpc, Pc.taken]
  refine ⟨?_, ?_, ?_, ?_⟩
  · rw [hd, List.append_assoc]
    exact h.order
  · rw [hd, hw, h.posted, hpc, ← Nat.add_assoc, hpc']
    simp [Pc.taken]
  · rw [hd, hw, GnuPth.turns, h.turns, if_pos ha, List.length_append, List.length_singleton]
    omega
  · intro u hu
    rw [hd, List.mem_append, List.mem_singleton]
    rcases h.gone u hu with hu | hu | ⟨j, hj, hjk, hleave⟩
    · exact .inl (.inl hu)
    · rcases List.mem_cons.mp hu with rfl | hu
      · exact .inl (.inr rfl)
      · exact .inr (.inl hu)
    · exact .inr (.inr ⟨j, hj, by omega, hleave⟩)

theorem Sweep.post (h : Sweep run t c p k ws q) (ha : run.act (p + k) = .step t)
    (hpc : ((run.state (p + k)).tcb t).pc = .post w (.notify c true))
    (hpc' : ((run.state (p + k + 1)).tcb t).pc = .notify c true) :
    Sweep run t c p (k + 1) ws q := by
  have hd : dequeued run t c p (k + 1) = dequeued run t c p k := by
    simp [dequeued, hpc', Pc.taken]
  have hw : woken run t c p (k + 1) = woken run t c p k ++ [w] := by
    simp [woken, ha, hpc, Pc.taken]
  refine ⟨?_, ?_, ?_, ?_⟩
  · rw [hd]
    exact h.order
  · rw [hd, hw, h.posted, hpc, ← Nat.add_assoc, hpc']
    simp [Pc.taken]
  · rw [hd, hw, GnuPth.turns, h.turns, if_pos ha, List.length_append, List.length_singleton]
    omega
  · intro u hu
    rw [hd]
    rcases h.gone u hu with hu | hu | ⟨j, hj, hjk, hleave⟩
    · exact .inl hu
    · exact .inr (.inl hu)
    · exact .inr (.inr ⟨j, hj, by omega, hleave⟩)

theorem Sweep.rest (h : Sweep run t c p k ws q) (ha : run.act (p + k) ≠ .step t)
    (hpc : ((run.state (p + k + 1)).tcb t).pc = ((run.state (p + k)).tcb t).pc) (hq : q'.Sublist q)
    (hleave : ∀ w ∈ q, w ∉ q' → LeavesItself run c w (p + k)) :
    Sweep run t c p (k + 1) ws q' := by
  have hd : dequeued run t c p (k + 1) = dequeued run t c p k := by simp [dequeued, ha]
  have hw : woken run t c p (k + 1) = woken run t c p k := by simp [woken, ha]
  refine ⟨?_, ?_, ?_, ?_⟩
  · rw [hd]
    exact (hq.append_left _).trans h.order
  · rw [hd, hw, ← Nat.add_assoc, hpc]
    exact h.posted
  · rw [hd, hw, GnuPth.turns, h.turns, if_neg ha, Nat.add_zero]
  · intro u hu
    rw [hd]
    rcases h.gone u hu with hu | hu | ⟨j, hj, hjk, hlv⟩
    · exact .inl hu
    · by_cases hu' : u ∈ q'
      · exact .inr (.inl hu')
      · exact .inr (.inr ⟨p + k, by omega, by omega, hleave u hu hu'⟩)
    · exact .inr (.inr ⟨j, hj, by omega, hlv⟩)

end

section
variable {home : Tid → SchedId}

/-- In every run whose steps are link-safe and leave the broadcasts of `t` on `c`
undisturbed: what a call takes off the queue is, in order and without repetition,
among the threads `ws` that were on it at the start, with at most two steps for
each; and when the call returns, it has posted a wakeup to every one of them that
did not leave by itself. -/
theorem broadcast_wakes_waiters
    (run : Run ((pthSystem home).restrict fun s a => LinkSafe s a ∧ Undisturbed t c s a) N)
    (hp : p ≤ N) (hpc : ((run.state p).tcb t).pc = .notify c true) :
    ∃ ws : List Tid, ws.Nodup ∧ (∀ w, w ∈ ws ↔ OnList (run.state p) w (.queue (.cond c))) ∧
      ∀ k, p + k ≤ N → (∀ j, p ≤ j → j ≤ p + k → ((run.state j).tcb t).pc.InNotify c true) →
        (dequeued run t c p k).Sublist ws ∧ (woken run t c p k).Sublist ws ∧
        turns run t p k ≤ 2 * ws.length ∧
        (p + k < N → Emits (run.state (p + k)) (run.state (p + k + 1)) (.notify t c .ok) →
          ∀ w ∈ ws, w ∈ woken run t c p k ∨
            ∃ j, p ≤ j ∧ j < p + k ∧ LeavesItself run c w j) := by
  have hsim := (refines home).mono fun s a _ (h : LinkSafe s a ∧ Undisturbed t c s a) => h.1
  obtain ⟨l, hact, hR⟩ := hsim.run run
  have hon : ∀ j ≤ N, ∀ w, OnList (run.state j) w (.queue (.cond c)) ↔
      w ∈ (l.state j).store (.queue (.cond c)) :=
    fun j hj w => (hR j hj).onList (l.reachable hj) _
  have htcb : ∀ j ≤ N, (l.state j).tcb = (run.state j).tcb := fun j hj => (hR j hj).tcb
  have hplaced : ∀ j ≤ N, Placed (l.state j) := fun j hj => placed_reachable (l.reachable hj)
  refine ⟨(l.state p).store (.queue (.cond c)), (hplaced p hp).linear.nodup _,
    fun w => (hon p hp w).symm, ?_⟩
  intro k hk hin
  have hsweep : Sweep run t c p k ((l.state p).store (.queue (.cond c)))
      ((l.state (p + k)).store (.queue (.cond c))) := by
    induction k with
    | zero =>
      exact ⟨List.Sublist.refl _, by simp [dequeued, woken, hpc, Pc.taken], rfl, fun w hw => .inr (.inl hw)⟩
    | succ k ih =>
      have ih := ih (by omega) fun j hj hjk => hin j hj (by omega)
      have hstep := (l.step (p + k) (by omega)).2
      have hu : Undisturbed t c (l.state (p + k)) (l.act (p + k)) := by
        rw [Undisturbed, htcb _ (by omega), hact]
        exact (run.step (p + k) (by omega)).1.2
      have hin₀ := hin (p + k) (by omega) (by omega)
      have hin₁ := hin (p + k + 1) (by omega) (by omega)
      rw [← htcb _ (by omega)] at hin₀ hin₁
      rcases hstep.sweep hu hin₀ hin₁ with ⟨ha, w, hnotify, hpost, hq⟩ | ⟨ha, w, hpost, hnotify, hq⟩ |
        ⟨ha, hstay, hq⟩
      · rw [hq] at ih
        rw [htcb _ (by omega)] at hnotify hpost
        exact ih.take (hact ▸ ha) hnotify hpost
      · rw [← hq] at ih
        rw [htcb _ (by omega)] at hnotify hpost
        exact ih.post (hact ▸ ha) hpost hnotify
      · rw [htcb _ (by omega), htcb _ (by omega)] at hstay
        refine ih.rest (hact ▸ ha) hstay ?_ fun w hw hw' => ?_
        · rcases hq with hq | ⟨u, -, hq⟩
          · exact hq ▸ List.Sublist.refl _
          · exact hq ▸ List.erase_sublist
        · have hleft : l.act (p + k) = .step w := by
            rcases hq with hq | ⟨u, hu, hq⟩
            · exact absurd (hq ▸ hw) hw'
            · by_cases hwu : w = u
              · rw [hwu, hu]
              · exact absurd (hq ▸ (List.mem_erase_of_ne hwu).mpr hw) hw'
          exact ⟨hact ▸ hleft, (hon _ (by omega) w).mpr hw, mt (hon _ (by omega) w).mp hw'⟩
  have hwoken : (woken run t c p k).Sublist (dequeued run t c p k) := by
    rw [hsweep.posted]
    exact List.sublist_append_left _ _
  have hdequeued := (List.sublist_append_left _ _).trans hsweep.order
  refine ⟨hdequeued, hwoken.trans hdequeued, ?_, fun hkN hemits w hw => ?_⟩
  · have h₁ := hdequeued.length_le
    have h₂ := hwoken.length_le
    rw [hsweep.turns]
    omega
  · have hemits : Emits (l.state (p + k)) (l.state (p + k + 1)) (.notify t c .ok) := by
      rw [Emits, (hR _ hk).log, (hR _ hkN).log]
      exact hemits
    have hin := hin (p + k) (by omega) (Nat.le_refl _)
    rw [← htcb _ hk] at hin
    obtain ⟨hnotify, hempty⟩ := (l.step (p + k) hkN).2.notify_ends hin hemits
    rw [htcb _ hk] at hnotify
    have hposted : dequeued run t c p k = woken run t c p k := by
      simpa [hnotify, Pc.taken] using hsweep.posted
    rcases hsweep.gone w hw with hw | hw | hleft
    · exact .inl (hposted ▸ hw)
    · rw [hempty] at hw
      cases hw
    · exact .inr hleft

/-- A check that implies `Undisturbed`: only `t` makes steps during its call. -/
def aloneInCall (t : Tid) (s : State WaitLinks) : Act → Bool
  | .step u => match (s.tcb t).pc with
    | .notify .. | .post .. => u == t
    | _ => true
  | _ => true

theorem undisturbed_of_aloneInCall (h : aloneInCall t s a = true) :
    Undisturbed t c s a := by
  rintro hpc u rfl hu
  rcases hpc.cases with hpc | ⟨w, hpc⟩
  · simp [aloneInCall, hpc, hu] at h
  · simp [aloneInCall, hpc, hu] at h

theorem broadcast_wakes_waiters_two :
    ∃ home N, ∃ run : Run ((pthSystem home).restrict fun s a => LinkSafe s a ∧ Undisturbed 2 0 s a) N,
      ∃ p k, ∃ ws : List Tid, ws.Nodup ∧ (∀ w, w ∈ ws ↔ OnList (run.state p) w (.queue (.cond 0))) ∧
        woken run 2 0 p k = [1, 3] ∧ (woken run 2 0 p k).Sublist ws ∧ turns run 2 p k ≤ 2 * ws.length := by
  let run := (runOf (fun s a => unbroken s a && aloneInCall 2 s a) .plain (fun _ => 0) 5
    [.dispatch 1, .acquire 1 0 false false, .step 1, .await 1 0 0 false, .step 1, .step 1, .step 1,
      .dispatch 3, .acquire 3 0 false false, .step 3, .await 3 0 0 false, .step 3, .step 3, .step 3,
      .dispatch 2, .notify 2 0 true, .step 2, .step 2, .step 2, .step 2, .step 2] rfl).mono
    (Q := fun s a => LinkSafe s a ∧ Undisturbed 2 0 s a) fun s a hs ha => by
      refine ⟨linkSafe_of_unbroken (fun s a ha => (Bool.and_eq_true_iff.mp ha).1) hs ha, ?_⟩
      exact undisturbed_of_aloneInCall (Bool.and_eq_true_iff.mp ha).2
  obtain ⟨ws, hnodup, hws, hcall⟩ := broadcast_wakes_waiters run (p := 16) (by simp) rfl
  obtain ⟨-, hwoken, hturns, -⟩ := hcall 4 (by simp) fun j hj hj' => by
    interval_cases j <;> exact ⟨rfl, rfl⟩
  exact ⟨_, _, run, 16, 4, ws, hnodup, hws, rfl, hwoken, hturns⟩

/-- Thread 1, on a scheduler of its own, is woken by thread 2 and waits again before
thread 2 looks at the queue again: the same call wakes it a second time. -/
theorem broadcast_wakes_again :
    ∃ home N, ∃ run : Run ((pthSystem home).restrict LinkSafe) N, ∃ p k, p + k ≤ N ∧
      ((run.state p).tcb 2).pc = .notify 0 true ∧
      (∀ w, OnList (run.state p) w (.queue (.cond 0)) ↔ w = 1) ∧
      (∀ j, p ≤ j → j ≤ p + k → ((run.state j).tcb 2).pc.InNotify 0 true) ∧
      dequeued run 2 0 p k = [1, 1] ∧ woken run 2 0 p k = [1, 1] := by
  let run := (runOf unbroken .plain (fun t => t) 5
    [.dispatch 1, .acquire 1 0 false false, .step 1, .await 1 0 0 false, .step 1, .step 1, .step 1,
      .dispatch 2, .notify 2 0 true, .step 2, .step 2,
      .drain 1, .resume 1, .step 1, .step 1, .await 1 0 0 false, .step 1,
      .step 2, .step 2] rfl).mono (Q := LinkSafe) fun s a => linkSafe_of_unbroken fun _ _ ha => ha
  have hhead : ((run.state 9).store.waitq (.cond 0)).head = some 1 := rfl
  have hnext : (run.state 9).store.wqNext 1 = none := rfl
  refine ⟨_, _, run, 9, 10, by simp, rfl, fun w => ⟨fun h => ?_, ?_⟩, fun j hj hj' => ?_,
    by decide +kernel +revert, by decide +kernel +revert⟩
  · rw [OnList, hhead] at h
    cases h with
    | here => rfl
    | there _ _ h =>
      rw [hnext] at h
      cases h
  · rintro rfl
    exact .here 1
  · interval_cases j <;> exact ⟨rfl, rfl⟩

end

end GnuPth
