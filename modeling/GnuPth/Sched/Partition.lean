import GnuPth.Sched.Handlers

/-!
# The queues partition the threads

In a run in which no cleanup handler ends its thread and nobody frees a thread
that another one is still joining, every thread of the scheduler is in exactly
one queue, exactly once, or on the processor, and each queue holds the states
that belong to it.
-/

namespace GnuPth.Sched

open Inbox (Gmsg)
open Placement
open Transition

variable {s : State}

/-! ### Nothing goes wrong -/

theorem Placed.mem_dq (h : Placed True none s) (hb : s.ctl.returning = [])
    (ha : (s.tcb t).alive = true) (hd : (s.tcb t).state = .dead) : t ∈ s.members .dq := by
  obtain hn | ⟨c, hc⟩ := h.complete trivial t ha
  · cases hn
  have hst := (h.admits c t hc).state
  rw [hd] at hst
  cases c with
  | queue n =>
    cases n with
    | dq => exact hc
    | sq => exact absurd rfl hst
    | _ => cases hst
  | back => simp [spots, hb] at hc
  | cleaning => exact absurd rfl hst
  | run => cases hst
  | flight => cases hst

theorem Placed.bury_fault (h : Placed True none s) (hb : s.ctl.returning = [])
    (ha : (s.tcb t).alive = true) (he : Edit t s .bury s') : s'.fault = s.fault :=
  he.bury_fault ha (h.mem_dq hb ha)

theorem Placed.joinEnd_fault (h : Placed True none s) (hb : s.ctl.returning = [])
    (ha : ∀ t, tid = some t → (s.tcb t).alive = true) : (Sched.joinEnd s tid).1.fault = s.fault := by
  rcases (joinEnd_edit : (Sched.joinEnd s tid).1 = s ∨ _) with hs | ⟨t, ht, he⟩
  · rw [hs]
  · refine h.bury_fault hb ?_ he
    cases tid with
    | some u => exact ha t ht
    | none => exact (h.queued (List.mem_of_head? ht)).alive

theorem Placed.calls_fault (h : Placed True none s) (hb : s.ctl.returning = [])
    (hs : Calls s cur o s') : s'.fault = s.fault := by
  cases hs with
  | edits _ he => exact he.fault Op.edits_bury
  | bury ht he =>
    refine h.bury_fault hb ?_ he
    rcases ht with ⟨-, ha⟩ | hdq
    · exact ha
    · exact (h.queued hdq).alive
  | event hn => exact newEvent_fault hn
  | _ => rfl

theorem pthWait_fault : (pthWait s t ring k).fault = s.fault :=
  (SameThreads.markPending s ring).fault

theorem pthDie_fault : (pthDie cfg s t).fault = s.fault := by
  unfold pthDie
  split <;> rfl

/-- The running thread that comes back from the wait of `pth_join` finds its
target not yet freed. -/
def joinTargetKept (s : State) : Bool :=
  match s.ctl with
  | .run cur =>
    match (s.tcb cur).pc with
    | .inWait (.join (some t)) => cancelDue s cur || (s.tcb t).alive
    | _ => true
  | _ => true

theorem Placed.joined_fault (h : Placed True none s) (hc : s.ctl = .run t)
    (hp : (s.tcb t).pc = .inWait (.join tid)) (hd : cancelDue s t = false)
    (hj : joinTargetKept s = true) :
    (Sched.joinEnd (s.setTcb t ({ · with events := [], pc := .app })) tid).1.fault = s.fault := by
  have h₁ : Placed True none (s.setTcb t ({ · with events := [], pc := .app })) :=
    h.setTcb ⟨rfl, rfl, rfl⟩
  refine h₁.joinEnd_fault (by simp [State.setTcb, hc, Ctl.returning]) ?_
  rintro u rfl
  have ha : (s.tcb u).alive = true := by simpa [joinTargetKept, hc, hp, hd] using hj
  by_cases hu : u = t
  · subst hu
    simpa [State.setTcb] using ha
  · simpa [State.setTcb, hu] using ha

theorem Placed.call_fault (h : Placed True none s) (hr : s.cleaning ≠ [] → s.ctl.returning = [])
    (hj : joinTargetKept s = true) (hs : CallStep cfg s o s') : s'.fault = s.fault := by
  cases hs with
  | calls hc _ hcalls =>
    refine h.calls_fault ?_ hcalls
    by_cases hcl : s.cleaning = []
    · cases hctl : s.ctl <;> simp [State.current, hcl, hctl, Ctl.returning] at hc ⊢
    · exact hr hcl
  | wait => exact pthWait_fault
  | join _ _ hn => exact pthWait_fault.trans (newEvent_fault hn)
  | yield _ _ _ he =>
    have hf := he.fault (by simp)
    exact hf
  | exitWait _ _ _ ha _ hn =>
    exact pthWait_fault.trans ((newEvent_fault hn).trans ha.outside.fault)
  | exit _ _ ha => exact ha.outside.fault
  | die => exact pthDie_fault
  | joined hr hp hd => exact h.joined_fault hr.ctl hp hd hj
  | exitReturned => exact (SameThreads.freeEvents _ _).fault
  | handlerDied _ _ ha => exact pthDie_fault.trans ha.outside.fault
  | _ => rfl

/-! ### The scheduler -/

theorem schedule_fault : (schedule cfg s).fault = s.fault := by
  unfold schedule
  dsimp only
  split
  · exact (SameOutside.promoteNew _).fault
  · repeat' split
    all_goals exact (SameOutside.promoteNew _).fault

theorem comeBack_fault : (comeBack cfg s t).fault = s.fault := by
  unfold comeBack
  dsimp only
  repeat' split
  all_goals exact SameOutside.putBack.fault

def reapsDead (s : State) (m : Gmsg) : Bool :=
  match m.kind, m.thread with
  | .reap, some t => s.contains .dq t
  | _, _ => true

theorem Placed.drainMsg_fault (h : Placed True none s) (hb : s.ctl.returning = [])
    (hm : reapsDead s m = true) : (Sched.drainMsg s m).fault = s.fault := by
  have hd := drainMsg_drains s m
  generalize Sched.drainMsg s m = s' at hd ⊢
  cases hd with
  | @reap t hk ht =>
    have hq : t ∈ s.members .dq := mem_of_contains (by simpa [reapsDead, hk, ht] using hm)
    exact reap_fault (h.queued hq).alive hq
  | bury _ hq he =>
    obtain ⟨n, hn⟩ := hq
    exact h.bury_fault hb (h.queued hn).alive he
  | edits _ he => exact he.fault msgEdits_bury
  | _ => rfl

theorem Placed.drainFirst_fault (h : Placed True none s)
    (hm : s.ctl.batch = m :: ms) (hr : k.running = s.ctl.running) (hb : k.returning = s.ctl.returning)
    (hk : k.batch = ms) (hback : k.returning = []) (hreap : reapsDead s m = true) :
    (Sched.drainMsg { s with ctl := k } m).fault = s.fault := by
  cases hsp : spawnOf m with
  | none => exact (h.skipFirst hm hr hb hk hsp).drainMsg_fault hback hreap
  | some t =>
    rw [drainMsg_spawn hsp]
    rfl

/-- No cleanup handler ends the thread it runs for, and no thread is freed under
another one's hands. -/
def orderly (s : State) : Act → Bool
  | .op o => !exitsInHandler s o && joinTargetKept s
  | .msg => s.ctl.batch.head?.all (reapsDead s)
  | _ => true

theorem orderly_op (h : orderly s (.op o) = true) :
    exitsInHandler s o = false ∧ joinTargetKept s = true := by
  simpa [orderly] using h

theorem handlersReturn_of_orderly (h : orderly s a = true) : HandlersReturn s a := by
  cases a with
  | op o => exact (orderly_op h).1
  | _ => trivial

theorem Placed.step_fault (h : Placed True none s) (hr : s.cleaning ≠ [] → s.ctl.returning = [])
    (ho : orderly s a = true) (hs : exec cfg s a = some s') : s'.fault = s.fault := by
  obtain ⟨o, rfl, hst⟩ | ⟨hop, hst⟩ := exec_cases hs
  · exact h.call_fault hr (orderly_op ho).2 hst
  cases hst with
  | cleaned => exact cancelDone_fault
  | sched => exact schedule_fault
  | back => exact comeBack_fault
  | msg _ hc | remsg _ hc =>
    exact h.drainFirst_fault (by rw [hc]; rfl) (by rw [hc]; rfl) (by rw [hc]; rfl) rfl rfl
      (by simpa [orderly, hc, Ctl.batch] using ho)
  | scan => exact SameThreads.scanQueue.fault
  | finish => exact SameOutside.cleanupLoop.fault.trans (SameThreads.timerBranch (s := s)).fault
  | post | spawnOn | tick | take | retake | drained | redrained | woken => rfl
  | _ => exact absurd rfl (hop _)

/-! ### The partition -/

/-- All the places of a thread that the scheduler has adopted: its five queues,
and the processor with the way back from it and the cancellations under way. -/
def places (s : State) : List Tid :=
  s.members .nq ++ s.members .rq ++ s.members .wq ++ s.members .sq ++ s.members .dq ++
    s.ctl.running ++ s.ctl.returning ++ s.cleaning

structure Partitioned (s : State) : Prop where
  once : ∀ t, (s.tcb t).alive = true → (s.tcb t).adopted = true → (places s).count t = 1
  nq : ∀ t ∈ s.members .nq, (s.tcb t).state = .new
  rq : ∀ t ∈ s.members .rq, (s.tcb t).state = .ready
  wq : ∀ t ∈ s.members .wq, (s.tcb t).state = .waiting
  sq : ∀ t ∈ s.members .sq, (s.tcb t).state = .new ∨ (s.tcb t).state = .ready ∨ (s.tcb t).state = .waiting
  dq : ∀ t ∈ s.members .dq, (s.tcb t).state = .dead

def adoptedSpots : List Spot :=
  [.queue .nq, .queue .rq, .queue .wq, .queue .sq, .queue .dq, .run, .back, .cleaning]

theorem places_eq : places s = adoptedSpots.flatMap (spots s) := by
  simp [places, adoptedSpots, spots]

theorem Spot.mem_adoptedSpots (h : c ≠ .flight) : c ∈ adoptedSpots := by
  cases c with
  | queue n => cases n <;> decide
  | flight => exact absurd rfl h
  | _ => decide

theorem Placed.partitioned (h : Placed True none s) : Partitioned s where
  once t ha hd := by
    rw [places_eq]
    refine List.count_eq_one_of_mem (h.linear.nodup_flatMap (by decide)) ?_
    obtain hn | ⟨c, hc⟩ := h.complete trivial t ha
    · cases hn
    · exact List.mem_flatMap.mpr ⟨c, Spot.mem_adoptedSpots ((h.admits c t hc).adopted.mp hd), hc⟩
  nq t ht := (h.queued ht).state
  rq t ht := (h.queued ht).state
  wq t ht := (h.queued ht).state
  sq t ht := by
    have hne : (s.tcb t).state ≠ .dead := (h.queued ht).state
    cases hst : (s.tcb t).state <;> simp [hst] at hne ⊢
  dq t ht := (h.queued ht).state

def orderlySystem (cfg : Config) : System State Act :=
  (system cfg).restrict fun s a => orderly s a = true

structure Sound (s : State) : Prop where
  fault : s.fault = false
  placed : s.ctl = .exited ∨ Placed True none s
  hosted : Hosted s

theorem Sound.step (h : Sound s) (ho : orderly s a = true) (hs : exec cfg s a = some s') :
    Sound s' := by
  obtain hx | hp := h.placed
  · simp [exec, hx] at hs
  · refine ⟨?_, hp.step hs fun _ => handlersReturn_of_orderly ho, h.hosted.step hs⟩
    exact (hp.step_fault h.hosted.returning ho hs).trans h.fault

theorem sound_of_reachable (h : Reachable (orderlySystem cfg) s) : Sound s := by
  refine h.invariant (I := Sound) ?_ ?_
  · intro s hi
    exact ⟨hi.fault, .inr (Initial.placed hi), .inl hi.cleaning⟩
  · intro s a s' hI hs
    exact hI.step hs.1 hs.2

/-- In every orderly run the queues partition the threads, in every state up to
the end of the process. -/
theorem queues_partition (h : Reachable (orderlySystem cfg) s) :
    s.fault = false ∧ (s.ctl ≠ .exited → Partitioned s) :=
  have hI := sound_of_reachable h
  ⟨hI.fault, fun hx => (hI.placed.resolve_left hx).partitioned⟩

def joinSchedule : List Act :=
  [.sched, .op (.spawn 1 asyncAttr), .op (.spawn 2 asyncAttr), .op (.join (some 1) 10), .back] ++
    idlePass ++ [.sched, .op (.exit 12 ⟨0, 0⟩), .op .die, .back] ++ idlePass ++
    [.sched, .op (.yield none), .back] ++ idlePass ++ [.sched, .op (.waitReturn 12 ⟨0, 0⟩)]

theorem queues_partition_joinSchedule :
    ∃ s, Reachable (orderlySystem pollConfig) s ∧ (s.ctl = .run 0 ∧ s.members .rq = [2] ∧
      (s.tcb 1).alive = false) ∧ s.fault = false ∧ Partitioned s := by
  obtain ⟨s, hs, hp⟩ := exists_reachable pollConfig orderly
    (P := fun s => s.ctl = .run 0 ∧ s.members .rq = [2] ∧ (s.tcb 1).alive = false) asyncAttr
    joinSchedule (by decide +kernel)
  obtain ⟨hf, hpart⟩ := queues_partition hs
  exact ⟨s, hs, hp, hf, hpart (by simp [hp.1])⟩

/-- The main thread cancels a thread whose cleanup handler contains a
cancellation point. -/
def cancelSchedule : List Act :=
  [.sched, .op (.spawn 1 asyncAttr), .op (.yield none), .back] ++ idlePass ++
    [.sched, .op (.yield none), .back] ++ idlePass ++
    [.sched, .op (.cancel 1), .op (.cancelPoint 12 ⟨0, 0⟩)]

/-- Two threads join a third one, which then ends. -/
def twoJoinersSchedule : List Act :=
  [.sched, .op (.spawn 1 asyncAttr), .op (.spawn 2 asyncAttr), .op (.join (some 2) 10), .back] ++
    idlePass ++ [.sched, .op (.join (some 2) 11), .back] ++ idlePass ++
    [.sched, .op (.exit 12 ⟨0, 0⟩), .op .die, .back] ++ idlePass ++
    [.sched, .op (.waitReturn 12 ⟨0, 0⟩), .op (.yield none), .back] ++ idlePass ++
    [.sched, .op (.waitReturn 12 ⟨0, 0⟩)]

/-- The thread that called `pth_cancel` is in no queue and does not run: the
handler's `pth_exit` went to the scheduler in the name of the cancelled thread.
And the second joiner takes a freed thread out of the dead queue. -/
theorem queues_not_partition :
    (∃ s, Reachable (system pollConfig) s ∧ s.fault = false ∧ s.ctl = .back 1 ∧
      (s.tcb 0).alive = true ∧ (s.tcb 0).adopted = true ∧ (s.tcb 0).state = .ready ∧
      (places s).count 0 = 0) ∧
    ∃ s, Reachable (system pollConfig) s ∧ s.fault = true := by
  constructor
  · exact exists_state pollConfig asyncAttr cancelSchedule (by decide +kernel)
  · exact exists_state pollConfig asyncAttr twoJoinersSchedule (by decide +kernel)

end GnuPth.Sched
