import GnuPth.Sched.Moves

/-!
# The dead queue

Whether a thread can be joined is looked at when it dies. The attribute can be
changed at any later time, by `pth_attr_set` or `pthread_detach`, which look at
no queue: a dead thread that is detached stays in the dead queue, and neither
`pth_join` nor `pth_abort` takes it out again.
-/

namespace GnuPth.Sched

open Function (update)
open Inbox (Gmsg)
open Transition

/-! ### Changing the attribute -/

/-- `pth_attr_set(a, PTH_ATTR_JOINABLE, joinable)` on the attributes of a thread. -/
def attrSetJoinable (s : State) (t : Tid) (joinable : Bool) : State :=
  s.setTcb t ({ · with joinable })

def pthreadDetach (s : State) (t : Tid) : State := attrSetJoinable s t false

/-- The scheduler, with threads of any scheduler changing the attribute. -/
inductive AttrAct
  | base (a : Act)
  | setJoinable (t : Tid) (joinable : Bool)
  | detach (t : Tid)

def attrExec (cfg : Config) (s : State) : AttrAct → Option State
  | .base a => exec cfg s a
  | .setJoinable t joinable =>
    if s.fault ∨ s.ctl = .exited then none
    else if (s.tcb t).alive then some (attrSetJoinable s t joinable) else none
  | .detach t =>
    if s.fault ∨ s.ctl = .exited then none
    else if (s.tcb t).alive then some (pthreadDetach s t) else none

def attrSystem (cfg : Config) : System State AttrAct where
  init := Initial cfg
  step s a s' := attrExec cfg s a = some s'

/-- A thread is detached before it has got into the dead queue. -/
def timely (s : State) : AttrAct → Bool
  | .setJoinable t joinable => joinable || !s.contains .dq t
  | .detach t => !s.contains .dq t
  | .base _ => true

/-! ### Threads that can be joined -/

/-- `pth_join` accepts every thread of the dead queue. -/
def Reclaimable (s : State) : Prop := ∀ t ∈ s.members .dq, (s.tcb t).joinable = true

variable {s : State}

theorem Reclaimable.of_subset (h : Reclaimable s) (hdq : s'.members .dq ⊆ s.members .dq)
    (hj : ∀ u ∈ s.members .dq, (s'.tcb u).joinable = (s.tcb u).joinable) : Reclaimable s' :=
  fun u hu => (hj u (hdq hu)).trans (h u (hdq hu))

theorem Reclaimable.same (h : Reclaimable s) (hs : SameThreads s s') : Reclaimable s' := by
  intro u hu
  rw [hs.tcb]
  refine h u ?_
  rwa [State.members, hs.queue] at hu

theorem Reclaimable.setTcb (h : Reclaimable s)
    (hf : t ∈ s.members .dq → (f (s.tcb t)).joinable = (s.tcb t).joinable) :
    Reclaimable (s.setTcb t f) := by
  refine h.of_subset (fun _ hu => hu) fun u hu => ?_
  by_cases hut : u = t
  · subst hut
    rw [setTcb_self, hf hu]
  · rw [setTcb_of_ne hut]

theorem Reclaimable.dequeue (h : Reclaimable s) : Reclaimable (s.dequeue n t) :=
  h.of_subset members_dequeue_subset fun _ _ => rfl

theorem Reclaimable.enqueue (h : Reclaimable s)
    (ht : n = .dq → (s.tcb t).joinable = true) : Reclaimable (s.enqueue n prio t) := by
  intro u hu
  rcases mem_members_enqueue.mp hu with ⟨hn, rfl⟩ | hu
  · exact ht hn.symm
  · exact h u hu

theorem Reclaimable.queue (h : Reclaimable s) (hn : n ≠ .dq) :
    Reclaimable { s with queue := update s.queue n q } := by
  refine h.of_subset (fun u hu => ?_) fun _ _ => rfl
  rwa [members_update, if_neg hn.symm] at hu

theorem Reclaimable.touches (h : Reclaimable s) (ht : Touches entering t s s')
    (hj : t ∈ s.members .dq → (s'.tcb t).joinable = (s.tcb t).joinable) : Reclaimable s' := by
  refine h.of_subset (fun u hu => ?_) fun u hu => ?_
  · by_cases hut : u = t
    · subst hut
      exact ht.dq hu
    · exact (ht.members u .dq hut).mp hu
  · by_cases hut : u = t
    · subst hut
      exact hj hu
    · rw [ht.tcb u hut]

/-! ### What threads do to threads -/

theorem Reclaimable.destroyEvents (h : Reclaimable s) : Reclaimable (destroyEvents s t) :=
  h.of_subset (fun _ hu => hu) fun _ _ => rfl

theorem Reclaimable.tcbFree (h : Reclaimable s) : Reclaimable (tcbFree s t) := h.setTcb fun _ => rfl

theorem Reclaimable.cancelDone (h : Reclaimable s) : Reclaimable (cancelDone s t) := by
  unfold Sched.cancelDone
  dsimp only
  split
  · exact h.destroyEvents.tcbFree
  · rename_i hj
    refine (h.destroyEvents.setTcb fun _ => rfl).enqueue fun _ => ?_
    rw [setTcb_self]
    exact not_not.mp hj

theorem Reclaimable.reap (h : Reclaimable s) : Reclaimable (reap s t) := by
  unfold Sched.reap
  split
  · exact h.dequeue.tcbFree
  · exact h

theorem Reclaimable.edit (h : Reclaimable s) (he : Edit t s k s')
    (hd : k = .force → t ∈ s.members .dq → (s.tcb t).state = .dead) : Reclaimable s' := by
  cases he with
  | suspend | clean | lose => exact h.dequeue
  | resume hq => exact h.dequeue.enqueue fun hn => absurd hn (Qname.ofState_ne_dq hq)
  | favor hq =>
    have ht : Touches False t s (favorite s _ t) := .favorite (favorQueue_mem hq)
    exact h.touches ht fun _ => rfl
  | mark => exact h.setTcb fun _ => rfl
  | force hf => exact h.setTcb fun ht => absurd ⟨hd rfl ht, h t ht⟩ hf
  | bury => exact h.reap
  | blame => exact h

theorem Placed.dead_of_mem_dq (hp : Placed full hand s)
    (ht : t ∈ s.members .dq) : (s.tcb t).state = .dead :=
  (hp.queued ht).state

theorem Reclaimable.edits (h : Reclaimable s) (hp : Placed full none s)
    (he : Edits t ks s s') : Reclaimable s' := by
  refine (he.rule (P := fun s => Reclaimable s ∧ Placed full none s) ⟨h, hp⟩ fun _ he h => ?_).1
  exact ⟨h.1.edit he fun _ => h.2.dead_of_mem_dq, h.2.edit he⟩

theorem Reclaimable.joinEnd (h : Reclaimable s) :
    Reclaimable (joinEnd s tid).1 := by
  rcases (joinEnd_edit : (Sched.joinEnd s tid).1 = s ∨ _) with hs | ⟨t, -, he⟩
  · rw [hs]
    exact h
  · exact h.edit he nofun

/-! ### Calls -/

theorem Reclaimable.newTcb (h : Reclaimable s) (hp : Placed full none s)
    (ht : (s.tcb t).alive = false) : Reclaimable (s.setTcb t fun _ => b) := by
  refine h.setTcb fun hd => ?_
  rw [(hp.queued hd).alive] at ht
  cases ht

theorem Reclaimable.calls (h : Reclaimable s) (hp : Placed full none s)
    (hs : Calls s cur o s') : Reclaimable s' := by
  cases hs with
  | same => exact h
  | edits _ he => exact h.edits hp he
  | bury _ he => exact h.edit he nofun
  | spawn ht => exact (h.newTcb hp ht).enqueue nofun
  | event hn => exact h.same (.newEvent hn)
  | eventFree => exact h.same .setEvent
  | cancelState => exact h.setTcb fun _ => rfl

theorem Reclaimable.pthWait (h : Reclaimable s) :
    Reclaimable (pthWait s t ring k) := by
  have h₁ : Reclaimable ((markPending s ring).setTcb t
      ({ · with events := ring, state := .waiting, pc := .inWait k })) :=
    (h.same (.markPending s ring)).setTcb fun _ => rfl
  exact h₁

theorem Reclaimable.pthDie (h : Reclaimable s) : Reclaimable (pthDie cfg s t) := by
  have h₁ : Reclaimable
      ((Sched.destroyEvents s t).setTcb t ({ · with state := .dead, joinArg := .exit })) :=
    h.destroyEvents.setTcb fun _ => rfl
  unfold Sched.pthDie
  split
  · exact h
  · exact h₁

theorem Reclaimable.acked (h : Reclaimable s) (ha : Acked s t s₁) : Reclaimable s₁ := by
  cases ha with
  | none => exact h
  | due => exact h.setTcb fun _ => rfl

theorem Reclaimable.call (h : Reclaimable s) (hp : Placed full none s)
    (hs : CallStep cfg s o s') : Reclaimable s' := by
  cases hs with
  | calls _ _ hc => exact h.calls hp hc
  | wait => exact h.pthWait
  | join _ _ hn => exact (h.same (.newEvent hn)).pthWait
  | yield _ _ _ he =>
    have h₁ := h.edits hp he
    exact h₁
  | exitWait _ _ _ ha _ hn => exact ((h.acked ha).same (.newEvent hn)).pthWait
  | exit _ _ ha => exact (h.acked ha).setTcb fun _ => rfl
  | ack | returned => exact h.setTcb fun _ => rfl
  | die => exact h.pthDie
  | joined => exact Reclaimable.joinEnd (h.setTcb fun _ => rfl)
  | exitReturned =>
    exact ((h.setTcb fun _ => rfl).same (.freeEvents _ _)).setTcb fun _ => rfl
  | @handlerDied cur _ _ s₁ _ _ ha =>
    have h₁ : Reclaimable (Sched.pthDie cfg s₁ cur) := (h.acked ha).pthDie
    exact h₁

/-! ### The scheduler -/

theorem Reclaimable.promoteNew (h : Reclaimable s) (k : Nat) :
    Reclaimable (promoteNew cfg k s) := by
  induction k generalizing s with
  | zero => exact h
  | succ k ih =>
    unfold Sched.promoteNew
    split
    · exact h
    · exact ih ((h.dequeue.setTcb fun _ => rfl).enqueue nofun)

theorem Reclaimable.schedule (h : Reclaimable s) : Reclaimable (schedule cfg s) := by
  have h₁ : Reclaimable (Sched.promoteNew cfg (s.elements .nq) s) := h.promoteNew _
  unfold Sched.schedule
  dsimp only
  split
  · exact h₁.queue nofun
  · split
    · exact h₁
    · split <;> exact h₁

theorem Reclaimable.putBack (h : Reclaimable s) : Reclaimable (putBack s t) := by
  unfold Sched.putBack
  split
  · refine Reclaimable.queue ?_ nofun
    split
    · rename_i hj
      exact h.enqueue fun _ => hj
    · exact h.tcbFree
  · exact (h.enqueue (n := .wq) nofun).queue nofun
  · exact (h.queue (n := .rq) nofun).enqueue nofun

theorem Reclaimable.comeBack (h : Reclaimable s) : Reclaimable (comeBack cfg s t) := by
  have h₁ : Reclaimable (Sched.putBack s t) := h.putBack
  unfold Sched.comeBack
  dsimp only
  split
  · split <;> exact h₁
  · exact h₁

theorem Reclaimable.adopt (h : Reclaimable s) : Reclaimable (adopt s t) := by
  have h₁ : Reclaimable { s with adoptions := s.adoptions ++ [t] } := h
  exact (h₁.setTcb fun _ => rfl).enqueue nofun

theorem Reclaimable.drainMsg (h : Reclaimable s)
    (hp : spawnOf m = none → Placed full none s) : Reclaimable (drainMsg s m) := by
  cases hsp : spawnOf m with
  | some =>
    rw [drainMsg_spawn hsp]
    exact h.adopt
  | none =>
    have hd := drainMsg_drains s m
    generalize Sched.drainMsg s m = s' at hd ⊢
    cases hd with
    | same | stop => exact h
    | wake => exact h.same .setEvent
    | spawn => exact h.adopt
    | reap => exact h.reap
    | bury _ _ he => exact h.edit he nofun
    | edits _ he => exact h.edits (hp hsp) he

theorem Reclaimable.drainFirst (h : Reclaimable s)
    (hp : Placed full none s) (hm : s.ctl.batch = m :: ms) (hr : k.running = s.ctl.running)
    (hb : k.returning = s.ctl.returning) (hk : k.batch = ms) :
    Reclaimable (Sched.drainMsg { s with ctl := k } m) := by
  have h₁ : Reclaimable { s with ctl := k } := h
  exact h₁.drainMsg fun hsp => hp.skipFirst hm hr hb hk hsp

theorem Reclaimable.cleanupThread (h : Reclaimable s) (t : Tid) :
    Reclaimable (cleanupThread late s t) := by
  have h₁ : Reclaimable ((s.tcb t).events.foldl (lateEvent late) s) :=
    h.same (.foldl SameThreads.lateEvent _ _)
  unfold Sched.cleanupThread
  dsimp only
  split
  · exact (h₁.dequeue.setTcb fun _ => rfl).enqueue nofun
  · exact h₁

theorem Reclaimable.cleanupLoop (h : Reclaimable s) :
    Reclaimable (cleanupLoop late s) := by
  have hfold (l : List Tid) (s : State) (h : Reclaimable s) :
      Reclaimable (l.foldl (Sched.cleanupThread late) s) := by
    induction l generalizing s with
    | nil => exact h
    | cons t l ih => exact ih _ (h.cleanupThread t)
  exact hfold _ s h

theorem Reclaimable.exec (h : Reclaimable s) (hp : Placed full none s)
    (hs : exec cfg s a = some s') : Reclaimable s' := by
  obtain ⟨o, rfl, hst⟩ | ⟨hop, hst⟩ := exec_cases hs
  · exact h.call hp hst
  cases hst with
  | @cleaned _ rest =>
    have h₁ : Reclaimable { s with cleaning := rest } := h
    exact h₁.cancelDone
  | spawnOn ht => exact h.newTcb hp ht
  | sched => exact h.schedule
  | back => exact h.comeBack
  | msg _ hc | remsg _ hc =>
    exact h.drainFirst hp (by rw [hc]; rfl) (by rw [hc]; rfl) (by rw [hc]; rfl) rfl
  | @scan _ now fires =>
    have h₁ : Reclaimable (scanQueue s now fires).state := h.same .scanQueue
    exact h₁
  | @finish dopoll timer rc0 late =>
    have h₁ : Reclaimable (Sched.cleanupLoop late (timerBranch s dopoll timer rc0).1) :=
      (h.same .timerBranch).cleanupLoop
    exact h₁
  | post | tick | take | retake | drained | redrained | woken => exact h
  | _ => exact absurd rfl (hop _)

/-! ### Every run -/

theorem Reclaimable.attrSetJoinable (h : Reclaimable s)
    (ht : joinable = true ∨ t ∉ s.members .dq) : Reclaimable (attrSetJoinable s t joinable) := by
  refine h.setTcb fun hd => ?_
  rcases ht with rfl | hn
  · exact (h t hd).symm
  · exact absurd hd hn

theorem Placed.attrSetJoinable (hp : Placed full hand s) :
    Placed full hand (attrSetJoinable s t joinable) :=
  hp.setTcb ⟨rfl, rfl, rfl⟩

theorem not_contains (h : (!s.contains n t) = true) : t ∉ s.members n := fun ht => by
  rw [State.contains, Pqueue.contains_iff.mpr ht] at h
  cases h

theorem Reclaimable.attrExec (h : Reclaimable s) (hp : Placed full none s)
    (ht : timely s a = true) (hs : attrExec cfg s a = some s') (hf : ¬full) :
    Reclaimable s' ∧ (s'.ctl = .exited ∨ Placed full none s') := by
  cases a with
  | base => exact ⟨h.exec hp hs, hp.step hs fun hfull => absurd hfull hf⟩
  | setJoinable =>
    simp only [Sched.attrExec] at hs
    split at hs
    · cases hs
    split at hs <;> cases hs
    refine ⟨h.attrSetJoinable ?_, .inr hp.attrSetJoinable⟩
    exact (Bool.or_eq_true _ _ ▸ ht : _ ∨ _).imp_right not_contains
  | detach =>
    simp only [Sched.attrExec] at hs
    split at hs
    · cases hs
    split at hs <;> cases hs
    exact ⟨h.attrSetJoinable (.inr (not_contains ht)), .inr hp.attrSetJoinable⟩

/-- In every run in which threads are detached in time, every thread of the dead
queue can be joined. -/
theorem dead_joinable (h : Reachable ((attrSystem cfg).restrict fun s a => timely s a = true) s) :
    ∀ t ∈ s.members .dq, (s.tcb t).joinable = true := by
  have hI := h.invariant
    (I := fun s => Reclaimable s ∧ (s.ctl = .exited ∨ Placed False none s)) ?_ ?_
  · exact hI.1
  · intro s hi
    refine ⟨fun t ht => ?_, .inr ((Initial.placed hi).mono False.elim)⟩
    rw [State.members, hi.queues .dq (by rintro ⟨⟩)] at ht
    cases ht
  · rintro s a s' ⟨hr, hx | hp⟩ ⟨ht, hs⟩
    · have hnone : attrExec cfg s a = none := by
        cases a <;> simp [attrExec, exec, hx]
      cases hnone.symm.trans hs
    · exact hr.attrExec hp ht hs id

def endSchedule : List Act :=
  [.sched, .op (.spawn 1 asyncAttr), .op (.yield none), .back] ++ idlePass ++
    [.sched, .op (.exit 12 ⟨0, 0⟩), .op .die, .back] ++ idlePass ++ [.sched]

theorem dead_joinable_ended :
    ∃ s, Reachable ((attrSystem pollConfig).restrict fun s a => timely s a = true) s ∧
      s.members .dq = [1] ∧ (s.tcb 1).joinable = true := by
  have hrun : ((endSchedule.map .base).foldlM (stepIf timely (attrExec pollConfig))
      (boot (some 0) asyncAttr)).any (fun s => decide (s.members .dq = [1])) = true := by decide +kernel
  obtain ⟨s, hs, hdq⟩ :=
    exists_reachable_restrict (S := attrSystem pollConfig) (fun _ _ _ h => h) boot_initial hrun
  exact ⟨s, hs, hdq, dead_joinable hs 1 (by simp [hdq])⟩

/-- A thread that is detached after it has died stays in the dead queue, and
`pth_join` refuses it. -/
theorem dead_detached :
    ∃ s, Reachable (attrSystem pollConfig) s ∧ s.members .dq = [1] ∧
      (s.tcb 1).joinable = false ∧ joinCheck s 0 (some 1) = some .EINVAL :=
  have hi : Initial pollConfig (boot (some 0) asyncAttr) := boot_initial
  exists_reachable_foldlM (fun _ _ _ h => h) hi (endSchedule.map .base ++ [.detach 1]) (by decide +kernel)

end GnuPth.Sched
