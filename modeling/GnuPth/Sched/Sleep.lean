import GnuPth.Sched.Handlers

/-!
# The event manager does not sleep over finished work

A thread of the waiting queue is finished when one of its events has occurred
or failed, or a cancellation is requested. The scan looks only at events that
are still pending, so whether a pass may block depends on what the waiting
queue looks like before it: everybody in it has to be settled. A pass leaves
the queue so, and every call keeps it so, except that `pth_resume` can put a
thread back whose event occurred while it was suspended.
-/

namespace GnuPth.Sched

open Inbox (Gmsg)
open Transition

variable {s : State}

def settled (s : State) (t : Tid) : Bool :=
  (s.tcb t).cancelreq || (s.tcb t).events.all fun e => (s.event e).status = .pending

def Quiet (s : State) : Prop := ∀ t ∈ s.members .wq, settled s t = true

theorem settled_iff :
    settled s t = true ↔
      (s.tcb t).cancelreq = true ∨ ∀ e ∈ (s.tcb t).events, (s.event e).status = .pending := by
  simp [settled]

theorem settled_of_ring (h : ∀ e ∈ (s.tcb t).events, (s.event e).status = .pending) :
    settled s t = true :=
  settled_iff.mpr (.inr h)

theorem settled_mono (he : ∀ e, (s.event e).status = .pending → (s'.event e).status = .pending)
    (hv : (s'.tcb t).events = (s.tcb t).events)
    (hr : (s.tcb t).cancelreq = true → (s'.tcb t).cancelreq = true) (h : settled s t = true) :
    settled s' t = true := by
  rcases settled_iff.mp h with h | h
  · exact settled_iff.mpr (.inl (hr h))
  · refine settled_of_ring fun e hm => he e (h e ?_)
    rwa [← hv]

theorem settled_congr (ht : s'.tcb t = s.tcb t) (he : s'.event = s.event) :
    settled s' t = settled s t := by
  unfold settled
  rw [ht, he]

theorem anyOccurred_congr (ht : s'.tcb t = s.tcb t) (he : s'.event = s.event) :
    anyOccurred s' t = anyOccurred s t := by
  unfold anyOccurred
  rw [ht, he]

theorem Quiet.congr (h : Quiet s) (ht : s'.tcb = s.tcb) (he : s'.event = s.event)
    (hq : s'.queue = s.queue) : Quiet s' := by
  intro t hm
  rw [settled_congr (congrFun ht t) he]
  exact h t (by simpa [State.members, hq] using hm)

theorem anyOccurred_iff :
    anyOccurred s t = true ↔
      (∃ e ∈ (s.tcb t).events, (s.event e).status ≠ .pending) ∨ (s.tcb t).cancelreq = true := by
  simp [anyOccurred]

theorem anyOccurred_false (h : settled s t = true) (hc : (s.tcb t).cancelreq = false) :
    anyOccurred s t = false := by
  rcases settled_iff.mp h with h | h
  · simp [hc] at h
  · simpa [anyOccurred, hc] using h

theorem anyOccurred_mono (he : ∀ e, (s.event e).status ≠ .pending → (s'.event e).status ≠ .pending)
    (hv : (s'.tcb t).events = (s.tcb t).events)
    (hr : (s.tcb t).cancelreq = true → (s'.tcb t).cancelreq = true) (h : anyOccurred s t = true) :
    anyOccurred s' t = true := by
  rcases anyOccurred_iff.mp h with ⟨e, hm, hs⟩ | h
  · exact anyOccurred_iff.mpr (.inl ⟨e, hv ▸ hm, he e hs⟩)
  · exact anyOccurred_iff.mpr (.inr (hr h))

/-! ### Calls -/

theorem Quiet.events (h : Quiet s)
    (he : ∀ e, (s.event e).status = .pending → (s'.event e).status = .pending)
    (ht : s'.tcb = s.tcb) (hq : s'.queue = s.queue) : Quiet s' := by
  intro t hm
  refine settled_mono he (by rw [ht]) (by rw [ht]; exact id) (h t ?_)
  simpa [State.members, hq] using hm

theorem Quiet.touch (hq : Quiet s) (h : Touches entering t s s')
    (ht : entering → settled s t = true) : Quiet s' := by
  have hset : ∀ u, settled s u = true → settled s' u = true := by
    intro u
    exact settled_mono (by rw [h.event]; exact fun _ => id) h.events_eq h.cancelreq_mono
  intro u hu
  by_cases hut : u = t
  · subst hut
    exact hset u ((h.wq hu).elim (hq u) ht)
  · exact hset u (hq u ((h.members u .wq hut).mp hu))

theorem Quiet.of_tcb (hq : Quiet s) (ht : t ∉ s.members .wq) (hb : ∀ u, u ≠ t → s'.tcb u = s.tcb u)
    (he : s'.event = s.event) (hqu : s'.queue = s.queue) : Quiet s' := by
  intro u hu
  have hm : u ∈ s.members .wq := by simpa [State.members, hqu] using hu
  rw [settled_congr (hb u fun hut => ht (hut ▸ hm)) he]
  exact hq u hm

theorem Quiet.setTcb (hq : Quiet s) (ht : t ∉ s.members .wq) : Quiet (s.setTcb t f) :=
  hq.of_tcb ht (fun u hu => by simp [State.setTcb, hu]) rfl rfl

theorem Quiet.enqueue (hq : Quiet s) (ht : n = .wq → settled s t = true) :
    Quiet (s.enqueue n prio t) := by
  intro u hu
  rcases mem_members_enqueue.mp hu with ⟨hn, rfl⟩ | hu
  · exact ht hn.symm
  · exact hq u hu

theorem Quiet.dequeue (hq : Quiet s) : Quiet (s.dequeue n t) :=
  fun u hu => hq u (members_dequeue_subset hu)

variable {l : List EventId}

theorem setEvent_status (hf : (s.event e).status = .pending → (f (s.event e)).status = .pending)
    (h : (s.event e').status = .pending) : ((s.setEvent e f).event e').status = .pending := by
  simp only [State.setEvent, Function.update_apply]
  split
  · rename_i heq
    exact hf (heq ▸ h)
  · exact h

theorem Quiet.setEvent (hq : Quiet s)
    (hf : (s.event e).status = .pending → (f (s.event e)).status = .pending) :
    Quiet (s.setEvent e f) :=
  hq.events (fun _ => setEvent_status hf) rfl rfl

theorem Quiet.destroyEvents (hq : Quiet s) : Quiet (destroyEvents s t) := by
  refine hq.events (fun e he => ?_) rfl rfl
  simp only [Sched.destroyEvents]
  split <;> exact he

theorem Quiet.returns (hq : Quiet s) (h : Returns s cur o s') (hcur : cur ∉ s.members .wq)
    (hwq : ∀ t ∈ s.members .wq, (s.tcb t).alive = true)
    (hres : ∀ t, o = .resume t → (s.tcb t).state = .waiting → settled s t = true) : Quiet s' := by
  cases h with
  | same => exact hq
  | touch _ _ h => exact hq.touch h False.elim
  | resume _ h => exact hq.touch h (hres _ rfl)
  | @spawn t attr ht =>
    have htw : t ∉ s.members .wq := fun hw => by simp [hwq t hw] at ht
    exact (hq.setTcb htw).enqueue nofun
  | event => exact hq.setEvent fun _ => rfl
  | eventFree => exact hq.setEvent id
  | cancelState => exact hq.setTcb hcur

theorem Quiet.cancelDone (hq : Quiet s) (ht : t ∉ s.members .wq) : Quiet (cancelDone s t) := by
  unfold Sched.cancelDone
  dsimp only
  split
  · exact hq.destroyEvents.setTcb ht
  · exact (hq.destroyEvents.setTcb ht).enqueue nofun

/-! ### The scheduler loop -/

theorem Quiet.promoteTail (hq : Quiet s) (hp : Placed False none s) (ht : t ∈ s.members .nq) :
    Quiet (promoteTail cfg s t) := by
  have hwq : t ∉ s.members .wq := fun hw => by
    have := hp.linear.unique (i := .queue .nq) (j := .queue .wq) ht hw
    cases this
  exact (hq.dequeue.setTcb fun hw => hwq (members_dequeue_subset hw)).enqueue nofun

theorem Quiet.schedule (hq : Quiet s) (hp : Placed False none s) : Quiet (schedule cfg s) := by
  have h₁ : Quiet (promoteNew cfg (s.elements .nq) s) :=
    hp.promoteNew_rule hq (fun _ _ hp ht hq => hq.promoteTail hp ht) _
  unfold Sched.schedule
  dsimp only
  split
  · intro t ht
    exact h₁ t (by simpa [State.members] using ht)
  · repeat' split
    all_goals exact h₁

theorem Quiet.increase (hq : Quiet s) :
    Quiet { s with queue := Function.update s.queue .rq (s.queue .rq).increase } := by
  intro t ht
  exact hq t (by simpa [State.members] using ht)

theorem Quiet.putBack (hq : Quiet s) (ht : t ∉ s.members .wq)
    (hw : (s.tcb t).state = .waiting → settled s t = true) : Quiet (putBack s t) := by
  unfold Sched.putBack
  split
  · refine Quiet.increase ?_
    split
    · exact hq.enqueue nofun
    · exact hq.setTcb ht
  · rename_i hst
    exact (hq.enqueue fun _ => hw hst).increase
  · exact hq.increase.enqueue nofun

theorem Quiet.comeBack (hq : Quiet s) (ht : t ∉ s.members .wq)
    (hw : (s.tcb t).state = .waiting → settled s t = true) : Quiet (comeBack cfg s t) := by
  have h₁ : Quiet (Sched.putBack s t) := hq.putBack ht hw
  unfold Sched.comeBack
  dsimp only
  repeat' split
  all_goals exact h₁

/-! ### The scan -/

theorem scanEvent_none (h : (scanEvent now fires t k e).anyOccurred = false) :
    k.anyOccurred = false ∧ (scanEvent now fires t k e).state = k.state := by
  unfold scanEvent at h ⊢
  split at h
  case isTrue hp =>
    rw [if_pos hp]
    exact ⟨h, rfl⟩
  case isFalse hp =>
    split at h
    case isTrue => cases h
    case isFalse ho =>
      rw [if_neg hp, if_neg ho]
      split at h <;> exact ⟨h, rfl⟩

theorem scanEvents_none (h : (l.foldl (scanEvent now fires t) k).anyOccurred = false) :
    k.anyOccurred = false ∧ (l.foldl (scanEvent now fires t) k).state = k.state := by
  induction l generalizing k with
  | nil => exact ⟨h, rfl⟩
  | cons e l ih =>
    obtain ⟨hk, hst⟩ := ih h
    obtain ⟨hk₀, hst₀⟩ := scanEvent_none hk
    exact ⟨hk₀, hst.trans hst₀⟩

theorem scanThread_none (h : (scanThread now fires k t).anyOccurred = false) :
    k.anyOccurred = false ∧ (k.state.tcb t).cancelreq = false ∧
      (scanThread now fires k t).state = k.state := by
  unfold scanThread at h ⊢
  cases hc : (k.state.tcb t).cancelreq with
  | true =>
    simp only [hc] at h
    cases (scanEvents_none h).1
  | false =>
    simp only [hc] at h ⊢
    obtain ⟨hk, hst⟩ := scanEvents_none h
    exact ⟨hk, trivial, hst⟩

theorem scanThreads_none {l : List Tid}
    (h : (l.foldl (scanThread now fires) k).anyOccurred = false) :
    k.anyOccurred = false ∧ (∀ t ∈ l, (k.state.tcb t).cancelreq = false) ∧
      (l.foldl (scanThread now fires) k).state = k.state := by
  induction l generalizing k with
  | nil => exact ⟨h, by simp, rfl⟩
  | cons t l ih =>
    obtain ⟨hk, hl, hst⟩ := ih h
    obtain ⟨hk₀, ht, hst₀⟩ := scanThread_none hk
    refine ⟨hk₀, fun u hu => ?_, hst.trans hst₀⟩
    rcases List.mem_cons.mp hu with rfl | hu
    · exact ht
    · rw [← hst₀]
      exact hl u hu

theorem Quiet.scan (hq : Quiet s) (h : (scanQueue s now fires).anyOccurred = false) :
    (scanQueue s now fires).state = s ∧ ∀ t ∈ s.members .wq, anyOccurred s t = false := by
  obtain ⟨-, hc, hst⟩ := scanThreads_none h
  exact ⟨hst, fun t ht => anyOccurred_false (hq t ht) (hc t ht)⟩

/-! ### The end of a pass -/

/-- The status of an event behind its late handling. -/
def lateStatus (late : EventId → Option Status) (e : EventId) (ev : Event) : Status :=
  if ev.status ≠ .pending then ev.status
  else match ev.spec, late e with
    | .fd, some st | .select, some st | .sigs, some st => st
    | _, _ => .pending

theorem lateEvent_event : (lateEvent late s e).event =
      Function.update s.event e { s.event e with status := lateStatus late e (s.event e) } := by
  unfold lateEvent lateStatus
  split
  · exact (Function.update_eq_self e s.event).symm
  · rename_i hp
    have hp : (s.event e).status = .pending := not_not.mp hp
    cases hspec : (s.event e).spec <;> cases hl : late e <;>
      simp [State.setStatus, State.setEvent, ← hp]

theorem lateStatus_of_ne (h : ev.status ≠ .pending) : lateStatus late e ev = ev.status :=
  if_pos h

theorem lateStatus_pending (h : lateStatus late e ev = .pending) : ev.status = .pending := by
  by_contra hne
  exact hne ((lateStatus_of_ne hne).symm.trans h)

theorem lateStatus_idem :
    lateStatus late e { ev with status := lateStatus late e ev } = lateStatus late e ev := by
  by_cases h : lateStatus late e ev = .pending
  · have hself : { ev with status := .pending } = ev := by rw [← lateStatus_pending h]
    rw [h, hself]
    exact h
  · exact lateStatus_of_ne h

theorem lateEvents_event : (l.foldl (lateEvent late) s).event e =
      if e ∈ l then { s.event e with status := lateStatus late e (s.event e) } else s.event e := by
  induction l generalizing s with
  | nil => simp
  | cons e' l ih =>
    rw [List.foldl_cons, ih, lateEvent_event]
    by_cases he : e = e'
    · subst he
      simp [lateStatus_idem]
    · simp [he]

theorem lateEvents_status_ne
    (h : (s.event e).status ≠ .pending) : ((l.foldl (lateEvent late) s).event e).status ≠ .pending := by
  rw [lateEvents_event]
  split
  · simpa [lateStatus_of_ne h] using h
  · exact h

theorem lateEvents_tcb : (l.foldl (lateEvent late) s).tcb = s.tcb :=
  (SameThreads.foldl SameThreads.lateEvent l s).tcb

/-- Nothing that is decided behind the wait makes `t` ready. -/
def Rests (late : EventId → Option Status) (s : State) (t : Tid) : Prop :=
  (s.tcb t).cancelreq = false ∧ ∀ e ∈ (s.tcb t).events, lateStatus late e (s.event e) = .pending

theorem Rests.lateEvents (h : Rests late s t) :
    Rests late (l.foldl (lateEvent late) s) t := by
  refine ⟨by rw [lateEvents_tcb]; exact h.1, fun e he => ?_⟩
  rw [lateEvents_tcb] at he
  rw [lateEvents_event]
  split
  · rw [lateStatus_idem]
    exact h.2 e he
  · exact h.2 e he

theorem cleanupThread_tcb : ((cleanupThread late s t).tcb u).events = (s.tcb u).events ∧
      ((cleanupThread late s t).tcb u).cancelreq = (s.tcb u).cancelreq := by
  unfold cleanupThread
  dsimp only
  split
  · by_cases hu : u = t
    · subst hu
      simp [State.enqueue, State.setTcb, State.dequeue, lateEvents_tcb]
    · simp [State.enqueue, State.setTcb, State.dequeue, lateEvents_tcb, hu]
  · simp [lateEvents_tcb]

theorem cleanupThread_event :
    (cleanupThread late s t).event = ((s.tcb t).events.foldl (lateEvent late) s).event := by
  unfold cleanupThread
  dsimp only
  split <;> rfl

theorem Rests.cleanupThread (h : Rests late s u) :
    Rests late (cleanupThread late s t) u := by
  have hl : Rests late ((s.tcb t).events.foldl (lateEvent late) s) u := h.lateEvents
  refine ⟨cleanupThread_tcb.2.trans h.1, fun e he => ?_⟩
  rw [cleanupThread_event]
  refine hl.2 e ?_
  rw [lateEvents_tcb]
  exact cleanupThread_tcb.1 ▸ he

/-- A thread that the loop looks at either leaves the waiting queue or rests. -/
theorem cleanupThread_rests (hn : (s.members .wq).Nodup)
    (ht : t ∈ (cleanupThread late s t).members .wq) : Rests late (cleanupThread late s t) t := by
  have hsame : SameThreads s ((s.tcb t).events.foldl (lateEvent late) s) :=
    .foldl SameThreads.lateEvent _ _
  unfold Sched.cleanupThread at ht ⊢
  dsimp only at ht ⊢
  split at ht
  case isTrue hocc =>
    exfalso
    rcases mem_members_enqueue.mp ht with ⟨he, -⟩ | ht
    · cases he
    · rw [members_setTcb] at ht
      unfold State.dequeue at ht
      rw [members_update, Pqueue.members_delete, hsame.queue] at ht
      exact hn.not_mem_erase ht
  case isFalse hocc =>
    rw [if_neg hocc]
    have hocc : anyOccurred ((s.tcb t).events.foldl (lateEvent late) s) t = false :=
      Bool.eq_false_iff.mpr hocc
    have hiff := mt anyOccurred_iff.mpr (Bool.eq_false_iff.mp hocc)
    obtain ⟨hev, hreq⟩ := not_or.mp hiff
    refine ⟨Bool.eq_false_iff.mpr hreq, fun e he => ?_⟩
    have hpend : (((s.tcb t).events.foldl (lateEvent late) s).event e).status = .pending := by
      by_contra hne
      exact hev ⟨e, he, hne⟩
    rw [lateEvents_tcb] at he
    rw [lateEvents_event, if_pos he] at hpend ⊢
    rw [lateStatus_idem]
    exact hpend

theorem cleanupThread_wq : (cleanupThread late s t).members .wq ⊆ s.members .wq := by
  have hsame : SameThreads s ((s.tcb t).events.foldl (lateEvent late) s) :=
    .foldl SameThreads.lateEvent _ _
  intro u hu
  unfold cleanupThread at hu
  dsimp only at hu
  split at hu
  · rcases mem_members_enqueue.mp hu with ⟨he, -⟩ | hu
    · cases he
    · rw [members_setTcb] at hu
      have hq := members_dequeue_subset hu
      simpa [State.members, hsame.queue] using hq
  · simpa [State.members, hsame.queue] using hu

theorem cleanupThreads_wq (l : List Tid) :
    (l.foldl (cleanupThread late) s).members .wq ⊆ s.members .wq := by
  induction l generalizing s with
  | nil => exact List.Subset.refl _
  | cons t l ih => exact fun u hu => cleanupThread_wq (ih hu)

theorem cleanupThreads_rests {l : List Tid} (hp : Placed False none s)
    (hn : l.Nodup) (hl : ∀ u ∈ l, u ∈ s.members .wq)
    (hu : u ∈ (l.foldl (cleanupThread late) s).members .wq) (h : u ∈ l ∨ Rests late s u) :
    Rests late (l.foldl (cleanupThread late) s) u := by
  induction l generalizing s with
  | nil => exact h.resolve_left List.not_mem_nil
  | cons t l ih =>
    obtain ⟨ht, hn⟩ := List.nodup_cons.mp hn
    refine ih (hp.cleanupThread (hl t (by simp))) hn (fun v hv => ?_) hu ?_
    · exact cleanupThread_members (hl v (by simp [hv])) fun he => ht (he ▸ hv)
    · rcases h with h | h
      · rcases List.mem_cons.mp h with rfl | h
        · exact .inr (cleanupThread_rests (hp.linear.nodup (.queue .wq)) (cleanupThreads_wq l hu))
        · exact .inl h
      · exact .inr h.cleanupThread

theorem cleanupLoop_quiet (hp : Placed False none s) :
    Quiet (cleanupLoop late s) := by
  intro t ht
  have hrest : Rests late (cleanupLoop late s) t :=
    cleanupThreads_rests hp (hp.linear.nodup (.queue .wq)) (fun _ hu => hu) ht
      (.inl (cleanupThreads_wq _ ht))
  exact settled_of_ring fun e he => lateStatus_pending (hrest.2 e he)

theorem cleanupThread_finished (h : anyOccurred s u = true) :
    anyOccurred (cleanupThread late s t) u = true := by
  refine anyOccurred_mono (fun e he => ?_) cleanupThread_tcb.1 cleanupThread_tcb.2.trans h
  rw [cleanupThread_event]
  exact lateEvents_status_ne he

theorem cleanupThread_rq (h : u ∈ s.members .rq ∨ (u = t ∧ anyOccurred s t = true)) :
    u ∈ (cleanupThread late s t).members .rq := by
  have hsame : SameThreads s ((s.tcb t).events.foldl (lateEvent late) s) :=
    .foldl SameThreads.lateEvent _ _
  have hrq : ∀ {v}, v ∈ s.members .rq → v ∈ ((s.tcb t).events.foldl (lateEvent late) s).members .rq := by
    intro v hv
    simpa [State.members, hsame.queue] using hv
  unfold cleanupThread
  dsimp only
  split
  case isTrue hocc =>
    refine mem_members_enqueue.mpr ?_
    rcases h with h | ⟨rfl, -⟩
    · refine .inr ?_
      exact hrq h
    · exact .inl ⟨rfl, rfl⟩
  case isFalse hocc =>
    rcases h with h | ⟨rfl, h⟩
    · exact hrq h
    · refine absurd (anyOccurred_mono (fun e he => lateEvents_status_ne he) ?_ ?_ h) hocc
      · rw [lateEvents_tcb]
      · rw [lateEvents_tcb]; exact id

theorem cleanupThreads_rq {l : List Tid}
    (h : u ∈ s.members .rq ∨ (u ∈ l ∧ anyOccurred s u = true)) :
    u ∈ (l.foldl (cleanupThread late) s).members .rq := by
  induction l generalizing s with
  | nil => exact h.resolve_right (by simp)
  | cons t l ih =>
    refine ih ?_
    rcases h with h | ⟨hm, h⟩
    · exact .inl (cleanupThread_rq (.inl h))
    · rcases List.mem_cons.mp hm with rfl | hm
      · exact .inl (cleanupThread_rq (.inr ⟨rfl, h⟩))
      · exact .inr ⟨hm, cleanupThread_finished h⟩

theorem timerBranch_status_ne (h : (s.event e).status ≠ .pending) :
    ((timerBranch s dopoll timer rc0).1.event e).status ≠ .pending := by
  unfold timerBranch
  split
  · split
    · split
      · exact h
      · simp only [State.setStatus, State.setEvent, logFired_event, Function.update_apply]
        split
        · simp
        · exact h
    · exact h
  · exact h

theorem timerBranch_finished (h : anyOccurred s t = true) :
    anyOccurred (timerBranch s dopoll timer rc0).1 t = true := by
  have htcb : (timerBranch s dopoll timer rc0).1.tcb = s.tcb := SameThreads.timerBranch.tcb
  exact anyOccurred_mono (fun _ => timerBranch_status_ne) (by rw [htcb]) (by rw [htcb]; exact id) h

/-! ### Passes -/

/-- The scheduler may go on to a wait that blocks, without another look at the
events that are not pending. -/
def Ctl.restful : Ctl → Bool
  | .loop | .run _ | .back _ => true
  | .em (.enter dopoll _) | .em (.scan dopoll _) => !dopoll
  | .em (.drain dopoll _ any _) => !dopoll && !any
  | _ => false

/-- No thread puts a finished one back into the waiting queue, and no cleanup
handler ends its thread in the middle of a pass. -/
def prompt (s : State) : Act → Bool
  | .op o =>
    match s.ctl, o with
    | .run _, .resume t => (s.tcb t).state ≠ .waiting || settled s t
    | .run _, _ => true
    | _, o => !exitsInHandler s o
  | _ => true

def promptSystem (cfg : Config) : System State Act :=
  (system cfg).restrict fun s a => prompt s a = true

structure Awake (s : State) : Prop where
  quiet : s.ctl.restful = true → Quiet s
  back : ∀ t, s.ctl = .back t → (s.tcb t).state = .waiting → settled s t = true
  wait : ∀ timer timeout since, s.ctl = .em (.wait false timer timeout since) →
    ∀ t ∈ s.members .wq, anyOccurred s t = false

/-- In the middle of a pass, behind its wait call or with a message drained. -/
theorem Awake.busy (hr : s.ctl.restful = false)
    (hw : ∀ timer timeout since, s.ctl ≠ .em (.wait false timer timeout since)) : Awake s where
  quiet h := by simp [hr] at h
  back t h := by simp [h, Ctl.restful] at hr
  wait timer timeout since h := absurd h (hw timer timeout since)

theorem Awake.running (hc : s.ctl = .run t) (hq : Quiet s) : Awake s where
  quiet _ := hq
  back u h := by simp [hc] at h
  wait _ _ _ h := by simp [hc] at h

theorem Awake.came (hc : s.ctl = .back t) (hq : Quiet s)
    (ht : (s.tcb t).state = .waiting → settled s t = true) : Awake s where
  quiet _ := hq
  back u h := by
    obtain rfl : t = u := by simpa [hc] using h
    exact ht
  wait _ _ _ h := by simp [hc] at h

theorem Awake.of_quiet (hq : Quiet s) (hb : ∀ t, s.ctl ≠ .back t)
    (hw : ∀ timer timeout since, s.ctl ≠ .em (.wait false timer timeout since)) : Awake s where
  quiet _ := hq
  back t h := absurd h (hb t)
  wait timer timeout since h := absurd h (hw timer timeout since)

/-- Where handlers run, either a thread is running or there is nothing to keep. -/
theorem Awake.hosts (hh : s.ctl.hosts = true) (hq : ∀ t, s.ctl = .run t → Quiet s) : Awake s := by
  cases hc : s.ctl with
  | run t => exact .running hc (hq t hc)
  | em e =>
    refine .busy ?_ ?_
    · cases e <;> simp_all [Ctl.hosts, Ctl.restful]
    · rintro timer timeout since he
      simp [he, Ctl.hosts] at hh
  | _ => simp [hc, Ctl.hosts] at hh

theorem Placed.notMem (h : Placed False none s) (ht : t ∈ spots s c) (hc : c ≠ .queue n) :
    t ∉ s.members n :=
  fun hw => hc (h.linear.unique ht hw)

theorem Placed.running_notMem (h : Placed False none s) (hc : s.ctl = .run t) : t ∉ s.members n :=
  h.notMem (c := .run) (by simp [spots, hc, Ctl.running]) nofun

theorem Placed.cleaning_notMem (h : Placed False none s) (ht : t ∈ s.cleaning) : t ∉ s.members n :=
  h.notMem (c := .cleaning) ht nofun

theorem Placed.current_notMem (h : Placed False none s) (hc : s.current = some t) :
    t ∉ s.members n := by
  unfold State.current at hc
  split at hc
  · rename_i hcl
    cases hc
    exact h.cleaning_notMem (by simp [hcl])
  · rename_i hctl
    cases hc
    exact h.running_notMem hctl
  · cases hc

theorem Quiet.works (hq : Quiet s) (hw : Works s cur o s') (hn : cur ∉ s.members .wq) :
    Quiet s' := by
  intro t ht
  have hm : t ∈ s.members .wq := by simpa [State.members, hw.queue] using ht
  have htcb := hw.tcb t fun h => hn (h ▸ hm)
  refine settled_mono (fun e he => ?_) (by rw [htcb]) (by rw [htcb]; exact id) (hq t hm)
  rcases hw.event e with h | h | ⟨-, h⟩
  · rwa [h]
  · exact h.status
  · rwa [h]

theorem Awake.step (hA : Awake s) (hp : Placed False none s) (hh : Hosted s)
    (hok : prompt s a = true) (hs : exec cfg s a = some s') : Awake s' := by
  have hrun : ∀ {t}, s.ctl = .run t → Quiet s := fun ht => hA.quiet (by simp [ht, Ctl.restful])
  obtain ⟨o, rfl, hcall⟩ | ⟨hop, hstep⟩ := exec_call hs
  · cases hcall with
    | returns hc _ hret =>
      refine .hosts (by rw [hret.control.ctl]; exact hh.of_current hc) fun t ht => ?_
      rw [hret.control.ctl] at ht
      refine (hrun ht).returns hret (hp.current_notMem hc) (fun u hu => (hp.queued hu).alive) ?_
      rintro u rfl hst
      simpa [prompt, ht, hst] using hok
    | @works cur _ _ hc hx hw =>
      obtain ⟨t, ht⟩ : ∃ t, s.ctl = .run t := by
        rcases hx with hr | hx
        · exact ⟨cur, hr.ctl⟩
        · cases hctl : s.ctl with
          | run t => exact ⟨t, rfl⟩
          | _ => simp [prompt, hctl, hx] at hok
      have hq : Quiet s' := (hrun ht).works hw (hp.current_notMem hc)
      rcases hw.ctl with h | h
      · exact .running h hq
      · exact .came h hq fun hst => settled_of_ring fun e he => (hw.waiting hp hst he).status
    | @yield cur _ _ _ hr _ ht =>
      refine .came rfl (((hrun hr.ctl).touch ht False.elim).congr rfl rfl rfl) fun hst => ?_
      -- the running thread is ready
      have hready : (s.tcb cur).state = .ready := (hp.running hr.ctl).state
      cases hready.symm.trans (ht.state_eq.symm.trans hst)
    | joined hr ht =>
      exact .running (ht.control.ctl.trans hr.ctl)
        (((hrun hr.ctl).setTcb (hp.running_notMem hr.ctl)).touch ht False.elim)
    | exited => exact .busy rfl (by simp)
  cases hstep with
  | @cleaned t rest hc =>
    have hctl : (cancelDone { s with cleaning := rest } t).ctl = s.ctl := SameControl.cancelDone.ctl
    refine .hosts (by rw [hctl]; exact hh.of_cleaning hc) fun u hu => ?_
    rw [hctl] at hu
    have hq₁ : Quiet { s with cleaning := rest } := (hrun hu).congr rfl rfl rfl
    exact hq₁.cancelDone (hp.cleaning_notMem (by simp [hc]))
  | post | tick => exact ⟨hA.quiet, hA.back, hA.wait⟩
  | @spawnOn t attr ht =>
    have hne : ∀ {c u}, u ∈ spots s c → u ≠ t := by
      rintro c u hu rfl
      exact hp.notMem_of_freed ht c hu
    have htcb : ∀ {u}, u ≠ t → (s.setTcb t fun _ => attr.tcb false).tcb u = s.tcb u := by
      intro u hu
      simp [State.setTcb, hu]
    refine ⟨fun h => ?_, fun u hu hst => ?_, fun timer timeout since hw u hu => ?_⟩
    · exact (hA.quiet h).of_tcb (fun hw => hne (c := .queue .wq) hw rfl) (fun _ => htcb) rfl rfl
    · have hback : s.ctl = .back u := hu
      have hut : u ≠ t := hne (c := .back) (by simp [spots, hback, Ctl.returning])
      refine (settled_congr (htcb hut) rfl).trans (hA.back u hu ?_)
      simpa [State.setTcb, hut] using hst
    · have hut : u ≠ t := hne (c := .queue .wq) hu
      exact (anyOccurred_congr (htcb hut) rfl).trans (hA.wait timer timeout since hw u hu)
  | sched hcl hc =>
    refine .of_quiet ((hA.quiet (by simp [hc, Ctl.restful])).schedule hp) ?_ ?_
    all_goals
      unfold schedule
      dsimp only
      repeat' split
      all_goals simp
  | @back t hcl hc =>
    have hn : t ∉ s.members .wq :=
      hp.notMem (c := .back) (by simp [spots, hc, Ctl.returning]) (by decide)
    refine .of_quiet ((hA.quiet (by simp [hc, Ctl.restful])).comeBack hn (hA.back t hc)) ?_ ?_
    all_goals
      unfold comeBack
      dsimp only
      repeat' split
      all_goals simp
  | msg => exact .busy (by rw [drainMsg_ctl]; simp [Ctl.restful]) (by rw [drainMsg_ctl]; simp)
  | remsg => exact .busy (by rw [drainMsg_ctl]; rfl) (by rw [drainMsg_ctl]; simp)
  | @scan dopoll now fires hcl hc =>
    cases hd : dopoll || (scanQueue s now fires).anyOccurred with
    | true => exact .busy rfl (by simp)
    | false =>
      obtain ⟨hpoll, hany⟩ := Bool.or_eq_false_iff.mp hd
      have hq : Quiet s := hA.quiet (by simp [hc, hpoll, Ctl.restful])
      obtain ⟨hst, hocc⟩ := hq.scan hany
      rw [hst]
      refine ⟨(by intros; contradiction), (by intros; contradiction), fun _ _ _ _ t ht => ?_⟩
      exact hocc t ht
  | @finish dopoll timer rc0 late =>
    have hq : Quiet (cleanupLoop late (timerBranch s dopoll timer rc0).1) :=
      cleanupLoop_quiet (hp.same .timerBranch)
    refine .of_quiet (hq.congr rfl rfl rfl) ?_ ?_
    all_goals
      split <;> simp
  | @take dopoll now hcl hc | @drained dopoll now any hcl hc =>
    refine ⟨fun h => (hA.quiet ?_).congr rfl rfl rfl, (by intros; contradiction), ?_⟩
    · simpa [hc, Ctl.restful] using h
    · intro _ _ _ hctl
      cases hctl
  | retake | redrained | woken => exact .busy rfl (by simp)
  | _ => exact absurd rfl (hop _)

/-! ### The end of a wait -/

structure Spares (u : Tid) (s s' : State) : Prop where
  tcb : s'.tcb u = s.tcb u
  wq : u ∈ s.members .wq → u ∈ s'.members .wq
  event : ∀ e, (s.event e).status ≠ .pending → (s'.event e).status ≠ .pending

theorem Spares.finished (h : Spares u s s') (ht : anyOccurred s u = true) :
    anyOccurred s' u = true :=
  anyOccurred_mono h.event (by rw [h.tcb]) (by rw [h.tcb]; exact id) ht

theorem Touches.spares (h : Touches entering t s s') (hu : u ≠ t) : Spares u s s' :=
  ⟨h.tcb u hu, (h.members u .wq hu).mpr, fun e he => by rw [h.event]; exact he⟩

theorem drainMsg_spares (h : m.thread ≠ some u) : Spares u s (drainMsg s m) := by
  have hne : ∀ {t}, m.thread = some t → u ≠ t := by
    rintro t ht rfl
    exact h ht
  rcases drainMsg_cases s m with hs | ⟨e', -, -, hs⟩ | ⟨-, hs⟩ | ⟨t, -, ht, hs⟩ | ⟨t, ht, hs⟩
  · rw [hs]
    exact ⟨rfl, id, fun _ => id⟩
  · rw [hs]
    refine ⟨rfl, id, fun e he => ?_⟩
    simp only [State.setStatus, State.setEvent, Function.update_apply]
    split
    · simp
    · exact he
  · rw [hs]
    exact ⟨rfl, id, fun _ => id⟩
  · rw [hs]
    refine ⟨by simp [adopt, State.enqueue, State.setTcb, hne ht], fun hw => ?_, fun _ => id⟩
    exact mem_members_enqueue.mpr (.inr hw)
  · exact hs.spares (hne ht)

theorem cancelDone_spares (hu : u ≠ t) : Spares u s (cancelDone s t) := by
  have hev : ∀ e, (s.event e).status ≠ .pending → ((destroyEvents s t).event e).status ≠ .pending := by
    intro e he
    simp only [destroyEvents]
    split <;> exact he
  unfold cancelDone
  dsimp only
  split
  · exact ⟨by simp [tcbFree, State.setTcb, destroyEvents, hu], id, hev⟩
  · refine ⟨by simp [State.enqueue, State.setTcb, destroyEvents, hu], fun hw => ?_, hev⟩
    exact mem_members_enqueue.mpr (.inr hw)

def Ctl.scanned : Ctl → Bool
  | .em (.wait ..) | .em (.woken ..) | .em (.redrain ..) | .em (.finish ..) => true
  | _ => false

/-- Not the end of the pass, nor a message to `t` or a call of a handler. -/
def passesOver (s : State) (t : Tid) : Act → Bool
  | .op _ | .finish _ => false
  | .msg => s.ctl.batch.head?.all fun m => m.thread ≠ some t
  | _ => true

theorem Step.spares (h : Step cfg s a s') (hp : Placed False none s) (hc : s.ctl.scanned = true)
    (ha : passesOver s t a = true) (ht : t ∈ s.members .wq) : Spares t s s' := by
  cases h with
  | @spawnOn u attr hu =>
    have hut : t ≠ u := by
      rintro rfl
      simp [(hp.queued ht).alive] at hu
    exact ⟨by simp [State.setTcb, hut], id, fun _ => id⟩
  | @cleaned u rest hcl =>
    have hut : t ≠ u := by
      rintro rfl
      exact hp.cleaning_notMem (by simp [hcl]) ht
    have hs : Spares t { s with cleaning := rest } (cancelDone { s with cleaning := rest } u) :=
      cancelDone_spares hut
    exact ⟨hs.tcb, hs.wq, hs.event⟩
  | @remsg dopoll timer rc0 m batch hcl hm =>
    have hmt : m.thread ≠ some t := by simpa [passesOver, hm, Ctl.batch] using ha
    have hs : Spares t { s with ctl := .em (.redrain dopoll timer rc0 batch) } _ := drainMsg_spares hmt
    exact ⟨hs.tcb, hs.wq, hs.event⟩
  | post | tick | retake | redrained | woken => exact ⟨rfl, id, fun _ => id⟩
  | sched _ hctl | back _ hctl | take _ hctl | msg _ hctl | drained _ hctl | scan _ hctl =>
    simp [hctl, Ctl.scanned] at hc
  | _ => simp [passesOver] at ha

theorem awake_of_reachable (h : Reachable (promptSystem cfg) s) : Awake s := by
  refine h.invariant_of_reachable ?_ ?_
  · intro s hi
    refine .of_quiet (fun t ht => ?_) (by simp [hi.ctl]) (by simp [hi.ctl])
    simp [State.members, hi.queues .wq (by decide)] at ht
  · intro s a s' hr hA hs
    have hstep : exec cfg s a = some s' := hs.2
    rcases placed_of_reachable hr.of_restrict with hx | hp
    · simp [exec, hx] at hstep
    · exact hA.step hp (hosted_of_reachable hr.of_restrict) hs.1 hstep

/-- A wait that may block finds no finished thread in the waiting queue. A thread
finished there stays so until the end of the pass, unless a message names it or
a handler acts, and the end of the pass makes it ready. -/
theorem never_blocks_over_finished (h : Reachable (promptSystem cfg) s) :
    (∀ timer timeout since, s.ctl = .em (.wait false timer timeout since) →
      ∀ t ∈ s.members .wq, anyOccurred s t = false) ∧
    (∀ a s' t, exec cfg s a = some s' → s.ctl.scanned = true → passesOver s t a = true →
      t ∈ s.members .wq → anyOccurred s t = true → t ∈ s'.members .wq ∧ anyOccurred s' t = true) ∧
    ∀ late s' t, exec cfg s (.finish late) = some s' → t ∈ s.members .wq → anyOccurred s t = true →
      t ∈ s'.members .rq ∧ t ∉ s'.members .wq := by
  have hplaced : ∀ a s', exec cfg s a = some s' → Placed False none s := by
    intro a s' hs
    refine (placed_of_reachable h.of_restrict).resolve_left fun hx => ?_
    simp [exec, hx] at hs
  refine ⟨(awake_of_reachable h).wait, ?_, ?_⟩
  · intro a s' t hs hc ha ht hocc
    have hsp := (exec_step hs).2.2.spares (hplaced a s' hs) hc ha ht
    exact ⟨hsp.wq ht, hsp.finished hocc⟩
  · intro late s' t hs ht hocc
    have hp := hplaced _ s' hs
    obtain ⟨-, -, hstep⟩ := exec_step hs
    cases hstep with
    | @finish dopoll timer rc0 =>
      have hsame : SameThreads s (timerBranch s dopoll timer rc0).1 := .timerBranch
      have hp' : Placed False none (cleanupLoop late (timerBranch s dopoll timer rc0).1) :=
        (hp.same hsame).cleanupLoop
      have hrq : t ∈ (cleanupLoop late (timerBranch s dopoll timer rc0).1).members .rq := by
        refine cleanupThreads_rq (.inr ⟨?_, timerBranch_finished hocc⟩)
        rw [State.members, hsame.queue]
        exact ht
      exact ⟨hrq, hp'.notMem (c := .queue .rq) hrq (by decide)⟩

def waitSchedule : List Act :=
  [.sched, .op (.spawn 1 asyncAttr), .op (.yield none), .back] ++ idlePass ++
    [.sched, .op (.event 20 .notify false), .op (.wait [20]), .back] ++ idlePass ++ [.sched]

def wake20 : Gmsg := ⟨.wake, some 1, some 20, 0⟩

def wokenSchedule : List Act :=
  waitSchedule ++ [.op (.yield none), .post wake20, .back, .take, .msg, .drained,
    .scan fun _ => false, .woken true false, .take, .drained]

theorem never_blocks_over_finished_wokenSchedule :
    ∃ s s', Reachable (promptSystem pollConfig) s ∧
      exec pollConfig s (.finish fun _ => none) = some s' ∧ 1 ∈ s.members .wq ∧
      anyOccurred s 1 = true ∧ 1 ∈ s'.members .rq ∧ 1 ∉ s'.members .wq := by
  obtain ⟨s, hs, hex, hw, ho⟩ := exists_reachable pollConfig prompt
    (P := fun s => (exec pollConfig s (.finish fun _ => none)).isSome = true ∧ 1 ∈ s.members .wq ∧
      anyOccurred s 1 = true) asyncAttr wokenSchedule (by decide +kernel)
  obtain ⟨s', hs'⟩ := Option.isSome_iff_exists.mp hex
  exact ⟨s, s', hs, hs', hw, ho, (never_blocks_over_finished hs).2.2 _ s' 1 hs' hw ho⟩

/-- The thread is suspended when its wakeup is drained, and resumed by the main
thread, which then waits itself. -/
def resumedSchedule : List Act :=
  waitSchedule ++ [.op (.suspend 1), .op (.yield none), .post wake20, .back, .take, .msg, .drained,
    .scan fun _ => false, .woken true false, .take, .drained, .finish fun _ => none, .sched,
    .op (.resume 1), .op (.event 21 .fd false), .op (.wait [21]), .back, .take, .drained,
    .scan fun _ => false]

/-- The event manager blocks, for ever, over an event that has occurred. -/
theorem blocks_over_finished :
    ∃ s, Reachable (system pollConfig) s ∧ (∃ since, s.ctl = .em (.wait false none none since)) ∧
      1 ∈ s.members .wq ∧ (s.event 20).status = .occurred ∧ 20 ∈ (s.tcb 1).events := by
  obtain ⟨s, hs, hc, hp⟩ := exists_state pollConfig
    (P := fun s => s.ctl = .em (.wait false none none 0) ∧ 1 ∈ s.members .wq ∧
      (s.event 20).status = .occurred ∧ 20 ∈ (s.tcb 1).events) asyncAttr resumedSchedule
    (by decide +kernel)
  exact ⟨s, hs, ⟨0, hc⟩, hp⟩

end GnuPth.Sched
