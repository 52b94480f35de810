import GnuPth.Sched.System

/-!
# What the operations on threads leave alone

Suspending, resuming, cancelling, aborting, raising and joining change control
blocks, queues and the stack of cancellations. They do not move the scheduler,
its inbox or its clock, and each leaves all threads alone but one. Only a thread
that is reaped where it is not can make them go wrong.
-/

namespace GnuPth.Sched

structure Control where
  ctl : Ctl
  inbox : List Inbox.Gmsg
  stop : Bool
  clock : Int
  fired : List (Timeval × Int)
  spawned : List Tid
  adoptions : List Tid

def State.control (s : State) : Control :=
  ⟨s.ctl, s.inbox, s.stop, s.clock, s.fired, s.spawned, s.adoptions⟩

variable {s : State}

def SameControl (s s' : State) : Prop := s'.control = s.control

theorem SameControl.ctl (h : SameControl s s') : s'.ctl = s.ctl := congrArg Control.ctl h

theorem SameControl.inbox (h : SameControl s s') : s'.inbox = s.inbox := congrArg Control.inbox h

theorem SameControl.stop (h : SameControl s s') : s'.stop = s.stop := congrArg Control.stop h

theorem SameControl.clock (h : SameControl s s') : s'.clock = s.clock := congrArg Control.clock h

theorem SameControl.spawned (h : SameControl s s') :
    s'.spawned = s.spawned := congrArg Control.spawned h

theorem SameControl.adoptions (h : SameControl s s') : s'.adoptions = s.adoptions :=
  congrArg Control.adoptions h

variable {s₁ : State}

theorem SameControl.trans (h : SameControl s₁ s₂) (h' : SameControl s₂ s₃) :
    SameControl s₁ s₃ :=
  Eq.trans h' h

/-- Everything but the control blocks, the events and the queues. -/
structure Outside where
  control : Control
  cleaning : List Tid
  fault : Bool

def State.outside (s : State) : Outside := ⟨s.control, s.cleaning, s.fault⟩

def SameOutside (s s' : State) : Prop := s'.outside = s.outside

theorem SameOutside.control (h : SameOutside s s') : SameControl s s' := congrArg Outside.control h

theorem SameOutside.cleaning (h : SameOutside s s') : s'.cleaning = s.cleaning :=
  congrArg Outside.cleaning h

theorem SameOutside.fault (h : SameOutside s s') : s'.fault = s.fault := congrArg Outside.fault h

theorem SameOutside.trans (h : SameOutside s₁ s₂) (h' : SameOutside s₂ s₃) :
    SameOutside s₁ s₃ :=
  Eq.trans h' h

theorem SameOutside.foldl {α : Type} {f : State → α → State} (hf : ∀ s a, SameOutside s (f s a))
    (l : List α) (s : State) : SameOutside s (l.foldl f s) := by
  induction l generalizing s with
  | nil => rfl
  | cons a l ih => exact (hf s a).trans (ih _)

theorem SameOutside.promoteNew (k : Nat) : SameOutside s (promoteNew cfg k s) := by
  induction k generalizing s with
  | zero => rfl
  | succ k ih =>
    unfold Sched.promoteNew
    split
    · rfl
    · exact ih

theorem SameOutside.putBack : SameOutside s (putBack s t) := by
  unfold Sched.putBack
  split
  · split <;> rfl
  · rfl
  · rfl

theorem SameOutside.lateEvent (s : State) (e : EventId) :
    SameOutside s (lateEvent late s e) := by
  unfold Sched.lateEvent
  repeat' split
  all_goals rfl

theorem SameOutside.cleanupThread (s : State) (t : Tid) :
    SameOutside s (cleanupThread late s t) := by
  have hlate : SameOutside s ((s.tcb t).events.foldl (Sched.lateEvent late) s) :=
    .foldl SameOutside.lateEvent _ _
  unfold Sched.cleanupThread
  dsimp only
  split
  · exact hlate
  · exact hlate

theorem SameOutside.cleanupLoop : SameOutside s (cleanupLoop late s) :=
  .foldl SameOutside.cleanupThread _ _

/-! ### Queues -/

theorem setTcb_of_ne (hu : u ≠ t) : (s.setTcb t f).tcb u = s.tcb u :=
  Function.update_of_ne hu _ _

theorem setTcb_self : (s.setTcb t f).tcb t = f (s.tcb t) := Function.update_self _ _ _

/-- What `f` leaves alone in a control block stays the same in all of them. -/
theorem setTcb_field {α : Type} (g : Tcb → α) (h : g (f (s.tcb t)) = g (s.tcb t)) :
    g ((s.setTcb t f).tcb u) = g (s.tcb u) := by
  by_cases hu : u = t
  · subst hu
    rw [setTcb_self, h]
  · rw [setTcb_of_ne hu]

@[simp] theorem members_setTcb : (s.setTcb t f).members n = s.members n := rfl

@[simp] theorem members_setEvent :
    (s.setEvent e f).members n = s.members n := rfl

theorem members_update :
    { s with queue := Function.update s.queue n q }.members m = if m = n then q.members else s.members m := by
  by_cases h : m = n
  · subst h; simp [State.members]
  · simp [State.members, h]

theorem members_dequeue_subset : (s.dequeue n t).members m ⊆ s.members m := by
  unfold State.dequeue
  rw [members_update]
  split
  · rename_i h
    subst h
    rw [Pqueue.members_delete]
    exact List.erase_subset
  · exact List.Subset.refl _

theorem mem_members_dequeue (hu : u ≠ t) : u ∈ (s.dequeue n t).members m ↔ u ∈ s.members m := by
  unfold State.dequeue
  rw [members_update]
  split
  · rename_i h
    subst h
    rw [Pqueue.members_delete]
    exact List.mem_erase_of_ne hu
  · rfl

theorem mem_members_enqueue :
    u ∈ (s.enqueue n prio t).members m ↔ (m = n ∧ u = t) ∨ u ∈ s.members m := by
  unfold State.enqueue
  rw [members_update]
  split
  · rename_i h
    subst h
    rw [Pqueue.mem_insert]
    simp [State.members]
  · rename_i h
    simp [h]

/-! ### Operations on one thread -/

/-- What an operation on `t` does. Other control blocks and their places and all
events stay as they are; `t` keeps its ring, its requests and its place in the
code, and loses nothing else unless it was in the dead queue. It gets into the
waiting queue only where `entering` says so. -/
structure Touches (entering : Prop) (t : Tid) (s s' : State) : Prop where
  control : SameControl s s'
  event : s'.event = s.event
  tcb : ∀ u, u ≠ t → s'.tcb u = s.tcb u
  members : ∀ u n, u ≠ t → (u ∈ s'.members n ↔ u ∈ s.members n)
  events : (s'.tcb t).events = (s.tcb t).events
  cancelreq : (s.tcb t).cancelreq = true → (s'.tcb t).cancelreq = true
  pc : (s'.tcb t).pc = (s.tcb t).pc
  wq : t ∈ s'.members .wq → t ∈ s.members .wq ∨ entering
  dq : t ∈ s'.members .dq → t ∈ s.members .dq
  state : (s'.tcb t).state = (s.tcb t).state
  alive : t ∉ s.members .dq → (s'.tcb t).alive = (s.tcb t).alive
  cleaning : ∀ u ∈ s'.cleaning, u = t ∨ u ∈ s.cleaning
  queued : ∀ n, t ∈ s'.members n → ∃ m, t ∈ s.members m

variable {entering : Prop}

theorem Touches.refl : Touches entering t s s where
  control := rfl
  event := rfl
  tcb _ _ := rfl
  members _ _ _ := Iff.rfl
  events := rfl
  cancelreq := id
  pc := rfl
  wq := .inl
  dq := id
  state := rfl
  alive _ := rfl
  cleaning _ := .inr
  queued n hn := ⟨n, hn⟩

theorem Touches.trans (h : Touches entering t s₁ s₂) (h' : Touches entering t s₂ s₃) :
    Touches entering t s₁ s₃ where
  control := h.control.trans h'.control
  event := h'.event.trans h.event
  tcb u hu := (h'.tcb u hu).trans (h.tcb u hu)
  members u n hu := (h'.members u n hu).trans (h.members u n hu)
  events := h'.events.trans h.events
  cancelreq := h'.cancelreq ∘ h.cancelreq
  pc := h'.pc.trans h.pc
  wq ht := (h'.wq ht).elim h.wq .inr
  dq := h.dq ∘ h'.dq
  state := h'.state.trans h.state
  alive ht := (h'.alive (ht ∘ h.dq)).trans (h.alive ht)
  cleaning u hu := (h'.cleaning u hu).elim .inl (h.cleaning u)
  queued n hn := (h'.queued n hn).elim h.queued

theorem Touches.state_eq (h : Touches entering t s s') : (s'.tcb u).state = (s.tcb u).state := by
  by_cases hut : u = t
  · subst hut
    exact h.state
  · rw [h.tcb u hut]

theorem Touches.pc_eq (h : Touches entering t s s') : (s'.tcb u).pc = (s.tcb u).pc := by
  by_cases hut : u = t
  · subst hut
    exact h.pc
  · rw [h.tcb u hut]

theorem Touches.events_eq (h : Touches entering t s s') : (s'.tcb u).events = (s.tcb u).events := by
  by_cases hut : u = t
  · subst hut
    exact h.events
  · rw [h.tcb u hut]

theorem Touches.cancelreq_mono (h : Touches entering t s s') (hr : (s.tcb u).cancelreq = true) :
    (s'.tcb u).cancelreq = true := by
  by_cases hut : u = t
  · subst hut
    exact h.cancelreq hr
  · rw [h.tcb u hut]
    exact hr

theorem Touches.alive_eq (h : Touches entering t s s') (hu : u ∉ s.members .dq) :
    (s'.tcb u).alive = (s.tcb u).alive := by
  by_cases hut : u = t
  · subst hut
    exact h.alive hu
  · rw [h.tcb u hut]

theorem Touches.queued_of (h : Touches entering t s s') (hu : u ∈ s'.members n) :
    ∃ m, u ∈ s.members m := by
  by_cases hut : u = t
  · subst hut
    exact h.queued n hu
  · exact ⟨n, (h.members u n hut).mp hu⟩

theorem Touches.dequeue : Touches entering t s (s.dequeue n t) where
  control := rfl
  event := rfl
  tcb _ _ := rfl
  members _ _ hu := mem_members_dequeue hu
  events := rfl
  cancelreq := id
  pc := rfl
  wq ht := .inl (members_dequeue_subset ht)
  dq ht := members_dequeue_subset ht
  state := rfl
  alive _ := rfl
  cleaning _ := .inr
  queued m hm := ⟨m, members_dequeue_subset hm⟩

theorem Touches.move (ht : t ∈ s.members m) (hd : n ≠ .dq) (hw : n = .wq → entering) :
    Touches entering t s ((s.dequeue m t).enqueue n prio t) where
  control := rfl
  event := rfl
  tcb _ _ := rfl
  members u k hu := by
    rw [mem_members_enqueue, mem_members_dequeue hu]
    simp [hu]
  events := rfl
  cancelreq := id
  pc := rfl
  wq ht := (mem_members_enqueue.mp ht).elim (fun h => .inr (hw h.1.symm))
    fun h => .inl (members_dequeue_subset h)
  dq ht := (mem_members_enqueue.mp ht).elim (fun h => absurd h.1.symm hd)
    fun h => members_dequeue_subset h
  state := rfl
  alive _ := rfl
  cleaning _ := .inr
  queued _ _ := ⟨m, ht⟩

theorem Touches.setTcb (he : (f (s.tcb t)).events = (s.tcb t).events)
    (hr : (s.tcb t).cancelreq = true → (f (s.tcb t)).cancelreq = true)
    (hp : (f (s.tcb t)).pc = (s.tcb t).pc) (ha : (f (s.tcb t)).alive = (s.tcb t).alive)
    (hs : (f (s.tcb t)).state = (s.tcb t).state) : Touches entering t s (s.setTcb t f) where
  control := rfl
  event := rfl
  tcb u hu := by simp [State.setTcb, hu]
  members _ _ _ := Iff.rfl
  events := by simpa [State.setTcb] using he
  cancelreq := by simpa [State.setTcb] using hr
  pc := by simpa [State.setTcb] using hp
  wq := .inl
  dq := id
  state := by simpa [State.setTcb] using hs
  alive _ := by simpa [State.setTcb] using ha
  cleaning _ := .inr
  queued n hn := ⟨n, hn⟩

theorem Touches.favorite (ht : t ∈ s.members n) : Touches entering t s (favorite s n t) := by
  have hm : ∀ u m, u ∈ (Sched.favorite s n t).members m ↔ u ∈ s.members m := by
    intro u m
    unfold Sched.favorite
    rw [members_update]
    split
    · rename_i h
      subst h
      exact (Pqueue.favorite_perm ht).mem_iff
    · rfl
  exact ⟨rfl, rfl, fun _ _ => rfl, fun u m _ => hm u m, rfl, id, rfl, fun h => .inl ((hm t .wq).mp h),
    (hm t .dq).mp, rfl, fun _ => rfl, fun _ => .inr, fun m h => ⟨m, (hm t m).mp h⟩⟩

theorem Touches.clean (h : Touches entering t s s') :
    Touches entering t s { s' with cleaning := t :: s'.cleaning } :=
  { h with cleaning := fun u hu => (List.mem_cons.mp hu).elim .inl (h.cleaning u) }

theorem Touches.setFault : Touches entering t s { s with fault := b } :=
  ⟨rfl, rfl, fun _ _ => rfl, fun _ _ _ => Iff.rfl, rfl, id, rfl, .inl, id, rfl, fun _ => rfl,
    fun _ => .inr, fun n hn => ⟨n, hn⟩⟩

theorem mem_of_contains (h : s.contains n t = true) : t ∈ s.members n := Pqueue.contains_iff.mp h

theorem Touches.reap : Touches entering t s (reap s t) := by
  unfold Sched.reap
  split
  · rename_i hc
    have hd : Touches entering t s (s.dequeue .dq t) := .dequeue
    refine ⟨rfl, rfl, fun u hu => ?_, fun u m hu => mem_members_dequeue hu, ?_, ?_, ?_, hd.wq, hd.dq, ?_, ?_,
      fun _ => .inr, hd.queued⟩
    · simp [tcbFree, State.setTcb, State.dequeue, hu]
    · simp [tcbFree, State.setTcb, State.dequeue]
    · simp [tcbFree, State.setTcb, State.dequeue]
    · simp [tcbFree, State.setTcb, State.dequeue]
    · simp [tcbFree, State.setTcb, State.dequeue]
    · exact absurd (mem_of_contains hc.2)
  · exact .setFault

theorem Qname.ofState_ne_dq (h : Qname.ofState st = some n) : n ≠ .dq := by
  cases st <;> cases h <;> decide

theorem favorQueue_mem (h : favorQueue s t = some q) : t ∈ s.members q := by
  unfold favorQueue at h
  split at h
  case h_3 => cases h
  all_goals
    split at h
    · cases h
      exact mem_of_contains ‹_›
    · cases h

/-- What the operations on a thread are made of. -/
inductive EditKind
  | suspend
  | resume
  | favor
  | mark
  | force
  | clean
  | bury
  deriving DecidableEq

inductive Edit (t : Tid) (s : State) : EditKind → State → Prop
  | suspend {q} (hq : Qname.ofState (s.tcb t).state = some q) (ht : t ∈ s.members q) :
      Edit t s .suspend ((s.dequeue q t).enqueue .sq prioStd t)
  | resume {q} (hq : Qname.ofState (s.tcb t).state = some q) (ht : t ∈ s.members .sq) :
      Edit t s .resume ((s.dequeue .sq t).enqueue q prioStd t)
  | lose (hq : Qname.ofState (s.tcb t).state = none) (ht : t ∈ s.members .sq) :
      Edit t s .resume (s.dequeue .sq t)
  | favor {q} (hq : favorQueue s t = some q) : Edit t s .favor (favorite s q t)
  | mark {req sigs cnt} (hr : (s.tcb t).cancelreq = true → req = true) :
      Edit t s .mark
        (s.setTcb t ({ · with cancelreq := req, sigpending := sigs, sigpendcnt := cnt }))
  | force (h : ¬ ((s.tcb t).state = .dead ∧ (s.tcb t).joinable = true)) :
      Edit t s .force (forceCancel s t)
  | clean {q} (hq : Qname.ofState (s.tcb t).state = some q) (ht : t ∈ s.members q) :
      Edit t s .clean { s.dequeue q t with cleaning := t :: s.cleaning }
  | bury (hd : (s.tcb t).state = .dead) : Edit t s .bury (reap s t)
  -- the state was read from a block that may be gone
  | blame (hd : (s.tcb t).state ≠ .dead) :
      Edit t s .bury { s with fault := s.fault || !(s.tcb t).alive }

inductive Edits (t : Tid) (ks : List EditKind) (s : State) : State → Prop
  | refl : Edits t ks s s
  | step {k s₁ s₂} (h : Edits t ks s s₁) (hk : k ∈ ks) (he : Edit t s₁ k s₂) : Edits t ks s s₂

variable {k : EditKind}

theorem Edit.single (h : Edit t s k s') (hk : k ∈ ks) : Edits t ks s s' := .step .refl hk h

theorem Edits.of_eq (h : Edits t ks s s') (hs : s₁ = s') : Edits t ks s s₁ := hs ▸ h

theorem Edits.rule {P : State → Prop} (h : Edits t ks s s') (hP : P s)
    (hs : ∀ {s₁ k s₂}, k ∈ ks → Edit t s₁ k s₂ → P s₁ → P s₂) : P s' := by
  induction h with
  | refl => exact hP
  | step _ hk he ih => exact hs hk he ih

theorem Edit.touches (h : Edit t s k s')
    (hw : k = .resume → (s.tcb t).state = .waiting → entering) : Touches entering t s s' := by
  cases h with
  | suspend hq ht => exact .move ht nofun nofun
  | resume hq ht =>
    refine .move ht (Qname.ofState_ne_dq hq) ?_
    rintro rfl
    refine hw rfl ?_
    cases hst : (s.tcb t).state <;> simp [hst, Qname.ofState] at hq ⊢
  | lose => exact .dequeue
  | favor hq => exact .favorite (favorQueue_mem hq)
  | mark hr => exact .setTcb rfl hr rfl rfl rfl
  | force => exact .setTcb rfl id rfl rfl rfl
  | clean => exact Touches.dequeue.clean
  | bury => exact .reap
  | blame => exact .setFault

theorem Edits.touches (h : Edits t ks s s')
    (hw : .resume ∈ ks → (s.tcb t).state = .waiting → entering) : Touches entering t s s' := by
  refine h.rule .refl fun hk he ht => ht.trans (he.touches ?_)
  rintro rfl hst
  exact hw hk (ht.state.symm.trans hst)

theorem reap_cleaning : (reap s t).cleaning = s.cleaning := by
  unfold reap
  split <;> rfl

theorem Edits.cleaning (h : Edits t ks s s') (hk : .clean ∉ ks) : s'.cleaning = s.cleaning := by
  refine h.rule (P := fun s₁ => s₁.cleaning = s.cleaning) rfl fun hks he hcl => ?_
  cases he with
  | clean => exact absurd hks hk
  | bury => exact reap_cleaning.trans hcl
  | _ => exact hcl

theorem Edits.fault (h : Edits t ks s s') (hk : .bury ∉ ks) : s'.fault = s.fault := by
  refine h.rule (P := fun s₁ => s₁.fault = s.fault) rfl fun hks he hf => ?_
  cases he with
  | bury | blame => exact absurd hks hk
  | _ => exact hf

/-- The target can be cancelled at any point. -/
def Tcb.immediate (b : Tcb) : Bool := b.cancelEnable && b.cancelAsync

/-- A cancellation request, and the handlers at once where the target allows it. -/
def cancelEdits (b : Tcb) : List EditKind := .mark :: if b.immediate then [.clean] else []

@[simp] theorem mem_cancelEdits :
    k ∈ cancelEdits b ↔ k = .mark ∨ k = .clean ∧ b.immediate = true := by
  unfold cancelEdits
  split <;> simp [*]

def abortEdits : List EditKind := [.force, .mark, .clean]

theorem suspendLocal_edits : Edits t [.suspend] s (suspendLocal s t).1 := by
  unfold suspendLocal
  split
  · exact .refl
  split
  · exact .refl
  split
  · exact .refl
  · rename_i hq hc
    exact (Edit.suspend hq (mem_of_contains (by simpa using hc))).single (by simp)

theorem pthSuspend_edits : Edits t [.suspend] s (pthSuspend s cur t).1 := by
  unfold pthSuspend
  split
  · exact .refl
  · exact suspendLocal_edits

/-- Only `pth_resume` puts a thread back into the waiting queue. -/
theorem resumeLocal_edits : Edits t [.resume] s (resumeLocal s t).1 := by
  unfold resumeLocal
  split
  · exact .refl
  rename_i hc
  have ht : t ∈ s.members .sq := mem_of_contains (by simpa using hc)
  split
  · rename_i hq
    exact (Edit.lose hq ht).single (by simp)
  · rename_i hq
    exact (Edit.resume hq ht).single (by simp)

theorem pthResume_edits : Edits t [.resume] s (pthResume s cur t).1 := by
  unfold pthResume
  split
  · exact .refl
  · exact resumeLocal_edits

theorem favorLocal_edits : Edits t [.favor] s (favorLocal s t) := by
  unfold favorLocal
  split
  · exact .refl
  split
  · exact .refl
  · rename_i hq
    exact (Edit.favor hq).single (by simp)

theorem setTcb_congr (h : f (s.tcb t) = g (s.tcb t)) : s.setTcb t f = s.setTcb t g := by
  rw [State.setTcb, State.setTcb, h]

theorem addSignal_edits : Edits t [.mark] s (addSignal s t sig) := by
  unfold addSignal
  split
  · exact .refl
  · exact ((Edit.mark id).single (by simp)).of_eq (setTcb_congr rfl)

theorem raiseLocal_edits : Edits t [.mark] s (raiseLocal s t sig) := by
  unfold raiseLocal
  split
  · exact .refl
  split
  · exact .refl
  · exact addSignal_edits

theorem cancelLocal_edits (hks : cancelEdits (s.tcb t) ⊆ ks) :
    Edits t ks s (cancelLocal s t).1 := by
  have hreq : Edits t ks s (s.setTcb t ({ · with cancelreq := true })) :=
    ((Edit.mark fun _ => rfl).single (hks (by simp))).of_eq (setTcb_congr rfl)
  unfold cancelLocal
  split
  · exact .refl
  split
  · exact .refl
  dsimp only
  split
  · rename_i hi
    split
    · exact hreq
    split
    · exact hreq
    · rename_i hq hc
      refine hreq.step (hks ?_) (.clean hq (mem_of_contains (by simpa using hc)))
      have himm : (s.tcb t).immediate = true := by simpa [Tcb.immediate, setTcb_self] using hi
      simp [himm]
  · exact hreq

theorem pthCancel_edits (hks : cancelEdits (s.tcb t) ⊆ ks) :
    Edits t ks s (pthCancel s cur t).1 := by
  unfold pthCancel
  split
  · exact .refl
  split
  · exact .refl
  · exact cancelLocal_edits hks

theorem threadExists_iff : threadExists s t = true ↔ ∃ n, t ∈ s.members n := by
  have hc : ∀ n, s.contains n t = true ↔ t ∈ s.members n := fun _ => Pqueue.contains_iff
  simp only [threadExists, Bool.or_eq_true, hc]
  constructor
  · rintro ((((h | h) | h) | h) | h) <;> exact ⟨_, h⟩
  · rintro ⟨n, hn⟩
    cases n <;> simp [hn]

theorem Edits.after (h : Edit t s k s₁) (hk : k ∈ ks) (h' : Edits t ks s₁ s') :
    Edits t ks s s' :=
  h'.rule (h.single hk) fun hk' he hs => hs.step hk' he

theorem cancelEdits_forced : cancelEdits ((forceCancel s t).tcb t) ⊆ abortEdits := by
  simp [cancelEdits, abortEdits, forceCancel, setTcb_self, Tcb.immediate]

theorem abortLocal_edits : (∃ n, t ∈ s.members n) ∧ Edit t s .bury (abortLocal s t) ∨
      Edits t abortEdits s (abortLocal s t) := by
  unfold abortLocal
  split
  · exact .inr .refl
  rename_i hex
  split
  · rename_i hd
    split
    · exact .inl ⟨threadExists_iff.mp (not_not.mp hex), .bury hd⟩
    · exact .inr .refl
  · rename_i hd
    exact .inr (.after (.force fun h => hd h.1) (by simp [abortEdits]) (cancelLocal_edits cancelEdits_forced))

/-- `pth_join` reaps the thread it was asked for, or any dead one. -/
theorem joinEnd_edit :
    (joinEnd s tid).1 = s ∨ ∃ t, joinTarget s tid = some t ∧ Edit t s .bury (joinEnd s tid).1 := by
  unfold joinEnd
  split
  · exact .inl rfl
  · rename_i t ht
    refine .inr ⟨t, ht, ?_⟩
    split
    · exact .blame ‹_›
    · exact .bury (not_not.mp ‹_›)

theorem pthAbort_edits :
    Edit t s .bury (pthAbort s cur t).1 ∨ Edits t abortEdits s (pthAbort s cur t).1 := by
  unfold pthAbort
  split
  · exact .inr .refl
  split
  · split
    · exact .inr .refl
    · rcases (joinEnd_edit : (joinEnd s (some t)).1 = s ∨ _) with h | ⟨u, hu, h⟩
      · rw [h]
        exact .inr .refl
      · cases hu
        exact .inl h
  · rename_i hd
    exact .inr (.after (.force hd) (by simp [abortEdits]) (pthCancel_edits cancelEdits_forced))

theorem joinEnd_touches :
    (joinEnd s tid).1 = s ∨ ∃ t, joinTarget s tid = some t ∧ Touches False t s (joinEnd s tid).1 :=
  joinEnd_edit.imp_right fun ⟨t, ht, h⟩ => ⟨t, ht, h.touches nofun⟩

/-! ### Messages -/

/-- The edits that a message asks for. -/
def msgEdits (b : Tcb) : Inbox.Kind → List EditKind
  | .cancel => cancelEdits b
  | .raise => [.mark]
  | .suspend => [.suspend]
  | .resume => [.resume]
  | .favor => [.favor]
  | .abort => abortEdits
  | _ => []

theorem msgEdits_bury {k : Inbox.Kind} : .bury ∉ msgEdits b k := by
  cases k <;> simp [msgEdits, abortEdits]

/-- What a message does. -/
inductive Drains (s : State) (m : Inbox.Gmsg) : State → Prop
  | same : Drains s m s
  | wake {e : EventId} (hk : m.kind = .wake) (he : m.event = some e) :
      Drains s m (s.setStatus e .occurred)
  | stop (hk : m.kind = .stop) : Drains s m { s with stop := true }
  | spawn {t : Tid} (hk : m.kind = .spawn) (ht : m.thread = some t) : Drains s m (adopt s t)
  | reap {t : Tid} (hk : m.kind = .reap) (ht : m.thread = some t) : Drains s m (reap s t)
  | bury {t : Tid} {s₁ : State} (ht : m.thread = some t) (hq : ∃ n, t ∈ s.members n)
      (h : Edit t s .bury s₁) : Drains s m s₁
  | edits {t : Tid} {s₁ : State} (ht : m.thread = some t)
      (h : Edits t (msgEdits (s.tcb t) m.kind) s s₁) : Drains s m s₁

theorem drainMsg_drains (s : State) (m : Inbox.Gmsg) : Drains s m (drainMsg s m) := by
  unfold drainMsg
  split
  · split
    · exact .wake ‹_› ‹_›
    · exact .same
  · exact .stop ‹_›
  · exact .spawn ‹_› ‹_›
  · exact .reap ‹_› ‹_›
  · rename_i hk ht
    exact .edits ht (cancelLocal_edits (by rw [hk]; exact List.Subset.refl _))
  · rename_i hk ht
    exact .edits ht (by rw [hk]; exact raiseLocal_edits)
  · rename_i hk ht
    exact .edits ht (by rw [hk]; exact suspendLocal_edits)
  · rename_i hk ht
    exact .edits ht (by rw [hk]; exact resumeLocal_edits)
  · rename_i hk ht
    exact .edits ht (by rw [hk]; exact favorLocal_edits)
  · rename_i hk ht
    rcases abortLocal_edits with ⟨hq, h⟩ | h
    · exact .bury ht hq h
    · exact .edits ht (by rw [hk]; exact h)
  · exact .same

/-- A message that is not about the scheduler itself works on one thread. -/
theorem drainMsg_cases (s : State) (m : Inbox.Gmsg) :
    drainMsg s m = s ∨
    (∃ e, m.kind = .wake ∧ m.event = some e ∧ drainMsg s m = s.setStatus e .occurred) ∨
    m.kind = .stop ∧ drainMsg s m = { s with stop := true } ∨
    (∃ t, m.kind = .spawn ∧ m.thread = some t ∧ drainMsg s m = adopt s t) ∨
    ∃ t, m.thread = some t ∧ Touches ((s.tcb t).state = .waiting) t s (drainMsg s m) := by
  have h := drainMsg_drains s m
  generalize drainMsg s m = s' at h ⊢
  cases h with
  | same => exact .inl rfl
  | wake hk he => exact .inr (.inl ⟨_, hk, he, rfl⟩)
  | stop hk => exact .inr (.inr (.inl ⟨hk, rfl⟩))
  | spawn hk ht => exact .inr (.inr (.inr (.inl ⟨_, hk, ht, rfl⟩)))
  | reap _ ht => exact .inr (.inr (.inr (.inr ⟨_, ht, .reap⟩)))
  | bury ht _ h => exact .inr (.inr (.inr (.inr ⟨_, ht, h.touches nofun⟩)))
  | edits ht h => exact .inr (.inr (.inr (.inr ⟨_, ht, h.touches fun _ => id⟩)))

/-- A message changes nothing about where the scheduler is, and takes no time. -/
theorem drainMsg_ctl_clock :
    (drainMsg s m).ctl = s.ctl ∧ (drainMsg s m).clock = s.clock := by
  rcases drainMsg_cases s m with h | ⟨_, -, -, h⟩ | ⟨-, h⟩ | ⟨_, -, -, h⟩ | ⟨_, -, h⟩
  case inr.inr.inr.inr => exact ⟨h.control.ctl, h.control.clock⟩
  all_goals
    rw [h]
    exact ⟨rfl, rfl⟩

theorem drainMsg_ctl : (drainMsg s m).ctl = s.ctl := drainMsg_ctl_clock.1

theorem drainMsg_clock : (drainMsg s m).clock = s.clock := drainMsg_ctl_clock.2

/-! ### Other changes -/

theorem SameControl.joinEnd : SameControl s (joinEnd s tid).1 := by
  rcases (joinEnd_touches : (Sched.joinEnd s tid).1 = s ∨ _) with h | ⟨t, -, h⟩
  · rw [h]; rfl
  · exact h.control

theorem SameControl.cancelDone : SameControl s (cancelDone s t) := by
  unfold Sched.cancelDone
  dsimp only
  split <;> rfl

theorem cancelDone_fault : (cancelDone s t).fault = s.fault := by
  unfold cancelDone
  dsimp only
  split <;> rfl

theorem reap_fault (ha : (s.tcb t).alive = true) (hq : t ∈ s.members .dq) :
    (reap s t).fault = s.fault := by
  unfold reap
  rw [if_pos ⟨ha, Pqueue.contains_iff.mpr hq⟩]
  rfl

/-- A control block that is there is read, and a dead thread is in the dead queue. -/
theorem Edit.bury_fault (h : Edit t s .bury s') (ha : (s.tcb t).alive = true)
    (hq : (s.tcb t).state = .dead → t ∈ s.members .dq) : s'.fault = s.fault := by
  cases h with
  | bury hd => exact reap_fault ha (hq hd)
  | blame => simp [ha]

theorem newEvent_fault (h : newEvent s cur e spec static = some s') : s'.fault = s.fault := by
  unfold newEvent at h
  split at h <;> cases h
  rfl

end GnuPth.Sched
