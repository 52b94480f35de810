import GnuPth.Sched.Sleep

/-!
# What `pth_wait` returns

A thread comes out of the waiting queue in the middle of `pth_wait` only if it
is finished there. Until it gets to count its events nobody may mark one of
them pending again, and a cancellation request must not be all there is.
-/

namespace GnuPth.Sched

open Inbox (Gmsg)
open Transition

variable {s : State}

/-- The result of `pth_wait`. -/
def nonpending (s : State) (ring : List EventId) : Nat :=
  ring.countP fun e => (s.event e).status ≠ .pending

def Tcb.resuming (b : Tcb) : Bool := b.state = .ready && b.pc matches .inWait _

variable {b : Tcb}

theorem Tcb.resuming_iff : b.resuming = true ↔ b.state = .ready ∧ ∃ k, b.pc = .inWait k := by
  unfold Tcb.resuming
  cases b.pc <;> simp

/-! ### The condition -/

/-- A thread about to count its events has `e` among them. -/
def inUse (s : State) (e : EventId) : Bool :=
  [Qname.rq, .sq].any fun n => (s.members n).any fun t => (s.tcb t).resuming && e ∈ (s.tcb t).events

/-- No request is pending for a thread that returns from `pth_wait` with
cancellation disabled, and no event is used again before it has been counted. -/
def undisturbed (s : State) : Act → Bool
  | .op o =>
    (o.marks.all fun e => !inUse s e) &&
      match o, s.ctl with
      | .waitReturn _ _, .run cur => (s.tcb cur).cancelEnable || !(s.tcb cur).cancelreq
      | _, _ => true
  | _ => true

def undisturbedSystem (cfg : Config) : System State Act :=
  (system cfg).restrict fun s a => undisturbed s a = true

theorem undisturbed_marks (h : undisturbed s (.op o) = true) (he : e ∈ o.marks) :
    inUse s e = false := by
  simp only [undisturbed, Bool.and_eq_true, List.all_eq_true] at h
  simpa using h.1 e he

theorem notMem_of_not_inUse (h : inUse s e = false) (hn : n = .rq ∨ n = .sq)
    (ht : t ∈ s.members n) (hr : (s.tcb t).resuming = true) : e ∉ (s.tcb t).events := by
  intro he
  have : inUse s e = true := by
    simp only [inUse, List.any_eq_true]
    refine ⟨n, ?_, t, ht, by simp [hr, he]⟩
    rcases hn with rfl | rfl <;> simp
  simp [this] at h

/-! ### The invariant -/

def Up (s : State) (t : Tid) : Prop :=
  t ∈ s.members .rq ∨ t ∈ s.members .sq ∨ s.ctl = .run t ∨ s.ctl = .back t

structure Waited (s : State) : Prop where
  new : ∀ t, (s.tcb t).alive = true → (s.tcb t).state = .new → (s.tcb t).pc = .app
  up : ∀ t, Up s t → (s.tcb t).resuming = true → anyOccurred s t = true
  -- a thread on whose stack handlers run has called `pth_cancel` or `pth_abort`
  host : s.cleaning ≠ [] → ∀ t, s.ctl = .run t → ∀ k, (s.tcb t).pc ≠ .inWait k

theorem Tcb.resuming_congr {b' : Tcb} (hs : b'.state = b.state) (hp : b'.pc = b.pc) :
    b'.resuming = b.resuming := by
  unfold Tcb.resuming
  rw [hs, hp]

theorem Tcb.not_resuming (h : b.state ≠ .ready ∨ ∀ k, b.pc ≠ .inWait k) : b.resuming = false := by
  refine Bool.eq_false_iff.mpr fun hr => ?_
  obtain ⟨hs, k, hk⟩ := Tcb.resuming_iff.mp hr
  exact h.elim (· hs) (· k hk)

def Queued (s : State) : Prop := ∀ n, ∀ t ∈ s.members n, n.Admits (s.tcb t).state

theorem Placed.queues (h : Placed False none s) : Queued s := fun _ _ ht => (h.queued ht).state

/-- Of the queues, only the ready and the suspended one have threads to resume. -/
theorem Queued.up (hp : Queued s) (ht : t ∈ s.members n) (hr : (s.tcb t).resuming = true) :
    Up s t := by
  have hst := hp n t ht
  obtain ⟨hready, -⟩ := Tcb.resuming_iff.mp hr
  rw [hready] at hst
  cases n with
  | rq => exact .inl ht
  | sq => exact .inr (.inl ht)
  | _ => cases hst

theorem Waited.touch (hW : Waited s) (hp : Queued s) (h : Touches entering t s s')
    (hh : s'.cleaning ≠ [] → ∀ t, s.ctl = .run t → ∀ k, (s.tcb t).pc ≠ .inWait k) : Waited s' where
  new u ha hn := by
    rw [h.state_eq] at hn
    rw [h.pc_eq]
    refine hW.new u ?_ hn
    -- a dead thread is not new
    have hd : u ∉ s.members .dq := fun hd => by
      have hst : (s.tcb u).state = .dead := hp .dq u hd
      cases hst.symm.trans hn
    rwa [← h.alive_eq hd]
  up u hu hr := by
    rw [Tcb.resuming_congr h.state_eq h.pc_eq] at hr
    have hup : Up s u := by
      rcases hu with hu | hu | hu | hu
      · exact (h.queued_of hu).elim fun m hm => hp.up hm hr
      · exact (h.queued_of hu).elim fun m hm => hp.up hm hr
      · exact .inr (.inr (.inl (h.control.ctl ▸ hu)))
      · exact .inr (.inr (.inr (h.control.ctl ▸ hu)))
    refine anyOccurred_mono ?_ h.events_eq h.cancelreq_mono (hW.up u hup hr)
    rw [h.event]
    exact fun _ => id
  host hc u hu k := by
    rw [h.control.ctl] at hu
    rw [h.pc_eq]
    exact hh hc u hu k

/-- One thread is worked on, and no event another one is to count is marked
pending. -/
theorem Waited.except (hW : Waited s) (c : Tid) (htcb : ∀ u, u ≠ c → s'.tcb u = s.tcb u)
    (hup : ∀ u, u ≠ c → Up s' u → Up s u)
    (hev : ∀ u, u ≠ c → Up s u → (s.tcb u).resuming = true → ∀ e ∈ (s.tcb u).events,
      (s.event e).status ≠ .pending → (s'.event e).status ≠ .pending)
    (hc : Up s' c → (s'.tcb c).resuming = true → anyOccurred s' c = true)
    (hn : (s'.tcb c).alive = true → (s'.tcb c).state = .new → (s'.tcb c).pc = .app)
    (hh : s'.cleaning ≠ [] → ∀ t, s'.ctl = .run t → ∀ k, (s'.tcb t).pc ≠ .inWait k) : Waited s' where
  new u ha hst := by
    by_cases hu : u = c
    · subst hu
      exact hn ha hst
    · rw [htcb u hu] at ha hst ⊢
      exact hW.new u ha hst
  up u hu hr := by
    by_cases huc : u = c
    · subst huc
      exact hc hu hr
    · have hu := hup u huc hu
      rw [htcb u huc] at hr
      rcases anyOccurred_iff.mp (hW.up u hu hr) with ⟨e, he, hst⟩ | hreq
      · refine anyOccurred_iff.mpr (.inl ⟨e, ?_, hev u huc hu hr e he hst⟩)
        rwa [htcb u huc]
      · refine anyOccurred_iff.mpr (.inr ?_)
        rwa [htcb u huc]
  host := hh

theorem Waited.events (hW : Waited s) (ht : s'.tcb = s.tcb) (hq : s'.queue = s.queue)
    (hctl : s'.ctl = s.ctl) (hcl : s'.cleaning = s.cleaning)
    (hev : ∀ u, Up s u → (s.tcb u).resuming = true → ∀ e ∈ (s.tcb u).events,
      (s.event e).status ≠ .pending → (s'.event e).status ≠ .pending) : Waited s' where
  new := by rw [ht]; exact hW.new
  up u hu hr := by
    have hu : Up s u := by simpa [Up, State.members, hq, hctl] using hu
    rw [ht] at hr
    rcases anyOccurred_iff.mp (hW.up u hu hr) with ⟨e, he, hst⟩ | hreq
    · exact anyOccurred_iff.mpr (.inl ⟨e, by rwa [ht], hev u hu hr e he hst⟩)
    · exact anyOccurred_iff.mpr (.inr (by rwa [ht]))
  host := by rw [hctl, hcl, ht]; exact hW.host

/-- A call behind which its thread, running or on its way back, has nothing to
count. -/
theorem Waited.running (hW : Waited s) (htcb : ∀ u, u ≠ t → s'.tcb u = s.tcb u)
    (hq : s'.queue = s.queue) (hctl : s'.ctl = .run t ∨ s'.ctl = .back t) (hcl : s'.cleaning = [])
    (hev : ∀ u, u ≠ t → Up s u → (s.tcb u).resuming = true → ∀ e ∈ (s.tcb u).events,
      (s.event e).status ≠ .pending → (s'.event e).status ≠ .pending)
    (hres : (s'.tcb t).resuming = false) (hn : (s'.tcb t).state ≠ .new) : Waited s' := by
  refine hW.except t htcb (fun u hu hup => ?_) hev (fun _ h => ?_) (fun _ h => absurd h hn) ?_
  · rcases hup with h | h | h | h
    · exact .inl (by simpa [State.members, hq] using h)
    · exact .inr (.inl (by simpa [State.members, hq] using h))
    · rcases hctl with hc | hc <;> simp [hc] at h
      exact absurd h.symm hu
    · rcases hctl with hc | hc <;> simp [hc] at h
      exact absurd h.symm hu
  · simp [hres] at h
  · simp [hcl]

/-- The events that a call of the running thread marks are nobody's to count. -/
theorem Running.spares (hr : Running s cur) (hok : undisturbed s (.op o) = true)
    (he : e ∈ o.marks) (hne : u ≠ cur) (hu : Up s u) (hres : (s.tcb u).resuming = true) :
    e ∉ (s.tcb u).events := by
  rcases hu with hu | hu | hu | hu
  · exact notMem_of_not_inUse (undisturbed_marks hok he) (.inl rfl) hu hres
  · exact notMem_of_not_inUse (undisturbed_marks hok he) (.inr rfl) hu hres
  · simp [hr.ctl, hne.symm] at hu
  · simp [hr.ctl] at hu

theorem cancelDone_up (h : Up (cancelDone s t) u) : Up s u := by
  unfold cancelDone at h
  dsimp only at h
  split at h
  · exact h
  · simpa [Up, State.members, State.enqueue, State.setTcb, destroyEvents] using h

theorem cancelDone_state (h : ((cancelDone s t).tcb t).alive = true) :
    ((cancelDone s t).tcb t).state ≠ .new := by
  unfold cancelDone at h ⊢
  dsimp only at h ⊢
  split at h
  · simp [tcbFree, State.setTcb] at h
  · rename_i hj
    rw [if_neg hj]
    simp [State.enqueue, State.setTcb]

theorem Waited.works (hW : Waited s) (hp : Placed False none s) (hok : undisturbed s (.op o) = true)
    (hw : Works s cur o s') : Waited s' := by
  have hready : Running s cur → (s.tcb cur).state = .ready := fun hr => (hp.running hr.ctl).state
  refine hW.running hw.tcb hw.queue hw.ctl hw.cleaning (fun u hu hup hres e he hst => ?_) ?_ ?_
  · rcases hw.event e with h | h | ⟨-, h⟩
    · rwa [h]
    · exact absurd he (h.running.spares hok h.marks hu hup hres)
    · rwa [h]
  · rcases hw.caller with ⟨h, -⟩ | h | ⟨-, -, h⟩
    · exact Tcb.not_resuming (.inl (by simp [h]))
    · exact Tcb.not_resuming (.inl (by simp [h]))
    · exact Tcb.not_resuming (.inr h)
  · rcases hw.caller with ⟨h, -⟩ | h | ⟨hr, h, -⟩
    · simp [h]
    · simp [h]
    · simp [h, hready hr]

theorem Placed.cleaning_not_up (h : Placed False none s) (ht : t ∈ s.cleaning) : ¬ Up s t := by
  have hne : ∀ {c : Spot}, t ∈ spots s c → c = .cleaning := fun hc => h.linear.unique hc ht
  rintro (hu | hu | hu | hu)
  · cases hne (c := .queue .rq) hu
  · cases hne (c := .queue .sq) hu
  · cases hne (c := .run) (by simp [spots, hu, Ctl.running])
  · cases hne (c := .back) (by simp [spots, hu, Ctl.returning])

theorem Placed.freed_not_up (h : Placed False none s) (ht : (s.tcb t).alive = false) :
    ¬ Up s t := by
  have hne : ∀ {c : Spot}, t ∉ spots s c := fun {c} => h.notMem_of_freed ht c
  rintro (hu | hu | hu | hu)
  · exact hne (c := .queue .rq) hu
  · exact hne (c := .queue .sq) hu
  · exact hne (c := .run) (by simp [spots, hu, Ctl.running])
  · exact hne (c := .back) (by simp [spots, hu, Ctl.returning])

theorem Placed.caller (hp : Placed False none s) (hc : s.current = some cur)
    (hpc : s.cleaning = [] → (s.tcb cur).pc = .app ∨ (s.tcb cur).pc = .exiting) (hu : Up s cur) :
    (s.tcb cur).resuming = false := by
  cases hcl : s.cleaning with
  | cons t =>
    obtain rfl : t = cur := by simpa [State.current, hcl] using hc
    exact absurd hu (hp.cleaning_not_up (by simp [hcl]))
  | nil =>
    refine Tcb.not_resuming (.inr fun k hk => ?_)
    rcases hpc hcl with h | h <;> simp [h] at hk

theorem Waited.hosts (hW : Waited s) (hc : s.current = some cur)
    (hpc : s.cleaning = [] → (s.tcb cur).pc = .app ∨ (s.tcb cur).pc = .exiting) (ht : s.ctl = .run t)
    (k : Cont) : (s.tcb t).pc ≠ .inWait k := by
  cases hcl : s.cleaning with
  | cons => exact hW.host (by simp [hcl]) t ht k
  | nil =>
    obtain rfl : t = cur := by simpa [State.current, hcl, ht] using hc
    intro hk
    rcases hpc hcl with h | h <;> simp [h] at hk

theorem Waited.returns (hW : Waited s) (hp : Placed False none s) (hh : Hosted s)
    (hok : undisturbed s (.op o) = true) (hc : s.current = some cur)
    (hpc : s.cleaning = [] → (s.tcb cur).pc = .app ∨ (s.tcb cur).pc = .exiting)
    (h : Returns s cur o s') : Waited s' := by
  have hhost : ∀ t, s.ctl = .run t → ∀ k, (s.tcb t).pc ≠ .inWait k := fun t => hW.hosts hc hpc
  cases h with
  | same => exact hW
  | touch _ _ h | resume _ h => exact hW.touch hp.queues h fun _ => hhost
  | @spawn t =>
    refine hW.except t (fun u hu => ?_) (fun u hu hup => ?_) (fun _ _ _ _ _ _ => id) ?_ ?_ ?_
    · simp [State.enqueue, State.setTcb, hu]
    · simpa [Up, State.members, State.enqueue, State.setTcb] using hup
    · intro _ hr
      simp [State.enqueue, State.setTcb, Attr.tcb, Tcb.resuming] at hr
    · intro _ _
      simp [State.enqueue, State.setTcb, Attr.tcb]
    · intro _ u hu k
      by_cases hut : u = t
      · subst hut
        simp [State.enqueue, State.setTcb, Attr.tcb]
      · simpa [State.enqueue, State.setTcb, hut] using hhost u hu k
  | @event e =>
    refine hW.events rfl rfl rfl rfl fun u hup hr e' he hst => ?_
    have hne : e' ≠ e := by
      rintro rfl
      rcases hup with hup | hup | hup | hup
      · exact notMem_of_not_inUse (undisturbed_marks hok (by simp [Op.marks])) (.inl rfl) hup hr he
      · exact notMem_of_not_inUse (undisturbed_marks hok (by simp [Op.marks])) (.inr rfl) hup hr he
      · obtain ⟨-, k, hk⟩ := Tcb.resuming_iff.mp hr
        exact hhost u hup k hk
      · have := hh.of_current hc
        simp [hup, Ctl.hosts] at this
    simpa [State.setEvent, hne] using hst
  | eventFree =>
    refine hW.events rfl rfl rfl rfl fun _ _ _ e' _ hst => ?_
    simp only [State.setEvent, Function.update_apply]
    split
    · rename_i heq
      exact heq ▸ hst
    · exact hst
  | cancelState =>
    refine hW.except cur (fun u hu => ?_) (fun _ _ => id) (fun _ _ _ _ _ _ => id) ?_ ?_ ?_
    · simp [State.setTcb, hu]
    · intro hup hr
      have hcur := hp.caller hc hpc hup
      simp [State.setTcb, Tcb.resuming] at hr
      simp [Tcb.resuming, hr] at hcur
    · simpa [State.setTcb] using hW.new cur
    · intro _ t ht k
      by_cases htc : t = cur
      · subst htc
        simpa [State.setTcb] using hhost t ht k
      · simpa [State.setTcb, htc] using hhost t ht k

/-! ### The scheduler -/

theorem Waited.setCtl (hW : Waited s) (ht : s'.tcb = s.tcb) (he : s'.event = s.event)
    (hup : ∀ u, Up s' u → Up s u) (hcl : s'.cleaning = []) : Waited s' where
  new := by rw [ht]; exact hW.new
  up u hu hr := by
    rw [ht] at hr
    rw [anyOccurred_congr (congrFun ht u) he]
    exact hW.up u (hup u hu) hr
  host h := absurd hcl h

theorem Waited.idle (hW : Waited s) (ht : s'.tcb = s.tcb) (he : s'.event = s.event)
    (hq : s'.queue = s.queue) (hcl : s'.cleaning = []) (hrun : s'.ctl.running = [])
    (hret : s'.ctl.returning = []) : Waited s' := by
  refine hW.setCtl ht he (fun u hu => ?_) hcl
  rcases hu with h | h | h | h
  · exact .inl (by simpa [State.members, hq] using h)
  · exact .inr (.inl (by simpa [State.members, hq] using h))
  · simp [h, Ctl.running] at hrun
  · simp [h, Ctl.returning] at hret

theorem Up.of_move
    (h : Up (((s.dequeue n t).setTcb t f).enqueue m prio t) u) (hu : u ≠ t) : Up s u := by
  have hq : ∀ {k}, u ∈ (((s.dequeue n t).setTcb t f).enqueue m prio t).members k → u ∈ s.members k := by
    intro k hk
    rcases mem_members_enqueue.mp hk with ⟨-, rfl⟩ | hk
    · exact absurd rfl hu
    · exact members_dequeue_subset hk
  exact h.imp hq (Or.imp hq id)

theorem Waited.promoteTail (hW : Waited s) (hp : Placed False none s) (hcl : s.cleaning = [])
    (ht : t ∈ s.members .nq) : Waited (promoteTail cfg s t) := by
  have hpc : (s.tcb t).pc = .app := hW.new t (hp.queued ht).alive (hp.queued ht).state
  refine hW.except t (fun u hu => ?_) (fun u hu hup => hup.of_move hu) (fun _ _ _ _ _ _ => id) ?_ ?_ ?_
  · simp [Sched.promoteTail, State.enqueue, State.dequeue, State.setTcb, hu]
  · intro _ hr
    simp [Sched.promoteTail, State.enqueue, State.dequeue, State.setTcb, hpc, Tcb.resuming] at hr
  · simp [Sched.promoteTail, State.enqueue, State.setTcb]
  · exact absurd hcl

theorem Waited.schedule (hW : Waited s) (hp : Placed False none s) (hcl : s.cleaning = []) :
    Waited (schedule cfg s) := by
  obtain ⟨h₁, hcl₁⟩ : Waited (promoteNew cfg (s.elements .nq) s) ∧
      (promoteNew cfg (s.elements .nq) s).cleaning = [] :=
    hp.promoteNew_rule (P := fun s => Waited s ∧ s.cleaning = []) ⟨hW, hcl⟩
      (fun _ _ hp ht h => ⟨h.1.promoteTail hp h.2 ht, h.2⟩) _
  unfold Sched.schedule
  dsimp only
  split
  · rename_i t p rq hrq
    refine h₁.setCtl rfl rfl (fun u hu => ?_) hcl₁
    have hmem : ∀ {v}, v = t ∨ v ∈ Pqueue.members rq →
        v ∈ (promoteNew cfg (s.elements .nq) s).members .rq := by
      intro v hv
      simpa [State.members, hrq] using hv
    rcases hu with h | h | h | h
    · exact .inl (hmem (.inr (by simpa [State.members] using h)))
    · exact .inr (.inl (by simpa [State.members] using h))
    · exact .inl (hmem (.inl (by simpa using h.symm)))
    · cases h
  · repeat' split
    all_goals exact h₁.idle rfl rfl rfl hcl₁ rfl rfl

theorem putBack_tcb :
    (putBack s t).tcb u = s.tcb u ∨ (putBack s t).tcb u = { s.tcb u with alive := false } := by
  unfold putBack
  by_cases hu : u = t
  · subst hu
    repeat' split
    all_goals simp [tcbFree, State.setTcb, State.enqueue]
  · repeat' split
    all_goals simp [tcbFree, State.setTcb, State.enqueue, hu]

theorem putBack_event : (putBack s t).event = s.event := by
  unfold putBack
  repeat' split
  all_goals rfl

theorem putBack_members (h : u ∈ (putBack s t).members n) : u = t ∨ u ∈ s.members n := by
  unfold putBack at h
  repeat' split at h
  all_goals
    simp only [tcbFree, State.setTcb, State.enqueue, State.members] at h
    grind [Pqueue.mem_insert, Pqueue.members_increase, State.members]

theorem Waited.comeBack (hW : Waited s) (hcl : s.cleaning = []) (hc : s.ctl = .back t) :
    Waited (comeBack cfg s t) := by
  have hcl₁ : (putBack s t).cleaning = [] := SameOutside.putBack.cleaning.trans hcl
  have hback : Up s t := .inr (.inr (.inr hc))
  have hidle : ∀ {ctl : Ctl}, ctl.running = [] → ctl.returning = [] →
      Waited { putBack s t with ctl := ctl } := by
    intro ctl hrun hret
    refine ⟨fun u ha hn => ?_, fun u hu hr => ?_, absurd hcl₁⟩
    · rcases (putBack_tcb : (putBack s t).tcb u = _ ∨ _) with h | h
      · rw [h] at ha hn ⊢
        exact hW.new u ha hn
      · simp [h] at ha
    · have hu : Up s u := by
        have hq : ∀ {n}, u ∈ (putBack s t).members n → u ∈ s.members n ∨ Up s u :=
          fun hm => (putBack_members hm).elim (fun he => .inr (he ▸ hback)) .inl
        rcases hu with h | h | h | h
        · exact (hq h).elim .inl id
        · exact (hq h).elim (.inr ∘ .inl) id
        · have h : ctl = .run u := h
          simp [h, Ctl.running] at hrun
        · have h : ctl = .back u := h
          simp [h, Ctl.returning] at hret
      rcases (putBack_tcb : (putBack s t).tcb u = _ ∨ _) with h | h
      all_goals
        simp only [h] at hr
        refine anyOccurred_mono ?_ ?_ ?_ (hW.up u hu hr)
        · rw [show _ = s.event from putBack_event]; exact fun _ => id
        · simp [h]
        · simp [h]
  unfold Sched.comeBack
  dsimp only
  repeat' split
  all_goals exact hidle rfl rfl

theorem scanEvent_status_ne (h : (k.state.event e').status ≠ .pending) :
    ((scanEvent now fires t k e).state.event e').status ≠ .pending := by
  unfold scanEvent
  repeat' split
  · exact h
  · simp only [State.setStatus, State.setEvent, logFired_event, Function.update_apply]
    split
    · simp
    · exact h
  · exact h
  · exact h

theorem scanEvents_status_ne {l : List EventId} (h : (k.state.event e).status ≠ .pending) :
    ((l.foldl (scanEvent now fires t) k).state.event e).status ≠ .pending := by
  induction l generalizing k with
  | nil => exact h
  | cons e' l ih => exact ih (scanEvent_status_ne h)

theorem scanThreads_status_ne {l : List Tid} (h : (k.state.event e).status ≠ .pending) :
    ((l.foldl (scanThread now fires) k).state.event e).status ≠ .pending := by
  induction l generalizing k with
  | nil => exact h
  | cons t l ih =>
    refine ih ?_
    unfold scanThread
    split <;> exact scanEvents_status_ne h

/-- The loop at the end of a pass takes a thread out of the waiting queue only if
it is finished. -/
theorem Waited.cleanupThread (hW : Waited s) (hcl : s.cleaning = []) :
    Waited (cleanupThread late s t) := by
  have hsame : SameThreads s ((s.tcb t).events.foldl (lateEvent late) s) :=
    .foldl SameThreads.lateEvent _ _
  have h₁ : Waited ((s.tcb t).events.foldl (lateEvent late) s) :=
    hW.events hsame.tcb hsame.queue hsame.ctl hsame.cleaning fun _ _ _ _ _ => lateEvents_status_ne
  have hcl₁ := hsame.cleaning.trans hcl
  unfold Sched.cleanupThread
  dsimp only
  split
  · rename_i hocc
    refine h₁.except t (fun u hu => ?_) (fun u hu hup => hup.of_move hu) (fun _ _ _ _ _ _ => id) ?_ ?_ ?_
    · simp [State.enqueue, State.setTcb, State.dequeue, hu]
    · intro _ _
      refine anyOccurred_mono (s := (s.tcb t).events.foldl (lateEvent late) s) (fun _ => id) ?_ ?_ hocc
      · simp [State.enqueue, State.setTcb, State.dequeue]
      · simp [State.enqueue, State.setTcb, State.dequeue]
    · simp [State.enqueue, State.setTcb]
    · exact absurd hcl₁
  · exact h₁

theorem Waited.drainMsg (hW : Waited s) (hp : Queued s) (hrun : ∀ t, s.ctl ≠ .run t)
    (hm : ∀ t, spawnOf m = some t → (s.tcb t).alive = true ∧ (s.tcb t).state = .new) :
    Waited (drainMsg s m) := by
  rcases drainMsg_cases s m with h | ⟨e, -, -, h⟩ | ⟨-, h⟩ | ⟨t, hk, ht, h⟩ | ⟨t, -, h⟩
  · rw [h]
    exact hW
  · rw [h]
    refine hW.events rfl rfl rfl rfl fun _ _ _ e _ he => ?_
    simp only [State.setStatus, State.setEvent, Function.update_apply]
    split
    · simp
    · exact he
  · rw [h]
    exact ⟨hW.new, hW.up, hW.host⟩
  · rw [h]
    obtain ⟨ha, hst⟩ := hm t (by simp [spawnOf, hk, ht])
    refine hW.except t (fun u hu => ?_) (fun u _ hup => ?_) (fun _ _ _ _ _ _ => id) ?_ ?_ ?_
    · simp [adopt, State.enqueue, State.setTcb, hu]
    · simpa [adopt, Up, State.members, State.enqueue, State.setTcb] using hup
    · intro _ hr
      simp [adopt, State.enqueue, State.setTcb, Tcb.resuming] at hr
    · intro _ _
      simpa [adopt, State.enqueue, State.setTcb] using hW.new t ha hst
    · exact fun _ u hu => absurd hu (hrun u)
  · exact hW.touch hp h fun _ t ht => absurd ht (hrun t)

theorem Waited.message {em : Em} (hW : Waited s)
    (hp : Placed False none s) (hcl : s.cleaning = []) (hb : s.ctl.batch = m :: batch) :
    Waited (Sched.drainMsg { s with ctl := .em em } m) := by
  have h₁ : Waited { s with ctl := .em em } := hW.idle rfl rfl rfl hcl rfl rfl
  refine h₁.drainMsg hp.queues (fun t => by simp) fun t ht => ?_
  have hfl : t ∈ spots s .flight := by simp [spots, hb, ht]
  exact ⟨(hp.admits .flight t hfl).alive, (hp.admits .flight t hfl).state⟩

/-! ### Runs -/

theorem Waited.step (hW : Waited s) (hp : Placed False none s) (hh : Hosted s)
    (hok : undisturbed s a = true) (hs : exec cfg s a = some s') : Waited s' := by
  obtain ⟨o, rfl, hcall⟩ | ⟨hop, hstep⟩ := exec_call hs
  · cases hcall with
    | returns hc hpc hret => exact hW.returns hp hh hok hc hpc hret
    | works _ _ hw => exact hW.works hp hok hw
    | @yield cur o t s₁ hr hpc ht hcl =>
      have hready : (s.tcb cur).state = .ready := (hp.running hr.ctl).state
      have h₁ : Waited s₁ := hW.touch hp.queues ht fun h => absurd (hcl.trans hr.cleaning) h
      refine h₁.running (fun _ _ => rfl) rfl (.inr rfl) (hcl.trans hr.cleaning) (fun _ _ _ _ _ _ => id) ?_ ?_
      · exact Tcb.not_resuming (.inr (by simp [switchOut, ht.pc_eq, hpc]))
      · simp [switchOut, ht.state_eq, hready]
    | joined hr ht hcl =>
      exact (hW.works hp hok hr.returned).touch (hp.setTcb ⟨rfl, rfl, rfl⟩).queues ht fun h => absurd hcl h
    | @exited cur o s₁ hc _ hack =>
      cases hack with
      | none => exact hW.idle rfl rfl rfl rfl rfl rfl
      | due =>
        refine hW.except cur (fun u hu => Function.update_of_ne hu _ _) (fun u _ hu => ?_)
          (fun _ _ _ _ _ _ => id) ?_ (by simpa [ackCancel, State.setTcb] using hW.new cur) fun h => absurd rfl h
        · exact hu.imp_right (Or.imp_right (by rintro (h | h) <;> cases h))
        · rintro (hu | hu | hu | hu)
          · exact absurd hu (hp.current_notMem hc)
          · exact absurd hu (hp.current_notMem hc)
          · cases hu
          · cases hu
  cases hstep with
  | @cleaned t rest hc =>
    have hup : ∀ {u}, Up (cancelDone { s with cleaning := rest } t) u → Up s u := cancelDone_up
    have hnot : ¬ Up s t := hp.cleaning_not_up (by simp [hc])
    refine hW.except t (fun u hu => ?_) (fun u _ => hup) (fun u hu _ _ e _ h => ?_) ?_ ?_ ?_
    · exact (cancelDone_spares hu).tcb
    · exact (cancelDone_spares hu).event e h
    · exact fun h => absurd (hup h) hnot
    · intro ha hn
      exact absurd hn (cancelDone_state ha)
    · intro _ u hu k
      have hrun : s.ctl = .run u := (SameControl.cancelDone (s := { s with cleaning := rest })).ctl.symm.trans hu
      have hut : u ≠ t := by
        rintro rfl
        exact hnot (.inr (.inr (.inl hrun)))
      rw [(cancelDone_spares hut).tcb]
      exact hW.host (by simp [hc]) u hrun k
  | post | tick => exact ⟨hW.new, hW.up, hW.host⟩
  | @spawnOn t attr ht =>
    refine hW.except t (fun u hu => Function.update_of_ne hu _ _) (fun u hu => id)
      (fun _ _ _ _ _ _ => id) ?_ ?_ ?_
    · intro h
      exact absurd h (hp.freed_not_up ht)
    · intro _ _
      simp [State.setTcb, Attr.tcb]
    · intro hcl u hu k
      have hut : u ≠ t := by
        rintro rfl
        exact hp.freed_not_up ht (.inr (.inr (.inl hu)))
      simpa [State.setTcb, hut] using hW.host hcl u hu k
  | sched hcl => exact hW.schedule hp hcl
  | back hcl hc => exact hW.comeBack hcl hc
  | msg hcl hc | remsg hcl hc => exact hW.message hp hcl (by rw [hc]; rfl)
  | @scan dopoll now fires hcl =>
    have hsame : SameThreads s (scanQueue s now fires).state := .scanQueue
    have h₁ : Waited (scanQueue s now fires).state :=
      hW.events hsame.tcb hsame.queue hsame.ctl hsame.cleaning fun _ _ _ _ _ h =>
        scanThreads_status_ne h
    exact h₁.idle rfl rfl rfl (hsame.cleaning.trans hcl) rfl rfl
  | @finish dopoll timer rc0 late hcl =>
    have hsame : SameThreads s (timerBranch s dopoll timer rc0).1 := .timerBranch
    have h₁ : Waited (timerBranch s dopoll timer rc0).1 :=
      hW.events hsame.tcb hsame.queue hsame.ctl hsame.cleaning fun _ _ _ _ _ => timerBranch_status_ne
    obtain ⟨h₂, hcl₂⟩ : Waited (cleanupLoop late (timerBranch s dopoll timer rc0).1) ∧
        (cleanupLoop late (timerBranch s dopoll timer rc0).1).cleaning = [] :=
      (hp.same hsame).cleanupLoop_rule (P := fun s => Waited s ∧ s.cleaning = [])
        ⟨h₁, hsame.cleaning.trans hcl⟩ fun s t _ _ h =>
          ⟨h.1.cleanupThread h.2, (SameOutside.cleanupThread s t).cleaning.trans h.2⟩
    refine h₂.idle rfl rfl rfl hcl₂ ?_ ?_
    all_goals
      split <;> rfl
  | take hcl hc | retake hcl | drained hcl | redrained hcl | woken hcl =>
    exact hW.idle rfl rfl rfl hcl rfl rfl
  | _ => exact absurd rfl (hop _)

theorem waited_of_reachable (h : Reachable (undisturbedSystem cfg) s) : Waited s := by
  refine h.invariant_of_reachable ?_ ?_
  · intro s hi
    refine ⟨fun t ha _ => ?_, fun t hu _ => ?_, absurd hi.cleaning⟩
    · obtain ⟨attr, hattr⟩ := hi.main t ((hi.alive t).mp ha)
      rw [hattr]
      rfl
    · simp [Up, State.members, hi.queues, hi.ctl] at hu
  · intro s a s' hr hW hs
    have hstep : exec cfg s a = some s' := hs.2
    rcases placed_of_reachable hr.of_restrict with hx | hp
    · simp [exec, hx] at hstep
    · exact hW.step hp (hosted_of_reachable hr.of_restrict) hs.1 hstep

/-- Only a running thread returns from `pth_wait`. -/
theorem waitReturn_inv (hs : exec cfg s (.op (.waitReturn e tv)) = some s') :
    ∃ cur k, Running s cur ∧ (s.tcb cur).pc = .inWait k := by
  unfold exec at hs
  split at hs
  case isTrue => cases hs
  case isFalse =>
  simp only [call] at hs
  split at hs
  case h_1 => cases hs
  case h_2 cur hcl hctl =>
    refine ⟨cur, ?_⟩
    cases hpc : (s.tcb cur).pc with
    | inWait k => exact ⟨k, ⟨hcl, hctl⟩, rfl⟩
    | app => simp [callRunning, hpc, callNonblocking, callBlocking] at hs
    | exiting => simp [callRunning, hpc, callNonblocking] at hs
  case h_3 => cases hs

/-- When `pth_wait` returns to its caller, which is then not cancelled, it has
counted an event. -/
theorem pthWait_returns_nonpending (h : Reachable (undisturbedSystem cfg) s) {e : EventId}
    {tv : Timeval}
    (hs : (undisturbedSystem cfg).step s (.op (.waitReturn e tv)) s') (hc : s.current = some cur)
    (hd : cancelDue s cur = false) : 1 ≤ nonpending s (s.tcb cur).events := by
  obtain ⟨hok, hs⟩ := hs
  have hs : exec cfg s (.op (.waitReturn e tv)) = some s' := hs
  obtain ⟨cur', k, hr, hk⟩ := waitReturn_inv hs
  obtain rfl : cur' = cur := by simpa [State.current, hr.cleaning, hr.ctl] using hc
  have hready : (s.tcb cur').state = .ready := by
    rcases placed_of_reachable h.of_restrict with hx | hp
    · simp [exec, hx] at hs
    · exact (hp.running hr.ctl).state
  have hocc := (waited_of_reachable h).up cur' (.inr (.inr (.inl hr.ctl)))
    (Tcb.resuming_iff.mpr ⟨hready, k, hk⟩)
  -- a request would have to be one that is disabled
  have hreq : (s.tcb cur').cancelreq = false := by
    simp only [undisturbed, hr.ctl] at hok
    cases hq : (s.tcb cur').cancelreq with
    | false => rfl
    | true =>
      have hen : (s.tcb cur').cancelEnable = false := by simpa [cancelDue, hq] using hd
      simp [hq, hen] at hok
  rcases anyOccurred_iff.mp hocc with ⟨e', he', hst⟩ | hq
  · exact List.one_le_countP_iff.mpr ⟨e', he', by simpa using hst⟩
  · simp [hreq] at hq

/-- Thread 1 waits for event 20 with cancellation disabled. -/
def deafSchedule : List Act :=
  [.sched, .op (.spawn 1 asyncAttr), .op (.yield none), .back] ++ idlePass ++
    [.sched, .op (.cancelState false false), .op (.event 20 .notify false), .op (.wait [20]), .back] ++
    idlePass ++ [.sched]

/-- The wakeup of the waiting thread arrives, and it is dispatched. -/
theorem pthWait_returns_nonpending_wake :
    ∃ s s', Reachable (undisturbedSystem pollConfig) s ∧
      (undisturbedSystem pollConfig).step s (.op (.waitReturn 0 ⟨0, 0⟩)) s' ∧ s.current = some 1 ∧
      cancelDue s 1 = false ∧ 1 ≤ nonpending s (s.tcb 1).events := by
  obtain ⟨s, hs, hok, hex, hc, hd⟩ := exists_reachable pollConfig undisturbed
    (P := fun s => undisturbed s (.op (.waitReturn 0 ⟨0, 0⟩)) = true ∧
      (exec pollConfig s (.op (.waitReturn 0 ⟨0, 0⟩))).isSome = true ∧ s.current = some 1 ∧
      cancelDue s 1 = false) asyncAttr
    (deafSchedule ++ [.op (.yield none), .post wake20, .back, .take, .msg, .drained,
      .scan fun _ => false, .woken true false, .take, .drained, .finish fun _ => none, .sched])
    (by decide +kernel)
  obtain ⟨s', hs'⟩ := Option.isSome_iff_exists.mp hex
  exact ⟨s, s', hs, ⟨hok, hs'⟩, hc, hd, pthWait_returns_nonpending hs ⟨hok, hs'⟩ hc hd⟩

/-- The main thread cancels the waiting thread, which may not be cancelled: its
`pth_wait` returns 0. -/
theorem pthWait_returns_zero :
    ∃ s s', Reachable (system pollConfig) s ∧
      exec pollConfig s (.op (.waitReturn 0 ⟨0, 0⟩)) = some s' ∧ s.current = some 1 ∧
      (s.tcb 1).events = [20] ∧ cancelDue s 1 = false ∧ nonpending s (s.tcb 1).events = 0 := by
  obtain ⟨s, hs, hex, hp⟩ := exists_state pollConfig
    (P := fun s => (exec pollConfig s (.op (.waitReturn 0 ⟨0, 0⟩))).isSome = true ∧
      s.current = some 1 ∧ (s.tcb 1).events = [20] ∧ cancelDue s 1 = false ∧
      nonpending s (s.tcb 1).events = 0) asyncAttr
    (deafSchedule ++ [.op (.cancel 1), .op (.yield none), .back] ++ idlePass ++ [.sched])
    (by decide +kernel)
  obtain ⟨s', hs'⟩ := Option.isSome_iff_exists.mp hex
  exact ⟨s, s', hs, hs', hp⟩

end GnuPth.Sched
