import GnuPth.Sched.Moves

/-!
# What a call does to its caller

The calls that only a running thread makes have one thing in common with the
death of a thread in its cleanup handlers: they work on the caller, which goes
on running, waits or dies, and on the events that it waits for or owns.
-/

namespace GnuPth.Sched

/-- The events that a call marks pending. -/
def Op.marks : Op → List EventId
  | .wait ring => ring
  | .event e _ _ | .join _ e | .exit e _ | .cancelPoint e _ | .waitReturn e _ => [e]
  | _ => []

/-- `ev` is what call `o` of `cur` makes of the event `e`, which it waits for. -/
structure Renewed (s : State) (cur : Tid) (o : Op) (e : EventId) (ev : Event) : Prop where
  running : Running s cur
  marks : e ∈ o.marks
  status : ev.status = .pending
  made : o = .wait o.marks ∧ ev = { s.event e with status := .pending } ∨
    ((s.event e).live = false ∨ (s.event e).owner = some cur) ∧ ev.live = true ∧
      (ev.owner = none ∨ ev.owner = some cur)

/-- An event that `cur` owns, or that of its `pth_exit` behind the wait. -/
def Droppable (s : State) (cur : Tid) (o : Op) (e : EventId) : Prop :=
  (s.event e).owner = some cur ∨
    (∃ e tv, o = .waitReturn e tv) ∧ (s.tcb cur).pc = .inWait .exit ∧ e ∈ (s.tcb cur).events

structure Works (s : State) (cur : Tid) (o : Op) (s' : State) : Prop where
  outside : s'.outside = ⟨{ s.control with ctl := s'.ctl }, [], s.fault⟩
  ctl : s'.ctl = .run cur ∨ s'.ctl = .back cur
  queue : s'.queue = s.queue
  tcb : ∀ u, u ≠ cur → s'.tcb u = s.tcb u
  caller : (s'.tcb cur).state = .waiting ∧ (∀ e ∈ (s'.tcb cur).events, Renewed s cur o e (s'.event e)) ∨
    (s'.tcb cur).state = .dead ∨
    Running s cur ∧ (s'.tcb cur).state = (s.tcb cur).state ∧ ∀ k, (s'.tcb cur).pc ≠ .inWait k
  event : ∀ e, s'.event e = s.event e ∨ Renewed s cur o e (s'.event e) ∨
    Droppable s cur o e ∧ s'.event e = { s.event e with live := false }

/-- All calls. -/
inductive Call (s : State) : Op → State → Prop
  | returns {cur o s'} (hc : s.current = some cur)
      (hp : s.cleaning = [] → (s.tcb cur).pc = .app ∨ (s.tcb cur).pc = .exiting)
      (h : Returns s cur o s') : Call s o s'
  | works {cur o s'} (hc : s.current = some cur) (hx : Running s cur ∨ exitsInHandler s o = true)
      (h : Works s cur o s') : Call s o s'
  | yield {cur o t s₁} (hr : Running s cur) (hp : (s.tcb cur).pc = .app) (h : Touches False t s s₁)
      (hcl : s₁.cleaning = s.cleaning) : Call s o (switchOut s₁ cur)
  | joined {cur e tv t s'} (hr : Running s cur)
      (h : Touches False t (s.setTcb cur ({ · with events := [], pc := .app })) s') (hcl : s'.cleaning = []) :
      Call s (.waitReturn e tv) s'
  | exited {cur o s₁} (hc : s.current = some cur) (hx : Running s cur ∨ exitsInHandler s o = true)
      (hack : Acked s cur s₁) : Call s o { s₁ with ctl := .exited, cleaning := [] }

variable {s : State}

theorem Works.cleaning (h : Works s cur o s') :
    s'.cleaning = [] := congrArg Outside.cleaning h.outside

theorem Works.control (h : Works s cur o s') : SameControl { s with ctl := s'.ctl } s' :=
  congrArg Outside.control h.outside

theorem Works.waiting (h : Works s cur o s') (hp : Placed full none s)
    (hst : (s'.tcb cur).state = .waiting) (he : e ∈ (s'.tcb cur).events) : Renewed s cur o e (s'.event e) := by
  rcases h.caller with ⟨-, hring⟩ | hd | ⟨hr, hs, -⟩
  · exact hring e he
  · cases hd.symm.trans hst
  · have hready : (s.tcb cur).state = .ready := (hp.running hr.ctl).state
    cases hready.symm.trans (hs.symm.trans hst)

/-! ### The events of a call -/

theorem markPending_event :
    (markPending s ring).event e = if e ∈ ring then { s.event e with status := .pending } else s.event e := by
  induction ring generalizing s with
  | nil => rfl
  | cons e' ring ih =>
    rw [markPending, List.foldl_cons]
    refine ih.trans ?_
    by_cases he : e = e'
    · subst he
      simp [State.setStatus, State.setEvent]
    · simp [State.setStatus, State.setEvent, he]

theorem freeEvents_event {l : List EventId} :
    (l.foldl (fun s e => s.setEvent e ({ · with live := false })) s).event e =
      if e ∈ l then { s.event e with live := false } else s.event e := by
  induction l generalizing s with
  | nil => rfl
  | cons e' l ih =>
    rw [List.foldl_cons, ih]
    by_cases he : e = e'
    · subst he
      simp [State.setEvent]
    · simp [State.setEvent, he]

theorem SameOutside.markPending (s : State) (ring : List EventId) : SameOutside s
    (markPending s ring) :=
  .foldl (f := fun s e => s.setStatus e .pending) (fun _ _ => rfl) ring s

theorem SameOutside.freeEvents (l : List EventId) (s : State) :
    SameOutside s (l.foldl (fun s e => s.setEvent e ({ · with live := false })) s) :=
  .foldl (f := fun s e => s.setEvent e ({ · with live := false })) (fun _ _ => rfl) l s

theorem pthWait_tcb : (pthWait s cur ring k).tcb =
      Function.update s.tcb cur { s.tcb cur with events := ring, state := .waiting, pc := .inWait k } := by
  simp [pthWait, switchOut, State.setTcb, (SameThreads.markPending s ring).tcb]

/-! ### Each call -/

theorem Acked.works (h : Acked s cur s₁) :
    SameOutside s s₁ ∧ s₁.queue = s.queue ∧ s₁.event = s.event ∧
    (∀ u, u ≠ cur → s₁.tcb u = s.tcb u) ∧ (s₁.tcb cur).state = (s.tcb cur).state := by
  cases h with
  | none => exact ⟨rfl, rfl, rfl, fun _ _ => rfl, rfl⟩
  | due => exact ⟨rfl, rfl, rfl, fun _ hu => setTcb_of_ne hu, by simp [ackCancel, setTcb_self]⟩

theorem Works.stays (hr : Running s cur) (hout : SameOutside s s') (hq : s'.queue = s.queue)
    (htcb : ∀ u, u ≠ cur → s'.tcb u = s.tcb u) (hst : (s'.tcb cur).state = (s.tcb cur).state)
    (hpc : ∀ k, (s'.tcb cur).pc ≠ .inWait k)
    (hev : ∀ e, s'.event e = s.event e ∨ Droppable s cur o e ∧ s'.event e = { s.event e with live := false }) :
    Works s cur o s' where
  outside := by
    rw [hout.control.ctl]
    exact Eq.trans hout (by simp [State.outside, State.control, hr.cleaning])
  ctl := .inl (hout.control.ctl.trans hr.ctl)
  queue := hq
  tcb := htcb
  caller := .inr (.inr ⟨hr, hst, hpc⟩)
  event e := (hev e).imp_right .inr

theorem Works.pthWait (hr : Running s cur) (hout : SameOutside s s₁) (hq : s₁.queue = s.queue)
    (htcb : ∀ u, u ≠ cur → s₁.tcb u = s.tcb u)
    (hring : ∀ e ∈ ring, Renewed s cur o e { s₁.event e with status := .pending })
    (hev : ∀ e, e ∉ ring → s₁.event e = s.event e) : Works s cur o (pthWait s₁ cur ring k) := by
  have hsame := SameThreads.markPending s₁ ring
  have hnew : ∀ e, e ∈ ring → Renewed s cur o e ((Sched.pthWait s₁ cur ring k).event e) := by
    intro e he
    rw [show (Sched.pthWait s₁ cur ring k).event e = _ from markPending_event, if_pos he]
    exact hring e he
  have ho := hout.trans (.markPending s₁ ring)
  refine ⟨?_, .inr rfl, hsame.queue.trans hq, fun u hu => ?_, .inl ⟨?_, fun e he => hnew e ?_⟩, fun e => ?_⟩
  · have hcl := ho.cleaning.trans hr.cleaning
    have hc : { (markPending s₁ ring).control with ctl := .back cur } = { s.control with ctl := .back cur } :=
      congrArg (fun c : Control => { c with ctl := .back cur }) ho.control
    exact congr (congr (congrArg Outside.mk hc) hcl) ho.fault
  · rw [pthWait_tcb, Function.update_of_ne hu, htcb u hu]
  · simp [pthWait_tcb]
  · simpa [pthWait_tcb] using he
  · by_cases he : e ∈ ring
    · exact .inr (.inl (hnew e he))
    · refine .inl (Eq.trans ?_ (hev e he))
      rw [show (Sched.pthWait s₁ cur ring k).event e = _ from markPending_event, if_neg he]

theorem Works.newEvent (hr : Running s cur) (he : e ∈ o.marks)
    (hack : Acked s cur s₁) (h : newEvent s₁ cur e spec static = some s₂) :
    Works s cur o (Sched.pthWait s₂ cur [e] k) := by
  obtain ⟨hl, rfl⟩ := newEvent_inv h
  obtain ⟨hout, hq, hev, htcb, -⟩ := hack.works
  refine .pthWait hr hout hq htcb (fun e' he' => ?_) fun e' he' => ?_
  · obtain rfl := List.mem_singleton.mp he'
    rw [hev] at hl
    refine ⟨hr, he, rfl, .inr ⟨hl.imp_right And.right, ?_, ?_⟩⟩
    · simp [State.setEvent]
    · cases static <;> simp [State.setEvent]
  · rw [← hev]
    exact Function.update_of_ne (List.mem_singleton.not.mp he') _ _

theorem Works.dies (hack : Acked s cur s₁) :
    Works s cur o
      { switchOut ((destroyEvents s₁ cur).setTcb cur ({ · with state := .dead, joinArg := .exit })) cur with
        cleaning := [] } := by
  obtain ⟨hout, hq, hev, htcb, -⟩ := hack.works
  refine ⟨?_, .inr rfl, hq, fun u hu => ?_, .inr (.inl ?_), fun e => ?_⟩
  · have hc : { s₁.control with ctl := .back cur } = { s.control with ctl := .back cur } :=
      congrArg (fun c : Control => { c with ctl := .back cur }) hout.control
    exact congr (congr (congrArg Outside.mk hc) rfl) hout.fault
  · exact (Function.update_of_ne hu _ _).trans (htcb u hu)
  · simp [switchOut, State.setTcb]
  · by_cases ho : (s.event e).owner = some cur
    · exact .inr (.inr ⟨.inl ho, by simp [switchOut, State.setTcb, destroyEvents, hev, ho]⟩)
    · exact .inl (by simp [switchOut, State.setTcb, destroyEvents, hev, ho])

theorem Works.setTcb (hr : Running s cur) (hack : Acked s cur s₁)
    (hst : (f (s₁.tcb cur)).state = (s₁.tcb cur).state) (hpc : ∀ k, (f (s₁.tcb cur)).pc ≠ .inWait k) :
    Works s cur o (s₁.setTcb cur f) := by
  obtain ⟨hout, hq, hev, htcb, hcur⟩ := hack.works
  refine .stays hr hout hq (fun u hu => (setTcb_of_ne hu).trans (htcb u hu)) ?_ ?_ fun e => .inl (congrFun hev e)
  · rw [setTcb_self, hst, hcur]
  · rwa [setTcb_self]

theorem Works.exitReturned (hr : Running s cur) (hp : (s.tcb cur).pc = .inWait .exit) :
    Works s cur (.waitReturn e tv)
      (((s.tcb cur).events.foldl (fun s e => s.setEvent e ({ · with live := false }))
        (s.setTcb cur ({ · with events := [], pc := .app }))).setTcb cur ({ · with pc := .exiting })) := by
  have hsame := SameThreads.freeEvents (s.tcb cur).events (s.setTcb cur ({ · with events := [], pc := .app }))
  refine .stays hr (SameOutside.freeEvents _ _) hsame.queue (fun u hu => ?_) ?_ ?_ fun e => ?_
  · rw [setTcb_of_ne hu, hsame.tcb, setTcb_of_ne hu]
  · rw [setTcb_self, hsame.tcb, setTcb_self]
  · simp [setTcb_self]
  · by_cases he : e ∈ (s.tcb cur).events
    · exact .inr ⟨.inr ⟨⟨_, _, rfl⟩, hp, he⟩, freeEvents_event.trans (if_pos he)⟩
    · exact .inl (freeEvents_event.trans (if_neg he))

/-! ### All calls -/

theorem Running.current (hr : Running s cur) : s.current = some cur := by
  simp [State.current, hr.cleaning, hr.ctl]

theorem Running.returned (hr : Running s cur) :
    Works s cur o (s.setTcb cur ({ · with events := [], pc := .app })) :=
  .setTcb hr .none rfl nofun

theorem exitArgs_marks (h : exitArgs s cur o = some (e, tv)) : e ∈ o.marks := by
  cases o <;> simp_all [exitArgs, Op.marks]

theorem Step.call (h : Step cfg s (.op o) s') : Call s o s' := by
  cases h with
  | returns hc hp h => exact .returns hc hp h
  | wait hr =>
    refine .works hr.current (.inl hr) (.pthWait hr rfl rfl (fun _ _ => rfl) (fun e he => ?_) fun _ _ => rfl)
    exact ⟨hr, he, rfl, .inl ⟨rfl, rfl⟩⟩
  | join hr _ h => exact .works hr.current (.inl hr) (.newEvent hr (by simp [Op.marks]) .none h)
  | yield hr hp h hcl => exact .yield hr hp h hcl
  | exitWait hr ho _ hack _ h => exact .works hr.current (.inl hr) (.newEvent hr (exitArgs_marks ho) hack h)
  | exit hr _ hack => exact .works hr.current (.inl hr) (.setTcb hr hack rfl nofun)
  | ack hr hp => exact .works hr.current (.inl hr) (.setTcb hr .none rfl (by simp [hp]))
  | @die cur hr =>
    have hw : Works s cur .die _ := .dies .none
    rw [← hr.cleaning] at hw
    exact .works hr.current (.inl hr) hw
  | @exited cur hr =>
    have hx : Call s .die { s with ctl := .exited, cleaning := [] } := .exited hr.current (.inl hr) .none
    rwa [← hr.cleaning] at hx
  | returned hr => exact .works hr.current (.inl hr) hr.returned
  | @joined cur tid e tv hr =>
    rcases (joinEnd_edit : (joinEnd (s.setTcb cur _) tid).1 = _ ∨ _) with h | ⟨t, -, h⟩
    · rw [h]
      exact .works hr.current (.inl hr) hr.returned
    · have hcl : Edits t [.bury] _ _ := h.single (by simp)
      exact .joined hr (h.touches nofun) ((hcl.cleaning (by simp)).trans hr.cleaning)
  | exitReturned hr hp => exact .works hr.current (.inl hr) (.exitReturned hr hp)
  | handlerExited hc ho hack => exact .exited (by simp [State.current, hc]) (.inr ho) hack
  | handlerDied hc ho hack => exact .works (by simp [State.current, hc]) (.inr ho) (.dies hack)

theorem exec_call (hs : exec cfg s a = some s') :
    (∃ o, a = .op o ∧ Call s o s') ∨ (∀ o, a ≠ .op o) ∧ Step cfg s a s' :=
  (exec_cases hs).imp_left fun ⟨o, ha, h⟩ => ⟨o, ha, h.step.call⟩

end GnuPth.Sched
