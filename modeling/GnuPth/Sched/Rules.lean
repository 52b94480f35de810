import GnuPth.Sched.Frame

/-!
# The steps of the scheduler as rules

`Step` has one rule for each way a step can go, with the branch conditions as
premises. `exec_step` reads a success of `exec` as a rule. Of the calls that
return to their caller, `Returns` only says which thread or event they work on:
what they do to a thread is `Touches`.
-/

namespace GnuPth.Sched

open Inbox (Gmsg)

/-- A cleanup handler ends the thread it runs for. -/
def exitsInHandler (s : State) (o : Op) : Bool :=
  match s.cleaning, o with
  | _ :: _, .exit _ _ => true
  | t :: _, .cancelPoint _ _ => cancelDue s t
  | _, _ => false

def Op.target : Op → Option Tid
  | .suspend t | .resume t | .cancel t | .abort t | .raise t _ => some t
  | .join tid _ => tid
  | _ => none

def Op.ends (s : State) : Op → Option Tid
  | .cancel t => if (s.tcb t).immediate then some t else none
  | .abort t => some t
  | _ => none

/-- The event and the timeout with which a call that ends its thread makes the
main thread wait. -/
def exitArgs (s : State) (cur : Tid) : Op → Option (EventId × Timeval)
  | .exit e tv => some (e, tv)
  | .cancelPoint e tv | .waitReturn e tv => if cancelDue s cur then some (e, tv) else none
  | _ => none

inductive Returns (s : State) (cur : Tid) : Op → State → Prop
  | same {o} : Returns s cur o s
  | touch {o t s'} (ht : o.target = some t ∨ t ∈ s.members .dq)
      (hcl : s'.cleaning = s.cleaning ∨ o.ends s = some t) (h : Touches False t s s') :
      Returns s cur o s'
  | resume {t s'} (hcl : s'.cleaning = s.cleaning) (h : Touches ((s.tcb t).state = .waiting) t s s') :
      Returns s cur (.resume t) s'
  | spawn {t attr} (h : (s.tcb t).alive = false) :
      Returns s cur (.spawn t attr) ((s.setTcb t fun _ => attr.tcb true).enqueue .nq attr.prio t)
  | event {e spec static}
      (h : (s.event e).live = false ∨ static = true ∧ (s.event e).owner = some cur) :
      Returns s cur (.event e spec static)
        (s.setEvent e fun _ => ⟨spec, .pending, true, if static then some cur else none⟩)
  | eventFree {e} : Returns s cur (.eventFree e) (s.setEvent e ({ · with live := false }))
  | cancelState {enable async} :
      Returns s cur (.cancelState enable async)
        (s.setTcb cur ({ · with cancelEnable := enable, cancelAsync := async }))

/-- `cur` runs, and no cleanup handler on its stack. -/
structure Running (s : State) (cur : Tid) : Prop where
  cleaning : s.cleaning = []
  ctl : s.ctl = .run cur

/-- `s₁` is `s` after `pth_cancel_point` found a request, or without one. -/
inductive Acked (s : State) (cur : Tid) : State → Prop
  | none : Acked s cur s
  | due (h : cancelDue s cur = true) : Acked s cur (ackCancel s cur)

inductive Step (cfg : Config) (s : State) : Act → State → Prop
  | returns {cur o s'} (hc : s.current = some cur)
      (hp : s.cleaning = [] → (s.tcb cur).pc = .app ∨ (s.tcb cur).pc = .exiting)
      (h : Returns s cur o s') : Step cfg s (.op o) s'
  -- calls that only a running thread makes
  | wait {cur ring} (hr : Running s cur) (hp : (s.tcb cur).pc = .app) (hring : ring ≠ []) :
      Step cfg s (.op (.wait ring)) (pthWait s cur ring .app)
  | join {cur tid e s₁} (hr : Running s cur) (hp : (s.tcb cur).pc = .app)
      (h : newEvent s cur e (.tid (joinTarget s tid) .dead) true = some s₁) :
      Step cfg s (.op (.join tid e)) (pthWait s₁ cur [e] (.join (joinTarget s tid)))
  | yield {cur o t s₁} (hr : Running s cur) (hp : (s.tcb cur).pc = .app) (h : Touches False t s s₁)
      (hcl : s₁.cleaning = s.cleaning) :
      Step cfg s (.op o) (switchOut s₁ cur)
  | exitWait {cur o s₁ s₂ e tv} (hr : Running s cur) (ho : exitArgs s cur o = some (e, tv))
      (hm : cfg.main = some cur) (h : Acked s cur s₁) (hx : exitCb s = false) (he : newEvent s₁ cur e (.func true tv) false = some s₂) :
      Step cfg s (.op o) (pthWait s₂ cur [e] .exit)
  | exit {cur o s₁} (hr : Running s cur) (ho : (exitArgs s cur o).isSome = true) (h : Acked s cur s₁)
      (hx : cfg.main = some cur → exitCb s = true) :
      Step cfg s (.op o) (s₁.setTcb cur ({ · with pc := .exiting }))
  | ack {cur o} (hr : Running s cur) (hp : (s.tcb cur).pc = .exiting) :
      Step cfg s (.op o) (ackCancel s cur)
  | die {cur} (hr : Running s cur) (hp : (s.tcb cur).pc = .exiting) (hm : cfg.main ≠ some cur) :
      Step cfg s (.op .die)
        (switchOut ((destroyEvents s cur).setTcb cur ({ · with state := .dead, joinArg := .exit })) cur)
  | exited {cur} (hr : Running s cur) (hp : (s.tcb cur).pc = .exiting) (hm : cfg.main = some cur) :
      Step cfg s (.op .die) { s with ctl := .exited }
  | returned {cur e tv} (hr : Running s cur) (hp : (s.tcb cur).pc = .inWait .app)
      (hd : cancelDue s cur = false) :
      Step cfg s (.op (.waitReturn e tv)) (s.setTcb cur ({ · with events := [], pc := .app }))
  | joined {cur tid e tv} (hr : Running s cur) (hp : (s.tcb cur).pc = .inWait (.join tid))
      (hd : cancelDue s cur = false) :
      Step cfg s (.op (.waitReturn e tv))
        (joinEnd (s.setTcb cur ({ · with events := [], pc := .app })) tid).1
  | exitReturned {cur e tv} (hr : Running s cur) (hp : (s.tcb cur).pc = .inWait .exit)
      (hd : cancelDue s cur = false) :
      Step cfg s (.op (.waitReturn e tv))
        (((s.tcb cur).events.foldl (fun s e => s.setEvent e ({ · with live := false }))
          (s.setTcb cur ({ · with events := [], pc := .app }))).setTcb cur ({ · with pc := .exiting }))
  -- cleanup handlers on a foreign stack
  | handlerExited {cur rest o s₁} (hc : s.cleaning = cur :: rest) (ho : exitsInHandler s o = true)
      (h : Acked s cur s₁) (hm : cfg.main = some cur) (hx : exitCb s = true) :
      Step cfg s (.op o) { s₁ with ctl := .exited, cleaning := [] }
  | handlerDied {cur rest o s₁} (hc : s.cleaning = cur :: rest) (ho : exitsInHandler s o = true)
      (h : Acked s cur s₁) (hm : cfg.main ≠ some cur) :
      Step cfg s (.op o)
        { switchOut
            ((destroyEvents s₁ cur).setTcb cur ({ · with state := .dead, joinArg := .exit })) cur with
          cleaning := [] }
  | cleaned {t rest} (hc : s.cleaning = t :: rest) :
      Step cfg s .cleaned (cancelDone { s with cleaning := rest } t)
  -- around the scheduler
  | post {m} (hm : m.kind ≠ .spawn) : Step cfg s (.post m) { s with inbox := s.inbox ++ [m] }
  | spawnOn {t attr} (ht : (s.tcb t).alive = false) :
      Step cfg s (.spawnOn t attr)
        { s.setTcb t (fun _ => attr.tcb false) with
          inbox := s.inbox ++ [(Inbox.Call.gschedPost .spawn (some t) none).msg]
          spawned := s.spawned ++ [t] }
  | tick {dt} : Step cfg s (.tick dt) { s with clock := s.clock + dt }
  -- the scheduler
  | sched (hcl : s.cleaning = []) (hc : s.ctl = .loop) : Step cfg s .sched (schedule cfg s)
  | back {t} (hcl : s.cleaning = []) (hc : s.ctl = .back t) : Step cfg s .back (comeBack cfg s t)
  | take {dopoll now} (hcl : s.cleaning = []) (hc : s.ctl = .em (.enter dopoll now)) :
      Step cfg s .take { s with inbox := [], ctl := .em (.drain dopoll now false s.inbox) }
  | retake {dopoll timer rc0} (hcl : s.cleaning = []) (hc : s.ctl = .em (.woken dopoll timer rc0)) :
      Step cfg s .take { s with inbox := [], ctl := .em (.redrain dopoll timer rc0 s.inbox) }
  | msg {dopoll now any m batch} (hcl : s.cleaning = [])
      (hc : s.ctl = .em (.drain dopoll now any (m :: batch))) :
      Step cfg s .msg (drainMsg { s with ctl := .em (.drain dopoll now true batch) } m)
  | remsg {dopoll timer rc0 m batch} (hcl : s.cleaning = [])
      (hc : s.ctl = .em (.redrain dopoll timer rc0 (m :: batch))) :
      Step cfg s .msg (drainMsg { s with ctl := .em (.redrain dopoll timer rc0 batch) } m)
  | drained {dopoll now any} (hcl : s.cleaning = []) (hc : s.ctl = .em (.drain dopoll now any [])) :
      Step cfg s .drained { s with ctl := .em (.scan (dopoll || any) now) }
  | redrained {dopoll timer rc0} (hcl : s.cleaning = [])
      (hc : s.ctl = .em (.redrain dopoll timer rc0 [])) :
      Step cfg s .drained { s with ctl := .em (.finish dopoll timer rc0) }
  | scan {dopoll now fires} (hcl : s.cleaning = []) (hc : s.ctl = .em (.scan dopoll now)) :
      Step cfg s (.scan fires)
        { (scanQueue s now fires).state with
          ctl := .em (.wait (dopoll || (scanQueue s now fires).anyOccurred) (scanQueue s now fires).timer
            (waitTimeout cfg (dopoll || (scanQueue s now fires).anyOccurred) now
              (scanQueue s now fires).timer) s.clock) }
  | woken {dopoll timer timeout since rc0 noBuffer} (hcl : s.cleaning = [])
      (hc : s.ctl = .em (.wait dopoll timer timeout since))
      (ht : rc0 = true → mayTimeOut cfg timeout since s.clock noBuffer = true) :
      Step cfg s (.woken rc0 noBuffer) { s with ctl := .em (.woken dopoll timer rc0) }
  | finish {dopoll timer rc0 late} (hcl : s.cleaning = [])
      (hc : s.ctl = .em (.finish dopoll timer rc0)) :
      Step cfg s (.finish late)
        { cleanupLoop late (timerBranch s dopoll timer rc0).1 with
          ctl := if (timerBranch s dopoll timer rc0).2 then
              .em (.enter dopoll (cleanupLoop late (timerBranch s dopoll timer rc0).1).now)
            else .loop }

def Op.edits (s : State) : Op → List EditKind
  | .suspend _ => [.suspend]
  | .resume _ => [.resume]
  | .cancel t => cancelEdits (s.tcb t)
  | .abort _ => abortEdits
  | .raise _ _ => [.mark]
  | _ => []

inductive Calls (s : State) (cur : Tid) : Op → State → Prop
  | same {o} : Calls s cur o s
  | edits {o t s'} (ht : o.target = some t) (h : Edits t (o.edits s) s s') : Calls s cur o s'
  | bury {o t s'} (ht : o.target = some t ∧ (s.tcb t).alive = true ∨ t ∈ s.members .dq)
      (h : Edit t s .bury s') : Calls s cur o s'
  | spawn {t attr} (h : (s.tcb t).alive = false) :
      Calls s cur (.spawn t attr) ((s.setTcb t fun _ => attr.tcb true).enqueue .nq attr.prio t)
  | event {e spec static s'} (h : newEvent s cur e spec static = some s') :
      Calls s cur (.event e spec static) s'
  | eventFree {e} : Calls s cur (.eventFree e) (s.setEvent e ({ · with live := false }))
  | cancelState {enable async} :
      Calls s cur (.cancelState enable async)
        (s.setTcb cur ({ · with cancelEnable := enable, cancelAsync := async }))

def Op.favours (s : State) : Op → Bool
  | .yield (some t) | .raise t _ => (favorQueue s t).isSome
  | _ => false

/-- The rules for calls, with all that a call does to other threads. -/
inductive CallStep (cfg : Config) (s : State) : Op → State → Prop
  | calls {cur o s'} (hc : s.current = some cur)
      (hp : s.cleaning = [] → (s.tcb cur).pc = .app ∨ (s.tcb cur).pc = .exiting)
      (h : Calls s cur o s') : CallStep cfg s o s'
  | wait {cur ring} (hr : Running s cur) (hp : (s.tcb cur).pc = .app) (hring : ring ≠ []) :
      CallStep cfg s (.wait ring) (pthWait s cur ring .app)
  | join {cur tid e s₁} (hr : Running s cur) (hp : (s.tcb cur).pc = .app)
      (h : newEvent s cur e (.tid (joinTarget s tid) .dead) true = some s₁) :
      CallStep cfg s (.join tid e) (pthWait s₁ cur [e] (.join (joinTarget s tid)))
  | yield {cur o t s₁} (hr : Running s cur) (hp : (s.tcb cur).pc = .app)
      (hf : s₁ = s ∨ o.favours s = true) (h : Edits t [.mark, .favor] s s₁) :
      CallStep cfg s o (switchOut s₁ cur)
  | exitWait {cur o s₁ s₂ e tv} (hr : Running s cur) (ho : exitArgs s cur o = some (e, tv))
      (hm : cfg.main = some cur) (h : Acked s cur s₁) (hx : exitCb s = false)
      (he : newEvent s₁ cur e (.func true tv) false = some s₂) :
      CallStep cfg s o (pthWait s₂ cur [e] .exit)
  | exit {cur o s₁} (hr : Running s cur) (ho : (exitArgs s cur o).isSome = true) (h : Acked s cur s₁)
      (hx : cfg.main = some cur → exitCb s = true) :
      CallStep cfg s o (s₁.setTcb cur ({ · with pc := .exiting }))
  | ack {cur o} (hr : Running s cur) (hp : (s.tcb cur).pc = .exiting) :
      CallStep cfg s o (ackCancel s cur)
  | die {cur} (hr : Running s cur) (hp : (s.tcb cur).pc = .exiting) :
      CallStep cfg s .die (pthDie cfg s cur)
  | returned {cur e tv} (hr : Running s cur) (hp : (s.tcb cur).pc = .inWait .app)
      (hd : cancelDue s cur = false) :
      CallStep cfg s (.waitReturn e tv) (s.setTcb cur ({ · with events := [], pc := .app }))
  | joined {cur tid e tv} (hr : Running s cur) (hp : (s.tcb cur).pc = .inWait (.join tid))
      (hd : cancelDue s cur = false) :
      CallStep cfg s (.waitReturn e tv)
        (joinEnd (s.setTcb cur ({ · with events := [], pc := .app })) tid).1
  | exitReturned {cur e tv} (hr : Running s cur) (hp : (s.tcb cur).pc = .inWait .exit)
      (hd : cancelDue s cur = false) :
      CallStep cfg s (.waitReturn e tv)
        (((s.tcb cur).events.foldl (fun s e => s.setEvent e ({ · with live := false }))
          (s.setTcb cur ({ · with events := [], pc := .app }))).setTcb cur ({ · with pc := .exiting }))
  | handlerDied {cur rest o s₁} (hc : s.cleaning = cur :: rest) (ho : exitsInHandler s o = true)
      (h : Acked s cur s₁) (hx : cfg.main = some cur → exitCb s = true) :
      CallStep cfg s o { pthDie cfg s₁ cur with cleaning := [] }

variable {o : Op}

/-! ### Calls -/

variable {e : EventId}

theorem newEvent_inv (h : newEvent s cur e spec static = some s') :
    ((s.event e).live = false ∨ static = true ∧ (s.event e).owner = some cur) ∧
      s' = s.setEvent e fun _ => ⟨spec, .pending, true, if static then some cur else none⟩ := by
  unfold newEvent at h
  split at h
  case isTrue => cases h
  case isFalse hc =>
    refine ⟨?_, (Option.some.inj h).symm⟩
    cases hl : (s.event e).live with
    | false => exact .inl rfl
    | true => exact .inr (by simpa [hl] using hc)

theorem callNonblocking_calls (hs : callNonblocking s cur o = some s') : Calls s cur o s' := by
  cases o with
  | event => exact .event hs
  | eventFree => cases hs; exact .eventFree
  | cancelState => cases hs; exact .cancelState
  | spawn =>
    simp only [callNonblocking] at hs
    split at hs <;> cases hs
    exact .spawn (Bool.eq_false_iff.mpr ‹_›)
  | suspend =>
    simp only [callNonblocking] at hs
    split at hs <;> cases hs
    exact .edits rfl pthSuspend_edits
  | resume =>
    simp only [callNonblocking] at hs
    split at hs <;> cases hs
    exact .edits rfl pthResume_edits
  | cancel =>
    simp only [callNonblocking] at hs
    split at hs <;> cases hs
    exact .edits rfl (pthCancel_edits (List.Subset.refl _))
  | abort =>
    simp only [callNonblocking] at hs
    split at hs <;> cases hs
    rcases pthAbort_edits with h | h
    · exact .bury (.inl ⟨rfl, ‹_›⟩) h
    · exact .edits rfl h
  | raise =>
    simp only [callNonblocking] at hs
    split at hs <;> cases hs
    exact .edits rfl addSignal_edits
  | join tid =>
    simp only [callNonblocking] at hs
    split at hs
    case isFalse => cases hs
    case isTrue ha =>
    split at hs
    · cases hs; exact .same
    split at hs <;> cases hs
    rcases (joinEnd_edit : (joinEnd s tid).1 = s ∨ _) with h | ⟨t, ht, h⟩
    · rw [h]
      exact .same
    · refine .bury ?_ h
      cases tid with
      | some => cases ht; exact .inl ⟨rfl, by simpa using ha⟩
      | none => exact .inr (List.mem_of_head? ht)
  | _ => cases hs

theorem Op.edits_resume (h : .resume ∈ o.edits s) : ∃ t, o = .resume t := by
  cases o with
  | resume t => exact ⟨t, rfl⟩
  | _ => simp [Op.edits, abortEdits] at h

theorem Op.edits_clean (h : .clean ∈ o.edits s) : o.ends s = o.target := by
  cases o with
  | cancel => exact if_pos (by simpa [Op.edits] using h)
  | abort => rfl
  | _ => simp [Op.edits] at h

theorem Op.edits_favor : .favor ∉ o.edits s := by
  cases o <;> simp [Op.edits, abortEdits]

theorem Op.edits_bury : .bury ∉ o.edits s := by
  cases o <;> simp [Op.edits, abortEdits]

theorem Calls.returns (h : Calls s cur o s') : Returns s cur o s' := by
  cases h with
  | same => exact .same
  | edits ht h =>
    by_cases hr : .resume ∈ o.edits s
    · obtain ⟨u, rfl⟩ := Op.edits_resume hr
      cases ht
      exact .resume (h.cleaning (by simp [Op.edits])) (h.touches fun _ => id)
    · refine .touch (.inl ht) ?_ (h.touches fun hk => absurd hk hr)
      by_cases hc : .clean ∈ o.edits s
      · exact .inr ((Op.edits_clean hc).trans ht)
      · exact .inl (h.cleaning hc)
  | bury ht h =>
    have hcl : Edits _ [.bury] s s' := h.single (by simp)
    exact .touch (ht.imp_left And.left) (.inl (hcl.cleaning (by simp))) (h.touches nofun)
  | spawn h => exact .spawn h
  | event h =>
    obtain ⟨hl, rfl⟩ := newEvent_inv h
    exact .event hl
  | eventFree => exact .eventFree
  | cancelState => exact .cancelState

theorem CallStep.step (h : CallStep cfg s o s') : Step cfg s (.op o) s' := by
  cases h with
  | calls hc hp h => exact .returns hc hp h.returns
  | wait hr hp hring => exact .wait hr hp hring
  | join hr hp h => exact .join hr hp h
  | yield hr hp _ h => exact .yield hr hp (h.touches (by simp)) (h.cleaning (by simp))
  | exitWait hr ho hm h hx he => exact .exitWait hr ho hm h hx he
  | exit hr ho h hx => exact .exit hr ho h hx
  | ack hr hp => exact .ack hr hp
  | die hr hp =>
    unfold pthDie
    split
    case isTrue hm => exact .exited hr hp hm
    case isFalse hm => exact .die hr hp hm
  | returned hr hp hd => exact .returned hr hp hd
  | joined hr hp hd => exact .joined hr hp hd
  | exitReturned hr hp hd => exact .exitReturned hr hp hd
  | @handlerDied _ _ _ s₁ hc ho h hx =>
    unfold pthDie
    split
    case isTrue hm =>
      have hstep : Step cfg s (.op o) { s₁ with ctl := .exited, cleaning := [] } :=
        .handlerExited hc ho h hm (hx hm)
      exact hstep
    case isFalse hm => exact .handlerDied hc ho h hm

theorem callBlocking_step (hr : Running s cur) (hp : (s.tcb cur).pc = .app)
    (hs : callBlocking s cur o = some s') : CallStep cfg s o s' := by
  have hc : s.current = some cur := by simp [State.current, hr.cleaning, hr.ctl]
  cases o with
  | wait =>
    simp only [callBlocking] at hs
    split at hs <;> cases hs
    exact .wait hr hp ‹_›
  | yield =>
    cases hs
    unfold pthYield
    split
    · exact .yield hr hp (t := cur) (.inl rfl) .refl
    · split
      · exact .calls hc (fun _ => .inl hp) .same
      · rename_i q hq
        exact .yield hr hp (.inr (by simp [Op.favours, hq])) ((Edit.favor hq).single (by simp))
  | raise u sig =>
    simp only [callBlocking] at hs
    split at hs <;> cases hs
    rename_i hf
    unfold pthYield
    dsimp only
    split
    · exact .calls hc (fun _ => .inl hp) (.edits rfl addSignal_edits)
    · rename_i q hq
      have hm : Edits u [.mark, .favor] s (addSignal s u sig) :=
        addSignal_edits.rule .refl fun hk he h => h.step (by simp_all) he
      exact .yield hr hp (.inr (by simpa [Op.favours, Option.isSome_iff_ne_none] using hf.2.2))
        (hm.step (by simp) (.favor hq))
  | join =>
    simp only [callBlocking] at hs
    split at hs
    case isFalse => cases hs
    case isTrue =>
    obtain ⟨s₁, h₁, hs⟩ := Option.bind_eq_some_iff.mp hs
    cases hs
    exact .join hr hp h₁
  | _ => cases hs

theorem Acked.exitCb (h : Acked s cur s₁) : exitCb s₁ = Sched.exitCb s := by
  cases h <;> rfl

theorem Acked.outside (h : Acked s cur s₁) : SameOutside s s₁ := by
  cases h <;> rfl

theorem Acked.cleaning (h : Acked s cur s₁) : s₁.cleaning = s.cleaning :=
  h.outside.cleaning

theorem Acked.ctl (h : Acked s cur s₁) : s₁.ctl = s.ctl := h.outside.control.ctl

theorem pthExit_step (hr : Running s cur)
    (ho : exitArgs s cur o = some (e, tv)) (h : Acked s cur s₁) (hs : pthExit cfg s₁ cur e tv = some s') :
    CallStep cfg s o s' := by
  unfold pthExit at hs
  rw [h.exitCb] at hs
  split at hs
  case isTrue hm =>
    obtain ⟨s₂, h₂, hs⟩ := Option.bind_eq_some_iff.mp hs
    cases hs
    exact .exitWait hr ho hm.1 h (by simpa using hm.2) h₂
  case isFalse hm =>
    cases hs
    exact .exit hr (by simp [ho]) h fun hmain => by simpa [hmain] using hm

theorem waitReturn_step (hr : Running s cur)
    (hp : (s.tcb cur).pc = .inWait k) (hs : waitReturn cfg s cur k e tv = some s') :
    CallStep cfg s (.waitReturn e tv) s' := by
  unfold waitReturn at hs
  split at hs
  case isTrue hd => exact pthExit_step hr (if_pos hd) (.due hd) hs
  case isFalse hd =>
    have hd : cancelDue s cur = false := Bool.eq_false_iff.mpr hd
    cases k with
    | app =>
      cases hs
      exact .returned hr hp hd
    | join =>
      cases hs
      exact .joined hr hp hd
    | exit =>
      cases hs
      exact .exitReturned hr hp hd

theorem callApp_step (hr : Running s cur) (hp : (s.tcb cur).pc = .app)
    (hs : (callNonblocking s cur o <|> callBlocking s cur o) = some s') : CallStep cfg s o s' := by
  cases hn : callNonblocking s cur o with
  | some =>
    rw [hn] at hs
    cases hs
    exact .calls (by simp [State.current, hr.cleaning, hr.ctl]) (fun _ => .inl hp)
      (callNonblocking_calls hn)
  | none =>
    rw [hn] at hs
    exact callBlocking_step hr hp hs

theorem callRunning_step (hr : Running s cur) (hs : callRunning cfg s cur o = some s') :
    CallStep cfg s o s' := by
  have hc : s.current = some cur := by simp [State.current, hr.cleaning, hr.ctl]
  unfold callRunning at hs
  split at hs
  case h_1 k e tv hp => exact waitReturn_step hr hp hs
  case h_2 => cases hs
  case h_3 hp => cases hs; exact .die hr hp
  case h_4 hp => exact pthExit_step hr rfl .none hs
  case h_5 hp =>
    split at hs
    case isTrue hd => exact pthExit_step hr (if_pos hd) (.due hd) hs
    case isFalse =>
      cases hs
      exact .calls hc (fun _ => .inl hp) .same
  case h_6 hp =>
    cases hs
    split
    · exact .ack hr hp
    · exact .calls hc (fun _ => .inr hp) .same
  case h_7 hp _ _ => exact callApp_step hr hp hs
  case h_8 hp _ _ => exact .calls hc (fun _ => .inr hp) (callNonblocking_calls hs)

theorem exitInHandler_step (hc : s.cleaning = cur :: rest)
    (ho : exitsInHandler s o = true) (h : Acked s cur s₁) (hs : exitInHandler cfg s₁ cur = some s') :
    CallStep cfg s o s' := by
  unfold exitInHandler at hs
  rw [h.exitCb] at hs
  split at hs
  case isTrue => cases hs
  case isFalse hx =>
    cases hs
    exact .handlerDied hc ho h fun hm => by simpa [hm] using hx

theorem callHandler_step (hc : s.cleaning = cur :: rest)
    (hs : callHandler cfg s cur o = some s') : CallStep cfg s o s' := by
  have hcur : s.current = some cur := by simp [State.current, hc]
  have hp : s.cleaning = [] → (s.tcb cur).pc = .app ∨ (s.tcb cur).pc = .exiting := by simp [hc]
  unfold callHandler at hs
  split at hs
  case h_1 => exact exitInHandler_step hc (by simp [exitsInHandler, hc]) .none hs
  case h_2 =>
    split at hs
    case isTrue hd => exact exitInHandler_step hc (by simpa [exitsInHandler, hc] using hd) (.due hd) hs
    case isFalse =>
      cases hs
      exact .calls hcur hp .same
  case h_3 => exact .calls hcur hp (callNonblocking_calls hs)

theorem call_step (hs : call cfg s o = some s') : CallStep cfg s o s' := by
  unfold call at hs
  split at hs
  case h_1 hc => exact callHandler_step hc hs
  case h_2 hcl hc => exact callRunning_step ⟨hcl, hc⟩ hs
  case h_3 => cases hs

/-! ### The scheduler -/

theorem emFinish_inv (hs : emFinish s late = some s') :
    ∃ dopoll timer rc0, s.ctl = .em (.finish dopoll timer rc0) ∧
      s' = { cleanupLoop late (timerBranch s dopoll timer rc0).1 with
        ctl := if (timerBranch s dopoll timer rc0).2 then
            .em (.enter dopoll (cleanupLoop late (timerBranch s dopoll timer rc0).1).now)
          else .loop } := by
  cases hc : s.ctl with
  | em e =>
    cases e with
    | finish dopoll timer rc0 =>
      simp only [emFinish, hc] at hs
      exact ⟨dopoll, timer, rc0, rfl, (Option.some.inj hs).symm⟩
    | _ => simp [emFinish, hc] at hs
  | _ => simp [emFinish, hc] at hs

theorem schedStep_step (hcl : s.cleaning = []) (hs : schedStep cfg s a = some s') :
    Step cfg s a s' := by
  cases a with
  | sched =>
    simp only [schedStep] at hs
    split at hs <;> cases hs
    exact .sched hcl ‹_›
  | back =>
    simp only [schedStep] at hs
    split at hs <;> cases hs
    exact .back hcl ‹_›
  | take =>
    simp only [schedStep, drainTake] at hs
    split at hs <;> cases hs
    · exact .take hcl ‹_›
    · exact .retake hcl ‹_›
  | msg =>
    simp only [schedStep, drainNext] at hs
    split at hs <;> cases hs
    · exact .msg hcl ‹_›
    · exact .remsg hcl ‹_›
  | drained =>
    simp only [schedStep, drainEnd] at hs
    split at hs <;> cases hs
    · exact .drained hcl ‹_›
    · exact .redrained hcl ‹_›
  | scan =>
    simp only [schedStep, emScan] at hs
    split at hs <;> cases hs
    exact .scan hcl ‹_›
  | woken =>
    simp only [schedStep, emWoken] at hs
    split at hs
    case h_2 => cases hs
    case h_1 hc =>
      split at hs <;> cases hs
      rename_i hn
      exact .woken hcl hc fun h => by simpa [h] using hn
  | finish =>
    obtain ⟨dopoll, timer, rc0, hc, rfl⟩ := emFinish_inv hs
    exact .finish hcl hc
  | _ => cases hs

theorem exec_step (hs : exec cfg s a = some s') :
    s.fault = false ∧ s.ctl ≠ .exited ∧ Step cfg s a s' := by
  unfold exec at hs
  split at hs
  case isTrue => cases hs
  case isFalse hf =>
  obtain ⟨hf, hx⟩ := not_or.mp hf
  refine ⟨Bool.eq_false_iff.mpr hf, hx, ?_⟩
  split at hs
  case h_1 o => exact (call_step hs).step
  case h_2 =>
    split at hs
    case h_1 hc => cases hs; exact .cleaned hc
    case h_2 => cases hs
  case h_3 =>
    split at hs <;> cases hs
    exact .post ‹_›
  case h_4 =>
    split at hs <;> cases hs
    exact .spawnOn (Bool.eq_false_iff.mpr ‹_›)
  case h_5 => cases hs; exact .tick
  case h_6 =>
    split at hs
    case isTrue hcl => exact schedStep_step hcl hs
    case isFalse => cases hs

/-- A step is a call, or one of the other rules. -/
theorem exec_cases (hs : exec cfg s a = some s') :
    (∃ o, a = .op o ∧ CallStep cfg s o s') ∨ (∀ o, a ≠ .op o) ∧ Step cfg s a s' := by
  cases a with
  | op o =>
    refine .inl ⟨o, rfl, ?_⟩
    unfold exec at hs
    split at hs
    · cases hs
    · exact call_step hs
  | _ => exact .inr ⟨nofun, (exec_step hs).2.2⟩

end GnuPth.Sched
