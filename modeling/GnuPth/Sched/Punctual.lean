import GnuPth.Sched.Timers

/-!
# Timers do not fire early

A deadline is compared with the time of the pass, or it becomes the timeout of the
wait call; behind that call the event is tagged without a look at the clock. Where
no conversion on the way cuts the time short, the clock has reached the deadline.
-/

namespace GnuPth.Sched

open Inbox (Gmsg)
open Transition

variable {s : State}

def Spec.deadline : Spec → Option Timeval
  | .time tv => some tv
  | _ => none

/-! ### The condition -/

def delayMs (delay : Timeval) : Int := delay.sec * 1000 + (delay.usec + 999).tdiv 1000

/-- The delay is not cut: it is an `int` in milliseconds, and not past the
heartbeat. -/
def Backend.fits (b : Backend) (delay : Timeval) : Bool :=
  match b with
  | .select => true
  | .poll => delayMs delay < 2 ^ 31
  | .evport revalMs => delayMs delay < 2 ^ 31 && (revalMs ≤ 0 || delayMs delay ≤ revalMs)

/-- The deadlines in the waiting queue are normalized, and less than 2^31 seconds
ahead. -/
def nearDeadlines (s : State) (now : Timeval) : Bool :=
  (s.members .wq).all fun t => (s.tcb t).events.all fun e => (s.event e).spec.deadline.all fun tv =>
    tv.Normalized && tv.sec - now.sec < 2 ^ 31

/-- The deadlines are near, the delay until the next one is not cut, there is a
buffer for the wait; no event is made in the place of that of the timer, and no
message marks a time event. -/
def punctual (cfg : Config) (s : State) : Act → Bool
  | .op (.event e _ _) => s.ctl.timer.all (·.event ≠ e)
  | .msg => s.ctl.batch.head?.all fun m =>
    m.kind ≠ .wake || m.event.all fun e => (s.event e).spec.deadline = none
  | .scan fires =>
    match s.ctl with
    | .em (.scan _ now) =>
      nearDeadlines s now && (scanQueue s now fires).timer.all fun k =>
        (s.event k.event).spec.deadline = none || cfg.backend.fits (timeSub k.value now)
    | _ => true
  | .woken _ noBuffer => !noBuffer
  | _ => true

def punctualSystem (cfg : Config) : System State Act :=
  (system cfg).restrict fun s a => punctual cfg s a = true

/-! ### The timeout -/

theorem micros_le_delayMs (h : delay.Normalized) :
    delay.micros ≤ 1000 * delayMs delay := by
  obtain ⟨h₁, h₂⟩ := h
  unfold delayMs Timeval.micros
  rw [Int.tdiv_eq_ediv_of_nonneg (by omega)]
  omega

theorem micros_le_pollTimeout (h : delay.Normalized) (hms : delayMs delay < 2 ^ 31) :
    delay.micros ≤ 1000 * pollTimeout delay := by
  have hle := micros_le_delayMs h
  have hdef : pollTimeout delay = max 0 (int32 (delayMs delay)) := rfl
  by_cases hneg : delayMs delay < 0
  · omega
  · rw [int32_of_range (by omega) hms] at hdef
    omega

theorem micros_le_clampReval (h : delay.Normalized)
    (hfits : (Backend.evport revalMs).fits delay = true)
    (hms : clampReval revalMs (some (pollTimeout delay)) = some ms) : delay.micros ≤ 1000 * ms := by
  simp only [Backend.fits, Bool.and_eq_true, Bool.or_eq_true, decide_eq_true_eq] at hfits
  have hle := micros_le_delayMs h
  have hpoll := micros_le_pollTimeout h hfits.1
  unfold clampReval at hms
  split at hms
  · obtain rfl := Option.some.inj hms
    omega
  · obtain rfl := Option.some.inj hms
    exact hpoll

theorem le_waitTimeout (hk : k.value.Normalized) (hnow : now.Normalized)
    (hfits : cfg.backend.fits (timeSub k.value now) = true) :
    ∃ d, waitTimeout cfg false now (some k) = some d ∧ k.value.micros ≤ now.micros + d := by
  have hdelay := timeSub_normalized hk hnow
  have hmicros := micros_timeSub k.value now
  unfold waitTimeout
  cases hb : cfg.backend with
  | select => exact ⟨(timeSub k.value now).micros, rfl, by omega⟩
  | poll =>
    rw [hb] at hfits
    have hpoll := micros_le_pollTimeout hdelay (of_decide_eq_true hfits)
    exact ⟨1000 * pollTimeout (timeSub k.value now), rfl, by omega⟩
  | evport revalMs =>
    rw [hb] at hfits
    cases hms : clampReval revalMs (some (pollTimeout (timeSub k.value now))) with
    | none =>
      unfold clampReval at hms
      split at hms <;> cases hms
    | some ms =>
      have hle := micros_le_clampReval hdelay hfits hms
      exact ⟨1000 * ms, by simp [hms], by omega⟩

/-! ### What a step does to an event -/

structure Unmarked (ev ev' : Event) : Prop where
  spec : ev'.spec = ev.spec
  status : ev'.status = .occurred → ev.status = .occurred

theorem Unmarked.refl (ev : Event) : Unmarked ev ev := ⟨rfl, id⟩

theorem Unmarked.setEvent (hf : ∀ ev, Unmarked ev (f ev)) :
    Unmarked (s.event e) ((s.setEvent e' f).event e) := by
  by_cases he : e = e'
  · subst he
    rw [show (s.setEvent e f).event e = f (s.event e) from Function.update_self _ _ _]
    exact hf _
  · rw [show (s.setEvent e' f).event e = s.event e from Function.update_of_ne he _ _]
    exact .refl _

theorem Unmarked.destroyEvents : Unmarked (s.event e) ((destroyEvents s t).event e) := by
  have hev : (Sched.destroyEvents s t).event e =
      if (s.event e).owner = some t then { s.event e with live := false } else s.event e := rfl
  rw [hev]
  split
  · exact ⟨rfl, id⟩
  · exact .refl _

inductive Effect (s : State) (a : Act) (s' : State) (e : EventId) : Prop
  | unmarked (h : Unmarked (s.event e) (s'.event e))
  -- an event is made
  | made {spec static} (ha : a = .op (.event e spec static)) (h : (s'.event e).status = .pending)
  | running (hc : ∃ cur, s.ctl = .run cur)
      (h : (s'.event e).status = .occurred → (s.event e).status = .occurred)
  | wake {m} (ha : a = .msg) (hm : s.ctl.batch.head? = some m) (hk : m.kind = .wake)
      (he : m.event = some e) (hspec : (s'.event e).spec = (s.event e).spec)
  | scan {dopoll now fires} (ha : a = .scan fires) (hc : s.ctl = .em (.scan dopoll now))
      (h : s'.event = (scanQueue s now fires).state.event)
  | finish {dopoll timer rc0 late} (ha : a = .finish late)
      (hc : s.ctl = .em (.finish dopoll timer rc0))
      (h : s'.event = (cleanupLoop late (timerBranch s dopoll timer rc0).1).event)

theorem Effect.of_event (h : s'.event = s.event) : Effect s a s' e := .unmarked (h ▸ .refl _)

theorem Returns.effect (h : Returns s cur o s') : Effect s (.op o) s' e := by
  cases h with
  | same | spawn | cancelState => exact .of_event rfl
  | touch _ _ h | resume _ h => exact .of_event h.event
  | @event e' =>
    by_cases he : e = e'
    · subst he
      exact .made rfl (by simp [State.setEvent])
    · refine .unmarked ?_
      rw [show (s.setEvent e' _).event e = s.event e from Function.update_of_ne he _ _]
      exact .refl _
  | eventFree => exact .unmarked (.setEvent fun _ => ⟨rfl, id⟩)

theorem drainMsg_effect (hm : s.ctl.batch.head? = some m) :
    Effect s .msg (drainMsg { s with ctl := c } m) e := by
  rcases drainMsg_cases { s with ctl := c } m with
    h | ⟨e', hk, he', h⟩ | ⟨-, h⟩ | ⟨t, -, -, h⟩ | ⟨t, -, h⟩
  · exact .of_event (by rw [h])
  · rw [h]
    by_cases he : e = e'
    · subst he
      exact .wake rfl hm hk he' (by simp [State.setStatus, State.setEvent])
    · exact .unmarked (by simpa [State.setStatus, State.setEvent, he] using .refl _)
  · exact .of_event (by rw [h])
  · exact .of_event (by rw [h]; rfl)
  · exact .of_event h.event

theorem promoteNew_event (n : Nat) : (promoteNew cfg n s).event = s.event := by
  induction n generalizing s with
  | zero => rfl
  | succ n ih =>
    unfold promoteNew
    split
    · rfl
    · exact ih

theorem schedule_event : (schedule cfg s).event = s.event := by
  unfold schedule
  dsimp only
  repeat' split
  all_goals exact promoteNew_event _

theorem comeBack_event : (comeBack cfg s t).event = s.event := by
  unfold comeBack
  dsimp only
  repeat' split
  all_goals exact putBack_event

theorem Works.effect (h : Works s cur o s') : Effect s (.op o) s' e := by
  rcases h.event e with hev | hnew | ⟨-, hev⟩
  · exact .unmarked (hev ▸ .refl _)
  · refine .running ⟨cur, hnew.running.ctl⟩ fun hocc => ?_
    cases hnew.status.symm.trans hocc
  · exact .unmarked ⟨by rw [hev], by rw [hev]; exact id⟩

theorem exec_effect (hs : exec cfg s a = some s') : Effect s a s' e := by
  obtain ⟨o, rfl, hcall⟩ | ⟨hop, h⟩ := exec_call hs
  · cases hcall with
    | returns _ _ hret => exact hret.effect
    | works _ _ hw => exact hw.effect
    | yield _ _ ht | joined _ ht => exact .of_event ht.event
    | exited _ _ hack => exact .of_event hack.works.2.2.1
  cases h with
  | post | spawnOn | tick | take | retake | drained | redrained | woken => exact .of_event rfl
  | @cleaned =>
    refine .unmarked ?_
    rw [cancelDone_event]
    exact Unmarked.destroyEvents
  | sched => exact .of_event schedule_event
  | back => exact .of_event comeBack_event
  | msg _ hc | remsg _ hc => exact drainMsg_effect (by rw [hc]; rfl)
  | scan _ hc => exact .scan rfl hc rfl
  | finish _ hc => exact .finish rfl hc rfl
  | _ => exact absurd rfl (hop _)

/-! ### The scan and the end of a pass -/

/-- The scan so far has marked a time event of the waiting queue only if it
compares as elapsed, and the value of its timer is that of the event. -/
structure Looked (s : State) (now : Timeval) (c : Scan) : Prop where
  spec : ∀ e, (c.state.event e).spec = (s.event e).spec
  status : ∀ e tv, (s.event e).spec = .time tv → (c.state.event e).status = .occurred →
    (s.event e).status = .occurred ∨ timeCmp tv now < 0 ∧ ∃ t ∈ s.members .wq, e ∈ (s.tcb t).events
  timer : ∀ k, c.timer = some k → ∀ tv, (s.event k.event).spec = .time tv → k.value = tv

theorem scanQueue_looked :
    Looked s now (scanQueue s now fires) := by
  refine scanQueue_rule ⟨fun _ => rfl, fun _ _ _ => .inl, nofun⟩
    (fun _ h => ⟨h.spec, h.status, h.timer⟩) fun c t e h _ ht he => ?_
  unfold scanEvent
  split
  · exact h
  split
  case isTrue hocc =>
    have hev : ∀ e', ((logFired c.state e).setStatus e .occurred).event e' =
        if e' = e then { c.state.event e with status := .occurred } else c.state.event e' := by
      intro e'
      simp [State.setStatus, State.setEvent, Function.update_apply]
    refine ⟨fun e' => ?_, fun e' tv htv hst => ?_, h.timer⟩
    · rw [hev]
      split
      case isTrue heq => exact heq ▸ h.spec e
      case isFalse => exact h.spec e'
    · rw [hev] at hst
      split at hst
      case isTrue heq =>
        subst heq
        have hcmp : scanOccurred c.state now fires e' = decide (timeCmp tv now < 0) := by
          simp [scanOccurred, h.spec, htv]
        exact .inr ⟨of_decide_eq_true (hcmp.symm.trans hocc), t, ht, he⟩
      case isFalse => exact h.status e' tv htv hst
  case isFalse =>
    split
    case h_1 => exact h
    case h_2 tv' htv' =>
      refine ⟨h.spec, h.status, fun k hk tv htv => ?_⟩
      obtain rfl | hk := nextTimer_cases hk
      · have htimer : scanTimer c.state now e = some tv := by simp [scanTimer, h.spec, htv]
        exact Option.some.inj (htv'.symm.trans htimer)
      · exact h.timer k hk tv htv

theorem lateStatus_time (h : ev.spec = .time tv) :
    lateStatus late e ev = ev.status := by
  unfold lateStatus
  split
  · rfl
  · rename_i hp
    simp [h, not_not.mp hp]

theorem cleanupLoop_time (h : (s.event e).spec = .time tv) :
    (cleanupLoop late s).event e = s.event e := by
  unfold cleanupLoop
  induction s.members .wq generalizing s with
  | nil => rfl
  | cons t l ih =>
    have hthread : (cleanupThread late s t).event e = s.event e := by
      rw [cleanupThread_event, lateEvents_event, lateStatus_time h]
      split <;> rfl
    rw [List.foldl_cons, ih (by rw [hthread]; exact h), hthread]

theorem timerBranch_marks :
    (timerBranch s dopoll timer rc0).1.event e = s.event e ∨
      ((timerBranch s dopoll timer rc0).1.event e).spec = (s.event e).spec ∧
        ∃ k, timer = some k ∧ k.event = e ∧ dopoll = false ∧ rc0 = true := by
  unfold timerBranch
  split
  case h_2 => exact .inl rfl
  case h_1 k =>
    split
    case isFalse => exact .inl rfl
    case isTrue hrc =>
      split
      · exact .inl rfl
      · by_cases he : e = k.event
        · subst he
          exact .inr ⟨by simp [State.setStatus, State.setEvent], k, rfl, rfl, hrc⟩
        · exact .inl (by simp [State.setStatus, State.setEvent, he])

/-! ### The clock and the deadline -/

def Ctl.now : Ctl → Option Timeval
  | .em (.enter _ now) | .em (.drain _ now _ _) | .em (.scan _ now) => some now
  | _ => none

def Ctl.elapsed : Ctl → Option Timer
  | .em (.woken false timer true) | .em (.redrain false timer true _)
  | .em (.finish false timer true) => timer
  | _ => none

def Ctl.inPass : Ctl → Bool
  | .em _ => true
  | _ => false

/-- The time of a pass is not ahead of the clock; a wait that times out ends behind
the deadline of its timer; when it has timed out, the clock has reached it. -/
structure Due (s : State) : Prop where
  now : ∀ now, s.ctl.now = some now → now.Normalized ∧ now.micros ≤ s.clock
  asleep : ∀ k timeout since, s.ctl = .em (.wait false (some k) timeout since) →
    ∀ tv, (s.event k.event).spec = .time tv → ∃ d, timeout = some d ∧ tv.micros ≤ since + d
  elapsed : ∀ k, s.ctl.elapsed = some k → ∀ tv, (s.event k.event).spec = .time tv →
    tv.micros ≤ s.clock

theorem Due.of_outside (h : s.ctl.inPass = false) : Due s := by
  refine ⟨fun now hn => ?_, fun _ _ _ hc => ?_, fun k hk => ?_⟩
  · cases hc : s.ctl with
    | em => simp [hc, Ctl.inPass] at h
    | _ => simp [hc, Ctl.now] at hn
  · simp [hc, Ctl.inPass] at h
  · cases hc : s.ctl with
    | em => simp [hc, Ctl.inPass] at h
    | _ => simp [hc, Ctl.elapsed] at hk

theorem Ctl.timer_of_elapsed {c : Ctl} (h : c.elapsed = some k) : c.timer = some k := by
  unfold Ctl.elapsed at h
  split at h
  · exact h
  · exact h
  · exact h
  · cases h

theorem Due.move (hD : Due s) (hclock : s.clock ≤ s'.clock)
    (hnow : ∀ now, s'.ctl.now = some now → s.ctl.now = some now)
    (hwait : ∀ k timeout since, s'.ctl = .em (.wait false (some k) timeout since) → s.ctl = s'.ctl)
    (helapsed : ∀ k, s'.ctl.elapsed = some k → s.ctl.elapsed = some k)
    (hspec : ∀ k, s.ctl.timer = some k → (s'.event k.event).spec = (s.event k.event).spec) : Due s' where
  now now hn := by
    obtain ⟨hnorm, hle⟩ := hD.now now (hnow now hn)
    exact ⟨hnorm, hle.trans hclock⟩
  asleep k timeout since hw tv htv := by
    have hc := (hwait k timeout since hw).trans hw
    rw [hspec k (by rw [hc]; rfl)] at htv
    exact hD.asleep k timeout since hc tv htv
  elapsed k hk tv htv := by
    have hk := helapsed k hk
    rw [hspec k (Ctl.timer_of_elapsed hk)] at htv
    exact (hD.elapsed k hk tv htv).trans hclock

theorem Due.idle (hD : Due s) (hc : s'.ctl = s.ctl) (hclock : s.clock ≤ s'.clock)
    (hspec : ∀ k, s.ctl.timer = some k → (s'.event k.event).spec = (s.event k.event).spec) : Due s' := by
  refine hD.move hclock ?_ (fun _ _ _ _ => hc.symm) ?_ hspec
  · rw [hc]
    exact fun _ => id
  · rw [hc]
    exact fun _ => id

theorem Due.enter (h : s.ctl = .em (.enter dopoll s.now)) : Due s where
  now now hn := by
    rw [h] at hn
    obtain rfl := Option.some.inj hn
    exact ⟨Timeval.ofMicros_normalized _, (Timeval.micros_ofMicros _).le⟩
  asleep _ _ _ hw := by rw [h] at hw; cases hw
  elapsed _ hk := by rw [h] at hk; cases hk

theorem timer_spec (hok : punctual cfg s a = true) (hs : exec cfg s a = some s')
    (hk : s.ctl.timer = some k)
    (ha : ∀ late, a ≠ .finish late) : (s'.event k.event).spec = (s.event k.event).spec := by
  cases (exec_effect hs : Effect s a s' k.event) with
  | unmarked h => exact h.spec
  | made ha =>
    subst ha
    simp [punctual, hk] at hok
  | running hc =>
    obtain ⟨cur, hc⟩ := hc
    simp [hc, Ctl.timer] at hk
  | wake _ _ _ _ hspec => exact hspec
  | scan _ hc => simp [hc, Ctl.timer] at hk
  | finish hfin => exact absurd hfin (ha _)

theorem Due.schedule : Due (schedule cfg s) := by
  unfold Sched.schedule
  dsimp only
  repeat' split
  · exact .of_outside rfl
  · exact .of_outside rfl
  · exact .enter rfl
  · exact .of_outside rfl

theorem Due.comeBack : Due (comeBack cfg s t) := by
  have hclock : (putBack s t).clock = s.clock := SameOutside.putBack.control.clock
  have henter : ∀ dopoll, Due { putBack s t with ctl := .em (.enter dopoll s.now) } := by
    intro dopoll
    have hctl : Ctl.em (.enter dopoll s.now) = .em (.enter dopoll (putBack s t).now) := by
      simp [State.now, hclock]
    exact .enter hctl
  unfold Sched.comeBack
  dsimp only
  repeat' split
  · exact .of_outside rfl
  · exact henter false
  · exact henter true

theorem Due.scan {now : Timeval} (hD : Due s)
    (hok : punctual cfg s (.scan fires) = true) (hc : s.ctl = .em (.scan dopoll now)) :
    Due { (scanQueue s now fires).state with
      ctl := .em (.wait (dopoll || (scanQueue s now fires).anyOccurred) (scanQueue s now fires).timer
        (waitTimeout cfg (dopoll || (scanQueue s now fires).anyOccurred) now
          (scanQueue s now fires).timer) s.clock) } where
  now _ hn := nomatch hn
  asleep k timeout since hw tv htv := by
    obtain ⟨hnorm, hle⟩ := hD.now now (by rw [hc]; rfl)
    have hlook : Looked s now (scanQueue s now fires) := scanQueue_looked
    simp only [Ctl.em.injEq, Em.wait.injEq] at hw
    obtain ⟨hpoll, hk, htimeout, rfl⟩ := hw
    have htv : (s.event k.event).spec = .time tv := (hlook.spec k.event).symm.trans htv
    have hval := hlook.timer k hk tv htv
    obtain ⟨hwq, hring⟩ := scanQueue_timer k hk
    simp only [punctual, hc, Bool.and_eq_true, hk, Option.all_some, htv] at hok
    obtain ⟨hnear, hfits⟩ := hok
    simp only [nearDeadlines, List.all_eq_true] at hnear
    have hkn : k.value.Normalized := by
      have hev := hnear k.thread hwq k.event hring
      simp only [htv, Spec.deadline, Option.all_some, Bool.and_eq_true, decide_eq_true_eq] at hev
      exact hval ▸ hev.1
    obtain ⟨d, hd, hreach⟩ := le_waitTimeout hkn hnorm hfits
    refine ⟨d, ?_, ?_⟩
    · rw [← htimeout, hpoll, hk]
      exact hd
    · rw [← hval]
      omega
  elapsed _ hk := nomatch hk

theorem Due.woken (hD : Due s) (hok : punctual cfg s (.woken rc0 noBuffer) = true)
    (hc : s.ctl = .em (.wait dopoll timer timeout since))
    (ht : rc0 = true → mayTimeOut cfg timeout since s.clock noBuffer = true) :
    Due { s with ctl := .em (.woken dopoll timer rc0) } where
  now _ hn := nomatch hn
  asleep _ _ _ hw := nomatch hw
  elapsed k hk tv htv := by
    cases dopoll with
    | true => cases hk
    | false =>
    cases rc0 with
    | false => cases hk
    | true =>
      obtain rfl : timer = some k := hk
      obtain ⟨d, rfl, hreach⟩ := hD.asleep k timeout since hc tv htv
      obtain rfl : noBuffer = false := by simpa [punctual] using hok
      have hpast : 0 ≤ d ∧ since + d ≤ s.clock := by simpa [mayTimeOut] using ht rfl
      exact hreach.trans hpast.2

theorem Due.message {em : Em} (hD : Due s) (hnow : (Ctl.em em).now = s.ctl.now)
    (hwait : ∀ k timeout since, em ≠ .wait false (some k) timeout since)
    (helapsed : (Ctl.em em).elapsed = s.ctl.elapsed)
    (hspec : ∀ k, s.ctl.timer = some k →
      ((drainMsg { s with ctl := .em em } m).event k.event).spec = (s.event k.event).spec) :
    Due (drainMsg { s with ctl := .em em } m) := by
  have hctl : (drainMsg { s with ctl := .em em } m).ctl = .em em := drainMsg_ctl
  refine hD.move drainMsg_clock.ge ?_ (fun k timeout since hw => ?_) ?_ hspec
  · rw [hctl, hnow]
    exact fun _ => id
  · rw [hctl] at hw
    exact absurd (Ctl.em.inj hw) (hwait k timeout since)
  · rw [hctl, helapsed]
    exact fun _ => id

theorem Due.step (hD : Due s) (hok : punctual cfg s a = true) (hs : exec cfg s a = some s') :
    Due s' := by
  have hspec : (∀ late, a ≠ .finish late) → ∀ k, s.ctl.timer = some k →
      (s'.event k.event).spec = (s.event k.event).spec :=
    fun ha k hk => timer_spec hok hs hk ha
  obtain ⟨o, rfl, hcall⟩ | ⟨hop, h⟩ := exec_call hs
  · cases hcall with
    | returns _ _ hret => exact hD.idle hret.control.ctl hret.control.clock.ge (hspec nofun)
    -- a running thread is not in a pass
    | works _ _ hw => exact .of_outside (by rcases hw.ctl with h | h <;> rw [h] <;> rfl)
    | joined hr ht => exact .of_outside (congrArg Ctl.inPass (ht.control.ctl.trans hr.ctl))
    | yield | exited => exact .of_outside rfl
  cases h with
  | @cleaned t rest =>
    have hcontrol : SameControl { s with cleaning := rest } (cancelDone { s with cleaning := rest } t) :=
      .cancelDone
    exact hD.idle hcontrol.ctl hcontrol.clock.ge (hspec nofun)
  | post | spawnOn => exact hD.idle rfl le_rfl (hspec nofun)
  | @tick dt => exact hD.idle rfl (Int.le_add_of_nonneg_right (Int.natCast_nonneg dt)) (hspec nofun)
  | sched => exact .schedule
  | back => exact .comeBack
  | take _ hc | drained _ hc =>
    refine hD.move le_rfl (fun _ hn => ?_) nofun nofun (hspec nofun)
    rw [hc]
    exact hn
  | @retake dopoll timer rc0 _ hc | @redrained dopoll timer rc0 _ hc =>
    refine hD.move le_rfl nofun nofun (fun k hk => ?_) (hspec nofun)
    rw [hc]
    cases dopoll <;> cases rc0 <;> exact hk
  | msg _ hc => exact hD.message (by rw [hc]; rfl) nofun (by rw [hc]; rfl) (hspec nofun)
  | @remsg dopoll timer rc0 _ _ _ hc =>
    refine hD.message (by rw [hc]; rfl) nofun ?_ (hspec nofun)
    rw [hc]
    cases dopoll <;> cases rc0 <;> rfl
  | scan _ hc => exact hD.scan hok hc
  | woken _ hc ht => exact hD.woken hok hc ht
  | finish =>
    split
    · exact .enter rfl
    · exact .of_outside rfl
  | _ => exact absurd rfl (hop _)

theorem due_of_reachable (h : Reachable (punctualSystem cfg) s) : Due s := by
  refine h.invariant_of_reachable (fun s hi => ?_) fun s a s' _ hD hs => ?_
  · exact .of_outside (by simp [hi.ctl, Ctl.inPass])
  · exact hD.step hs.1 hs.2

/-- In every run whose steps are punctual, on each of the three event managers: a
step that sets a time event to `PTH_STATUS_OCCURRED` is taken when the clock has
reached the deadline. -/
theorem timer_not_early (h : Reachable (punctualSystem cfg) s)
    (hs : (punctualSystem cfg).step s a s') (he : (s.event e).spec = .time tv)
    (hpending : (s.event e).status ≠ .occurred) (hocc : (s'.event e).status = .occurred) :
    tv.micros ≤ s.clock := by
  have hD := due_of_reachable h
  obtain ⟨hok, hexec⟩ : punctual cfg s a = true ∧ exec cfg s a = some s' := hs
  cases (exec_effect hexec : Effect s a s' e) with
  | unmarked h => exact absurd (h.status hocc) hpending
  | made _ h => rw [h] at hocc; cases hocc
  | running _ h => exact absurd (h hocc) hpending
  | wake ha hm hk hev =>
    subst ha
    simp [punctual, hm, hk, hev, he, Spec.deadline] at hok
  | @scan dopoll now fires ha hc h =>
    subst ha
    obtain ⟨hnorm, hle⟩ := hD.now now (by rw [hc]; rfl)
    rw [h] at hocc
    obtain hst | ⟨hcmp, t, ht, hring⟩ := scanQueue_looked.status e tv he hocc
    · exact absurd hst hpending
    · simp only [punctual, hc, Bool.and_eq_true, nearDeadlines, List.all_eq_true] at hok
      have hev := hok.1 t ht e hring
      simp only [he, Spec.deadline, Option.all_some, Bool.and_eq_true, decide_eq_true_eq] at hev
      exact (micros_lt_of_timeCmp hev.1 hnorm hev.2 hcmp).le.trans hle
  | @finish dopoll timer rc0 late ha hc h =>
    rw [h] at hocc
    obtain hsame | ⟨hspec, k, rfl, rfl, rfl, rfl⟩ :=
      (timerBranch_marks : (timerBranch s dopoll timer rc0).1.event e = _ ∨ _)
    · have htime : ((timerBranch s dopoll timer rc0).1.event e).spec = .time tv := by rw [hsame]; exact he
      rw [cleanupLoop_time htime, hsame] at hocc
      exact absurd hocc hpending
    · exact hD.elapsed k (by rw [hc]; rfl) tv he

def sleepUntil (tv : Timeval) : List Act :=
  [.sched, .op (.spawn 1 asyncAttr), .op (.event 21 .fd false), .op (.wait [21]), .back] ++ idlePass ++
    [.sched, .op (.event 20 (.time tv) true), .op (.wait [20]), .back, .take, .drained]

def timedOut (us : Nat) : List Act :=
  [.scan fun _ => false, .tick us, .woken true false, .take, .drained]

/-- Event 20 is a time event that the step `a` marks. -/
def Fires (cfg : Config) (a : Act) (tv : Timeval) (s : State) : Prop :=
  (s.event 20).spec = .time tv ∧ (s.event 20).status = .pending ∧
    ∃ s', exec cfg s a = some s' ∧ (s'.event 20).status = .occurred

instance (cfg : Config) (a : Act) (tv : Timeval) : DecidablePred (Fires cfg a tv) := fun s =>
  decidable_of_iff ((s.event 20).spec = .time tv ∧ (s.event 20).status = .pending ∧
    (exec cfg s a).any fun s' => (s'.event 20).status = .occurred)
    (by simp [Fires, Option.any_eq_true])

theorem timer_not_early_sleep :
    ∃ s, Reachable (punctualSystem pollConfig) s ∧
      Fires pollConfig (.finish fun _ => none) ⟨10, 0⟩ s ∧ 10000000 ≤ s.clock := by
  obtain ⟨s, hs, hspec, hpending, s', hstep, hocc⟩ := exists_reachable pollConfig (punctual pollConfig)
    (P := Fires pollConfig (.finish fun _ => none) ⟨10, 0⟩) asyncAttr
    (sleepUntil ⟨10, 0⟩ ++ timedOut 10000000) (by decide +kernel)
  refine ⟨s, hs, ⟨hspec, hpending, s', hstep, hocc⟩, ?_⟩
  exact timer_not_early hs ⟨rfl, hstep⟩ hspec (by rw [hpending]; decide) hocc

/-- Deadlines that fire early: after a heartbeat of one second, after 704 of
4294968000 milliseconds, and at once, 2^31 seconds ahead. -/
theorem timer_early :
    (∃ s, Reachable (system ⟨some 0, true, .evport 1000⟩) s ∧
      Fires ⟨some 0, true, .evport 1000⟩ (.finish fun _ => none) ⟨10, 0⟩ s ∧ s.clock = 1000000) ∧
    (∃ s, Reachable (system ⟨some 0, true, .poll⟩) s ∧
      Fires ⟨some 0, true, .poll⟩ (.finish fun _ => none) ⟨4294968, 0⟩ s ∧ s.clock = 704000) ∧
    ∃ s, Reachable (system ⟨some 0, true, .select⟩) s ∧
      Fires ⟨some 0, true, .select⟩ (.scan fun _ => false) ⟨2 ^ 31, 0⟩ s ∧ s.clock = 0 := by
  refine ⟨exists_state _ asyncAttr (sleepUntil ⟨10, 0⟩ ++ timedOut 1000000) ?_,
    exists_state _ asyncAttr (sleepUntil ⟨4294968, 0⟩ ++ timedOut 704000) ?_,
    exists_state _ asyncAttr (sleepUntil ⟨2 ^ 31, 0⟩) ?_⟩
  all_goals decide +kernel

end GnuPth.Sched
