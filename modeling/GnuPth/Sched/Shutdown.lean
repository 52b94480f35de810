import GnuPth.Sched.Handlers

/-!
# The shutdown of an auxiliary scheduler

Threads spawned from other schedulers arrive in the inbox, which only the event
manager drains. A scheduler that was told to stop leaves its loop when its
queues are empty, without a look at the inbox: whatever is pushed behind the
exchange that takes the STOP message may be left behind.
-/

namespace GnuPth.Sched

open Inbox (Gmsg)
open Transition

variable {s s' : State}

def stopTaken (s : State) : Bool := s.stop || s.ctl.batch.any fun m => m.kind = .stop

/-- Nothing is spawned on a scheduler that has taken its STOP message; with
`strict`, nothing is posted to it at all. No cleanup handler on a foreign stack
ends its thread. -/
def handsOver (strict : Bool) (s : State) : Act → Bool
  | .op o => !exitsInHandler s o
  | .spawnOn _ _ => !stopTaken s
  | .post _ => !strict || !stopTaken s
  | _ => true

def handoverSystem (cfg : Config) (strict : Bool) : System State Act :=
  (system cfg).restrict fun s a => handsOver strict s a = true

/-! ### The invariant -/

/-- The state as far as messages go through it. -/
structure Mail where
  batch : List Gmsg
  inbox : List Gmsg
  stop : Bool
  spawned : List Tid
  adoptions : List Tid

def State.mail (s : State) : Mail := ⟨s.ctl.batch, s.inbox, s.stop, s.spawned, s.adoptions⟩

/-- Every spawned thread is adopted or under way, in the order of the calls; once
STOP is taken none is in the inbox. -/
structure Mail.Ordered (strict : Bool) (p : Mail) : Prop where
  order : p.spawned = p.adoptions ++ (p.batch ++ p.inbox).filterMap spawnOf
  stopped : p.stop = true ∨ (∃ m ∈ p.batch, m.kind = .stop) →
    (∀ m ∈ p.inbox, m.kind ≠ .spawn) ∧ (strict = true → p.inbox = [])

theorem SameControl.mail (h : SameControl s s') : s'.mail = s.mail := by
  simp [State.mail, h.ctl, h.inbox, h.stop, h.spawned, h.adoptions]

theorem Mail.Ordered.congr (h : s.mail.Ordered strict) (hm : s'.mail = s.mail) :
    s'.mail.Ordered strict := by
  rwa [hm]

theorem SameControl.mail_setCtl (h : SameControl s s') (ctl : Ctl) (hb : ctl.batch = s.ctl.batch) :
    { s' with ctl := ctl }.mail = s.mail := by
  simp [State.mail, hb, h.inbox, h.stop, h.spawned, h.adoptions]

theorem Works.mail (hw : Works s cur o s') (hr : Running s cur) : s'.mail = s.mail := by
  have hrefl : SameControl s s := rfl
  have hb : s'.ctl.batch = s.ctl.batch := by rcases hw.ctl with h | h <;> simp [h, hr.ctl, Ctl.batch]
  exact hw.control.mail.trans (hrefl.mail_setCtl _ hb)

variable {now : Timeval}

theorem scanEvent_mail : (scanEvent now fires t k e).state.mail = k.state.mail := by
  have hlog : (logFired k.state e).mail = k.state.mail := by
    unfold logFired
    split <;> rfl
  unfold scanEvent
  repeat' split
  · rfl
  · exact hlog
  · rfl
  · rfl

theorem scanEvents_mail {l : List EventId} :
    (l.foldl (scanEvent now fires t) k).state.mail = k.state.mail := by
  induction l generalizing k with
  | nil => rfl
  | cons e l ih => exact ih.trans scanEvent_mail

theorem scanThreads_mail {l : List Tid} :
    (l.foldl (scanThread now fires) k).state.mail = k.state.mail := by
  induction l generalizing k with
  | nil => rfl
  | cons t l ih =>
    refine ih.trans ?_
    unfold scanThread
    split <;> exact scanEvents_mail

theorem timerBranch_mail :
    (timerBranch s dopoll timer rc0).1.mail = s.mail := by
  unfold timerBranch
  repeat' split
  · rfl
  · unfold logFired
    split <;> rfl
  · rfl
  · rfl

/-! ### Messages -/

theorem drainMsg_control (hs : m.kind ≠ .stop) (hsp : spawnOf m = none) :
    SameControl s (drainMsg s m) := by
  rcases drainMsg_cases s m with h | ⟨e, -, -, h⟩ | ⟨hk, -⟩ | ⟨t, hk, ht, -⟩ | ⟨t, -, h⟩
  · rw [h]
    rfl
  · rw [h]
    rfl
  · exact absurd hk hs
  · simp [spawnOf, hk, ht] at hsp
  · exact h.control

theorem Mail.Ordered.message {batch : List Gmsg} {em : Em} (h : s.mail.Ordered strict)
    (hb : s.ctl.batch = m :: batch) (hem : (Ctl.em em).batch = batch) :
    (drainMsg { s with ctl := .em em } m).mail.Ordered strict := by
  have horder : s.spawned = s.adoptions ++ (m :: (batch ++ s.inbox)).filterMap spawnOf := by
    have := h.order
    simpa [State.mail, hb] using this
  have hstop : s.stop = true ∨ m.kind = .stop ∨ (∃ m' ∈ batch, m'.kind = .stop) →
      (∀ m ∈ s.inbox, m.kind ≠ .spawn) ∧ (strict = true → s.inbox = []) := by
    intro hs
    refine h.stopped ?_
    simpa [State.mail, hb] using hs
  cases hsp : spawnOf m with
  | some =>
    rw [drainMsg_spawn hsp]
    refine ⟨?_, fun hs => hstop (hs.imp_right fun hs => .inr ?_)⟩
    · rw [List.filterMap_cons_some hsp] at horder
      simpa [State.mail, adopt, State.enqueue, State.setTcb, hem] using horder
    · simpa [State.mail, adopt, State.enqueue, State.setTcb, hem] using hs
  | none =>
    rw [List.filterMap_cons_none hsp] at horder
    by_cases hk : m.kind = .stop
    · have hd : drainMsg { s with ctl := .em em } m = { s with ctl := .em em, stop := true } := by
        unfold drainMsg
        rw [hk]
      rw [hd]
      refine ⟨?_, fun _ => hstop (.inr (.inl hk))⟩
      simpa [State.mail, hem] using horder
    · rw [(drainMsg_control hk hsp).mail]
      refine ⟨?_, fun hs => hstop (hs.imp_right fun hs => .inr ?_)⟩
      · simpa [State.mail, hem] using horder
      · simpa [State.mail, hem] using hs

/-! ### Steps -/

theorem Mail.Ordered.step (h : s.mail.Ordered strict) (hok : handsOver strict s a = true)
    (hs : exec cfg s a = some s') : s'.mail.Ordered strict := by
  have hrun : ∀ {cur}, Running s cur → s.ctl.batch = [] := fun hr => by rw [hr.ctl]; rfl
  have hrefl : SameControl s s := rfl
  obtain ⟨o, rfl, hcall⟩ | ⟨hop, hstep⟩ := exec_call hs
  · have hno : exitsInHandler s o = false := by simpa [handsOver] using hok
    cases hcall with
    | returns _ _ hret => exact h.congr hret.control.mail
    | works _ hx hw => exact h.congr (hw.mail (hx.resolve_right (by simp [hno])))
    | yield hr _ ht => exact h.congr (ht.control.mail_setCtl _ (hrun hr).symm)
    | joined _ ht => exact h.congr ht.control.mail
    | exited _ hx hack =>
      exact h.congr (hack.outside.control.mail_setCtl _ (hrun (hx.resolve_right (by simp [hno]))).symm)
  cases hstep with
  | @cleaned t rest =>
    have hc : SameControl s { s with cleaning := rest } := rfl
    exact h.congr (hc.trans .cancelDone).mail
  | @post m hm =>
    have hsp : spawnOf m = none := if_neg hm
    refine ⟨?_, fun hst => ?_⟩
    · have := h.order
      simp only [State.mail, List.filterMap_append, List.filterMap_cons_none hsp, List.filterMap_nil,
        List.append_nil] at this ⊢
      exact this
    · have hold := h.stopped hst
      have htaken : stopTaken s = true := by simpa [stopTaken, State.mail] using hst
      refine ⟨fun m' hm' => ?_, fun hstrict => ?_⟩
      · rcases List.mem_append.mp hm' with hm' | hm'
        · exact hold.1 m' hm'
        · rw [List.mem_singleton.mp hm']
          exact hm
      · simp [handsOver, htaken, hstrict] at hok
  | @spawnOn =>
    refine ⟨?_, fun hst => ?_⟩
    · have := h.order
      simp only [State.mail, State.setTcb] at this ⊢
      simp [this, Inbox.Call.msg, spawnOf]
    · have htaken : stopTaken s = true := by simpa [stopTaken, State.mail, State.setTcb] using hst
      simp [handsOver, htaken] at hok
  | sched hcl hc =>
    have hp : SameControl s (promoteNew cfg (s.elements .nq) s) := (SameOutside.promoteNew _).control
    unfold schedule
    dsimp only
    repeat' split
    all_goals exact h.congr (hp.mail_setCtl _ (by rw [hc]; rfl))
  | @back t hcl hc =>
    have hp : SameControl s (putBack s t) := SameOutside.putBack.control
    unfold comeBack
    dsimp only
    repeat' split
    all_goals exact h.congr (hp.mail_setCtl _ (by rw [hc]; rfl))
  | @msg dopoll now any m batch hcl hc | @remsg dopoll timer rc0 m batch hcl hc =>
    exact h.message (by rw [hc]; rfl) rfl
  | @scan dopoll now fires hcl hc =>
    have hm : (scanQueue s now fires).state.mail = s.mail := scanThreads_mail
    have hctl : (scanQueue s now fires).state.ctl = s.ctl := SameThreads.scanQueue.ctl
    have hc' : SameControl (scanQueue s now fires).state (scanQueue s now fires).state := rfl
    exact h.congr ((hc'.mail_setCtl _ (by rw [hctl, hc]; rfl)).trans hm)
  | @finish dopoll timer rc0 late hcl hc =>
    have hctl : (timerBranch s dopoll timer rc0).1.ctl = s.ctl := SameThreads.timerBranch.ctl
    have hc' : SameControl (timerBranch s dopoll timer rc0).1
        (cleanupLoop late (timerBranch s dopoll timer rc0).1) :=
      SameOutside.cleanupLoop.control
    refine h.congr ((hc'.mail_setCtl _ ?_).trans timerBranch_mail)
    rw [hctl, hc]
    split <;> rfl
  | take hcl hc | retake hcl hc =>
    refine ⟨?_, fun _ => ⟨(by intros; contradiction), fun _ => rfl⟩⟩
    have := h.order
    simpa [State.mail, hc, Ctl.batch] using this
  | drained hcl hc | redrained hcl hc | woken hcl hc =>
    exact h.congr (hrefl.mail_setCtl _ (by rw [hc]; rfl))
  | tick => exact h
  | _ => exact absurd rfl (hop _)

structure HandedOver (strict : Bool) (s : State) : Prop where
  mail : s.mail.Ordered strict
  placed : s.ctl = .exited ∨ Placed True none s

theorem handedOver_of_reachable (h : Reachable (handoverSystem cfg strict) s) :
    HandedOver strict s := by
  refine h.invariant ?_ ?_
  · intro s hi
    refine ⟨⟨?_, fun _ => ?_⟩, .inr hi.placed⟩
    · simp [State.mail, hi.ctl, hi.inbox, hi.spawned, hi.adoptions, Ctl.batch]
    · simp [State.mail, hi.inbox]
  · intro s a s' hI hs
    have hex : exec cfg s a = some s' := hs.2
    have hne := (exec_step hex).2.1
    refine ⟨hI.mail.step hs.1 hex, (hI.placed.resolve_left hne).step hex fun _ => ?_⟩
    cases a with
    | op => simpa [handsOver, HandlersReturn] using hs.1
    | _ => trivial

/-! ### Leaving the loop -/

structure Dry (s : State) : Prop where
  queues : ∀ n, n ≠ .dq → s.members n = []
  stop : s.stop = true
  cleaning : s.cleaning = []

theorem members_eq_nil (h : s.elements n = 0) : s.members n = [] := by
  rw [State.members, List.length_eq_zero_iff.mp h]
  rfl

theorem Dry.of_runDry (h : runDry cfg s = true) (hr : s.elements .rq = 0) (hcl : s.cleaning = []) :
    Dry s := by
  simp only [runDry, Bool.and_eq_true, decide_eq_true_eq] at h
  obtain ⟨⟨⟨⟨-, hstop⟩, hn⟩, hw⟩, hs⟩ := h
  refine ⟨fun n hd => ?_, hstop, hcl⟩
  cases n with
  | nq => exact members_eq_nil hn
  | rq => exact members_eq_nil hr
  | wq => exact members_eq_nil hw
  | sq => exact members_eq_nil hs
  | dq => exact absurd rfl hd

theorem schedule_left (hcl : s.cleaning = []) (hl : (schedule cfg s).ctl = .left) : Dry
    (schedule cfg s) := by
  have hcl' : (promoteNew cfg (s.elements .nq) s).cleaning = [] :=
    (SameOutside.promoteNew _).cleaning.trans hcl
  unfold schedule at hl ⊢
  dsimp only at hl ⊢
  split at hl
  case h_1 => cases hl
  case h_2 hrq =>
  split at hl
  case isTrue hdry =>
    rw [if_pos hdry]
    exact .of_runDry hdry (by rw [State.elements, hrq]; rfl) hcl'
  case isFalse => split at hl <;> cases hl

theorem comeBack_left (hcl : s.cleaning = []) (hl : (comeBack cfg s t).ctl = .left) :
    Dry (comeBack cfg s t) := by
  have hcl' : (putBack s t).cleaning = [] := SameOutside.putBack.cleaning.trans hcl
  unfold comeBack at hl ⊢
  dsimp only at hl ⊢
  split at hl
  case isFalse => cases hl
  case isTrue hq =>
  split at hl
  case isTrue hdry =>
    rw [if_pos hq, if_pos hdry]
    exact .of_runDry hdry hq.1 hcl'
  case isFalse => cases hl

theorem Step.to_left (h : Step cfg s a s') (hne : s.ctl ≠ .left) (hl : s'.ctl = .left) :
    Dry s' := by
  have hsame : s'.ctl ≠ s.ctl := fun heq => hne (heq.symm.trans hl)
  cases h with
  | sched hcl => exact schedule_left hcl hl
  | back hcl => exact comeBack_left hcl hl
  | returns _ _ hret => exact absurd hret.control.ctl hsame
  | exit _ _ hack => exact absurd hack.ctl hsame
  | joined => exact absurd SameControl.joinEnd.ctl hsame
  | @exitReturned cur =>
    exact absurd (SameOutside.freeEvents (s.tcb cur).events _).control.ctl hsame
  | @cleaned =>
    exact absurd (SameControl.cancelDone).ctl hsame
  | ack | returned | post | spawnOn | tick => exact absurd rfl hsame
  | msg | remsg => cases drainMsg_ctl.symm.trans hl
  | finish =>
    split at hl <;> cases hl
  | _ => cases hl

def auxConfig : Config := ⟨none, true, .poll⟩

def stopMsg : Gmsg := (Inbox.Call.gschedPost .stop none none).msg

/-- Thread 1 is spawned on a scheduler that is then told to stop. It runs, `during`
happens, and it ends. -/
def stopSchedule (during : List Act) : List Act :=
  [.sched, .spawnOn 1 asyncAttr, .post stopMsg, .take, .msg, .msg, .drained, .scan fun _ => false,
    .woken true false, .take, .drained, .finish fun _ => none, .sched] ++ during ++
    [.op (.exit 30 ⟨0, 0⟩), .op .die]

end GnuPth.Sched
