import GnuPth.Sched.Places

/-!
# Every step keeps the threads in their places

One lemma for each function of the model: where `Placed` holds before, it holds
after. A thread never gets a second place, in any run. It can lose its only
one when a cleanup handler ends the thread it runs for.
-/

namespace GnuPth.Sched

open Function (update update_self)
open Inbox (Gmsg)
open Placement
open Transition

variable {full : Prop}

/-! ### Threads that act on threads -/

variable {st : ThreadState}

theorem Qname.ofState_admits (h : Qname.ofState st = some n) : n.Admits st := by
  cases st <;> cases h <;> rfl

theorem Qname.ofState_ne_dead (h : Qname.ofState st = some n) : st ≠ .dead := by
  rintro rfl
  cases h

theorem Placed.queued (h : Placed full hand s) (ht : t ∈ s.members n) :
    (Spot.queue n).Admits (s.tcb t) :=
  h.admits (.queue n) t ht

theorem Spot.Admits.move (h : (Spot.queue n).Admits b) (ha : b'.alive = b.alive)
    (hd : b'.adopted = b.adopted) (hm : m.Admits b'.state) : (Spot.queue m).Admits b' where
  alive := ha.trans h.alive
  adopted := by
    rw [hd]
    exact ⟨fun _ => by simp, fun _ => h.adopted.mpr (by simp)⟩
  state := hm

theorem Placed.move (h : Placed full none s) (ht : t ∈ s.members n)
    (hm : m.Admits (s.tcb t).state) :
    Placed full none ((s.dequeue n t).enqueue m prio t) :=
  (h.dequeue ht).enqueue ((h.queued ht).move rfl rfl hm)

theorem Placed.moveTo (h : Placed full none s) (ht : t ∈ s.members n)
    (hm : m.Admits st) :
    Placed full none (((s.dequeue n t).setTcb t ({ · with state := st })).enqueue m prio t) := by
  refine (h.dequeue ht).setTcb_hand.enqueue ?_
  have hb : ((s.dequeue n t).setTcb t ({ · with state := st })).tcb t = { s.tcb t with state := st } := by
    simp [State.setTcb, State.dequeue]
  rw [hb]
  exact (h.queued ht).move rfl rfl hm

theorem Placed.clean (h : Placed full none s) (ht : t ∈ s.members n)
    (hst : (s.tcb t).state ≠ .dead) :
    Placed full none { s.dequeue n t with cleaning := t :: s.cleaning } := by
  have ha := h.queued ht
  exact (h.dequeue ht).put spots_cleaning (List.Perm.refl _) rfl
    ⟨ha.alive, ⟨fun _ => by simp, fun _ => ha.adopted.mpr (by simp)⟩, hst⟩

theorem Placed.destroyEvents (h : Placed full hand s) : Placed full hand (destroyEvents s t) :=
  h.congr rfl fun _ => .refl _

theorem Placed.cancelDone (h : Placed full none s) (hc : s.cleaning = t :: rest) :
    Placed full none (cancelDone { s with cleaning := rest } t) := by
  have ha := h.admits .cleaning t (by simp [spots, hc])
  have h₁ : Placed full (some t) (Sched.destroyEvents { s with cleaning := rest } t) := by
    refine Placed.destroyEvents (h.take spots_cleaning ?_ rfl)
    simp [spots, hc]
  unfold Sched.cancelDone
  dsimp only
  split
  · exact h₁.tcbFree
  · refine h₁.setTcb_hand.enqueue ?_
    simp only [State.setTcb, update_self]
    exact ⟨ha.alive, ⟨fun _ => by simp, fun _ => ha.adopted.mpr (by simp)⟩, rfl⟩

theorem Placed.reap (h : Placed full none s) : Placed full none (reap s t) := by
  unfold Sched.reap
  split
  · rename_i hc
    exact (h.dequeue (mem_of_contains hc.2)).tcbFree
  · exact h.congr rfl fun _ => .refl _

theorem Placed.edit (h : Placed full none s) (he : Edit t s k s') :
    Placed full none s' := by
  cases he with
  | suspend hq ht => exact h.move (m := .sq) ht (Qname.ofState_ne_dead hq)
  | resume hq ht => exact h.move ht (Qname.ofState_admits hq)
  | lose hq ht =>
    -- no dead thread is suspended
    have hne : (s.tcb t).state ≠ .dead := (h.queued ht).state
    cases hst : (s.tcb t).state <;> simp [hst, Qname.ofState] at hq hne
  | favor hq => exact h.favorite (favorQueue_mem hq)
  | mark | force => exact h.setTcb ⟨rfl, rfl, rfl⟩
  | clean hq ht => exact h.clean ht (Qname.ofState_ne_dead hq)
  | bury => exact h.reap
  | blame => exact h.congr rfl fun _ => .refl _

theorem Placed.edits (h : Placed full none s) (he : Edits t ks s s') :
    Placed full none s' :=
  he.rule h fun _ he h => h.edit he

theorem Placed.joinEnd (h : Placed full none s) :
    Placed full none (joinEnd s tid).1 := by
  rcases (joinEnd_edit : (Sched.joinEnd s tid).1 = s ∨ _) with hs | ⟨t, -, he⟩
  · rw [hs]
    exact h
  · exact h.edit he

/-! ### Calls -/

structure SameThreads (s s' : State) : Prop where
  tcb : s'.tcb = s.tcb
  queue : s'.queue = s.queue
  ctl : s'.ctl = s.ctl
  cleaning : s'.cleaning = s.cleaning
  inbox : s'.inbox = s.inbox
  fault : s'.fault = s.fault

theorem SameThreads.refl (s : State) : SameThreads s s := ⟨rfl, rfl, rfl, rfl, rfl, rfl⟩

theorem SameThreads.trans (h : SameThreads s₁ s₂) (h' : SameThreads s₂ s₃) :
    SameThreads s₁ s₃ :=
  ⟨h'.tcb.trans h.tcb, h'.queue.trans h.queue, h'.ctl.trans h.ctl, h'.cleaning.trans h.cleaning,
    h'.inbox.trans h.inbox, h'.fault.trans h.fault⟩

theorem SameThreads.spots (h : SameThreads s s') : spots s' = spots s := by
  funext c
  cases c <;> simp [Sched.spots, State.members, h.queue, h.ctl, h.cleaning, h.inbox]

theorem Placed.same (h : Placed full hand s) (hs : SameThreads s s') : Placed full hand s' :=
  h.congr hs.spots fun u => by rw [hs.tcb]; exact .refl _

theorem SameThreads.setEvent : SameThreads s (s.setEvent e f) :=
  ⟨rfl, rfl, rfl, rfl, rfl, rfl⟩

theorem SameThreads.setStatus {st : Status} : SameThreads s (s.setStatus e st) :=
  .setEvent

theorem SameThreads.foldl {α : Type} {f : State → α → State} (hf : ∀ s a, SameThreads s (f s a))
    (l : List α) (s : State) : SameThreads s (l.foldl f s) := by
  induction l generalizing s with
  | nil => exact .refl s
  | cons a l ih => exact (hf s a).trans (ih _)

theorem SameThreads.markPending (s : State) (ring : List EventId) :
    SameThreads s (markPending s ring) :=
  .foldl (fun _ _ => .setEvent) ring s

theorem SameThreads.freeEvents (l : List EventId) (s : State) :
    SameThreads s (l.foldl (fun s e => s.setEvent e ({ · with live := false })) s) :=
  .foldl (fun _ _ => .setEvent) l s

theorem SameThreads.newEvent (h : newEvent s cur e spec static = some s') : SameThreads s s' := by
  unfold Sched.newEvent at h
  split at h
  · cases h
  · cases h
    exact .setEvent

theorem Placed.leaveRun (h : Placed full none s) (hc : s.ctl = .run t) :
    Placed full (some t) { s with ctl := .loop } := by
  have hs : spots { s with ctl := .loop } = update (spots s) .run [] := by
    funext c
    cases c <;> simp [spots, State.members, hc, Ctl.running, Ctl.returning, Ctl.batch]
  exact h.take hs (by simp [spots, hc, Ctl.running]) rfl

theorem Placed.enterBack (h : Placed full (some t) s) (hc : s.ctl = .loop)
    (ha : Spot.back.Admits (s.tcb t)) : Placed full none { s with ctl := .back t } := by
  have hs : spots { s with ctl := .back t } = update (spots s) .back [t] := by
    funext c
    cases c <;> simp [spots, State.members, hc, Ctl.running, Ctl.returning, Ctl.batch]
  exact h.put hs (by simp [spots, hc, Ctl.returning]) rfl ha

theorem Spot.Admits.back (h : Spot.run.Admits b) (ha : b'.alive = b.alive)
    (hd : b'.adopted = b.adopted) (hm : b'.state ≠ .new) : Spot.back.Admits b' where
  alive := ha.trans h.alive
  adopted := by
    rw [hd]
    exact ⟨fun _ => by simp, fun _ => h.adopted.mpr (by simp)⟩
  state := hm

theorem Placed.running (h : Placed full hand s) (hc : s.ctl = .run t) : Spot.run.Admits (s.tcb t) :=
  h.admits .run t (by simp [spots, hc, Ctl.running])

theorem Placed.switchOut (h : Placed full none s) (hc : s.ctl = .run t) :
    Placed full none (switchOut s t) := by
  refine (h.leaveRun hc).enterBack rfl ((h.running hc).back rfl rfl ?_)
  have hst : (s.tcb t).state = .ready := (h.running hc).state
  simp [hst]

theorem Placed.switchAs (h : Placed full none s) (hc : s.ctl = .run t)
    (ha : (f (s.tcb t)).alive = (s.tcb t).alive) (hd : (f (s.tcb t)).adopted = (s.tcb t).adopted)
    (hst : (f (s.tcb t)).state ≠ .new) : Placed full none (Sched.switchOut (s.setTcb t f) t) := by
  refine (h.leaveRun hc).setTcb_hand.enterBack rfl ?_
  simp only [State.setTcb, update_self]
  exact (h.running hc).back ha hd hst

theorem Placed.pthWait (h : Placed full none s) (hc : s.ctl = .run t) :
    Placed full none (pthWait s t ring k) := by
  have hm := SameThreads.markPending s ring
  exact (h.same hm).switchAs (hm.ctl.trans hc) rfl rfl (by simp)

theorem Placed.ackCancel (h : Placed full hand s) : Placed full hand (ackCancel s t) :=
  h.setTcb ⟨rfl, rfl, rfl⟩

theorem Placed.acked (h : Placed full hand s) (ha : Acked s t s₁) :
    Placed full hand s₁ := by
  cases ha with
  | none => exact h
  | due => exact h.ackCancel

theorem Placed.spawn (h : Placed full none s) (ht : (s.tcb t).alive = false) {attr : Attr} :
    Placed full none ((s.setTcb t fun _ => attr.tcb true).enqueue .nq attr.prio t) := by
  refine ((h.pick (h.notMem_of_freed ht)).setTcb_hand).enqueue ?_
  simp only [State.setTcb, update_self]
  exact ⟨rfl, by simp [Attr.tcb], rfl⟩

theorem Placed.calls (h : Placed full none s) (hs : Calls s cur o s') :
    Placed full none s' := by
  cases hs with
  | same => exact h
  | edits _ he => exact h.edits he
  | bury _ he => exact h.edit he
  | spawn ht => exact h.spawn ht
  | event hn => exact h.same (.newEvent hn)
  | eventFree => exact h.same .setEvent
  | cancelState => exact h.setTcb ⟨rfl, rfl, rfl⟩

/-- Threads lose their places: only where nothing is asked for. -/
theorem Placed.shrink (h : Placed full hand s) (hs : ∀ c, (spots s' c).Sublist (spots s c))
    (hb : s'.tcb = s.tcb) : Placed False hand s' where
  linear :=
    ⟨fun c => (h.linear.nodup c).sublist (hs c),
      fun hi hj => h.linear.unique ((hs _).subset hi) ((hs _).subset hj)⟩
  inHand t ht c hc := h.inHand t ht c ((hs c).subset hc)
  admits c t ht := hb ▸ h.admits c t ((hs c).subset ht)
  complete := False.elim

theorem Placed.handlerDied (h : Placed full none s) (hc : s.cleaning = t :: rest) :
    (pthDie cfg s t).ctl = .exited ∨ Placed False none { pthDie cfg s t with cleaning := [] } := by
  unfold pthDie
  split
  · exact .inl rfl
  · refine .inr ?_
    have ha := h.admits .cleaning t (by simp [spots, hc])
    have h₁ : Placed full (some t) { s with cleaning := rest } :=
      h.take spots_cleaning (by simp [spots, hc]) rfl
    have h₂ : Placed False (some t) { s with cleaning := [], ctl := .loop } := by
      refine h₁.shrink (fun c => ?_) rfl
      cases c with
      | queue => exact List.Sublist.refl _
      | flight =>
        refine List.Sublist.filterMap _ ?_
        exact List.sublist_append_right _ _
      | _ => exact List.nil_sublist _
    have h₃ : Placed False (some t)
        ((Sched.destroyEvents { s with cleaning := [], ctl := .loop } t).setTcb t
          ({ · with state := .dead, joinArg := .exit })) := h₂.destroyEvents.setTcb_hand
    refine h₃.enterBack rfl ?_
    simp only [State.setTcb, update_self]
    exact ⟨ha.alive, ⟨fun _ => by simp, fun _ => ha.adopted.mpr (by simp)⟩, by simp [Spot.AdmitsState]⟩

theorem Placed.newEvent_wait
    (h : Placed full none s) (hc : s.ctl = .run t) (hn : newEvent s t e spec static = some s') :
    Placed full none (Sched.pthWait s' t [e'] k) :=
  have hs := SameThreads.newEvent hn
  (h.same hs).pthWait (hs.ctl.trans hc)

theorem Placed.call (h : Placed full none s) (hs : CallStep cfg s o s')
    (hf : full → exitsInHandler s o = false) : s'.ctl = .exited ∨ Placed full none s' := by
  cases hs with
  | calls _ _ hc => exact .inr (h.calls hc)
  | wait hr => exact .inr (h.pthWait hr.ctl)
  | join hr _ hn => exact .inr (h.newEvent_wait hr.ctl hn)
  | yield hr _ _ he =>
    have ht : Touches False _ s _ := he.touches (by simp)
    exact .inr ((h.edits he).switchOut (ht.control.ctl.trans hr.ctl))
  | exitWait hr _ _ ha _ hn =>
    exact .inr ((h.acked ha).newEvent_wait (ha.ctl.trans hr.ctl) hn)
  | exit _ _ ha => exact .inr ((h.acked ha).setTcb ⟨rfl, rfl, rfl⟩)
  | ack => exact .inr h.ackCancel
  | die hr =>
    unfold pthDie
    split
    · exact .inl rfl
    · exact .inr (h.destroyEvents.switchAs hr.ctl rfl rfl (by simp))
  | returned => exact .inr (h.setTcb ⟨rfl, rfl, rfl⟩)
  | joined => exact .inr (Placed.joinEnd (h.setTcb ⟨rfl, rfl, rfl⟩))
  | exitReturned =>
    exact .inr (((h.setTcb ⟨rfl, rfl, rfl⟩).same (.freeEvents _ _)).setTcb ⟨rfl, rfl, rfl⟩)
  | handlerDied hc ho ha =>
    refine ((h.acked ha).handlerDied (ha.cleaning.trans hc)).imp_right fun h₁ => h₁.mono fun hfull => ?_
    simp [hf hfull] at ho

/-! ### The scheduler loop -/

theorem Placed.promoteNew (h : Placed full none s) (k : Nat) : Placed full none
    (promoteNew cfg k s) := by
  induction k generalizing s with
  | zero => exact h
  | succ k ih =>
    unfold Sched.promoteNew
    split
    · exact h
    · rename_i t ht
      exact ih (h.moveTo (m := .rq) (List.mem_of_getLast? ht) rfl)

theorem Placed.promoteNew_rule {P : State → Prop} (h : Placed full none s) (hP : P s)
    (hs : ∀ s t, Placed full none s → t ∈ s.members .nq → P s → P (promoteTail cfg s t)) (k : Nat) :
    P (Sched.promoteNew cfg k s) := by
  induction k generalizing s with
  | zero => exact hP
  | succ k ih =>
    unfold Sched.promoteNew
    split
    · exact hP
    · rename_i t ht
      have hnq : t ∈ s.members .nq := List.mem_of_getLast? ht
      exact ih (h.moveTo (m := .rq) hnq rfl) (hs s t h hnq hP)

theorem Placed.setCtl (h : Placed full hand s) (hc : s.ctl = .loop) (hr : k.running = [])
    (hb : k.returning = []) (hm : k.batch = []) : Placed full hand { s with ctl := k } :=
  h.congr (spots_ctl (by rw [hc]; exact hr) (by rw [hc]; exact hb) (by rw [hc]; exact hm))
    fun _ => .refl _

theorem Placed.dispatch (h : Placed full none s) (hc : s.ctl = .loop) {rq : Pqueue}
    (hq : s.queue .rq = (t, p) :: rq) :
    Placed full none { s with queue := update s.queue .rq rq, ctl := .run t } := by
  have ht : t ∈ s.members .rq := by simp [State.members, hq]
  have ha := h.queued ht
  have h₁ : Placed full (some t) { s with queue := update s.queue .rq rq } :=
    h.take spots_queue (by simp [spots, State.members, hq]) rfl
  have hs : spots { s with queue := update s.queue .rq rq, ctl := .run t } =
      update (spots { s with queue := update s.queue .rq rq }) .run [t] := by
    funext c
    cases c <;> simp [spots, State.members, hc, Ctl.running, Ctl.returning, Ctl.batch]
  exact h₁.put hs (by simp [spots, hc, Ctl.running]) rfl
    ⟨ha.alive, ⟨fun _ => by simp, fun _ => ha.adopted.mpr (by simp)⟩, ha.state⟩

theorem Placed.schedule (h : Placed full none s) (hc : s.ctl = .loop) :
    Placed full none (schedule cfg s) := by
  have h₁ : Placed full none (Sched.promoteNew cfg (s.elements .nq) s) := h.promoteNew _
  have hc₁ : (Sched.promoteNew cfg (s.elements .nq) s).ctl = .loop :=
    (SameOutside.promoteNew _).control.ctl.trans hc
  unfold Sched.schedule
  dsimp only
  split
  · rename_i t p rq hq
    exact h₁.dispatch hc₁ hq
  · split
    · exact h₁.setCtl hc₁ rfl rfl rfl
    · split
      · exact h₁.setCtl hc₁ rfl rfl rfl
      · exact h₁.setCtl hc₁ rfl rfl rfl

theorem Placed.leaveBack (h : Placed full none s) (hc : s.ctl = .back t) :
    Placed full (some t) { s with ctl := .loop } := by
  have hs : spots { s with ctl := .loop } = update (spots s) .back [] := by
    funext c
    cases c <;> simp [spots, State.members, hc, Ctl.running, Ctl.returning, Ctl.batch]
  exact h.take hs (by simp [spots, hc, Ctl.returning]) rfl

theorem Placed.increase (h : Placed full hand s) :
    Placed full hand { s with queue := update s.queue .rq (s.queue .rq).increase } :=
  h.perm spots_queue (by simp [spots, State.members]) rfl

theorem Spot.Admits.queue (h : Spot.back.Admits b) (hn : n.Admits b.state) :
    (Spot.queue n).Admits b :=
  ⟨h.alive, ⟨fun _ => by simp, fun _ => h.adopted.mpr (by simp)⟩, hn⟩

theorem Placed.putBack (h : Placed full (some t) s) (ha : Spot.back.Admits (s.tcb t)) :
    Placed full none (putBack s t) := by
  unfold Sched.putBack
  split
  · rename_i hst
    refine Placed.increase ?_
    split
    · exact h.enqueue (ha.queue hst)
    · exact h.tcbFree
  · rename_i hst
    exact (h.enqueue (n := .wq) (ha.queue hst)).increase
  · rename_i hw hd
    refine h.increase.enqueue (ha.queue ?_)
    cases hst : (s.tcb t).state with
    | new => exact absurd hst ha.state
    | ready => rfl
    | waiting => exact absurd hst hd
    | dead => exact absurd hst hw

theorem putBack_ctl : putBack { s with ctl := k } t = { putBack s t with ctl := k } := by
  unfold putBack
  cases (s.tcb t).state with
  | dead =>
    dsimp only
    split <;> rfl
  | _ => rfl

theorem Placed.comeBack (h : Placed full none s) (hc : s.ctl = .back t) :
    Placed full none (comeBack cfg s t) := by
  have ha : Spot.back.Admits (s.tcb t) := h.admits .back t (by simp [spots, hc, Ctl.returning])
  have h₁ : Placed full none { Sched.putBack s t with ctl := .loop } := by
    rw [← putBack_ctl]
    exact (h.leaveBack hc).putBack ha
  unfold Sched.comeBack
  dsimp only
  split
  · split
    · exact h₁.setCtl rfl rfl rfl rfl
    · exact h₁.setCtl rfl rfl rfl rfl
  · exact h₁.setCtl rfl rfl rfl rfl

/-! ### The event manager -/

theorem spots_inbox (hr : k.running = s.ctl.running) (hb : k.returning = s.ctl.returning)
    (hm : (k.batch ++ ms).filterMap spawnOf = (s.ctl.batch ++ s.inbox).filterMap spawnOf) :
    spots { s with ctl := k, inbox := ms } = spots s := by
  funext c
  cases c <;> simp only [spots, State.members, hr, hb, hm]

theorem Placed.adopt (h : Placed full (some t) s) (ht : (s.tcb t).alive = true) :
    Placed full none (adopt s t) := by
  have h₁ : Placed full (some t) { s with adoptions := s.adoptions ++ [t] } :=
    h.same ⟨rfl, rfl, rfl, rfl, rfl, rfl⟩
  refine h₁.setTcb_hand.enqueue ?_
  simp only [State.setTcb, update_self]
  exact ⟨ht, by simp, rfl⟩

theorem Placed.drainMsg (h : Placed full none s) (hm : spawnOf m = none) :
    Placed full none (drainMsg s m) := by
  have hd := drainMsg_drains s m
  generalize Sched.drainMsg s m = s' at hd ⊢
  cases hd with
  | same => exact h
  | wake => exact h.same .setEvent
  | stop => exact h.same ⟨rfl, rfl, rfl, rfl, rfl, rfl⟩
  | spawn hk ht => simp [spawnOf, hk, ht] at hm
  | reap => exact h.reap
  | bury _ _ he => exact h.edit he
  | edits _ he => exact h.edits he

theorem drainMsg_spawn (hm : spawnOf m = some t) : drainMsg s m = adopt s t := by
  unfold spawnOf at hm
  split at hm
  · rename_i hk
    unfold drainMsg
    rw [hk, hm]
  · cases hm

theorem Placed.skipFirst (h : Placed full none s)
    (hm : s.ctl.batch = m :: ms) (hr : k.running = s.ctl.running) (hb : k.returning = s.ctl.returning)
    (hk : k.batch = ms) (hsp : spawnOf m = none) : Placed full none { s with ctl := k } :=
  h.congr (spots_inbox hr hb (by simp [hk, hm, hsp])) fun _ => .refl _

theorem Placed.drainFirst (h : Placed full none s)
    (hm : s.ctl.batch = m :: ms) (hr : k.running = s.ctl.running) (hb : k.returning = s.ctl.returning)
    (hk : k.batch = ms) : Placed full none (Sched.drainMsg { s with ctl := k } m) := by
  cases hsp : spawnOf m with
  | none => exact (h.skipFirst hm hr hb hk hsp).drainMsg hsp
  | some t =>
    rw [drainMsg_spawn hsp]
    have ht : t ∈ spots s .flight := by simp [spots, hm, hsp]
    have hs : spots { s with ctl := k } = update (spots s) .flight ((ms ++ s.inbox).filterMap spawnOf) := by
      funext c
      cases c <;> simp [spots, State.members, hr, hb, hk]
    exact (h.take hs (by simp [spots, hm, hsp]) rfl).adopt (h.admits .flight t ht).alive

theorem SameThreads.logFired : SameThreads s (logFired s e) := by
  unfold Sched.logFired
  split <;> exact ⟨rfl, rfl, rfl, rfl, rfl, rfl⟩

theorem SameThreads.scanEvent (k : Scan) (e : EventId) :
    SameThreads k.state (scanEvent now fires t k e).state := by
  unfold Sched.scanEvent
  split
  · exact .refl _
  · split
    · exact SameThreads.logFired.trans SameThreads.setStatus
    · split <;> exact .refl _

theorem SameThreads.scanEvents (l : List EventId) (k : Scan) :
    SameThreads k.state (l.foldl (Sched.scanEvent now fires t) k).state := by
  induction l generalizing k with
  | nil => exact .refl _
  | cons e l ih => exact (SameThreads.scanEvent k e).trans (ih _)

theorem SameThreads.scanThreads (l : List Tid) (k : Scan) :
    SameThreads k.state (l.foldl (scanThread now fires) k).state := by
  induction l generalizing k with
  | nil => exact .refl _
  | cons t l ih =>
    refine .trans ?_ (ih _)
    unfold scanThread
    split
    · exact SameThreads.scanEvents _ { k with anyOccurred := true }
    · exact SameThreads.scanEvents _ k

theorem SameThreads.scanQueue :
    SameThreads s (scanQueue s now fires).state :=
  .scanThreads _ ⟨s, false, none⟩

theorem scanQueue_rule {I : Scan → Prop}
    (hinit : I ⟨s, false, none⟩) (hflag : ∀ k, I k → I { k with anyOccurred := true })
    (hevent : ∀ k t e, I k → SameThreads s k.state → t ∈ s.members .wq → e ∈ (s.tcb t).events →
      I (scanEvent now fires t k e)) : I (scanQueue s now fires) := by
  have hevents : ∀ t ∈ s.members .wq, ∀ (l : List EventId) (k : Scan), I k → SameThreads s k.state →
      (∀ e ∈ l, e ∈ (s.tcb t).events) → I (l.foldl (scanEvent now fires t) k) := by
    intro t ht l
    induction l with
    | nil => exact fun _ hk _ _ => hk
    | cons e l ih =>
      intro k hk hs hl
      have hk' := hevent k t e hk hs ht (hl e (List.mem_cons_self ..))
      exact ih _ hk' (hs.trans (.scanEvent k e)) fun e' he' => hl e' (List.mem_cons_of_mem _ he')
  have hthreads : ∀ (l : List Tid) (k : Scan), I k → SameThreads s k.state →
      (∀ t ∈ l, t ∈ s.members .wq) → I (l.foldl (scanThread now fires) k) := by
    intro l
    induction l with
    | nil => exact fun _ hk _ _ => hk
    | cons t l ih =>
      intro k hk hs hl
      have hring : ∀ e ∈ (k.state.tcb t).events, e ∈ (s.tcb t).events := by
        rw [hs.tcb]
        exact fun _ => id
      refine ih _ ?_ (hs.trans (.scanThreads [t] k)) fun u hu => hl u (List.mem_cons_of_mem _ hu)
      unfold scanThread
      split
      · exact hevents t (hl t (List.mem_cons_self ..)) _ _ (hflag k hk) hs hring
      · exact hevents t (hl t (List.mem_cons_self ..)) _ _ hk hs hring
  exact hthreads (s.members .wq) _ hinit (.refl s) fun _ => id

theorem Placed.em (h : Placed full none s) (hs : SameThreads s s')
    (hc : s.ctl = .em e) (hm : (Ctl.em e').batch ++ ms = (Ctl.em e).batch ++ s.inbox) :
    Placed full none { s' with ctl := .em e', inbox := ms } := by
  refine (h.same hs).congr (spots_inbox ?_ ?_ ?_) fun _ => .refl _
  · rw [hs.ctl, hc]; rfl
  · rw [hs.ctl, hc]; rfl
  · rw [hs.ctl, hc, hs.inbox, hm]

theorem SameThreads.timerBranch :
    SameThreads s (timerBranch s dopoll timer rc0).1 := by
  unfold Sched.timerBranch
  split
  · split
    · split
      · exact .refl _
      · exact SameThreads.logFired.trans SameThreads.setStatus
    · exact .refl _
  · exact .refl _

theorem SameThreads.lateEvent (s : State) (e : EventId) :
    SameThreads s (lateEvent late s e) := by
  unfold Sched.lateEvent
  split
  · exact .refl _
  · split
    · exact .setEvent
    · exact .setEvent
    · exact .setEvent
    · exact .refl _

theorem Placed.cleanupThread (h : Placed full none s)
    (ht : t ∈ s.members .wq) : Placed full none (cleanupThread late s t) := by
  have hsame : SameThreads s ((s.tcb t).events.foldl (Sched.lateEvent late) s) :=
    .foldl SameThreads.lateEvent _ _
  unfold Sched.cleanupThread
  dsimp only
  split
  · refine (h.same hsame).moveTo (m := .rq) ?_ rfl
    simpa [State.members, hsame.queue] using ht
  · exact h.same hsame

theorem cleanupThread_members (hu : u ∈ s.members .wq) (hne : u ≠ t) :
    u ∈ (cleanupThread late s t).members .wq := by
  have hsame : SameThreads s ((s.tcb t).events.foldl (lateEvent late) s) :=
    .foldl SameThreads.lateEvent _ _
  unfold cleanupThread
  dsimp only
  split
  · simp only [State.members, State.enqueue, State.setTcb, State.dequeue, hsame.queue, ne_eq,
      reduceCtorEq, not_false_eq_true, Function.update_of_ne, update_self,
      Pqueue.members_delete]
    exact (List.mem_erase_of_ne hne).mpr hu
  · simpa [State.members, hsame.queue] using hu

/-- What holds before the loop and survives its turn for each waiting thread. -/
theorem Placed.cleanupLoop_rule {P : State → Prop} (h : Placed full none s) (hP : P s)
    (hs : ∀ s t, Placed full none s → t ∈ s.members .wq → P s → P (Sched.cleanupThread late s t)) :
    P (cleanupLoop late s) := by
  have hfold : ∀ (l : List Tid) (s : State), Placed full none s → P s → l.Nodup →
      (∀ u ∈ l, u ∈ s.members .wq) → P (l.foldl (Sched.cleanupThread late) s) := by
    intro l
    induction l with
    | nil => exact fun _ _ hP _ _ => hP
    | cons t l ih =>
      intro s h hP hn hl
      obtain ⟨ht, hn⟩ := List.nodup_cons.mp hn
      have htw : t ∈ s.members .wq := hl t (by simp)
      refine ih _ (h.cleanupThread htw) (hs s t h htw hP) hn fun u hu => ?_
      exact cleanupThread_members (hl u (by simp [hu])) fun he => ht (he ▸ hu)
  exact hfold _ s h hP (h.linear.nodup (.queue .wq)) fun _ hu => hu

theorem Placed.cleanupLoop (h : Placed full none s) :
    Placed full none (cleanupLoop late s) :=
  h.cleanupLoop_rule h fun _ _ _ ht h => h.cleanupThread ht

theorem Placed.emFinish (h : Placed full none s)
    (hc : s.ctl = .em (.finish dopoll timer rc0)) :
    Placed full none { Sched.cleanupLoop late (timerBranch s dopoll timer rc0).1 with
      ctl := if (timerBranch s dopoll timer rc0).2 then
          .em (.enter dopoll (Sched.cleanupLoop late (timerBranch s dopoll timer rc0).1).now)
        else .loop } := by
  have hsame : SameThreads s (timerBranch s dopoll timer rc0).1 := .timerBranch
  have hctl : (Sched.cleanupLoop late (timerBranch s dopoll timer rc0).1).ctl =
      .em (.finish dopoll timer rc0) :=
    SameOutside.cleanupLoop.control.ctl.trans (hsame.ctl.trans hc)
  refine (h.same hsame).cleanupLoop.congr (spots_ctl ?_ ?_ ?_) fun _ => .refl _
  all_goals
    simp only [hctl]
    split <;> rfl

/-! ### Every step -/

theorem Placed.spawnOn (h : Placed full none s) (ht : (s.tcb t).alive = false) {attr : Attr}
    (hm : spawnOf m = some t) :
    Placed full none { s.setTcb t (fun _ => attr.tcb false) with
      inbox := s.inbox ++ [m], spawned := s.spawned ++ [t] } := by
  have h₁ : Placed full (some t) (s.setTcb t fun _ => attr.tcb false) :=
    (h.pick (h.notMem_of_freed ht)).setTcb_hand
  have hs : spots { s.setTcb t (fun _ => attr.tcb false) with
      inbox := s.inbox ++ [m], spawned := s.spawned ++ [t] } =
      update (spots (s.setTcb t fun _ => attr.tcb false)) .flight (spots s .flight ++ [t]) := by
    funext c
    cases c <;> simp [spots, State.members, State.setTcb, hm]
  refine h₁.put hs (List.perm_append_singleton t _) rfl ?_
  simp only [State.setTcb, update_self]
  exact ⟨rfl, by simp [Attr.tcb], rfl⟩

/-- No cleanup handler ends its thread. -/
def HandlersReturn (s : State) : Act → Prop
  | .op o => exitsInHandler s o = false
  | _ => True

theorem Placed.step (h : Placed full none s) (hs : exec cfg s a = some s')
    (hf : full → HandlersReturn s a) : s'.ctl = .exited ∨ Placed full none s' := by
  obtain ⟨o, rfl, hst⟩ | ⟨hop, hst⟩ := exec_cases hs
  · exact h.call hst hf
  refine .inr ?_
  cases hst with
  | cleaned hc => exact h.cancelDone hc
  | post hk => exact h.congr (spots_inbox rfl rfl (by simp [spawnOf, hk])) fun _ => .refl _
  | spawnOn ht => exact h.spawnOn ht rfl
  | tick => exact h.same ⟨rfl, rfl, rfl, rfl, rfl, rfl⟩
  | sched _ hc => exact h.schedule hc
  | back _ hc => exact h.comeBack hc
  | take _ hc | retake _ hc => exact h.em (.refl s) hc (by simp [Ctl.batch])
  | msg _ hc | remsg _ hc =>
    exact h.drainFirst (by rw [hc]; rfl) (by rw [hc]; rfl) (by rw [hc]; rfl) rfl
  | drained _ hc | redrained _ hc | woken _ hc => exact h.em (.refl s) hc rfl
  | scan _ hc => exact h.em .scanQueue hc SameThreads.scanQueue.inbox
  | finish _ hc => exact h.emFinish hc
  | _ => exact absurd rfl (hop _)

theorem Initial.placed (h : Initial cfg s) : Placed True none s := by
  have hq : ∀ n, ∀ t ∈ s.members n, n = .nq ∧ cfg.main = some t := by
    intro n t ht
    by_cases hn : n = .nq
    · subst hn
      rw [h.nq] at ht
      exact ⟨rfl, by simpa using ht⟩
    · simp [State.members, h.queues n hn] at ht
  have hspot : ∀ c, ∀ t ∈ spots s c, c = .queue .nq ∧ cfg.main = some t := by
    intro c t ht
    cases c with
    | queue n => exact ⟨by rw [(hq n t ht).1], (hq n t ht).2⟩
    | run => simp [spots, h.ctl, Ctl.running] at ht
    | back => simp [spots, h.ctl, Ctl.returning] at ht
    | cleaning => simp [spots, h.cleaning] at ht
    | flight => simp [spots, h.ctl, h.inbox, Ctl.batch] at ht
  refine ⟨⟨fun c => ?_, fun hi hj => (hspot _ _ hi).1.trans (hspot _ _ hj).1.symm⟩, by simp, ?_, ?_⟩
  · by_cases hc : c = .queue .nq
    · subst hc
      simp only [spots, h.nq]
      cases cfg.main <;> simp
    · have hnil : spots s c = [] := List.eq_nil_iff_forall_not_mem.mpr fun t ht => hc (hspot c t ht).1
      simp [hnil]
  · intro c t ht
    obtain ⟨rfl, hm⟩ := hspot c t ht
    obtain ⟨attr, hb⟩ := h.main t hm
    rw [hb]
    exact ⟨rfl, by simp [Attr.tcb], rfl⟩
  · intro _ t ht
    exact .inr ⟨.queue .nq, by simp [spots, h.nq, (h.alive t).mp ht]⟩

theorem placed_of_reachable (h : Reachable (system cfg) s) :
    s.ctl = .exited ∨ Placed False none s := by
  refine h.invariant (I := fun s => s.ctl = .exited ∨ Placed False none s) ?_ ?_
  · intro s hi
    exact .inr ((Initial.placed hi).mono False.elim)
  · rintro s a s' (hx | hp) hs
    · have hs : exec cfg s a = some s' := hs
      simp [exec, hx] at hs
    · exact hp.step hs False.elim

end GnuPth.Sched
