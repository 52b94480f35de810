import GnuPth.Sched.Waits

/-!
# The end of the process

The main thread of a single scheduler leaves `pth_exit` when `pth_exit_cb` says
that it is the last thread. Called by the event manager the function counts the
main thread, which is then in the waiting queue; called by the main thread
itself it does not, and a count of 1 stands for somebody else.

While nobody but the main thread is left, only it can bring new threads into
being, and inside `pth_exit` it does so only in a cleanup handler.
-/

namespace GnuPth.Sched

open Inbox (Gmsg)
open Transition

variable {n : Qname}

def Tcb.stands (b : Tcb) : Bool := b.alive && b.state ≠ .dead

def Alone (cfg : Config) (s : State) : Prop := ∀ t, (s.tcb t).stands = true → cfg.main = some t

/-- An event that waits for `pth_exit_cb`. -/
def Spec.isExit : Spec → Bool
  | .func cb _ => cb
  | _ => false

/-! ### The condition -/

/-- Of the main thread: `pth_exit_cb` does not find exactly one other thread when
`pth_exit` calls it, `pth_exit` does not go on because of a request that is
disabled, and no cleanup handler spawns. -/
def mainLeaves (s : State) (cur : Tid) (o : Op) : Bool :=
  (!(exitArgs s cur o).isSome || !exitCb s) &&
    match (s.tcb cur).pc, o with
    | .inWait .exit, .waitReturn _ _ => (s.tcb cur).cancelEnable || !(s.tcb cur).cancelreq
    | .exiting, .spawn _ _ => false
    | _, _ => true

/-- A single scheduler, whose messages are the wakeups of its own threads. The
event of `pth_exit` is known to `pth_exit` only, and no cleanup handler on a
foreign stack ends its thread. -/
def lastOut (cfg : Config) (s : State) : Act → Bool
  | .op o =>
    !exitsInHandler s o &&
      (match o with
        | .eventFree e => !(s.event e).spec.isExit
        | _ => true) &&
      match s.cleaning, s.ctl with
      | [], .run cur => cfg.main ≠ some cur || mainLeaves s cur o
      | _, _ => true
  | .post m => m.kind = .wake
  | .spawnOn _ _ => false
  | .msg => s.ctl.batch.head?.all fun m => m.event.all fun e => (s.event e).spec = .notify
  | .scan _ =>
    (s.members .wq).all fun t =>
      cfg.main = some t || (s.tcb t).events.all fun e => !(s.event e).spec.isExit
  | _ => true

def lastOutSystem (cfg : Config) : System State Act :=
  (system cfg).restrict fun s a => lastOut cfg s a = true

/-! ### The invariant -/

structure ExitWait (cfg : Config) (s : State) (t : Tid) (e : EventId) : Prop where
  ring : (s.tcb t).events = [e]
  live : (s.event e).live = true
  owner : (s.event e).owner = none
  spec : (s.event e).spec.isExit = true
  status : (s.event e).status ≠ .pending → Alone cfg s
  new : (s.tcb t).state ≠ .new
  ready : (s.tcb t).state = .ready → Alone cfg s ∨ (s.tcb t).cancelreq = true

structure Leaving (cfg : Config) (s : State) : Prop where
  wakes : ∀ m ∈ s.ctl.batch ++ s.inbox, m.kind = .wake
  calm : ∀ em, s.ctl = .em em → s.cleaning = []
  only : ∀ t, (s.tcb t).alive = true → (s.tcb t).pc = .inWait .exit → cfg.main = some t
  waits : ∀ t, cfg.main = some t → (s.tcb t).pc = .inWait .exit → ∃ e, ExitWait cfg s t e
  exits : ∀ t, cfg.main = some t → (s.tcb t).pc = .exiting → Alone cfg s

/-- What a step may do to the main thread inside `pth_exit`. -/
structure Follows (b b' : Tcb) : Prop where
  events : b'.events = b.events
  state : b'.state = b.state ∨ b'.state = .dead
  cancelreq : b.cancelreq = true → b'.cancelreq = true

theorem Follows.refl (b : Tcb) : Follows b b := ⟨rfl, .inl rfl, id⟩

theorem ExitWait.follows (h : ExitWait cfg s t e) (hb : Follows (s.tcb t) (s'.tcb t))
    (hal : Alone cfg s → Alone cfg s') (hl : (s'.event e).live = (s.event e).live)
    (ho : (s'.event e).owner = (s.event e).owner) (hs : (s'.event e).spec = (s.event e).spec)
    (hst : (s'.event e).status ≠ .pending → (s.event e).status ≠ .pending ∨ Alone cfg s') :
    ExitWait cfg s' t e where
  ring := hb.events.trans h.ring
  live := hl.trans h.live
  owner := ho.trans h.owner
  spec := by rw [hs]; exact h.spec
  status hne := (hst hne).elim (fun hne => hal (h.status hne)) id
  new hn := by
    rcases hb.state with hst | hst
    · exact h.new (hst.symm.trans hn)
    · cases hst.symm.trans hn
  ready hr := by
    rcases hb.state with hst | hst
    · exact (h.ready (hst.symm.trans hr)).imp hal hb.cancelreq
    · cases hst.symm.trans hr

/-- A step that neither takes the main thread into `pth_exit` nor lets it go on
there. -/
theorem Leaving.frame (hL : Leaving cfg s) (hw : ∀ m ∈ s'.ctl.batch ++ s'.inbox, m.kind = .wake)
    (hcalm : ∀ em, s'.ctl = .em em → s'.cleaning = [])
    (hpc : ∀ t, (s'.tcb t).pc = .inWait .exit → (s.tcb t).pc = .inWait .exit)
    (halive : ∀ t, (s'.tcb t).pc = .inWait .exit → (s'.tcb t).alive = true → (s.tcb t).alive = true)
    (hb : ∀ t, cfg.main = some t → (s'.tcb t).pc = .inWait .exit → Follows (s.tcb t) (s'.tcb t))
    (hx : ∀ t, cfg.main = some t → (s'.tcb t).pc = .exiting → (s.tcb t).pc = .exiting)
    (hal : ∀ t, cfg.main = some t → (s.tcb t).pc = .inWait .exit ∨ (s.tcb t).pc = .exiting →
      Alone cfg s → Alone cfg s')
    (hev : ∀ e, (s.event e).live = true → (s.event e).owner = none → (s.event e).spec.isExit = true →
      (s'.event e).live = true ∧ (s'.event e).owner = none ∧ (s'.event e).spec = (s.event e).spec ∧
        ((s'.event e).status ≠ .pending → (s.event e).status ≠ .pending ∨ Alone cfg s')) :
    Leaving cfg s' where
  wakes := hw
  calm := hcalm
  only t ha ht := hL.only t (halive t ht ha) (hpc t ht)
  waits t hm ht := by
    obtain ⟨e, he⟩ := hL.waits t hm (hpc t ht)
    obtain ⟨hl, ho, hs, hst⟩ := hev e he.live he.owner he.spec
    exact ⟨e, he.follows (hb t hm ht) (hal t hm (.inl (hpc t ht))) (hl.trans he.live.symm)
      (ho.trans he.owner.symm) hs hst⟩
  exits t hm ht := hal t hm (.inr (hx t hm ht)) (hL.exits t hm (hx t hm ht))

/-! ### Nobody comes into being -/

theorem Tcb.stands_iff {b : Tcb} : b.stands = true ↔ b.alive = true ∧ b.state ≠ .dead := by
  simp [Tcb.stands]

theorem Alone.mono (h : Alone cfg s)
    (hs : ∀ u, (s'.tcb u).stands = true → (s.tcb u).stands = true) :
    
    Alone cfg s' :=
  fun u hu => h u (hs u hu)

theorem Alone.congr (h : Alone cfg s) (hs : s'.tcb = s.tcb) : Alone cfg s' :=
  h.mono fun u hu => by rwa [← hs]

theorem Alone.except (h : Alone cfg s) (hc : (s.tcb t).stands = true)
    (hb : ∀ u, u ≠ t → s'.tcb u = s.tcb u) : Alone cfg s' := by
  refine h.mono fun u hu => ?_
  by_cases hut : u = t
  · rwa [hut]
  · rwa [← hb u hut]

variable {entering : Prop}

theorem Alone.touch (h : Alone cfg s) (hp : Placed True none s)
    (ht : Touches entering t s s') : Alone cfg s' := by
  refine h.mono fun u hu => ?_
  obtain ⟨ha, hst⟩ := Tcb.stands_iff.mp hu
  rw [ht.state_eq] at hst
  have hd : u ∉ s.members .dq := fun hd => hst (hp.queued hd).state
  exact Tcb.stands_iff.mpr ⟨(ht.alive_eq hd).symm.trans ha, hst⟩

theorem Placed.running_stands (hp : Placed True none s) (hr : s.ctl = .run t) :
    (s.tcb t).stands = true := by
  have ha := hp.running hr
  have hst : (s.tcb t).state = .ready := ha.state
  exact Tcb.stands_iff.mpr ⟨ha.alive, by simp [hst]⟩

theorem Placed.cleaning_stands (hp : Placed True none s) (ht : t ∈ s.cleaning) :
    (s.tcb t).stands = true := by
  have ha := hp.admits .cleaning t ht
  exact Tcb.stands_iff.mpr ⟨ha.alive, ha.state⟩

/-- When only the main thread is left, a call is one of its own, and not of a
handler on another stack. -/
theorem Alone.running (h : Alone cfg s) (hp : Placed True none s) (hh : Hosted s)
    (hcalm : ∀ em, s.ctl = .em em → s.cleaning = []) (hc : s.current = some cur) :
    Running s cur ∧ cfg.main = some cur := by
  cases hcl : s.cleaning with
  | nil =>
    cases hctl : s.ctl with
    | run t =>
      obtain rfl : t = cur := by simpa [State.current, hcl, hctl] using hc
      exact ⟨⟨hcl, hctl⟩, h t (hp.running_stands hctl)⟩
    | _ => simp [State.current, hcl, hctl] at hc
  | cons u =>
    have hu : u ∈ s.cleaning := by simp [hcl]
    have hhost := hh.of_cleaning hcl
    cases hctl : s.ctl with
    | run t =>
      -- the thread on whose stack the handler runs is another one
      have hm : cfg.main = some t := h t (hp.running_stands hctl)
      have hm' : cfg.main = some u := h u (hp.cleaning_stands hu)
      obtain rfl : t = u := Option.some.inj (hm.symm.trans hm')
      have := hp.linear.unique (i := .cleaning) (j := .run) hu (by simp [spots, hctl, Ctl.running])
      cases this
    | em em => simp [hcalm em hctl] at hcl
    | _ => simp [hctl, Ctl.hosts] at hhost

/-! ### The event of `pth_exit` -/

/-- No event that `pth_exit` waits for is changed, except that it may be marked
pending. -/
def KeepsExit (s s' : State) : Prop :=
  ∀ e, (s.event e).live = true → (s.event e).owner = none → (s.event e).spec.isExit = true →
    (s'.event e).live = true ∧ (s'.event e).owner = none ∧ (s'.event e).spec = (s.event e).spec ∧
      ((s'.event e).status ≠ .pending → (s.event e).status ≠ .pending)

theorem KeepsExit.of_event (h : ∀ e, s'.event e = s.event e) : KeepsExit s s' := by
  intro e hl ho hs
  rw [h]
  exact ⟨hl, ho, rfl, id⟩

theorem KeepsExit.trans (h : KeepsExit s₁ s₂) (h' : KeepsExit s₂ s₃) :
    KeepsExit s₁ s₃ := by
  intro e hl ho hs
  obtain ⟨hl₂, ho₂, hs₂, hst₂⟩ := h e hl ho hs
  obtain ⟨hl₃, ho₃, hs₃, hst₃⟩ := h' e hl₂ ho₂ (by rwa [hs₂])
  exact ⟨hl₃, ho₃, hs₃.trans hs₂, hst₂ ∘ hst₃⟩

theorem KeepsExit.setEvent
    (h : ¬ ((s.event e).live = true ∧ (s.event e).owner = none ∧ (s.event e).spec.isExit = true)) :
    KeepsExit s (s.setEvent e f) := by
  intro e' hl ho hs
  have hne : e' ≠ e := by
    rintro rfl
    exact h ⟨hl, ho, hs⟩
  simpa [State.setEvent, hne] using ⟨hl, ho⟩

theorem KeepsExit.newEvent
    (h : (s.event e).live = false ∨ static = true ∧ (s.event e).owner = some cur) :
    KeepsExit s (s.setEvent e fun _ => ⟨spec, .pending, true, if static then some cur else none⟩) := by
  refine .setEvent ?_
  rintro ⟨hl, ho, -⟩
  rcases h with h | ⟨-, h⟩
  · simp [hl] at h
  · simp [ho] at h

theorem KeepsExit.markPending (s : State) (ring : List EventId) :
    KeepsExit s (markPending s ring) := by
  induction ring generalizing s with
  | nil => exact .of_event fun _ => rfl
  | cons e ring ih =>
    have hone : KeepsExit s (s.setStatus e .pending) := by
      intro e' hl ho _
      simp only [State.setStatus, State.setEvent, Function.update_apply]
      split
      · rename_i heq
        subst heq
        exact ⟨hl, ho, rfl, by simp⟩
      · exact ⟨hl, ho, rfl, id⟩
    exact hone.trans (ih _)

theorem KeepsExit.destroyEvents : KeepsExit s (destroyEvents s t) := by
  intro e hl ho _
  simp [Sched.destroyEvents, ho, hl]

theorem KeepsExit.pthWait : KeepsExit s (pthWait s cur ring k) :=
  (KeepsExit.markPending s ring).trans (.of_event fun _ => rfl)

/-! ### Calls -/

/-- A call of the running thread that does not take it into the wait of
`pth_exit`. -/
theorem Leaving.running (hL : Leaving cfg s) (hp : Placed True none s) (hr : Running s cur)
    (htcb : ∀ u, u ≠ cur → s'.tcb u = s.tcb u) (hctl : s'.ctl = .run cur ∨ s'.ctl = .back cur)
    (hin : s'.inbox = s.inbox) (hpc : (s'.tcb cur).pc ≠ .inWait .exit)
    (hx : cfg.main = some cur → (s'.tcb cur).pc = .exiting → (s.tcb cur).pc = .exiting)
    (hev : KeepsExit s s') : Leaving cfg s' := by
  have hother : ∀ {u}, (s'.tcb u).pc = .inWait .exit → s'.tcb u = s.tcb u := by
    intro u hu
    refine htcb u ?_
    rintro rfl
    exact hpc hu
  refine hL.frame ?_ ?_ ?_ ?_ ?_ ?_ ?_ ?_
  · intro m hm
    refine hL.wakes m ?_
    rw [hin] at hm
    rcases hctl with hc | hc <;> simpa [hc, hr.ctl, Ctl.batch] using hm
  · rcases hctl with hc | hc <;> simp [hc]
  · intro t ht
    rwa [← hother ht]
  · intro t ht
    rw [hother ht]
    exact id
  · intro t _ ht
    rw [hother ht]
    exact .refl _
  · intro t hm ht
    by_cases htc : t = cur
    · subst htc
      exact hx hm ht
    · rwa [← htcb t htc]
  · exact fun _ _ _ hA => hA.except (hp.running_stands hr.ctl) htcb
  · intro e hl ho hs
    obtain ⟨hl', ho', hs', hst'⟩ := hev e hl ho hs
    exact ⟨hl', ho', hs', fun h => .inl (hst' h)⟩

theorem Leaving.same (hL : Leaving cfg s) (hw : ∀ m ∈ s'.ctl.batch ++ s'.inbox, m.kind = .wake)
    (hcalm : ∀ em, s'.ctl = .em em → s'.cleaning = [])
    (hpc : ∀ t, (s'.tcb t).pc = (s.tcb t).pc)
    (halive : ∀ t, (s'.tcb t).alive = true → (s.tcb t).alive = true)
    (hb : ∀ t, cfg.main = some t → (s.tcb t).pc = .inWait .exit → Follows (s.tcb t) (s'.tcb t))
    (hal : ∀ t, cfg.main = some t → (s.tcb t).pc = .inWait .exit ∨ (s.tcb t).pc = .exiting →
      Alone cfg s → Alone cfg s') (hev : KeepsExit s s') : Leaving cfg s' := by
  refine hL.frame hw hcalm (fun t ht => ?_) (fun t _ => halive t) (fun t hm ht => hb t hm ?_)
    (fun t _ ht => ?_) hal ?_
  · rwa [← hpc]
  · rwa [← hpc]
  · rwa [← hpc]
  · intro e hl ho hs
    obtain ⟨hl', ho', hs', hst'⟩ := hev e hl ho hs
    exact ⟨hl', ho', hs', fun h => .inl (hst' h)⟩

structure Ended (b b' : Tcb) : Prop where
  pc : b'.pc = b.pc
  alive : b'.alive = true → b.alive = true
  follows : Follows b b'
  stands : b'.stands = true → b.stands = true

theorem Ended.refl (b : Tcb) : Ended b b := ⟨rfl, id, .refl b, id⟩

theorem Leaving.ended (hL : Leaving cfg s) (hw : ∀ m ∈ s'.ctl.batch ++ s'.inbox, m.kind = .wake)
    (hcalm : ∀ em, s'.ctl = .em em → s'.cleaning = []) (hb : ∀ u, Ended (s.tcb u) (s'.tcb u))
    (hev : KeepsExit s s') : Leaving cfg s' :=
  hL.same hw hcalm (fun u => (hb u).pc) (fun u => (hb u).alive) (fun u _ _ => (hb u).follows)
    (fun _ _ _ hA => hA.mono fun u => (hb u).stands) hev

theorem Touches.follows (h : Touches entering t s s') : Follows (s.tcb u) (s'.tcb u) :=
  ⟨h.events_eq, .inl h.state_eq, h.cancelreq_mono⟩

theorem Leaving.touch (hL : Leaving cfg s) (hp : Placed True none s)
    (h : Touches entering t s s') (hcalm : ∀ em, s.ctl ≠ .em em) : Leaving cfg s' := by
  refine hL.same ?_ ?_ (fun _ => h.pc_eq) (fun u ha => ?_) (fun _ _ _ => h.follows)
    (fun _ _ _ hA => hA.touch hp h) ?_
  · rw [h.control.ctl, h.control.inbox]
    exact hL.wakes
  · intro em hem
    exact absurd (h.control.ctl.symm.trans hem) (hcalm em)
  · by_cases hd : u ∈ s.members .dq
    · exact (hp.queued hd).alive
    · rwa [← h.alive_eq hd]
  · exact .of_event fun e => by rw [h.event]

theorem Leaving.not_em (hL : Leaving cfg s) (hc : s.current = some cur) (em : Em) :
    s.ctl ≠ .em em := by
  intro hem
  simp [State.current, hL.calm em hem, hem] at hc

theorem Leaving.returns (hL : Leaving cfg s) (hp : Placed True none s) (hh : Hosted s)
    (hok : lastOut cfg s (.op o) = true) (hc : s.current = some cur)
    (hpc : s.cleaning = [] → (s.tcb cur).pc = .app ∨ (s.tcb cur).pc = .exiting)
    (h : Returns s cur o s') : Leaving cfg s' := by
  have hem := hL.not_em hc
  cases h with
  | same => exact hL
  | touch _ _ h | resume _ h => exact hL.touch hp h hem
  | @spawn t attr =>
    -- the last thread is in a cleanup handler
    have hnot : ∀ m, cfg.main = some m → (s.tcb m).pc = .inWait .exit ∨ (s.tcb m).pc = .exiting →
        ¬ Alone cfg s := by
      intro m hm hpcm hA
      obtain ⟨hr, hmain⟩ := hA.running hp hh hL.calm hc
      obtain rfl : m = cur := Option.some.inj (hm.symm.trans hmain)
      rcases hpc hr.cleaning with h | h
      · simp [h] at hpcm
      · simp [lastOut, hr.cleaning, hr.ctl, hm, mainLeaves, h] at hok
    have htcb : ∀ u, u ≠ t →
        ((s.setTcb t fun _ => attr.tcb true).enqueue .nq attr.prio t).tcb u = s.tcb u :=
      fun u hu => Function.update_of_ne hu _ _
    have hself : ((s.setTcb t fun _ => attr.tcb true).enqueue .nq attr.prio t).tcb t = attr.tcb true :=
      Function.update_self _ _ _
    have hne : ∀ u, (((s.setTcb t fun _ => attr.tcb true).enqueue .nq attr.prio t).tcb u).pc ≠ .app →
        u ≠ t := by
      rintro u hu rfl
      rw [hself] at hu
      exact hu rfl
    refine hL.frame hL.wakes hL.calm ?_ ?_ ?_ ?_ ?_ ?_
    · intro u hu
      rwa [← htcb u (hne u (by simp [hu]))]
    · intro u hu
      rw [htcb u (hne u (by simp [hu]))]
      exact id
    · intro u _ hu
      rw [htcb u (hne u (by simp [hu]))]
      exact .refl _
    · intro u _ hu
      rwa [← htcb u (hne u (by simp [hu]))]
    · exact fun m hm hpcm hA => absurd hA (hnot m hm hpcm)
    · exact fun e hl ho hs => ⟨hl, ho, rfl, .inl⟩
  | event h =>
    exact hL.same hL.wakes hL.calm (fun _ => rfl) (fun _ => id) (fun _ _ _ => .refl _)
      (fun _ _ _ hA => hA.congr rfl)
      (.newEvent h)
  | @eventFree =>
    refine hL.same hL.wakes hL.calm (fun _ => rfl) (fun _ => id) (fun _ _ _ => .refl _)
      (fun _ _ _ hA => hA.congr rfl) ?_
    refine .setEvent fun h => ?_
    simp [lastOut, h.2.2] at hok
  | @cancelState enable async =>
    have hb : ∀ u, Ended (s.tcb u)
        ((s.setTcb cur ({ · with cancelEnable := enable, cancelAsync := async })).tcb u) := by
      intro u
      by_cases hu : u = cur
      · subst hu
        rw [setTcb_self]
        exact ⟨rfl, id, ⟨rfl, .inl rfl, id⟩, id⟩
      · rw [setTcb_of_ne hu]
        exact .refl _
    exact hL.ended hL.wakes hL.calm hb (.of_event fun _ => rfl)

/-! ### The scan -/

/-- The scan so far has marked an event of `pth_exit` only if `pth_exit_cb` says
so and the event is in a ring of the waiting queue. -/
structure Scanned (s : State) (k : Scan) : Prop where
  same : SameThreads s k.state
  event : ∀ e, (k.state.event e).live = (s.event e).live ∧ (k.state.event e).owner = (s.event e).owner ∧
    (k.state.event e).spec = (s.event e).spec
  status : ∀ e, (s.event e).spec.isExit = true → (k.state.event e).status ≠ .pending →
    (s.event e).status ≠ .pending ∨ exitCb s = true ∧ ∃ t ∈ s.members .wq, e ∈ (s.tcb t).events

theorem scanOccurred_exit (he : (s.event e).spec.isExit = true) :
    scanOccurred s now fires e = exitCb s := by
  unfold scanOccurred
  unfold Spec.isExit at he
  split at he
  · rename_i hs
    simp [hs, he]
  · cases he

theorem Scanned.scanEvent (h : Scanned s k)
    (ht : t ∈ s.members .wq) (he : e ∈ (s.tcb t).events) : Scanned s (scanEvent now fires t k e) := by
  have hsame : SameThreads s (Sched.scanEvent now fires t k e).state :=
    h.same.trans (SameThreads.scanEvent k e)
  unfold Sched.scanEvent at hsame ⊢
  split
  · exact h
  · rename_i hp
    split
    case isFalse => split <;> exact ⟨h.same, h.event, h.status⟩
    case isTrue hocc =>
      refine ⟨by simpa [hp, hocc] using hsame, fun e' => ?_, fun e' hx hst => ?_⟩
      · simp only [State.setStatus, State.setEvent, logFired_event, Function.update_apply]
        split
        · rename_i heq
          subst heq
          exact h.event e'
        · exact h.event e'
      · by_cases heq : e' = e
        · subst heq
          refine .inr ⟨?_, t, ht, he⟩
          have hcb : exitCb k.state = exitCb s := by
            unfold exitCb State.elements
            rw [h.same.queue]
          rwa [scanOccurred_exit (by rw [(h.event e').2.2]; exact hx), hcb] at hocc
        · refine h.status e' hx ?_
          simpa [State.setStatus, State.setEvent, heq] using hst

theorem scanQueue_scanned : Scanned s (scanQueue s now fires) := by
  refine scanQueue_rule ⟨.refl s, fun _ => ⟨rfl, rfl, rfl⟩, fun _ _ => .inl⟩ (fun _ h => ?_)
    fun _ _ _ h _ ht he => h.scanEvent ht he
  exact ⟨h.same, h.event, h.status⟩

/-- The count of the event manager: the main thread is in the waiting queue, and
so it is the last one. -/
theorem Placed.alone_of_exitCb (hp : Placed True none s) (hx : exitCb s = true)
    (hwakes : ∀ m ∈ s.ctl.batch ++ s.inbox, m.kind = .wake) (hcl : s.cleaning = [])
    (hrun : s.ctl.running = []) (hret : s.ctl.returning = []) (ht : t ∈ s.members .wq)
    (hm : cfg.main = some t) : Alone cfg s := by
  intro u hu
  obtain ⟨ha, hst⟩ := Tcb.stands_iff.mp hu
  obtain ⟨c, hc⟩ := (hp.complete trivial u ha).resolve_left (by simp)
  have hlen : (s.members .nq).length + (s.members .rq).length + (s.members .wq).length +
      (s.members .sq).length = 1 := by
    simp only [State.members, Pqueue.members, List.length_map]
    exact of_decide_eq_true hx
  have hwq : 0 < (s.members .wq).length := List.length_pos_of_mem ht
  cases c with
  | queue n =>
    have hpos : 0 < (s.members n).length := List.length_pos_of_mem hc
    cases n with
    | wq =>
      obtain ⟨v, hv⟩ : ∃ v, s.members .wq = [v] := List.length_eq_one_iff.mp (by omega)
      have hmem : u ∈ s.members .wq := hc
      rw [hv, List.mem_singleton] at ht hmem
      rw [hmem, ← ht]
      exact hm
    | dq => exact absurd (hp.queued hc).state hst
    | _ => omega
  | run => simp [spots, hrun] at hc
  | back => simp [spots, hret] at hc
  | cleaning => simp [spots, hcl] at hc
  | flight =>
    obtain ⟨m, hmem, hsp⟩ := List.mem_filterMap.mp hc
    simp [spawnOf, hwakes m hmem] at hsp

/-! ### The end of a pass -/

/-- The late handling leaves the event of `pth_exit` alone. -/
theorem lateStatus_exit (h : ev.spec.isExit = true) :
    lateStatus late e ev = ev.status := by
  unfold lateStatus
  split
  · rfl
  · rename_i hp
    have hp : ev.status = .pending := not_not.mp hp
    unfold Spec.isExit at h
    split at h
    · rename_i hs
      simp [hs, hp]
    · cases h

theorem lateEvents_exit {l : List EventId}
    (h : (s.event e).spec.isExit = true) : (l.foldl (lateEvent late) s).event e = s.event e := by
  rw [lateEvents_event, lateStatus_exit h]
  split <;> rfl

theorem timerBranch_exit (h : (s.event e).spec.isExit = true) :
    (timerBranch s dopoll timer rc0).1.event e = s.event e := by
  unfold timerBranch
  split
  · rename_i k
    split
    · split
      · rfl
      · rename_i hfunc
        have hne : e ≠ k.event := by
          rintro rfl
          unfold Spec.isExit at h
          split at h
          · rename_i hs
            exact hfunc _ _ hs
          · cases h
        simp [State.setStatus, State.setEvent, hne]
    · rfl
  · rfl

theorem cleanupThread_of_ne (hu : u ≠ t) : (cleanupThread late s t).tcb u = s.tcb u := by
  unfold cleanupThread
  dsimp only
  split
  · simp [State.enqueue, State.setTcb, State.dequeue, lateEvents_tcb, hu]
  · rw [lateEvents_tcb]

theorem cleanupThread_self : (cleanupThread late s t).tcb t = s.tcb t ∨
      (cleanupThread late s t).tcb t = { s.tcb t with state := .ready } ∧
        anyOccurred ((s.tcb t).events.foldl (lateEvent late) s) t = true := by
  unfold cleanupThread
  dsimp only
  split
  · rename_i hocc
    exact .inr ⟨by simp [State.enqueue, State.setTcb, State.dequeue, lateEvents_tcb], hocc⟩
  · exact .inl (by rw [lateEvents_tcb])

theorem cleanupThread_pc : ((cleanupThread late s t).tcb u).pc = (s.tcb u).pc := by
  by_cases hu : u = t
  · subst hu
    rcases (cleanupThread_self : (cleanupThread late s u).tcb u = _ ∨ _) with h | ⟨h, -⟩
    all_goals rw [h]
  · rw [cleanupThread_of_ne hu]

theorem cleanupThread_alive : ((cleanupThread late s t).tcb u).alive = (s.tcb u).alive := by
  by_cases hu : u = t
  · subst hu
    rcases (cleanupThread_self : (cleanupThread late s u).tcb u = _ ∨ _) with h | ⟨h, -⟩
    all_goals rw [h]
  · rw [cleanupThread_of_ne hu]

/-- The main thread is made ready because it is the last one, or for a request. -/
theorem ExitWait.cleanupThread (h : ExitWait cfg s t e)
    (hal : Alone cfg s → Alone cfg (cleanupThread late s u)) :
    ExitWait cfg (cleanupThread late s u) t e := by
  have hev : (Sched.cleanupThread late s u).event e = s.event e :=
    (congrFun cleanupThread_event e).trans (lateEvents_exit h.spec)
  have hsame : ∀ b, (Sched.cleanupThread late s u).tcb t = b → b.events = [e] → b.state ≠ .new →
      (b.state = .ready → Alone cfg s ∨ b.cancelreq = true) →
      ExitWait cfg (Sched.cleanupThread late s u) t e := by
    rintro b rfl hring hnew hready
    refine ⟨hring, ?_, ?_, ?_, ?_, hnew, fun hr => (hready hr).imp hal id⟩
    all_goals rw [hev]
    · exact h.live
    · exact h.owner
    · exact h.spec
    · exact fun hst => hal (h.status hst)
  by_cases htu : t = u
  · subst htu
    rcases (cleanupThread_self : (Sched.cleanupThread late s t).tcb t = _ ∨ _) with hb | ⟨hb, hocc⟩
    · exact hsame _ hb h.ring h.new h.ready
    · refine hsame _ hb h.ring (by simp) fun _ => ?_
      rcases anyOccurred_iff.mp hocc with ⟨e', he', hst⟩ | hreq
      · rw [lateEvents_tcb, h.ring, List.mem_singleton] at he'
        subst he'
        rw [lateEvents_exit h.spec] at hst
        exact .inl (h.status hst)
      · rw [lateEvents_tcb] at hreq
        exact .inr hreq
  · exact hsame _ (cleanupThread_of_ne htu) h.ring h.new h.ready

theorem Leaving.cleanupThread (hL : Leaving cfg s)
    (hp : Placed True none s) (ht : t ∈ s.members .wq) : Leaving cfg (cleanupThread late s t) := by
  have hout : SameOutside s (Sched.cleanupThread late s t) := .cleanupThread s t
  have hstands : (s.tcb t).stands = true := by
    have ha := hp.queued ht
    have hst : (s.tcb t).state = .waiting := ha.state
    exact Tcb.stands_iff.mpr ⟨ha.alive, by simp [hst]⟩
  have hal : Alone cfg s → Alone cfg (Sched.cleanupThread late s t) :=
    fun hA => hA.except hstands fun _ => cleanupThread_of_ne
  refine ⟨?_, ?_, fun u ha hu => ?_, fun u hm hu => ?_, fun u hm hu => ?_⟩
  · rw [hout.control.ctl, hout.control.inbox]
    exact hL.wakes
  · rw [hout.control.ctl, hout.cleaning]
    exact hL.calm
  · rw [cleanupThread_pc] at hu
    exact hL.only u (cleanupThread_alive.symm.trans ha) hu
  · rw [cleanupThread_pc] at hu
    obtain ⟨e, he⟩ := hL.waits u hm hu
    exact ⟨e, he.cleanupThread hal⟩
  · rw [cleanupThread_pc] at hu
    exact hal (hL.exits u hm hu)

theorem Leaving.idle (hL : Leaving cfg s) (ht : s'.tcb = s.tcb) (he : s'.event = s.event)
    (hw : ∀ m ∈ s'.ctl.batch ++ s'.inbox, m.kind = .wake)
    (hcalm : ∀ em, s'.ctl = .em em → s'.cleaning = []) : Leaving cfg s' := by
  refine hL.ended hw hcalm (fun _ => ?_) (.of_event fun e => by rw [he])
  rw [ht]
  exact .refl _

theorem Leaving.drainMsg {m : Gmsg} (hL : Leaving cfg s) (hk : m.kind = .wake)
    (he : ∀ e, m.event = some e → (s.event e).spec = .notify) : Leaving cfg (drainMsg s m) := by
  unfold Sched.drainMsg
  rw [hk]
  dsimp only
  split
  · rename_i e hme
    refine hL.same hL.wakes hL.calm (fun _ => rfl) (fun _ => id) (fun _ _ _ => .refl _)
      (fun _ _ _ hA => hA.congr rfl) ?_
    refine .setEvent fun h => ?_
    simp [he e hme, Spec.isExit] at h
  · exact hL

/-! ### Steps -/

theorem Leaving.exitWait (hL : Leaving cfg s) (hr : Running s cur)
    (hm : cfg.main = some cur) (hack : Acked s cur s₁)
    (he : newEvent s₁ cur e (.func true tv) false = some s₂) :
    Leaving cfg (pthWait s₂ cur [e] .exit) := by
  obtain ⟨-, hs₂⟩ := newEvent_inv he
  have htcb : ∀ u, u ≠ cur → (pthWait s₂ cur [e] .exit).tcb u = s.tcb u := by
    intro u hu
    rw [pthWait_tcb, Function.update_of_ne hu, hs₂]
    cases hack with
    | none => rfl
    | due => exact Function.update_of_ne hu _ _
  have hev : (pthWait s₂ cur [e] .exit).event e = ⟨.func true tv, .pending, true, none⟩ := by
    simp [pthWait, switchOut, markPending, State.setStatus, State.setEvent, State.setTcb, hs₂]
  have hin : (pthWait s₂ cur [e] .exit).inbox = s.inbox := by
    rw [hs₂]
    cases hack <;> rfl
  refine ⟨fun m hmem => hL.wakes m ?_, fun em hem => ?_, fun t ha ht => ?_, fun t hmt _ => ?_, fun t hmt ht => ?_⟩
  · rw [hin] at hmem
    simpa [pthWait, switchOut, Ctl.batch, hr.ctl] using hmem
  · cases hem
  · by_cases htc : t = cur
    · rwa [htc]
    · rw [htcb t htc] at ha ht
      exact hL.only t ha ht
  · obtain rfl : t = cur := Option.some.inj (hmt.symm.trans hm)
    refine ⟨e, ?_, ?_, ?_, ?_, ?_, ?_, ?_⟩
    all_goals simp [hev, pthWait_tcb, Spec.isExit]
  · obtain rfl : t = cur := Option.some.inj (hmt.symm.trans hm)
    simp [pthWait_tcb] at ht

theorem Leaving.exitReturned (hL : Leaving cfg s) (hp : Placed True none s)
    (hr : Running s cur) (hpc : (s.tcb cur).pc = .inWait .exit) (hd : cancelDue s cur = false)
    (hok : lastOut cfg s (.op (.waitReturn e tv)) = true) (htcb : ∀ u, u ≠ cur → s'.tcb u = s.tcb u)
    (hx : (s'.tcb cur).pc = .exiting) (hctl : s'.ctl = s.ctl) (hin : s'.inbox = s.inbox) :
    Leaving cfg s' := by
  have hm := hL.only cur (hp.running hr.ctl).alive hpc
  obtain ⟨e₀, h₀⟩ := hL.waits cur hm hpc
  have hA : Alone cfg s := by
    have hst : (s.tcb cur).state = .ready := (hp.running hr.ctl).state
    refine (h₀.ready hst).resolve_right fun hreq => ?_
    have hen : (s.tcb cur).cancelEnable = false := by simpa [cancelDue, hreq] using hd
    simp [lastOut, hr.cleaning, hr.ctl, hm, mainLeaves, hpc, hreq, hen] at hok
  refine ⟨by rw [hctl, hin]; exact hL.wakes, fun em hem => ?_, fun t ha ht => ?_,
    fun t hmt ht => ?_, fun t hmt ht => ?_⟩
  · cases (hctl.trans hr.ctl).symm.trans hem
  · by_cases htc : t = cur
    · rwa [htc]
    · rw [htcb t htc] at ha ht
      exact hL.only t ha ht
  · obtain rfl : t = cur := Option.some.inj (hmt.symm.trans hm)
    cases hx.symm.trans ht
  · exact hA.except (hp.running_stands hr.ctl) htcb

theorem cancelDone_ended : Ended (s.tcb u) ((cancelDone s t).tcb u) := by
  unfold cancelDone
  dsimp only
  by_cases hu : u = t
  · subst hu
    split
    · rw [tcbFree, setTcb_self]
      exact ⟨rfl, (by intros; contradiction), ⟨rfl, .inl rfl, id⟩, fun h => by simp [Tcb.stands] at h⟩
    · simp only [State.enqueue, setTcb_self]
      exact ⟨rfl, id, ⟨rfl, .inr rfl, id⟩, fun h => by simp [Tcb.stands] at h⟩
  · split
    · rw [tcbFree, setTcb_of_ne hu]
      exact .refl _
    · simp only [State.enqueue, setTcb_of_ne hu]
      exact .refl _

theorem Leaving.promoteTail (hL : Leaving cfg s) (hp : Placed True none s)
    (ht : t ∈ s.members .nq) :
    
    Leaving cfg (promoteTail cfg s t) := by
  have ha := hp.queued ht
  have hst : (s.tcb t).state = .new := ha.state
  have htcb : ∀ u, u ≠ t → (Sched.promoteTail cfg s t).tcb u = s.tcb u :=
    fun u hu => Function.update_of_ne hu _ _
  refine hL.same hL.wakes hL.calm (fun u => ?_) (fun u => ?_) (fun u hm hu => ?_)
    (fun _ _ _ hA => hA.except ?_ htcb) (.of_event fun _ => rfl)
  · by_cases hu : u = t
    · subst hu
      simp [Sched.promoteTail, State.enqueue, State.setTcb, State.dequeue]
    · rw [htcb u hu]
  · by_cases hu : u = t
    · subst hu
      exact fun _ => ha.alive
    · rw [htcb u hu]
      exact id
  · -- the main thread is no longer new
    obtain ⟨e, he⟩ := hL.waits u hm hu
    rw [htcb u fun h => he.new (h ▸ hst)]
    exact .refl _
  · exact Tcb.stands_iff.mpr ⟨ha.alive, by simp [hst]⟩

theorem Leaving.schedule (hL : Leaving cfg s) (hp : Placed True none s) (hcl : s.cleaning = []) :
    Leaving cfg (schedule cfg s) := by
  have hcl₁ : (promoteNew cfg (s.elements .nq) s).cleaning = [] := (SameOutside.promoteNew _).cleaning.trans hcl
  have h₁ : Leaving cfg (promoteNew cfg (s.elements .nq) s) :=
    hp.promoteNew_rule hL (fun _ _ hp ht h => h.promoteTail hp ht) _
  unfold Sched.schedule
  dsimp only
  repeat' split
  all_goals
    refine h₁.idle rfl rfl (fun m hm => h₁.wakes m (List.mem_append_right _ ?_)) fun _ _ => hcl₁
    exact hm

theorem Leaving.comeBack (hL : Leaving cfg s) (hcl : s.cleaning = []) : Leaving cfg
    (comeBack cfg s t) := by
  have hout : SameOutside s (putBack s t) := .putBack
  have hcl₁ : (putBack s t).cleaning = [] := hout.cleaning.trans hcl
  have hb : ∀ u, Ended (s.tcb u) ((putBack s t).tcb u) := by
    intro u
    rcases (putBack_tcb : (putBack s t).tcb u = _ ∨ _) with h | h
    · rw [h]
      exact .refl _
    · rw [h]
      exact ⟨rfl, nofun, ⟨rfl, .inl rfl, id⟩, fun h => by simp [Tcb.stands] at h⟩
  have h₁ : Leaving cfg (putBack s t) := by
    refine hL.ended ?_ (fun _ _ => hcl₁) hb (.of_event fun e => ?_)
    · rw [hout.control.ctl, hout.control.inbox]
      exact hL.wakes
    · rw [putBack_event]
  unfold Sched.comeBack
  dsimp only
  repeat' split
  all_goals
    refine h₁.idle rfl rfl (fun m hm => h₁.wakes m (List.mem_append_right _ ?_)) fun _ _ => hcl₁
    exact hm

theorem Leaving.message {em : Em} (hL : Leaving cfg s)
    (hcl : s.cleaning = []) (hb : s.ctl.batch = m :: batch) (hok : lastOut cfg s .msg = true)
    (hem : (Ctl.em em).batch = batch) : Leaving cfg (Sched.drainMsg { s with ctl := .em em } m) := by
  have h₁ : Leaving cfg { s with ctl := .em em } := by
    refine hL.idle rfl rfl (fun m' hm' => hL.wakes m' ?_) fun _ _ => hcl
    rw [hb]
    rw [hem] at hm'
    exact List.mem_cons_of_mem m hm'
  refine h₁.drainMsg (hL.wakes m (by simp [hb])) fun e he => ?_
  simpa [lastOut, hb, he] using hok

theorem Leaving.scan (hL : Leaving cfg s)
    (hp : Placed True none s) (hcl : s.cleaning = []) (hc : s.ctl = .em (.scan dopoll now))
    (hok : lastOut cfg s (.scan fires) = true) (ht : s'.tcb = (scanQueue s now fires).state.tcb)
    (he : s'.event = (scanQueue s now fires).state.event)
    (hin : s'.inbox = (scanQueue s now fires).state.inbox) (hb : s'.ctl.batch = [])
    (hcl' : s'.cleaning = (scanQueue s now fires).state.cleaning) : Leaving cfg s' := by
  have hsc : Scanned s (scanQueue s now fires) := scanQueue_scanned
  have htcb : s'.tcb = s.tcb := ht.trans hsc.same.tcb
  refine hL.frame ?_ ?_ ?_ ?_ ?_ ?_ (fun _ _ _ hA => hA.congr htcb) ?_
  · intro m hm
    rw [hb, hin, hsc.same.inbox] at hm
    exact hL.wakes m (List.mem_append_right _ hm)
  · exact fun _ _ => hcl'.trans (hsc.same.cleaning.trans hcl)
  · rw [htcb]
    exact fun _ => id
  · rw [htcb]
    exact fun _ _ => id
  · rw [htcb]
    exact fun _ _ _ => .refl _
  · rw [htcb]
    exact fun _ _ => id
  · intro e hl ho hs
    obtain ⟨hl', ho', hs'⟩ := hsc.event e
    rw [he]
    refine ⟨hl'.trans hl, ho'.trans ho, hs', fun hst => ?_⟩
    rcases hsc.status e hs hst with h | ⟨hx, t, htw, het⟩
    · exact .inl h
    · -- only the main thread waits for this event
      have hmain : cfg.main = some t := by
        simp only [lastOut, List.all_eq_true] at hok
        have := hok t htw
        simp only [Bool.or_eq_true, decide_eq_true_eq, List.all_eq_true] at this
        refine this.resolve_right fun h => ?_
        have hno : (s.event e).spec.isExit = false := by simpa using h e het
        simp [hs] at hno
      refine .inr (Alone.congr ?_ htcb)
      exact hp.alone_of_exitCb hx hL.wakes hcl (by rw [hc]; rfl) (by rw [hc]; rfl) htw hmain

theorem Leaving.step (hL : Leaving cfg s) (hp : Placed True none s) (hh : Hosted s)
    (hok : lastOut cfg s a = true) (hs : exec cfg s a = some s') : Leaving cfg s' := by
  obtain ⟨-, -, hstep⟩ := exec_step hs
  cases hstep with
  | returns hc hpc hret => exact hL.returns hp hh hok hc hpc hret
  | @wait cur ring hr =>
    refine hL.running hp hr (fun u hu => ?_) (.inr rfl) (SameThreads.markPending s ring).inbox ?_ ?_ .pthWait
    · rw [pthWait_tcb, Function.update_of_ne hu]
    · simp [pthWait_tcb]
    · simp [pthWait_tcb]
  | @join cur tid e s₁ hr _ he =>
    obtain ⟨hl, rfl⟩ := newEvent_inv he
    refine hL.running hp hr (fun u hu => ?_) (.inr rfl) (SameThreads.markPending _ _).inbox ?_ ?_
      ((KeepsExit.newEvent hl).trans .pthWait)
    · rw [pthWait_tcb, Function.update_of_ne hu]
      rfl
    · simp [pthWait_tcb]
    · simp [pthWait_tcb]
  | @yield cur o t s₁ hr hpc ht =>
    have h₁ : Leaving cfg s₁ := hL.touch hp ht (by simp [hr.ctl])
    refine h₁.idle rfl rfl (fun m hm => h₁.wakes m ?_) (by intros; contradiction)
    exact List.mem_append_right _ hm
  | exitWait hr _ hm hack _ he => exact hL.exitWait hr hm hack he
  | @exit cur o s₁ hr ho hack hx =>
    have hmain : cfg.main ≠ some cur := by
      intro hm
      simp [lastOut, hr.cleaning, hr.ctl, hm, mainLeaves, ho, hx hm] at hok
    refine hL.running hp hr (fun u hu => ?_) (.inl (hack.ctl.trans hr.ctl)) ?_ ?_ (fun hm => absurd hm hmain) ?_
    · cases hack <;> simp [ackCancel, State.setTcb, hu]
    · cases hack <;> rfl
    · simp [State.setTcb]
    · cases hack <;> exact .of_event fun _ => rfl
  | @ack cur o hr hpc =>
    refine hL.running hp hr (fun u hu => setTcb_of_ne hu) (.inl hr.ctl) rfl ?_ (fun _ _ => hpc)
      (.of_event fun _ => rfl)
    simp [ackCancel, State.setTcb, hpc]
  | @die cur hr hpc hm =>
    refine hL.running hp hr (fun u hu => Function.update_of_ne hu _ _) (.inr rfl) rfl ?_
      (fun h => absurd h hm) (KeepsExit.destroyEvents.trans (.of_event fun _ => rfl))
    simp [switchOut, State.setTcb, destroyEvents, hpc]
  | exited =>
    refine hL.idle rfl rfl (fun m hm => hL.wakes m ?_) (by intros; contradiction)
    exact List.mem_append_right _ hm
  | @returned cur _ _ hr =>
    refine hL.running hp hr (fun u hu => setTcb_of_ne hu) (.inl hr.ctl) rfl ?_ ?_ (.of_event fun _ => rfl)
    all_goals simp [setTcb_self]
  | @joined cur tid _ _ hr =>
    have h₁ : Leaving cfg (s.setTcb cur ({ · with events := [], pc := .app })) := by
      refine hL.running hp hr (fun u hu => setTcb_of_ne hu) (.inl hr.ctl) rfl ?_ ?_ (.of_event fun _ => rfl)
      all_goals simp [setTcb_self]
    rcases (joinEnd_touches : (joinEnd (s.setTcb cur _) tid).1 = _ ∨ _) with h | ⟨t, -, h⟩
    · rw [h]
      exact h₁
    · refine h₁.touch (hp.setTcb ⟨rfl, rfl, rfl⟩) h fun em hem => ?_
      cases hr.ctl.symm.trans hem
  | @exitReturned cur _ _ hr hpc hd =>
    have hsame := SameThreads.freeEvents (s.tcb cur).events (s.setTcb cur ({ · with events := [], pc := .app }))
    refine hL.exitReturned hp hr hpc hd hok (fun u hu => ?_) ?_ hsame.ctl hsame.inbox
    · rw [setTcb_of_ne hu, hsame.tcb, setTcb_of_ne hu]
    · rw [setTcb_self]
  | @handlerExited cur rest o s₁ hc ho | @handlerDied cur rest o s₁ hc ho =>
    simp [lastOut, ho] at hok
  | @cleaned t rest hc =>
    have hsame : SameControl { s with cleaning := rest } (cancelDone { s with cleaning := rest } t) :=
      .cancelDone
    have hb : ∀ u, Ended (s.tcb u) ((cancelDone { s with cleaning := rest } t).tcb u) :=
      fun _ => cancelDone_ended (s := { s with cleaning := rest })
    refine hL.ended ?_ (fun em hem => ?_) hb ?_
    · rw [hsame.ctl, hsame.inbox]
      exact hL.wakes
    · have := hL.calm em (hsame.ctl.symm.trans hem)
      simp [hc] at this
    · have hdes : KeepsExit s (destroyEvents s t) := .destroyEvents
      refine hdes.trans (.of_event fun e => ?_)
      unfold cancelDone
      dsimp only
      split <;> rfl
  | @post m =>
    refine hL.idle rfl rfl (fun m' hm' => ?_) hL.calm
    have hk : m.kind = .wake := by simpa [lastOut] using hok
    rw [← List.append_assoc] at hm'
    rcases List.mem_append.mp hm' with hm' | hm'
    · exact hL.wakes m' hm'
    · rwa [List.mem_singleton.mp hm']
  | @spawnOn => simp [lastOut] at hok
  | tick => exact hL.idle rfl rfl hL.wakes hL.calm
  | sched hcl => exact hL.schedule hp hcl
  | @back t hcl => exact hL.comeBack hcl
  | @msg dopoll now any m batch hcl hc | @remsg dopoll timer rc0 m batch hcl hc =>
    exact hL.message hcl (by rw [hc]; rfl) hok rfl
  | @scan dopoll now fires hcl hc => exact hL.scan hp hcl hc hok rfl rfl rfl rfl rfl
  | @finish dopoll timer rc0 late hcl =>
    have hsame : SameThreads s (timerBranch s dopoll timer rc0).1 := .timerBranch
    have h₁ : Leaving cfg (timerBranch s dopoll timer rc0).1 := by
      refine hL.ended ?_ ?_ (fun _ => ?_) ?_
      · rw [hsame.ctl, hsame.inbox]
        exact hL.wakes
      · rw [hsame.ctl, hsame.cleaning]
        exact hL.calm
      · rw [hsame.tcb]
        exact .refl _
      · intro e hl ho hs
        rw [timerBranch_exit hs]
        exact ⟨hl, ho, rfl, id⟩
    have h₂ : Leaving cfg (cleanupLoop late (timerBranch s dopoll timer rc0).1) :=
      (hp.same hsame).cleanupLoop_rule h₁ fun _ _ hp ht h => h.cleanupThread hp ht
    have hcl₂ : (cleanupLoop late (timerBranch s dopoll timer rc0).1).cleaning = [] :=
      SameOutside.cleanupLoop.cleaning.trans (hsame.cleaning.trans hcl)
    refine h₂.idle rfl rfl (fun m hm => h₂.wakes m (List.mem_append_right _ ?_)) fun _ _ => hcl₂
    rcases List.mem_append.mp hm with hm | hm
    · split at hm <;> simp [Ctl.batch] at hm
    · exact hm
  | take hcl hc | retake hcl hc | drained hcl hc | redrained hcl hc | woken hcl hc =>
    refine hL.idle rfl rfl (fun m hm => hL.wakes m ?_) fun _ _ => hcl
    simpa [Ctl.batch, hc] using hm

theorem Step.to_exited (h : Step cfg s a s') (hne : s.ctl ≠ .exited) (hx : s'.ctl = .exited)
    (hok : lastOut cfg s a = true) :
    s' = { s with ctl := .exited } ∧
      ∃ cur, Running s cur ∧ (s.tcb cur).pc = .exiting ∧ cfg.main = some cur := by
  have hrun : ∀ {cur}, Running s cur → s'.ctl ≠ s.ctl := fun hr heq => by
    cases (heq.trans hr.ctl).symm.trans hx
  cases h with
  | exited hr hpc hm => exact ⟨rfl, _, hr, hpc, hm⟩
  | handlerExited _ ho => simp [lastOut, ho] at hok
  | returns _ _ hret => exact absurd (hret.control.ctl.symm.trans hx) hne
  | exit hr _ hack => exact absurd hack.ctl (hrun hr)
  | ack hr | returned hr => exact absurd rfl (hrun hr)
  | joined hr => exact absurd SameControl.joinEnd.ctl (hrun hr)
  | exitReturned hr =>
    exact absurd (SameThreads.freeEvents _ _).ctl (hrun hr)
  | @cleaned =>
    exact absurd ((SameControl.cancelDone).ctl.symm.trans hx) hne
  | post | spawnOn | tick => exact absurd hx hne
  | sched =>
    unfold schedule at hx
    dsimp only at hx
    repeat' split at hx
    all_goals cases hx
  | back =>
    unfold comeBack at hx
    dsimp only at hx
    repeat' split at hx
    all_goals cases hx
  | msg | remsg => cases drainMsg_ctl.symm.trans hx
  | finish =>
    split at hx <;> cases hx
  | _ => cases hx

theorem Initial.leaving (h : Initial cfg s) : Leaving cfg s := by
  have hpc : ∀ t, cfg.main = some t → (s.tcb t).pc = .app := by
    intro t ht
    obtain ⟨attr, hattr⟩ := h.main t ht
    rw [hattr]
    rfl
  refine ⟨?_, fun _ _ => h.cleaning, fun t ha _ => (h.alive t).mp ha, fun t hm ht => ?_, fun t hm ht => ?_⟩
  · simp [h.ctl, h.inbox, Ctl.batch]
  · simp [hpc t hm] at ht
  · simp [hpc t hm] at ht

theorem Qname.Admits.eq_dq (h : n.Admits .dead) : n = .dq := by
  cases n with
  | dq => rfl
  | sq => exact absurd rfl h
  | _ => cases h

structure LastOut (cfg : Config) (s : State) : Prop where
  leaving : Leaving cfg s
  placed : s.ctl = .exited ∨ Placed True none s
  last : s.ctl = .exited → ∀ n, n ≠ .dq → s.members n = []

theorem handlersReturn_of_lastOut (h : lastOut cfg s a = true) : HandlersReturn s a := by
  cases a with
  | op =>
    simp only [lastOut, Bool.and_eq_true, Bool.not_eq_true'] at h
    exact h.1.1
  | _ => trivial

theorem lastOut_of_reachable (h : Reachable (lastOutSystem cfg) s) : LastOut cfg s := by
  refine h.invariant_of_reachable ?_ ?_
  · intro s hi
    exact ⟨hi.leaving, .inr hi.placed, fun hx => by simp [hi.ctl] at hx⟩
  · intro s a s' hr hI hs
    have hex : exec cfg s a = some s' := hs.2
    obtain ⟨-, hne, hstep⟩ := exec_step hex
    have hp := hI.placed.resolve_left hne
    refine ⟨hI.leaving.step hp (hosted_of_reachable hr.of_restrict) hs.1 hex,
      hp.step hex fun _ => handlersReturn_of_lastOut hs.1, fun hx n hn => ?_⟩
    obtain ⟨rfl, cur, hrun, hpc, hm⟩ := hstep.to_exited hne hx hs.1
    have hA := hI.leaving.exits cur hm hpc
    -- whoever is in a queue has not ended, but the only such thread is running
    refine List.eq_nil_iff_forall_not_mem.mpr fun t ht => ?_
    have hq := hp.queued ht
    have hst : (s.tcb t).state ≠ .dead := by
      intro hd
      have hadm : n.Admits .dead := hd ▸ hq.state
      exact hn hadm.eq_dq
    obtain rfl : cur = t := Option.some.inj (hm.symm.trans (hA t (Tcb.stands_iff.mpr ⟨hq.alive, hst⟩)))
    have := hp.linear.unique (i := .queue n) (j := .run) ht (by simp [spots, hrun.ctl, Ctl.running])
    cases this

/-- The process ends only when no other thread is in a queue. -/
theorem process_ends_alone (h : Reachable (lastOutSystem cfg) s) (hx : s.ctl = .exited) :
    s.members .nq = [] ∧ s.members .rq = [] ∧ s.members .wq = [] ∧ s.members .sq = [] := by
  have hlast := (lastOut_of_reachable h).last hx
  exact ⟨hlast .nq (by decide), hlast .rq (by decide), hlast .wq (by decide), hlast .sq (by decide)⟩

def exitSchedule : List Act :=
  [.sched, .op (.spawn 1 asyncAttr), .op (.spawn 2 asyncAttr), .op (.exit 30 ⟨0, 1000⟩), .back] ++ idlePass ++
    [.sched, .op (.exit 31 ⟨0, 0⟩), .op .die, .back] ++ idlePass ++
    [.sched, .op (.exit 32 ⟨0, 0⟩), .op .die, .back] ++ idlePass ++
    [.sched, .op (.waitReturn 33 ⟨0, 0⟩), .op .die]

theorem process_ends_alone_exitSchedule :
    ∃ s, Reachable (lastOutSystem pollConfig) s ∧ s.ctl = .exited ∧
      s.members .nq = [] ∧ s.members .rq = [] ∧ s.members .wq = [] ∧ s.members .sq = [] := by
  obtain ⟨s, hs, hx⟩ := exists_reachable pollConfig (lastOut pollConfig)
    (P := fun s => s.ctl = .exited) asyncAttr exitSchedule (by decide +kernel)
  exact ⟨s, hs, hx, process_ends_alone hs hx⟩

/-- The main thread calls `pth_exit` when there is one other thread, which has
never run. -/
theorem process_ends_early :
    ∃ s, Reachable (system pollConfig) s ∧ s.ctl = .exited ∧ s.members .nq = [1] :=
  exists_state pollConfig asyncAttr
    [.sched, .op (.spawn 1 asyncAttr), .op (.exit 30 ⟨0, 0⟩), .op .die] (by decide +kernel)

end GnuPth.Sched
