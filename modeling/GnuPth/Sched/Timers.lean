import GnuPth.Sched.Exit

/-!
# The timer remembered over a wait

Before it blocks, a pass remembers the thread and the event of the timer that
elapses next, and it tags the event behind the second drain without another
look. The thread is in the waiting queue then and its events are its own, or
nobody's; what can take them away in between is a cancellation that the drain
carries out at once.
-/

namespace GnuPth.Sched

open Inbox (Gmsg)
open Transition

variable {s : State}

/-- The timer that a pass which may block has remembered. -/
def Ctl.timer : Ctl → Option Timer
  | .em (.wait false timer _ _) | .em (.woken false timer _) | .em (.redrain false timer _ _)
  | .em (.finish false timer _) => timer
  | _ => none

/-! ### The condition -/

/-- The events of the threads that wait or are suspended, and that of the timer. -/
def held (s : State) : List EventId :=
  ((s.members .wq ++ s.members .sq).flatMap fun t => (s.tcb t).events) ++
    s.ctl.timer.toList.map (·.event)

/-- The thread whose handlers a message may start. -/
def msgEnds (s : State) (m : Gmsg) : Option Tid :=
  match m.kind, m.thread with
  | .cancel, some t => if (s.tcb t).immediate then some t else none
  | .abort, some t => some t
  | _, _ => none

def sparesTimer (s : State) (t : Option Tid) : Bool := s.ctl.timer.all fun k => t ≠ some k.thread

/-- A thread waits for live events that nobody else owns, no event is freed that
another thread waits for, and the thread of the timer is not cancelled at once. -/
def keepsTimer (s : State) : Act → Bool
  | .op o =>
    sparesTimer s (o.ends s) && s.current.all fun cur =>
      match o with
      | .wait ring =>
        ring.all fun e => (s.event e).live && ((s.event e).owner = none || (s.event e).owner = some cur)
      | .eventFree e => e ∉ held s
      | .waitReturn _ _ => (s.tcb cur).pc ≠ .inWait .exit || (s.tcb cur).events.all (· ∉ held s)
      | _ => true
  | .msg => s.ctl.batch.head?.all fun m => sparesTimer s (msgEnds s m)
  | _ => true

def keepsTimerSystem (cfg : Config) : System State Act :=
  (system cfg).restrict fun s a => keepsTimer s a = true

/-! ### The invariant -/

/-- `t` is in the middle of `pth_wait`, or may be put back there. -/
structure Asleep (s : State) (t : Tid) : Prop where
  state : (s.tcb t).state = .waiting
  place : t ∈ s.members .wq ∨ t ∈ s.members .sq ∨ s.ctl = .back t

structure Holds (s : State) (t : Tid) (e : EventId) : Prop where
  live : (s.event e).live = true
  owner : (s.event e).owner = none ∨ (s.event e).owner = some t

structure Remembered (s : State) (k : Timer) : Prop where
  alive : (s.tcb k.thread).alive = true
  state : (s.tcb k.thread).state = .waiting
  cleaning : k.thread ∉ s.cleaning
  holds : Holds s k.thread k.event

def Rings (s : State) : Prop := ∀ t, Asleep s t → ∀ e ∈ (s.tcb t).events, Holds s t e

structure Timed (s : State) : Prop where
  rings : Rings s
  timer : ∀ k, s.ctl.timer = some k → Remembered s k

theorem Rings.frame (hR : Rings s)
    (hs : ∀ t, Asleep s' t → Asleep s t ∧ (s'.tcb t).events = (s.tcb t).events)
    (he : ∀ t, Asleep s t → ∀ e ∈ (s.tcb t).events, Holds s t e → Holds s' t e) : Rings s' := by
  intro t ht e hm
  obtain ⟨hts, hev⟩ := hs t ht
  rw [hev] at hm
  exact he t hts e hm (hR t hts e hm)

theorem Rings.except (hR : Rings s) (htcb : ∀ u, u ≠ t → s'.tcb u = s.tcb u)
    (hst : (s'.tcb t).state = .waiting → ∀ e ∈ (s'.tcb t).events, Holds s' t e)
    (hpl : ∀ u, u ≠ t → u ∈ s'.members .wq ∨ u ∈ s'.members .sq ∨ s'.ctl = .back u →
      u ∈ s.members .wq ∨ u ∈ s.members .sq ∨ s.ctl = .back u)
    (he : ∀ u, u ≠ t → Asleep s u → ∀ e ∈ (s.tcb u).events, Holds s u e → Holds s' u e) : Rings s' := by
  intro u hu e hm
  by_cases hut : u = t
  · subst hut
    exact hst hu.state e hm
  · have hus : Asleep s u := ⟨by rw [← htcb u hut]; exact hu.state, hpl u hut hu.place⟩
    rw [htcb u hut] at hm
    exact he u hut hus e hm (hR u hus e hm)

/-! ### Events -/

theorem Holds.congr (h : Holds s t e) (hl : (s'.event e).live = (s.event e).live)
    (ho : (s'.event e).owner = (s.event e).owner) : Holds s' t e :=
  ⟨hl.trans h.live, by rw [ho]; exact h.owner⟩

theorem Remembered.other (hk : Remembered s k) (hne : k.thread ≠ t)
    (htcb : k.thread ≠ t → s'.tcb k.thread = s.tcb k.thread) (he : s'.event = s.event)
    (hcl : s'.cleaning = s.cleaning) : Remembered s' k where
  alive := by rw [htcb hne]; exact hk.alive
  state := by rw [htcb hne]; exact hk.state
  cleaning := by rw [hcl]; exact hk.cleaning
  holds := hk.holds.congr (by rw [he]) (by rw [he])

theorem Holds.of_event (h : Holds s t e) (he : s'.event e = s.event e) : Holds s' t e :=
  h.congr (by rw [he]) (by rw [he])

theorem Holds.setStatus (h : Holds s t e) : Holds (s.setStatus e' st) t e := by
  have hev : ((s.setStatus e' st).event e).live = (s.event e).live ∧
      ((s.setStatus e' st).event e).owner = (s.event e).owner := by
    simp only [State.setStatus, State.setEvent, Function.update_apply]
    split
    · rename_i heq
      rw [heq]
      exact ⟨rfl, rfl⟩
    · exact ⟨rfl, rfl⟩
  exact h.congr hev.1 hev.2

theorem Holds.not_own (h : Holds s t e) (ht : t ≠ cur) :
    ¬ ((s.event e).live = false ∨ (s.event e).owner = some cur) := by
  rintro (hl | ho)
  · simp [h.live] at hl
  · have hown := h.owner
    simp only [ho, reduceCtorEq, Option.some.injEq, false_or] at hown
    exact ht hown.symm

theorem Holds.newEvent (h : Holds s t e)
    (hl : (s.event e').live = false ∨ static = true ∧ (s.event e').owner = some cur) (ht : t ≠ cur) :
    Holds (s.setEvent e' fun _ => ⟨spec, .pending, true, if static then some cur else none⟩) t e := by
  have hne : e ≠ e' := by
    rintro rfl
    exact h.not_own ht (hl.imp_right And.right)
  exact h.of_event (Function.update_of_ne hne _ _)

theorem Holds.destroyEvents (h : Holds s t e) (ht : t ≠ u) : Holds (destroyEvents s u) t e := by
  exact h.of_event (if_neg fun ho => h.not_own ht (.inr ho))

/-! ### Calls -/

theorem Queued.asleep (hq : Queued s) (ht : t ∈ s.members n) (hst : (s.tcb t).state = .waiting) :
    Asleep s t := by
  refine ⟨hst, ?_⟩
  have hadm := hq n t ht
  rw [hst] at hadm
  cases n with
  | wq => exact .inl ht
  | sq => exact .inr (.inl ht)
  | _ => cases hadm

variable {entering : Prop}

theorem Touches.asleep (h : Touches entering t s s') (hq : Queued s)
    (hu : Asleep s' u) : Asleep s u := by
  have hst : (s.tcb u).state = .waiting := h.state_eq.symm.trans hu.state
  rcases hu.place with hm | hm | hc
  · obtain ⟨m, hm⟩ := h.queued_of hm
    exact hq.asleep hm hst
  · obtain ⟨m, hm⟩ := h.queued_of hm
    exact hq.asleep hm hst
  · exact ⟨hst, .inr (.inr (h.control.ctl.symm.trans hc))⟩

theorem Touches.remembered (h : Touches entering t s s') (hq : Queued s)
    (hk : Remembered s k) (hcl : k.thread ∉ s'.cleaning) : Remembered s' k where
  alive := by
    -- a waiting thread is not in the dead queue
    have hd : k.thread ∉ s.members .dq := fun hd => by
      have hst : (s.tcb k.thread).state = .dead := hq .dq _ hd
      cases hst.symm.trans hk.state
    rw [h.alive_eq hd]
    exact hk.alive
  state := h.state_eq.trans hk.state
  cleaning := hcl
  holds := hk.holds.of_event (by rw [h.event])

theorem Timed.touch (hT : Timed s) (hq : Queued s) (h : Touches entering t s s')
    (hcl : ∀ k, s.ctl.timer = some k → k.thread ∉ s'.cleaning) : Timed s' := by
  refine ⟨hT.rings.frame (fun u hu => ⟨h.asleep hq hu, h.events_eq⟩) (fun u _ e _ he => ?_), fun k hk => ?_⟩
  · exact he.of_event (by rw [h.event])
  · rw [h.control.ctl] at hk
    exact h.remembered hq (hT.timer k hk) (hcl k hk)

theorem Asleep.ne_current (h : Asleep s t) (hp : Placed False none s) (hh : Hosted s)
    (hc : s.current = some cur) : t ≠ cur ∧ (t ∈ s.members .wq ∨ t ∈ s.members .sq) := by
  have hback : ∀ u, s.ctl ≠ .back u := by
    intro u hu
    have := hh.of_current hc
    simp [hu, Ctl.hosts] at this
  have hplace : t ∈ s.members .wq ∨ t ∈ s.members .sq := by
    rcases h.place with hm | hm | hb
    · exact .inl hm
    · exact .inr hm
    · exact absurd hb (hback t)
  refine ⟨?_, hplace⟩
  rintro rfl
  -- whoever makes a call runs, or its handlers do
  obtain ⟨c, hspot, hne⟩ : ∃ c, t ∈ spots s c ∧ ∀ n, c ≠ .queue n := by
    unfold State.current at hc
    split at hc
    · rename_i hcl
      cases hc
      exact ⟨.cleaning, by simp [spots, hcl], by simp⟩
    · rename_i hctl
      cases hc
      exact ⟨.run, by simp [spots, hctl, Ctl.running], by simp⟩
    · cases hc
  rcases hplace with hm | hm
  · exact hne .wq (hp.linear.unique hspot hm)
  · exact hne .sq (hp.linear.unique hspot hm)

theorem Asleep.held (hp : t ∈ s.members .wq ∨ t ∈ s.members .sq) (he : e ∈ (s.tcb t).events) :
    e ∈ held s := by
  refine List.mem_append_left _ (List.mem_flatMap.mpr ⟨t, ?_, he⟩)
  simpa using hp

theorem Remembered.ne_current (h : Remembered s k) (hk : s.ctl.timer = some k)
    (hc : s.current = some cur) : k.thread ≠ cur := by
  rintro rfl
  unfold State.current at hc
  split at hc
  · rename_i hcl
    cases hc
    exact h.cleaning (by simp [hcl])
  · rename_i hctl
    simp [hctl, Ctl.timer] at hk
  · cases hc

theorem sparesTimer_iff (h : sparesTimer s t = true) (hk : s.ctl.timer = some k) :
    t ≠ some k.thread := by
  simpa [sparesTimer, hk] using h

theorem keepsTimer_ends (h : keepsTimer s (.op o) = true) (hk : s.ctl.timer = some k) :
    o.ends s ≠ some k.thread := by
  simp only [keepsTimer, Bool.and_eq_true] at h
  exact sparesTimer_iff h.1 hk

theorem Timed.returns (hT : Timed s) (hp : Placed False none s) (hh : Hosted s)
    (hok : keepsTimer s (.op o) = true) (hc : s.current = some cur) (h : Returns s cur o s') :
    Timed s' := by
  cases h with
  | same => exact hT
  | @touch _ t _ _ hcl h =>
    refine hT.touch hp.queues h fun k hk hmem => ?_
    have hnot := (hT.timer k hk).cleaning
    rcases hcl with hcl | hends
    · rw [hcl] at hmem
      exact hnot hmem
    · rcases h.cleaning _ hmem with rfl | hmem
      · exact keepsTimer_ends hok hk hends
      · exact hnot hmem
  | resume hcl h =>
    refine hT.touch hp.queues h fun k hk => ?_
    rw [hcl]
    exact (hT.timer k hk).cleaning
  | @spawn t attr ht =>
    refine ⟨hT.rings.except (fun u hu => Function.update_of_ne hu _ _) ?_ (fun u hu hpl => ?_)
      (fun _ _ _ _ _ h => h.of_event rfl), fun k hk => ?_⟩
    · simp [State.enqueue, State.setTcb, Attr.tcb]
    · simpa [State.members, State.enqueue, State.setTcb] using hpl
    · have hk₀ : Remembered s k := hT.timer k hk
      have hne : k.thread ≠ t := by
        rintro rfl
        simp [hk₀.alive] at ht
      exact hk₀.other hne (Function.update_of_ne · _ _) rfl rfl
  | event hl =>
    refine ⟨hT.rings.frame (fun u hu => ⟨⟨hu.state, hu.place⟩, rfl⟩)
      (fun u hu e _ he => he.newEvent hl (hu.ne_current hp hh hc).1), fun k hk => ?_⟩
    have hk₀ := hT.timer k hk
    exact ⟨hk₀.alive, hk₀.state, hk₀.cleaning, hk₀.holds.newEvent hl (hk₀.ne_current hk hc)⟩
  | @eventFree e =>
    have hnot : e ∉ held s := by
      simp only [keepsTimer, hc, Bool.and_eq_true] at hok
      simpa using hok.2
    refine ⟨hT.rings.frame (fun u hu => ⟨⟨hu.state, hu.place⟩, rfl⟩) (fun u hu e' he' h => ?_), fun k hk => ?_⟩
    · refine h.of_event (Function.update_of_ne ?_ _ _)
      rintro rfl
      exact hnot (Asleep.held (hu.ne_current hp hh hc).2 he')
    · have hk₀ := hT.timer k hk
      refine ⟨hk₀.alive, hk₀.state, hk₀.cleaning, hk₀.holds.of_event (Function.update_of_ne ?_ _ _)⟩
      rintro rfl
      have hk : s.ctl.timer = some k := hk
      exact hnot (by simp [held, hk])
  | @cancelState enable async =>
    have hst : ∀ u, ((s.setTcb cur ({ · with cancelEnable := enable, cancelAsync := async })).tcb u).state =
        (s.tcb u).state := fun u => setTcb_field (·.state) rfl
    refine ⟨hT.rings.frame (fun u hu => ⟨⟨(hst u).symm.trans hu.state, hu.place⟩, setTcb_field (·.events) rfl⟩)
      (fun _ _ _ _ => (Holds.of_event · rfl)), fun k hk => ?_⟩
    have hk₀ := hT.timer k hk
    exact ⟨(setTcb_field (·.alive) rfl).trans hk₀.alive, (hst _).trans hk₀.state, hk₀.cleaning,
      hk₀.holds.of_event rfl⟩

/-- One thread is worked on, which then runs or is on its way back. -/
theorem Timed.running (hT : Timed s) (htcb : ∀ u, u ≠ t → s'.tcb u = s.tcb u)
    (hq : s'.queue = s.queue) (hctl : s'.ctl = .run t ∨ s'.ctl = .back t)
    (hst : (s'.tcb t).state = .waiting → ∀ e ∈ (s'.tcb t).events, Holds s' t e)
    (hev : ∀ u, u ≠ t → Asleep s u → ∀ e ∈ (s.tcb u).events, Holds s u e → Holds s' u e) : Timed s' := by
  refine ⟨hT.rings.except htcb hst (fun u hu hpl => ?_) hev, fun k hk => ?_⟩
  · rcases hpl with hm | hm | hc
    · exact .inl (by simpa [State.members, hq] using hm)
    · exact .inr (.inl (by simpa [State.members, hq] using hm))
    · rcases hctl with h | h <;> simp [h] at hc
      exact absurd hc.symm hu
  · rcases hctl with h | h <;> simp [h, Ctl.timer] at hk

theorem Timed.works (hT : Timed s) (hp : Placed False none s) (hh : Hosted s)
    (hok : keepsTimer s (.op o) = true) (hc : s.current = some cur) (hw : Works s cur o s') : Timed s' := by
  refine hT.running hw.tcb hw.queue hw.ctl (fun hst e he => ?_) fun u hu hus e he h => ?_
  · have hnew := hw.waiting hp hst he
    rcases hnew.made with ⟨ho, hev⟩ | ⟨-, hl, hown⟩
    · rw [ho] at hok
      simp only [keepsTimer, hc, Bool.and_eq_true, Option.all_some, List.all_eq_true] at hok
      have := hok.2 e hnew.marks
      exact ⟨by rw [hev]; simpa using this.1, by rw [hev]; simpa using this.2⟩
    · exact ⟨hl, hown⟩
  · rcases hw.event e with hev | hnew | ⟨hdrop, -⟩
    · exact h.of_event hev
    · rcases hnew.made with ⟨-, hev⟩ | ⟨hl, -⟩
      · exact h.congr (by rw [hev]) (by rw [hev])
      · exact absurd hl (h.not_own hu)
    · rcases hdrop with ho | ⟨⟨e', tv, rfl⟩, hpc, hmem⟩
      · exact absurd (.inr ho) (h.not_own hu)
      · -- the event of `pth_exit` is in nobody else's ring
        simp only [keepsTimer, hc, Bool.and_eq_true, Option.all_some, hpc] at hok
        have hfree : ∀ e ∈ (s.tcb cur).events, e ∉ held s := by simpa using hok.2
        exact absurd (Asleep.held (hus.ne_current hp hh hc).2 he) (hfree e hmem)

/-! ### The scan -/

def FromQueue (s : State) (timer : Option Timer) : Prop :=
  ∀ k, timer = some k → k.thread ∈ s.members .wq ∧ k.event ∈ (s.tcb k.thread).events

theorem nextTimer_cases (h : nextTimer timer t e tv = some k) :
    k = ⟨t, e, tv⟩ ∨ timer = some k := by
  unfold nextTimer at h
  split at h
  · exact .inl (Option.some.inj h).symm
  · split at h
    · exact .inl (Option.some.inj h).symm
    · exact .inr h

theorem FromQueue.nextTimer (h : FromQueue s timer)
    (ht : t ∈ s.members .wq) (he : e ∈ (s.tcb t).events) : FromQueue s (nextTimer timer t e tv) := by
  intro k hk
  obtain rfl | hk := nextTimer_cases hk
  · exact ⟨ht, he⟩
  · exact h k hk

theorem scanQueue_timer :
    FromQueue s (scanQueue s now fires).timer := by
  refine scanQueue_rule (I := fun c => FromQueue s c.timer) nofun (fun _ h => h)
    fun c t e h _ ht he => ?_
  unfold scanEvent
  repeat' split
  · exact h
  · exact h
  · exact h
  · exact h.nextTimer ht he

theorem Timed.scan (hT : Timed s)
    (hp : Placed False none s) (hcl : s.cleaning = []) (ht : s'.tcb = (scanQueue s now fires).state.tcb)
    (he : s'.event = (scanQueue s now fires).state.event)
    (hq : s'.queue = (scanQueue s now fires).state.queue)
    (hcl' : s'.cleaning = (scanQueue s now fires).state.cleaning) (hb : ∀ u, s'.ctl ≠ .back u)
    (hk : ∀ k, s'.ctl.timer = some k → (scanQueue s now fires).timer = some k) : Timed s' := by
  have hsc : Scanned s (scanQueue s now fires) := scanQueue_scanned
  have htcb : s'.tcb = s.tcb := ht.trans hsc.same.tcb
  have hqu : s'.queue = s.queue := hq.trans hsc.same.queue
  have hheld : ∀ {t e}, Holds s t e → Holds s' t e := by
    intro t e h
    obtain ⟨hl, ho, -⟩ := hsc.event e
    exact h.congr (by rw [he]; exact hl) (by rw [he]; exact ho)
  refine ⟨hT.rings.frame (fun u hu => ?_) (fun _ _ _ _ => hheld), fun k hks => ?_⟩
  · refine ⟨⟨by rw [← htcb]; exact hu.state, ?_⟩, by rw [htcb]⟩
    rcases hu.place with hm | hm | hm
    · exact .inl (by simpa [State.members, hqu] using hm)
    · exact .inr (.inl (by simpa [State.members, hqu] using hm))
    · exact absurd hm (hb u)
  · obtain ⟨hw, hev⟩ := scanQueue_timer k (hk k hks)
    have ha := hp.queued hw
    refine ⟨by rw [htcb]; exact ha.alive, by rw [htcb]; exact ha.state, ?_, hheld ?_⟩
    · rw [hcl', hsc.same.cleaning, hcl]
      simp
    · exact hT.rings _ ⟨ha.state, .inl hw⟩ _ hev

/-! ### Messages -/

theorem msgEnds_of_clean (ht : m.thread = some t)
    (hc : .clean ∈ msgEdits (s.tcb t) m.kind) : msgEnds s m = some t := by
  cases hk : m.kind with
  | cancel => simpa [msgEdits, msgEnds, hk, ht] using hc
  | abort => simp [msgEnds, hk, ht]
  | _ => simp [msgEdits, hk] at hc

theorem drainMsg_cleaning (h : u ∈ (drainMsg s m).cleaning) :
    u ∈ s.cleaning ∨ msgEnds s m = some u := by
  have hd := drainMsg_drains s m
  generalize drainMsg s m = s' at hd h
  cases hd with
  | @edits t _ ht he =>
    by_cases hc : .clean ∈ msgEdits (s.tcb t) m.kind
    · rcases (he.touches fun _ => id).cleaning u h with rfl | h
      · exact .inr (msgEnds_of_clean ht hc)
      · exact .inl h
    · rw [he.cleaning hc] at h
      exact .inl h
  | bury _ _ he =>
    rw [(he.single (List.mem_singleton_self _)).cleaning (by simp)] at h
    exact .inl h
  | reap =>
    rw [reap_cleaning] at h
    exact .inl h
  | _ => exact .inl h

theorem Timed.drainMsg (hT : Timed s) (hq : Queued s)
    (hm : ∀ t, spawnOf m = some t → (s.tcb t).state = .new)
    (hk : ∀ k, s.ctl.timer = some k → msgEnds s m ≠ some k.thread) : Timed (drainMsg s m) := by
  rcases drainMsg_cases s m with h | ⟨e, -, -, h⟩ | ⟨-, h⟩ | ⟨t, hkind, ht, h⟩ | ⟨t, -, h⟩
  · rw [h]
    exact hT
  · rw [h]
    refine ⟨hT.rings.frame (fun u hu => ⟨⟨hu.state, hu.place⟩, rfl⟩)
      (fun _ _ _ _ h => h.setStatus), fun k hks => ?_⟩
    have hk₀ := hT.timer k hks
    exact ⟨hk₀.alive, hk₀.state, hk₀.cleaning, hk₀.holds.setStatus⟩
  · rw [h]
    exact ⟨fun t ht e he => (hT.rings t ⟨ht.state, ht.place⟩ e he).of_event rfl, fun k hks =>
      have hk₀ := hT.timer k hks
      ⟨hk₀.alive, hk₀.state, hk₀.cleaning, hk₀.holds.of_event rfl⟩⟩
  · rw [h]
    have hst := hm t (by simp [spawnOf, hkind, ht])
    refine ⟨hT.rings.except (fun u hu => Function.update_of_ne hu _ _) ?_ (fun u hu hpl => ?_)
      (fun _ _ _ _ _ h => h.of_event rfl), fun k hks => ?_⟩
    · simp [adopt, State.enqueue, State.setTcb]
    · simpa [State.members, adopt, State.enqueue, State.setTcb] using hpl
    · have hk₀ : Remembered s k := hT.timer k hks
      have hne : k.thread ≠ t := by
        rintro rfl
        cases hst.symm.trans hk₀.state
      exact hk₀.other hne (Function.update_of_ne · _ _) rfl rfl
  · refine hT.touch hq h fun k hks hmem => ?_
    exact (drainMsg_cleaning hmem).elim (hT.timer k hks).cleaning (hk k hks)

/-! ### Steps -/

theorem Rings.idle (hR : Rings s) (ht : s'.tcb = s.tcb) (he : s'.event = s.event)
    (hw : s'.members .wq = s.members .wq) (hsq : s'.members .sq = s.members .sq)
    (hb : ∀ u, s'.ctl = .back u → s.ctl = .back u) : Rings s' := by
  refine hR.frame (fun u hu => ⟨⟨by rw [← ht]; exact hu.state, ?_⟩, by rw [ht]⟩)
    (fun _ _ _ _ h => h.of_event (by rw [he]))
  rw [← hw, ← hsq]
  exact hu.place.imp_right (Or.imp_right (hb u))

theorem Timed.idle (hT : Timed s) (ht : s'.tcb = s.tcb) (he : s'.event = s.event)
    (hq : s'.queue = s.queue) (hcl : s'.cleaning = s.cleaning)
    (hb : ∀ u, s'.ctl = .back u → s.ctl = .back u)
    (hk : ∀ k, s'.ctl.timer = some k → s.ctl.timer = some k) : Timed s' := by
  refine ⟨hT.rings.idle ht he ?_ ?_ hb, fun k hks => ?_⟩
  · simp [State.members, hq]
  · simp [State.members, hq]
  · have hk₀ := hT.timer k (hk k hks)
    exact ⟨by rw [ht]; exact hk₀.alive, by rw [ht]; exact hk₀.state, by rw [hcl]; exact hk₀.cleaning,
      hk₀.holds.of_event (by rw [he])⟩

theorem Timed.message {em : Em} (hT : Timed s) (hp : Placed False none s)
    (hb : s.ctl.batch = m :: batch) (hok : keepsTimer s .msg = true)
    (hk : (Ctl.em em).timer = s.ctl.timer) : Timed (Sched.drainMsg { s with ctl := .em em } m) := by
  have h₁ : Timed { s with ctl := .em em } :=
    hT.idle rfl rfl rfl rfl nofun fun k hks => hk.symm.trans hks
  refine h₁.drainMsg hp.queues (fun t ht => ?_) fun k hks => ?_
  · have hfl : t ∈ spots s .flight := by simp [spots, hb, ht]
    exact (hp.admits .flight t hfl).state
  · have hsp : sparesTimer s (msgEnds s m) = true := by simpa [keepsTimer, hb] using hok
    exact sparesTimer_iff hsp (hk.symm.trans hks)

theorem Rings.promoteTail (hR : Rings s) : Rings (promoteTail cfg s t) := by
  refine hR.except (fun u hu => Function.update_of_ne hu _ _) ?_ (fun u hu hpl => ?_)
    (fun _ _ _ _ _ h => h.of_event rfl)
  · simp [Sched.promoteTail, State.enqueue, State.setTcb]
  · simpa [Sched.promoteTail, State.members, State.enqueue, State.setTcb, State.dequeue] using hpl

theorem Rings.schedule (hR : Rings s) (hp : Placed False none s) : Rings (schedule cfg s) := by
  have h₁ : Rings (promoteNew cfg (s.elements .nq) s) :=
    hp.promoteNew_rule hR (fun _ _ _ _ h => h.promoteTail) _
  unfold Sched.schedule
  dsimp only
  repeat' split
  all_goals
    refine h₁.idle rfl rfl ?_ ?_ (by intros; contradiction)
    all_goals simp [State.members]

theorem Rings.comeBack (hR : Rings s) (hc : s.ctl = .back t) : Rings (comeBack cfg s t) := by
  have hidle : ∀ {ctl : Ctl}, (∀ u, ctl ≠ .back u) → Rings { putBack s t with ctl := ctl } := by
    intro ctl hctl
    refine hR.frame (fun u hu => ?_) fun _ _ _ _ h => h.of_event (congrFun putBack_event _)
    have htcb : ((putBack s t).tcb u).state = (s.tcb u).state ∧
        ((putBack s t).tcb u).events = (s.tcb u).events := by
      rcases (putBack_tcb : (putBack s t).tcb u = _ ∨ _) with h | h
      all_goals
        rw [h]
        exact ⟨rfl, rfl⟩
    refine ⟨⟨htcb.1.symm.trans hu.state, ?_⟩, htcb.2⟩
    have hq : ∀ {n}, u ∈ (putBack s t).members n → u ∈ s.members n ∨ s.ctl = .back u :=
      fun hm => (putBack_members hm).elim (fun he => .inr (he ▸ hc)) .inl
    rcases hu.place with hm | hm | hm
    · exact (hq hm).elim .inl (.inr ∘ .inr)
    · exact .inr (hq hm)
    · exact absurd hm (hctl u)
  unfold Sched.comeBack
  dsimp only
  repeat' split
  all_goals exact hidle (by simp)

theorem Holds.lateEvents {l : List EventId} (h : Holds s t e) :
    Holds (l.foldl (lateEvent late) s) t e := by
  have hev : ((l.foldl (lateEvent late) s).event e).live = (s.event e).live ∧
      ((l.foldl (lateEvent late) s).event e).owner = (s.event e).owner := by
    rw [lateEvents_event]
    split <;> exact ⟨rfl, rfl⟩
  exact h.congr hev.1 hev.2

theorem Holds.timerBranch (h : Holds s t e) :
    Holds (timerBranch s dopoll timer rc0).1 t e := by
  unfold Sched.timerBranch
  repeat' split
  · exact h
  · have hlog : ∀ {e'}, Holds (logFired s e') t e := h.of_event (congrFun logFired_event _)
    exact hlog.setStatus
  · exact h
  · exact h

theorem Rings.cleanupThread (hR : Rings s) :
    Rings (cleanupThread late s t) := by
  have hsame : SameThreads s ((s.tcb t).events.foldl (lateEvent late) s) :=
    .foldl SameThreads.lateEvent _ _
  have h₁ : Rings ((s.tcb t).events.foldl (lateEvent late) s) := by
    refine hR.frame (fun u hu => ⟨⟨?_, ?_⟩, ?_⟩) (fun _ _ _ _ h => h.lateEvents)
    · rw [← hsame.tcb]
      exact hu.state
    · have hpl := hu.place
      simp only [State.members, hsame.queue, hsame.ctl] at hpl
      exact hpl
    · rw [hsame.tcb]
  unfold Sched.cleanupThread
  dsimp only
  split
  · refine h₁.except (fun u hu => Function.update_of_ne hu _ _) ?_ (fun u hu hpl => ?_)
      (fun _ _ _ _ _ h => h.of_event rfl)
    · simp [State.enqueue, State.setTcb]
    · refine Or.imp (fun hm => ?_) (Or.imp_left fun hm => ?_) hpl
      all_goals
        rcases mem_members_enqueue.mp hm with ⟨hn, -⟩ | hm
        · cases hn
        · rw [members_setTcb] at hm
          exact members_dequeue_subset hm
  · exact h₁

theorem cancelDone_members (hn : n ≠ .dq) : (cancelDone s t).members n = s.members n := by
  unfold cancelDone
  dsimp only
  split
  · rfl
  · simp [State.members, State.enqueue, State.setTcb, destroyEvents, hn]

theorem cancelDone_event : (cancelDone s t).event = (destroyEvents s t).event := by
  unfold cancelDone
  dsimp only
  split <;> rfl

theorem cancelDone_cleaning : (cancelDone s t).cleaning = s.cleaning := by
  unfold cancelDone
  dsimp only
  split <;> rfl

theorem Acked.field {α : Type} (h : Acked s cur s₁) (g : Tcb → α)
    (hg : ∀ b, g { b with cancelreq := false } = g b) : g (s₁.tcb u) = g (s.tcb u) := by
  cases h with
  | none => rfl
  | due => exact setTcb_field g (hg _)

theorem Timed.step (hT : Timed s) (hp : Placed False none s) (hh : Hosted s)
    (hok : keepsTimer s a = true) (hs : exec cfg s a = some s') : Timed s' := by
  obtain ⟨o, rfl, hcall⟩ | ⟨hop, hstep⟩ := exec_call hs
  · cases hcall with
    | returns hc _ hret => exact hT.returns hp hh hok hc hret
    | works hc _ hw => exact hT.works hp hh hok hc hw
    | @yield cur o t s₁ hr hpc ht =>
      have hready : (s.tcb cur).state = .ready := (hp.running hr.ctl).state
      have h₁ : Timed s₁ := hT.touch hp.queues ht fun k hk => by simp [hr.ctl, Ctl.timer] at hk
      refine h₁.running (fun _ _ => rfl) rfl (.inr rfl) ?_ fun _ _ _ _ _ => (Holds.of_event · rfl)
      simp [switchOut, ht.state_eq, hready]
    | joined hr ht =>
      refine (hT.works hp hh hok hr.current hr.returned).touch (hp.setTcb ⟨rfl, rfl, rfl⟩).queues ht fun k hk => ?_
      cases (congrArg Ctl.timer hr.ctl).symm.trans hk
    | exited _ _ hack =>
      refine ⟨hT.rings.frame (fun u hu => ⟨⟨?_, ?_⟩, hack.field (·.events) fun _ => rfl⟩)
        (fun _ _ _ _ h => ?_), (by intros; contradiction)⟩
      · exact (hack.field (·.state) fun _ => rfl).symm.trans hu.state
      · cases hack <;> exact hu.place.imp_right (Or.imp_right (by intros; contradiction))
      · cases hack <;> exact h.of_event rfl
  cases hstep with
  | @cleaned t rest hc =>
    have hctl : (cancelDone { s with cleaning := rest } t).ctl = s.ctl :=
      (SameControl.cancelDone).ctl
    have htcb : ∀ {u}, u ≠ t → (cancelDone { s with cleaning := rest } t).tcb u = s.tcb u :=
      fun hu => (cancelDone_spares hu).tcb
    have hholds : ∀ {u e}, u ≠ t → Holds s u e → Holds (cancelDone { s with cleaning := rest } t) u e :=
      fun hu h => (h.destroyEvents hu).of_event (congrFun cancelDone_event _)
    have hplace : ∀ {u}, u ∈ (cancelDone { s with cleaning := rest } t).members .wq ∨
        u ∈ (cancelDone { s with cleaning := rest } t).members .sq ∨
        (cancelDone { s with cleaning := rest } t).ctl = .back u →
        u ∈ s.members .wq ∨ u ∈ s.members .sq ∨ s.ctl = .back u := by
      intro u
      rw [hctl, cancelDone_members (by decide), cancelDone_members (by decide)]
      exact id
    have hne : ∀ {u}, u ∈ s.members .wq ∨ u ∈ s.members .sq ∨ s.ctl = .back u → u ≠ t := by
      rintro u hu rfl
      have huc : u ∈ spots s .cleaning := by simp [spots, hc]
      rcases hu with hm | hm | hb
      · cases hp.linear.unique (i := .queue .wq) hm huc
      · cases hp.linear.unique (i := .queue .sq) hm huc
      · cases hp.linear.unique (i := .back) (by simp [spots, hb, Ctl.returning]) huc
    refine ⟨fun u hu e he => ?_, fun k hk => ?_⟩
    · have hpl := hplace hu.place
      have hut := hne hpl
      rw [htcb hut] at he
      exact hholds hut (hT.rings u ⟨by rw [← htcb hut]; exact hu.state, hpl⟩ e he)
    · rw [hctl] at hk
      have hk₀ := hT.timer k hk
      have hut : k.thread ≠ t := by
        rintro rfl
        exact hk₀.cleaning (by simp [hc])
      refine ⟨by rw [htcb hut]; exact hk₀.alive, by rw [htcb hut]; exact hk₀.state, fun hmem => ?_,
        hholds hut hk₀.holds⟩
      refine hk₀.cleaning ?_
      rw [cancelDone_cleaning] at hmem
      exact hc ▸ List.mem_cons_of_mem t hmem
  | @post | tick => exact hT.idle rfl rfl rfl rfl (fun _ => id) fun _ => id
  | @spawnOn t attr ht =>
    refine ⟨hT.rings.except (fun u hu => Function.update_of_ne hu _ _) ?_ (fun u hu hpl => hpl)
      (fun _ _ _ _ _ h => h.of_event rfl), fun k hk => ?_⟩
    · simp [State.setTcb, Attr.tcb]
    · have hk₀ : Remembered s k := hT.timer k hk
      have hne : k.thread ≠ t := by
        rintro rfl
        simp [hk₀.alive] at ht
      exact hk₀.other hne (Function.update_of_ne · _ _) rfl rfl
  | sched =>
    refine ⟨hT.rings.schedule hp, fun k hk => ?_⟩
    unfold schedule at hk
    dsimp only at hk
    repeat' split at hk
    all_goals cases hk
  | @back t hcl hc =>
    refine ⟨hT.rings.comeBack hc, fun k hk => ?_⟩
    unfold comeBack at hk
    dsimp only at hk
    repeat' split at hk
    all_goals cases hk
  | @msg dopoll now any m batch hcl hc => exact hT.message hp (by rw [hc]; rfl) hok (by rw [hc]; rfl)
  | @remsg dopoll timer rc0 m batch hcl hc =>
    refine hT.message hp (by rw [hc]; rfl) hok ?_
    rw [hc]
    cases dopoll <;> rfl
  | @scan dopoll now fires hcl =>
    refine hT.scan hp hcl rfl rfl rfl rfl (fun u h => by cases h) fun k hk => ?_
    cases hd : dopoll || (scanQueue s now fires).anyOccurred with
    | true => simp [hd, Ctl.timer] at hk
    | false => simpa [hd, Ctl.timer] using hk
  | @finish dopoll timer rc0 late =>
    have hsame : SameThreads s (timerBranch s dopoll timer rc0).1 := .timerBranch
    have h₁ : Rings (timerBranch s dopoll timer rc0).1 := by
      refine hT.rings.frame (fun u hu => ⟨⟨?_, ?_⟩, ?_⟩) (fun _ _ _ _ h => h.timerBranch)
      · rw [← hsame.tcb]
        exact hu.state
      · have hpl := hu.place
        simp only [State.members, hsame.queue, hsame.ctl] at hpl
        exact hpl
      · rw [hsame.tcb]
    have h₂ : Rings (cleanupLoop late (timerBranch s dopoll timer rc0).1) :=
      (hp.same hsame).cleanupLoop_rule h₁ fun _ _ _ _ h => h.cleanupThread
    refine ⟨h₂.idle rfl rfl rfl rfl fun u hu => ?_, fun k hk => ?_⟩
    · split at hu <;> cases hu
    · split at hk <;> cases hk
  | @retake dopoll timer rc0 hcl hc | @redrained dopoll timer rc0 hcl hc
  | @woken dopoll timer timeout since rc0 noBuffer hcl hc =>
    refine hT.idle rfl rfl rfl rfl (by intros; contradiction) fun k hk => ?_
    rw [hc]
    cases dopoll <;> exact hk
  | take | drained => exact hT.idle rfl rfl rfl rfl (by intros; contradiction) (by intros; contradiction)
  | _ => exact absurd rfl (hop _)

theorem timed_of_reachable (h : Reachable (keepsTimerSystem cfg) s) : Timed s := by
  refine h.invariant_of_reachable ?_ ?_
  · intro s hi
    refine ⟨fun t ht => ?_, fun k hk => ?_⟩
    · have hpl := ht.place
      simp [State.members, hi.queues, hi.ctl] at hpl
    · simp [hi.ctl, Ctl.timer] at hk
  · intro s a s' hr hT hs
    have hstep : exec cfg s a = some s' := hs.2
    rcases placed_of_reachable hr.of_restrict with hx | hp
    · simp [exec, hx] at hstep
    · exact hT.step hp (hosted_of_reachable hr.of_restrict) hs.1 hstep

/-- Thread 1, detached, waits for a static time event and the pass blocks. -/
def sleepSchedule : List Act :=
  [.sched, .op (.spawn 1 { asyncAttr with joinable := false }), .op (.event 21 .fd false), .op (.wait [21]), .back] ++
    idlePass ++ [.sched, .op (.event 20 (.time ⟨10, 0⟩) true), .op (.wait [20]), .back, .take, .drained,
      .scan fun _ => false]

end GnuPth.Sched
