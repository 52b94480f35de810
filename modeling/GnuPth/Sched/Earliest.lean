import GnuPth.Sched.Timers

/-!
# The next timer

While it scans the waiting queue the event manager remembers the time at which it
has to look again. `pth_time_cmp` puts the difference of two 64-bit seconds into an
`int`, so the order is that of the times, and the time remembered the earliest, only
if the times are less than 2^31 seconds apart.
-/

namespace GnuPth.Sched

open Transition

variable {s : State}

def asks (s : State) (now : Timeval) (e : EventId) : Option Timeval :=
  if (s.event e).status = .pending then scanTimer s now e else none

def asked (s : State) (now : Timeval) : List Timeval :=
  (s.members .wq).flatMap fun t => (s.tcb t).events.filterMap (asks s now)

/-- The times are less than 2^31 seconds apart. -/
def near (s : State) (now : Timeval) : Bool :=
  (asked s now).all fun tv => decide (0 ≤ tv.usec ∧ tv.usec ≤ 1000000) &&
    (asked s now).all fun tv' => tv.sec - tv'.sec < 2 ^ 31

/-- Times that `pth_time_cmp` compares right, microseconds of a full second included. -/
structure Comparable (t₁ t₂ : Timeval) : Prop where
  usec₁ : 0 ≤ t₁.usec ∧ t₁.usec ≤ 1000000
  usec₂ : 0 ≤ t₂.usec ∧ t₂.usec ≤ 1000000
  sec₁ : t₁.sec - t₂.sec < 2 ^ 31
  sec₂ : t₂.sec - t₁.sec < 2 ^ 31

theorem Comparable.micros_le (h : Comparable t₁ t₂) :
    (timeCmp t₁ t₂ < 0 → t₁.micros ≤ t₂.micros) ∧ (¬ timeCmp t₁ t₂ < 0 → t₂.micros ≤ t₁.micros) := by
  obtain ⟨⟨h₁, h₁'⟩, ⟨h₂, h₂'⟩, hs₁, hs₂⟩ := h
  rw [timeCmp_eq (by omega) hs₁ (by omega) (by omega)]
  unfold Timeval.micros
  split <;> constructor <;> omega

theorem near_comparable (h : near s now = true) (h₁ : t₁ ∈ asked s now)
    (h₂ : t₂ ∈ asked s now) : Comparable t₁ t₂ := by
  simp only [near, List.all_eq_true, Bool.and_eq_true, decide_eq_true_eq] at h
  exact ⟨(h t₁ h₁).1, (h t₂ h₂).1, (h t₁ h₁).2 t₂ h₂, (h t₂ h₂).2 t₁ h₁⟩

/-! ### One event -/

theorem nextTimer_le (h : ∀ n, timer = some n → Comparable tv n.value) :
    ∃ k, nextTimer timer t e tv = some k ∧ k.value.micros ≤ tv.micros ∧
      ∀ n, timer = some n → k.value.micros ≤ n.value.micros := by
  cases timer with
  | none => exact ⟨_, rfl, le_rfl, nofun⟩
  | some n =>
    obtain ⟨hlt, hge⟩ := (h n rfl).micros_le
    by_cases hcmp : timeCmp tv n.value < 0
    · refine ⟨⟨t, e, tv⟩, if_pos hcmp, le_rfl, fun n' hn => ?_⟩
      obtain rfl := Option.some.inj hn
      exact hlt hcmp
    · refine ⟨n, if_neg hcmp, hge hcmp, fun n' hn => ?_⟩
      obtain rfl := Option.some.inj hn
      exact le_rfl

theorem scanEvent_cases (now : Timeval) (fires : EventId → Bool) (t : Tid) (c : Scan)
    (e : EventId) :
    
    (scanEvent now fires t c e = c ∧
      ((c.state.event e).status = .pending → scanTimer c.state now e = none)) ∨
    ((c.state.event e).status = .pending ∧ scanEvent now fires t c e =
      { c with state := (logFired c.state e).setStatus e .occurred, anyOccurred := true }) ∨
    ∃ tv, (c.state.event e).status = .pending ∧ scanTimer c.state now e = some tv ∧
      scanEvent now fires t c e = { c with timer := nextTimer c.timer t e tv } := by
  unfold scanEvent
  split
  case isTrue hst => exact .inl ⟨rfl, fun hp => absurd hp hst⟩
  case isFalse hst =>
    have hp : (c.state.event e).status = .pending := not_not.mp hst
    split
    case isTrue => exact .inr (.inl ⟨hp, rfl⟩)
    case isFalse =>
      split
      case h_1 hnone => exact .inl ⟨rfl, fun _ => hnone⟩
      case h_2 tv htv => exact .inr (.inr ⟨tv, hp, htv, rfl⟩)

/-! ### The scan -/

structure Timer.Asked (s : State) (now : Timeval) (n : Timer) : Prop where
  thread : n.thread ∈ s.members .wq
  event : n.event ∈ (s.tcb n.thread).events
  value : asks s now n.event = some n.value

theorem Timer.Asked.mem {n : Timer} (h : n.Asked s now) : n.value ∈ asked s now :=
  List.mem_flatMap.mpr ⟨n.thread, h.thread, List.mem_filterMap.mpr ⟨n.event, h.event, h.value⟩⟩

/-- The scan so far: events have only been marked, and the time remembered is one
that was asked for. -/
structure Remembers (s : State) (now : Timeval) (c : Scan) : Prop where
  same : SameThreads s c.state
  spec : ∀ e, (c.state.event e).spec = (s.event e).spec
  status : ∀ e, (c.state.event e).status = .pending → (s.event e).status = .pending
  timer : ∀ n, c.timer = some n → n.Asked s now

def Covered (s : State) (now : Timeval) (c : Scan) (e : EventId) : Prop :=
  (c.state.event e).status = .pending → ∀ tv, asks s now e = some tv →
    ∃ n, c.timer = some n ∧ n.value.micros ≤ tv.micros

theorem Remembers.asks (h : Remembers s now c) (hp : (c.state.event e).status = .pending) :
    asks s now e = scanTimer c.state now e := by
  rw [Sched.asks, if_pos (h.status e hp), scanTimer, scanTimer, h.spec]

theorem setOccurred_event (s : State) (e x : EventId) :
    (((logFired s e).setStatus e .occurred).event x).spec = (s.event x).spec ∧
      ((((logFired s e).setStatus e .occurred).event x).status = .pending →
        x ≠ e ∧ (s.event x).status = .pending) := by
  by_cases hx : x = e
  · subst hx
    simp [State.setStatus, State.setEvent, logFired_event]
  · simp [State.setStatus, State.setEvent, logFired_event, hx]

theorem Remembers.scanEvent (hnear : near s now = true) (h : Remembers s now c)
    (ht : t ∈ s.members .wq) (he : e ∈ (s.tcb t).events) :
    Remembers s now (scanEvent now fires t c e) ∧
      ∀ x, Covered s now c x ∨ x = e → Covered s now (Sched.scanEvent now fires t c e) x := by
  have hsame : SameThreads s (Sched.scanEvent now fires t c e).state := h.same.trans (.scanEvent c e)
  obtain ⟨hc, hnone⟩ | ⟨hp, hc⟩ | ⟨tv, hp, htv, hc⟩ := scanEvent_cases now fires t c e
  · rw [hc]
    refine ⟨h, ?_⟩
    rintro x (hx | rfl)
    · exact hx
    · intro hpx tv htv
      rw [h.asks hpx, hnone hpx] at htv
      cases htv
  · rw [hc] at hsame ⊢
    refine ⟨⟨hsame, fun x => ?_, fun x hx => ?_, h.timer⟩, ?_⟩
    · exact (setOccurred_event c.state e x).1.trans (h.spec x)
    · exact h.status x ((setOccurred_event c.state e x).2 hx).2
    · rintro x hx hpx
      obtain ⟨hne, hpx⟩ := (setOccurred_event c.state e x).2 hpx
      exact (hx.resolve_right hne) hpx
  · have hnew : Timer.Asked s now ⟨t, e, tv⟩ := ⟨ht, he, (h.asks hp).trans htv⟩
    obtain ⟨k, hk, hle, hkn⟩ := nextTimer_le (t := t) (e := e)
      fun n hn => near_comparable hnear hnew.mem (h.timer n hn).mem
    rw [hc]
    refine ⟨⟨h.same, h.spec, h.status, fun n hn => ?_⟩, ?_⟩
    · obtain rfl | hn := nextTimer_cases hn
      · exact hnew
      · exact h.timer n hn
    · rintro x (hx | rfl) hpx tv' htv'
      · obtain ⟨n, hn, hle'⟩ := hx hpx tv' htv'
        exact ⟨k, hk, (hkn n hn).trans hle'⟩
      · obtain rfl : tv = tv' := Option.some.inj (hnew.value.symm.trans htv')
        exact ⟨k, hk, hle⟩

/-- What a walk establishes where it is, and keeps elsewhere, holds everywhere in the end. -/
theorem foldl_establishes {α γ : Type} {f : γ → α → γ} {I : γ → Prop} {P : γ → α → Prop}
    {l : List α}
    (hstep : ∀ c, I c → ∀ x ∈ l, I (f c x) ∧ ∀ y, P c y ∨ y = x → P (f c x) y) {c : γ} (hc : I c) :
    I (l.foldl f c) ∧ ∀ y, P c y ∨ y ∈ l → P (l.foldl f c) y := by
  induction l generalizing c with
  | nil => exact ⟨hc, fun y hy => hy.resolve_right List.not_mem_nil⟩
  | cons x l ih =>
    obtain ⟨hi, hx⟩ := hstep c hc x List.mem_cons_self
    obtain ⟨hend, hall⟩ := ih (fun c hc z hz => hstep c hc z (List.mem_cons_of_mem x hz)) hi
    refine ⟨hend, fun y hy => hall y ?_⟩
    rcases hy with hy | hy
    · exact .inl (hx y (.inl hy))
    · exact (List.mem_cons.mp hy).imp (fun heq => hx y (.inr heq)) id

theorem Remembers.scanThread (hnear : near s now = true) (h : Remembers s now c)
    (ht : t ∈ s.members .wq) :
    Remembers s now (scanThread now fires c t) ∧
      ∀ x, Covered s now c x ∨ x ∈ (s.tcb t).events → Covered s now (Sched.scanThread now fires c t) x := by
  have hring : (c.state.tcb t).events = (s.tcb t).events := by rw [h.same.tcb]
  have hstep : ∀ c, Remembers s now c → ∀ e ∈ (s.tcb t).events,
      Remembers s now (Sched.scanEvent now fires t c e) ∧ ∀ x, Covered s now c x ∨ x = e →
        Covered s now (Sched.scanEvent now fires t c e) x := fun c hc e he => hc.scanEvent hnear ht he
  unfold Sched.scanThread
  dsimp only
  split
  · have h' : Remembers s now { c with anyOccurred := true } := ⟨h.same, h.spec, h.status, h.timer⟩
    rw [hring]
    exact foldl_establishes hstep h'
  · rw [hring]
    exact foldl_establishes hstep h

theorem Remembers.scanQueue (hnear : near s now = true) :
    Remembers s now (scanQueue s now fires) ∧
      ∀ t ∈ s.members .wq, ∀ x ∈ (s.tcb t).events, Covered s now (Sched.scanQueue s now fires) x := by
  have hinit : Remembers s now ⟨s, false, none⟩ := ⟨.refl s, fun _ => rfl, fun _ => id, nofun⟩
  have hstep : ∀ c, Remembers s now c → ∀ t ∈ s.members .wq,
      Remembers s now (Sched.scanThread now fires c t) ∧
        ∀ u, (∀ x ∈ (s.tcb u).events, Covered s now c x) ∨ u = t →
          ∀ x ∈ (s.tcb u).events, Covered s now (Sched.scanThread now fires c t) x := by
    intro c hc t ht
    obtain ⟨hc', hcov⟩ := hc.scanThread hnear ht
    refine ⟨hc', fun u hu x hx => hcov x ?_⟩
    rcases hu with hu | rfl
    · exact .inl (hu x hx)
    · exact .inr hx
  obtain ⟨hend, hall⟩ := foldl_establishes hstep hinit
  exact ⟨hend, fun t ht => hall t (.inr ht)⟩

/-! ### The order and the minimum -/

/-- What the minimum search is for: the time remembered is that of an event in the
waiting queue, and no event still pending asks for an earlier one. -/
structure Earliest (s : State) (now : Timeval) (c : Scan) : Prop where
  asked : ∀ n, c.timer = some n → n.Asked s now
  least : ∀ t ∈ s.members .wq, ∀ e ∈ (s.tcb t).events, Covered s now c e

def secondsNear (t₁ t₂ : Timeval) : Bool := -2 ^ 31 ≤ t₁.sec - t₂.sec && t₁.sec - t₂.sec < 2 ^ 31

theorem timeCmp_order (h₁ : t₁.Normalized) (h₂ : t₂.Normalized)
    (hnear : secondsNear t₁ t₂ = true) :
    (timeCmp t₁ t₂ < 0 ↔ t₁.micros < t₂.micros) ∧ (timeCmp t₁ t₂ = 0 ↔ t₁.micros = t₂.micros) ∧
      (0 < timeCmp t₁ t₂ ↔ t₂.micros < t₁.micros) := by
  obtain ⟨h₁, h₁'⟩ := h₁
  obtain ⟨h₂, h₂'⟩ := h₂
  simp only [secondsNear, Bool.and_eq_true, decide_eq_true_eq] at hnear
  rw [timeCmp_eq hnear.1 hnear.2 (by omega) (by omega)]
  unfold Timeval.micros
  split
  · refine ⟨?_, ?_, ?_⟩ <;> omega
  · refine ⟨?_, ?_, ?_⟩ <;> omega

def deadlineSchedule (first second : Timeval) : List Act :=
  [.sched, .op (.spawn 1 asyncAttr), .op (.event 20 (.time first) false), .op (.wait [20]), .back] ++
    idlePass ++ [.sched, .op (.event 21 (.time second) false), .op (.wait [21]), .back, .take, .drained]

end GnuPth.Sched
