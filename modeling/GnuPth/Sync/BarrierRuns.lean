import GnuPth.Sync.Barrier
import Mathlib.Data.Nat.Bits

/-!
# Barriers in runs of the code

The flag `br_cycle` is the parity of the number of batches that are complete.
A waiter that finds it changed is past the end of its own batch; that it does
find it changed takes that no second batch is completed before it looks.
-/

namespace GnuPth

open Function (update update_self)
open Transition

namespace Barrier

/-! ### Exclusion -/

/-- Between the return of the acquire, or of an await, and the next call that
waits or releases: the points at which the shared fields are accessed. -/
def Point.inside : Point → Bool
  | .reached | .counting _ | .flipping | .resetting | .grading .. | .looking .. => true
  | _ => false

structure Inside (b : Barrier) (home : Tid → SchedId) {σ : Type} (s : GnuPth.State σ) (t : Tid) :
    Prop where
  pc : (s.tcb t).pc = .app
  active : t ∈ s.active (home t)
  owner : (s.mutex b.mutex).owner = some t

/-- Where the control point of a thread in `pth_barrier_reach` is. -/
structure Control (b : Barrier) (home : Tid → SchedId) {σ : Type} (s : GnuPth.State σ) (t : Tid)
    (p : Point) : Prop where
  inside : p.inside = true → Inside b home s t
  acquiring : p = .acquiring → (s.tcb t).pc.InAcquire b.mutex .app
  awaiting : ∀ {cycle cancel}, p = .awaiting cycle cancel → (s.tcb t).pc.InAwait b.cond b.mutex

section
variable {σ : Type}

theorem Inside.unique (h : Inside b home s t) (hu : Inside b home s u) : u = t :=
  Option.some.inj (hu.owner.symm.trans h.owner)

theorem Inside.step (h : Inside b home s t) (ho : OwnerOk s) (hs : GnuPth.Step home ops s a s')
    (ha : a.actor = some t → a.isCall = false) :
    Inside b home s' t ∧ callEvent s s' a t = .none := by
  obtain ⟨hev, hpc, hact, hne⟩ := hs.callEvent_app h.pc h.active ha
  exact ⟨⟨hpc, hact, ho.owner_of_ne hs h.owner hne⟩, hev⟩

theorem Control.of_free (hi : p.inside = false) (ha : p ≠ .acquiring)
    (hw : ∀ cycle cancel, p ≠ .awaiting cycle cancel) : Control b home s t p where
  inside h := by rw [hi] at h; cases h
  acquiring h := absurd h ha
  awaiting h := absurd h (hw _ _)

/-- The call of `pth_mutex_acquire` or `pth_cond_await` returned with the mutex. -/
theorem Inside.of_return (hs : GnuPth.Step home ops s (.step t) s')
    (hpc' : (s'.tcb t).pc = .app) (ho : (s'.mutex b.mutex).owner = some t) :
    Inside b home s' t := by
  refine ⟨hpc', ?_, ho⟩
  rcases hs.mem_active (List.mem_of_head? hs.running) (fun _ => rfl) with h | h | h
  · exact h
  · simp [hpc', Pc.waitsFor] at h
  · simp [hpc'] at h

end

section
variable {σ : Type}

theorem Control.of_inside (hp : p.inside = true) (h : Inside b home s t) :
    Control b home s t p where
  inside _ := h
  acquiring he := by subst he; cases hp
  awaiting he := by subst he; cases hp

theorem Control.after_acquiring (h : Control b home s t .acquiring)
    (hs : GnuPth.Step home ops s a s') (ha : a.actor = some t → a.isCall = false) :
    Control b home s' t (Point.acquiring.after b t (callEvent s s' a t)) := by
  have hin := h.acquiring rfl
  have stays (hin : (s'.tcb t).pc.InAcquire b.mutex .app) : Control b home s' t .acquiring :=
    ⟨nofun, fun _ => hin, nofun⟩
  have hcall := hs.callStep ha
  generalize callEvent s s' a t = ev at hcall ⊢
  cases hcall with
  | stay _ hpc => exact stays (hpc ▸ hin)
  | woken _ hpc => exact stays (hpc ▸ hin.woken)
  | going _ hn hpc => exact stays ((hn.inAcquire hin).resolve_right fun h => hpc h.1)
  | returned hstep hn hpc =>
    subst hstep
    simp only [Point.after]
    split
    case isTrue ho =>
      exact .of_inside rfl (.of_return hs hpc (hs.acquired hin ho hpc))
    case isFalse => exact .of_free rfl nofun nofun
  | unwound => exact .of_free rfl nofun nofun

theorem Control.after_awaiting
    (h : Control b home s t (.awaiting cycle cancel)) (hi : (s.mutex b.mutex).initialized = true)
    (hs : GnuPth.Step home ops s a s') (ha : a.actor = some t → a.isCall = false) :
    Control b home s' t ((Point.awaiting cycle cancel).after b t (callEvent s s' a t)) := by
  have hin := h.awaiting rfl
  have stays (hin : (s'.tcb t).pc.InAwait b.cond b.mutex) :
      Control b home s' t (.awaiting cycle cancel) :=
    ⟨nofun, nofun, fun _ => hin⟩
  have hcall := hs.callStep ha
  generalize callEvent s s' a t = ev at hcall ⊢
  cases hcall with
  | stay _ hpc => exact stays (hpc ▸ hin)
  | woken _ hpc => exact stays (hpc ▸ hin.woken)
  | going _ hn hpc => exact stays ((hn.stays_inAwait hin).resolve_right hpc)
  | returned hstep hn hpc =>
    subst hstep
    simp only [Point.after]
    split
    case isTrue ho =>
      exact .of_inside rfl (.of_return hs hpc (hs.awaited hi hin ho hpc))
    case isFalse => exact .of_free rfl nofun nofun
  | unwound => exact .of_free rfl nofun nofun

theorem Inside.cancelState {async : Bool} (h : Inside b home s t)
    (hs : GnuPth.Step home ops s (.cancelState t enable async) s') : Inside b home s' t := by
  cases hs with
  | call _ _ he => cases he
  | cancelState => exact ⟨by simpa using h.pc, h.active, h.owner⟩

theorem Control.after (h : Control b home s t p) (ho : OwnerOk s)
    (hi : (s.mutex b.mutex).initialized = true) (hs : GnuPth.Step home ops s a s')
    (ha : a.actor = some t → p ≠ .out → a.isCall = false) :
    Control b home s' t (p.after b t (callEvent s s' a t)) := by
  cases p with
  | out | notifying | restoring | leaving | releasing =>
    cases callEvent s s' a t <;> exact .of_free rfl nofun nofun
  | acquiring => exact h.after_acquiring hs fun ht => ha ht nofun
  | awaiting => exact h.after_awaiting hi hs fun ht => ha ht nofun
  | reached | counting | flipping | resetting | grading | looking =>
    obtain ⟨hin, hev⟩ := (h.inside rfl).step ho hs fun ht => ha ht nofun
    rw [hev]
    exact .of_inside rfl hin

end

/-! ### Arrivals -/

section
variable {b : Barrier}

theorem complete_mono (h : b.complete index arrivals)
    (hn : arrivals ≤ arrivals') : b.complete index arrivals' :=
  Nat.le_trans h hn

theorem complete_iff :
    b.complete index arrivals ↔ index / b.threshold < arrivals / b.threshold := by
  rw [complete, ← Nat.le_div_iff_mul_le b.positive, Nat.succ_le_iff]

theorem arrival_last (h : (b.threshold : Int) - (arrivals % b.threshold : Nat) = 1) :
    (arrivals + 1) / b.threshold = arrivals / b.threshold + 1 ∧
      (arrivals + 1) % b.threshold = 0 := by
  rw [Nat.div_mod_unique b.positive]
  have := Nat.mod_add_div arrivals b.threshold
  rw [Nat.mul_succ]
  omega

theorem arrival_other (h : (b.threshold : Int) - (arrivals % b.threshold : Nat) ≠ 1) :
    (arrivals + 1) / b.threshold = arrivals / b.threshold ∧
      (arrivals + 1) % b.threshold = arrivals % b.threshold + 1 := by
  rw [Nat.div_mod_unique b.positive]
  have := Nat.mod_add_div arrivals b.threshold
  have := Nat.mod_lt arrivals b.positive
  constructor <;> omega

end

/-- What is known of a thread at a point, with the value of `br_cycle`, the
number of arrivals and the number of its own one. The flag is the parity of
the number of complete batches. -/
def Point.Ok (b : Barrier) (cycle : Bool) (arrivals index : Nat) : Point → Prop
  | .counting c => c = cycle
  | .flipping => arrivals % b.threshold = 0 ∧ cycle = !(arrivals / b.threshold).bodd ∧
      b.complete index arrivals
  | .resetting => arrivals % b.threshold = 0 ∧ b.complete index arrivals
  | .notifying => b.complete index arrivals
  | .grading c _ | .looking c _ _ | .awaiting c _ =>
    index < arrivals ∧ c = (index / b.threshold).bodd
  | .restoring _ rv => rv = .failed
  | .leaving rv | .releasing rv => rv ≠ .failed → b.complete index arrivals
  | .out | .acquiring | .reached => True

def Point.last : Point → Bool
  | .flipping | .resetting => true
  | _ => false

structure Safe (b : Barrier) (home : Tid → SchedId) {σ : Type} (s : State σ) : Prop where
  owners : OwnerOk s.sync
  initialized : (s.sync.mutex b.mutex).initialized = true
  control : ∀ t, Control b home s.sync t (s.point t)
  points : ∀ t, (s.point t).Ok b s.cycle s.arrivals (s.index t)
  cycle : (∀ t, s.point t ≠ .flipping) → s.cycle = (s.arrivals / b.threshold).bodd
  count : (∀ t, (s.point t).last = false) →
    s.count = (b.threshold : Int) - (s.arrivals % b.threshold : Nat)
  returned : ∀ p ∈ s.returned, p.result ≠ .failed → b.complete p.index p.arrivals

section
variable {s : State σ} {p : Point}
variable {cycle : Bool}

/-- Others that are not inside do not look at the flag, and more arrivals do
not hurt them. -/
theorem Point.Ok.mono
    (h : p.Ok b cycle arrivals index) (hp : p.inside = false) (hn : arrivals ≤ arrivals') :
    p.Ok b cycle' arrivals' index := by
  cases p with
  | reached | counting | flipping | resetting | grading | looking => cases hp
  | out | acquiring => trivial
  | notifying => exact complete_mono h hn
  | awaiting => exact ⟨Nat.lt_of_lt_of_le h.1 hn, h.2⟩
  | restoring => exact h
  | leaving | releasing => exact fun hrv => complete_mono (h hrv) hn

theorem Point.Ok.after (h : p.Ok b cycle arrivals index)
    (ev : CallEvent) : (p.after b t ev).Ok b cycle arrivals index := by
  cases ev with
  | none => exact h
  | unwound => trivial
  | returned =>
    cases p with
    | acquiring =>
      simp only [Point.after]
      split <;> trivial
    | notifying => exact fun _ => h
    | awaiting =>
      simp only [Point.after]
      split
      · exact h
      · rfl
    | releasing => trivial
    | _ => exact h

theorem Control.after_inside (h : Control b home sync t p)
    (hp : p.inside = true) (ho : OwnerOk sync) (hs : GnuPth.Step home ops sync a sync')
    (ha : a.actor = some t → p ≠ .out → a.isCall = false) :
    p.after b t (callEvent sync sync' a t) = p := by
  have hne : p ≠ .out := by
    rintro rfl
    cases hp
  rw [((h.inside hp).step ho hs fun ht => ha ht hne).2]
  rfl

theorem Point.inside_of_last (h : p.last = true) : p.inside = true := by
  cases p <;> first | rfl | cases h

theorem permits_call (h : s.permits b a = true) (ha : a.actor = some t) (hp : s.point t ≠ .out) :
    a.isCall = false := by
  simp only [State.permits, ha, Option.all_some, Bool.or_eq_true, Bool.not_eq_true',
    Bool.and_eq_true, decide_eq_true_eq] at h
  exact h.resolve_right fun h => hp h.1

theorem Safe.passes (h : Safe b home s) : ∀ p ∈ s.passes a sync,
    p.result ≠ .failed → b.complete p.index p.arrivals := by
  intro p hp
  unfold State.passes at hp
  split at hp
  case h_1 t =>
    split at hp
    case h_1 rv o hpt _ =>
      have hok := h.points t
      rw [hpt] at hok
      rw [List.mem_singleton.mp hp]
      exact hok
    case h_2 => cases hp
  case h_2 => cases hp

theorem Safe.sees (h : Safe b home s) (hp : s.permits b a = true)
    (hs : GnuPth.Step home ops s.sync a sync) : Safe b home (s.sees b a sync) := by
  have hkeep : ∀ t, (s.point t).inside = true →
      (s.point t).after b t (callEvent s.sync sync a t) = s.point t := fun t hin =>
    (h.control t).after_inside hin h.owners hs fun ht hout => permits_call hp ht hout
  refine ⟨h.owners.step hs, by rw [State.sees, hs.initialized]; exact h.initialized, fun t => ?_,
    fun t => (h.points t).after _, fun hfl => h.cycle fun t ht => ?_,
    fun hl => h.count fun t => ?_, fun p hp => ?_⟩
  · exact (h.control t).after h.owners h.initialized hs fun ht hout => permits_call hp ht hout
  · exact hfl t ((hkeep t (by rw [ht]; rfl)).trans ht)
  · by_contra hlast
    have hlast : (s.point t).last = true := by simpa using hlast
    have hafter : ((s.point t).after b t (callEvent s.sync sync a t)).last = false := hl t
    rw [hkeep t (Point.inside_of_last hlast), hlast] at hafter
    cases hafter
  · rcases List.mem_append.mp hp with hp | hp
    · exact h.passes p hp
    · exact h.returned p hp

/-! ### The steps of the barrier's own code -/

/-- A step of the code of `t` leaves the primitives alone or calls one. -/
def Calls (home : Tid → SchedId) (sync sync' : GnuPth.State σ) (t : Tid) : Prop :=
  sync' = sync ∨ ∃ ops a, a.actor = some t ∧ GnuPth.Step home ops sync a sync'

theorem Calls.of_step (hs : GnuPth.Step home ops s.sync a sync) (ha : a.actor = some t) :
    Calls home s.sync sync t :=
  .inr ⟨ops, a, ha, hs⟩

theorem Calls.refl (home : Tid → SchedId) : Calls home sync sync t := .inl rfl

theorem arrive_index_self : (s.arrive t).index t = s.arrivals := update_self ..

theorem arrive_index_of_ne (hu : u ≠ t) : (s.arrive t).index u = s.index u :=
  Function.update_of_ne hu ..

theorem Control.calls (h : Control b home sync u p) (ho : OwnerOk sync)
    (hi : (sync.mutex b.mutex).initialized = true) (hc : Calls home sync sync' t) (hu : u ≠ t) :
    Control b home sync' u p := by
  rcases hc with rfl | ⟨ops, a, ha, hs⟩
  · exact h
  · have hne : a.actor ≠ some u := by
      rw [ha]
      exact fun he => hu (Option.some.inj he).symm
    have hafter := h.after ho hi hs fun hu => absurd hu hne
    rwa [callEvent_of_ne hne] at hafter

theorem Safe.move {count : Int}
    (h : Safe b home s) (hc : Calls home s.sync sync t) (hctl : Control b home sync t p)
    (hok : p.Ok b cycle arrivals (index t))
    (hothers : ∀ u, u ≠ t → (s.point u).Ok b cycle arrivals (index u))
    (hcycle : (∀ u, update s.point t p u ≠ .flipping) → cycle = (arrivals / b.threshold).bodd)
    (hcount : (∀ u, (update s.point t p u).last = false) →
      count = (b.threshold : Int) - (arrivals % b.threshold : Nat)) :
    Safe b home
      { s with sync, count, cycle, arrivals, index, point := update s.point t p } := by
  have hsync : OwnerOk sync ∧ (sync.mutex b.mutex).initialized = true := by
    rcases hc with rfl | ⟨ops, a, -, hs⟩
    · exact ⟨h.owners, h.initialized⟩
    · exact ⟨h.owners.step hs, by rw [hs.initialized]; exact h.initialized⟩
  refine ⟨hsync.1, hsync.2, fun u => ?_, fun u => ?_, hcycle, hcount, h.returned⟩
  · by_cases hu : u = t
    · subst hu
      simpa using hctl
    · simpa [hu] using (h.control u).calls h.owners h.initialized hc hu
  · by_cases hu : u = t
    · subst hu
      simpa using hok
    · simpa [hu] using hothers u hu

theorem Safe.keep (h : Safe b home s) (hc : Calls home s.sync sync t)
    (hctl : Control b home sync t p) (hok : p.Ok b s.cycle s.arrivals (s.index t))
    (hlast : (s.point t).last = false) :
    Safe b home { s with sync, point := update s.point t p } := by
  refine h.move hc hctl hok (fun u _ => h.points u) (fun hfl => h.cycle fun u hu => ?_)
    fun hl => h.count fun u => ?_
  · by_cases hut : u = t
    · subst hut
      rw [hu] at hlast
      cases hlast
    · exact hfl u (by simpa [hut] using hu)
  · by_cases hut : u = t
    · rw [hut]
      exact hlast
    · simpa [hut] using hl u

theorem Safe.alone (h : Safe b home s) (hin : (s.point t).inside = true) (hu : u ≠ t) :
    (s.point u).inside = false := by
  by_contra hi
  exact hu (((h.control t).inside hin).unique ((h.control u).inside (by simpa using hi)))

theorem Safe.others (h : Safe b home s)
    (hin : (s.point t).inside = true) (hn : s.arrivals ≤ arrivals) (u : Tid) (hu : u ≠ t) :
    (s.point u).Ok b cycle arrivals (s.index u) :=
  (h.points u).mono (h.alone hin hu) hn

theorem Safe.not_last (h : Safe b home s) (hin : (s.point t).inside = true)
    (hlast : (s.point t).last = false) (u : Tid) : (s.point u).last = false := by
  by_cases hu : u = t
  · rw [hu]
    exact hlast
  · by_contra hl
    have hi := Point.inside_of_last (by simpa using hl : (s.point u).last = true)
    rw [h.alone hin hu] at hi
    cases hi

theorem Safe.cycle_eq (h : Safe b home s) (hin : (s.point t).inside = true)
    (hlast : (s.point t).last = false) : s.cycle = (s.arrivals / b.threshold).bodd :=
  h.cycle fun u hu => by
    have := h.not_last hin hlast u
    rw [hu] at this
    cases this

theorem Safe.read (h : Safe b home s) (hp : s.point t = .reached) :
    Safe b home (s.goto t (.counting s.cycle)) := by
  refine h.keep (.inl rfl) ?_ rfl (by rw [hp]; rfl)
  exact .of_inside rfl ((h.control t).inside (by rw [hp]; rfl))

theorem Safe.last (h : Safe b home s) (hp : s.point t = .counting cycle)
    (hc : s.count = 1) : Safe b home ((s.arrive t).goto t .flipping) := by
  have hin : (s.point t).inside = true := by rw [hp]; rfl
  have hlast : (s.point t).last = false := by rw [hp]; rfl
  obtain ⟨hdiv, hmod⟩ := arrival_last ((h.count (h.not_last hin hlast)).symm.trans hc)
  refine h.move (.inl rfl) (.of_inside rfl ((h.control t).inside hin)) ?_ ?_ ?_ ?_
  · refine ⟨hmod, ?_, ?_⟩
    · show s.cycle = !((s.arrivals + 1) / b.threshold).bodd
      rw [h.cycle_eq hin hlast, hdiv, Nat.bodd_succ, Bool.not_not]
    · rw [arrive_index_self, complete_iff]
      exact Nat.lt_of_lt_of_eq (Nat.lt_succ_self _) hdiv.symm
  · intro u hu
    rw [arrive_index_of_ne hu]
    exact h.others hin (Nat.le_succ _) u hu
  · intro hfl
    exact absurd (update_self ..) (hfl t)
  · intro hl
    have := hl t
    rw [update_self] at this
    cases this

theorem Safe.arrive (h : Safe b home s)
    (hp : s.point t = .counting cycle) (hc : s.count ≠ 1)
    (hs : GnuPth.Step home ops s.sync (.cancelState t false false) sync) :
    Safe b home
      { s.arrive t with sync, point := update s.point t (.grading cycle cancel) } := by
  have hin : (s.point t).inside = true := by rw [hp]; rfl
  have hlast : (s.point t).last = false := by rw [hp]; rfl
  have hcount := h.count (h.not_last hin hlast)
  have hcycle := h.cycle_eq hin hlast
  obtain ⟨hdiv, hmod⟩ := arrival_other (hcount ▸ hc)
  refine h.move (.of_step hs rfl) (.of_inside rfl ?_) ?_ ?_ ?_ ?_
  · exact ((h.control t).inside hin).cancelState hs
  · have hok := h.points t
    rw [hp] at hok
    rw [arrive_index_self]
    exact ⟨Nat.lt_succ_self _, hok.trans hcycle⟩
  · intro u hu
    rw [arrive_index_of_ne hu]
    exact h.others hin (Nat.le_succ _) u hu
  · intro _
    exact hcycle.trans (congrArg Nat.bodd hdiv.symm)
  · intro _
    show s.count - 1 = (b.threshold : Int) - ((s.arrivals + 1) % b.threshold : Nat)
    omega

theorem Safe.flip (h : Safe b home s) (hp : s.point t = .flipping) :
    Safe b home ({ s with cycle := !s.cycle }.goto t .resetting) := by
  have hin : (s.point t).inside = true := by rw [hp]; rfl
  have hok := h.points t
  rw [hp] at hok
  obtain ⟨hmod, hcycle, hdone⟩ := hok
  refine h.move (.inl rfl) (.of_inside rfl ((h.control t).inside hin)) ⟨hmod, hdone⟩
    (h.others hin (Nat.le_refl _)) ?_ ?_
  · intro _
    rw [hcycle, Bool.not_not]
  · intro hl
    have := hl t
    rw [update_self] at this
    cases this

theorem Safe.reset (h : Safe b home s) (hp : s.point t = .resetting)
    (hs : GnuPth.Step home ops s.sync (.notify t b.cond true) sync) :
    Safe b home { s with sync, count := b.threshold, point := update s.point t .notifying } := by
  have hin : (s.point t).inside = true := by rw [hp]; rfl
  have hok := h.points t
  rw [hp] at hok
  obtain ⟨hmod, hdone⟩ := hok
  refine h.move (.of_step hs rfl) (.of_free rfl nofun nofun) hdone
    (h.others hin (Nat.le_refl _)) ?_ ?_
  · intro hfl
    refine h.cycle fun u hu => ?_
    by_cases hut : u = t
    · rw [hut, hp] at hu
      cases hu
    · exact hfl u (by simpa [hut] using hu)
  · intro _
    rw [hmod]
    simp

theorem Safe.complete_of_ne
    (h : Safe b home s) (hp : s.point t = .looking cycle cancel rv) (hc : cycle ≠ s.cycle) :
    b.complete (s.index t) s.arrivals := by
  have hok := h.points t
  rw [hp] at hok
  obtain ⟨hlt, hcycle⟩ := hok
  rw [h.cycle_eq (by rw [hp]; rfl) (by rw [hp]; rfl), hcycle] at hc
  rw [complete_iff]
  refine Nat.lt_of_le_of_ne (Nat.div_le_div_right (Nat.le_of_lt hlt)) fun he => ?_
  rw [he] at hc
  exact hc rfl

theorem Safe.step (h : Safe b home s) (hs : Step b home ops s a s') :
    Safe b home s' := by
  cases hs with
  | sync hp hs => exact h.sees hp hs
  | @reach t sync hp hs =>
    refine h.keep (.of_step hs rfl) ⟨(by intros; contradiction), fun _ => ?_, (by intros; contradiction)⟩ trivial (by rw [hp]; rfl)
    cases hs with
    | call _ _ he =>
      cases he
      simp [Pc.InAcquire]
  | read hp => exact h.read hp
  | last hp hc => exact h.last hp hc
  | count hp hc hs => exact h.arrive hp hc hs
  | flip hp => exact h.flip hp
  | reset hp hs => exact h.reset hp hs
  | @grade t cycle cancel hp =>
    have hok := h.points t
    rw [hp] at hok
    refine h.keep (.inl rfl) ?_ hok (by rw [hp]; rfl)
    exact .of_inside rfl ((h.control t).inside (by rw [hp]; rfl))
  | @await t cycle cancel rv sync hp hc hs =>
    have hok := h.points t
    rw [hp] at hok
    refine h.keep (.of_step hs rfl) ⟨(by intros; contradiction), (by intros; contradiction), fun _ => ?_⟩ hok (by rw [hp]; rfl)
    cases hs with
    | call _ _ he =>
      cases he
      simp [Pc.InAwait]
  | @pass t cycle cancel rv sync hp hc hs =>
    refine h.keep (.of_step hs rfl) (.of_free rfl (by simp) (by simp)) ?_ (by rw [hp]; rfl)
    exact fun _ => h.complete_of_ne hp hc
  | @restore t cancel rv sync hp hs =>
    have hok := h.points t
    rw [hp] at hok
    refine h.keep (.of_step hs rfl) (.of_free rfl (by simp) (by simp)) ?_ (by rw [hp]; rfl)
    exact absurd hok
  | @release t rv sync hp hs =>
    have hok := h.points t
    rw [hp] at hok
    exact h.keep (.of_step hs rfl) (.of_free rfl (by simp) (by simp)) hok (by rw [hp]; rfl)

end

section
variable {b : Barrier}

theorem safe_of_reachable (h : Reachable (system b home) s) : Safe b home s := by
  refine h.invariant ?_ ?_
  · rintro s ⟨cfg, hi, -, rfl⟩
    exact ⟨⟨fun m => by simp [initial, GnuPth.initial], nofun⟩, hi,
      fun t => .of_free rfl nofun nofun, fun t => trivial, fun _ => by simp [initial],
      fun _ => by simp [initial], nofun⟩
  · rintro s a s' h ⟨fuel, hs⟩
    exact h.step (exec_rule hs)

/-- No call of `pth_barrier_reach` succeeds before all arrivals of its batch. -/
theorem barrier_waits (h : Reachable (system b home) s) :
    ∀ p ∈ s.returned, p.result ≠ .failed → b.complete p.index p.arrivals :=
  (safe_of_reachable h).returned

/-- A schedule of allowed steps, with a bound on the turns of every queue loop. -/
theorem exists_reachable [DecidablePred P] (b : Barrier)
    (home : Tid → SchedId) (ok : State WaitLinks → Action → Bool) (fuel : Nat)
    (acts : List Action)
    (h : (acts.foldlM (stepIf ok (exec b home (linkOps fuel))) (initial b .empty .plain)).any
      (fun s => decide (P s)) = true) :
    ∃ s, Reachable ((system b home).restrict fun s a => ok s a = true) s ∧ P s := by
  refine exists_reachable_restrict (S := system b home) ?_ ⟨.plain, rfl, rfl, rfl⟩ h
  exact fun _ _ _ hs => ⟨fuel, hs⟩

def pair : Barrier := ⟨0, 0, 2, by decide⟩

def apart (t : Tid) : SchedId := if t = 1 then 0 else 1

def arriveFirst (t : Tid) : List Action :=
  [.reach t, .sync (.step t), .run t, .run t, .run t, .run t, .sync (.step t), .sync (.step t),
    .sync (.step t)]

def arriveLast (t : Tid) : List Action :=
  [.reach t, .sync (.step t), .run t, .run t, .run t, .run t, .sync (.step t), .sync (.step t),
    .sync (.step t), .run t, .sync (.step t), .sync (.step t)]

def comeBack (g : SchedId) (t : Tid) : List Action :=
  [.sync (.drain g), .sync (.resume t), .sync (.step t), .sync (.step t)]

def onePair : List Action :=
  [.sync (.dispatch 1)] ++ arriveFirst 1 ++ [.sync (.dispatch 2)] ++ arriveLast 2 ++ comeBack 0 1

theorem onePair_returned : ∃ s, Reachable (system pair apart) s ∧
    s.returned = [⟨1, 0, .passed, 2⟩, ⟨2, 1, .taillight, 2⟩] := by
  obtain ⟨s, hs, hr⟩ := exists_reachable pair apart
    (P := fun s => s.returned = [⟨1, 0, .passed, 2⟩, ⟨2, 1, .taillight, 2⟩]) (fun _ _ => true)
    5 (onePair ++ [.run 1, .run 1, .sync (.step 1), .sync (.step 1)]) (by decide +kernel)
  exact ⟨s, hs.of_restrict, hr⟩

theorem barrier_waits_onePair :
    ∃ s : State WaitLinks, s.returned = [⟨1, 0, .passed, 2⟩, ⟨2, 1, .taillight, 2⟩] ∧
      pair.complete 0 2 ∧ pair.complete 1 2 := by
  obtain ⟨s, hs, hr⟩ := onePair_returned
  have hw := barrier_waits hs
  rw [hr] at hw
  refine ⟨s, hr, hw _ List.mem_cons_self nofun, hw ⟨2, 1, .taillight, 2⟩ ?_ nofun⟩
  exact List.mem_cons_of_mem _ List.mem_cons_self

/-! ### Leaving -/

def Point.waits : Point → Bool
  | .grading .. | .looking .. | .awaiting .. => true
  | _ => false

/-- No batch is completed while a waiter of an earlier batch that is complete
has still to look at the flag. -/
def Prompt (b : Barrier) (s : State WaitLinks) (a : Action) : Prop :=
  ∀ t cycle, a = .run t → s.point t = .counting cycle → s.count = 1 →
    ∀ u, (s.point u).waits = true → ¬b.complete (s.index u) s.arrivals

/-- At most one batch was completed since a waiter arrived. -/
def Near (b : Barrier) (s : State WaitLinks) : Prop :=
  ∀ u, (s.point u).waits = true → s.arrivals / b.threshold ≤ s.index u / b.threshold + 1

theorem Point.waits_of_after {p : Point} (h : (p.after b t ev).waits = true) :
    p.waits = true := by
  cases ev with
  | none => exact h
  | unwound => cases h
  | returned =>
    cases p with
    | acquiring =>
      simp only [Point.after] at h
      split at h <;> cases h
    | awaiting => rfl
    | notifying | releasing => cases h
    | _ => exact h

theorem Near.move (h : Near b s) (hp : p.waits = true → (s.point t).waits = true)
    (sync : GnuPth.State WaitLinks) (count : Int) (cycle : Bool) :
    Near b { s with sync, count, cycle, point := update s.point t p } := by
  intro u hu
  by_cases hut : u = t
  · subst hut
    exact h u (hp (by simpa using hu))
  · exact h u (by simpa [hut] using hu)

theorem Near.step (h : Near b s) (hsafe : Safe b home s)
    (hp : Prompt b s a) (hs : Step b home ops s a s') : Near b s' := by
  cases hs with
  | sync => exact fun u hu => h u (Point.waits_of_after hu)
  | @last t cycle hpt hc =>
    -- the batch that ends here is the one of all who still wait
    have hin : (s.point t).inside = true := by rw [hpt]; rfl
    have hl : (s.point t).last = false := by rw [hpt]; rfl
    obtain ⟨hdiv, -⟩ := arrival_last ((hsafe.count (hsafe.not_last hin hl)).symm.trans hc)
    intro u hu
    have hut : u ≠ t := by
      rintro rfl
      simp [State.goto, Point.waits] at hu
    have hw : (s.point u).waits = true := by simpa [State.goto, State.arrive, hut] using hu
    have hnot := hp t cycle rfl hpt hc u hw
    rw [complete_iff, Nat.not_lt] at hnot
    calc (s.arrivals + 1) / b.threshold
      _ = s.arrivals / b.threshold + 1 := hdiv
      _ ≤ s.index u / b.threshold + 1 := Nat.succ_le_succ hnot
      _ = ((s.arrive t).index u) / b.threshold + 1 := by rw [arrive_index_of_ne hut]
  | @count t cycle cancel sync hpt hc =>
    have hin : (s.point t).inside = true := by rw [hpt]; rfl
    have hl : (s.point t).last = false := by rw [hpt]; rfl
    obtain ⟨hdiv, -⟩ := arrival_other ((hsafe.count (hsafe.not_last hin hl)) ▸ hc)
    intro u hu
    show (s.arrivals + 1) / b.threshold ≤ (s.arrive t).index u / b.threshold + 1
    rw [hdiv]
    by_cases hut : u = t
    · subst hut
      rw [arrive_index_self]
      exact Nat.le_succ _
    · rw [arrive_index_of_ne hut]
      exact h u (by simpa [hut] using hu)
  | reach | read | flip | reset | pass | restore | release =>
    exact h.move (fun hw => by cases hw) _ _ _
  | grade hpt | await hpt => exact h.move (fun _ => by rw [hpt]; rfl) _ _ _

theorem near_of_reachable (h : Reachable ((system b home).restrict (Prompt b)) s) : Near b s := by
  refine h.invariant_of_reachable ?_ ?_
  · rintro s ⟨cfg, -, -, rfl⟩ u hu
    cases hu
  · rintro s a s' hr h ⟨hp, fuel, hs⟩
    exact h.step (safe_of_reachable hr.of_restrict) hp (exec_rule hs)

/-- In every run in which no batch is completed before the waiters of the batch
before have looked at the flag, a waiter leaves when it looks at the flag for
the first time after its batch is complete. -/
theorem barrier_releases {cycle : Bool} {cancel : Bool × Bool} {rv : ReachResult}
    (h : Reachable ((system b home).restrict (Prompt b)) s)
    (hs : ((system b home).restrict (Prompt b)).step s (.run t) s')
    (hp : s.point t = .looking cycle cancel rv) (hc : b.complete (s.index t) s.arrivals) :
    s'.point t = .leaving rv := by
  have hsafe := safe_of_reachable h.of_restrict
  have hnear := near_of_reachable h t (by rw [hp]; rfl)
  have hok := hsafe.points t
  rw [hp] at hok
  rw [complete_iff] at hc
  have hbatch : s.arrivals / b.threshold = s.index t / b.threshold + 1 :=
    Nat.le_antisymm hnear hc
  have hne : cycle ≠ s.cycle := by
    rw [hsafe.cycle_eq (by rw [hp]; rfl) (by rw [hp]; rfl), hok.2, hbatch]
    simp
  obtain ⟨-, fuel, hs⟩ := hs
  cases exec_rule hs with
  | pass hp' =>
    rw [hp] at hp'
    cases hp'
    simp
  | await hp' hc' =>
    rw [hp] at hp'
    cases hp'
    exact absurd hc' hne
  | read hp' | last hp' | count hp' | flip hp' | reset hp' | grade hp' | restore hp'
  | release hp' =>
    rw [hp] at hp'
    cases hp'

def firstBatch (s : State WaitLinks) : Action → Bool
  | .run t =>
    match s.point t with
    | .counting _ => s.arrivals < 2
    | _ => true
  | _ => true

theorem prompt_of_firstBatch (h : firstBatch s a = true) : Prompt pair s a := by
  rintro t cycle rfl hp - u - hc
  simp only [firstBatch, hp, decide_eq_true_eq] at h
  have : 2 ≤ s.arrivals := Nat.le_trans (by simp [pair]) hc
  omega

theorem barrier_releases_onePair :
    ∃ s s', Reachable (system pair apart) s ∧ pair.complete (s.index 1) s.arrivals ∧
      (system pair apart).step s (.run 1) s' ∧ s'.point 1 = .leaving .passed := by
  obtain ⟨s, hs, hp, hc, hok, hstep⟩ := exists_reachable pair apart
    (P := fun s => s.point 1 = .looking false (true, false) .passed ∧
      pair.complete (s.index 1) s.arrivals ∧ firstBatch s (.run 1) = true ∧
      (exec pair apart (linkOps 5) s (.run 1)).isSome = true)
    firstBatch 5 onePair (by decide +kernel)
  obtain ⟨s', hstep⟩ := Option.isSome_iff_exists.mp hstep
  have hprompt := hs.mono fun _ _ _ => prompt_of_firstBatch
  refine ⟨s, s', hs.of_restrict, hc, ⟨5, hstep⟩, ?_⟩
  exact barrier_releases hprompt ⟨prompt_of_firstBatch hok, 5, hstep⟩ hp hc

/-- Threads 2 and 3 complete another batch before thread 1 gets the mutex back:
the flag has its old value again, and thread 1 goes back to wait. -/
theorem barrier_parks_again :
    ∃ s s', Reachable (system pair apart) s ∧ pair.complete (s.index 1) s.arrivals ∧
      s.point 1 = .looking false (true, false) .passed ∧
      (system pair apart).step s (.run 1) s' ∧ s'.point 1 = .awaiting false (true, false) := by
  obtain ⟨s, hs, hc, hp, hstep⟩ := exists_reachable pair apart
    (P := fun s => pair.complete (s.index 1) s.arrivals ∧
      s.point 1 = .looking false (true, false) .passed ∧
      (exec pair apart (linkOps 5) s (.run 1)).any
        (fun s' => s'.point 1 = .awaiting false (true, false)) = true)
    (fun _ _ => true) 5
    ([.sync (.dispatch 1)] ++ arriveFirst 1 ++ [.sync (.dispatch 2)] ++ arriveLast 2 ++
      arriveFirst 2 ++ [.sync (.dispatch 3)] ++ arriveLast 3 ++ comeBack 0 1)
    (by decide +kernel)
  obtain ⟨s', hs', hp'⟩ := (Option.any_eq_true _ _).mp hstep
  exact ⟨s, s', hs.of_restrict, hc, hp, ⟨5, hs'⟩, of_decide_eq_true hp'⟩

end

end Barrier

end GnuPth
