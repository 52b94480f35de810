import GnuPth.Sync.BarrierRuns

/-!
# What `pth_barrier_reach` returns

The last arrival of a batch gets `PTH_BARRIER_TAILLIGHT` and everybody else
`TRUE`. `PTH_BARRIER_HEADLIGHT` is never returned: `br_count` has been
decremented before it is compared with `br_threshold`, and the wait loop
overwrites the result with that of `pth_cond_await`.
-/

namespace GnuPth

open Function (update)
open Transition

namespace Barrier

def isLast (b : Barrier) (i : Nat) : Prop := i % b.threshold + 1 = b.threshold

instance (b : Barrier) (i : Nat) : Decidable (b.isLast i) := inferInstanceAs (Decidable (_ = _))

def resultOf (b : Barrier) (i : Nat) : ReachResult := if b.isLast i then .taillight else .passed

/-! ### Numbers of arrivals -/

def Point.arrived : Point → Bool
  | .out | .acquiring | .reached | .counting _ => false
  | _ => true

structure Numbered {σ : Type} (s : State σ) : Prop where
  index_lt : ∀ t, (s.point t).arrived = true → s.index t < s.arrivals
  returned_lt : ∀ p ∈ s.returned, p.index < s.arrivals
  distinct : ∀ t u, (s.point t).arrived = true → (s.point u).arrived = true →
    s.index u = s.index t → u = t
  fresh : ∀ t, (s.point t).arrived = true → ∀ p ∈ s.returned, p.index ≠ s.index t
  nodup : (s.returned.map Passage.index).Nodup

section
variable {s : State σ} {p : Point}

theorem Point.arrived_of_after (h : (p.after b t ev).arrived = true) :
    p.arrived = true := by
  cases ev with
  | none => exact h
  | unwound => cases h
  | returned =>
    cases p with
    | acquiring =>
      simp only [Point.after] at h
      split at h <;> cases h
    | notifying | awaiting | releasing => rfl
    | _ => exact h

theorem Numbered.keep (h : Numbered s) (hp : p.arrived = true → (s.point t).arrived = true)
    (sync : GnuPth.State σ) (count : Int) (cycle : Bool) :
    Numbered { s with sync, count, cycle, point := update s.point t p } := by
  have hold {u : Tid} (hu : (update s.point t p u).arrived = true) : (s.point u).arrived = true := by
    by_cases hut : u = t
    · subst hut
      exact hp (by simpa using hu)
    · simpa [hut] using hu
  exact ⟨fun u hu => h.index_lt u (hold hu), h.returned_lt,
    fun u v hu hv => h.distinct u v (hold hu) (hold hv), fun u hu => h.fresh u (hold hu), h.nodup⟩

theorem Numbered.arrive (h : Numbered s) (sync : GnuPth.State σ) (count : Int) :
    Numbered { s.arrive t with sync, count, point := update s.point t p } := by
  have hidx : ∀ u, u ≠ t → (s.arrive t).index u = s.index u := fun _ => arrive_index_of_ne
  have hold {u : Tid} (hut : u ≠ t) (hu : (update s.point t p u).arrived = true) :
      (s.point u).arrived = true := by
    simpa [hut] using hu
  refine ⟨fun u hu => ?_, fun q hq => Nat.lt_succ_of_lt (h.returned_lt q hq),
    fun u v hu hv he => ?_, fun u hu q hq => ?_, h.nodup⟩
  · by_cases hut : u = t
    · subst hut
      exact Nat.lt_succ_of_le (Nat.le_of_eq arrive_index_self)
    · have hlt := h.index_lt u (hold hut hu)
      rw [← hidx u hut] at hlt
      exact Nat.lt_succ_of_lt hlt
  · by_cases hut : u = t <;> by_cases hvt : v = t
    · rw [hut, hvt]
    · rw [hut, arrive_index_self, hidx v hvt] at he
      exact absurd he (Nat.ne_of_lt (h.index_lt v (hold hvt hv)))
    · rw [hvt, arrive_index_self, hidx u hut] at he
      exact absurd he.symm (Nat.ne_of_lt (h.index_lt u (hold hut hu)))
    · rw [hidx u hut, hidx v hvt] at he
      exact h.distinct u v (hold hut hu) (hold hvt hv) he
  · by_cases hut : u = t
    · rw [hut, arrive_index_self]
      exact Nat.ne_of_lt (h.returned_lt q hq)
    · rw [hidx u hut]
      exact h.fresh u (hold hut hu) q hq

/-- A step of the primitives makes at most one call of `pth_barrier_reach`
return, and that thread is out then. -/
theorem passes_cases (s : State σ) (a : Act) (sync : GnuPth.State σ) :
    s.passes a sync = [] ∨ ∃ t rv, s.passes a sync = [⟨t, s.index t, rv, s.arrivals⟩] ∧
      s.point t = .releasing rv ∧ ((s.sees b a sync).point t) = .out := by
  unfold State.passes
  split
  case h_2 => exact .inl rfl
  case h_1 t =>
    split
    case h_2 => exact .inl rfl
    case h_1 rv o hpt hev =>
      simp [State.sees, hpt, hev, Point.after]

theorem Numbered.sees (h : Numbered s) : Numbered (s.sees b a sync) := by
  have hold {u : Tid} (hu : ((s.sees b a sync).point u).arrived = true) :
      (s.point u).arrived = true := Point.arrived_of_after hu
  rcases passes_cases s a sync with hnil | ⟨t, rv, hpass, hpt, hout⟩
  · have hret : (s.sees b a sync).returned = s.returned := by simp [State.sees, hnil]
    refine ⟨fun u hu => h.index_lt u (hold hu), ?_,
      fun u v hu hv => h.distinct u v (hold hu) (hold hv), fun u hu => ?_, ?_⟩
    · rw [hret]
      exact h.returned_lt
    · rw [hret]
      exact h.fresh u (hold hu)
    · rw [hret]
      exact h.nodup
  · have hret : (s.sees b a sync).returned = ⟨t, s.index t, rv, s.arrivals⟩ :: s.returned := by
      simp [State.sees, hpass]
    have hin : (s.point t).arrived = true := by rw [hpt]; rfl
    refine ⟨fun u hu => h.index_lt u (hold hu), fun q hq => ?_,
      fun u v hu hv => h.distinct u v (hold hu) (hold hv), fun u hu q hq => ?_, ?_⟩
    · rw [hret] at hq
      rcases List.mem_cons.mp hq with rfl | hq
      · exact h.index_lt t hin
      · exact h.returned_lt q hq
    · rw [hret] at hq
      rcases List.mem_cons.mp hq with rfl | hq
      · intro he
        have hut := h.distinct u t (hold hu) hin he
        subst hut
        rw [hout] at hu
        cases hu
      · exact h.fresh u (hold hu) q hq
    · rw [hret, List.map_cons, List.nodup_cons]
      refine ⟨fun hmem => ?_, h.nodup⟩
      obtain ⟨q, hq, he⟩ := List.mem_map.mp hmem
      exact h.fresh t hin q hq he

theorem Numbered.step (h : Numbered s) (hs : Step b home ops s a s') :
    Numbered s' := by
  cases hs with
  | sync => exact h.sees
  | last | count => exact h.arrive _ _
  | reach | read => exact h.keep (fun hp => by cases hp) _ _ _
  | flip hp | reset hp | grade hp | await hp | pass hp | restore hp | release hp =>
    exact h.keep (fun _ => by rw [hp]; rfl) _ _ _

end

/-! ### Results -/

/-- What is known of the result of a thread at a point, with the value of
`br_count` and the number of its arrival. -/
def Point.Graded (b : Barrier) (count : Int) (index : Nat) : Point → Prop
  | .flipping | .resetting | .notifying => b.isLast index
  | .grading .. => ¬b.isLast index ∧ count ≠ b.threshold
  | .looking _ _ rv => ¬b.isLast index ∧ rv = .passed
  | .awaiting .. => ¬b.isLast index
  | .restoring .. => False
  | .leaving rv | .releasing rv => rv = b.resultOf index
  | .out | .acquiring | .reached | .counting _ => True

structure Results (b : Barrier) {σ : Type} (s : State σ) : Prop where
  initialized : (s.sync.cond b.cond).initialized = true
  notifying : ∀ t, s.point t = .notifying → (s.sync.tcb t).pc.InNotify b.cond true
  graded : ∀ t, (s.point t).Graded b s.count (s.index t)
  returned : ∀ p ∈ s.returned, p.result = b.resultOf p.index

section
variable {p : Point}

theorem Point.Graded.outside (h : p.Graded b count index)
    (hp : p.inside = false) : p.Graded b count' index := by
  cases p with
  | grading => cases hp
  | _ => exact h

theorem Results.after (h : Results b s) (hsafe : Safe b home s) (hperm : s.permits b a = true)
    (hs : GnuPth.Step home ops s.sync a sync) (t : Tid) :
    ((s.point t).after b t (callEvent s.sync sync a t)).Graded b s.count (s.index t) ∧
      ((s.point t).after b t (callEvent s.sync sync a t) = .notifying →
        (sync.tcb t).pc.InNotify b.cond true) := by
  have hg := h.graded t
  have hctl := hsafe.control t
  have hnote := h.notifying t
  have hcall (hp : s.point t ≠ .out) : a.actor = some t → a.isCall = false :=
    fun ha => permits_call hperm ha hp
  generalize s.point t = p at hg hctl hnote hcall ⊢
  cases p with
  | notifying =>
    have hin := hnote rfl
    have hcs := hs.callStep (hcall (by rintro ⟨⟩))
    generalize callEvent s.sync sync a t = ev at hcs ⊢
    cases hcs with
    | stay _ hpc => exact ⟨hg, fun _ => hpc ▸ hin⟩
    | woken _ hpc => exact ⟨hg, fun _ => hpc ▸ hin.of_woken⟩
    | going _ hn hpc => exact ⟨hg, fun _ => (hn.inNotify hin).resolve_right hpc⟩
    | unwound => exact ⟨trivial, (by rintro ⟨⟩)⟩
    | returned ha hn hpc =>
      subst ha
      rw [hs.notify_ok h.initialized hin hpc]
      refine ⟨?_, (by rintro ⟨⟩)⟩
      rw [Point.after, if_pos rfl]
      exact (if_pos hg).symm
  | awaiting =>
    have hcs := hs.callStep (hcall (by rintro ⟨⟩))
    generalize callEvent s.sync sync a t = ev at hcs ⊢
    cases hcs with
    | stay | woken | going => exact ⟨hg, (by rintro ⟨⟩)⟩
    | unwound => exact ⟨trivial, (by rintro ⟨⟩)⟩
    | returned ha hn hpc =>
      subst ha
      rw [hs.await_ok h.initialized (hctl.awaiting rfl) hpc, Point.after]
      simp only
      exact ⟨⟨hg, rfl⟩, (by rintro ⟨⟩)⟩
  | acquiring =>
    cases callEvent s.sync sync a t with
    | none | unwound => exact ⟨trivial, (by rintro ⟨⟩)⟩
    | returned =>
      simp only [Point.after]
      split <;> exact ⟨trivial, (by rintro ⟨⟩)⟩
  | _ =>
    cases callEvent s.sync sync a t with
    | unwound => exact ⟨trivial, (by rintro ⟨⟩)⟩
    | none | returned => first | exact ⟨hg, (by rintro ⟨⟩)⟩ | exact ⟨trivial, (by rintro ⟨⟩)⟩

theorem Results.sees (h : Results b s) (hsafe : Safe b home s) (hperm : s.permits b a = true)
    (hs : GnuPth.Step home ops s.sync a sync) : Results b (s.sees b a sync) := by
  refine ⟨(hs.cond_initialized b.cond).trans h.initialized,
    fun t => (h.after hsafe hperm hs t).2, fun t => (h.after hsafe hperm hs t).1, fun q hq => ?_⟩
  rcases List.mem_append.mp hq with hq | hq
  · rcases passes_cases (b := b) s a sync with hnil | ⟨t, rv, hpass, hpt, -⟩
    · rw [hnil] at hq
      cases hq
    · have hg := h.graded t
      rw [hpt] at hg
      rw [hpass, List.mem_singleton] at hq
      rw [hq]
      exact hg
  · exact h.returned q hq

theorem Results.move (h : Results b s) (hc : Calls home s.sync sync t)
    (hnote : p = .notifying → (sync.tcb t).pc.InNotify b.cond true)
    (hg : p.Graded b count (index t))
    (hothers : ∀ u, u ≠ t → (s.point u).Graded b count (index u)) :
    Results b { s with sync, count, cycle, arrivals, index, point := update s.point t p } := by
  refine ⟨?_, fun u hu => ?_, fun u => ?_, h.returned⟩
  · rcases hc with rfl | ⟨ops, a, -, hs⟩
    · exact h.initialized
    · exact (hs.cond_initialized b.cond).trans h.initialized
  · by_cases hut : u = t
    · subst hut
      exact hnote (by simpa using hu)
    · have hin := h.notifying u (by simpa [hut] using hu)
      rcases hc with rfl | ⟨ops, a, ha, hs⟩
      · exact hin
      · have hne : a.actor ≠ some u := by
          rw [ha]
          exact fun he => hut (Option.some.inj he).symm
        exact (hs.pc_of_ne hne).symm ▸ hin
  · by_cases hut : u = t
    · subst hut
      simpa using hg
    · simpa [hut] using hothers u hut

theorem Results.others (h : Results b s) (hsafe : Safe b home s)
    (hin : (s.point t).inside = true) (u : Tid) (hu : u ≠ t) :
    (s.point u).Graded b count (s.index u) :=
  (h.graded u).outside (hsafe.alone hin hu)

theorem Results.last (h : Results b s) (hsafe : Safe b home s)
    (hp : s.point t = .counting cycle) (hc : s.count = 1) :
    Results b ((s.arrive t).goto t .flipping) := by
  have hin : (s.point t).inside = true := by rw [hp]; rfl
  have hlast : (s.point t).last = false := by rw [hp]; rfl
  have hcount := hsafe.count (hsafe.not_last hin hlast)
  refine h.move (.refl home) nofun ?_ fun u hu => ?_
  · rw [arrive_index_self]
    show s.arrivals % b.threshold + 1 = b.threshold
    omega
  · rw [arrive_index_of_ne hu]
    exact h.others hsafe hin u hu

theorem Results.arrive (h : Results b s)
    (hsafe : Safe b home s) (hp : s.point t = .counting cycle) (hc : s.count ≠ 1)
    (hs : GnuPth.Step home ops s.sync (.cancelState t false false) sync) :
    Results b { s.arrive t with sync, point := update s.point t (.grading cycle cancel) } := by
  have hin : (s.point t).inside = true := by rw [hp]; rfl
  have hlast : (s.point t).last = false := by rw [hp]; rfl
  have hcount := hsafe.count (hsafe.not_last hin hlast)
  refine h.move (.of_step hs rfl) nofun ?_ fun u hu => ?_
  · rw [arrive_index_self]
    constructor
    · show ¬s.arrivals % b.threshold + 1 = b.threshold
      omega
    · show s.count - 1 ≠ b.threshold
      omega
  · rw [arrive_index_of_ne hu]
    exact h.others hsafe hin u hu

theorem Results.step (h : Results b s) (hsafe : Safe b home s)
    (hs : Step b home ops s a s') : Results b s' := by
  cases hs with
  | sync hp hs => exact h.sees hsafe hp hs
  | last hp hc => exact h.last hsafe hp hc
  | count hp hc hs => exact h.arrive hsafe hp hc hs
  | reach hp hs => exact h.move (.of_step hs rfl) (by rintro ⟨⟩) trivial fun u _ => h.graded u
  | read => exact h.move (.refl home) (by rintro ⟨⟩) trivial fun u _ => h.graded u
  | @flip t hp =>
    have hg := h.graded t
    rw [hp] at hg
    exact h.move (.refl home) (by rintro ⟨⟩) hg fun u _ => h.graded u
  | @reset t sync hp hs =>
    have hg := h.graded t
    rw [hp] at hg
    refine h.move (.of_step hs rfl) (fun _ => ?_) hg (h.others hsafe (by rw [hp]; rfl))
    cases hs with
    | call _ _ he =>
      cases he
      simp [Pc.InNotify]
  | @grade t cycle cancel hp =>
    have hg := h.graded t
    rw [hp] at hg
    refine h.move (.refl home) (by rintro ⟨⟩) ?_ fun u _ => h.graded u
    exact ⟨hg.1, if_neg (Ne.symm hg.2)⟩
  | @await t cycle cancel rv sync hp hc hs =>
    have hg := h.graded t
    rw [hp] at hg
    exact h.move (.of_step hs rfl) (by rintro ⟨⟩) hg.1 fun u _ => h.graded u
  | @pass t cycle cancel rv sync hp hc hs =>
    have hg := h.graded t
    rw [hp] at hg
    refine h.move (.of_step hs rfl) (by rintro ⟨⟩) ?_ fun u _ => h.graded u
    exact hg.2.trans (if_neg hg.1).symm
  | @restore t cancel rv sync hp =>
    have hg := h.graded t
    rw [hp] at hg
    cases hg
  | @release t rv sync hp hs =>
    have hg := h.graded t
    rw [hp] at hg
    exact h.move (.of_step hs rfl) (by rintro ⟨⟩) hg fun u _ => h.graded u

end

section
variable {b : Barrier}

theorem numbered_of_reachable (h : Reachable (system b home) s) : Numbered s := by
  refine h.invariant ?_ ?_
  · rintro s ⟨cfg, -, -, rfl⟩
    exact ⟨nofun, nofun, nofun, nofun, List.nodup_nil⟩
  · rintro s a s' h ⟨fuel, hs⟩
    exact h.step (exec_rule hs)

theorem results_of_reachable (h : Reachable (system b home) s) : Results b s := by
  refine h.invariant_of_reachable ?_ ?_
  · rintro s ⟨cfg, -, hi, rfl⟩
    exact ⟨hi, nofun, fun _ => trivial, nofun⟩
  · rintro s a s' hr h ⟨fuel, hs⟩
    exact h.step (safe_of_reachable hr) (exec_rule hs)

end

end Barrier

end GnuPth
