import GnuPth.Sync.Ends

/-!
# Wakeups and the threads they are for

A thread that parks has exactly one wakeup coming. It is on the queue, then on
the private chain or in the hand of the thread that dequeued it, then in the
inbox of its scheduler: the four kinds of places are disjoint. A thread that
leaves its wait for another reason has to be on the queue still, or to have
had its wakeup; otherwise the message outlives the wait, and possibly the
thread. `Timely` rules that out, and under it every wakeup under way is for a
thread in its wait.
-/

namespace GnuPth

open Function (update update_eq_self)
open Transition
open Placement

/-! ### Places -/

inductive Place
  | slot (i : Slot)
  | hand (t : Tid)
  | inbox (g : SchedId)
  deriving DecidableEq

def Msg.wakes : Msg → Option Tid
  | .wake w _ => some w
  | .reap _ => none

def places (s : State WaitLists) : Place → List Tid
  | .slot i => s.store i
  | .hand t => (s.tcb t).pc.hand
  | .inbox g => (s.inbox g).filterMap Msg.wakes

@[simp] theorem places_slot (s : State WaitLists) (i : Slot) : places s (.slot i) = s.store i := rfl

@[simp] theorem places_hand (s : State WaitLists) (t : Tid) :
    places s (.hand t) = (s.tcb t).pc.hand := rfl

@[simp] theorem places_inbox (s : State WaitLists) (g : SchedId) :
    places s (.inbox g) = (s.inbox g).filterMap Msg.wakes := rfl

structure Tokens (s : State WaitLists) : Prop where
  linear : Linear (places s)
  expects : ∀ {u p}, u ∈ places s p → (s.tcb u).Expects
  event : ∀ {g u ev}, .wake u ev ∈ s.inbox g → ev = (s.tcb u).wqEvent

/-- No thread leaves a wait while its wakeup is under way: it is on the queue
still, or its event has occurred. -/
def TimelyStep (s : State WaitLists) (a : Act) : Prop :=
  ∀ t q, a = .step t → (s.tcb t).pc.leaves = some q →
    t ∈ s.store (.queue q) ∨ (s.tcb t).status q.key ≠ .pending

section
variable {s : State WaitLists}

theorem mem_inbox_places :
    u ∈ places s (.inbox g) ↔ ∃ ev, .wake u ev ∈ s.inbox g := by
  simp only [places_inbox, List.mem_filterMap]
  constructor
  · rintro ⟨msg, hm, he⟩
    cases msg with
    | wake w ev => cases he; exact ⟨ev, hm⟩
    | reap => cases he
  · rintro ⟨ev, hm⟩
    exact ⟨_, hm, rfl⟩

theorem Tokens.free (inv : Tokens s) (hn : ¬(s.tcb t).Expects) (p : Place) : t ∉ places s p :=
  fun ht => hn (inv.expects ht)

theorem not_expects_of_parkedOn (h : (s.tcb t).pc.parkedOn = none) : ¬(s.tcb t).Expects := by
  rintro ⟨q, hq, -⟩
  rw [h] at hq
  cases hq

/-- Of a thread that leaves in time, there is at most the place on its queue. -/
theorem Tokens.leaves (inv : Tokens s) (ht : TimelyStep s (.step t))
    (hl : (s.tcb t).pc.leaves = some q) (hp : t ∈ places s p) :
    p = .slot (.queue q) := by
  obtain ⟨hpk, hen, -⟩ := Pc.of_leaves hl
  rcases ht t q rfl hl with hq | hst
  · exact inv.linear.unique hp hq
  · obtain ⟨q', hq', -, hpend | hen'⟩ := inv.expects hp
    · obtain rfl := Option.some.inj (hpk.symm.trans hq')
      exact absurd hpend hst
    · rw [hen] at hen'
      cases hen'

theorem not_expects_of_leaves (ht : TimelyStep s (.step t)) (hl : (s.tcb t).pc.leaves = some q)
    (hq : t ∉ s.store (.queue q)) : ¬(s.tcb t).Expects := by
  obtain ⟨hpk, hen, -⟩ := Pc.of_leaves hl
  rintro ⟨q', hq', -, hpend | hen'⟩
  · obtain rfl := Option.some.inj (hpk.symm.trans hq')
    exact (ht t q rfl hl).elim hq fun hst => hst hpend
  · rw [hen] at hen'
    cases hen'

/-! ### What each kind of step keeps -/

theorem Tokens.of_step (inv : Tokens s) (h : Step home listOps s a s') (ha : a.actor = some t)
    (hlin : Linear (places s'))
    (hmem : ∀ u p, u ≠ t → u ∈ places s' p → ∃ p', u ∈ places s p')
    (ht : ∀ p, t ∈ places s' p → (s'.tcb t).Expects)
    (hev : ∀ g u ev, .wake u ev ∈ s'.inbox g → ev = (s'.tcb u).wqEvent) : Tokens s' := by
  refine ⟨hlin, fun {u p} hu => ?_, hev _ _ _⟩
  by_cases hut : u = t
  · subst hut
    exact ht p hu
  · obtain ⟨p', hp'⟩ := hmem u p hut hu
    rw [h.tcb_of_ne ha hut]
    exact inv.expects hp'

theorem Step.hand_of_ne (h : Step home listOps s a s') (ha : a.actor = some t) (hu : u ≠ t) :
    (s'.tcb u).pc.hand = (s.tcb u).pc.hand := by
  rw [h.tcb_of_ne ha hu]

theorem Step.wqEvent_of_eq (h : Step home listOps s a s') (ha : a.actor = some t)
    (he : (s'.tcb t).wqEvent = (s.tcb t).wqEvent) (u : Tid) :
    (s'.tcb u).wqEvent = (s.tcb u).wqEvent := by
  by_cases hu : u = t
  · rw [hu, he]
  · rw [h.tcb_of_ne ha hu]

theorem Step.places_slot (h : Step home listOps s a s') (ha : a.actor = some t)
    (hs : s'.store = update s.store i xs) (hi : s'.inbox = s.inbox)
    (hh : (s'.tcb t).pc.hand = (s.tcb t).pc.hand) :
    places s' = update (places s) (.slot i) xs := by
  funext p
  cases p with
  | slot j =>
    by_cases hj : j = i
    · subst hj; simp [hs]
    · simp [hs, hj]
  | hand u =>
    by_cases hu : u = t
    · subst hu; simpa using hh
    · simpa using h.hand_of_ne ha hu
  | inbox => simp [hi]

theorem Tokens.keep (inv : Tokens s) (h : Step home listOps s a s') (ha : a.actor = some t)
    (hs : s'.store = s.store) (hi : s'.inbox = s.inbox)
    (hh : (s'.tcb t).pc.hand = (s.tcb t).pc.hand)
    (he : (s'.tcb t).wqEvent = (s.tcb t).wqEvent)
    (hE : (s.tcb t).Expects → (s'.tcb t).Expects) : Tokens s' := by
  have hp : places s' = places s := by
    rw [h.places_slot ha (i := .queue (.join 0)) (by rw [hs, update_eq_self]) hi hh]
    exact update_eq_self _ _
  refine inv.of_step h ha ?_ ?_ ?_ ?_
  · rw [hp]; exact inv.linear
  · exact fun u p _ hu => ⟨p, hp ▸ hu⟩
  · exact fun p ht => hE (inv.expects (hp ▸ ht))
  · intro g u ev hm
    rw [hi] at hm
    rw [h.wqEvent_of_eq ha he, inv.event hm]

theorem Tokens.park (inv : Tokens s) (h : Step home listOps s a s') (ha : a.actor = some t)
    (hf : ∀ p, t ∉ places s p)
    (hs : s'.store = update s.store (.queue q) (s.store (.queue q) ++ [t]))
    (hi : s'.inbox = s.inbox) (hh : (s'.tcb t).pc.hand = (s.tcb t).pc.hand)
    (hE : (s'.tcb t).Expects) : Tokens s' := by
  have hp := h.places_slot ha hs hi hh
  refine inv.of_step h ha ?_ ?_ (fun _ _ => hE) ?_
  · rw [hp]
    exact inv.linear.append hf
  · intro u p hut hu
    rw [hp] at hu
    by_cases hpq : p = .slot (.queue q)
    · subst hpq
      rcases List.mem_append.mp (by simpa using hu : u ∈ s.store (.queue q) ++ [t]) with hu | hu
      · exact ⟨.slot (.queue q), hu⟩
      · exact absurd (List.mem_singleton.mp hu) hut
    · exact ⟨p, by simpa [hpq] using hu⟩
  · intro g u ev hm
    rw [hi] at hm
    have hut : u ≠ t := by
      rintro rfl
      exact hf (.inbox g) (mem_inbox_places.mpr ⟨ev, hm⟩)
    rw [h.tcb_of_ne ha hut, inv.event hm]

theorem Tokens.remove (inv : Tokens s) (h : Step home listOps s (.step t) s')
    (hl : (s.tcb t).pc.leaves = some q) (ht : TimelyStep s (.step t))
    (hs : s'.store = update s.store (.queue q) ((s.store (.queue q)).erase t))
    (hi : s'.inbox = s.inbox) (hh : (s'.tcb t).pc.hand = [])
    (he : (s'.tcb t).wqEvent = (s.tcb t).wqEvent) : Tokens s' := by
  have hp := h.places_slot rfl hs hi (hh.trans (Pc.of_leaves hl).2.2.hand.symm)
  refine inv.of_step h rfl ?_ ?_ ?_ ?_
  · rw [hp]
    exact inv.linear.sublist List.erase_sublist
  · intro u p hut hu
    rw [hp] at hu
    by_cases hpq : p = .slot (.queue q)
    · subst hpq
      exact ⟨.slot (.queue q), List.mem_of_mem_erase (by simpa using hu)⟩
    · exact ⟨p, by simpa [hpq] using hu⟩
  · intro p htp
    rw [hp] at htp
    by_cases hpq : p = .slot (.queue q)
    · subst hpq
      exact absurd (by simpa using htp) (inv.linear.nodup (.slot (.queue q))).not_mem_erase
    · exact absurd (inv.leaves ht hl (by simpa [hpq] using htp)) hpq
  · intro g u ev hm
    rw [hi] at hm
    rw [h.wqEvent_of_eq rfl he, inv.event hm]

theorem Tokens.repark (inv : Tokens s) (h : Step home listOps s (.step t) s')
    (hl : (s.tcb t).pc.leaves = some q) (ht : TimelyStep s (.step t))
    (hs : s'.store = update s.store (.queue q) ((s.store (.queue q)).erase t ++ [t]))
    (hi : s'.inbox = s.inbox) (hh : (s'.tcb t).pc.hand = []) (hE : (s'.tcb t).Expects) :
    Tokens s' := by
  have hp := h.places_slot rfl hs hi (hh.trans (Pc.of_leaves hl).2.2.hand.symm)
  have hfree : ∀ p, t ∉ update (places s) (.slot (.queue q)) ((s.store (.queue q)).erase t) p := by
    intro p htp
    by_cases hpq : p = .slot (.queue q)
    · subst hpq
      exact absurd (by simpa using htp) (inv.linear.nodup (.slot (.queue q))).not_mem_erase
    · exact absurd (inv.leaves ht hl (by simpa [hpq] using htp)) hpq
  refine inv.of_step h rfl ?_ ?_ (fun _ _ => hE) ?_
  · rw [hp]
    have hsub := inv.linear.sublist (i := .slot (.queue q)) (List.erase_sublist (a := t))
    simpa using hsub.append (i := .slot (.queue q)) hfree
  · intro u p hut hu
    rw [hp] at hu
    by_cases hpq : p = .slot (.queue q)
    · subst hpq
      have hu : u ∈ (s.store (.queue q)).erase t ∨ u = t := by simpa using hu
      exact ⟨.slot (.queue q), List.mem_of_mem_erase (hu.resolve_right hut)⟩
    · exact ⟨p, by simpa [hpq] using hu⟩
  · intro g u ev hm
    rw [hi] at hm
    have hut : u ≠ t := by
      rintro rfl
      cases inv.leaves ht hl (mem_inbox_places.mpr ⟨ev, hm⟩)
    rw [h.tcb_of_ne rfl hut, inv.event hm]

theorem Tokens.take (inv : Tokens s) (h : Step home listOps s a s') (ha : a.actor = some t)
    (hw : s.store i = w :: ws) (hs : s'.store = update s.store i ws)
    (hi : s'.inbox = s.inbox) (hh : (s'.tcb t).pc.hand = [w])
    (he : (s'.tcb t).wqEvent = (s.tcb t).wqEvent)
    (hE : (s.tcb t).Expects → (s'.tcb t).Expects) : Tokens s' := by
  have hp : places s' = update (update (places s) (.slot i) ws) (.hand t) [w] := by
    funext p
    cases p with
    | slot j =>
      by_cases hj : j = i
      · subst hj; simp [hs]
      · simp [hs, hj]
    | hand u =>
      by_cases hu : u = t
      · subst hu; simpa using hh
      · simpa [hu] using h.hand_of_ne ha hu
    | inbox => simp [hi]
  have hmem : ∀ u p, u ∈ places s' p → ∃ p', u ∈ places s p' := by
    intro u p hu
    rw [hp] at hu
    by_cases hpt : p = .hand t
    · subst hpt
      obtain rfl : u = w := by simpa using hu
      exact ⟨.slot i, by simp [hw]⟩
    · by_cases hpi : p = .slot i
      · subst hpi
        exact ⟨.slot i, by simpa [hw] using .inr (by simpa using hu)⟩
      · exact ⟨p, by simpa [hpt, hpi] using hu⟩
  refine inv.of_step h ha ?_ (fun u p _ => hmem u p) ?_ ?_
  · rw [hp]
    have hw' : places s (.slot i) = w :: ws := hw
    exact inv.linear.move hw'
  · intro p ht
    obtain ⟨p', hp'⟩ := hmem t p ht
    exact hE (inv.expects hp')
  · intro g u ev hm
    rw [hi] at hm
    rw [h.wqEvent_of_eq ha he, inv.event hm]

theorem Tokens.post (inv : Tokens s) (h : Step home listOps s a s')
    (ha : a.actor = some t) (hs : s'.store = s.store) (hpc : (s.tcb t).pc = .post w k)
    (hi : s'.inbox = (gschedWake home s w).inbox) (hh : (s'.tcb t).pc.hand = [])
    (he : (s'.tcb t).wqEvent = (s.tcb t).wqEvent)
    (hE : (s.tcb t).Expects → (s'.tcb t).Expects) : Tokens s' := by
  have hp : places s' = update (update (places s) (.hand t) []) (.inbox (home w))
      (update (places s) (.hand t) [] (.inbox (home w)) ++ [w]) := by
    funext p
    cases p with
    | slot => simp [hs]
    | hand u =>
      by_cases hu : u = t
      · subst hu; simp [hh]
      · simpa [hu] using h.hand_of_ne ha hu
    | inbox g =>
      by_cases hg : g = home w
      · subst hg; simp [hi, Msg.wakes]
      · simp [hi, hg]
  have hw : places s (.hand t) = [w] := by simp [hpc, Pc.hand]
  have hmem : ∀ u p, u ∈ places s' p → ∃ p', u ∈ places s p' := by
    intro u p hu
    rw [hp] at hu
    by_cases hpi : p = .inbox (home w)
    · subst hpi
      have hu : u ∈ places s (.inbox (home w)) ∨ u = w := by simpa using hu
      rcases hu with hu | rfl
      · exact ⟨_, hu⟩
      · exact ⟨.hand t, by rw [hw]; exact List.mem_singleton_self u⟩
    · by_cases hpt : p = .hand t
      · subst hpt; simp at hu
      · exact ⟨p, by simpa [hpi, hpt] using hu⟩
  refine inv.of_step h ha ?_ (fun u p _ => hmem u p) ?_ ?_
  · rw [hp]
    refine (inv.linear.sublist (List.nil_sublist _)).append ?_
    exact inv.linear.free_of_dropped (by rw [hw]; exact List.mem_singleton_self w) (by simp)
  · intro p ht
    obtain ⟨p', hp'⟩ := hmem t p ht
    exact hE (inv.expects hp')
  · intro g' u ev hm
    rw [h.wqEvent_of_eq ha he]
    rw [hi] at hm
    by_cases hg : g' = home w
    · subst hg
      have hm : .wake u ev ∈ s.inbox (home w) ∨ u = w ∧ ev = (s.tcb w).wqEvent := by simpa using hm
      rcases hm with hm | ⟨rfl, rfl⟩
      · exact inv.event hm
      · rfl
    · exact inv.event (by simpa [hg] using hm)

theorem Tokens.reap (inv : Tokens s) (h : Step home listOps s a s')
    (ha : a.actor = some t) (hs : s'.store = s.store) (hpc : (s.tcb t).pc = .joinReap tid v)
    (hi : s'.inbox = (joinReap home s t tid v).inbox) (hh : (s'.tcb t).pc.hand = [])
    (he : (s'.tcb t).wqEvent = (s.tcb t).wqEvent) : Tokens s' := by
  have hn : ¬(s.tcb t).Expects := not_expects_of_parkedOn (by rw [hpc]; rfl)
  have hp : places s' = places s := by
    funext p
    cases p with
    | slot => simp [hs]
    | hand u =>
      by_cases hu : u = t
      · subst hu; simpa [hpc, Pc.hand] using hh
      · simpa using h.hand_of_ne ha hu
    | inbox g =>
      by_cases hg : g = home tid
      · subst hg; simp [hi, Msg.wakes]
      · simp [hi, hg]
  refine inv.of_step h ha ?_ ?_ ?_ ?_
  · rw [hp]; exact inv.linear
  · exact fun u p _ hu => ⟨p, hp ▸ hu⟩
  · exact fun p ht => absurd (inv.expects (hp ▸ ht)) hn
  · intro g u ev hm
    rw [h.wqEvent_of_eq ha he]
    rw [hi] at hm
    by_cases hg : g = home tid
    · subst hg
      exact inv.event (by simpa using hm)
    · exact inv.event (by simpa [hg] using hm)

theorem Tokens.herd (inv : Tokens s) (h : Step home listOps s a s') (ha : a.actor = some t)
    (hs : s'.store = update (update s.store (.queue q) []) (.chain t) (s.store (.queue q)).reverse)
    (hi : s'.inbox = s.inbox) (hh : (s'.tcb t).pc.hand = (s.tcb t).pc.hand)
    (he : (s'.tcb t).wqEvent = (s.tcb t).wqEvent) (hn : ¬(s.tcb t).Expects) : Tokens s' := by
  have hp : places s' = update (update (places s) (.slot (.queue q)) []) (.slot (.chain t))
      (s.store (.queue q)).reverse := by
    funext p
    cases p with
    | slot j =>
      by_cases hj : j = .chain t
      · subst hj; simp [hs]
      · by_cases hjq : j = .queue q
        · subst hjq; simp [hs]
        · simp [hs, hj, hjq]
    | hand u =>
      by_cases hu : u = t
      · subst hu; simpa using hh
      · simpa using h.hand_of_ne ha hu
    | inbox => simp [hi]
  have hmem : ∀ u p, u ∈ places s' p → ∃ p', u ∈ places s p' := by
    intro u p hu
    rw [hp] at hu
    by_cases hpt : p = .slot (.chain t)
    · subst hpt
      exact ⟨.slot (.queue q), by simpa using hu⟩
    · by_cases hpq : p = .slot (.queue q)
      · subst hpq; simp at hu
      · exact ⟨p, by simpa [hpt, hpq] using hu⟩
  refine inv.of_step h ha ?_ (fun u p _ => hmem u p) ?_ ?_
  · rw [hp]
    exact inv.linear.transfer (List.reverse_perm _)
  · intro p ht
    obtain ⟨p', hp'⟩ := hmem t p ht
    exact absurd (inv.expects hp') hn
  · intro g u ev hm
    rw [hi] at hm
    rw [h.wqEvent_of_eq ha he, inv.event hm]

theorem filterMap_wakes (ws : List Tid) : (s.wakes ws).filterMap Msg.wakes = ws := by
  induction ws with
  | nil => rfl
  | cons w ws ih => simpa [State.wakes, Msg.wakes] using ih

theorem Tokens.die (inv : Tokens s) (h : Step home listOps s a s') (ha : a.actor = some t)
    (hs : s'.store = update s.store (.queue (.join t)) [])
    (hi : s'.inbox = fun g =>
      s.inbox g ++ s.wakes ((s.store (.queue (.join t))).filter (home · = g)))
    (hh : (s'.tcb t).pc.hand = (s.tcb t).pc.hand)
    (he : (s'.tcb t).wqEvent = (s.tcb t).wqEvent) (hn : ¬(s.tcb t).Expects) : Tokens s' := by
  have hslot : ∀ j, j ≠ .queue (.join t) → places s' (.slot j) = places s (.slot j) := by
    intro j hj
    simp [hs, hj]
  have hhand : ∀ u, places s' (.hand u) = places s (.hand u) := by
    intro u
    by_cases hu : u = t
    · subst hu; simpa using hh
    · simpa using h.hand_of_ne ha hu
  have hinbox : ∀ g, places s' (.inbox g) =
      places s (.inbox g) ++ (s.store (.queue (.join t))).filter (home · = g) := by
    intro g
    rw [places_inbox, hi, List.filterMap_append, filterMap_wakes, places_inbox]
  have hmem : ∀ u p, u ∈ places s' p → ∃ p', u ∈ places s p' := by
    intro u p hu
    cases p with
    | slot j =>
      by_cases hj : j = .queue (.join t)
      · subst hj; simp [hs] at hu
      · exact ⟨_, hslot j hj ▸ hu⟩
    | hand v => exact ⟨_, hhand v ▸ hu⟩
    | inbox =>
      rw [hinbox] at hu
      rcases List.mem_append.mp hu with hu | hu
      · exact ⟨_, hu⟩
      · exact ⟨.slot (.queue (.join t)), (List.mem_filter.mp hu).1⟩
  refine inv.of_step h ha ?_ (fun u p _ => hmem u p) ?_ ?_
  · refine inv.linear.scatter (fun x => .inbox (home x)) (i := .slot (.queue (.join t)))
      (by simp [hs]) (by simp) (fun p x => decide (.inbox (home x) = p)) (by simp) fun p hpq => ?_
    cases p with
    | slot j => simpa using hslot j (by rintro rfl; exact hpq rfl)
    | hand u => simpa using hhand u
    | inbox g => simpa using hinbox g
  · intro p ht
    obtain ⟨p', hp'⟩ := hmem t p ht
    exact absurd (inv.expects hp') hn
  · intro g u ev hm
    rw [h.wqEvent_of_eq ha he]
    rw [hi] at hm
    rcases List.mem_append.mp hm with hm | hm
    · exact inv.event hm
    · obtain ⟨w, -, hw⟩ := List.mem_map.mp hm
      cases hw
      rfl

theorem Tokens.drain (inv : Tokens s) (g : SchedId) :
    Tokens { s with
      tcb := fun u => (s.tcb u).drained (s.inbox g) u, inbox := update s.inbox g [] } := by
  set s' := ({ s with
    tcb := fun u => (s.tcb u).drained (s.inbox g) u, inbox := update s.inbox g [] } :
      State WaitLists) with hs'
  have hp : places s' = update (places s) (.inbox g) [] := by
    funext p
    cases p with
    | slot => simp [hs']
    | hand => simp [hs']
    | inbox g' =>
      by_cases hg : g' = g
      · subst hg; simp [hs']
      · simp [hs', hg]
  refine ⟨?_, fun {u p} hu => ?_, fun {g' u ev} hm => ?_⟩
  · rw [hp]
    exact inv.linear.sublist (List.nil_sublist _)
  · rw [hp] at hu
    have hpg : p ≠ .inbox g := by
      rintro rfl
      simp at hu
    have hu' : u ∈ places s p := by simpa [hpg] using hu
    -- the message of `u` is elsewhere, so the drain leaves its events alone
    have hn : ∀ ev, .wake u ev ∉ s.inbox g := fun ev hm =>
      inv.linear.notMem_of_ne hpg hu' (mem_inbox_places.mpr ⟨ev, hm⟩)
    obtain ⟨q, hq, hev, hst⟩ := inv.expects hu'
    refine ⟨q, hq, hev, hst.imp_left fun hst => ?_⟩
    simpa [hs', hn] using hst
  · have hg : g' ≠ g := by
      rintro rfl
      simp [hs'] at hm
    exact inv.event (by simpa [hs', hg] using hm)

/-! ### Steps -/

theorem StaysPut.expects (hstay : StaysPut s s' a t) (hm : ∀ m, (mutexView m s).Ok)
    (ht : TimelyStep s a) (hE : (s.tcb t).Expects) : (s'.tcb t).Expects := by
  rcases hstay with hn | ⟨-, h⟩ | ⟨rfl, m, hl, ho⟩
  · exact absurd hE (not_expects_of_parkedOn hn)
  · exact h hE
  · exact absurd hE (not_expects_of_leaves ht hl ((hm m).owner t ho))

theorem Tcb.Parked.toExpects {b : Tcb} (h : b.Parked q) : b.Expects :=
  ⟨q, h.parkedOn, h.wqEvent, h.expects⟩

theorem Tokens.step (inv : Tokens s) (hm : ∀ m, (mutexView m s).Ok) (hp : Placed s)
    (hsafe : SafeStep s a) (ht : TimelyStep s a) (h : Step home listOps s a s') : Tokens s' := by
  cases h.listStep with
  | drain hs =>
    subst hs
    exact inv.drain _
  | keep ha hs he hsend hstay =>
    have hE := hstay.expects hm ht
    cases hsend with
    | none hi hh =>
      refine inv.keep h ha hs hi ?_ he hE
      rcases hh with hh | ⟨hh, hh'⟩
      · rw [hh]
      · rw [hh, hh']
    | wake hpc hi hh => exact inv.post h ha hs hpc hi hh he hE
    | reap hpc hi hh => exact inv.reap h ha hs hpc hi hh he
  | @park t q hk hq hfrom hs hi hb =>
    have hn : ¬(s.tcb t).Expects := by
      rcases hfrom with hpk | ⟨m, tryonly, extra, c, hpc⟩
      · exact not_expects_of_parkedOn hpk
      · exact not_expects_of_leaves ht (by rw [hpc]; rfl) ((hsafe _ rfl hk).2 m tryonly extra c hpc)
    refine inv.park h rfl (inv.free hn) hs hi ?_ hb.toExpects
    rw [hb.idle.hand, (Pc.idle_of_parksOn hq).hand]
  | repark _ _ hl hs hi hb => exact inv.repark h hl ht hs hi hb.idle.hand hb.toExpects
  | leave hl hs hi he hpc' => exact inv.remove h hl ht hs hi hpc'.hand he
  | leaveBoth hpc h₁ h₂ hi he hpc' =>
    exact inv.remove h (by rw [hpc]; rfl) ht (hp.rwlockCleanup_store hpc h₁ h₂) hi
      (by rw [hpc']; rfl) he
  | shift hpc hpc' hq hs hi he hstay =>
    exact inv.take h rfl hq hs hi (by rw [hpc']; rfl) he (hstay.expects hm ht)
  | herd hpc hpc' hs hi he =>
    exact inv.herd h rfl hs hi (by rw [hpc, hpc']; rfl) he
      (not_expects_of_parkedOn (by rw [hpc]; rfl))
  | @unchain t r w chain hpc hpc' hs hi he =>
    have hn : ¬(s.tcb t).Expects := not_expects_of_parkedOn (by rw [hpc]; rfl)
    have hch := hp.chains t
    rw [hpc] at hch
    obtain ⟨ws, hws, -⟩ := hch
    exact inv.take h rfl hws (by rw [hs, hws, List.tail_cons]) hi (by rw [hpc']; rfl) he
      fun hE => absurd hE hn
  | die hpc hpc' _ hs hi he =>
    exact inv.die h rfl hs hi (by rw [hpc, hpc']; rfl) he (not_expects_of_parkedOn (by rw [hpc]; rfl))

end

/-! ### The owners of wakeups -/

def Timely (s : State WaitLinks) (a : Act) : Prop :=
  ∀ t q, a = .step t → (s.tcb t).pc.leaves = some q →
    OnList s t (.queue q) ∨ (s.tcb t).status q.key ≠ .pending

def WakeSafe (s : State WaitLinks) (a : Act) : Prop :=
  LinkSafe s a ∧ Timely s a ∧ AwaitsDeath s a

/-- A wakeup of `u` is in an inbox, or is about to be posted by a thread that has
dequeued `u`. -/
def WakeDue (s : State WaitLinks) (u : Tid) : Prop :=
  (∃ g ev, .wake u ev ∈ s.inbox g) ∨ (∃ t k, (s.tcb t).pc = .post u k) ∨ ∃ t, OnList s u (.chain t)

theorem Pc.cleanedUp_of_parkedOn {pc : Pc} (h : pc.parkedOn = some q) :
    pc.cleanedUp = false := by
  unfold Pc.parkedOn at h
  split at h <;> first | rfl | cases h

section
variable {home : Tid → SchedId}

theorem Timely.lists (h : Timely s a) (hr : Refines s l)
    (hl : Reachable ((listSystem home).restrict SafeStep) l) : TimelyStep l a := by
  intro t q ha hq
  rw [hr.tcb] at hq ⊢
  exact (h t q ha hq).imp_left (hr.onList hl _).mp

theorem tokens_initial (cfg : Config) : Tokens (initial (fun _ => []) cfg) where
  linear := by
    refine ⟨fun p => ?_, fun {p p' t} ht => ?_⟩
    · cases p <;> exact List.nodup_nil
    · cases p <;> cases ht
  expects {u p} hu := by cases p <;> cases hu
  event hm := by cases hm

theorem tokens_of_reachable (h : Reachable ((pthSystem home).restrict WakeSafe) s) :
    ∃ l, Reachable ((listSystem home).restrict SafeStep) l ∧ Refines s l ∧ Tokens l ∧ Ends l := by
  have hsim := (refines home).mono (P := WakeSafe) fun _ _ _ h => h.1
  refine hsim.invariant ?_ ?_ h
  · rintro _ ⟨cfg, rfl⟩
    exact ⟨tokens_initial cfg, ends_initial _ cfg⟩
  · rintro s l a s' l' - hl hr ⟨htok, hend⟩ ⟨⟨-, ht, hd⟩, -⟩ ⟨hsafe, hstep⟩ -
    refine ⟨?_, hend.step (hd.lists hr) hstep⟩
    exact htok.step (fun m => mutexView_ok hl.of_restrict) (placed_reachable hl) hsafe
      (ht.lists hr hl) hstep

/-- In every run in which threads leave their waits in time, a wakeup under way
is for a thread that has not been cleaned up or freed, and it names the event of
the wait that the thread is in. -/
theorem wakeup_owner_alive (h : Reachable ((pthSystem home).restrict WakeSafe) s)
    (hu : WakeDue s u) :
    (s.tcb u).pc.cleanedUp = false ∧ (s.tcb u).freed = false ∧
    ∃ q, (s.tcb u).pc.parkedOn = some q ∧ ∀ g ev, .wake u ev ∈ s.inbox g → ev = some q.key := by
  obtain ⟨l, hl, hr, htok, hend⟩ := tokens_of_reachable h
  have hplace : ∃ p, u ∈ places l p := by
    rcases hu with ⟨g, ev, hm⟩ | ⟨t, k, hpc⟩ | ⟨t, hc⟩
    · exact ⟨.inbox g, mem_inbox_places.mpr ⟨ev, by rwa [hr.inbox]⟩⟩
    · exact ⟨.hand t, by simp [hr.tcb, hpc, Pc.hand]⟩
    · exact ⟨.slot (.chain t), (hr.onList hl _).mp hc⟩
  obtain ⟨p, hp⟩ := hplace
  obtain ⟨q, hq, hev, -⟩ := htok.expects hp
  rw [← hr.tcb, ← hr.inbox]
  have hc := Pc.cleanedUp_of_parkedOn hq
  refine ⟨hc, ?_, q, hq, fun g ev hm => (htok.event hm).trans hev⟩
  by_contra hf
  rw [hend.freed (by simpa using hf)] at hc
  cases hc

/-- A check that implies `WakeSafe`: mutexes only, and nobody comes out of a wait. -/
def staysParked (s : State WaitLinks) (a : Act) : Bool :=
  a.mutexOnly && match a with
    | .step t => (s.tcb t).pc.leaves.isNone
    | .resume _ => false
    | _ => true

theorem staysParked_safe
    (h : Reachable ((pthSystem home).restrict fun s a => staysParked s a = true) s)
    (ha : staysParked s a = true) : WakeSafe s a := by
  refine ⟨linkSafe_of_mutexOnly (fun s a h => (Bool.and_eq_true_iff.mp h).1) s a h ha, ?_, ?_⟩
  · rintro t q rfl hq
    simp [staysParked, hq] at ha
  · rintro u t rfl
    simp [staysParked] at ha

/-- The wakeup of a mutex waiter is in its inbox. -/
theorem wakeup_owner_waiting :
    ∃ s : State WaitLinks, s.inbox 0 = [.wake 2 (some .mutex)] ∧ (s.tcb 2).pc.cleanedUp = false ∧
      (s.tcb 2).freed = false := by
  have hs := reachable_end staysParked .plain (fun _ => 0) 5
    [.dispatch 1, .acquire 1 0 false false, .step 1, .yield 1,
      .dispatch 2, .acquire 2 0 false false, .step 2, .dispatch 1, .release 1 0, .step 1, .step 1,
      .step 1] rfl
  obtain ⟨hc, hf, -⟩ := wakeup_owner_alive (hs.mono fun _ _ => staysParked_safe)
    (.inl ⟨0, some .mutex, .head _⟩)
  exact ⟨_, rfl, hc, hf⟩

/-- A thread that was dequeued for a mutex is aborted before its scheduler gets
to its wakeup: the message in the inbox names an event of a freed thread. -/
theorem wakeup_owner_freed :
    ∃ home s, Reachable (pthSystem home) s ∧ s.inbox 0 = [.wake 1 (some .mutex)] ∧
      (s.tcb 1).pc.cleanedUp = true ∧ (s.tcb 1).freed = true := by
  have hs := reachable_end (fun _ _ => true) .plain (fun _ => 0) 5
    [.dispatch 2, .acquire 2 0 false false, .step 2, .yield 2,
      .dispatch 1, .acquire 1 0 false false, .step 1, .dispatch 2, .release 2 0, .step 2, .step 2,
      .step 2, .abort 1, .cancel 1, .step 1, .exit 1 pthCanceled, .step 1] rfl
  exact ⟨_, _, hs.of_restrict, rfl, rfl, rfl⟩

end

end GnuPth
