import GnuPth.Sync.Refinement

/-!
# Joining a thread of another scheduler

A joiner parks on a queue in the control block of the thread it waits for,
and asks the home scheduler of that thread to free the control block. Both
rely on the joined thread being there: a control block has to be freed with
nobody parked on it.
-/

namespace GnuPth

open Function (update update_self)
open Transition

/-- The thread that is being joined, from the check of `joinable` until the
caller is off the queue. -/
def Pc.joins : Pc → Option Tid
  | .joinEnter tid | .joinWait tid | .joinWoken tid | .joinCleanup tid => some tid
  | _ => none

/-- With `a`, `pth_tcb_free(t)` runs: in the death path of a detached thread, in
`pth_abort` of a dead thread, or for a `PTH_GMSG_REAP`. -/
def Frees {σ : Type} (s : State σ) (a : Act) (t : Tid) : Prop :=
  (a = .step t ∧ (s.tcb t).pc = .dying ∧ (s.tcb t).joinable = false) ∨
  (a = .abort t ∧ (s.tcb t).pc = .dead) ∨
  ∃ g, a = .drain g ∧ .reap t ∈ s.inbox g

/-! ### What a step does to the fields of pth_join -/

/-- The part of a control block that `pth_exit`, `pth_cancel`, `pth_abort` and
`pth_join` deal with. -/
structure Marks where
  joinable : Bool
  exitArg : Value
  joinArg : Value
  joinDone : Bool
  foreign : Bool
  freed : Bool

def Tcb.marks (b : Tcb) : Marks :=
  ⟨b.joinable, b.exitArg, b.joinArg, b.joinDone, b.foreign, b.freed⟩

inductive MarkStep {σ : Type} (s s' : State σ) (a : Act) (t : Tid) : Prop
  | same (h : (s'.tcb t).marks = (s.tcb t).marks)
  | drain {g : SchedId} (ha : a = .drain g)
      (h : (s'.tcb t).marks =
        { (s.tcb t).marks with freed := (s.tcb t).freed || .reap t ∈ s.inbox g })
  | exit {v : Value} (ha : a = .exit t v) (ho : .exit t v ∈ s'.log)
      (h : (s'.tcb t).marks = { (s.tcb t).marks with exitArg := v })
  | cancelled (ha : a = .cancel t) (ho : .cancelled t ∈ s'.log)
      (h : (s'.tcb t).marks = { (s.tcb t).marks with foreign := true })
  | detach (ha : a = .abort t) (h : (s'.tcb t).marks = { (s.tcb t).marks with joinable := false })
  | abortDead (ha : a = .abort t) (hpc : (s.tcb t).pc = .dead)
      (h : (s'.tcb t).marks = { (s.tcb t).marks with freed := true })
  | setJoinable {b : Bool} (ha : a = .setJoinable t b)
      (h : (s'.tcb t).marks = { (s.tcb t).marks with joinable := b })
  | die (ha : a = .step t) (hpc : (s.tcb t).pc = .dying) (hpc' : (s'.tcb t).pc = .dead)
      (hj : (s.tcb t).joinable = true)
      (h : (s'.tcb t).marks =
        { (s.tcb t).marks with joinArg := (s.tcb t).result, joinDone := true })
  | dieDetached (ha : a = .step t) (hpc : (s.tcb t).pc = .dying)
      (hj : (s.tcb t).joinable = false)
      (h : (s'.tcb t).marks = { (s.tcb t).marks with freed := true })

section
variable {σ : Type}

theorem Step.markStep (h : Step home ops s a s') (t : Tid) : MarkStep s s' a t := by
  by_cases ha : a.actor = some t
  · cases h with
    | drain => cases ha
    | call hr hpc he =>
      obtain rfl := Option.some.inj (ha.symm.trans (Act.entry_actor he))
      exact .same (by simp [Tcb.marks])
    | exit => cases ha; exact .exit rfl (by simp) (by simp [Tcb.marks])
    | cancelAsync => cases ha; exact .cancelled rfl (by simp) (by simp [Tcb.marks])
    | abort => cases ha; exact .detach rfl (by simp [Tcb.marks])
    | abortDead hpc => cases ha; exact .abortDead rfl hpc (by simp [Tcb.marks])
    | setJoinable => cases ha; exact .setJoinable rfl (by simp [Tcb.marks])
    | die hr hpc hj => cases ha; exact .die rfl hpc (by simp) hj (by simp [Tcb.marks])
    | dieDetached hr hpc hj => cases ha; exact .dieDetached rfl hpc hj (by simp [Tcb.marks])
    | releaseFail _ _ _ _ hc | unlock _ _ _ _ _ hc | unrecurse _ _ _ _ hc | post _ _ _ hc =>
      cases ha
      exact .same (by rw [hc.rest]; simp [Tcb.marks])
    | _ =>
      cases ha
      exact .same (by simp [Tcb.marks])
  · cases hact : a.actor with
    | some u =>
      have hne : t ≠ u := by rintro rfl; exact ha hact
      exact .same (by rw [h.tcb_of_ne hact hne])
    | none =>
      cases h with
      | drain => exact .drain rfl rfl
      | call hr hpc he => rw [Act.entry_actor he] at hact; cases hact
      | _ => cases hact

theorem Step.joinDone (h : Step home ops s a s') (t : Tid) :
    ((s'.tcb t).joinDone = (s.tcb t).joinDone ∧ (s'.tcb t).joinArg = (s.tcb t).joinArg) ∨
      (a = .step t ∧ (s.tcb t).pc = .dying ∧ (s'.tcb t).pc = .dead ∧
        (s'.tcb t).joinDone = true ∧ (s'.tcb t).joinArg = (s.tcb t).result ∧
        (s.tcb t).joinable = true) := by
  cases h.markStep t with
  | die ha hpc hpc' hj h =>
    exact .inr ⟨ha, hpc, hpc', congrArg Marks.joinDone h, congrArg Marks.joinArg h, hj⟩
  | same h | drain _ h | exit _ _ h | cancelled _ _ h | detach _ h | abortDead _ _ h
  | setJoinable _ h | dieDetached _ _ _ h =>
    exact .inl ⟨congrArg Marks.joinDone h, congrArg Marks.joinArg h⟩

theorem Step.joinable (h : Step home ops s a s') (t : Tid) :
    (s'.tcb t).joinable = (s.tcb t).joinable ∨ a = .abort t ∨
      ∃ b, a = .setJoinable t b ∧ (s'.tcb t).joinable = b := by
  cases h.markStep t with
  | detach ha => exact .inr (.inl ha)
  | setJoinable ha h => exact .inr (.inr ⟨_, ha, congrArg Marks.joinable h⟩)
  | same h | drain _ h | exit _ _ h | cancelled _ _ h | abortDead _ _ h | die _ _ _ _ h
  | dieDetached _ _ _ h => exact .inl (congrArg Marks.joinable h)

theorem Step.reap_mem (h : Step home ops s a s')
    (hm : .reap t ∈ s'.inbox g) :
    .reap t ∈ s.inbox g ∨ g = home t ∧ ∃ u v, a = .step u ∧ (s.tcb u).pc = .joinReap t v := by
  cases h with
  | @drain g' =>
    by_cases hg : g = g'
    · subst hg; simp at hm
    · exact .inl (by simpa [hg] using hm)
  | @post _ w =>
    by_cases hg : g = home w
    · subst hg; exact .inl (by simpa using hm)
    · exact .inl (by simpa [hg] using hm)
  | @joinReap u tid v hr hpc =>
    by_cases hg : g = home tid
    · subst hg
      rcases (by simpa using hm : .reap t ∈ s.inbox (home tid) ∨ t = tid) with hm | rfl
      · exact .inl hm
      · exact .inr ⟨rfl, u, v, rfl, hpc⟩
    · exact .inl (by simpa [hg] using hm)
  | die => exact .inl (by simpa [State.wakes] using hm)
  | _ => exact .inl hm

end

section
variable {a : Act}

theorem Next.joins (h : Next a pc os pc') (hj : pc'.joins = some tid) :
    pc.joins = some tid ∨ ∃ u, a = .join u tid := by
  cases h with
  | stay => exact .inl hj
  | call he => cases a <;> cases he <;> first | exact .inr ⟨_, congrArg _ (Option.some.inj hj)⟩ | cases hj
  | woken | unwound => cases pc <;> exact .inl hj
  | @acquired _ _ _ _ k | @mutexDone _ _ _ k => cases k <;> cases hj
  | releaseFail hk | releaseDone hk =>
    refine hk.elim ?_ ?_ ?_ ?_ hj <;> nofun
  | post hk => refine hk.elim ?_ ?_ ?_ ?_ ?_ ?_ hj <;> nofun
  | joinPark => exact .inl hj
  | _ => cases hj

theorem Next.to_joinWoken (h : Next a pc os (.joinWoken tid)) :
    pc = .joinWoken tid ∨ ∃ t, a = .resume t ∧ pc = .joinWait tid ∧ os = [] := by
  generalize he : Pc.joinWoken tid = pc' at h
  cases h with
  | stay => exact .inl rfl
  | call hc => cases a <;> cases hc <;> cases he
  | @woken t pc => cases pc <;> cases he <;> first | exact .inr ⟨t, rfl, rfl, rfl⟩ | exact .inl rfl
  | unwound => cases pc <;> cases he; exact .inl rfl
  | @acquired _ _ _ _ k | @mutexDone _ _ _ k => cases k <;> cases he
  | releaseFail hk | releaseDone hk =>
    refine hk.elim ?_ ?_ ?_ ?_ he <;> nofun
  | post hk => refine hk.elim ?_ ?_ ?_ ?_ ?_ ?_ he <;> nofun
  | _ => cases he

end

section
variable {σ : Type}

theorem Step.to_joinReap (h : Step home ops s a s') (ha : a.actor = some u)
    (hpc' : (s'.tcb u).pc = .joinReap t v) :
    (s.tcb u).pc = .joinReap t v ∨ v = (s.tcb t).joinArg ∧
      ((s.tcb u).pc = .joinEnter t ∧ (s.tcb t).joinDone = true ∨ (s.tcb u).pc = .joinWoken t) := by
  cases h with
  | drain => cases ha
  | joinPast hr hpc hd =>
    cases ha
    simp only [State.goto_pc, Pc.joinReap.injEq] at hpc'
    obtain ⟨rfl, rfl⟩ := hpc'
    exact .inr ⟨rfl, .inl ⟨hpc, hd⟩⟩
  | joinWoken hr hpc =>
    cases ha
    simp only [State.goto_pc, Pc.joinReap.injEq] at hpc'
    obtain ⟨rfl, rfl⟩ := hpc'
    exact .inr ⟨rfl, .inr hpc⟩
  | dispatch | yield | setfair | setfairFail | joinFail | cancelPoint | fire | cancel | abort
  | abortDead | setJoinable | cancelState | cancelActed =>
    cases ha
    exact .inl (by simpa using hpc')
  | call hr hpc he =>
    obtain rfl := Option.some.inj (ha.symm.trans (Act.entry_actor he))
    rw [State.goto_pc] at hpc'
    subst hpc'
    cases a <;> cases he
  | exit hr hpc hp =>
    cases ha
    simp only [State.modTcb, update_self] at hpc'
    subst hpc'
    rcases hp with hp | ⟨rn, hp⟩ <;> cases hp
  | resume =>
    cases ha
    exact .inl (Pc.of_woken (by simpa using hpc') rfl)
  | unwind | cancelAsync =>
    cases ha
    exact .inl (Pc.of_unwound (by simpa using hpc') rfl)
  | @acquireFail _ _ _ _ k | @take _ _ _ _ k | @recurse _ _ _ _ k | @grant _ _ _ k
  | @mutexTimeout _ _ _ k | @retake _ _ _ k =>
    cases ha
    cases k <;> simp [AcquireFrom.pc] at hpc'
  | releaseFail hr hpc ho hb | unlock hr hpc hn hs hb | unrecurse hr hpc hn hb =>
    cases ha
    simp only [update_self] at hpc'
    refine hb.elim ?_ ?_ ?_ ?_ hpc' <;> nofun
  | post hr hpc hb =>
    cases ha
    simp only [update_self] at hpc'
    refine hb.elim ?_ ?_ ?_ ?_ ?_ ?_ hpc' <;> nofun
  | condDequeue hr hpc =>
    cases ha
    rcases hpc with ⟨-, rfl⟩ | ⟨-, rfl⟩ <;> simp at hpc'
  | _ =>
    cases ha
    simp at hpc'

end

/-! ### Joiners that wait for the death -/

/-- No joiner is dispatched in its wait before the joined thread is dead, unless
to be cancelled. -/
def AwaitsDeath {σ : Type} (s : State σ) (a : Act) : Prop :=
  ∀ u t, a = .resume u → (s.tcb u).pc = .joinWait t → ¬ActsOnCancel s a u →
    (s.tcb t).joinDone = true

/-- Past its wait, a joiner only meets dead threads. -/
structure AfterDeath {σ : Type} (s : State σ) : Prop where
  woken : ∀ {u t}, (s.tcb u).pc = .joinWoken t → (s.tcb t).joinDone = true
  reaping : ∀ {u t v}, (s.tcb u).pc = .joinReap t v → (s.tcb t).joinDone = true
  reaped : ∀ {g t}, .reap t ∈ s.inbox g → (s.tcb t).joinDone = true

section
variable {σ : Type}

theorem Step.joinDone_mono (h : Step home ops s a s') (hd : (s.tcb t).joinDone = true) :
    (s'.tcb t).joinDone = true := by
  rcases h.joinDone t with ⟨he, -⟩ | ⟨-, -, -, he, -⟩
  · rw [he, hd]
  · exact he

theorem Step.joinWoken_of_resume (h : Step home ops s a s')
    (hpc' : (s'.tcb u).pc = .joinWoken t) :
    (s.tcb u).pc = .joinWoken t ∨
      a = .resume u ∧ (s.tcb u).pc = .joinWait t ∧ ¬ActsOnCancel s a u := by
  by_cases ha : a.actor = some u
  · obtain ⟨os, -, hnext⟩ := h.next ha
    rw [hpc'] at hnext
    rcases hnext.to_joinWoken with hpc | ⟨v, rfl, hpc, -⟩
    · exact .inl hpc
    · cases ha
      refine .inr ⟨rfl, hpc, ?_⟩
      rintro (⟨-, hreq, hen⟩ | ⟨hne, -⟩)
      · cases h with
        | call _ _ he => cases he
        | resume _ _ hc => simp [hreq, hen] at hc
        | unwind => simp [hpc, Pc.unwound] at hpc'
      · cases hne
  · rw [h.pc_of_ne ha] at hpc'
    exact .inl hpc'

theorem AfterDeath.step (inv : AfterDeath s) (hk : AwaitsDeath s a) (h : Step home ops s a s') :
    AfterDeath s' where
  woken {u t} hpc := by
    apply h.joinDone_mono
    rcases h.joinWoken_of_resume hpc with hpc | ⟨ha, hpc, hc⟩
    · exact inv.woken hpc
    · exact hk u t ha hpc hc
  reaping {u t v} hpc := by
    apply h.joinDone_mono
    by_cases ha : a.actor = some u
    · rcases h.to_joinReap ha hpc with hpc | ⟨-, ⟨-, hd⟩ | hpc⟩
      · exact inv.reaping hpc
      · exact hd
      · exact inv.woken hpc
    · rw [h.pc_of_ne ha] at hpc
      exact inv.reaping hpc
  reaped {g t} hm := by
    apply h.joinDone_mono
    rcases h.reap_mem hm with hm | ⟨-, u, v, -, hpc⟩
    · exact inv.reaped hm
    · exact inv.reaping hpc

theorem afterDeath_initial (store : σ) (cfg : Config) : AfterDeath (initial store cfg) := by
  constructor <;> simp_all [initial]

end

/-! ### Control blocks are freed with nobody parked on them -/

/-- No thread is detached while another one joins it. -/
def KeepsJoiners {σ : Type} (s : State σ) (a : Act) : Prop :=
  ∀ t, a = .abort t ∨ a = .setJoinable t false → (s.tcb t).joinDone = false →
    ∀ u, (s.tcb u).pc.joins ≠ some t

structure JoinOk (s : State WaitLists) : Prop where
  joining : ∀ {u t}, (s.tcb u).pc.joins = some t → (s.tcb t).joinDone = false →
    (s.tcb t).joinable = true
  done : ∀ {t}, (s.tcb t).joinDone = true → s.store (.queue (.join t)) = []

section
variable {home : Tid → SchedId}

theorem Step.join_queue (h : Step home listOps s a s') (t : Tid) :
    s'.store (.queue (.join t)) = s.store (.queue (.join t)) ∨
    (∃ u, a = .step u ∧ (s.tcb t).joinDone = false ∧
      s'.store (.queue (.join t)) = s.store (.queue (.join t)) ++ [u]) ∨
    (∃ u, a = .step u ∧ s'.store (.queue (.join t)) = (s.store (.queue (.join t))).erase u) ∨
    ((s'.tcb t).joinDone = true ∧ s'.store (.queue (.join t)) = []) := by
  have hother : ∀ {q ws}, s'.store = update s.store (.queue q) ws → q ≠ .join t →
      s'.store (.queue (.join t)) = s.store (.queue (.join t)) := by
    intro q ws hs hq
    simp [hs, Ne.symm hq]
  cases h.listStep with
  | drain hs | keep _ hs => exact .inl (by rw [hs])
  | @park u q hk hq _ hs =>
    by_cases ht : q = .join t
    · subst ht
      have hpc := Pc.of_parksOn_join hq
      exact .inr (.inl ⟨u, rfl, by simpa only [parks, hpc] using hk, by simp [hs]⟩)
    · exact .inl (hother hs ht)
  | @repark u q _ hq hl hs =>
    refine .inl (hother hs ?_)
    rintro rfl
    rw [Pc.of_parksOn_join hq] at hl
    cases hl
  | @leave u q _ hs =>
    by_cases ht : q = .join t
    · subst ht
      exact .inr (.inr (.inl ⟨u, rfl, by simp [hs]⟩))
    · exact .inl (hother hs ht)
  | leaveBoth _ h₁ h₂ =>
    obtain ⟨-, rfl⟩ := listOps_remove.mp h₁
    obtain ⟨-, hs⟩ := listOps_remove.mp h₂
    exact .inl (by simp [hs])
  | @shift u w ws k _ _ _ hs => exact .inl (hother hs (by cases k <;> rintro ⟨⟩))
  | herd _ _ hs | unchain _ _ hs => exact .inl (by simp [hs])
  | @die u _ _ hd hs =>
    by_cases ht : u = t
    · subst ht
      exact .inr (.inr (.inr ⟨hd, by simp [hs]⟩))
    · exact .inl (hother hs (by simpa using ht))

theorem Step.join_queue_nil (h : Step home listOps s a s') (hd : (s'.tcb t).joinDone = true)
    (hq : (s.tcb t).joinDone = true → s.store (.queue (.join t)) = []) :
    s'.store (.queue (.join t)) = [] := by
  rcases h.joinDone t with ⟨he, -⟩ | ⟨rfl, hpc, -⟩
  · rw [he] at hd
    rcases h.join_queue t with h' | ⟨u, -, hn, -⟩ | ⟨u, -, h'⟩ | ⟨-, h'⟩
    · rw [h', hq hd]
    · rw [hn] at hd
      cases hd
    · rw [h', hq hd, List.erase_nil]
    · exact h'
  · cases h with
    | die hr hpc' hj hs =>
      obtain ⟨-, rfl⟩ := listOps_shiftAll.mp hs
      simp
    | call _ _ he => cases he
    | _ => simp_all

theorem Step.join_joinable (h : Step home listOps s a s') (hj : (s'.tcb u).pc.joins = some t)
    (hn : (s.tcb u).pc.joins ≠ some t) : (s'.tcb t).joinable = true := by
  have ha : a.actor = some u := by
    by_contra ha
    rw [h.pc_of_ne ha] at hj
    exact hn hj
  obtain ⟨os, -, hnext⟩ := h.next ha
  obtain ⟨v, rfl⟩ := (hnext.joins hj).resolve_left hn
  have hkeep : (s'.tcb t).joinable = (s.tcb t).joinable := by
    rcases h.joinable t with hkeep | ha | ⟨b, ha, -⟩
    · exact hkeep
    all_goals cases ha
  rw [hkeep]
  cases h with
  | call hr hpc he hjo =>
    cases he
    exact hjo t rfl
  | joinFail => exact absurd hj hn

theorem JoinOk.step (inv : JoinOk s) (hk : KeepsJoiners s a) (h : Step home listOps s a s') :
    JoinOk s' where
  joining {u t} hj hd := by
    by_cases hjs : (s.tcb u).pc.joins = some t
    · have hd₀ : (s.tcb t).joinDone = false := by
        by_contra hd'
        rw [h.joinDone_mono (by simpa using hd')] at hd
        cases hd
      rcases h.joinable t with he | rfl | ⟨b, rfl, he⟩
      · rw [he, inv.joining hjs hd₀]
      · exact absurd hjs (hk t (.inl rfl) hd₀ u)
      · cases b with
        | true => exact he
        | false => exact absurd hjs (hk t (.inr rfl) hd₀ u)
    · exact h.join_joinable hj hjs
  done hd := h.join_queue_nil hd inv.done

theorem Pc.joins_of_parkedOn {pc : Pc} (h : pc.parkedOn = some (.join t)) : pc.joins = some t := by
  unfold Pc.parkedOn at h
  split at h
  all_goals first
    | cases h <;> rfl
    | rename RwOp => op; cases op <;> cases h

theorem JoinOk.frees (inv : JoinOk s) (ha : AfterDeath s) (hp : Placed s)
    (h : Step home listOps s a s') (hf : Frees s a t) : s.store (.queue (.join t)) = [] := by
  rcases hf with ⟨-, -, hj⟩ | ⟨rfl, hpc⟩ | ⟨g, -, hm⟩
  · refine List.eq_nil_iff_forall_not_mem.mpr fun u hu => ?_
    by_cases hd : (s.tcb t).joinDone = true
    · simp [inv.done hd] at hu
    · have hjs := Pc.joins_of_parkedOn (hp.queued _ u hu)
      rw [inv.joining hjs (by simpa using hd)] at hj
      cases hj
  · cases h with
    | call _ _ he => cases he
    | abort _ hpc' => simp [hpc, Pc.waitsFor] at hpc'
    | abortDead _ hd => exact inv.done hd
  · exact inv.done (ha.reaped hm)

end

section
variable {home : Tid → SchedId}

theorem KeepsJoiners.lists (h : KeepsJoiners s a) (hr : Refines s l) : KeepsJoiners l a := by
  unfold KeepsJoiners at h ⊢
  rwa [hr.tcb]

theorem AwaitsDeath.lists (h : AwaitsDeath s a) (hr : Refines s l) : AwaitsDeath l a := by
  unfold AwaitsDeath ActsOnCancel at h ⊢
  rwa [hr.tcb]

/-- The condition under which joiners and the threads they join stay together. -/
def JoinSafe (s : State WaitLinks) (a : Act) : Prop :=
  LinkSafe s a ∧ KeepsJoiners s a ∧ AwaitsDeath s a

theorem joinOk_of_reachable (h : Reachable ((pthSystem home).restrict JoinSafe) s) :
    ∃ l, Reachable ((listSystem home).restrict SafeStep) l ∧ Refines s l ∧ JoinOk l ∧
      AfterDeath l := by
  have hsim := (refines home).mono (P := JoinSafe) fun _ _ _ h => h.1
  refine hsim.invariant ?_ ?_ h
  · rintro _ ⟨cfg, rfl⟩
    refine ⟨?_, afterDeath_initial _ cfg⟩
    constructor <;> simp_all [initial, Pc.joins]
  · rintro s l a s' l' - - hr ⟨hj, hd⟩ ⟨⟨-, hk, hw⟩, -⟩ ⟨-, hstep⟩ -
    exact ⟨hj.step (hk.lists hr) hstep, hd.step (hw.lists hr) hstep⟩

theorem Frees.linkSafe (hf : Frees s a t) : LinkSafe s a := by
  rintro u rfl hk
  rcases hf with ⟨ha, hpc, -⟩ | ⟨ha, -⟩ | ⟨g, ha, -⟩ <;> cases ha
  simp [parks, hpc] at hk

/-- Programs that only join and exit, with joiners dispatched after the death. -/
def joinsDead (s : State WaitLinks) : Act → Bool
  | .dispatch _ | .join .. | .exit .. | .step _ | .drain _ => true
  | .resume u =>
    match (s.tcb u).pc with
    | .joinWait t => (s.tcb t).joinDone
    | _ => true
  | _ => false

theorem joinsDead_ok (hr : Reachable ((pthSystem home).restrict fun s a => joinsDead s a = true) s)
    (h : joinsDead s a = true) : JoinSafe s a := by
  refine ⟨linkSafe_of_calls (fun s a h => ⟨?_, ?_⟩) hr a, ?_, ?_⟩
  · rintro t c m extra rfl
    cases h
  · rintro t r rfl
    cases h
  · rintro t (rfl | rfl) <;> cases h
  · rintro u t rfl hpc -
    simpa [joinsDead, hpc] using h

end

end GnuPth
