import GnuPth.Sync.Ends
import GnuPth.Sync.Wakeups

/-!
# The join protocol across schedulers

A joiner takes the value of the thread it joined and posts one
`PTH_GMSG_REAP`, by which the home scheduler of that thread frees it.
`pth_join` does not look at `join_done` again after its wait, so this is
right only if nothing but the death ends the wait; `JoinRules` says what that
takes.
-/

namespace GnuPth

open Function (update update_self)
open Transition

/-- The thread whose joining is under way, until the control block is given up. -/
def Pc.joining : Pc → Option Tid
  | .joinEnter tid | .joinWait tid | .joinWoken tid | .joinCleanup tid | .joinReap tid _ => some tid
  | _ => none

def Obs.joins (tid : Tid) : Obs → Bool
  | .joined _ tid' _ => tid' == tid
  | _ => false

/-- The successful returns of `pth_join(tid, ..)`. Each one has posted a
`PTH_GMSG_REAP` for `tid`. -/
def State.joinsOf {σ : Type} (s : State σ) (tid : Tid) : List Obs := s.log.filter (Obs.joins tid)

def InFlight {σ : Type} (s : State σ) (u : Tid) : Prop :=
  (∃ t k, (s.tcb t).pc = .post u k) ∨ ∃ g ev, .wake u ev ∈ s.inbox g

def Tcb.InDQ (b : Tcb) : Prop := b.pc = .dead ∧ b.joinDone = true ∧ b.freed = false

/-- What a program and its timing have to keep to for `pth_join`. -/
structure JoinRules {σ : Type} (s : State σ) (a : Act) : Prop where
  -- a thread has a single joiner; `pth_abort` of a dead thread counts as one
  alone : ∀ u tid, a = .join u tid → s.joinsOf tid = [] ∧ ∀ w, (s.tcb w).pc.joining ≠ some tid
  kept : ∀ tid, a = .abort tid → (s.tcb tid).pc ≠ .dead
  -- no wakeup from an earlier wait of the joiner is still under way
  fresh : ∀ u tid, a = .step u → (s.tcb u).pc = .joinEnter tid → (s.tcb tid).joinDone = false →
    ¬InFlight s u
  -- no cancellation request wakes a joiner that has cancellation disabled
  undisturbed : ∀ u tid, a = .resume u → (s.tcb u).pc = .joinWait tid →
    (s.tcb u).cancelreq = true → (s.tcb u).cancelEnable = true ∨ (s.tcb u).status .join ≠ .pending

/-! ### Wakeups under way -/

section
variable {home : Tid → SchedId}

theorem Step.wake_mem (h : Step home listOps s a s')
    (hm : .wake u ev ∈ s'.inbox g) :
    .wake u ev ∈ s.inbox g ∨ (∃ t k, (s.tcb t).pc = .post u k) ∨
      ∃ tid, u ∈ s.store (.queue (.join tid)) ∧ (s'.tcb tid).joinDone = true := by
  cases h with
  | @drain g' =>
    by_cases hg : g = g'
    · subst hg; simp at hm
    · exact .inl (by simpa [hg] using hm)
  | @post t w k b g' hr hpc =>
    by_cases hg : g = home w
    · subst hg
      rcases (by simpa using hm : .wake u ev ∈ s.inbox (home w) ∨ u = w ∧ _) with hm | ⟨rfl, -⟩
      · exact .inl hm
      · exact .inr (.inl ⟨t, k, hpc⟩)
    · exact .inl (by simpa [hg] using hm)
  | @joinReap t tid =>
    by_cases hg : g = home tid
    · subst hg; exact .inl (by simpa using hm)
    · exact .inl (by simpa [hg] using hm)
  | @die t ws store hr hpc hj hs =>
    obtain ⟨rfl, rfl⟩ := listOps_shiftAll.mp hs
    rcases List.mem_append.mp hm with hm | hm
    · exact .inl hm
    · refine .inr (.inr ⟨t, ?_, by simp⟩)
      obtain ⟨w, hw, he⟩ := List.mem_map.mp hm
      cases he
      exact (List.mem_filter.mp hw).1
  | _ => exact .inl hm

theorem Step.inFlight (hp : Placed s) (h : Step home listOps s a s') (hf : InFlight s' u) :
    InFlight s u ∨ ∃ i, u ∈ s.store i ∧
      ∀ tid, i = .queue (.join tid) → (s'.tcb tid).joinDone = true := by
  rcases hf with ⟨t, k, hpc'⟩ | ⟨g, ev, hm⟩
  · by_cases ha : a.actor = some t
    · rcases h.to_post ha hpc' with hpc | ⟨-, hq, -⟩ | ⟨x, chain, hpc, -⟩
      · exact .inl (.inl ⟨t, k, hpc⟩)
      · refine .inr ⟨.queue k.queue, by rw [hq]; exact List.mem_cons_self, fun tid he => ?_⟩
        cases k <;> cases he
      · have hch := hp.chains t
        rw [hpc] at hch
        obtain ⟨rest, hws, -⟩ := hch
        exact .inr ⟨.chain t, by rw [hws]; exact List.mem_cons_self, nofun⟩
    · rw [h.pc_of_ne ha] at hpc'
      exact .inl (.inl ⟨t, k, hpc'⟩)
  · rcases h.wake_mem hm with hm | hpc | ⟨tid, hq, hd⟩
    · exact .inl (.inr ⟨g, ev, hm⟩)
    · exact .inl (.inl hpc)
    · refine .inr ⟨_, hq, fun tid' he => ?_⟩
      cases he
      exact hd

end

/-! ### Waiting for the death -/

section
variable {home : Tid → SchedId}

theorem Step.to_joinWait (h : Step home listOps s a s') (ha : a.actor = some u)
    (hpc' : (s'.tcb u).pc = .joinWait t) :
    ((s.tcb u).pc = .joinWait t ∧ (s'.tcb u).status = (s.tcb u).status ∧ s'.store = s.store) ∨
      (a = .step u ∧ (s.tcb u).pc = .joinEnter t ∧ (s.tcb t).joinDone = false ∧
        (s'.tcb u).status .join = .pending ∧ u ∈ s'.store (.queue (.join t))) := by
  cases h with
  | drain => cases ha
  | joinPark hr hpc hd =>
    cases ha
    obtain rfl : _ = t := by simpa using hpc'
    exact .inr ⟨rfl, hpc, hd, by simp, by simp⟩
  | dispatch | yield | setfair | setfairFail | joinFail | cancelPoint | fire | cancel | abort
  | abortDead | setJoinable | cancelState | cancelActed =>
    cases ha
    exact .inl ⟨by simpa using hpc', by simp, rfl⟩
  | call hr hpc he =>
    obtain rfl := Option.some.inj (ha.symm.trans (Act.entry_actor he))
    rw [State.goto_pc] at hpc'
    subst hpc'
    cases a <;> cases he
  | exit hr hpc hp =>
    cases ha
    simp only [State.modTcb, update_self] at hpc'
    subst hpc'
    rcases hp with hp | ⟨rn, hp⟩ <;> cases hp
  | resume =>
    cases ha
    exact .inl ⟨Pc.of_woken (by simpa using hpc') rfl, by simp, rfl⟩
  | unwind | cancelAsync =>
    cases ha
    exact .inl ⟨Pc.of_unwound (by simpa using hpc') rfl, by simp, rfl⟩
  | @acquireFail _ _ _ _ k | @take _ _ _ _ k | @recurse _ _ _ _ k | @grant _ _ _ k
  | @mutexTimeout _ _ _ k | @retake _ _ _ k =>
    cases ha
    cases k <;> simp [AcquireFrom.pc] at hpc'
  | releaseFail hr hpc ho hb | unlock hr hpc hn hs hb | unrecurse hr hpc hn hb =>
    cases ha
    simp only [update_self] at hpc'
    refine hb.elim (P := fun pc => pc = _ → _) ?_ ?_ ?_ ?_ hpc' <;> (intros; contradiction)
  | post hr hpc hb =>
    cases ha
    simp only [update_self] at hpc'
    refine hb.elim (P := fun pc => pc = _ → _) ?_ ?_ ?_ ?_ ?_ ?_ hpc' <;> (intros; contradiction)
  | condDequeue hr hpc =>
    cases ha
    rcases hpc with ⟨-, rfl⟩ | ⟨-, rfl⟩ <;> simp at hpc'
  | _ =>
    cases ha
    simp at hpc'

/-- A joiner is queued, with its event pending and no wakeup under way, as long
as the thread it joins is alive. -/
def Waiting (s : State WaitLists) : Prop :=
  ∀ u t, (s.tcb u).pc = .joinWait t → (s.tcb t).joinDone = false →
    u ∈ s.store (.queue (.join t)) ∧ (s.tcb u).status .join = .pending ∧ ¬InFlight s u

theorem Waiting.not_inFlight (hp : Placed s) (h : Step home listOps s a s')
    (hq : ∀ i, u ∈ s.store i → i = .queue (.join t)) (hf : ¬InFlight s u)
    (hd : (s'.tcb t).joinDone = false) : ¬InFlight s' u := by
  intro hf'
  rcases h.inFlight hp hf' with hf' | ⟨i, hi, hj⟩
  · exact hf hf'
  · rw [hj t (hq i hi)] at hd
    cases hd

theorem Waiting.step (inv : Waiting s) (hp : Placed s) (hsafe : SafeStep s a) (hr : JoinRules s a)
    (h : Step home listOps s a s') : Waiting s' := by
  intro u t hpc' hd'
  have hd : (s.tcb t).joinDone = false := by
    by_contra hd
    rw [h.joinDone_mono (by simpa using hd)] at hd'
    cases hd'
  by_cases ha : a.actor = some u
  · rcases h.to_joinWait ha hpc' with ⟨hpc, hst, hstore⟩ | ⟨rfl, hpc, -, hst, hmem⟩
    · obtain ⟨hq, hpend, hf⟩ := inv u t hpc hd
      rw [hst, hstore]
      exact ⟨hq, hpend, not_inFlight hp h (fun i hi => hp.linear.unique hi hq) hf hd'⟩
    · -- the joiner was on no list before it parked
      have hfree : s.store.Free u := by
        refine hp.parks_free hsafe ?_ (.inl (by rw [hpc]; rfl))
        simpa only [parks, hpc] using hd
      refine ⟨hmem, hst, not_inFlight hp h (fun i hi => absurd hi (hfree i)) ?_ hd'⟩
      exact hr.fresh u t rfl hpc hd
  · rw [h.pc_of_ne ha] at hpc'
    obtain ⟨hq, hpend, hf⟩ := inv u t hpc' hd
    refine ⟨?_, ?_, not_inFlight hp h (fun i hi => hp.linear.unique hi hq) hf hd'⟩
    · rcases h.join_queue t with he | ⟨w, -, -, he⟩ | ⟨w, rfl, he⟩ | ⟨hd₁, -⟩
      · rwa [he]
      · rw [he]
        exact List.mem_append_left _ hq
      · rw [he]
        refine (List.mem_erase_of_ne ?_).mpr hq
        rintro rfl
        exact ha rfl
      · rw [hd₁] at hd'
        cases hd'
    · cases hact : a.actor with
      | some =>
        rw [h.tcb_of_ne hact (by rintro rfl; exact ha hact)]
        exact hpend
      | none =>
        cases h with
        | @drain g =>
          have hn : .wake u (some .join) ∉ s.inbox g := fun hm => hf (.inr ⟨g, _, hm⟩)
          simp [hn, hpend]
        | call _ _ he => rw [Act.entry_actor he] at hact; cases hact
        | _ => cases hact

/-- Under the rules a joiner is dispatched for the death or to be cancelled. -/
theorem Waiting.awaitsDeath (inv : Waiting s) (hr : JoinRules s a) (h : Step home listOps s a s') :
    AwaitsDeath s a := by
  rintro u t rfl hpc hc
  by_contra hd
  obtain ⟨-, hpend, -⟩ := inv u t hpc (by simpa using hd)
  have hreq : (s.tcb u).cancelreq = true := by
    cases h with
    | call _ _ he => cases he
    | resume _ hw | unwind _ hw => simpa [runnable, hpc, Pc.waitsFor, hpend] using hw
  rcases hr.undisturbed u t rfl hpc hreq with hen | hne
  · exact hc (.inl ⟨rfl, hreq, hen⟩)
  · exact hne hpend

end

/-! ### One joiner -/

section
variable {a : Act}

theorem Next.to_joining (h : Next a pc os pc') (hj : pc'.joining = some tid) :
    pc.joining = some tid ∨ ∃ u, a = .join u tid := by
  cases h with
  | stay => exact .inl hj
  | call he =>
    cases a <;> cases he <;> first | exact .inr ⟨_, congrArg _ (Option.some.inj hj)⟩ | cases hj
  | woken | unwound => cases pc <;> exact .inl hj
  | @acquired _ _ _ _ k | @mutexDone _ _ _ k => cases k <;> cases hj
  | releaseFail hk | releaseDone hk =>
    refine hk.elim ?_ ?_ ?_ ?_ hj <;> nofun
  | post hk => refine hk.elim ?_ ?_ ?_ ?_ ?_ ?_ hj <;> nofun
  | joinPark | joinPast | joinWoken => exact .inl hj
  | _ => cases hj

theorem Next.joined (h : Next a pc os pc') (tid : Tid) :
    os.filter (Obs.joins tid) = [] ∨
      ∃ u v, a = .step u ∧ pc = .joinReap tid v ∧ pc' = .app ∧ os = [.joined u tid v] := by
  cases h with
  | @joinReap u tid' v =>
    by_cases ht : tid' = tid
    · subst ht
      exact .inr ⟨u, v, rfl, rfl, rfl, rfl⟩
    · exact .inl (by simp [Obs.joins, ht])
  | @acquired _ _ _ _ k | @mutexDone _ _ _ k => cases k <;> exact .inl rfl
  | @post => exact .inl (by unfold PostThen.obs; split <;> rfl)
  | _ => exact .inl rfl

end

section
variable {s : State σ}

theorem Step.joinsOf (h : Step home ops s a s') (tid : Tid) :
    s'.joinsOf tid = s.joinsOf tid ∨
      ∃ u v, a = .step u ∧ (s.tcb u).pc = .joinReap tid v ∧ (s'.tcb u).pc = .app ∧
        s'.joinsOf tid = .joined u tid v :: s.joinsOf tid := by
  cases ha : a.actor with
  | none =>
    unfold State.joinsOf
    exact .inl (by rw [h.log_of_drain ha])
  | some t =>
    obtain ⟨os, hos, hnext⟩ := h.next ha
    unfold State.joinsOf
    rw [hos, List.filter_append]
    rcases hnext.joined tid with hnil | ⟨u, v, rfl, hpc, hpc', rfl⟩
    · exact .inl (by rw [hnil, List.nil_append])
    · cases ha
      exact .inr ⟨t, v, rfl, hpc, hpc', by simp [Obs.joins]⟩

theorem Step.joinsOf_ne_nil (h : Step home ops s a s') (hn : s.joinsOf tid ≠ []) :
    s'.joinsOf tid ≠ [] := by
  rcases h.joinsOf tid with he | ⟨u, v, -, -, -, he⟩
  · rwa [he]
  · rw [he]
    exact List.cons_ne_nil _ _

theorem Step.to_joining (h : Step home ops s a s') (hj : (s'.tcb u).pc.joining = some tid) :
    (s.tcb u).pc.joining = some tid ∨ a = .join u tid := by
  by_cases ha : a.actor = some u
  · obtain ⟨os, -, hnext⟩ := h.next ha
    rcases hnext.to_joining hj with hj | ⟨w, rfl⟩
    · exact .inl hj
    · cases ha
      exact .inr rfl
  · rw [h.pc_of_ne ha] at hj
    exact .inl hj

theorem Step.inbox_drained (h : Step home ops s a s') (ha : a = .drain g) :
    s'.inbox g = [] := by
  subst ha
  cases h with
  | drain => simp
  | call _ _ he => cases he

theorem Results.joinArg_eq (inv : Results s) (h : Step home ops s a s')
    (hd : (s.tcb t).joinDone = true) : (s'.tcb t).joinArg = (s.tcb t).joinArg := by
  rcases h.joinDone t with ⟨-, he⟩ | ⟨-, hpc, -⟩
  · exact he
  · rw [inv.dead hd] at hpc
    cases hpc

theorem State.mem_joinsOf : .joined u tid v ∈ s.joinsOf tid ↔ .joined u tid v ∈ s.log := by
  simp [State.joinsOf, Obs.joins]

end

structure JoinProtocol (home : Tid → SchedId) (s : State WaitLists) : Prop extends Ends s where
  waiting : Waiting s
  single : ∀ {u w tid}, (s.tcb u).pc.joining = some tid → (s.tcb w).pc.joining = some tid → u = w
  first : ∀ {u tid}, (s.tcb u).pc.joining = some tid → s.joinsOf tid = []
  once : ∀ tid, (s.joinsOf tid).length ≤ 1
  value : ∀ {u tid v}, (s.tcb u).pc = .joinReap tid v → v = (s.tcb tid).joinArg
  joined : ∀ {u tid v}, .joined u tid v ∈ s.joinsOf tid →
    (s.tcb tid).joinDone = true ∧ v = (s.tcb tid).joinArg
  posted : ∀ {g tid}, .reap tid ∈ s.inbox g →
    g = home tid ∧ (s.tcb tid).freed = false ∧ s.joinsOf tid ≠ []
  gone : ∀ {tid}, (s.tcb tid).joinDone = true → (s.tcb tid).freed = true → s.joinsOf tid ≠ []

section
variable {home : Tid → SchedId}

theorem JoinProtocol.value_step (inv : JoinProtocol home s)
    (h : Step home listOps s a s') (hpc' : (s'.tcb u).pc = .joinReap tid v) :
    v = (s'.tcb tid).joinArg := by
  have hv : v = (s.tcb tid).joinArg ∧ (s.tcb tid).joinDone = true := by
    by_cases ha : a.actor = some u
    · rcases h.to_joinReap ha hpc' with hpc | ⟨hv, ⟨-, hd⟩ | hpc⟩
      · exact ⟨inv.value hpc, inv.reaping hpc⟩
      · exact ⟨hv, hd⟩
      · exact ⟨hv, inv.woken hpc⟩
    · rw [h.pc_of_ne ha] at hpc'
      exact ⟨inv.value hpc', inv.reaping hpc'⟩
  rw [hv.1, inv.joinArg_eq h hv.2]

theorem JoinProtocol.joined_step (inv : JoinProtocol home s)
    (h : Step home listOps s a s') (hm : .joined u tid v ∈ s'.joinsOf tid) :
    (s'.tcb tid).joinDone = true ∧ v = (s'.tcb tid).joinArg := by
  have hv : (s.tcb tid).joinDone = true ∧ v = (s.tcb tid).joinArg := by
    rcases h.joinsOf tid with he | ⟨w, v', -, hpc, -, he⟩
    · rw [he] at hm
      exact inv.joined hm
    · rw [he] at hm
      rcases List.mem_cons.mp hm with hm | hm
      · cases hm
        exact ⟨inv.reaping hpc, inv.value hpc⟩
      · exact inv.joined hm
  exact ⟨h.joinDone_mono hv.1, by rw [hv.2, inv.joinArg_eq h hv.1]⟩

theorem JoinProtocol.posted_step (inv : JoinProtocol home s) (hr : JoinRules s a)
    (h : Step home listOps s a s') (hm : .reap tid ∈ s'.inbox g) :
    g = home tid ∧ (s'.tcb tid).freed = false ∧ s'.joinsOf tid ≠ [] := by
  rcases h.reap_mem hm with hm₀ | ⟨hg, u, v, rfl, hpc⟩
  · obtain ⟨hg, hf, hn⟩ := inv.posted hm₀
    refine ⟨hg, ?_, h.joinsOf_ne_nil hn⟩
    by_contra hf'
    rcases h.freed (by simpa using hf') with hf₁ | ⟨-, hpc, -⟩ | ⟨ha, hpc⟩ | ⟨g', ha, hm'⟩
    · rw [hf₁] at hf
      cases hf
    · rw [inv.dead (inv.reaped hm₀)] at hpc
      cases hpc
    · exact hr.kept tid ha hpc
    · obtain rfl : g = g' := hg.trans (inv.posted hm').1.symm
      rw [h.inbox_drained ha] at hm
      cases hm
  · have hj : (s.tcb u).pc.joining = some tid := by rw [hpc]; rfl
    refine ⟨hg, ?_, ?_⟩
    · by_contra hf'
      rcases h.freed (by simpa using hf') with hf | ⟨ha, hpc', -⟩ | ⟨ha, -⟩ | ⟨g', ha, -⟩
      · exact inv.gone (inv.reaping hpc) hf (inv.first hj)
      · cases ha
        rw [hpc] at hpc'
        cases hpc'
      · cases ha
      · cases ha
    · cases h with
      | joinReap hr hpc' =>
        obtain ⟨rfl, rfl⟩ := Pc.joinReap.inj (hpc.symm.trans hpc')
        simp [State.joinsOf, Obs.joins]
      | call _ _ he => cases he
      | _ => simp_all

theorem JoinProtocol.gone_step (inv : JoinProtocol home s) (hr : JoinRules s a)
    (h : Step home listOps s a s') (hd : (s'.tcb tid).joinDone = true)
    (hf : (s'.tcb tid).freed = true) : s'.joinsOf tid ≠ [] := by
  apply h.joinsOf_ne_nil
  rcases h.freed hf with hf | ⟨ha, hpc, hj⟩ | ⟨ha, hpc⟩ | ⟨g, -, hm⟩
  · rcases h.joinDone tid with ⟨he, -⟩ | ⟨-, hpc, -⟩
    · exact inv.gone (by rwa [he] at hd) hf
    · rw [inv.freed hf] at hpc
      cases hpc
  · rcases h.joinDone tid with ⟨he, -⟩ | ⟨-, -, -, -, -, hj'⟩
    · rw [inv.dead (by rwa [he] at hd)] at hpc
      cases hpc
    · rw [hj] at hj'
      cases hj'
  · exact absurd hpc (hr.kept tid ha)
  · exact (inv.posted hm).2.2

theorem JoinProtocol.step (inv : JoinProtocol home s) (hp : Placed s) (hsafe : SafeStep s a)
    (hr : JoinRules s a) (h : Step home listOps s a s') : JoinProtocol home s' where
  toEnds := inv.toEnds.step (inv.waiting.awaitsDeath hr h) h
  waiting := inv.waiting.step hp hsafe hr h
  single {u w tid} hu hw := by
    rcases h.to_joining hu with hu₀ | ha
    · rcases h.to_joining hw with hw₀ | ha
      · exact inv.single hu₀ hw₀
      · exact absurd hu₀ ((hr.alone w tid ha).2 u)
    · rcases h.to_joining hw with hw₀ | ha'
      · exact absurd hw₀ ((hr.alone u tid ha).2 w)
      · cases ha.symm.trans ha'
        rfl
  first {u tid} hj := by
    rcases h.to_joining hj with hj₀ | rfl
    · rcases h.joinsOf tid with he | ⟨w, v, -, hpc, hpc', -⟩
      · rw [he, inv.first hj₀]
      · obtain rfl : u = w := inv.single hj₀ (by rw [hpc]; rfl)
        rw [hpc'] at hj
        cases hj
    · rcases h.joinsOf tid with he | ⟨w, v, ha, -⟩
      · rw [he, (hr.alone u tid rfl).1]
      · cases ha
  once tid := by
    rcases h.joinsOf tid with he | ⟨w, v, -, hpc, -, he⟩
    · rw [he]
      exact inv.once tid
    · rw [he, inv.first (by rw [hpc]; rfl)]
      exact Nat.le_refl 1
  value hpc := inv.value_step h hpc
  joined hm := inv.joined_step h hm
  posted hm := inv.posted_step hr h hm
  gone hd hf := inv.gone_step hr h hd hf

theorem joinProtocol_initial (cfg : Config) : JoinProtocol home (initial (fun _ => []) cfg) where
  toEnds := ends_initial _ cfg
  waiting := by intro u t hpc; cases hpc
  single := by intro u w tid hj; cases hj
  first := by intro u tid hj; cases hj
  once tid := Nat.zero_le 1
  value := by intro u tid v hpc; cases hpc
  joined := by intro u tid v hm; cases hm
  posted := by intro g tid hm; cases hm
  gone := by intro tid hd; cases hd

end

section
variable {home : Tid → SchedId}

theorem JoinRules.lists (h : JoinRules s a) (hr : Refines s l) : JoinRules l a := by
  have hjoins : ∀ tid, l.joinsOf tid = s.joinsOf tid := fun tid => by
    unfold State.joinsOf
    rw [hr.log]
  obtain ⟨alone, kept, fresh, undisturbed⟩ := h
  constructor
  all_goals simpa only [hjoins, hr.tcb, InFlight, hr.inbox]

theorem joinProtocol_of_reachable
    (h : Reachable ((pthSystem home).restrict fun s a => LinkSafe s a ∧ JoinRules s a) s) :
    ∃ l, Refines s l ∧ JoinProtocol home l := by
  have hsim := (refines home).mono (P := fun s a => LinkSafe s a ∧ JoinRules s a) fun _ _ _ h => h.1
  have hinv := hsim.invariant (I := JoinProtocol home) ?_ ?_ h
  · obtain ⟨l, -, hr, inv⟩ := hinv
    exact ⟨l, hr, inv⟩
  · rintro _ ⟨cfg, rfl⟩
    exact joinProtocol_initial cfg
  · rintro s l a s' l' - hl hr inv ⟨⟨-, hrules⟩, -⟩ ⟨hsafe, hstep⟩ -
    exact inv.step (placed_reachable hl) hsafe (hrules.lists hr) hstep

/-- In every run that keeps to the rules: `pth_join` returns only with the
thread dead and with the value it ended with, at most once, and the message
that frees it finds it in the queue of the dead threads of its scheduler. -/
theorem join_returns_result
    (h : Reachable ((pthSystem home).restrict fun s a => LinkSafe s a ∧ JoinRules s a) s)
    (tid : Tid) :
    (∀ t v, .joined t tid v ∈ s.log →
      (s.tcb tid).pc = .dead ∧ (s.tcb tid).joinDone = true ∧ (s.tcb tid).joinArg = v ∧
        Ended s tid v) ∧
    (s.joinsOf tid).length ≤ 1 ∧
    ∀ g, .reap tid ∈ s.inbox g → g = home tid ∧ (s.tcb tid).InDQ := by
  obtain ⟨l, hr, inv⟩ := joinProtocol_of_reachable h
  refine ⟨fun t v hm => ?_, ?_, fun g hm => ?_⟩
  · rw [← hr.log] at hm
    obtain ⟨hd, hv⟩ := inv.joined (State.mem_joinsOf.mpr hm)
    have he := inv.ended hd
    rw [← hv] at he
    unfold Ended at he ⊢
    rw [← hr.tcb, ← hr.log]
    exact ⟨inv.dead hd, hd, hv.symm, he⟩
  · have := inv.once tid
    unfold State.joinsOf at this ⊢
    rwa [hr.log] at this
  · rw [← hr.inbox] at hm
    obtain ⟨hg, hf, -⟩ := inv.posted hm
    have hd := inv.reaped hm
    rw [← hr.tcb]
    exact ⟨hg, inv.dead hd, hd, hf⟩

def joinCalm (s : State WaitLinks) : Act → Bool
  | .join .. | .abort _ | .await .. | .rwlockRelease .. => false
  | .step u =>
    match (s.tcb u).pc with
    | .joinEnter _ => false
    | _ => true
  | .resume u => !(s.tcb u).cancelreq
  | _ => true

theorem JoinRules.of_calm (h : joinCalm s a = true) : JoinRules s a where
  alone u tid ha := by subst ha; cases h
  kept tid ha := by subst ha; cases h
  fresh u tid ha hpc := by subst ha; simp [joinCalm, hpc] at h
  undisturbed u tid ha hpc hreq := by subst ha; simp [joinCalm, hreq] at h

theorem join_returns_seven :
    ∃ s : State WaitLinks, .joined 1 2 7 ∈ s.log ∧ (s.tcb 2).joinArg = 7 ∧ Ended s 2 7 ∧
      (s.tcb 2).InDQ := by
  let home : Tid → SchedId := fun t => if t = 2 then 1 else 0
  -- programs without the calls that `LinkSafe` is about
  let P : State WaitLinks → Act → Prop := fun s a => JoinRules s a ∧
    (∀ t c m extra, a ≠ .await t c m extra) ∧ ∀ t r, a ≠ .rwlockRelease t r
  have hcalm : ∀ s a, joinCalm s a = true → P s a := by
    refine fun s a ha => ⟨.of_calm ha, ?_, ?_⟩
    · rintro t c m extra rfl
      cases ha
    · rintro t r rfl
      cases ha
  let s₁ : State WaitLinks := { initial .empty .plain with active := update (fun _ => []) 0 [1] }
  have h₁ : Reachable ((pthSystem home).restrict P) s₁ :=
    .step (.init ⟨.plain, rfl⟩) ⟨hcalm _ (.dispatch 1) rfl, 5, rfl⟩
  have hjoin : P s₁ (.join 1 2) := by
    refine ⟨⟨?_, nofun, nofun, nofun⟩, nofun, nofun⟩
    rintro u tid he
    exact ⟨rfl, nofun⟩
  have h₂ : Reachable ((pthSystem home).restrict P) _ := .step h₁ ⟨hjoin, 5, rfl⟩
  have hpark : P (s₁.goto 1 (.joinEnter 2)) (.step 1) := by
    refine ⟨⟨nofun, nofun, ?_, nofun⟩, nofun, nofun⟩
    rintro u tid he - - (⟨t, k, hpc⟩ | ⟨g, ev, hm⟩)
    · by_cases ht : t = 1
      · subst ht; cases hpc
      · simp [ht, s₁, initial] at hpc
    · cases hm
  have h₃ : Reachable ((pthSystem home).restrict P) _ := .step h₂ ⟨hpark, 5, rfl⟩
  obtain ⟨s, hs, hlog, hin⟩ : ∃ s, Reachable ((pthSystem home).restrict P) s ∧
      .joined 1 2 7 ∈ s.log ∧ s.inbox 1 = [.reap 2] :=
    ⟨_, runActs_reachable hcalm h₃ (show runActs joinCalm home 5 _
      [.dispatch 2, .exit 2 7, .step 2, .drain 0, .resume 1, .step 1, .step 1] = some _ from rfl),
      by decide, rfl⟩
  have hsafe := hs.mono (Q := fun s a => LinkSafe s a ∧ JoinRules s a) fun s a hr ha =>
    ⟨linkSafe_of_calls (fun _ _ h => h.2) hr a, ha.1⟩
  obtain ⟨hv, -, hdq⟩ := join_returns_result hsafe 2
  obtain ⟨-, -, harg, hend⟩ := hv 1 7 hlog
  exact ⟨s, hlog, harg, hend, (hdq 1 (by simp [hin])).2⟩

/-- A cancellation request ends the wait of a joiner that has cancellation
disabled: `pth_join` returns for a thread that is alive, and has it freed. -/
theorem join_returns_early :
    ∃ home s, Reachable (pthSystem home) s ∧ .joined 1 2 0 ∈ s.log ∧ s.joinsOf 2 = [.joined 1 2 0] ∧
      (s.tcb 2).pc = .app ∧ (s.tcb 2).joinDone = false ∧ .reap 2 ∈ s.inbox 1 := by
  have hs := reachable_end (fun _ _ => true) .plain (fun t => if t = 2 then 1 else 0) 5
    [.dispatch 1, .cancelState 1 false false, .join 1 2, .step 1, .cancel 1, .resume 1, .step 1,
      .step 1] rfl
  exact ⟨_, _, hs.of_restrict, .head _, rfl, rfl, rfl, .head _⟩

end

end GnuPth
