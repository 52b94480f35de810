import GnuPth.Manager.Frame
import GnuPth.Manager.Evport

/-!
# The registration cache of the event port

What `pth_evp_commit` and `pth_evp_wait` leave as the reply for a descriptor:
the last report for it, or that a call of epoll_ctl(2) failed, or nothing.
-/

namespace GnuPth.Manager

theorem evportCore_replies (pipe : Fd) : (evportCore pipe).Replies Evp.ready :=
  ⟨fun _ _ _ _ _ => rfl, fun _ _ _ _ _ => rfl⟩

theorem le_grown_fold {α : Type} (need : Nat) (l : List α) (hcap : 0 < cap) :
    min need (cap + l.length) ≤ l.foldl (fun c _ => if c < need then 2 * c else c) cap := by
  induction l generalizing cap with
  | nil => exact min_le_right _ _
  | cons x l ih =>
    rw [List.foldl_cons, List.length_cons]
    split
    · have : min need (2 * cap + l.length) ≤ _ := ih (by omega)
      omega
    · have := ih hcap
      omega

theorem le_grown (hcap : 0 < cap) : need ≤ grown cap need := by
  have := le_grown_fold need (List.range need) hcap
  rw [List.length_range] at this
  unfold grown
  omega

namespace Evp

variable {q : Evp} {fd x : Fd}

/-! ### Stamps -/

/-- The stamps are of this pass or of earlier ones, and what is above the capacity
has never been used. -/
structure Sane (q : Evp) : Prop where
  gen : q.gen < 2 ^ 32
  stamps : ∀ fd, (q.reg fd).gen ≤ q.gen ∧ (q.reg fd).rdygen ≤ q.gen
  unused : ∀ fd, q.regcap ≤ fd → (q.reg fd).gen = 0 ∧ (q.reg fd).rdygen = 0

theorem sane_init (revalMs : Int) : Sane (init revalMs) :=
  ⟨by simp [init], fun _ => ⟨le_rfl, le_rfl⟩, fun _ _ => ⟨rfl, rfl⟩⟩

/-- While a pass collects: the touched descriptors are those with the stamp of the
pass, each once, and nothing has been reported in it. -/
structure Tracks (q : Evp) : Prop where
  pos : 0 < q.gen
  nodup : q.touched.Nodup
  touched : ∀ fd, fd ∈ q.touched ↔ (q.reg fd).gen = q.gen
  unreported : ∀ fd, (q.reg fd).rdygen ≠ q.gen
  below : ∀ fd ∈ q.touched, fd < q.regcap

theorem Sane.begin (h : Sane q) : Tracks q.begin := by
  have hfresh : 0 < q.begin.gen ∧ q.begin.touched = [] ∧
      ∀ fd, (q.begin.reg fd).gen ≠ q.begin.gen ∧ (q.begin.reg fd).rdygen ≠ q.begin.gen := by
    have hgen := h.gen
    unfold Evp.begin
    simp only
    split
    · refine ⟨Nat.one_pos, rfl, fun fd => ?_⟩
      simp only
      split
      · exact ⟨nofun, nofun⟩
      · rename_i hfd
        have := h.unused fd (not_lt.mp hfd)
        omega
    · rename_i hne
      refine ⟨Nat.pos_of_ne_zero hne, rfl, fun fd => ?_⟩
      have := h.stamps fd
      simp only at hne ⊢
      omega
  obtain ⟨hpos, htouched, hstamps⟩ := hfresh
  refine ⟨hpos, htouched ▸ List.nodup_nil, fun fd => ?_, fun fd => (hstamps fd).2, ?_⟩
  · rw [htouched]
    exact ⟨nofun, fun hg => absurd hg (hstamps fd).1⟩
  · rw [htouched]
    nofun

theorem growReg_gen (q : Evp) (fd : Fd) : (q.growReg fd).gen = q.gen := by
  unfold growReg
  split <;> rfl

theorem growReg_touched (q : Evp) (fd : Fd) : (q.growReg fd).touched = q.touched := by
  unfold growReg
  split <;> rfl

theorem lt_growReg : fd < (q.growReg fd).regcap := by
  unfold growReg
  split
  · assumption
  · apply le_grown
    split
    · omega
    · omega

theorem le_growReg : q.regcap ≤ (q.growReg fd).regcap := by
  by_cases h : fd < q.regcap
  · simp [growReg, h]
  · exact (not_lt.mp h).trans (lt_growReg).le

theorem growReg_reg (q : Evp) (fd x : Fd) : (q.growReg fd).reg x = q.reg x ∨
    q.regcap ≤ x ∧ (q.growReg fd).reg x = .new := by
  unfold growReg
  split
  · exact .inl rfl
  · generalize grown (if q.regcap = 0 then 64 else q.regcap) (fd + 1) = nc
    by_cases hx : q.regcap ≤ x ∧ x < nc
    · exact .inr ⟨hx.1, if_pos hx⟩
    · exact .inl (if_neg hx)

theorem Tracks.growReg (h : Tracks q) (fd : Fd) : Tracks (q.growReg fd) := by
  refine ⟨?_, ?_, fun x => ?_, fun x => ?_, fun x hx => ?_⟩
  · rw [growReg_gen]
    exact h.pos
  · rw [growReg_touched]
    exact h.nodup
  · rw [growReg_touched, growReg_gen]
    rcases growReg_reg q fd x with hr | ⟨hx, hr⟩
    · rw [hr]
      exact h.touched x
    · rw [hr]
      refine ⟨fun ht => absurd (h.below x ht) (not_lt.mpr hx), fun hg => ?_⟩
      exact absurd hg h.pos.ne
  · rw [growReg_gen]
    rcases growReg_reg q fd x with hr | ⟨_, hr⟩
    · rw [hr]
      exact h.unreported x
    · rw [hr]
      exact h.pos.ne
  · rw [growReg_touched] at hx
    exact (h.below x hx).trans_le le_growReg

theorem setReg_reg (q : Evp) (fd x : Fd) (r : Evreg) :
    (q.setReg fd r).reg x = if x = fd then r else q.reg x := by
  by_cases hx : x = fd
  · subst hx
    simp [setReg]
  · simp [setReg, hx]

@[simp] theorem setReg_gen (q : Evp) (fd : Fd) (r : Evreg) : (q.setReg fd r).gen = q.gen := rfl

@[simp] theorem setReg_regcap (q : Evp) (fd : Fd) (r : Evreg) :
    (q.setReg fd r).regcap = q.regcap := rfl

theorem want_gen (q : Evp) (fd : Fd) (mask : Bits) : (q.want fd mask).gen = q.gen := by
  unfold want
  simp only
  split <;> exact growReg_gen q fd

theorem want_regcap (q : Evp) (fd : Fd) (mask : Bits) :
    (q.want fd mask).regcap = (q.growReg fd).regcap := by
  unfold want
  simp only
  split <;> rfl

theorem want_reg (q : Evp) (fd x : Fd) (mask : Bits) :
    (q.want fd mask).reg x =
      if x = fd then
        { (q.growReg fd).reg fd with
          gen := q.gen
          want := if ((q.growReg fd).reg fd).gen = q.gen then ((q.growReg fd).reg fd).want.or mask
            else mask }
      else (q.growReg fd).reg x := by
  unfold want
  simp only [growReg_gen, ne_eq, ite_not]
  split
  · rename_i hg
    rw [setReg_reg, hg]
  · exact setReg_reg _ fd x _

theorem want_touched (q : Evp) (fd : Fd) (mask : Bits) :
    (q.want fd mask).touched =
      if ((q.growReg fd).reg fd).gen = q.gen then q.touched else q.touched ++ [fd] := by
  unfold want
  simp only [growReg_gen, growReg_touched, ite_not]
  split
  · exact growReg_touched q fd
  · rfl

theorem Tracks.mem_want (h : Tracks q) :
    x ∈ (q.want fd mask).touched ↔ x = fd ∨ x ∈ q.touched := by
  rw [want_touched]
  split
  · rename_i hgen
    rw [← growReg_gen q fd, ← (h.growReg fd).touched, growReg_touched] at hgen
    exact ⟨.inr, fun hx => hx.elim (fun hx => hx ▸ hgen) id⟩
  · rw [List.mem_append, List.mem_singleton, or_comm]

theorem Tracks.want (h : Tracks q) (fd : Fd) (mask : Bits) : Tracks (q.want fd mask) := by
  have hg := h.growReg fd
  refine ⟨?_, ?_, fun x => ?_, fun x => ?_, fun x hx => ?_⟩
  · rw [want_gen]
    exact h.pos
  · rw [want_touched]
    split
    · exact h.nodup
    · rename_i hgen
      rw [← growReg_gen q fd, ← hg.touched, growReg_touched] at hgen
      exact h.nodup.append (List.nodup_singleton fd) (List.disjoint_singleton.mpr hgen)
  · rw [h.mem_want, want_gen, want_reg]
    split
    · rename_i hx
      exact ⟨fun _ => rfl, fun _ => .inl hx⟩
    · rename_i hx
      rw [← growReg_gen q fd, ← hg.touched, growReg_touched]
      exact ⟨fun hm => hm.resolve_left hx, .inr⟩
  · have hold := hg.unreported x
    rw [growReg_gen] at hold
    rw [want_gen, want_reg]
    split
    · rename_i hx
      exact hx ▸ hold
    · exact hold
  · rw [want_regcap]
    rcases h.mem_want.mp hx with rfl | hx
    · exact lt_growReg
    · exact (h.below x hx).trans_le le_growReg

def Stamped (fd : Fd) (q : Evp) : Prop := fd < q.regcap ∧ (q.reg fd).gen = q.gen

theorem stamped_want (q : Evp) (fd : Fd) (mask : Bits) : Stamped fd (q.want fd mask) := by
  refine ⟨?_, ?_⟩
  · rw [want_regcap]
    exact lt_growReg
  · rw [want_gen, want_reg, if_pos rfl]

theorem Stamped.want (h : Stamped x q) (fd : Fd) (mask : Bits) : Stamped x (q.want fd mask) := by
  refine ⟨?_, ?_⟩
  · rw [want_regcap]
    exact h.1.trans_le le_growReg
  · rw [want_gen, want_reg]
    split
    · rfl
    · rcases growReg_reg q fd x with hr | ⟨hx, _⟩
      · rw [hr, h.2]
      · exact absurd h.1 (not_lt.mpr hx)

theorem stamped_wantSelect (q : Evp) (hfd : fd < a.nfd)
    (ha : (a.bits mem fd).any = true) : Stamped fd (q.wantSelect mem a) := by
  obtain ⟨before, after, hsplit⟩ := List.append_of_mem (List.mem_range.mpr hfd)
  unfold Evp.wantSelect
  rw [hsplit, List.foldl_append, List.foldl_cons, if_pos ha]
  apply List.foldlRecOn
  · exact stamped_want _ fd _
  · intro q hq y _
    split
    · exact hq.want y _
    · exact hq

/-! ### Commit -/

/-- `pth_evp_ctl` flags the descriptor whose entry is `r`. -/
def flags (os : EvpOs) (force : Bool) (fd : Fd) (r : Evreg) : Bool :=
  if !r.registered then
    match os.ctl .add fd r.want with
    | none | some .EEXIST => false
    | some _ => true
  else if r.regmask ≠ r.want ∨ force then
    match os.ctl .mod fd r.want with
    | none => false
    | some .ENOENT => (os.ctl .add fd r.want).isSome
    | some _ => true
  else false

structure Ctl (fd : Fd) (q q' : Evp) : Prop where
  gen : q'.gen = q.gen
  force : q'.force = q.force
  regcap : q'.regcap = q.regcap
  other : ∀ x, x ≠ fd → q'.reg x = q.reg x
  stamp : (q'.reg fd).gen = (q.reg fd).gen

theorem Ctl.setReg (q : Evp) (fd : Fd) (h : r.gen = (q.reg fd).gen) :
    Ctl fd q (q.setReg fd r) :=
  ⟨rfl, rfl, rfl, fun x hx => by rw [setReg_reg, if_neg hx], by rw [setReg_reg, if_pos rfl, h]⟩

theorem Ctl.register (q : Evp) (fd : Fd) : Ctl fd q (q.register fd) :=
  have h : Ctl fd q (q.setReg fd
    { q.reg fd with registered := true, regmask := (q.reg fd).want }) := .setReg q fd rfl
  ⟨rfl, rfl, rfl, h.other, h.stamp⟩

theorem ctl_spec (q : Evp) (os : EvpOs) (fd : Fd) :
    Ctl fd q (q.ctl os fd) ∧
      ((q.ctl os fd).reg fd).ready =
        (if flags os q.force fd (q.reg fd) then evpFail else (q.reg fd).ready) ∧
      ((q.ctl os fd).reg fd).rdygen =
        (if flags os q.force fd (q.reg fd) then q.gen else (q.reg fd).rdygen) := by
  have hsame : Ctl fd q q := ⟨rfl, rfl, rfl, fun _ _ => rfl, rfl⟩
  have hregister := Ctl.register q fd
  unfold ctl flags
  simp only
  split
  · cases hadd : os.ctl .add fd (q.reg fd).want with
    | none => exact ⟨hregister, by simp [Evp.register, setReg_reg]⟩
    | some err =>
      cases err with
      | EEXIST =>
        cases hmod : os.ctl .mod fd (q.reg fd).want with
        | none => exact ⟨hregister, by simp [Evp.register, setReg_reg]⟩
        | some => exact ⟨hsame, by simp⟩
      | _ => exact ⟨.setReg q fd rfl, by simp [flag, setReg_reg]⟩
  · split
    · cases hmod : os.ctl .mod fd (q.reg fd).want with
      | none => exact ⟨.setReg q fd rfl, by simp [remask, setReg_reg]⟩
      | some err =>
        cases err with
        | ENOENT =>
          cases hadd : os.ctl .add fd (q.reg fd).want with
          | none => exact ⟨.setReg q fd rfl, by simp [remask, setReg_reg]⟩
          | some => exact ⟨.setReg q fd rfl, by simp [drop, setReg_reg]⟩
        | _ => exact ⟨.setReg q fd rfl, by simp [drop, setReg_reg]⟩
    · exact ⟨hsame, by simp⟩

theorem ctls_spec (os : EvpOs) {fds : List Fd} (hn : fds.Nodup) (q : Evp) :
    (fds.foldl (fun q fd => q.ctl os fd) q).gen = q.gen ∧
      (fds.foldl (fun q fd => q.ctl os fd) q).regcap = q.regcap ∧
      ∀ x, ((fds.foldl (fun q fd => q.ctl os fd) q).reg x).ready =
          (if x ∈ fds ∧ flags os q.force x (q.reg x) then evpFail else (q.reg x).ready) ∧
        ((fds.foldl (fun q fd => q.ctl os fd) q).reg x).rdygen =
          (if x ∈ fds ∧ flags os q.force x (q.reg x) then q.gen else (q.reg x).rdygen) ∧
        ((fds.foldl (fun q fd => q.ctl os fd) q).reg x).gen = (q.reg x).gen := by
  induction fds generalizing q with
  | nil => exact ⟨rfl, rfl, fun x => by simp⟩
  | cons fd fds ih =>
    rw [List.nodup_cons] at hn
    obtain ⟨hctl, hready, hrdygen⟩ := ctl_spec q os fd
    obtain ⟨hgen, hcap, hreg⟩ := ih hn.2 (q.ctl os fd)
    refine ⟨hgen.trans hctl.gen, hcap.trans hctl.regcap, fun x => ?_⟩
    rw [List.foldl_cons, (hreg x).1, (hreg x).2.1, (hreg x).2.2, hctl.force, hctl.gen]
    by_cases hx : x = fd
    · subst hx
      simp [hn.1, hready, hrdygen, hctl.stamp]
    · simp [hx, hctl.other x hx]

structure Prunes (q q' : Evp) : Prop where
  gen : q'.gen = q.gen
  regcap : q'.regcap = q.regcap
  reg : ∀ x, (q'.reg x).gen = (q.reg x).gen ∧ (q'.reg x).ready = (q.reg x).ready ∧
    (q'.reg x).rdygen = (q.reg x).rdygen

theorem pruneStep_prunes (c : Nat × Evp) : Prunes c.2 (pruneStep c).2 := by
  unfold pruneStep
  simp only
  split
  · exact ⟨rfl, rfl, fun _ => ⟨rfl, rfl, rfl⟩⟩
  · split
    · refine ⟨rfl, rfl, fun x => ?_⟩
      simp only [setReg_reg]
      split
      · rename_i hx
        subst hx
        exact ⟨rfl, rfl, rfl⟩
      · exact ⟨rfl, rfl, rfl⟩
    · exact ⟨rfl, rfl, fun _ => ⟨rfl, rfl, rfl⟩⟩

theorem prune_prunes (q : Evp) : Prunes q q.prune := by
  apply List.foldlRecOn (motive := fun c : Nat × Evp => Prunes q c.2)
  · exact ⟨rfl, rfl, fun _ => ⟨rfl, rfl, rfl⟩⟩
  · intro c hc _ _
    have hstep := pruneStep_prunes c
    refine ⟨hstep.gen.trans hc.gen, hstep.regcap.trans hc.regcap, fun x => ?_⟩
    obtain ⟨hg, hr, hd⟩ := hstep.reg x
    obtain ⟨hg', hr', hd'⟩ := hc.reg x
    exact ⟨hg.trans hg', hr.trans hr', hd.trans hd'⟩

theorem commit_gen (h : Tracks q) (os : EvpOs) :
    (q.commit os).gen = q.gen ∧ (q.commit os).regcap = q.regcap := by
  obtain ⟨hgen, hcap, _⟩ := ctls_spec os h.nodup q
  exact ⟨(prune_prunes _).gen.trans hgen, (prune_prunes _).regcap.trans hcap⟩

/-- After `pth_evp_commit` exactly the flagged descriptors have a reply. -/
theorem commit_ready (h : Tracks q) (os : EvpOs) (x : Fd) :
    (q.commit os).ready x =
      if x ∈ q.touched ∧ flags os q.force x (q.reg x) then evpFail else .none := by
  obtain ⟨hgen, hcap, hreg⟩ := ctls_spec os h.nodup q
  obtain ⟨hg, hc⟩ := commit_gen h os
  have hp := (prune_prunes (q.touched.foldl (fun q fd => q.ctl os fd) q)).reg x
  have hready : ((q.commit os).reg x).ready = _ := hp.2.1.trans (hreg x).1
  have hrdygen : ((q.commit os).reg x).rdygen = _ := hp.2.2.trans (hreg x).2.1
  rw [ready, hg, hc, hready, hrdygen]
  by_cases hx : x ∈ q.touched ∧ flags os q.force x (q.reg x) = true
  · simp [hx, h.below x hx.1]
  · simp [hx, h.unreported x]

/-! ### Wait -/

def lastReport : List (Fd × EpollEvents) → Fd → Option EpollEvents
  | [], _ => none
  | ev :: evs, fd => (lastReport evs fd).or (if ev.1 = fd then some ev.2 else none)

theorem lastReport_mem (h : lastReport evs fd = some ev) : fd ∈ evs.map Prod.fst := by
  induction evs with
  | nil => cases h
  | cons x evs ih =>
    rw [lastReport] at h
    grind

theorem report_gen (q : Evp) (ev : Fd × EpollEvents) :
    (q.report ev).gen = q.gen ∧ (q.report ev).regcap = q.regcap := by
  unfold report
  split <;> exact ⟨rfl, rfl⟩

theorem report_ready (q : Evp) (ev : Fd × EpollEvents) (hx : x < q.regcap) :
    (q.report ev).ready x = if ev.1 = x then evpFromEpoll ev.2 else q.ready x := by
  unfold report
  by_cases hev : ev.1 = x
  · subst hev
    simp [hx, ready, setReg_reg]
  · split
    · simp [ready, setReg_reg, Ne.symm hev]
    · rfl

theorem reports_ready (evs : List (Fd × EpollEvents)) (q : Evp) (hx : x < q.regcap) :
    (evs.foldl report q).ready x = ((lastReport evs x).map evpFromEpoll).getD (q.ready x) := by
  induction evs generalizing q with
  | nil => rfl
  | cons ev evs ih =>
    rw [List.foldl_cons, ih _ (by rwa [(report_gen q ev).2]), report_ready q ev hx, lastReport]
    cases lastReport evs x with
    | none => split <;> rfl
    | some => rfl

theorem reports_regcap (evs : List (Fd × EpollEvents)) (q : Evp) :
    (evs.foldl report q).regcap = q.regcap := by
  induction evs generalizing q with
  | nil => rfl
  | cons ev evs ih => exact (ih _).trans (report_gen q ev).2

/-- The reports that `pth_evp_wait` takes in; without a buffer there are none. -/
def delivered (q : Evp) (os : EvpOs) : List (Fd × EpollEvents) :=
  if (q.growEvs os).evcap = 0 then [] else os.wait.getD []

theorem growEvs_reg (q : Evp) (os : EvpOs) :
    (q.growEvs os).reg = q.reg ∧ (q.growEvs os).gen = q.gen ∧
      (q.growEvs os).regcap = q.regcap := by
  unfold growEvs
  split <;> exact ⟨rfl, rfl, rfl⟩

theorem ready_congr {q' : Evp} (hreg : q'.reg = q.reg) (hgen : q'.gen = q.gen)
    (hcap : q'.regcap = q.regcap) : q'.ready = q.ready := by
  funext x
  simp [ready, hreg, hgen, hcap]

theorem evpWait_ready (q : Evp) (os : EvpOs) (timeout : Int) (hx : x < q.regcap) :
    (q.evpWait os timeout).1.ready x =
      ((lastReport (q.delivered os) x).map evpFromEpoll).getD (q.ready x) := by
  obtain ⟨hreg, hgen, hcap⟩ := growEvs_reg q os
  have hready := ready_congr hreg hgen hcap
  unfold evpWait delivered
  simp only
  split
  · rw [hready]
    rfl
  · cases os.wait with
    | none =>
      have h : Evp.ready { q.growEvs os with waited := some timeout } = q.ready :=
        ready_congr hreg hgen hcap
      rw [h]
      rfl
    | some evs =>
      simp only [Option.getD_some]
      rw [reports_ready evs _ (by rwa [← hcap] at hx)]
      have h : Evp.ready { q.growEvs os with waited := some timeout } = q.ready :=
        ready_congr hreg hgen hcap
      rw [h]

theorem evpWait_regcap (q : Evp) (os : EvpOs) (timeout : Int) :
    (q.evpWait os timeout).1.regcap = q.regcap := by
  obtain ⟨_, _, hcap⟩ := growEvs_reg q os
  unfold evpWait
  simp only
  split
  · exact hcap
  · split
    · exact (reports_regcap _ _).trans hcap
    · exact hcap

theorem evpWait_fail (hf : ((q.evpWait os timeout).1.ready x).fail = true) :
    (q.ready x).fail = true := by
  by_cases hx : x < q.regcap
  · rw [evpWait_ready q os timeout hx] at hf
    cases hl : lastReport (q.delivered os) x with
    | none => rwa [hl] at hf
    | some =>
      rw [hl] at hf
      cases hf
  · have hno : ¬ (x < (q.evpWait os timeout).1.regcap ∧
        ((q.evpWait os timeout).1.reg x).rdygen = (q.evpWait os timeout).1.gen) := by
      rw [evpWait_regcap]
      exact fun h => hx h.1
    rw [ready, if_neg hno] at hf
    cases hf

/-! ### The stamps stay sane -/

theorem Sane.of_reg (h : Sane q) (hgen : q'.gen = q.gen) (hcap : q'.regcap = q.regcap)
    (hreg : ∀ x, (q'.reg x).gen = (q.reg x).gen ∧ (q'.reg x).rdygen = (q.reg x).rdygen) :
    Sane q' := by
  refine ⟨hgen ▸ h.gen, fun fd => ?_, fun fd hfd => ?_⟩
  · rw [hgen, (hreg fd).1, (hreg fd).2]
    exact h.stamps fd
  · rw [(hreg fd).1, (hreg fd).2]
    exact h.unused fd (hcap ▸ hfd)

theorem Sane.setReg (h : Sane q) (hfd : fd < q.regcap) (hgen : r.gen ≤ q.gen)
    (hrdygen : r.rdygen ≤ q.gen) : Sane (q.setReg fd r) := by
  refine ⟨h.gen, fun x => ?_, fun x hx => ?_⟩
  · rw [setReg_reg]
    split
    · exact ⟨hgen, hrdygen⟩
    · exact h.stamps x
  · have hne : x ≠ fd := fun he => absurd hfd (not_lt.mpr (he ▸ hx))
    rw [setReg_reg, if_neg hne]
    exact h.unused x hx

theorem Sane.begin_sane (h : Sane q) : Sane q.begin := by
  have hgen := h.gen
  unfold Evp.begin
  simp only
  split
  · refine ⟨by simp, fun fd => ?_, fun fd hfd => ?_⟩
    · simp only
      split
      · exact ⟨Nat.zero_le _, Nat.zero_le _⟩
      · rename_i hfd
        have := h.unused fd (not_lt.mp hfd)
        omega
    · simp only [if_neg (not_lt.mpr hfd)]
      exact h.unused fd hfd
  · rename_i hne
    refine ⟨Nat.mod_lt _ (by decide), fun fd => ?_, h.unused⟩
    have := h.stamps fd
    simp only at hne ⊢
    omega

theorem Sane.growReg (h : Sane q) (fd : Fd) : Sane (q.growReg fd) := by
  refine ⟨(growReg_gen q fd).symm ▸ h.gen, fun x => ?_, fun x hx => ?_⟩
  · rw [growReg_gen]
    rcases growReg_reg q fd x with hr | ⟨_, hr⟩
    · rw [hr]
      exact h.stamps x
    · rw [hr]
      exact ⟨Nat.zero_le _, Nat.zero_le _⟩
  · rcases growReg_reg q fd x with hr | ⟨_, hr⟩
    · rw [hr]
      exact h.unused x (le_growReg.trans hx)
    · rw [hr]
      exact ⟨rfl, rfl⟩

theorem Sane.want (h : Sane q) (fd : Fd) (mask : Bits) : Sane (q.want fd mask) := by
  have hg := h.growReg fd
  unfold Evp.want
  simp only
  split
  · have hset := hg.setReg (lt_growReg) (r := { (q.growReg fd).reg fd with
      gen := (q.growReg fd).gen, want := mask }) le_rfl (hg.stamps fd).2
    exact ⟨hset.gen, hset.stamps, hset.unused⟩
  · exact hg.setReg lt_growReg (hg.stamps fd).1 (hg.stamps fd).2

theorem Sane.wanted (h : Sane q) (pipe : Fd) (now : Timeval) : Sane (q.wanted pipe now) := by
  have hw := h.want pipe ⟨true, false, false⟩
  unfold Evp.wanted heartbeat
  split
  · exact ⟨hw.gen, hw.stamps, hw.unused⟩
  · exact hw

theorem Tracks.wanted (h : Tracks q) (pipe : Fd) (now : Timeval) : Tracks (q.wanted pipe now) := by
  have hw := h.want pipe ⟨true, false, false⟩
  unfold Evp.wanted heartbeat
  split
  · exact ⟨hw.pos, hw.nodup, hw.touched, hw.unreported, hw.below⟩
  · exact hw

theorem Stamped.wanted (h : Stamped x q) (pipe : Fd) (now : Timeval) :
    Stamped x (q.wanted pipe now) := by
  have hw := h.want pipe ⟨true, false, false⟩
  unfold Evp.wanted heartbeat
  split
  · exact hw
  · exact hw

theorem Sane.commit (h : Sane q) (ht : Tracks q) (os : EvpOs) : Sane (q.commit os) := by
  obtain ⟨hgen, hcap, hreg⟩ := ctls_spec os ht.nodup q
  have hctls : Sane (q.touched.foldl (fun q fd => q.ctl os fd) q) := by
    refine ⟨hgen ▸ h.gen, fun x => ?_, fun x hx => ?_⟩
    · rw [hgen, (hreg x).2.1, (hreg x).2.2]
      refine ⟨(h.stamps x).1, ?_⟩
      split
      · exact le_rfl
      · exact (h.stamps x).2
    · have hx' : x ∉ q.touched := fun hm => absurd (ht.below x hm) (not_lt.mpr (hcap ▸ hx))
      rw [(hreg x).2.1, (hreg x).2.2]
      simpa [hx'] using h.unused x (hcap ▸ hx)
  have hp := prune_prunes (q.touched.foldl (fun q fd => q.ctl os fd) q)
  exact hctls.of_reg hp.gen hp.regcap fun x => ⟨(hp.reg x).1, (hp.reg x).2.2⟩

theorem Sane.report (h : Sane q) (ev : Fd × EpollEvents) : Sane (q.report ev) := by
  unfold Evp.report
  split
  · rename_i hev
    exact h.setReg hev (h.stamps ev.1).1 le_rfl
  · exact h

theorem Sane.evpWait (h : Sane q) (os : EvpOs) (timeout : Int) :
    Sane (q.evpWait os timeout).1 := by
  obtain ⟨hreg, hgen, hcap⟩ := growEvs_reg q os
  have hgrow : Sane (q.growEvs os) := h.of_reg hgen hcap fun x => by simp [hreg]
  unfold Evp.evpWait
  simp only
  split
  · exact hgrow
  · split
    · apply List.foldlRecOn
      · exact ⟨hgrow.gen, hgrow.stamps, hgrow.unused⟩
      · exact fun q hq ev _ => hq.report ev
    · exact ⟨hgrow.gen, hgrow.stamps, hgrow.unused⟩

end Evp

end GnuPth.Manager
