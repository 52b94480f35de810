import GnuPth.Lib.Sweep
import GnuPth.Manager.Stamps

/-!
# The registration cache and the kernel

The cache of the event port beside the interest set of the kernel, which forgets a
descriptor when it is closed. The kernel holds nothing that the cache does not know
of. While `pth_evp_commit` goes over the touched descriptors, a descriptor that was
just dropped is still listed; the loop over `evp_reglist` takes it out.
-/

namespace GnuPth.Manager

open Function (update update_apply)

/-- The open descriptors, and the masks in the interest set. -/
structure Kernel where
  isOpen : Fd → Bool
  interest : Fd → Option Bits

namespace Kernel

def ctlError (k : Kernel) (op : CtlOp) (fd : Fd) : Option CtlErrno :=
  if k.isOpen fd then
    match op, k.interest fd with
    | .add, some _ => some .EEXIST
    | .mod, none => some .ENOENT
    | _, _ => none
  else some .other

def set (k : Kernel) (fd : Fd) (mask : Option Bits) : Kernel :=
  { k with interest := update k.interest fd mask }

/-- epoll_ctl(2) with `EPOLL_CTL_ADD` or `EPOLL_CTL_MOD` -/
def epollCtl (k : Kernel) (op : CtlOp) (fd : Fd) (mask : Bits) : Option CtlErrno × Kernel :=
  match k.ctlError op fd with
  | none => (none, k.set fd mask)
  | some err => (some err, k)

/-- epoll_ctl(2) with `EPOLL_CTL_DEL`, whose error nobody looks at -/
def epollDel (k : Kernel) (fd : Fd) : Kernel := if k.isOpen fd then k.set fd none else k

def close (k : Kernel) (fd : Fd) : Kernel :=
  { k.set fd none with isOpen := update k.isOpen fd false }

def reopen (k : Kernel) (fd : Fd) : Kernel := { k with isOpen := update k.isOpen fd true }

end Kernel

namespace Evp

/-- `pth_evp_ctl` -/
def ctlIn (q : Evp) (k : Kernel) (fd : Fd) : Evp × Kernel :=
  let r := q.reg fd
  if !r.registered then
    match k.epollCtl .add fd r.want with
    | (none, k) => (q.register fd, k)
    | (some .EEXIST, k) =>
      match k.epollCtl .mod fd r.want with
      | (none, k) => (q.register fd, k)
      | (some _, k) => (q, k)
    | (some _, k) => (q.flag fd, k)
  else if r.regmask ≠ r.want ∨ q.force then
    match k.epollCtl .mod fd r.want with
    | (none, k) => (q.remask fd, k)
    | (some .ENOENT, k) =>
      match k.epollCtl .add fd r.want with
      | (none, k) => (q.remask fd, k)
      | (some _, k) => (q.drop fd, k)
    | (some _, k) => (q.drop fd, k)
  else (q, k)

/-- One round of the loop over `evp_reglist`. -/
def pruneIn (c : Nat × Evp × Kernel) : Nat × Evp × Kernel :=
  match c.2.1.reglist[c.1]? with
  | none => c
  | some fd =>
    let r := c.2.1.reg fd
    let p := pruneStep (c.1, c.2.1)
    (p.1, p.2,
      if (r.gen ≠ c.2.1.gen ∨ !r.registered) ∧ r.registered then c.2.2.epollDel fd else c.2.2)

/-- `pth_evp_commit` -/
def commitIn (q : Evp) (k : Kernel) : Evp × Kernel :=
  let c := q.touched.foldl (fun c fd => c.1.ctlIn c.2 fd) (q, k)
  (pruneIn^[c.1.reglist.length] (0, c)).2

/-! ### The kernel as the surroundings of a commit -/

section
variable {q q₀ : Evp} {k : Kernel} {c : Evp × Kernel} {fd : Fd} {fds : List Fd} {r : Evreg}
  {os : EvpOs} {revalMs : Int}

theorem ctlIn_ctl (q : Evp) (hos : ∀ op mask, os.ctl op fd mask = k.ctlError op fd) :
    (q.ctlIn k fd).1 = q.ctl os fd := by
  unfold ctlIn ctl Kernel.epollCtl
  simp only [hos]
  rcases ha : k.ctlError .add fd with _ | _ | _ | _ <;>
    rcases hm : k.ctlError .mod fd with _ | _ | _ | _ <;> simp only [ha, hm] <;>
      repeat' split
  all_goals rfl

theorem ctlIn_other (q : Evp) (k : Kernel) (op : CtlOp) (hx : x ≠ fd) :
    (q.ctlIn k fd).2.ctlError op x = k.ctlError op x := by
  have hctl : ∀ (k : Kernel) o m, (k.epollCtl o fd m).2.ctlError op x = k.ctlError op x := by
    intro k o m
    unfold Kernel.epollCtl
    split
    · simp [Kernel.set, Kernel.ctlError, hx]
    · rfl
  unfold ctlIn
  grind

theorem ctlIn_fold (hn : fds.Nodup)
    (hos : ∀ fd ∈ fds, ∀ op mask, os.ctl op fd mask = c.2.ctlError op fd) :
    (fds.foldl (fun c fd => c.1.ctlIn c.2 fd) c).1 = fds.foldl (fun q fd => q.ctl os fd) c.1 := by
  induction fds generalizing c with
  | nil => rfl
  | cons fd fds ih =>
    obtain ⟨hfd, hn⟩ := List.nodup_cons.mp hn
    rw [List.foldl_cons, List.foldl_cons, ← ctlIn_ctl c.1 (hos fd List.mem_cons_self)]
    apply ih hn
    intro x hx op mask
    have hne : x ≠ fd := fun he => hfd (he ▸ hx)
    rw [ctlIn_other c.1 c.2 op hne]
    exact hos x (List.mem_cons_of_mem fd hx) op mask

/-- The answers of the kernel are those of one of the surroundings of `pth_evp_commit`,
as each descriptor is seen to once. -/
theorem commitIn_commit (k : Kernel) (os : EvpOs) (hn : q.touched.Nodup) :
    (q.commitIn k).1 = q.commit { os with ctl := fun op fd _ => k.ctlError op fd } := by
  have hround : Function.Semiconj (fun c : Nat × Evp × Kernel => (c.1, c.2.1)) pruneIn pruneStep := by
    intro c
    unfold pruneIn
    split
    · simp_all [pruneStep]
    · rfl
  unfold commitIn commit prune
  rw [← ctlIn_fold (c := (q, k)) hn (fun _ _ _ _ => rfl), List.foldl_const, List.length_range]
  exact congrArg Prod.snd (hround.iterate_right _ _)

/-! ### One descriptor -/

/-- The kernel never holds a descriptor that is not registered, so `EEXIST` does not come up. -/
theorem ctlIn_cases (hk : ∀ m, k.interest fd = some m → (q.reg fd).registered = true) :
    q.ctlIn k fd = (q, k) ∧ (q.reg fd).registered = true ∧ (q.reg fd).regmask = (q.reg fd).want ∧
      q.force = false ∨
    k.isOpen fd = true ∧ q.ctlIn k fd =
      (if (q.reg fd).registered then q.remask fd else q.register fd, k.set fd (q.reg fd).want) ∨
    k.isOpen fd = false ∧
      q.ctlIn k fd = (if (q.reg fd).registered then q.drop fd else q.flag fd, k) := by
  unfold ctlIn Kernel.epollCtl Kernel.ctlError
  cases hopen : k.isOpen fd <;> cases hreg : (q.reg fd).registered <;>
    cases hint : k.interest fd <;> simp_all
  all_goals
    by_cases hc : (q.reg fd).regmask = (q.reg fd).want <;> cases hf : q.force <;> simp [hc]

/-! ### The touched descriptors -/

/-- The kernel holds a descriptor only as the cache knows it. -/
def Known (q : Evp) (k : Kernel) : Prop :=
  ∀ fd m, k.interest fd = some m →
    (q.reg fd).registered = true ∧ (q.reg fd).regmask = m ∧ k.isOpen fd = true

/-- What `pth_evp_ctl` has seen to. -/
structure Settled (q : Evp) (k : Kernel) (fd : Fd) : Prop where
  mask : (q.reg fd).registered = true → (q.reg fd).regmask = (q.reg fd).want
  forced : q.force = true → k.interest fd = some (q.reg fd).want ∨ (q.reg fd).ready = evpFail ∧
    (q.reg fd).rdygen = q.gen

/-- On the way through `evp_touched`, from the cache `q₀`; `rest` is still to come. -/
structure Committing (q₀ : Evp) (rest : List Fd) (c : Evp × Kernel) : Prop where
  gen : c.1.gen = q₀.gen
  force : c.1.force = q₀.force
  regcap : c.1.regcap = q₀.regcap
  entry : ∀ fd, (c.1.reg fd).gen = (q₀.reg fd).gen ∧ (c.1.reg fd).want = (q₀.reg fd).want
  nodup : c.1.reglist.Nodup
  below : ∀ fd ∈ c.1.reglist, fd < q₀.regcap
  listed : ∀ fd, (c.1.reg fd).registered = true → fd ∈ c.1.reglist
  todo : ∀ fd ∈ rest, fd ∈ c.1.reglist → (c.1.reg fd).registered = true
  known : Known c.1 c.2
  settled : ∀ fd ∈ q₀.touched, fd ∉ rest → Settled c.1 c.2 fd

theorem Committing.write {e : Option Bits} {l : List Fd} (h : Committing q₀ (fd :: rest) c)
    (hrest : fd ∉ rest) (hfd : fd < q₀.regcap)
    (hr : r.gen = (c.1.reg fd).gen ∧ r.want = (c.1.reg fd).want)
    (hl : l = c.1.reglist ∨ fd ∉ c.1.reglist ∧ l = c.1.reglist ++ [fd])
    (hmem : r.registered = true → fd ∈ l)
    (he : ∀ m, e = some m → r.registered = true ∧ r.regmask = m ∧ c.2.isOpen fd = true)
    (hs : Settled { c.1.setReg fd r with reglist := l } (c.2.set fd e) fd) :
    Committing q₀ rest ({ c.1.setReg fd r with reglist := l }, c.2.set fd e) := by
  obtain ⟨gen, force, regcap, entry, nodup, below, listed, todo, known, settled⟩ := h
  have hin : ∀ x, (x ∈ l → x ∈ c.1.reglist ∨ x = fd) ∧ (x ∈ c.1.reglist → x ∈ l) := by
    rcases hl with rfl | ⟨-, rfl⟩ <;> grind
  refine ⟨gen, force, regcap, fun x => ?_, ?_, fun x hx => ?_, fun x hx => ?_, fun x hx hm => ?_,
    fun x m hx => ?_, fun x hx hxr => ?_⟩
  · simp only [setReg_reg]
    grind
  · rcases hl with rfl | ⟨hl, rfl⟩
    · exact nodup
    · exact nodup.append (List.nodup_singleton fd) (List.disjoint_singleton.mpr hl)
  · grind
  · simp only [setReg_reg] at hx
    grind
  · have hne : x ≠ fd := fun he => hrest (he ▸ hx)
    simp only [setReg_reg, if_neg hne]
    grind
  · simp only [Kernel.set, update_apply, setReg_reg] at hx ⊢
    grind [Known]
  · by_cases hne : x = fd
    · exact hne ▸ hs
    · have hold := settled x hx (by simp [hne, hxr])
      refine ⟨?_, fun hf => ?_⟩
      · simpa [setReg_reg, hne] using hold.mask
      · simpa [setReg_reg, hne, Kernel.set] using hold.forced hf

theorem Committing.step (h : Committing q₀ (fd :: rest) c) (hrest : fd ∉ rest)
    (hfd : fd < q₀.regcap) : Committing q₀ rest (c.1.ctlIn c.2 fd) := by
  rcases ctlIn_cases fun m hm => (h.known fd m hm).1 with
    ⟨heq, hreg, hmask, hforce⟩ | ⟨hopen, heq⟩ | ⟨hclosed, heq⟩ <;> rw [heq]
  · refine { h with todo := fun x hx => h.todo x (List.mem_cons_of_mem fd hx), settled := ?_ }
    intro x hx hxr
    by_cases hne : x = fd
    · exact hne ▸ ⟨fun _ => hmask, fun hf => by simp [hforce] at hf⟩
    · exact h.settled x hx (by simp [hne, hxr])
  · have hset : ∀ r l, r.regmask = (c.1.reg fd).want → r.want = (c.1.reg fd).want →
        Settled { c.1.setReg fd r with reglist := l } (c.2.set fd (c.1.reg fd).want) fd := by
      intro r l hm hw
      refine ⟨fun _ => ?_, fun _ => .inl ?_⟩ <;> simp [setReg_reg, Kernel.set, hm, hw]
    split
    · rename_i hreg
      exact h.write hrest hfd ⟨rfl, rfl⟩ (.inl rfl) (h.listed fd) (by grind) (hset _ _ rfl rfl)
    · rename_i hreg
      exact h.write hrest hfd ⟨rfl, rfl⟩ (.inr ⟨fun hm => hreg (h.todo fd List.mem_cons_self hm), rfl⟩)
        (by simp) (by grind) (hset _ _ rfl rfl)
  · have hnone : c.2.interest fd = none := by
      cases hi : c.2.interest fd with
      | none => rfl
      | some m => exact absurd (h.known fd m hi).2.2 (by simp [hclosed])
    have hk : c.2.set fd none = c.2 := by simp [Kernel.set, ← hnone]
    have hset : ∀ r : Evreg, r.gen = (c.1.reg fd).gen ∧ r.want = (c.1.reg fd).want →
        r.registered = false → r.ready = evpFail ∧ r.rdygen = c.1.gen →
        Committing q₀ rest (c.1.setReg fd r, c.2) := by
      intro r hr hreg hfail
      rw [← hk]
      refine h.write hrest hfd hr (.inl rfl) (by simp [hreg]) nofun ⟨?_, fun _ => .inr ?_⟩
      · simp [setReg_reg, hreg]
      · simpa [setReg_reg] using hfail
    split
    · exact hset _ ⟨rfl, rfl⟩ rfl ⟨rfl, rfl⟩
    · rename_i hreg
      exact hset _ ⟨rfl, rfl⟩ (by simpa using hreg) ⟨rfl, rfl⟩

theorem Committing.run (h : Committing q₀ fds c) (hn : fds.Nodup) (hb : ∀ fd ∈ fds, fd < q₀.regcap) :
    Committing q₀ [] (fds.foldl (fun c fd => c.1.ctlIn c.2 fd) c) := by
  induction fds generalizing c with
  | nil => exact h
  | cons fd fds ih =>
    obtain ⟨hfd, hn⟩ := List.nodup_cons.mp hn
    exact ih (h.step hfd (hb fd List.mem_cons_self)) hn fun x hx => hb x (List.mem_cons_of_mem fd hx)

/-! ### The loop over `evp_reglist` -/

def kept (q : Evp) (fd : Fd) : Bool := (q.reg fd).gen = q.gen ∧ (q.reg fd).registered = true

/-- The descriptors of `D` have been taken out. -/
structure Pruned (c : Evp × Kernel) (D : List Fd) (c' : Evp × Kernel) : Prop where
  gen : c'.1.gen = c.1.gen
  regcap : c'.1.regcap = c.1.regcap
  reg : ∀ fd, c'.1.reg fd =
    if fd ∈ D then { c.1.reg fd with registered := false, regmask := .zero } else c.1.reg fd
  isOpen : c'.2.isOpen = c.2.isOpen
  interest : ∀ fd, c'.2.interest fd = if fd ∈ D then none else c.2.interest fd

theorem pruneIn_rounds (hk : Known c.1 c.2) :
    Sweep.Rounds (fun c : Evp × Kernel => c.1.reglist) (kept c.1) (Pruned c) pruneIn where
  stops i s hs := by simp [pruneIn, hs]
  keeps D i s x h hx hs hkeep := by
    have hreg : s.1.reg x = c.1.reg x := (h.reg x).trans (if_neg hx)
    simp only [kept, decide_eq_true_eq, ← hreg, ← h.gen] at hkeep
    simp [pruneIn, pruneStep, hs, hkeep]
  drops D i s x h hx hs hkeep := by
    have hreg : s.1.reg x = c.1.reg x := (h.reg x).trans (if_neg hx)
    have hdrop : (s.1.reg x).gen ≠ s.1.gen ∨ (!(s.1.reg x).registered) = true := by
      rw [hreg, h.gen]
      simpa [kept, imp_iff_not_or] using hkeep
    have hint : s.2.interest x = c.2.interest x := (h.interest x).trans (if_neg hx)
    simp only [pruneIn, pruneStep, hs, if_pos hdrop, true_and]
    refine ⟨h.gen, h.regcap, fun y => ?_, ?_, fun y => ?_⟩
    · simp only [setReg_reg, List.mem_cons, h.reg]
      grind
    · split
      · unfold Kernel.epollDel
        split <;> exact h.isOpen
      · exact h.isOpen
    · by_cases hy : y = x
      · subst hy
        rw [if_pos List.mem_cons_self]
        cases hi : c.2.interest y with
        | none =>
          have hnone := hint.trans hi
          split
          · unfold Kernel.epollDel
            split <;> simp [Kernel.set, hnone]
          · exact hnone
        | some m =>
          -- what the kernel holds is registered and open, so `EPOLL_CTL_DEL` succeeds
          obtain ⟨hr, -, hopen⟩ := hk y m hi
          rw [if_pos ⟨hdrop, hreg ▸ hr⟩, Kernel.epollDel, if_pos (by rwa [h.isOpen])]
          simp [Kernel.set]
      · have hother : (s.2.epollDel x).interest y = s.2.interest y := by
          unfold Kernel.epollDel
          split <;> simp [Kernel.set, hy]
        simp only [List.mem_cons, hy, false_or, ← h.interest]
        split
        · exact hother
        · rfl

/-! ### Commit -/

/-- `c` is between the two loops of the commit. -/
theorem Committing.pruned (h : Committing q₀ [] c) :
    ∃ E, Pruned c E (pruneIn^[c.1.reglist.length] (0, c)).2 ∧
      (pruneIn^[c.1.reglist.length] (0, c)).2.1.reglist.Nodup ∧
      (∀ fd, fd ∈ E ↔ fd ∈ c.1.reglist ∧ c.1.kept fd = false) ∧
      ∀ fd, fd ∈ (pruneIn^[c.1.reglist.length] (0, c)).2.1.reglist ↔
        fd ∈ c.1.reglist ∧ c.1.kept fd = true := by
  have hstart : Pruned c [] c := ⟨rfl, rfl, by simp, rfl, by simp⟩
  obtain ⟨l, E, hl, hp, hE, hI⟩ := (pruneIn_rounds h.known).run (List.nil_append _).symm le_rfl
    (by simpa using h.nodup) hstart
  have hl : (pruneIn^[c.1.reglist.length] (0, c)).2.1.reglist = l := hl
  refine ⟨E, hI, ?_, fun fd => ?_, fun fd => ?_⟩
  · exact hl ▸ hp.nodup_iff.mpr (h.nodup.filter _)
  · rw [hE.mem_iff]
    simp
  · rw [hl, hp.mem_iff, List.mem_filter]

/-- Between two passes. -/
structure Cache (q : Evp) (k : Kernel) : Prop where
  nodup : q.reglist.Nodup
  listed : ∀ fd, fd ∈ q.reglist ↔ (q.reg fd).registered = true
  below : ∀ fd ∈ q.reglist, fd < q.regcap
  known : Known q k

theorem Cache.committing (h : Cache q k) : Committing q q.touched (q, k) :=
  ⟨rfl, rfl, rfl, fun _ => ⟨rfl, rfl⟩, h.nodup, h.below, fun fd => (h.listed fd).mpr,
    fun fd _ => (h.listed fd).mp, h.known, fun _ hx hxr => absurd hx hxr⟩

theorem Cache.commit (h : Cache q k) (ht : Tracks q) :
    Cache (q.commitIn k).1 (q.commitIn k).2 ∧
    (∀ fd ∈ (q.commitIn k).1.reglist, fd ∈ q.touched ∧
      ((q.commitIn k).1.reg fd).want = (q.reg fd).want ∧
      ((q.commitIn k).1.reg fd).regmask = (q.reg fd).want) ∧
    (q.force = true →
      (∀ fd ∈ q.touched, (q.commitIn k).2.interest fd = some (q.reg fd).want ∨
        (q.commitIn k).1.ready fd = evpFail) ∧
      ∀ fd, fd ∉ q.touched → (q.commitIn k).2.interest fd = none) := by
  have hc := h.committing.run ht.nodup ht.below
  obtain ⟨E, hp, hnodup, hE, hlist⟩ := hc.pruned
  unfold commitIn
  generalize q.touched.foldl (fun c fd => c.1.ctlIn c.2 fd) (q, k) = c at *
  generalize (pruneIn^[c.1.reglist.length] (0, c)).2 = d at *
  have hkept : ∀ fd, c.1.kept fd = true ↔ fd ∈ q.touched ∧ (c.1.reg fd).registered = true := by
    intro fd
    rw [ht.touched, ← (hc.entry fd).1, ← hc.gen]
    simp [kept]
  have hreg : ∀ fd, (c.1.reg fd).registered = true → (fd ∈ E ↔ fd ∉ q.touched) := by
    intro fd hr
    simp [hE, hc.listed fd hr, ← Bool.not_eq_true, hkept, hr]
  have hstay : ∀ fd ∈ d.1.reglist, fd ∈ q.touched ∧ (c.1.reg fd).registered = true ∧
      d.1.reg fd = c.1.reg fd := by
    intro fd hm
    obtain ⟨ht, hr⟩ := (hkept fd).mp ((hlist fd).mp hm).2
    exact ⟨ht, hr, (hp.reg fd).trans (if_neg fun hm => (hreg fd hr).mp hm ht)⟩
  refine ⟨⟨hnodup, fun fd => ⟨fun hm => ?_, fun hr => ?_⟩, fun fd hm => ?_, fun fd m hm => ?_⟩,
    fun fd hm => ?_, fun hforce => ⟨fun fd hm => ?_, fun fd hm => ?_⟩⟩
  · obtain ⟨-, hr, heq⟩ := hstay fd hm
    rw [heq, hr]
  · rw [hp.reg] at hr
    split at hr
    · cases hr
    · rename_i hE
      exact (hlist fd).mpr ⟨hc.listed fd hr, (hkept fd).mpr ⟨by_contra ((hreg fd hr).not.mp hE), hr⟩⟩
  · rw [hp.regcap, hc.regcap]
    exact hc.below fd ((hlist fd).mp hm).1
  · rw [hp.interest] at hm
    split at hm
    · cases hm
    · rename_i hE
      rw [hp.reg, if_neg hE, hp.isOpen]
      exact hc.known fd m hm
  · obtain ⟨htouched, hr, heq⟩ := hstay fd hm
    rw [heq, (hc.settled fd htouched List.not_mem_nil).mask hr, (hc.entry fd).2]
    exact ⟨htouched, rfl, rfl⟩
  · rw [← (hc.entry fd).2]
    rcases (hc.settled fd hm List.not_mem_nil).forced (hc.force.trans hforce) with hi | ⟨hf, hg⟩
    · have hE : fd ∉ E := fun hE => (hreg fd (hc.known fd _ hi).1).mp hE hm
      exact .inl ((hp.interest fd).trans ((if_neg hE).trans hi))
    · right
      rw [ready, hp.regcap, hc.regcap, hp.gen, hp.reg]
      split <;> simp [ht.below fd hm, hf, hg]
  · rw [hp.interest]
    split
    · rfl
    · rename_i hE
      cases hi : c.2.interest fd with
      | none => rfl
      | some m => exact absurd ((hreg fd (hc.known fd m hi).1).mpr hm) hE

/-! ### Histories -/

/-- The calls of `pth_evp_want` in a pass, with all the memory they need, and whether
the revalidation is due. -/
def wantAll (q : Evp) (ws : List (Fd × Bits)) (force : Bool) : Evp :=
  { ws.foldl (fun q w => q.want w.1 w.2) q.begin with force }

/-- Passes, with descriptors closed and opened in between. -/
inductive Reach (revalMs : Int) : Evp → Kernel → Prop
  | init (isOpen : Fd → Bool) : Reach revalMs (init revalMs) ⟨isOpen, fun _ => none⟩
  | close {q : Evp} {k : Kernel} (h : Reach revalMs q k) (fd : Fd) : Reach revalMs q (k.close fd)
  | reopen {q : Evp} {k : Kernel} (h : Reach revalMs q k) (fd : Fd) : Reach revalMs q (k.reopen fd)
  | pass {q : Evp} {k : Kernel} (h : Reach revalMs q k) (ws : List (Fd × Bits)) (force : Bool)
      (os : EvpOs) (timeout : Int) :
      Reach revalMs (((q.wantAll ws force).commitIn k).1.evpWait os timeout).1
        ((q.wantAll ws force).commitIn k).2

theorem Collected.wants (h : Collected (q, l)) (ws : List (Fd × Bits)) :
    Collected (ws.foldl (fun q w => q.want w.1 w.2) q, l ++ ws) := by
  induction ws generalizing q l with
  | nil => rwa [List.append_nil]
  | cons w ws ih => simpa using ih (h.want_step w.1 w.2)

theorem Sane.wantAll (h : Sane q) (ws : List (Fd × Bits)) (force : Bool) :
    Collected (q.wantAll ws force, ws) := by
  have hbegin : Collected (q.begin, []) := h.collected (List.forall_mem_nil _)
  have hw := hbegin.wants ws
  obtain ⟨hs, ht⟩ := hw.forced force
  exact ⟨hs, ht, hw.touched, hw.want⟩

theorem Cache.of_reg (h : Cache q k) (hlist : q'.reglist = q.reglist) (hcap : q.regcap ≤ q'.regcap)
    (hreg : ∀ fd, (q'.reg fd).registered = (q.reg fd).registered ∧
        (q'.reg fd).regmask = (q.reg fd).regmask ∨
      q.regcap ≤ fd ∧ (q'.reg fd).registered = false) : Cache q' k := by
  -- an entry above the capacity is not registered before the growing either
  have hsame : ∀ fd, (q'.reg fd).registered = (q.reg fd).registered ∧
      ((q.reg fd).registered = true → (q'.reg fd).regmask = (q.reg fd).regmask) := by
    intro fd
    rcases hreg fd with ⟨hr, hm⟩ | ⟨hfd, hr⟩
    · exact ⟨hr, fun _ => hm⟩
    · have hno : (q.reg fd).registered ≠ true := fun hr =>
        absurd (h.below fd ((h.listed fd).mpr hr)) (not_lt.mpr hfd)
      exact ⟨hr.trans (Bool.eq_false_of_not_eq_true hno).symm, fun hr => absurd hr hno⟩
  refine ⟨hlist ▸ h.nodup, fun fd => ?_, fun fd hm => ?_, fun fd m hm => ?_⟩
  · rw [hlist, (hsame fd).1]
    exact h.listed fd
  · exact (h.below fd (hlist ▸ hm)).trans_le hcap
  · obtain ⟨hr, hm, hopen⟩ := h.known fd m hm
    rw [(hsame fd).1, (hsame fd).2 hr]
    exact ⟨hr, hm, hopen⟩

theorem Cache.want (h : Cache q k) (fd : Fd) (mask : Bits) : Cache (q.want fd mask) k := by
  have hgrow : (q.growReg fd).reglist = q.reglist := by
    unfold growReg
    split <;> rfl
  have hlist : (q.want fd mask).reglist = q.reglist := by
    unfold Evp.want
    simp only
    split <;> exact hgrow
  refine h.of_reg hlist (want_regcap q fd mask ▸ le_growReg) fun x => ?_
  have hgrow := growReg_reg q fd x
  rw [want_reg]
  split
  · rename_i hx
    subst hx
    grind [Evreg.new]
  · grind [Evreg.new]

theorem Cache.wantAll (h : Cache q k) (ws : List (Fd × Bits)) (force : Bool) :
    Cache (q.wantAll ws force) k := by
  have hbegin : Cache q.begin k := by
    unfold Evp.begin
    simp only
    split
    · exact h.of_reg rfl le_rfl fun x => by grind
    · exact h.of_reg rfl le_rfl fun x => .inl ⟨rfl, rfl⟩
  have hwants : Cache (ws.foldl (fun q w => q.want w.1 w.2) q.begin) k :=
    List.foldlRecOn (motive := (Cache · k)) _ _ hbegin fun q hq w _ => hq.want w.1 w.2
  exact hwants.of_reg rfl le_rfl fun x => .inl ⟨rfl, rfl⟩

theorem Cache.evpWait (h : Cache q k) (os : EvpOs) (timeout : Int) :
    Cache (q.evpWait os timeout).1 k := by
  have hgrow : Cache (q.growEvs os) k := by
    unfold growEvs
    split
    · exact h.of_reg rfl le_rfl fun x => .inl ⟨rfl, rfl⟩
    · exact h
  unfold Evp.evpWait
  simp only
  split
  · exact hgrow
  · split
    · apply List.foldlRecOn (motive := (Cache · k))
      · exact hgrow.of_reg rfl le_rfl fun x => .inl ⟨rfl, rfl⟩
      intro q hq ev _
      unfold report
      split
      · refine hq.of_reg rfl le_rfl fun x => .inl ?_
        rw [setReg_reg]
        grind
      · exact hq
    · exact hgrow.of_reg rfl le_rfl fun x => .inl ⟨rfl, rfl⟩

theorem Reach.sound (h : Reach revalMs q k) : Sane q ∧ Cache q k := by
  induction h with
  | init isOpen =>
    exact ⟨sane_init revalMs, List.nodup_nil, fun fd => ⟨nofun, nofun⟩, nofun, nofun⟩
  | close _ fd ih =>
    obtain ⟨hs, hc⟩ := ih
    refine ⟨hs, hc.nodup, hc.listed, hc.below, fun x m hx => ?_⟩
    simp only [Kernel.close, Kernel.set, update_apply] at hx ⊢
    split at hx
    · cases hx
    · rename_i hne
      rw [if_neg hne]
      exact hc.known x m hx
  | reopen _ fd ih =>
    obtain ⟨hs, hc⟩ := ih
    refine ⟨hs, hc.nodup, hc.listed, hc.below, fun x m hx => ?_⟩
    obtain ⟨hr, hm, hopen⟩ := hc.known x m hx
    refine ⟨hr, hm, ?_⟩
    simp [Kernel.reopen, update_apply, hopen]
  | @pass q k _ ws force os timeout ih =>
    have hw := ih.1.wantAll ws force
    have hs := hw.sane.commit hw.tracks { os with ctl := fun op fd _ => k.ctlError op fd }
    rw [← commitIn_commit k os hw.tracks.nodup] at hs
    exact ⟨hs.evpWait os timeout, ((ih.2.wantAll ws force).commit hw.tracks).1.evpWait os timeout⟩

/-- After every commit `evp_reglist` lists the registered descriptors, each once and
wanted in this pass with its mask. If the revalidation was due, the kernel holds the
wanted descriptors with their masks and no other, except for those that have failed. -/
theorem epoll_cache (revalMs : Int) (q : Evp) (k : Kernel) (h : Reach revalMs q k)
    (ws : List (Fd × Bits)) (force : Bool) :
    let c := (q.wantAll ws force).commitIn k
    c.1.reglist.Nodup ∧
    (∀ fd, fd ∈ c.1.reglist ↔ (c.1.reg fd).registered = true) ∧
    (∀ fd ∈ c.1.reglist, fd ∈ ws.map Prod.fst ∧ (c.1.reg fd).want = asked ws fd ∧
      (c.1.reg fd).regmask = asked ws fd) ∧
    (force = true →
      (∀ fd ∈ ws.map Prod.fst, c.2.interest fd = some (asked ws fd) ∨ c.1.ready fd = evpFail) ∧
      ∀ fd, fd ∉ ws.map Prod.fst → c.2.interest fd = none) := by
  intro c
  obtain ⟨hs, hc⟩ := h.sound
  have hw := hs.wantAll ws force
  obtain ⟨hcache, hlist, hforced⟩ := (hc.wantAll ws force).commit hw.tracks
  refine ⟨hcache.nodup, hcache.listed, fun fd hm => ?_, fun hf => ?_⟩
  · obtain ⟨hm, hwant, hmask⟩ := hlist fd hm
    rw [hw.want fd hm] at hwant hmask
    exact ⟨(hw.touched fd).mp hm, hwant, hmask⟩
  · obtain ⟨hin, hout⟩ := hforced hf
    refine ⟨fun fd hm => ?_, fun fd hm => hout fd fun ht => hm ((hw.touched fd).mp ht)⟩
    have ht := (hw.touched fd).mpr hm
    exact hw.want fd ht ▸ hin fd ht

def readMask : Bits := ⟨true, false, false⟩

/-- Descriptor 3 was wanted once and then closed and opened again. -/
def reused : Evp × Kernel :=
  let c := ((init 0).wantAll [(3, readMask)] false).commitIn ⟨fun _ => true, fun _ => none⟩
  ((c.1.evpWait ⟨fun _ _ _ => none, true, some []⟩ 0).1, (c.2.close 3).reopen 3)

theorem epoll_cache_reused :
    reused.2.interest 3 = none ∧
    (((reused.1.wantAll [(3, readMask)] true).commitIn reused.2).2.interest 3 = some readMask ∨
      ((reused.1.wantAll [(3, readMask)] true).commitIn reused.2).1.ready 3 = evpFail) :=
  have h := epoll_cache 0 reused.1 reused.2
    (.reopen (.close (.pass (.init fun _ => true) [(3, readMask)] false _ 0) 3) 3)
    [(3, readMask)] true
  ⟨by decide, (h.2.2.2 rfl).1 3 (by decide)⟩

end

end Evp

end GnuPth.Manager
