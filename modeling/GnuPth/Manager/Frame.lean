import GnuPth.Manager.Cores

/-!
# What the late handling leaves alone

The late handling only takes descriptors out of the sets of events and only
turns pending events into others; the rings and the arguments stay.
-/

namespace GnuPth.Manager

open Sched (EventId)

/-! ### Sets in memory -/

def Mem.Within (mem old : Mem) : Prop := ∀ x fd, mem.set x fd = true → old.set x fd = true

section
variable {mem : Mem} {a : SelectArgs}

theorem Mem.Within.refl (mem : Mem) : mem.Within mem := fun _ _ h => h

theorem Mem.Within.trans {m₁ : Mem} (h : m₁.Within m₂) (h' : m₂.Within m₃) : m₁.Within m₃ :=
  fun x fd hx => h' x fd (h x fd hx)

theorem Mem.clear_within (mem : Mem) (x : SetAddr) (fd : Fd) : (mem.clear x fd).Within mem := by
  intro y g hy
  simp only [Mem.clear, Function.update_apply] at hy
  split at hy
  · rename_i hyx
    subst hyx
    rw [Function.update_apply] at hy
    split at hy
    · cases hy
    · exact hy
  · exact hy

@[simp] theorem Mem.store_set (mem : Mem) (x : Option IntAddr) (v : Int) :
    (mem.store x v).set = mem.set := by
  cases x <;> rfl

theorem keepOccurred_within (h : c.1.Within old) : (keepOccurred x occurred fd c).1.Within old := by
  unfold keepOccurred
  split
  · exact h
  · split
    · split
      · exact h
      · exact (Mem.clear_within _ _ _).trans h
    · exact h

theorem keepFd_within (h : c.1.Within old) :
    (keepFd a out c fd).1.Within old :=
  keepOccurred_within (keepOccurred_within (keepOccurred_within h))

theorem fdsSelect_within : (fdsSelect a mem out).1.Within mem := by
  apply List.foldlRecOn (motive := fun c : Mem × Nat => c.1.Within mem)
  · exact .refl mem
  · exact fun c hc fd _ => keepFd_within hc

theorem selectOccurred_within : (selectOccurred a mem out).Within mem := by
  intro x fd hx
  rw [selectOccurred, Mem.store_set] at hx
  exact fdsSelect_within x fd hx

theorem isset_within (h : mem.Within old)
    (hx : mem.isset x fd = true) : old.isset x fd = true := by
  cases x with
  | none => cases hx
  | some x => exact h x fd hx

theorem Bits.any_iff {b : Bits} : b.any = true ↔ b.r = true ∨ b.w = true ∨ b.e = true := by
  simp [Bits.any, or_assoc]

theorem bits_any_within (h : mem.Within old) (ha : (a.bits mem fd).any = true) :
    (a.bits old fd).any = true := by
  rw [Bits.any_iff] at ha ⊢
  rcases ha with hr | hw | he
  · exact .inl (isset_within h hr)
  · exact .inr (.inl (isset_within h hw))
  · exact .inr (.inr (isset_within h he))

end

/-! ### What is left of the sets -/

/-- No two of the sets of the event are the same. -/
structure SelectArgs.Apart (a : SelectArgs) : Prop where
  rw : a.rfds = a.wfds → a.rfds = none
  re : a.rfds = a.efds → a.rfds = none
  we : a.wfds = a.efds → a.wfds = none

section
variable {a : SelectArgs} {mem : Mem}

theorem isset_none : mem.isset none g = false := rfl

theorem keepOccurred_isset : (keepOccurred x o fd c).1.isset y g =
    (c.1.isset y g && (o || !decide (x = y ∧ g = fd))) := by
  cases x with
  | none => cases y <;> simp [keepOccurred, Mem.isset]
  | some x =>
    cases y with
    | none => rfl
    | some y =>
      by_cases hxy : x = y
      · subst hxy
        cases hm : c.1.set x fd <;> cases o <;> by_cases hg : g = fd <;>
          simp [keepOccurred, Mem.isset, Mem.clear, hm, hg]
      · cases hm : c.1.set x fd <;> cases o <;>
          simp [keepOccurred, Mem.isset, Mem.clear, hm, hxy, Ne.symm hxy]

theorem keepOccurred_count : (keepOccurred x o fd c).2 = c.2 + (c.1.isset x fd && o).toNat := by
  cases x with
  | none => rfl
  | some x => cases hm : c.1.set x fd <;> cases o <;> simp [keepOccurred, Mem.isset, hm]

theorem keepFd_bits (ha : a.Apart) : a.bits (keepFd a out c fd).1 g =
    if g = fd then (a.bits c.1 fd).and (out fd) else a.bits c.1 g := by
  obtain ⟨hrw, hre, hwe⟩ := ha
  simp only [keepFd, SelectArgs.bits, keepOccurred_isset, Bits.and]
  split
  · simp only [Bits.mk.injEq]
    grind [isset_none]
  · simp [*]

theorem keepFd_count (ha : a.Apart) :
    (keepFd a out c fd).2 = c.2 + ((a.bits c.1 fd).and (out fd)).count := by
  obtain ⟨hrw, hre, hwe⟩ := ha
  have hw : (c.1.isset a.wfds fd && ((out fd).r || !decide (a.rfds = a.wfds))) =
      c.1.isset a.wfds fd := by grind [isset_none]
  have he : (c.1.isset a.efds fd && ((out fd).r || !decide (a.rfds = a.efds)) &&
      ((out fd).w || !decide (a.wfds = a.efds))) = c.1.isset a.efds fd := by grind [isset_none]
  simp [keepFd, SelectArgs.bits, keepOccurred_isset, keepOccurred_count, Bits.and, Bits.count,
    hw, he, Nat.add_assoc]

theorem Sets.count_succ {sets : Sets} : sets.count (n + 1) = sets.count n + (sets n).count := by
  simp [Sets.count, List.range_succ]

/-- What the first `k` turns of the loop have left. -/
theorem keepFds (ha : a.Apart) (mem : Mem) (out : Sets) (k : Nat) :
    (∀ g, a.bits ((List.range k).foldl (keepFd a out) (mem, 0)).1 g =
      if g < k then (a.bits mem g).and (out g) else a.bits mem g) ∧
    ((List.range k).foldl (keepFd a out) (mem, 0)).2 =
      Sets.count (fun g => (a.bits mem g).and (out g)) k := by
  induction k with
  | zero => exact ⟨fun _ => rfl, rfl⟩
  | succ k ih =>
    rw [List.range_succ, List.foldl_append, List.foldl_cons, List.foldl_nil]
    refine ⟨fun g => ?_, ?_⟩
    · rw [keepFd_bits ha]
      grind
    · rw [keepFd_count ha, ih.1, ih.2, if_neg (lt_irrefl k), Sets.count_succ]

end

/-! ### What an event reads -/

def SelectArgs.owns (a : SelectArgs) (x : SetAddr) : Prop :=
  a.rfds = some x ∨ a.wfds = some x ∨ a.efds = some x

def SameOn (S : SetAddr → Prop) (mem mem' : Mem) : Prop := ∀ x, S x → mem.set x = mem'.set x

def Alike (mem : Mem) (a : SelectArgs) (out out' : Sets) : Prop :=
  ∀ fd < a.nfd, (a.bits mem fd).and (out fd) = (a.bits mem fd).and (out' fd)

section
variable {a : SelectArgs}

theorem SameOn.isset (h : SameOn S mem mem') (hx : ∀ y, x = some y → S y)
    (fd : Fd) : mem.isset x fd = mem'.isset x fd := by
  cases x with
  | none => rfl
  | some x => exact congrFun (h x (hx x rfl)) fd

theorem SameOn.bits (h : SameOn S mem mem') (ha : ∀ x, a.owns x → S x) (fd : Fd) :
    a.bits mem fd = a.bits mem' fd := by
  unfold SelectArgs.bits
  rw [h.isset (fun x hx => ha x (.inl hx)), h.isset (fun x hx => ha x (.inr (.inl hx))),
    h.isset (fun x hx => ha x (.inr (.inr hx)))]

theorem SameOn.clear (h : SameOn S mem mem') (x : SetAddr) (fd : Fd) :
    SameOn S (mem.clear x fd) (mem'.clear x fd) := by
  intro y hy
  by_cases hyx : y = x
  · subst hyx
    simp [Mem.clear, h y hy]
  · simp [Mem.clear, hyx, h y hy]

theorem fdsTest_congr (h : SameOn S mem mem') (ha : ∀ x, a.owns x → S x)
    (ho : Alike mem a out out') : fdsTest a mem out = fdsTest a mem' out' := by
  rw [fdsTest, fdsTest, Bool.eq_iff_iff, List.any_eq_true, List.any_eq_true]
  apply exists_congr
  intro fd
  apply and_congr_right
  intro hfd
  rw [ho fd (List.mem_range.mp hfd), h.bits ha]

/-- What the two loops of `pth_util_fds_select` have in common on the way. -/
structure Keeping (S : SetAddr → Prop) (mem : Mem) (c c' : Mem × Nat) : Prop where
  same : SameOn S c.1 c'.1
  count : c.2 = c'.2
  within : c.1.Within mem

theorem Keeping.keepOccurred (h : Keeping S mem c c') (hx : ∀ y, x = some y → S y)
    (ho : mem.isset x fd = true → o = o') :
    Keeping S mem (keepOccurred x o fd c) (keepOccurred x o' fd c') := by
  cases x with
  | none => exact h
  | some x =>
    have hset : c.1.set x fd = c'.1.set x fd := congrFun (h.same x (hx x rfl)) fd
    unfold Manager.keepOccurred
    cases hm : c.1.set x fd with
    | false =>
      simp only [hm, ← hset]
      exact h
    | true =>
      have hoo : o = o' := ho (h.within x fd hm)
      subst hoo
      simp only [hm, ← hset]
      cases o with
      | false => exact ⟨h.same.clear x fd, h.count, (Mem.clear_within _ _ _).trans h.within⟩
      | true => exact ⟨h.same, congrArg (· + 1) h.count, h.within⟩

theorem Keeping.keepFd (h : Keeping S mem c c')
    (ha : ∀ x, a.owns x → S x)
    (ho : (a.bits mem fd).and (out fd) = (a.bits mem fd).and (out' fd)) :
    Keeping S mem (keepFd a out c fd) (keepFd a out' c' fd) := by
  simp only [Bits.and, SelectArgs.bits, Bits.mk.injEq] at ho
  obtain ⟨hr, hw, he⟩ := ho
  refine ((h.keepOccurred ?_ ?_).keepOccurred ?_ ?_).keepOccurred ?_ ?_
  · exact fun x hx => ha x (.inl hx)
  · intro hx
    simpa [hx] using hr
  · exact fun x hx => ha x (.inr (.inl hx))
  · intro hx
    simpa [hx] using hw
  · exact fun x hx => ha x (.inr (.inr hx))
  · intro hx
    simpa [hx] using he

theorem fdsSelect_congr (h : SameOn S mem mem') (ha : ∀ x, a.owns x → S x)
    (ho : Alike mem a out out') : Keeping S mem (fdsSelect a mem out) (fdsSelect a mem' out') := by
  apply List.foldl_rel
  · exact ⟨h, rfl, .refl mem⟩
  · intro fd hfd c c' hc
    exact hc.keepFd ha (ho fd (List.mem_range.mp hfd))

theorem fdsSelect_int : (fdsSelect a mem out).1.int = mem.int := by
  have hkeep : ∀ x o fd (c : Mem × Nat), (keepOccurred x o fd c).1.int = c.1.int := by
    intro x o fd c
    unfold keepOccurred
    split
    · rfl
    · split
      · split <;> rfl
      · rfl
  apply List.foldlRecOn (motive := fun c : Mem × Nat => c.1.int = mem.int)
  · rfl
  · intro c hc fd _
    simp [keepFd, hkeep, hc]

theorem selectOccurred_sameOn (h : SameOn S mem mem') (ha : ∀ x, a.owns x → S x)
    (ho : Alike mem a out out') :
    SameOn S (selectOccurred a mem out) (selectOccurred a mem' out') := by
  intro x hx
  simp only [selectOccurred, Mem.store_set]
  exact (fdsSelect_congr h ha ho).same x hx

theorem selectOccurred_congr (ho : Alike mem a out out') :
    selectOccurred a mem out = selectOccurred a mem out' := by
  have hsame : Keeping (fun _ => True) mem (fdsSelect a mem out) (fdsSelect a mem out') :=
    fdsSelect_congr (fun _ _ => rfl) (fun _ _ => trivial) ho
  have hmem : (fdsSelect a mem out).1 = (fdsSelect a mem out').1 := by
    have hset : (fdsSelect a mem out).1.set = (fdsSelect a mem out').1.set :=
      funext fun x => hsame.same x trivial
    have hint : (fdsSelect a mem out).1.int = (fdsSelect a mem out').1.int := by
      rw [fdsSelect_int, fdsSelect_int]
    exact Mem.ext hset hint
  rw [selectOccurred, selectOccurred, hmem, hsame.count]

end

/-! ### The state -/

structure Narrows (s s' : St) : Prop where
  ring : ∀ t, s'.ring t = s.ring t
  spec : ∀ e, (s'.event e).spec = (s.event e).spec
  pending : ∀ e, (s'.event e).status = .pending → (s.event e).status = .pending
  fdArgs : s'.fdArgs = s.fdArgs
  selectArgs : s'.selectArgs = s.selectArgs
  sets : s'.mem.Within s.mem

/-- The late handling of a core gives a pending event another status, and only
takes descriptors out of sets. -/
structure Core.Narrow {Q A : Type} (K : Core Q A) : Prop where
  lateFd : ∀ {os rc q fd goal st}, (K.lateFd os rc q fd goal).2 = some st → st ≠ .pending
  lateSelect : ∀ {os rc q mem a st mem'}, (K.lateSelect os rc q mem a).2 = some (st, mem') →
    st ≠ .pending ∧ mem'.Within mem

namespace Narrows

variable {s : St}

theorem refl (s : St) : Narrows s s :=
  ⟨fun _ => rfl, fun _ => rfl, fun _ h => h, rfl, rfl, .refl _⟩

theorem trans (h : Narrows s₁ s₂) (h' : Narrows s₂ s₃) : Narrows s₁ s₃ where
  ring t := (h'.ring t).trans (h.ring t)
  spec e := (h'.spec e).trans (h.spec e)
  pending e he := h.pending e (h'.pending e he)
  fdArgs := h'.fdArgs.trans h.fdArgs
  selectArgs := h'.selectArgs.trans h.selectArgs
  sets := h'.sets.trans h.sets

theorem refers (h : Narrows s₁ s₂) (hr : s₂.refers e fd = true) :
    s₁.refers e fd = true := by
  unfold St.refers at hr ⊢
  rw [h.spec, h.fdArgs, h.selectArgs] at hr
  split at hr
  · exact hr
  · rw [Bool.and_eq_true] at hr ⊢
    exact ⟨hr.1, bits_any_within h.sets hr.2⟩
  · exact hr

theorem setStatus (hst : st ≠ .pending) : Narrows s (s.setStatus e st) where
  ring _ := rfl
  spec x := by
    by_cases hx : x = e
    · subst hx
      simp [St.setStatus, St.event, Sched.State.setStatus, Sched.State.setEvent]
    · simp [St.setStatus, St.event, Sched.State.setStatus, Sched.State.setEvent, hx]
  pending x hp := by
    by_cases hx : x = e
    · subst hx
      simp [St.setStatus, St.event, Sched.State.setStatus, Sched.State.setEvent, hst] at hp
    · simpa [St.setStatus, St.event, Sched.State.setStatus, Sched.State.setEvent, hx] using hp
  fdArgs := rfl
  selectArgs := rfl
  sets := .refl _

theorem setMem (h : mem.Within s.mem) : Narrows s { s with mem } :=
  ⟨fun _ => rfl, fun _ => rfl, fun _ h => h, rfl, rfl, h⟩

theorem store (s : St) (x : Option IntAddr) (v : Int) : Narrows s (s.store x v) := by
  apply setMem
  intro y fd hy
  rwa [Mem.store_set] at hy

theorem toReady (s : St) (t : Tid) : Narrows s (toReady s t) := by
  unfold Manager.toReady
  split
  · refine ⟨fun u => ?_, fun _ => rfl, fun _ h => h, rfl, rfl, .refl _⟩
    by_cases hu : u = t
    · subst hu
      simp [St.ring, Sched.State.enqueue, Sched.State.setTcb, Sched.State.dequeue]
    · simp [St.ring, Sched.State.enqueue, Sched.State.setTcb, Sched.State.dequeue, hu]
  · exact refl s

section
variable {Q : Type}

theorem lateSig : Narrows l.st (lateSig a e l sig).st := by
  unfold Manager.lateSig
  split
  · exact (store _ _ _).trans (setStatus nofun)
  · exact refl _

theorem lateEvent (hK : K.Narrow) (l : Late Q) (e : EventId) :
    Narrows l.st (lateEvent K env os rc l e).st := by
  unfold Manager.lateEvent
  split
  · exact refl _
  · split
    · generalize hres : K.lateFd os rc l.req (l.st.fdArgs e).1 (l.st.fdArgs e).2 = res
      obtain ⟨q, _ | st⟩ := res
      · exact refl _
      · exact setStatus (hK.lateFd (congrArg Prod.snd hres))
    · generalize hres : K.lateSelect os rc l.req l.st.mem (l.st.selectArgs e) = res
      obtain ⟨q, _ | ⟨st, mem⟩⟩ := res
      · exact refl _
      · obtain ⟨hst, hmem⟩ := hK.lateSelect (congrArg Prod.snd hres)
        have h : Narrows l.st { l.st.setStatus e st with mem } :=
          (setStatus hst).trans (setMem hmem)
        exact h
    · apply List.foldlRecOn (motive := fun l' : Late Q => Narrows l.st l'.st)
      · exact refl _
      · exact fun l' h sig _ => h.trans lateSig
    · exact refl _

theorem lateEvents (hK : K.Narrow) (l : Late Q) (es : List EventId) :
    Narrows l.st (es.foldl (Manager.lateEvent K env os rc) l).st := by
  induction es generalizing l with
  | nil => exact refl _
  | cons e es ih => exact (lateEvent hK l e).trans (ih _)

theorem cleanupThread (hK : K.Narrow) (l : Late Q) (t : Tid) :
    Narrows l.st (cleanupThread K env os rc l t).st :=
  (lateEvents hK l _).trans (toReady _ t)

end

end Narrows

theorem selectCore_narrow (pipe : Fd) : (selectCore pipe).Narrow where
  lateFd {os rc q fd goal st} h := by
    simp only [selectCore, Select.lateFd] at h
    repeat' split at h
    all_goals (simp at h; try (subst h; nofun))
  lateSelect {os rc q mem a st mem'} h := by
    simp only [selectCore, Select.lateSelect] at h
    split at h
    · cases h
      exact ⟨nofun, selectOccurred_within⟩
    · split at h
      · cases h
        exact ⟨nofun, .refl _⟩
      · cases h

theorem replySelect_narrow
    (h : replySelect re mem a = some (st, mem')) : st ≠ .pending ∧ mem'.Within mem := by
  simp only [replySelect] at h
  split at h
  · cases h
    exact ⟨nofun, selectOccurred_within⟩
  · split at h
    · cases h
      exact ⟨nofun, .refl _⟩
    · cases h

theorem replyFd_narrow (h : replyFd re goal = some st) : st ≠ .pending := by
  simp only [replyFd] at h
  split at h
  · cases h
    nofun
  · split at h
    · cases h
      nofun
    · cases h

/-- Poll and the event port keep a reply for each descriptor, and the late handling
reads it. -/
structure Core.Replies {Q A : Type} (K : Core Q A) (re : Q → Fd → Reply) : Prop where
  lateFd : ∀ os rc q fd goal, K.lateFd os rc q fd goal = (q, replyFd (re q fd) goal)
  lateSelect : ∀ os rc q mem a, K.lateSelect os rc q mem a = (q, replySelect (re q) mem a)

theorem Core.Replies.narrow {K : Core Q A}
    (hK : K.Replies re) : K.Narrow where
  lateFd h := by
    rw [hK.lateFd] at h
    exact replyFd_narrow h
  lateSelect h := by
    rw [hK.lateSelect] at h
    exact replySelect_narrow h

theorem pollCore_replies (pipe : Fd) : (pollCore pipe).Replies Poll.reply :=
  ⟨fun _ _ _ _ _ => rfl, fun _ _ _ _ _ => rfl⟩

end GnuPth.Manager
