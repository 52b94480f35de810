import GnuPth.Manager.Pollset
import Mathlib.Algebra.Order.BigOperators.Group.Finset

/-!
# The select and the poll event manager agree

For one state of the descriptors the two ask the OS for the same things, and
read the same from what it answers, for every descriptor but the signal pipe of
the scheduler: when the pipe is what ended the wait, the select event manager
takes it out of its set, and the poll event manager only takes it off the count.
-/

namespace GnuPth.Manager

open Function (update)
open Sched (EventId)

/-! ### Two cores in step -/

section
variable {A₁ A₂ : Type} {K₁ : Core Q₁ A₁} {K₂ : Core Q₂ A₂}

/-- The requests of two cores stay related during the scan. -/
structure Core.AskAlike (K₁ : Core Q₁ A₁) (K₂ : Core Q₂ A₂) (R : Q₁ → Q₂ → Prop) : Prop where
  clear : ∀ q₁ q₂, R (K₁.clear q₁) (K₂.clear q₂)
  wantFd : ∀ {q₁ q₂} fd goal, R q₁ q₂ → R (K₁.wantFd q₁ fd goal) (K₂.wantFd q₂ fd goal)
  wantSelect : ∀ {q₁ q₂} mem a, R q₁ q₂ → R (K₁.wantSelect q₁ mem a) (K₂.wantSelect q₂ mem a)

structure Scan.Same (R : Q₁ → Q₂ → Prop) (c₁ : Scan Q₁) (c₂ : Scan Q₂) : Prop where
  st : c₁.st = c₂.st
  sigpending : c₁.sigpending = c₂.sigpending
  sigcatch : c₁.sigcatch = c₂.sigcatch
  anyOccurred : c₁.anyOccurred = c₂.anyOccurred
  timer : c₁.timer = c₂.timer
  req : R c₁.req c₂.req

namespace Scan.Same

variable {c₁ : Scan Q₁} {c₂ : Scan Q₂}

theorem tag (h : Same R c₁ c₂) (e : EventId) : Same R (c₁.tag e) (c₂.tag e) :=
  ⟨by simp [Scan.tag, h.st], h.sigpending, h.sigcatch, rfl, h.timer, h.req⟩

theorem tagIf (h : Same R c₁ c₂) (b : Bool) (e : EventId) :
    Same R (c₁.tagIf b e) (c₂.tagIf b e) := by
  cases b with
  | false => exact h
  | true => exact h.tag e

theorem remember (h : Same R c₁ c₂) (t : Tid) (e : EventId) (tv : Timeval) :
    Same R (c₁.remember t e tv) (c₂.remember t e tv) :=
  ⟨h.st, h.sigpending, h.sigcatch, h.anyOccurred, by simp [Scan.remember, h.timer], h.req⟩

theorem sigs (h : Same R c₁ c₂) (e : EventId) : Same R (c₁.sigs env t e) (c₂.sigs env t e) := by
  unfold Scan.sigs
  rw [h.st, h.sigpending, h.sigcatch]
  apply tagIf
  exact ⟨rfl, rfl, rfl, h.anyOccurred, h.timer, h.req⟩

theorem scanEvent (hK : K₁.AskAlike K₂ R) (h : Same R c₁ c₂) (e : EventId) :
    Same R (scanEvent K₁ env now t c₁ e) (scanEvent K₂ env now t c₂ e) := by
  unfold Manager.scanEvent
  rw [h.st]
  split
  · exact h
  · split
    · exact ⟨rfl, h.sigpending, h.sigcatch, h.anyOccurred, h.timer, hK.wantFd _ _ h.req⟩
    · exact ⟨rfl, h.sigpending, h.sigcatch, h.anyOccurred, h.timer, hK.wantSelect _ _ h.req⟩
    · exact h.sigs e
    · split
      · exact h.tag e
      · exact h.remember t e _
    · exact h.tagIf _ e
    · exact h
    · exact h.tagIf _ e
    · have hfunc : ∀ b, c₁.func env b e = c₂.func env b e := by
        intro b
        simp [Scan.func, h.st]
      simp only [hfunc]
      split
      · apply tag
        exact ⟨rfl, h.sigpending, h.sigcatch, h.anyOccurred, h.timer, h.req⟩
      · apply remember
        exact ⟨rfl, h.sigpending, h.sigcatch, h.anyOccurred, h.timer, h.req⟩

theorem scanThread (hK : K₁.AskAlike K₂ R) (h : Same R c₁ c₂) (t : Tid) :
    Same R (scanThread K₁ env now c₁ t) (scanThread K₂ env now c₂ t) := by
  unfold Manager.scanThread
  rw [h.st]
  split
  · apply List.foldl_rel
    · exact ⟨rfl, h.sigpending, h.sigcatch, rfl, h.timer, h.req⟩
    · exact fun e _ _ _ hc => hc.scanEvent hK e
  · simp only [h.st]
    apply List.foldl_rel
    · exact h
    · exact fun e _ _ _ hc => hc.scanEvent hK e

theorem scanQueue (hK : K₁.AskAlike K₂ R) (h : Same R c₁ c₂) :
    Same R (scanQueue K₁ env now c₁) (scanQueue K₂ env now c₂) := by
  unfold Manager.scanQueue
  rw [h.st]
  apply List.foldl_rel
  · exact h
  · exact fun t _ _ _ hc => hc.scanThread hK t

end Scan.Same

theorem scanned_same (env : Env) (hK : K₁.AskAlike K₂ R) (i : Input) (dopoll : Bool) (q₁ : Q₁)
    (q₂ : Q₂)
    (s : St) :
    Scan.Same R (scanned K₁ env i dopoll q₁ s).scan (scanned K₂ env i dopoll q₂ s).scan ∧
      (scanned K₁ env i dopoll q₁ s).dopoll = (scanned K₂ env i dopoll q₂ s).dopoll := by
  have h : Scan.Same R (scanned K₁ env i dopoll q₁ s).scan (scanned K₂ env i dopoll q₂ s).scan :=
    Scan.Same.scanQueue hK ⟨rfl, rfl, rfl, rfl, rfl, hK.clear q₁ q₂⟩
  refine ⟨h, ?_⟩
  have hany := h.anyOccurred
  simp only [scanned] at hany ⊢
  rw [hany]

structure Late.Same (R : Q₁ → Q₂ → Prop) (l₁ : Late Q₁) (l₂ : Late Q₂) : Prop where
  st : l₁.st = l₂.st
  sigraised : l₁.sigraised = l₂.sigraised
  req : R l₁.req l₂.req

/-- For the descriptors in `Ok` two cores read the same from their answers, and
they go on doing so. -/
structure Core.TellAlike (K₁ : Core Q₁ A₁) (K₂ : Core Q₂ A₂) (os₁ : A₁) (os₂ : A₂)
    (rc₁ rc₂ : Int) (Ok : Fd → Prop) (R : Q₁ → Q₂ → Prop) : Prop where
  lateFd : ∀ {q₁ q₂ fd} goal, R q₁ q₂ → Ok fd →
    (K₁.lateFd os₁ rc₁ q₁ fd goal).2 = (K₂.lateFd os₂ rc₂ q₂ fd goal).2 ∧
      R (K₁.lateFd os₁ rc₁ q₁ fd goal).1 (K₂.lateFd os₂ rc₂ q₂ fd goal).1
  lateSelect : ∀ {q₁ q₂ mem a}, R q₁ q₂ → (∀ fd < a.nfd, (a.bits mem fd).any = true → Ok fd) →
    (K₁.lateSelect os₁ rc₁ q₁ mem a).2 = (K₂.lateSelect os₂ rc₂ q₂ mem a).2 ∧
      R (K₁.lateSelect os₁ rc₁ q₁ mem a).1 (K₂.lateSelect os₂ rc₂ q₂ mem a).1

/-- The pending events of the threads in `ts` are about descriptors in `Ok`. -/
def Heeds (Ok : Fd → Prop) (ts : List Tid) (s : St) : Prop :=
  ∀ t ∈ ts, ∀ e ∈ s.ring t, (s.event e).status = .pending → ∀ fd, s.refers e fd = true → Ok fd

theorem Heeds.narrows (h : Heeds Ok ts s)
    (hn : Narrows s s') : Heeds Ok ts s' := by
  intro t ht e he hp fd hr
  rw [hn.ring] at he
  exact h t ht e he (hn.pending e hp) fd (hn.refers hr)

namespace Late.Same

variable {l₁ : Late Q₁} {l₂ : Late Q₂}

theorem lateSig (h : Same R l₁ l₂) (a : SigsArgs) (e : EventId) (sig : Int) :
    Same R (lateSig a e l₁ sig) (lateSig a e l₂ sig) := by
  unfold Manager.lateSig
  rw [h.sigraised]
  split
  · exact ⟨by rw [h.st], rfl, h.req⟩
  · exact h

theorem fd (h : Same R l₁ l₂) (e : EventId)
    (hst : res₁.2 = res₂.2) (hR : R res₁.1 res₂.1) : Same R (l₁.fd e res₁) (l₂.fd e res₂) := by
  obtain ⟨q₁, st⟩ := res₁
  obtain ⟨q₂, _⟩ := res₂
  cases hst
  cases st with
  | none => exact ⟨h.st, h.sigraised, hR⟩
  | some st => exact ⟨congrArg (·.setStatus e st) h.st, h.sigraised, hR⟩

theorem select (h : Same R l₁ l₂) (e : EventId) (hst : res₁.2 = res₂.2) (hR : R res₁.1 res₂.1) :
    Same R (l₁.select e res₁) (l₂.select e res₂) := by
  obtain ⟨q₁, st⟩ := res₁
  obtain ⟨q₂, _⟩ := res₂
  cases hst
  cases st with
  | none => exact ⟨h.st, h.sigraised, hR⟩
  | some st => exact ⟨by simp [Late.select, h.st], h.sigraised, hR⟩

theorem lateEvent (hT : K₁.TellAlike K₂ os₁ os₂ rc₁ rc₂ Ok R) (h : Same R l₁ l₂)
    (hok : (l₁.st.event e).status = .pending → ∀ fd, l₁.st.refers e fd = true → Ok fd) :
    Same R (lateEvent K₁ env os₁ rc₁ l₁ e) (lateEvent K₂ env os₂ rc₂ l₂ e) := by
  unfold Manager.lateEvent
  rw [h.st] at hok ⊢
  split
  · exact h
  · rename_i hp
    have hok := hok (not_not.mp hp)
    unfold St.refers at hok
    split
    · rename_i hspec
      simp only [hspec, decide_eq_true_eq] at hok
      have hfd := hT.lateFd (l₂.st.fdArgs e).2 h.req (hok _ rfl)
      exact h.fd e hfd.1 hfd.2
    · rename_i hspec
      simp only [hspec, Bool.and_eq_true, decide_eq_true_eq] at hok
      have hsel := hT.lateSelect h.req fun fd hlt ha => hok fd ⟨hlt, ha⟩
      exact h.select e hsel.1 hsel.2
    · apply List.foldl_rel
      · exact h
      · exact fun sig _ _ _ hc => hc.lateSig _ e sig
    · exact h

theorem lateEvents (hK : K₁.Narrow) (hT : K₁.TellAlike K₂ os₁ os₂ rc₁ rc₂ Ok R)
    (h : Same R l₁ l₂) {es : List EventId}
    (hok : ∀ e ∈ es, (l₁.st.event e).status = .pending → ∀ fd, l₁.st.refers e fd = true → Ok fd) :
    Same R (es.foldl (Manager.lateEvent K₁ env os₁ rc₁) l₁)
      (es.foldl (Manager.lateEvent K₂ env os₂ rc₂) l₂) := by
  induction es generalizing l₁ l₂ with
  | nil => exact h
  | cons e es ih =>
    apply ih
    · exact h.lateEvent hT (hok e (by simp))
    · intro x hx hp fd hr
      have hn : Narrows l₁.st (Manager.lateEvent K₁ env os₁ rc₁ l₁ e).st := .lateEvent hK l₁ e
      exact hok x (by simp [hx]) (hn.pending x hp) fd (hn.refers hr)

theorem cleanupThread (hK : K₁.Narrow) (hT : K₁.TellAlike K₂ os₁ os₂ rc₁ rc₂ Ok R)
    (h : Same R l₁ l₂) (ht : t ∈ ts) (hok : Heeds Ok ts l₁.st) :
    Same R (cleanupThread K₁ env os₁ rc₁ l₁ t) (cleanupThread K₂ env os₂ rc₂ l₂ t) := by
  have hlate : Same R ((l₁.st.ring t).foldl (Manager.lateEvent K₁ env os₁ rc₁) l₁)
      ((l₁.st.ring t).foldl (Manager.lateEvent K₂ env os₂ rc₂) l₂) :=
    h.lateEvents hK hT (hok t ht)
  unfold Manager.cleanupThread
  rw [← h.st]
  exact ⟨congrArg (toReady · t) hlate.st, hlate.sigraised, hlate.req⟩

theorem cleanupLoop (hK : K₁.Narrow) (hT : K₁.TellAlike K₂ os₁ os₂ rc₁ rc₂ Ok R)
    (h : Same R l₁ l₂) (hok : Heeds Ok (l₁.st.sched.members .wq) l₁.st) :
    Same R (cleanupLoop K₁ env os₁ rc₁ l₁) (cleanupLoop K₂ env os₂ rc₂ l₂) := by
  unfold Manager.cleanupLoop
  rw [← h.st]
  have hboth := List.foldl_rel
    (f := Manager.cleanupThread K₁ env os₁ rc₁)
    (r := fun l l' => Same R l l' ∧ Heeds Ok (l₁.st.sched.members .wq) l.st) ⟨h, hok⟩
    fun t ht l l' hl => ⟨hl.1.cleanupThread hK hT ht hl.2, hl.2.narrows (.cleanupThread hK l t)⟩
  exact hboth.1

end Late.Same

end

/-! ### The requests of select and poll -/

theorem Sets.add_apply (sets : Sets) (fd x : Fd) (b : Bits) :
    sets.add fd b x = if x = fd then (sets x).or b else sets x := by
  by_cases hx : x = fd
  · subst hx
    simp [Sets.add]
  · simp [Sets.add, hx]

structure Asks (q₁ : FdSets) (q₂ : Pollset) : Prop where
  sets : ∀ fd, q₁.sets fd = pollsetEvents q₂ fd
  below : ∀ fd, (q₁.sets fd).any = true → (fd : Int) ≤ q₁.fdmax
  nodup : (q₂.map PollFd.fd).Nodup

namespace Asks

variable {q₁ : FdSets}

theorem raise (h : Asks q₁ q₂) (hm : q₁.fdmax ≤ m) : Asks ⟨q₁.sets, m⟩ q₂ :=
  ⟨h.sets, fun fd hfd => (h.below fd hfd).trans hm, h.nodup⟩

theorem add (h : Asks q₁ q₂) {fd : Fd} (hfd : (fd : Int) ≤ q₁.fdmax) (b : Bits) :
    Asks ⟨q₁.sets.add fd b, q₁.fdmax⟩ (pollsetAdd q₂ fd b) where
  sets x := by
    simp [Sets.add_apply, pollsetEvents_add, h.sets]
  below x hx := by
    by_cases hxf : x = fd
    · exact hxf ▸ hfd
    · apply h.below
      simpa [Sets.add_apply, hxf] using hx
  nodup := nodup_pollsetAdd h.nodup

theorem wantFd (h : Asks q₁ q₂) (fd : Fd) (goal : Bits) :
    Asks (Select.wantFd q₁ fd goal) (pollsetAdd q₂ fd goal) :=
  add (h.raise (le_max_left q₁.fdmax fd)) (le_max_right q₁.fdmax fd) goal

theorem wantSelect (h : Asks q₁ q₂) (mem : Mem) (a : SelectArgs) :
    Asks (Select.wantSelect q₁ mem a) (Poll.wantSelect q₂ mem a) := by
  have hfold := List.foldl_rel (l := List.range a.nfd)
    (f := fun sets fd => sets.add fd (a.bits mem fd))
    (g := fun q fd => if (a.bits mem fd).any then pollsetAdd q fd (a.bits mem fd) else q)
    (r := fun sets q => Asks ⟨sets, max q₁.fdmax (a.nfd - 1)⟩ q) (h.raise (le_max_left _ _)) ?_
  · exact hfold
  · intro fd hfd sets q hq
    have hlt := List.mem_range.mp hfd
    split
    · exact hq.add (by simp only; omega) _
    · rename_i hb
      have hz : a.bits mem fd = .zero := Bits.eq_zero (by simpa using hb)
      have hadd : sets.add fd (a.bits mem fd) = sets := by
        funext x
        simp [Sets.add_apply, hz]
      rw [hadd]
      exact hq

end Asks

theorem askAlike (pipe : Fd) : (selectCore pipe).AskAlike (pollCore pipe) Asks where
  clear _ _ := ⟨fun _ => rfl, nofun, List.nodup_nil⟩
  wantFd fd goal h := h.wantFd fd goal
  wantSelect mem a h := h.wantSelect mem a

/-! ### The answers -/

/-- What select(2) answers when `ready` is what the descriptors are ready for. -/
def selectAnswer (ready : Fd → Bits) : SelectOs := fun nfds sets =>
  some fun fd => if fd < nfds then (sets fd).and (ready fd) else sets fd

/-- What poll(2) answers then; there are no error conditions. -/
def pollAnswer (ready : Fd → Bits) : PollOs := some fun fd => .of (ready fd)

structure Answered (q₁ : FdSets) (rc₁ : Int) (q₂ : Pollset) (rc₂ : Int) : Prop where
  revents : ∀ fd, pollsetRevents q₂ fd = .of (q₁.sets fd)
  below : ∀ fd, (q₁.sets fd).any = true → fd < (q₁.fdmax + 1).toNat
  count₁ : rc₁ = q₁.sets.count (q₁.fdmax + 1).toNat
  counted : Counted q₂ rc₂

variable {fd : Fd} {sets : Sets} {nfds : Nat}

theorem Asks.lt_nfds (h : Asks q₁ q₂)
    (hfd : (q₁.sets fd).any = true) : fd < (q₁.fdmax + 1).toNat := by
  apply Int.lt_toNat.mpr
  exact Int.lt_add_one_of_le (h.below fd hfd)

theorem Asks.select_answer (h : Asks q₁ q₂) (ready : Fd → Bits) :
    selectAnswer ready (q₁.fdmax + 1).toNat q₁.sets =
      some fun fd => (q₁.sets fd).and (ready fd) := by
  unfold selectAnswer
  congr 1
  funext fd
  split
  · rfl
  · rename_i hfd
    have hz : q₁.sets fd = .zero := Bits.eq_zero (Bool.eq_false_iff.mpr fun ha => hfd (h.lt_nfds ha))
    rw [hz, Bits.zero_and]

theorem Asks.answered (h : Asks q₁ q₂) (pipe : Fd) (ready : Fd → Bits) (dopoll : Bool) :
    Answered (Select.wait pipe (selectAnswer ready) q₁ dopoll).1
      (Select.wait pipe (selectAnswer ready) q₁ dopoll).2
      (Poll.wait pipe (pollAnswer ready) q₂ dopoll).1
      (Poll.wait pipe (pollAnswer ready) q₂ dopoll).2 := by
  have hp := h.wantFd pipe ⟨true, false, false⟩
  have hmax : ¬ (dopoll = true ∧ (Select.wantFd q₁ pipe ⟨true, false, false⟩).fdmax = -1) := by
    intro hd
    have : max q₁.fdmax (pipe : Int) = -1 := hd.2
    omega
  have hne : ¬ (dopoll = true ∧ (pollsetAdd q₂ pipe ⟨true, false, false⟩).isEmpty = true) := by
    intro hd
    have hm : pipe ∈ (pollsetAdd q₂ pipe ⟨true, false, false⟩).map PollFd.fd :=
      mem_pollsetAdd.mpr (.inl rfl)
    rw [List.isEmpty_iff.mp hd.2] at hm
    cases hm
  simp only [Select.wait, hmax, if_false, Select.select, hp.select_answer, Poll.wait, hne,
    pollAnswer]
  refine ⟨fun fd => ?_, fun fd hfd => hp.lt_nfds (Bits.any_and hfd), rfl, ?_, rfl⟩
  · have hmask := pollsetRevents_map (pollsetAdd q₂ pipe ⟨true, false, false⟩)
      (fun fd events => (Revents.of (ready fd)).mask events) fd
    rw [hmask]
    split
    · rw [Revents.mask_of]
      simp [hp.sets]
    · rename_i hfd
      simp only [hp.sets, pollsetEvents_of_notMem hfd]
      rfl
  · rw [List.map_map]
    exact hp.nodup

/-! ### Counting -/

theorem Bits.count_pos {b : Bits} (h : b.any = true) : 0 < b.count := by
  obtain ⟨r, w, e⟩ := b
  cases r <;> cases w <;> simp_all [Bits.any, Bits.count]

theorem Sets.count_eq_sum (sets : Sets) (nfds : Nat) :
    sets.count nfds = ∑ fd ∈ Finset.range nfds, (sets fd).count := rfl

theorem Sets.count_pos (hfd : fd < nfds) (h : (sets fd).any = true) : 0 < sets.count nfds := by
  apply (Bits.count_pos h).trans_le
  exact Finset.single_le_sum (f := fun fd => (sets fd).count) (fun _ _ => Nat.zero_le _)
    (Finset.mem_range.mpr hfd)

theorem Sets.count_two {x : Fd} (hfd : fd < nfds) (hx : x < nfds)
    (hne : fd ≠ x) (h : (sets fd).any = true) (h' : (sets x).any = true) :
    2 ≤ sets.count nfds := by
  have hsum := Finset.add_le_sum (f := fun fd => (sets fd).count)
    (fun _ _ => Nat.zero_le _) (Finset.mem_range.mpr hfd) (Finset.mem_range.mpr hx) hne
  exact (Nat.add_le_add (Bits.count_pos h) (Bits.count_pos h')).trans hsum

theorem Sets.count_zero_iff (hb : ∀ fd, (sets fd).any = true → fd < nfds) :
    sets.count nfds = 0 ↔ ∀ fd, (sets fd).any = false := by
  constructor
  · intro h fd
    by_contra ha
    have ha := Bool.eq_true_of_not_eq_false ha
    have := Sets.count_pos (hb fd ha) ha
    omega
  · intro h
    rw [Sets.count_eq_sum]
    apply Finset.sum_eq_zero
    intro fd _
    rw [Bits.eq_zero (h fd)]
    rfl

namespace Answered

variable {q₁ : FdSets}

theorem zero_iff₁ (h : Answered q₁ rc₁ q₂ rc₂) : rc₁ = 0 ↔ ∀ fd, (q₁.sets fd).any = false := by
  rw [h.count₁, Int.natCast_eq_zero]
  exact Sets.count_zero_iff h.below

theorem zero_iff₂ (h : Answered q₁ rc₁ q₂ rc₂) : rc₂ = 0 ↔ ∀ fd, (q₁.sets fd).any = false := by
  simp [h.counted.zero_iff, h.revents]

theorem zero_iff (h : Answered q₁ rc₁ q₂ rc₂) : rc₁ = 0 ↔ rc₂ = 0 :=
  h.zero_iff₁.trans h.zero_iff₂.symm

end Answered

/-! ### The signal pipe -/

/-- After the adjustment the two tell the same of each descriptor, after a wait
other than the pipe. -/
structure Tells (pipe : Fd) (dopoll : Bool) (q₁ : FdSets) (q₂ : Pollset) : Prop where
  bits : ∀ fd, (dopoll = false → fd ≠ pipe) → q₁.sets fd = (Poll.reply q₂ fd).bits
  fail : ∀ fd, (Poll.reply q₂ fd).fail = false

namespace Answered

variable {q₁ : FdSets}

theorem eq_zero (h : Answered q₁ rc₁ q₂ rc₂) (hrc : rc₁ = 0) (fd : Fd) : q₁.sets fd = .zero :=
  Bits.eq_zero (h.zero_iff₁.mp hrc fd)

theorem pipe_any (hr : (q₁.sets pipe).r = true) : (q₁.sets pipe).any = true :=
  Bits.any_iff.mpr (.inl hr)

theorem nonneg (h : Answered q₁ rc₁ q₂ rc₂) : 0 ≤ rc₁ := by
  rw [h.count₁]
  exact Int.natCast_nonneg _

theorem sets_adjust (h : Answered q₁ rc₁ q₂ rc₂) (hfd : dopoll = false → fd ≠ pipe) :
    (Select.adjust pipe q₁ dopoll rc₁).1.sets fd = q₁.sets fd := by
  unfold Select.adjust
  split
  · rename_i hc
    split at hc
    · -- the pipe is taken out; what is zeroed then was the pipe alone
      rename_i hpipe
      obtain ⟨hd, hpos, hr⟩ := hpipe
      have hne : fd ≠ pipe := hfd (by simpa using hd)
      cases hc
      split
      · by_contra hz
        have hany : (q₁.sets fd).any = true := by
          by_contra ha
          exact hz (Bits.eq_zero (by simpa using ha)).symm
        have := Sets.count_two (h.below fd hany) (h.below pipe (pipe_any hr)) hne hany (pipe_any hr)
        have := h.count₁
        omega
      · exact Function.update_of_ne hne _ _
    · cases hc
      split
      · rename_i hle
        exact (h.eq_zero (le_antisymm hle h.nonneg) fd).symm
      · rfl

theorem fail_adjust (h : Answered q₁ rc₁ q₂ rc₂) (fd : Fd) :
    (Poll.reply (Poll.adjust pipe q₂ dopoll rc₂).1 fd).fail = false := by
  rw [Poll.reply, pollsetRevents_adjust]
  split
  · rfl
  · rw [h.revents, Revents.of_reply]

theorem tells (h : Answered q₁ rc₁ q₂ rc₂) :
    Tells pipe dopoll (Select.adjust pipe q₁ dopoll rc₁).1 (Poll.adjust pipe q₂ dopoll rc₂).1 where
  bits fd hfd := by
    rw [h.sets_adjust hfd, Poll.reply, h.counted.revents_adjust hfd,
      h.revents, Revents.of_reply]
  fail := h.fail_adjust

theorem nonneg_adjust (h : Answered q₁ rc₁ q₂ rc₂) :
    0 ≤ (Select.adjust pipe q₁ dopoll rc₁).2 := by
  have := h.nonneg
  unfold Select.adjust
  split
  rename_i hc
  split at hc
  · cases hc
    omega
  · cases hc
    exact this

end Answered

namespace Tells

variable {pipe : Fd}

theorem alike (h : Tells pipe dopoll q₁ q₂) {a : SelectArgs}
    (hok : ∀ fd < a.nfd, (a.bits mem fd).any = true → dopoll = false → fd ≠ pipe) :
    Alike mem a q₁.sets (replySets (Poll.reply q₂) mem a) := by
  intro fd hfd
  have hidem : ∀ b c : Bits, b.and (b.and c) = b.and c := by
    intro b c
    simp [Bits.and]
  rw [replySets, if_pos hfd, hidem]
  cases hb : (a.bits mem fd).any with
  | false => rw [Bits.eq_zero hb, Bits.zero_and, Bits.zero_and]
  | true => rw [h.bits fd (hok fd hfd hb)]

theorem not_bad (h : Tells pipe dopoll q₁ q₂) (a : SelectArgs) :
    replyBad (Poll.reply q₂) a = false := by
  rw [replyBad, List.any_eq_false]
  intro fd _
  rw [h.fail]
  nofun

end Tells

theorem tellAlike (pipe : Fd) (dopoll : Bool) (os₁ : SelectOs) (os₂ : PollOs)
    (rc₂ : Int) (hrc : 0 ≤ rc₁) :
    (selectCore pipe).TellAlike (pollCore pipe) os₁ os₂ rc₁ rc₂
      (fun fd => dopoll = false → fd ≠ pipe) (Tells pipe dopoll) where
  lateFd {q₁ q₂ fd} goal h hok := by
    simp only [selectCore, pollCore, Select.lateFd, replyFd, h.fail, ← h.bits fd hok,
      not_lt.mpr hrc]
    split
    · exact ⟨rfl, h⟩
    · exact ⟨rfl, h⟩
  lateSelect {q₁ q₂ mem a} h hok := by
    have halike := h.alike hok
    have htest : fdsTest a mem q₁.sets = fdsTest a mem (replySets (Poll.reply q₂) mem a) :=
      fdsTest_congr (fun _ _ => rfl) (fun _ _ => trivial) halike
    simp only [selectCore, pollCore, Select.lateSelect, replySelect, h.not_bad, htest,
      selectOccurred_congr halike, not_lt.mpr hrc, false_and]
    split
    · exact ⟨rfl, h⟩
    · exact ⟨rfl, h⟩

/-! ### A turn, and a call -/

section
variable {env : Env}

/-- In the turn with `i` and `ready`, no thread that the late handling meets waits
on the signal pipe, unless the turn only polls. -/
def PipePrivate (env : Env) (pipe : Fd) (i : Input) (ready : Fd → Bits) (dopoll : Bool)
    (q : FdSets) (s : St) : Prop :=
  let c := scanned (selectCore pipe) env i dopoll q s
  c.dopoll = false → (c.late (selectCore pipe) i (selectAnswer ready)).1.st.waitsOn pipe = false

theorem heeds_of_waitsOn (h : dopoll = false → s.waitsOn fd = false) :
    Heeds (fun x => dopoll = false → x ≠ fd) (s.sched.members .wq) s := by
  intro t ht e he hp x hx hd hxf
  subst hxf
  have hno := h hd
  simp only [St.waitsOn, List.any_eq_false] at hno
  apply hno t ht
  rw [List.any_eq_true]
  exact ⟨e, he, by simp [St.pending, hp, hx]⟩

structure Passed.Same {Q₁ Q₂ : Type} (p₁ : Passed Q₁) (p₂ : Passed Q₂) : Prop where
  st : p₁.st = p₂.st
  dopoll : p₁.dopoll = p₂.dopoll
  loopRepeat : p₁.loopRepeat = p₂.loopRepeat

theorem pass_same (i : Input) (ready : Fd → Bits) (dopoll : Bool) (q₁ : FdSets) (q₂ : Pollset)
    (s : St) (hp : PipePrivate env pipe i ready dopoll q₁ s) :
    Passed.Same (pass (selectCore pipe) env i (selectAnswer ready) dopoll q₁ s)
      (pass (pollCore pipe) env i (pollAnswer ready) dopoll q₂ s) := by
  obtain ⟨hscan, hdopoll⟩ :=
    scanned_same env (askAlike pipe) i dopoll q₁ q₂ s
  unfold PipePrivate at hp
  unfold pass
  generalize scanned (selectCore pipe) env i dopoll q₁ s = c₁ at hscan hdopoll hp ⊢
  generalize scanned (pollCore pipe) env i dopoll q₂ s = c₂ at hscan hdopoll ⊢
  obtain ⟨d, scan₂⟩ := c₂
  subst hdopoll
  have hwait : Answered (c₁.wait (selectCore pipe) i.now (selectAnswer ready)).1
      (c₁.wait (selectCore pipe) i.now (selectAnswer ready)).2
      (Scanned.wait (pollCore pipe) ⟨c₁.dopoll, scan₂⟩ i.now (pollAnswer ready)).1
      (Scanned.wait (pollCore pipe) ⟨c₁.dopoll, scan₂⟩ i.now (pollAnswer ready)).2 :=
    hscan.req.answered pipe ready c₁.dopoll
  have htimers : c₁.timers i (c₁.wait (selectCore pipe) i.now (selectAnswer ready)).2 =
      Scanned.timers ⟨c₁.dopoll, scan₂⟩ i
        (Scanned.wait (pollCore pipe) ⟨c₁.dopoll, scan₂⟩ i.now (pollAnswer ready)).2 := by
    simp [Scanned.timers, hscan.st, hscan.timer, hwait.zero_iff]
  have hlate : Late.Same (Tells pipe c₁.dopoll) (c₁.late (selectCore pipe) i (selectAnswer ready)).1
      (Scanned.late (pollCore pipe) ⟨c₁.dopoll, scan₂⟩ i (pollAnswer ready)).1 := by
    refine ⟨congrArg Prod.fst htimers, ?_, hwait.tells⟩
    simp [Scanned.late, hscan.sigcatch]
  have hrc : 0 ≤ (c₁.late (selectCore pipe) i (selectAnswer ready)).2 := hwait.nonneg_adjust
  have hloop : Late.Same (Tells pipe c₁.dopoll) (cleanupLoop (selectCore pipe) env _ _ _)
      (cleanupLoop (pollCore pipe) env _ _ _) :=
    hlate.cleanupLoop (selectCore_narrow pipe)
      (tellAlike pipe c₁.dopoll (selectAnswer ready) (pollAnswer ready)
        (Scanned.late (pollCore pipe) ⟨c₁.dopoll, scan₂⟩ i (pollAnswer ready)).2 hrc)
      (heeds_of_waitsOn hp)
  exact ⟨hloop.st, rfl, congrArg Prod.snd htimers⟩

def AlwaysPrivate (env : Env) (pipe : Fd) :
    List (Input × (Fd → Bits)) → Bool → FdSets → St → Prop
  | [], _, _, _ => True
  | (i, ready) :: turns, dopoll, q, s =>
    let p := pass (selectCore pipe) env i (selectAnswer ready) dopoll q s
    PipePrivate env pipe i ready dopoll q s ∧
      (p.loopRepeat = true → AlwaysPrivate env pipe turns p.dopoll p.req p.st)

end

/-! ### A thread that waits on the pipe -/

def twoReaders (fd₁ fd₂ : Fd) : St :=
  { St.waiting [1, 2] fun _ => .fd with
    fdArgs := fun e => (if e = 1 then fd₁ else fd₂, ⟨true, false, false⟩) }

def readable (fds : List Fd) : Fd → Bits := fun fd => ⟨fd ∈ fds, false, false⟩

end GnuPth.Manager
