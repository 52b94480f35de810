import GnuPth.Manager.Frame

/-!
# The vector of poll(2)

What is asked for a descriptor and what is reported for it, through the
operations of the poll event manager.
-/

namespace GnuPth.Manager

variable {b : Bits}

theorem Bits.eq_zero (h : b.any = false) : b = .zero := by
  obtain ⟨r, w, e⟩ := b
  cases r <;> cases w <;> cases e <;> simp_all [Bits.any, Bits.zero]

@[simp] theorem Bits.or_zero (b : Bits) : b.or .zero = b := by
  simp [Bits.or, Bits.zero]

@[simp] theorem Bits.zero_and (b : Bits) : Bits.zero.and b = .zero := by
  simp [Bits.and, Bits.zero]

theorem Bits.any_and {a : Bits} (h : (a.and b).any = true) : a.any = true := by
  simp only [Bits.any, Bits.and, Bool.or_eq_true, Bool.and_eq_true] at h ⊢
  tauto

/-! ### Asking -/

def pollsetEvents : Pollset → Fd → Bits
  | [], _ => .zero
  | p :: l, fd => if p.fd = fd then p.events else pollsetEvents l fd

theorem pollsetEvents_add (q : Pollset) (fd x : Fd) (b : Bits) :
    pollsetEvents (pollsetAdd q fd b) x =
      if x = fd then (pollsetEvents q x).or b else pollsetEvents q x := by
  induction q with
  | nil =>
    by_cases hx : x = fd
    · simp [pollsetAdd, pollsetEvents, hx, Bits.or, Bits.zero]
    · simp [pollsetAdd, pollsetEvents, hx, Ne.symm hx]
  | cons p q ih =>
    unfold pollsetAdd
    split
    · rename_i hp
      subst hp
      by_cases hx : x = p.fd
      · simp [pollsetEvents, hx]
      · simp [pollsetEvents, hx, Ne.symm hx]
    · by_cases hx : p.fd = x
      · subst hx
        rename_i hp
        simp [pollsetEvents, hp]
      · simp only [pollsetEvents, hx, if_false]
        exact ih

theorem mem_pollsetAdd :
    x ∈ (pollsetAdd q fd b).map PollFd.fd ↔ x = fd ∨ x ∈ q.map PollFd.fd := by
  induction q with
  | nil => simp [pollsetAdd]
  | cons p q ih =>
    unfold pollsetAdd
    split
    · rename_i hp
      subst hp
      simp
    · rw [List.map_cons, List.mem_cons, ih, List.map_cons, List.mem_cons]
      exact or_left_comm

theorem nodup_pollsetAdd (h : (q.map PollFd.fd).Nodup) :
    ((pollsetAdd q fd b).map PollFd.fd).Nodup := by
  induction q with
  | nil => simp [pollsetAdd]
  | cons p q ih =>
    rw [List.map_cons, List.nodup_cons] at h
    unfold pollsetAdd
    split
    · rw [List.map_cons, List.nodup_cons]
      exact h
    · rename_i hp
      rw [List.map_cons, List.nodup_cons, mem_pollsetAdd]
      exact ⟨fun hm => hm.elim hp h.1, ih h.2⟩

theorem pollsetEvents_of_notMem (h : fd ∉ q.map PollFd.fd) :
    pollsetEvents q fd = .zero := by
  induction q with
  | nil => rfl
  | cons p q ih =>
    rw [List.map_cons, List.mem_cons, not_or] at h
    simpa [pollsetEvents, Ne.symm h.1] using ih h.2

/-- As it is built during the scan: one entry for each descriptor, no reports. -/
structure Plain (q : Pollset) : Prop where
  nodup : (q.map PollFd.fd).Nodup
  revents : ∀ fd, pollsetRevents q fd = .zero

theorem pollsetRevents_add (q : Pollset) (fd x : Fd) (b : Bits) :
    pollsetRevents (pollsetAdd q fd b) x = pollsetRevents q x := by
  induction q with
  | nil => simp [pollsetAdd, pollsetRevents]
  | cons p q ih =>
    unfold pollsetAdd
    split
    · rfl
    · simp only [pollsetRevents, ih]

theorem Plain.add (h : Plain q) (fd : Fd) (b : Bits) : Plain (pollsetAdd q fd b) :=
  ⟨nodup_pollsetAdd h.nodup, fun x => (pollsetRevents_add q fd x b).trans (h.revents x)⟩

/-! ### Reports -/

theorem pollsetRevents_map (q : Pollset) (f : Fd → Bits → Revents) (fd : Fd) :
    pollsetRevents (q.map fun p => { p with revents := f p.fd p.events }) fd =
      if fd ∈ q.map PollFd.fd then f fd (pollsetEvents q fd) else .zero := by
  induction q with
  | nil => rfl
  | cons p q ih =>
    by_cases hp : p.fd = fd
    · subst hp
      simp [pollsetRevents, pollsetEvents]
    · simpa [pollsetRevents, pollsetEvents, hp, Ne.symm hp] using ih

theorem pollsetRevents_mem (h : (q.map PollFd.fd).Nodup) (hp : p ∈ q) :
    pollsetRevents q p.fd = p.revents := by
  induction q with
  | nil => cases hp
  | cons p' q ih =>
    rw [List.map_cons, List.nodup_cons] at h
    rcases List.mem_cons.mp hp with rfl | hp
    · simp [pollsetRevents]
    · have hne : p'.fd ≠ p.fd := fun he => h.1 (he ▸ List.mem_map_of_mem hp)
      simpa [pollsetRevents, hne] using ih h.2 hp

theorem exists_of_pollsetRevents (h : (pollsetRevents q fd).any = true) :
    ∃ p ∈ q, p.fd = fd ∧ p.revents = pollsetRevents q fd := by
  induction q with
  | nil => cases h
  | cons p q ih =>
    by_cases hp : p.fd = fd
    · exact ⟨p, by simp, hp, by simp [pollsetRevents, hp]⟩
    · simp only [pollsetRevents, hp, if_false] at h ⊢
      obtain ⟨p', hp', hfd, hre⟩ := ih h
      exact ⟨p', by simp [hp'], hfd, hre⟩

theorem pollsetRevents_cleared (q : Pollset) (fd : Fd) :
    pollsetRevents (q.map ({ · with revents := .zero })) fd = .zero := by
  induction q with
  | nil => rfl
  | cons p q ih =>
    by_cases hp : p.fd = fd
    · simp [pollsetRevents, hp]
    · simpa [pollsetRevents, hp] using ih

theorem pollsetRevents_adjust (pipe : Fd) (q : Pollset) (dopoll : Bool) (rc : Int) (fd : Fd) :
    pollsetRevents (Poll.adjust pipe q dopoll rc).1 fd =
      if (Poll.adjust pipe q dopoll rc).2 = 0 then .zero else pollsetRevents q fd := by
  by_cases hz : (Poll.adjust pipe q dopoll rc).2 = 0
  · have hq : (Poll.adjust pipe q dopoll rc).1 = q.map ({ · with revents := .zero }) := if_pos hz
    rw [hq, if_pos hz, pollsetRevents_cleared]
  · have hq : (Poll.adjust pipe q dopoll rc).1 = q := if_neg hz
    rw [hq, if_neg hz]

def Revents.of (b : Bits) : Revents := ⟨b.r, b.w, b.e, false, false, false⟩

@[simp] theorem Revents.of_any (b : Bits) : (Revents.of b).any = b.any := by
  simp [Revents.of, Revents.any, Bits.any]

@[simp] theorem Revents.of_reply (b : Bits) : (Revents.of b).reply = ⟨b, false⟩ := by
  simp [Revents.of, Revents.reply]

theorem Revents.mask_of (b events : Bits) : (Revents.of b).mask events = .of (events.and b) := by
  simp [Revents.of, Revents.mask, Bits.and, Bool.and_comm]

theorem Revents.eq_zero {re : Revents} (h : re.any = false) : re = .zero := by
  simp only [Revents.any, Bool.or_eq_false_iff] at h
  obtain ⟨⟨⟨⟨⟨hin, hout⟩, hpri⟩, herr⟩, hhup⟩, hnval⟩ := h
  cases re
  simp_all [Revents.zero]

/-- Each descriptor has one entry, and `rc` counts those with a report. -/
structure Counted (q : Pollset) (rc : Int) : Prop where
  nodup : (q.map PollFd.fd).Nodup
  count : rc = q.countP (·.revents.any)

namespace Counted

variable {q : Pollset}

theorem zero_iff (h : Counted q rc) : rc = 0 ↔ ∀ fd, (pollsetRevents q fd).any = false := by
  rw [h.count, Int.natCast_eq_zero, List.countP_eq_zero]
  constructor
  · intro hz fd
    by_contra ha
    have ha := Bool.eq_true_of_not_eq_false ha
    obtain ⟨p, hp, _, hre⟩ := exists_of_pollsetRevents ha
    exact hz p hp (hre ▸ ha)
  · intro hz p hp
    rw [← pollsetRevents_mem h.nodup hp, hz]
    nofun

theorem two_le (h : Counted q rc) (hne : fd ≠ x) (hfd : (pollsetRevents q fd).any = true)
    (hx : (pollsetRevents q x).any = true) : 2 ≤ rc := by
  obtain ⟨p, hp, hpf, hre⟩ := exists_of_pollsetRevents hfd
  obtain ⟨p', hp', hpf', hre'⟩ := exists_of_pollsetRevents hx
  have hmem : p ∈ q.filter (·.revents.any) := List.mem_filter.mpr ⟨hp, hre ▸ hfd⟩
  have hmem' : p' ∈ q.filter (·.revents.any) := List.mem_filter.mpr ⟨hp', hre' ▸ hx⟩
  rw [h.count, List.countP_eq_length_filter]
  by_contra hlt
  have hone : (q.filter (·.revents.any)).length = 1 := by
    have := List.length_pos_of_mem hmem
    omega
  obtain ⟨p₀, hp₀⟩ := List.length_eq_one_iff.mp hone
  rw [hp₀, List.mem_singleton] at hmem hmem'
  apply hne
  rw [← hpf, ← hpf', hmem, hmem']

theorem any_of_pollin (hin : (pollsetRevents q fd).pollin = true) :
    (pollsetRevents q fd).any = true := by
  simp [Revents.any, hin]

/-- The adjustment for the pipe leaves the reports for others: what it zeroes was
a report for the pipe alone. -/
theorem revents_adjust (h : Counted q rc) (hfd : dopoll = false → fd ≠ pipe) :
    pollsetRevents (Poll.adjust pipe q dopoll rc).1 fd = pollsetRevents q fd := by
  rw [pollsetRevents_adjust]
  split
  · rename_i hzero
    have hnone : (pollsetRevents q fd).any = false := by
      by_contra hany
      have hany := Bool.eq_true_of_not_eq_false hany
      simp only [Poll.adjust] at hzero
      split at hzero
      · rename_i hpipe
        obtain ⟨hd, _, hin⟩ := hpipe
        have := h.two_le (hfd (by simpa using hd)) hany (any_of_pollin hin)
        omega
      · rw [h.zero_iff.mp hzero fd] at hany
        cases hany
    exact (Revents.eq_zero hnone).symm
  · rfl

end Counted

end GnuPth.Manager
