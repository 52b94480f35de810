import GnuPth.Io.Os
import GnuPth.Manager.Frame

/-!
# The result of `pth_select_ev`

The call asks the kernel first, and waits for a `SELECT` event when nothing is
ready. The event manager rewrites the sets and the count behind its back, in the
way of `pth_util_fds_select`. What the call makes of the states of its events is
written out for every outcome of the wait.
-/

namespace GnuPth

namespace Io

open Function (update update_apply)
open Manager (Bits Sets Mem SelectArgs fdsTest fdsSelect selectOccurred)
open Manager.Select (fdsMerge)
open Program

/-! ### The surroundings -/

def FdSets.bits (sets : FdSets) (fd : Fd) : Bits :=
  ⟨sets.rfds.elim false (· fd), sets.wfds.elim false (· fd), sets.efds.elim false (· fd)⟩

def FdSets.restrict (sets : FdSets) (keep : Sets) : FdSets where
  rfds := sets.rfds.map fun f fd => f fd && (keep fd).r
  wfds := sets.wfds.map fun f fd => f fd && (keep fd).w
  efds := sets.efds.map fun f fd => f fd && (keep fd).e

namespace Select

/-- The arguments of the `SELECT` event, with the sets at the addresses 0 to 2 and
`rc` at 0. -/
def selectArgs (nfd : Nat) (sets : FdSets) : SelectArgs :=
  ⟨nfd, sets.rfds.map fun _ => 0, sets.wfds.map fun _ => 1, sets.efds.map fun _ => 2, some 0⟩

def selectMem (sets : FdSets) : Mem where
  set
    | 0, fd => (sets.bits fd).r
    | 1, fd => (sets.bits fd).w
    | _, fd => (sets.bits fd).e
  int _ := -1

/-- `ENETRESET`, `ECONNABORTED`, `ECONNRESET` and `ESHUTDOWN` -/
def hungUp : Res Bytes → Bool
  | .error (.other code) => code ∈ [102, 103, 104, 108]
  | _ => false

structure Host where
  -- the open descriptors
  valid : Fd → Bool
  -- a `recv` fails since the connection is lost
  reset : Fd → Bool
  args : SelectArgs
  mem : Mem
  timer : Timeval
  status : Ev → Status
  -- history variables: what was reported ready last, that there was a wait, and
  -- that `pth_event` failed and has set `errno`
  reported : Sets
  waited : Bool
  failed : Bool

def Host.sets (s : Host) : FdSets :=
  ⟨s.args.rfds.map s.mem.set, s.args.wfds.map s.mem.set, s.args.efds.map s.mem.set⟩

/-- The event manager has gone through the events: the `SELECT` event occurred if
one of its descriptors is in `out`. -/
def Host.passed (s : Host) (status : Ev → Status) (out : Sets) : Host :=
  { s with
    status
    reported := out
    waited := true
    mem := if fdsTest s.args s.mem out then selectOccurred s.args s.mem out else s.mem }

/-- The kernel takes descriptors that are not ready out of copies of the sets, and
counts those below `nfd` that are left. -/
def Host.answer (s : Host) : (e : Request) → Answer e → Host → Prop
  | .getfl fd, r, s' => r.isSome = s.valid fd ∧ s' = s
  | .select nfd sets _, .ok (n, sets'), s' =>
    ∃ out, sets' = sets.restrict out ∧ n = Sets.count sets'.bits nfd ∧
      s' = { s with args := selectArgs nfd sets, mem := selectMem sets, reported := out }
  | .static site, .ok _, s' => s' = { s with status := update s.status (.static site) .pending }
  | .static _, .error _, s' => s' = { s with failed := true }
  | .init _ (.select nfd sets), _, s' =>
    s' = { s with args := selectArgs nfd sets, mem := selectMem sets }
  | .init _ (.time tv), _, s' => s' = { s with timer := tv }
  | .status ev, r, s' => r = s.status ev ∧ s' = s
  | .recvfrom fd _, r, s' => hungUp r = s.reset fd ∧ s' = s
  | .selected, r, s' => r = (s.mem.int 0, s.sets) ∧ s' = s
  | .wait _, _, s' =>
    ∃ status out, (status (.static .select) = .occurred ↔ fdsTest s.args s.mem out = true) ∧
      s' = s.passed status out
  | _, _, s' => s' = s

def rule : Rule Request Answer Host := alone Host.answer fun _ _ => True

/-! ### The outcomes -/

/-- A positive result: the sets are cut down to what was reported ready, below `nfd`. -/
structure Reported (nfd : Nat) (sets : FdSets) (s : Host) (r : Int) (sets' : FdSets) : Prop where
  count : r = Sets.count sets'.bits nfd
  below : ∀ fd < nfd, sets'.bits fd = (sets.bits fd).and (s.reported fd)
  above : ∀ fd, nfd ≤ fd → sets.bits fd = .zero → sets'.bits fd = .zero

def Elapsed (timeout : Option Timeval) (s : Host) : Prop :=
  timeout = some ⟨0, 0⟩ ∨ timeout = some s.timer ∧ s.status (.static .timeout) = .occurred

def Host.Both (s : Host) : Prop :=
  s.waited = true ∧ s.status (.static .select) = .occurred ∧ s.status (.static .timeout) = .occurred

/-- The wait was left without any event. -/
def Host.Neither (s : Host) (timeout : Option Timeval) (extra : Option Ev) : Prop :=
  s.waited = true ∧ extra = none ∧ s.status (.static .select) = .pending ∧ ¬ Elapsed timeout s

def Unready (nfd : Nat) (sets : FdSets) (s : Host) : Prop :=
  ∀ fd < nfd, (sets.bits fd).and (s.reported fd) = .zero

def Ends (nfd : Nat) (sets : FdSets) (timeout : Option Timeval) (extra : Option Ev) :
    Except Stop (Res Int × FdSets) → Host → Prop
  | .error _, _ => True
  | .ok (.error _, sets'), _ => sets' = sets
  | .ok (.ok r, sets'), s =>
    0 < r ∧ Reported nfd sets s r sets' ∨
    r = 0 ∧ (Unready nfd sets s ∨ s.Both) ∧ Elapsed timeout s ∨
    r = -1 ∧ sets' = sets ∧ (s.failed = true ∨ s.Neither timeout extra)

section
variable {b : Build} {sets : FdSets} {timeout : Option Timeval} {extra : Option Ev}
  {s : Host} {n : Nat} {fd : Fd}

theorem count_eq_zero : Sets.count f n = 0 ↔ ∀ fd < n, f fd = .zero := by
  have hbits : ∀ b : Bits, b.count = 0 ↔ b = .zero := by
    rintro ⟨r, w, e⟩
    cases r <;> simp [Bits.count, Bits.zero]
  induction n with
  | zero => simp [Sets.count]
  | succ n ih =>
    simp only [Sets.count_succ, Nat.add_eq_zero_iff, ih, hbits, Nat.forall_lt_succ_right]

theorem fdsTest_eq_false :
    fdsTest a mem out = false ↔ ∀ fd < a.nfd, (a.bits mem fd).and (out fd) = .zero := by
  have hbits : ∀ b : Bits, b.any = false ↔ b = .zero := by
    rintro ⟨r, w, e⟩
    cases r <;> simp [Bits.any, Bits.zero]
  simp [fdsTest, hbits]

theorem count_congr (h : ∀ fd < n, f fd = g fd) : Sets.count f n = Sets.count g n := by
  exact congrArg List.sum (List.map_congr_left fun fd hfd => by rw [h fd (List.mem_range.mp hfd)])

theorem count_stable (hnm : n ≤ m) (hf : ∀ fd, n ≤ fd → f fd = .zero) :
    Sets.count f m = Sets.count f n := by
  induction m, hnm using Nat.le_induction with
  | base => rfl
  | succ m hm ih => rw [Sets.count_succ, hf m hm, ih]; rfl

theorem restrict_bits : (sets.restrict out).bits fd = (sets.bits fd).and (out fd) := by
  obtain ⟨r, w, e⟩ := sets
  cases r <;> cases w <;> cases e <;> rfl

theorem selectArgs_bits : (selectArgs nfd sets).bits (selectMem sets) fd = sets.bits fd := by
  obtain ⟨r, w, e⟩ := sets
  cases r <;> cases w <;> cases e <;> rfl

theorem selectArgs_apart : (selectArgs nfd sets).Apart := by
  obtain ⟨r, w, e⟩ := sets
  constructor <;> cases r <;> cases w <;> simp [selectArgs]

theorem fdsSelect_spec (nfd : Nat) (sets : FdSets) (out : Sets) :
    (∀ fd, (selectArgs nfd sets).bits (fdsSelect (selectArgs nfd sets) (selectMem sets) out).1 fd =
      if fd < nfd then (sets.bits fd).and (out fd) else sets.bits fd) ∧
    (fdsSelect (selectArgs nfd sets) (selectMem sets) out).2 =
      Sets.count (fun fd => (sets.bits fd).and (out fd)) nfd ∧
    (fdsTest (selectArgs nfd sets) (selectMem sets) out = true ↔
      0 < (fdsSelect (selectArgs nfd sets) (selectMem sets) out).2) := by
  have hapart : (selectArgs nfd sets).Apart := selectArgs_apart
  obtain ⟨hleft, hcount⟩ := Manager.keepFds hapart (selectMem sets) out nfd
  simp only [selectArgs_bits] at hleft hcount
  have hcount : (fdsSelect (selectArgs nfd sets) (selectMem sets) out).2 = _ := hcount
  refine ⟨hleft, hcount, ?_⟩
  have hfalse : fdsTest (selectArgs nfd sets) (selectMem sets) out = false ↔
      ∀ fd < nfd, (sets.bits fd).and (out fd) = .zero := by
    simp only [fdsTest_eq_false, selectArgs_bits]
    exact Iff.rfl
  rw [Nat.pos_iff_ne_zero, ne_eq, hcount, count_eq_zero, ← hfalse, Bool.not_eq_false]

theorem fdsMerge_apply :
    fdsMerge a mem out fd = if fd < a.nfd then (out fd).or (a.bits mem fd) else out fd := by
  unfold fdsMerge
  induction a.nfd with
  | zero => rfl
  | succ n ih =>
    rw [List.range_succ, List.foldl_append, List.foldl_cons, List.foldl_nil, Sets.add, update_apply]
    grind

/-- The loops of `pth_util_fds_select`, `pth_util_fds_test` and `pth_util_fds_merge`
agree on every three sets, any of which may be `NULL`. -/
theorem fds_helpers (nfd : Nat) (sets : FdSets) (out : Sets) :
    let a := selectArgs nfd sets
    let mem := selectMem sets
    let left := a.bits (fdsSelect a mem out).1
    (∀ fd, left fd = if fd < nfd then (sets.bits fd).and (out fd) else sets.bits fd) ∧
    (fdsSelect a mem out).2 = Sets.count left nfd ∧
    (fdsTest a mem out = true ↔ 0 < (fdsSelect a mem out).2) ∧
    ∀ fd, fdsMerge a mem out fd =
      if fd < nfd then (out fd).or (sets.bits fd) else out fd := by
  intro a mem left
  obtain ⟨hleft, hcount, htest⟩ := fdsSelect_spec nfd sets out
  refine ⟨hleft, ?_, htest, fun fd => ?_⟩
  · exact hcount.trans (count_congr fun fd hfd => ((hleft fd).trans (if_pos hfd)).symm)
  · rw [fdsMerge_apply, selectArgs_bits]
    rfl

theorem Host.sets_bits : s.sets.bits fd = s.args.bits s.mem fd := by
  obtain ⟨-, -, ⟨nfd, r, w, e, n⟩⟩ := s
  cases r <;> cases w <;> cases e <;> rfl

theorem Host.sets_eq (ha : s.args = selectArgs nfd sets) (hm : s.mem = selectMem sets) :
    s.sets = sets := by
  obtain ⟨r, w, e⟩ := sets
  rw [Host.sets, ha, hm]
  cases r <;> cases w <;> cases e <;> rfl

/-! ### The wait -/

theorem wp_concat (h : Q (.ok ()) s) :
    (pthEventConcat ev ring).wp rule s Q := by
  cases ev with
  | none => exact h
  | some =>
    cases ring <;> exact ⟨trivial, by rintro _ _ rfl; exact h⟩

theorem wp_isolate (h : Q (.ok ()) s) :
    (pthEventIsolate ev).wp rule s Q := by
  cases ev with
  | none => exact h
  | some => exact ⟨trivial, by rintro _ _ rfl; exact h⟩

theorem wp_status
    (h : Q (.ok (ev.elim .pending s.status)) s) : (pthEventStatus ev).wp rule s Q := by
  cases ev with
  | none => exact h
  | some => exact ⟨trivial, by rintro _ _ ⟨rfl, rfl⟩; exact h⟩

theorem wp_event
    (hok : ∀ s', Host.answer { s with status := update s.status (.static site) .pending }
      (.init (.static site) args) () s' → Q (.ok (some (.static site))) s')
    (herror : Q (.ok none) { s with failed := true }) : (pthEvent site args).wp rule s Q := by
  refine ⟨trivial, fun r s₁ hr => ?_⟩
  cases r with
  | error =>
    obtain rfl : s₁ = _ := hr
    exact herror
  | ok =>
    obtain rfl : s₁ = _ := hr
    exact wp_seq <| ⟨trivial, fun _ s' h => hok s' h⟩

theorem wp_selectResult
    (h : Q (.ok (if ev.elim .pending s.status = .failed then (.error .EBADF, s.sets)
      else if evTimeout.elim .pending s.status = .occurred then (.ok 0, s.sets.zero)
      else if extra.isSome ∧ ev.elim .pending s.status ≠ .occurred then (.error .EINTR, s.sets)
      else (.ok (s.mem.int 0), s.sets))) s) :
    (selectResult ev evTimeout extra).wp rule s Q := by
  rw [selectResult, wp_bind]
  refine ⟨trivial, ?_⟩
  rintro _ _ ⟨rfl, rfl⟩
  refine wp_seq <| wp_status ?_
  refine wp_seq <| wp_status ?_
  rw [andThen_ok]
  split
  · simpa [*] using h
  · split
    · simpa [*] using h
    · split <;> simpa [*] using h

/-- The events are made, as far as there was room for them. -/
structure Armed (nfd : Nat) (sets : FdSets) (timeout : Option Timeval) (ev evTimeout : Option Ev)
    (s : Host) : Prop where
  args : s.args = selectArgs nfd sets
  mem : s.mem = selectMem sets
  event : ev = some (.static .select) ∨ ev = none ∧ s.failed = true
  timer : ∀ e, evTimeout = some e →
    e = .static .timeout ∧ timeout = some s.timer ∧ (ev = none → s.status e = .pending)
  room : evTimeout = none → timeout = none ∨ s.failed = true

section
variable (ha : s.args = selectArgs nfd sets) (hm : s.mem = selectMem sets)
include ha hm

theorem passed_unready (ht : ¬ fdsTest s.args s.mem out = true) :
    (s.passed status out).sets = sets ∧ Unready nfd sets (s.passed status out) := by
  have hmem : (s.passed status out).mem = s.mem := if_neg ht
  refine ⟨Host.sets_eq ha (hmem.trans hm), fun fd hfd => ?_⟩
  rw [Bool.not_eq_true, fdsTest_eq_false, ha, hm] at ht
  exact selectArgs_bits ▸ ht fd hfd

theorem passed_reported (ht : fdsTest s.args s.mem out = true) :
    0 < (s.passed status out).mem.int 0 ∧ Reported nfd sets (s.passed status out)
      ((s.passed status out).mem.int 0) (s.passed status out).sets := by
  have hmem : (s.passed status out).mem = selectOccurred s.args s.mem out := if_pos ht
  obtain ⟨hleft, hcount, htest⟩ := fdsSelect_spec nfd sets out
  have hbits : ∀ fd, (s.passed status out).sets.bits fd =
      if fd < nfd then (sets.bits fd).and (out fd) else sets.bits fd := by
    intro fd
    have hargs : (s.passed status out).args = selectArgs nfd sets := ha
    rw [← hleft, Host.sets_bits, hmem, hargs, ha, hm]
    rfl
  have hsum : Sets.count (s.passed status out).sets.bits nfd =
      Sets.count (fun fd => (sets.bits fd).and (out fd)) nfd :=
    count_congr fun fd hfd => by rw [hbits, if_pos hfd]
  have hint : (s.passed status out).mem.int 0 = Sets.count (s.passed status out).sets.bits nfd := by
    rw [hsum, ← hcount, hmem, ha, hm]
    rfl
  refine ⟨?_, hint, fun fd hfd => (hbits fd).trans (if_pos hfd), fun fd hfd hz => ?_⟩
  · rw [hint, hsum, Int.natCast_pos, ← hcount, ← htest, ← ha, ← hm]
    exact ht
  · rw [hbits, if_neg (not_lt.mpr hfd), hz]

end

variable {ev : Option Ev}

/-- Without a `SELECT` event there is no wait. -/
theorem Armed.unwaited (h : Armed nfd sets timeout none evTimeout s) :
    (selectResult none evTimeout extra).wp rule s (Ends nfd sets timeout extra) := by
  refine wp_selectResult ?_
  have hsets : s.sets = sets := Host.sets_eq h.args h.mem
  have hexpired : evTimeout.elim .pending s.status ≠ .occurred := by
    cases evTimeout with
    | none => nofun
    | some e =>
      have hst : s.status e = .pending := (h.timer e rfl).2.2 rfl
      simp [hst]
  rw [if_neg nofun, if_neg hexpired]
  split
  · exact hsets
  · refine .inr (.inr ⟨?_, hsets, .inl ?_⟩)
    · rw [h.mem]
      rfl
    · rcases h.event with he | he
      · cases he
      · exact he.2

theorem Armed.waited
    (h : Armed nfd sets timeout (some (.static .select)) evTimeout s) (ht : timeout ≠ some ⟨0, 0⟩)
    (hocc : status (.static .select) = .occurred ↔ fdsTest s.args s.mem out = true) :
    (selectResult (some (.static .select)) evTimeout extra).wp rule (s.passed status out)
      (Ends nfd sets timeout extra) := by
  refine wp_selectResult ?_
  have hunready : status (.static .select) ≠ .occurred →
      (s.passed status out).sets = sets ∧ Unready nfd sets (s.passed status out) := fun hne =>
    passed_unready h.args h.mem fun hf => hne (hocc.mpr hf)
  have hstatus : (s.passed status out).status = status := rfl
  rw [Option.elim_some, hstatus]
  split
  case isTrue hfail => exact (hunready (by simp [hfail])).1
  case isFalse hfail =>
  split
  case isTrue hexp =>
    cases evTimeout with
    | none => cases hexp
    | some e =>
      obtain ⟨rfl, htimer, -⟩ := h.timer e rfl
      refine .inr (.inl ⟨rfl, ?_, .inr ⟨htimer, hexp⟩⟩)
      by_cases hsel : status (.static .select) = .occurred
      · exact .inr ⟨rfl, hsel, hexp⟩
      · exact .inl (hunready hsel).2
  case isFalse hexp =>
  split
  case isTrue hx => exact (hunready hx.2).1
  case isFalse hx =>
  by_cases hsel : status (.static .select) = .occurred
  · exact .inl (passed_reported h.args h.mem (hocc.mp hsel))
  · have hmem : (s.passed status out).mem = s.mem := if_neg fun hf => hsel (hocc.mpr hf)
    refine .inr (.inr ⟨?_, (hunready hsel).1, ?_⟩)
    · rw [hmem, h.mem]
      rfl
    have hextra : extra = none := by simpa [hsel] using hx
    have hpending : status (.static .select) = .pending := by
      cases hst : status (.static .select) <;> simp [hst] at hfail hsel ⊢
    cases evTimeout with
    | none =>
      refine (h.room rfl).symm.imp id fun htime => ⟨rfl, hextra, hpending, ?_⟩
      simp [Elapsed, htime]
    | some e =>
      obtain ⟨rfl, -, -⟩ := h.timer e rfl
      exact .inr ⟨rfl, hextra, hpending, not_or.mpr ⟨ht, fun he => hexp he.2⟩⟩

theorem Armed.wait (h : Armed nfd sets timeout ev evTimeout s) (ht : timeout ≠ some ⟨0, 0⟩) :
    (do
      if extra.isSome then pthEventConcat ev extra
      pthWait ev
      pthEventIsolate extra
      pthEventIsolate evTimeout
      selectResult ev evTimeout extra : Code (Res Int × FdSets)).wp rule s
      (Ends nfd sets timeout extra) := by
  have hdone : ∀ s, (selectResult ev evTimeout extra).wp rule s (Ends nfd sets timeout extra) →
      (do
        pthEventIsolate extra
        pthEventIsolate evTimeout
        selectResult ev evTimeout extra : Code (Res Int × FdSets)).wp rule s
        (Ends nfd sets timeout extra) := by
    intro s hs
    refine wp_seq <| wp_isolate ?_
    exact wp_seq <| wp_isolate hs
  have hwait : (do
      pthWait ev
      pthEventIsolate extra
      pthEventIsolate evTimeout
      selectResult ev evTimeout extra : Code (Res Int × FdSets)).wp rule s
      (Ends nfd sets timeout extra) := by
    rcases h.event with rfl | ⟨rfl, -⟩
    · refine ⟨trivial, ?_⟩
      rintro r s' ⟨status, out, hocc, rfl⟩
      cases r with
      | cancelled => trivial
      | returned => exact hdone _ (h.waited ht hocc)
    · exact hdone s h.unwaited
  split
  · exact wp_seq <| wp_concat hwait
  · exact hwait

theorem wp_selectTimeout (hs : s.args = selectArgs nfd sets) (hm : s.mem = selectMem sets)
    (hev : ev = some (.static .select) ∨ ev = none ∧ s.failed = true)
    (hQ : ∀ evTimeout s', Armed nfd sets timeout ev evTimeout s' → Q (.ok evTimeout) s') :
    (selectTimeout ev timeout).wp rule s Q := by
  cases timeout with
  | none => exact hQ none s ⟨hs, hm, hev, nofun, fun _ => .inl rfl⟩
  | some =>
    rw [selectTimeout, wp_bind]
    refine wp_event ?_ ?_
    · rintro s' rfl
      refine wp_seq <| wp_concat (hQ _ _ ⟨hs, hm, hev, ?_, nofun⟩)
      rintro e ⟨⟩
      exact ⟨rfl, rfl, fun _ => by simp⟩
    · exact wp_seq <| wp_concat (hQ _ _ ⟨hs, hm, hev.imp_right fun h => ⟨h.1, rfl⟩, nofun, fun _ => .inr rfl⟩)

theorem wp_selectWait (hs : s.args = selectArgs nfd sets) (hm : s.mem = selectMem sets)
    (ht : timeout ≠ some ⟨0, 0⟩) :
    (selectWait nfd sets timeout extra).wp rule s (Ends nfd sets timeout extra) := by
  rw [selectWait, wp_bind]
  refine wp_event ?_ ?_
  · rintro s₁ rfl
    exact wp_seq <| wp_selectTimeout rfl rfl (.inl rfl) fun _ _ h => h.wait ht
  · exact wp_seq <| wp_selectTimeout hs hm (.inr ⟨rfl, rfl⟩) fun _ _ h => h.wait ht

theorem wp_selectPoll :
    (selectPoll b nfd sets timeout extra).wp rule s (Ends nfd sets timeout extra) := by
  rw [selectPoll, wp_bind]
  refine wp_iterate (fun _ s' => s' = s) rfl ?_ fun _ _ _ => trivial
  rintro _ _ rfl
  refine wp_seq <| ⟨trivial, fun r s' hr => ?_⟩
  match r with
  | .error e =>
    obtain rfl : s' = _ := hr
    cases e <;> rfl
  | .ok (n, sets') =>
    obtain ⟨out, rfl, rfl, rfl⟩ := hr
    have hbits : ∀ fd, (sets.restrict out).bits fd = (sets.bits fd).and (out fd) := fun _ =>
      restrict_bits
    show Prog.wp rule (ite _ _ _) _ _
    split
    case isFalse hne =>
      rw [not_or] at hne
      exact wp_selectWait rfl rfl hne.2
    case isTrue hor =>
      rcases Nat.eq_zero_or_pos (Sets.count (sets.restrict out).bits nfd) with h0 | hpos
      · refine .inr (.inl ⟨by rw [h0]; rfl, .inl fun fd hfd => ?_, .inl ?_⟩)
        · exact (hbits fd).symm.trans (count_eq_zero.mp h0 fd hfd)
        · exact hor.resolve_left (by simp [h0])
      · refine .inl ⟨Int.natCast_pos.mpr hpos, rfl, fun fd _ => hbits fd, fun fd _ hz => ?_⟩
        rw [hbits, hz]
        rfl

theorem wp_pthSelectEv (hplain : plainDelay nfd sets (timeout.map Timeval.cut) = none) :
    (pthSelectEv b nfd sets timeout extra).wp rule s
      (Ends nfd.toNat sets (timeout.map Timeval.cut) extra) := by
  unfold pthSelectEv
  split
  · rfl
  split
  · rfl
  dsimp only
  rw [hplain]
  exact wp_selectPoll

end

/-! ### Runs -/

def Host.reply (first later : Sets) (status : Ev → Status) (s : Host) :
    (e : Request) → Answer e × Host
  | .getfl fd => (if s.valid fd then some false else none, s)
  | .select nfd sets _ =>
    (.ok (Sets.count (sets.restrict first).bits nfd, sets.restrict first),
      { s with args := selectArgs nfd sets, mem := selectMem sets, reported := first })
  | .static site => (.ok (), { s with status := update s.status (.static site) .pending })
  | .init _ (.select nfd sets) => ((), { s with args := selectArgs nfd sets, mem := selectMem sets })
  | .init _ (.time tv) => ((), { s with timer := tv })
  | .status ev => (s.status ev, s)
  | .recvfrom fd _ => (if s.reset fd then .error (.other 104) else .ok [], s)
  | .selected => ((s.mem.int 0, s.sets), s)
  | .wait _ =>
    let st : Status := if fdsTest s.args s.mem later then .occurred else .pending
    (.returned, s.passed (update status (.static .select) st) later)
  | e => (bleak.pick oneOpen e, s)

def Host.run {α : Type} (first later : Sets) (status : Ev → Status) (p : Code α) (s : Host) :
    Code α × Host :=
  p.play (fun _ _ => false) (Host.reply first later status) 20 s

theorem Host.leads_run (first later : Sets) (status : Ev → Status) (p : Code α)
    (s : Host) : Leads Host.answer p s (s.run first later status p).1 (s.run first later status p).2 := by
  refine leads_play (fun s e _ => ?_) 20 p s
  cases e with
  | getfl fd =>
    refine ⟨?_, rfl⟩
    simp only [Host.reply]
    cases s.valid fd <;> rfl
  | recvfrom fd =>
    refine ⟨?_, rfl⟩
    simp only [Host.reply]
    cases s.reset fd <;> rfl
  | select => exact ⟨first, rfl, rfl, rfl⟩
  | init _ args => cases args <;> rfl
  | status | selected => exact ⟨rfl, rfl⟩
  | wait =>
    refine ⟨_, later, ?_, rfl⟩
    cases fdsTest s.args s.mem later <;> simp
  | _ => rfl

/-- No event has been made, and the descriptors up to 9 are open. -/
def Host.start : Host where
  valid fd := fd < 10
  reset _ := false
  args := ⟨0, none, none, none, none⟩
  mem := selectMem ⟨none, none, none⟩
  timer := ⟨0, 0⟩
  status _ := .pending
  reported _ := .zero
  waited := false
  failed := false

def reading (fds : List Fd) : FdSets := ⟨some fun fd => fd ∈ fds, none, none⟩

def readable : Sets := fun _ => ⟨true, false, false⟩

end Select

end Io

end GnuPth
