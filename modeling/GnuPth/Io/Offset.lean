import GnuPth.Io.Os
import GnuPth.Lib.Coop

/-!
# Concurrent transfers at an offset

Threads of one scheduler in `pth_pread` and `pth_pwrite` on one seekable
descriptor. Each of the two functions seeks, transfers and seeks back under a
mutex of its own, so that a read and a write do not exclude each other, and
nothing seeks back for a thread that is cancelled in the transfer.
-/

namespace GnuPth

namespace Io

namespace Offset

open Function (update update_self update_of_ne)
open Program
open Transition

abbrev Tid := Nat

inductive Call
  | pread (nbytes : Nat) (offset : Int)
  | pwrite (buf : Bytes) (offset : Int)

inductive Result
  | bytes (r : Res Bytes)
  | count (r : Res Nat)
  deriving DecidableEq, Repr

def Call.code (b : Build) (fd : Fd) : Call → Code Result
  | .pread nbytes offset => do return .bytes (← pthPread b fd nbytes offset)
  | .pwrite buf offset => do return .count (← pthPwrite b fd buf offset)

/-- The pieces that a call has transferred, each with its place in the file. -/
abbrev Pieces := List (Nat × Bytes)

/-- The open file and the two mutexes. What is in the file is left open: a read
may bring any bytes. -/
structure File where
  offset : Nat
  owner : OffsetMutex → Option Tid
  -- history variable: what the latest call of a thread has transferred
  moved : Tid → Pieces

def File.advance (x : File) (t : Tid) (bs : Bytes) : File :=
  { x with
    offset := x.offset + bs.length
    moved := update x.moved t (x.moved t ++ [(x.offset, bs)]) }

def File.lock (x : File) (m : OffsetMutex) (t : Tid) : File :=
  { x with owner := update x.owner m (some t) }

/-- A seek succeeds exactly on the offsets that the file system admits. -/
def File.answer (limit : Nat) (t : Tid) (x : File) : (e : Request) → Answer e → File → Prop
  | .acquire m, r, x' => r = .acquired ∧ x' = x.lock m t
  | .release m, _, x' => x' = { x with owner := update x.owner m none }
  | .seekCur _, r, x' => (r = .ok x.offset ∨ ∃ e, r = .error e) ∧ x' = x
  | .seekSet _ offset, r, x' =>
    if 0 ≤ offset ∧ offset ≤ limit then
      r = .ok offset.toNat ∧ x' = { x with offset := offset.toNat }
    else (∃ e, r = .error e) ∧ x' = x
  | .read _ nbytes, .ok bs, x' => bs.length ≤ nbytes ∧ x' = x.advance t bs
  | .write _ buf, .ok n, x' => n ≤ buf.length ∧ x' = x.advance t (buf.take n)
  | _, _, x' => x' = x

/-- A cancelled thread leaves by `pth_exit`, which releases its mutexes. -/
def threads (b : Build) (fd : Fd) (limit : Nat) :
    Coop Tid Call Request Answer Stop Result File where
  code := Call.code b fd
  enter t _ x := { x with moved := update x.moved t [] }
  answer := File.answer limit
  yields _ x
    | .wait _ => True
    | .acquire m => x.owner m ≠ none
    | _ => False
  wake t x
    | .wait _, _, x' => x' = x
    | .acquire m, .acquired, x' => x.owner m = none ∧ x' = x.lock m t
    | .acquire _, .cancelled, x' => x' = x
    | _, _, _ => False
  ends h := h = .cancelled
  unwind t x := { x with owner := fun m => if x.owner m = some t then none else x.owner m }
  env _ _ := False

abbrev Threads := Pool Tid Call Request Answer Stop Result File

/-- The file offset is `home` before the first call. -/
def system (b : Build) (fd : Fd) (limit home : Nat) :
    System Threads (Move Tid Call Request Answer File) :=
  (threads b fd limit).system fun x =>
    x.offset = home ∧ home ≤ limit ∧ ∀ m, x.owner m = none

/-- One of the mutexes is acquired only while the other one is free, and nobody
is cancelled in a transfer. -/
def Alone (s : Threads) : Move Tid Call Request Answer File → Prop
  | .run _ (.acquire m) _ => ∀ m', m' ≠ m → s.shared.owner m' = none
  | .resume _ (.acquire m) r => r = .acquired → ∀ m', m' ≠ m → s.shared.owner m' = none
  | .resume _ (.wait _) r => r = .returned
  | _ => True

def Contiguous : Int → Pieces → Prop
  | _, [] => True
  | offset, (place, bs) :: l => (place : Int) = offset ∧ Contiguous (offset + bs.length) l

def Pieces.bytes (l : Pieces) : Bytes := l.flatMap Prod.snd

/-- A successful call has transferred what it says, at the offset it was asked for. -/
def Transferred (moved : Pieces) : Call → Result → Prop
  | .pread nbytes offset, .bytes (.ok bs) =>
    Contiguous offset moved ∧ bs.length ≤ nbytes ∧ Pieces.bytes moved = bs
  | .pwrite buf offset, .count (.ok n) =>
    Contiguous offset moved ∧ n ≤ buf.length ∧ Pieces.bytes moved = buf.take n
  | _, _ => True

theorem contiguous_append {place : Nat} :
    Contiguous offset (l ++ [(place, bs)]) ↔
      Contiguous offset l ∧ (place : Int) = offset + (Pieces.bytes l).length := by
  induction l generalizing offset with
  | nil => simp [Contiguous, Pieces.bytes]
  | cons p l ih =>
    simp only [List.cons_append, Contiguous, ih, Pieces.bytes, List.flatMap_cons,
      List.length_append, and_assoc]
    push_cast
    rw [Int.add_assoc]

@[simp] theorem bytes_nil : Pieces.bytes [] = [] := rfl

@[simp] theorem bytes_append :
    Pieces.bytes (l ++ [(place, bs)]) = Pieces.bytes l ++ bs := by
  simp [Pieces.bytes]

/-! ### One thread -/

/-- What a thread knows: the mutex that it holds, the offset while it holds one,
and what it has transferred. -/
structure Local where
  holds : Option OffsetMutex
  offset : Nat
  moved : Pieces

def Local.advance (l : Local) (bs : Bytes) : Local :=
  { l with offset := l.offset + bs.length, moved := l.moved ++ [(l.offset, bs)] }

/-- The mutex guards the offset: it is `home` when a mutex is acquired, it is to be
`home` when the mutex is released, and it is used in between only. -/
def rule (limit home : Nat) : Rule Request Answer Local where
  req
    | .acquire m, l, K => l.holds = none ∧ K .acquired ⟨some m, home, l.moved⟩ ∧ K .cancelled l
    | .release m, l, K => l.holds = some m ∧ l.offset = home ∧ K () { l with holds := none }
    | .seekCur _, l, K => l.holds ≠ none ∧ K (.ok l.offset) l ∧ ∀ e, K (.error e) l
    | .seekSet _ offset, l, K =>
      l.holds ≠ none ∧
        if 0 ≤ offset ∧ offset ≤ limit then K (.ok offset.toNat) { l with offset := offset.toNat }
        else ∀ e, K (.error e) l
    | .read _ nbytes, l, K =>
      l.holds ≠ none ∧ (∀ bs, bs.length ≤ nbytes → K (.ok bs) (l.advance bs)) ∧
        ∀ e, K (.error e) l
    | .write _ buf, l, K =>
      l.holds ≠ none ∧ (∀ n, n ≤ buf.length → K (.ok n) (l.advance (buf.take n))) ∧
        ∀ e, K (.error e) l
    | .wait _, l, K => K .returned l
    | _, l, K => ∀ r, K r l
  mono {e l K K'} h hr := by
    cases e with
    | acquire => exact ⟨hr.1, h _ _ hr.2.1, h _ _ hr.2.2⟩
    | release => exact ⟨hr.1, hr.2.1, h _ _ hr.2.2⟩
    | seekCur => exact ⟨hr.1, h _ _ hr.2.1, fun e => h _ _ (hr.2.2 e)⟩
    | seekSet _ offset =>
      refine ⟨hr.1, ?_⟩
      have hnext := hr.2
      split
      · rw [if_pos ‹_›] at hnext
        exact h _ _ hnext
      · rw [if_neg ‹_›] at hnext
        exact fun e => h _ _ (hnext e)
    | read | write => exact ⟨hr.1, fun a ha => h _ _ (hr.2.1 a ha), fun e => h _ _ (hr.2.2 e)⟩
    | wait => exact h _ _ hr
    | _ => exact fun r => h _ _ (hr r)

def Outcome (c : Call) : Except Stop Result → Local → Prop
  | .ok r, l => l.holds = none ∧ Transferred l.moved c r
  | .error .cancelled, l => l.holds = none
  | .error .fuel, _ => True

def Kept {α : Type} (m : OffsetMutex) (ok : α → Pieces → Prop) :
    Except Stop (Res α) → Local → Prop
  | .ok (.ok a), l => l.holds = some m ∧ ok a l.moved
  | .ok (.error _), l => l.holds = some m
  | .error .cancelled, _ => False
  | .error .fuel, _ => True

section
variable {limit : Nat}

def Still : Request → Prop
  | .acquire _ | .release _ | .seekCur _ | .seekSet .. | .read .. | .write .. | .wait _ => False
  | _ => True

theorem wp_still {p : Code α}
    (h : p.Only Still (· = .fuel)) (hok : ∀ a, Q (.ok a) l) (hfuel : Q (.error .fuel) l) :
    p.wp (rule limit home) l Q := by
  refine h.wp (fun e l' he hl => ?_) rfl ?_ ?_
  · subst hl
    cases e with
    | acquire | release | seekCur | seekSet | read | write | wait => cases he
    | _ => exact fun _ => rfl
  · rintro a _ rfl
    exact hok a
  · rintro _ _ rfl rfl
    exact hfuel

theorem wp_waitFd (hok : Q (.ok true) l) (hfuel : Q (.error .fuel) l) :
    (waitFd b site fd goal none).wp (rule limit home) l Q := by
  rw [waitFd, wp_bind]
  refine wp_still (only_eventFd trivial trivial fun _ _ => trivial) (fun ev => ?_) hfuel
  cases ev with
  | error => exact hok
  | ok => exact hok

theorem wp_enter {f : FdMode → Code (Res α)}
    (hl : l.holds = some m)
    (hf : ∀ fdmode, (f fdmode).wp (rule limit home) l (Kept m ok)) :
    (do
      if !(← pthUtilFdValid b fd) then return Res.error Errno.EBADF
      let fdmode ← pthFdmode fd mode
      if fdmode = .error then return Res.error Errno.EBADF
      f fdmode : Code (Res α)).wp (rule limit home) l (Kept m ok) := by
  refine wp_seq <| wp_still (only_fdValid trivial) (fun valid => ?_) trivial
  cases valid with
  | false => exact hl
  | true =>
    refine wp_seq <| wp_still (only_fdmode trivial fun _ => trivial) (fun fdmode => ?_) trivial
    rw [andThen_ok]
    split
    · exact hl
    · exact hf fdmode

/-! ### Reading -/

def ReadAt (nbytes : Nat) (offset : Int) (bs : Bytes) (moved : Pieces) : Prop :=
  Transferred moved (.pread nbytes offset) (.bytes (.ok bs))

variable {offset : Nat}

theorem wp_read (hl : l = ⟨some m, offset, []⟩) :
    (retry b (read fd nbytes)).wp (rule limit home) l (Kept m (ReadAt nbytes offset)) := by
  refine wp_retry (· = ⟨some m, offset, []⟩) hl (fun l hl => ?_) fun _ _ => trivial
  subst hl
  refine ⟨nofun, fun bs hbs => ⟨rfl, ⟨rfl, trivial⟩, hbs, ?_⟩, fun e => ?_⟩
  · simp [Local.advance, Pieces.bytes]
  · cases e with
    | _ => rfl

theorem wp_pthReadEv :
    (pthReadEv b fd nbytes none).wp (rule limit home) ⟨some m, offset, []⟩
      (Kept m (ReadAt nbytes offset)) := by
  unfold pthReadEv
  split
  · exact ⟨rfl, trivial, Nat.zero_le _, rfl⟩
  · refine wp_enter rfl fun fdmode => ?_
    split
    · refine wp_seq <| wp_still (only_retry (only_perform trivial) rfl) (fun n => ?_) trivial
      rw [andThen_ok]
      split
      · rfl
      · rfl
      · split
        · exact wp_seq <| wp_waitFd (wp_read rfl) trivial
        · exact wp_read rfl
    · exact wp_read rfl

/-! ### Writing -/

def WrittenAt (buf : Bytes) (offset : Int) (n : Nat) (moved : Pieces) : Prop :=
  Transferred moved (.pwrite buf offset) (.count (.ok n))

structure Written (m : OffsetMutex) (buf : Bytes) (offset : Nat) (n : Nat) (l : Local) : Prop where
  holds : l.holds = some m
  place : l.offset = offset + n
  pieces : WrittenAt buf offset n l.moved

theorem Written.advance (h : Written m buf offset n l) (hk : k ≤ (buf.drop n).length) :
    Written m buf offset (n + k) (l.advance ((buf.drop n).take k)) := by
  obtain ⟨hcont, hn, hbytes⟩ := h.pieces
  rw [List.length_drop] at hk
  have hlen : ((buf.drop n).take k).length = k := by
    rw [List.length_take, List.length_drop]
    omega
  refine ⟨h.holds, ?_, contiguous_append.mpr ⟨hcont, ?_⟩, by omega, ?_⟩
  · show l.offset + _ = _
    rw [h.place]
    omega
  · rw [hbytes, h.place, List.length_take]
    omega
  · rw [Local.advance, bytes_append, hbytes, List.take_add]

structure AtTurn (m : OffsetMutex) (buf : Bytes) (offset : Nat) (w : Writing Bytes) (l : Local) :
    Prop where
  written : Written m buf offset w.rv l
  rest : w.rest = buf.drop w.rv
  nbytes : w.nbytes = buf.length - w.rv

/-- The loop is left to the restore of the mode, and not by an interruption. -/
def LoopKept (m : OffsetMutex) (buf : Bytes) (offset : Nat) :
    Except Stop (LoopExit (Res Nat)) → Local → Prop
  | .ok (.done rv), l => Kept m (WrittenAt buf offset) (.ok rv) l
  | .ok (.left _), _ => False
  | .error .cancelled, _ => False
  | .error .fuel, _ => True

theorem wp_writeCall (h : AtTurn m buf offset w l) :
    (writeCall b (writeKind fd) w).wp (rule limit home) l
      (Post.turn (AtTurn m buf offset) (LoopKept m buf offset)) := by
  rw [writeCall, wp_bind]
  refine wp_retry (AtTurn m buf offset w) h (fun l h => ?_) fun _ _ => trivial
  refine ⟨by rw [h.written.holds]; nofun, fun n hn => ?_, fun e => ?_⟩
  · rw [h.rest] at hn ⊢
    have hnext := h.written.advance hn
    simp only [wp_ret, andThen_ok]
    split
    case isTrue hlt =>
      refine ⟨hnext, ?_, ?_⟩
      · simp [writeKind]
      · simp only [h.nbytes] at hlt ⊢
        omega
    case isFalse => exact ⟨hnext.holds, hnext.pieces⟩
  · have hdone : Kept m (WrittenAt buf offset) (.ok (if w.rv = 0 then .error e else .ok w.rv)) l := by
      split
      · exact h.written.holds
      · exact ⟨h.written.holds, h.written.pieces⟩
    cases e with
    | EINTR => exact h
    | _ => exact hdone

theorem wp_writeTurn (h : AtTurn m buf offset w l) :
    (writeTurn b (writeKind fd) fd fdmode none w).wp (rule limit home) l
      (Post.turn (AtTurn m buf offset) (LoopKept m buf offset)) := by
  unfold writeTurn
  split
  · exact wp_seq <| wp_waitFd (wp_writeCall h) trivial
  · exact wp_writeCall h

theorem wp_restore {ok : α → Pieces → Prop} (h : Kept m ok (.ok rv) l) :
    (do
      let _ ← pthFdmode fd fdmode
      return rv : Code (Res α)).wp (rule limit home) l (Kept m ok) := by
  exact wp_seq <| wp_still (only_fdmode trivial fun _ => trivial) (fun _ => h) trivial

theorem wp_writeOnce (h : Written m buf offset 0 l) :
    (writeOnce b fd fdmode (write fd buf)).wp (rule limit home) l (Kept m (WrittenAt buf offset)) := by
  rw [writeOnce, wp_bind]
  refine wp_retry (Written m buf offset 0) h (fun l h => ?_) fun _ _ => trivial
  refine ⟨by rw [h.holds]; nofun, fun n hn => wp_restore ?_, fun e => ?_⟩
  · have hnext := h.advance hn
    rw [Nat.zero_add] at hnext
    exact ⟨hnext.holds, hnext.pieces⟩
  · cases e with
    | EINTR => exact h
    | _ => exact wp_restore h.holds

theorem wp_pthWriteEv : (pthWriteEv b fd buf none).wp (rule limit home) ⟨some m, offset, []⟩
      (Kept m (WrittenAt buf offset)) := by
  have hnone : Written m buf offset 0 ⟨some m, offset, []⟩ :=
    ⟨rfl, rfl, trivial, Nat.zero_le _, rfl⟩
  unfold pthWriteEv
  split
  · exact ⟨rfl, hnone.pieces⟩
  · refine wp_enter rfl fun fdmode => ?_
    split
    · refine wp_seq <| wp_still (only_retry (only_perform trivial) rfl) (fun n => ?_) trivial
      rw [andThen_ok]
      split
      · rfl
      · rfl
      · rw [writeLoop, wp_bind]
        refine wp_iterate (AtTurn m buf offset) ⟨hnone, rfl, rfl⟩ (fun w l h => ?_) fun _ _ _ => trivial
        refine (wp_writeTurn h).mono fun r l hr => ?_
        match r with
        | .ok (.inl _) => exact hr
        | .error .cancelled => exact hr
        | .error .fuel => trivial
        | .ok (.inr (.left _)) => exact hr.elim
        | .ok (.inr (.done rv)) => exact wp_restore hr
    · exact wp_writeOnce hnone

/-! ### A call -/

theorem wp_atOffset (ok : α → Pieces → Prop)
    {offset : Int} (hhome : home ≤ limit)
    (ht : ∀ o : Nat, offset = o → transfer.wp (rule limit home) ⟨some m, o, []⟩ (Kept m ok))
    (hok : ∀ a l, l.holds = none → ok a l.moved → Q (.ok (.ok a)) l)
    (hfail : ∀ e l, l.holds = none → Q (.ok (.error e)) l)
    (hcancelled : ∀ l, l.holds = none → Q (.error .cancelled) l)
    (hfuel : ∀ l, Q (.error .fuel) l) :
    (atOffset m fd offset transfer).wp (rule limit home) ⟨none, o₀, []⟩ Q := by
  rw [atOffset, wp_bind]
  refine ⟨rfl, ?_, hcancelled _ rfl⟩
  refine wp_seq <| ⟨nofun, ?_, fun e => ⟨rfl, rfl, hfail _ _ rfl⟩⟩
  refine wp_seq <| ⟨nofun, ?_⟩
  split
  case isFalse => exact fun e => ⟨rfl, rfl, hfail _ _ rfl⟩
  case isTrue hoff =>
    refine wp_seq <| (ht offset.toNat (Int.toNat_of_nonneg hoff.1).symm).mono fun r l hr => ?_
    -- back to the old offset, whatever the result of the transfer
    have hback (rc : Res α) (hl : l.holds = some m)
        (hQ : Q (.ok rc) { l with holds := none, offset := home }) :
        (do
          let _ ← seekSet fd home
          release m
          return rc : Code (Res α)).wp (rule limit home) l Q := by
      refine wp_seq <| ⟨by rw [hl]; nofun, ?_⟩
      rw [if_pos ⟨Int.natCast_nonneg home, Int.ofNat_le.mpr hhome⟩]
      exact wp_seq <| ⟨hl, Int.toNat_natCast home, hQ⟩
    match r with
    | .error .cancelled => exact hr.elim
    | .error .fuel => exact hfuel l
    | .ok (.ok a) => exact hback _ hr.1 (hok a _ rfl hr.2)
    | .ok (.error e) => exact hback _ hr (hfail e _ rfl)

theorem Call.wp_code (c : Call) (hhome : home ≤ limit) :
    (c.code b fd).wp (rule limit home) ⟨none, 0, []⟩ (Outcome c) := by
  cases c with
  | pread nbytes offset =>
    rw [Call.code, wp_bind]
    refine wp_atOffset (ReadAt nbytes offset) hhome ?_
      (fun bs l hl hok => ⟨hl, hok⟩) (fun e l hl => ⟨hl, trivial⟩) (fun l hl => hl) fun _ => trivial
    rintro o rfl
    exact wp_pthReadEv
  | pwrite buf offset =>
    rw [Call.code, wp_bind]
    refine wp_atOffset (WrittenAt buf offset) hhome ?_
      (fun bs l hl hok => ⟨hl, hok⟩) (fun e l hl => ⟨hl, trivial⟩) (fun l hl => hl) fun _ => trivial
    rintro o rfl
    exact wp_pthWriteEv

end

/-! ### All threads -/

/-- At most one of the mutexes is locked, and the offset is `home` when none is. -/
structure Tidy (home : Nat) (x : File) : Prop where
  one : ∀ m m', x.owner m ≠ none → x.owner m' ≠ none → m = m'
  free : (∀ m, x.owner m = none) → x.offset = home

structure View (x : File) (t : Tid) (l : Local) : Prop where
  holds : ∀ m, x.owner m = some t ↔ l.holds = some m
  offset : l.holds ≠ none → l.offset = x.offset
  moved : l.moved = x.moved t

/-- Thread `t` does nothing to what another thread holds. -/
structure Apart (t : Tid) (x x' : File) : Prop where
  owner : ∀ m u, u ≠ t → (x'.owner m = some u ↔ x.owner m = some u)
  moved : ∀ u, u ≠ t → x'.moved u = x.moved u
  offset : (∀ m, x.owner m ≠ some t) → x'.offset = x.offset

section
variable {limit : Nat}

theorem Apart.refl : Apart t x x := ⟨fun _ _ _ => Iff.rfl, fun _ _ => rfl, fun _ => rfl⟩

theorem View.apart (h : View x u l) (hx : Tidy home x) (ha : Apart t x x') (hut : u ≠ t) :
    View x' u l := by
  refine ⟨fun m => (ha.owner m u hut).trans (h.holds m), fun hl => ?_, ?_⟩
  · obtain ⟨m, hm⟩ := Option.ne_none_iff_exists'.mp hl
    have hu : x.owner m = some u := (h.holds m).mpr hm
    rw [h.offset hl, ha.offset fun m' ht => hut ?_]
    have hmm : m = m' := hx.one m m' (by rw [hu]; nofun) (by rw [ht]; nofun)
    rw [← hmm, hu] at ht
    exact Option.some.inj ht
  · rw [h.moved, ha.moved u hut]

theorem View.owner_ne (h : View x t l) (hl : l.holds = none) (m : OffsetMutex) :
    x.owner m ≠ some t := fun ho => by
  rw [(h.holds m).mp ho] at hl
  cases hl

theorem View.exists_owner (h : View x t l) (hl : l.holds ≠ none) : ∃ m, x.owner m = some t := by
  obtain ⟨m, hm⟩ := Option.ne_none_iff_exists'.mp hl
  exact ⟨m, (h.holds m).mpr hm⟩

theorem View.move (h : View x t l) (hx : Tidy home x) (hl : l.holds ≠ none)
    (hholds : l'.holds = l.holds) (howner : x'.owner = x.owner)
    (hoff : l'.offset = x'.offset) (hmoved : l'.moved = x'.moved t)
    (hothers : ∀ u, u ≠ t → x'.moved u = x.moved u) :
    View x' t l' ∧ Tidy home x' ∧ Apart t x x' := by
  obtain ⟨m, hm⟩ := h.exists_owner hl
  refine ⟨⟨fun m => ?_, fun _ => hoff, hmoved⟩, ⟨?_, fun hfree => ?_⟩, ⟨?_, hothers, ?_⟩⟩
  · rw [howner, hholds]
    exact h.holds m
  · rw [howner]
    exact hx.one
  · rw [howner] at hfree
    cases (hfree m).symm.trans hm
  · rw [howner]
    exact fun _ _ _ => Iff.rfl
  · exact fun hno => absurd hm (hno m)

theorem View.advance (h : View x t l) (hx : Tidy home x) (hl : l.holds ≠ none) (bs : Bytes) :
    View (x.advance t bs) t (l.advance bs) ∧ Tidy home (x.advance t bs) ∧
      Apart t x (x.advance t bs) := by
  refine h.move hx hl rfl rfl ?_ ?_ fun u hut => update_of_ne hut ..
  · exact congrArg (· + bs.length) (h.offset hl)
  · simp [Local.advance, File.advance, h.offset hl, h.moved]

theorem View.lock (h : View x t l) (hx : Tidy home x) (hfree : ∀ m, x.owner m = none) :
    View (x.lock m t) t ⟨some m, home, l.moved⟩ ∧ Tidy home (x.lock m t) ∧
      Apart t x (x.lock m t) := by
  have howner (m' : OffsetMutex) : (x.lock m t).owner m' = if m' = m then some t else none := by
    simp [File.lock, Function.update_apply, hfree]
  refine ⟨⟨fun m' => ?_, fun _ => (hx.free hfree).symm, h.moved⟩, ⟨fun m₁ m₂ h₁ h₂ => ?_,
    fun hno => ?_⟩, ⟨fun m' u hut => ?_, fun _ _ => rfl, fun _ => rfl⟩⟩
  · rw [howner]
    simp [eq_comm]
  · rw [howner] at h₁ h₂
    simp only [ne_eq, ite_eq_right_iff, reduceCtorEq, imp_false, not_not] at h₁ h₂
    rw [h₁, h₂]
  · have := hno m
    rw [howner, if_pos rfl] at this
    cases this
  · rw [howner, hfree]
    simp [Ne.symm hut]

theorem View.release (h : View x t l) (hx : Tidy home x) (hl : l.holds = some m)
    (hoff : l.offset = home) :
    View { x with owner := update x.owner m none } t { l with holds := none } ∧
      Tidy home { x with owner := update x.owner m none } ∧
      Apart t x { x with owner := update x.owner m none } := by
  have hm : x.owner m = some t := (h.holds m).mpr hl
  have howner (m' : OffsetMutex) (o : Tid) (ho : update x.owner m none m' = some o) :
      m' ≠ m ∧ x.owner m' = some o := by
    by_cases he : m' = m
    · rw [he, update_self] at ho
      cases ho
    · exact ⟨he, by rwa [update_of_ne he] at ho⟩
  have hno (m' : OffsetMutex) (o : Tid) : update x.owner m none m' ≠ some o := fun ho => by
    obtain ⟨he, ho⟩ := howner m' o ho
    exact he (hx.one m' m (by rw [ho]; nofun) (by rw [hm]; nofun))
  have hnone (m' : OffsetMutex) : update x.owner m none m' = none :=
    Option.eq_none_iff_forall_ne_some.mpr (hno m')
  refine ⟨⟨fun m' => ⟨fun ho => absurd ho (hno m' t), nofun⟩, absurd rfl, h.moved⟩,
    ⟨fun m₁ _ h₁ => absurd (hnone m₁) h₁, fun _ => ?_⟩, ⟨fun m' u hut => ?_, fun _ _ => rfl,
      fun _ => rfl⟩⟩
  · exact (h.offset (by rw [hl]; nofun)).symm.trans hoff
  · refine ⟨fun ho => absurd ho (hno m' u), fun ho => ?_⟩
    have he : m' = m := hx.one m' m (by rw [ho]; nofun) (by rw [hm]; nofun)
    rw [he, hm] at ho
    exact absurd (Option.some.inj ho).symm hut

theorem View.answer (h : View x t l)
    (hx : Tidy home x) (hreq : (rule limit home).req e l K)
    (hfree : ∀ m, e = .acquire m → ∀ m', x.owner m' = none) (hwait : ∀ ev, e ≠ .wait ev)
    (ha : x.answer limit t e r x') :
    ∃ l', K r l' ∧ View x' t l' ∧ Tidy home x' ∧ Apart t x x' := by
  cases e with
  | acquire m =>
    obtain ⟨rfl, rfl⟩ := ha
    exact ⟨_, hreq.2.1, h.lock hx (hfree m rfl)⟩
  | release =>
    obtain rfl : x' = _ := ha
    exact ⟨_, hreq.2.2, h.release hx hreq.1 hreq.2.1⟩
  | seekCur =>
    obtain ⟨hr, rfl⟩ := ha
    obtain ⟨hl, hok, herror⟩ := hreq
    refine ⟨l, ?_, h, hx, .refl⟩
    rcases hr with rfl | ⟨e, rfl⟩
    · rw [← h.offset hl]
      exact hok
    · exact herror e
  | seekSet =>
    obtain ⟨hl, hnext⟩ := hreq
    simp only [File.answer] at ha
    split at ha
    · rw [if_pos ‹_›] at hnext
      obtain ⟨rfl, rfl⟩ := ha
      exact ⟨_, hnext, h.move hx hl rfl rfl rfl h.moved fun _ _ => rfl⟩
    · rw [if_neg ‹_›] at hnext
      obtain ⟨⟨e, rfl⟩, rfl⟩ := ha
      exact ⟨l, hnext e, h, hx, .refl⟩
  | read =>
    cases r with
    | ok bs =>
      obtain ⟨hlen, rfl⟩ := ha
      exact ⟨_, hreq.2.1 bs hlen, h.advance hx hreq.1 bs⟩
    | error e =>
      obtain rfl : x' = x := ha
      exact ⟨l, hreq.2.2 e, h, hx, .refl⟩
  | write =>
    cases r with
    | ok n =>
      obtain ⟨hlen, rfl⟩ := ha
      exact ⟨_, hreq.2.1 n hlen, h.advance hx hreq.1 _⟩
    | error e =>
      obtain rfl : x' = x := ha
      exact ⟨l, hreq.2.2 e, h, hx, .refl⟩
  | wait ev => exact absurd rfl (hwait ev)
  | _ =>
    obtain rfl : x' = x := ha
    exact ⟨l, hreq r, h, hx, .refl⟩

end

structure Safe (limit home : Nat) (s : Threads) : Prop where
  tidy : Tidy home s.shared
  thread : ∀ t c p, s.thread t = some (c, p) →
    ∃ l, View s.shared t l ∧ p.wp (rule limit home) l (Outcome c)
  owner : ∀ m t, s.shared.owner m = some t → s.thread t ≠ none

section
variable {s' : Threads}
  {p : Code Result}

theorem Safe.goOn (h : Safe limit home s)
    (hv : View x t l ∧ Tidy home x ∧ Apart t s.shared x)
    (hp : p.wp (rule limit home) l (Outcome c)) :
    Safe limit home
      { s with shared := x, thread := update s.thread t (some (c, p)), current } where
  tidy := hv.2.1
  thread u c' p' hu := by
    by_cases hut : u = t
    · subst hut
      simp only [update_self] at hu
      obtain ⟨rfl, rfl⟩ := hu
      exact ⟨l, hv.1, hp⟩
    · obtain ⟨l', hv', hp'⟩ := h.thread u c' p' (by simpa [hut] using hu)
      exact ⟨l', hv'.apart h.tidy hv.2.2 hut, hp'⟩
  owner m u hu := by
    by_cases hut : u = t
    · simp [hut]
    · have := h.owner m u ((hv.2.2.owner m u hut).mp hu)
      simpa [hut] using this

theorem Safe.done (h : Safe limit home s)
    (hno : ∀ m, s.shared.owner m ≠ some t) :
    Safe limit home { s with thread := update s.thread t none, current := none, finished } where
  tidy := h.tidy
  thread u c p hu := by
    by_cases hut : u = t
    · simp [hut] at hu
    · exact h.thread u c p (by simpa [hut] using hu)
  owner m u hu := by
    have hut : u ≠ t := by
      rintro rfl
      exact hno m hu
    simpa [hut] using h.owner m u hu

theorem Safe.step (h : Safe limit home s)
    (hhome : home ≤ limit) (ha : Alone s a) (hs : (threads b fd limit).Step s a s') :
    Safe limit home s' := by
  cases hs with
  | @start t c hc ht =>
    refine h.goOn (l := ⟨none, 0, []⟩) (x := { s.shared with moved := update s.shared.moved t [] })
      ⟨⟨fun m => ⟨fun ho => absurd ht (h.owner m t ho), nofun⟩, absurd rfl, ?_⟩,
        ⟨h.tidy.one, h.tidy.free⟩, ⟨fun _ _ _ => Iff.rfl, fun u hut => ?_, fun _ => rfl⟩⟩
      (c.wp_code hhome)
    · simp
    · exact update_of_ne hut ..
  | @run t c e k r x hc ht hy hx =>
    obtain ⟨l, hv, hp⟩ := h.thread t c _ ht
    obtain ⟨l', hk, hv'⟩ := hv.answer h.tidy hp
      (fun m he m' => by
        subst he
        by_cases hm : m' = m
        · exact hm ▸ not_not.mp hy
        · exact ha m' hm)
      (fun ev he => by subst he; exact hy trivial) hx
    exact h.goOn hv' hk
  | yield => exact ⟨h.tidy, h.thread, h.owner⟩
  | @resume t c e k r x hc ht hw =>
    obtain ⟨l, hv, hp⟩ := h.thread t c _ ht
    cases e with
    | wait =>
      obtain rfl : r = .returned := ha
      obtain rfl : x = s.shared := hw
      exact h.goOn ⟨hv, h.tidy, .refl⟩ hp
    | acquire m =>
      cases r with
      | acquired =>
        obtain ⟨hm, rfl⟩ := hw
        refine h.goOn (hv.lock h.tidy fun m' => ?_) hp.2.1
        by_cases he : m' = m
        · exact he ▸ hm
        · exact ha rfl m' he
      | cancelled =>
        obtain rfl : x = s.shared := hw
        exact h.goOn ⟨hv, h.tidy, .refl⟩ hp.2.2
      | failed => exact hw.elim
    | _ => exact hw.elim
  | @finish t c r hc ht =>
    obtain ⟨l, hv, hp⟩ := h.thread t c _ ht
    exact h.done (hv.owner_ne hp.1)
  | @unwind t c e hc ht he =>
    obtain rfl : e = .cancelled := he
    obtain ⟨l, hv, hp⟩ := h.thread t c _ ht
    have hno := hv.owner_ne hp
    have hsame : (threads b fd limit).unwind t s.shared = s.shared := by
      simp [threads, hno]
    rw [hsame]
    exact h.done hno
  | env hx => exact hx.elim

theorem safe_of_reachable (h : Reachable ((system b fd limit home).restrict Alone) s) :
    home ≤ limit ∧ Safe limit home s := by
  refine h.invariant (I := fun s => home ≤ limit ∧ Safe limit home s) ?_ ?_
  · rintro s ⟨x, ⟨hoff, hhome, hfree⟩, rfl⟩
    refine ⟨hhome, ⟨fun m _ hm => absurd (hfree m) hm, fun _ => hoff⟩, nofun, fun m t ht => ?_⟩
    cases (hfree m).symm.trans ht
  · rintro s a s' ⟨hhome, h⟩ ⟨ha, hs⟩
    exact ⟨hhome, h.step hhome ha hs⟩

/-- In every such run a call that returns successfully has transferred what it says
at its own offset, and the file offset is the old one when no call is in progress. -/
theorem offset_kept (h : Reachable ((system b fd limit home).restrict Alone) s) :
    (∀ t c r, s.thread t = some (c, .ret r) → Transferred (s.shared.moved t) c r) ∧
      ((∀ t, s.thread t = none) → s.shared.offset = home) := by
  obtain ⟨-, hsafe⟩ := safe_of_reachable h
  refine ⟨fun t c r ht => ?_, fun hnone => hsafe.tidy.free fun m => ?_⟩
  · obtain ⟨l, hv, hp⟩ := hsafe.thread t c _ ht
    rw [← hv.moved]
    exact hp.2
  · cases hm : s.shared.owner m with
    | none => rfl
    | some t => exact absurd (hnone t) (hsafe.owner m t hm)

end

/-! ### Runs -/

def File.reply (ready : Nat) (t : Tid) (x : File) : (e : Request) → Answer e × File
  | .acquire m => (.acquired, x.lock m t)
  | .release m => ((), { x with owner := update x.owner m none })
  | .seekCur _ => (.ok x.offset, x)
  | .seekSet _ offset =>
    if 0 ≤ offset ∧ offset ≤ 1000 then (.ok offset.toNat, { x with offset := offset.toNat })
    else (.error .EINVAL, x)
  | .poll .. => (.ok ready, x)
  | .getfl _ => (some false, x)
  | .read _ 0 => (.ok [], x.advance t [])
  | .read _ (_ + 1) => (.ok [0], x.advance t [0])
  | .write _ buf => (.ok (min 1 buf.length), x.advance t (buf.take (min 1 buf.length)))
  | e => (bleak.pick oneOpen e, x)

theorem File.reply_answer (ready : Nat) (t : Tid) (x : File) (e : Request) :
    x.answer 1000 t e (x.reply ready t e).1 (x.reply ready t e).2 := by
  cases e with
  | acquire => exact ⟨rfl, rfl⟩
  | seekCur => exact ⟨.inl rfl, rfl⟩
  | seekSet _ offset =>
    have hlimit : (offset ≤ ((1000 : Nat) : Int)) = (offset ≤ 1000) := rfl
    simp only [File.answer, File.reply, hlimit]
    split
    · exact ⟨rfl, rfl⟩
    · exact ⟨⟨_, rfl⟩, rfl⟩
  | read _ nbytes =>
    cases nbytes with
    | zero => exact ⟨Nat.le_refl _, rfl⟩
    | succ n => exact ⟨Nat.le_add_left 1 n, rfl⟩
  | write => exact ⟨Nat.min_le_right _ _, rfl⟩
  | _ => rfl

variable {t : Tid}

theorem reachable_play {p : Code Result} (stop : File → Request → Bool)
    (ready : Nat) (h : Reachable ((system pollBuild 3 1000 home).restrict P) s)
    (hstop : ∀ x e, stop x e = false → ¬(threads pollBuild 3 1000).yields t x e)
    (hP : ∀ s e r, stop s.shared e = false → P s (.run t e r)) (hc : s.current = some t)
    (ht : s.thread t = some (c, p)) (n : Nat) :
    Reachable ((system pollBuild 3 1000 home).restrict P)
      { s with
        shared := (p.play stop (File.reply ready t) n s.shared).2
        thread :=
          update s.thread t (some (c, (p.play stop (File.reply ready t) n s.shared).1)) } := by
  refine reachable_leads (A := fun x e _ => stop x e = false) h hP hc ht
    (leads_play (fun x e he => ?_) n p s.shared)
  exact ⟨he, hstop x e he, x.reply_answer ready t e⟩

/-- Stop where the thread gives up control, and at a mutex also when the other one
is locked. -/
def atLock (x : File) : Request → Bool
  | .wait _ => true
  | .acquire _ => (x.owner .pread).isSome || (x.owner .pwrite).isSome
  | _ => false

theorem atLock_yields (h : atLock x e = false) :
    ¬(threads pollBuild 3 1000).yields t x e ∧ ∀ m, e = .acquire m → ∀ m', x.owner m' = none := by
  cases e with
  | wait => cases h
  | acquire m =>
    simp only [atLock, Bool.or_eq_false_iff, Option.isSome_eq_false_iff, Option.isNone_iff_eq_none]
      at h
    have hfree (m' : OffsetMutex) : x.owner m' = none := by
      cases m' with
      | pread => exact h.1
      | pwrite => exact h.2
    exact ⟨not_not.mpr (hfree m), fun _ _ => hfree⟩
  | _ => exact ⟨id, nofun⟩

theorem alone_run (h : atLock s.shared e = false) : Alone s (.run t e r) := by
  cases e with
  | acquire m => exact fun m' _ => (atLock_yields (t := t) h).2 m rfl m'
  | _ => trivial

def fresh : File := ⟨7, fun _ => none, fun _ => []⟩

theorem offset_kept_twoBytes :
    ∃ s, Reachable ((system pollBuild 3 1000 7).restrict Alone) s ∧
      s.thread 1 = some (.pwrite [0, 0] 200, .ret (.count (.ok 2))) ∧
      Transferred (s.shared.moved 1) (.pwrite [0, 0] 200) (.count (.ok 2)) := by
  have h₀ : Reachable ((system pollBuild 3 1000 7).restrict Alone) (.init fresh) :=
    .init ⟨fresh, ⟨rfl, by decide, fun _ => rfl⟩, rfl⟩
  have h₁ := Reachable.step h₀ (a := Move.start 1 (Call.pwrite [0, 0] 200))
    ⟨trivial, .start rfl rfl⟩
  have h₂ := reachable_play atLock 1 h₁ (fun _ _ h => (atLock_yields h).1)
    (fun _ _ _ h => alone_run h) rfl rfl 20
  have h₃ := Reachable.step h₂ (a := Move.yield 1) ⟨trivial, .yield rfl rfl trivial⟩
  have h₄ := Reachable.step h₃ (a := Move.resume (R := Answer) 1 (.wait (.static .write)) .returned)
    ⟨rfl, .resume rfl rfl rfl⟩
  have h₅ := reachable_play atLock 1 h₄ (fun _ _ h => (atLock_yields h).1)
    (fun _ _ _ h => alone_run h) rfl rfl 20
  exact ⟨_, h₅, rfl, (offset_kept h₅).1 1 _ _ rfl⟩

def atYield (x : File) : Request → Bool
  | .wait _ => true
  | .acquire m => (x.owner m).isSome
  | _ => false

theorem atYield_yields (h : atYield x e = false) :
    ¬(threads pollBuild 3 1000).yields t x e := by
  cases e with
  | wait => cases h
  | acquire =>
    refine not_not.mpr (Option.isNone_iff_eq_none.mp ?_)
    exact Option.isSome_eq_false_iff.mp h
  | _ => exact id

/-- A read at offset 100 takes place at offset 200, where a write has gone in the
meantime; a write that is cancelled leaves the file offset behind what it has written. -/
theorem offset_lost : (∃ s, Reachable (system pollBuild 3 1000 7) s ∧
      s.thread 1 = some (.pread 1 100, .ret (.bytes (.ok [0]))) ∧
      s.shared.moved 1 = [(200, [0])]) ∧
    ∃ s, Reachable (system pollBuild 3 1000 7) s ∧
      (∀ t, s.thread t = none) ∧ s.finished = [(1, .pwrite [0, 0] 200, .error .cancelled)] ∧
      s.shared.offset = 201 := by
  have h₀ : Reachable ((system pollBuild 3 1000 7).restrict fun _ _ => True) (.init fresh) :=
    .init ⟨fresh, ⟨rfl, by decide, fun _ => rfl⟩, rfl⟩
  constructor
  · have h₁ := Reachable.step h₀ (a := Move.start 1 (Call.pread 1 100)) ⟨trivial, .start rfl rfl⟩
    have h₂ := reachable_play atYield 0 h₁ (fun _ _ => atYield_yields) (fun _ _ _ _ => trivial)
      rfl rfl 20
    have h₃ := Reachable.step h₂ ⟨trivial, .yield rfl rfl trivial⟩
    have h₄ := Reachable.step h₃ (a := Move.start 2 (Call.pwrite [0] 200))
      ⟨trivial, .start rfl rfl⟩
    have h₅ := reachable_play atYield 0 h₄ (fun _ _ => atYield_yields) (fun _ _ _ _ => trivial)
      rfl rfl 20
    have h₆ := Reachable.step h₅ ⟨trivial, .yield rfl rfl trivial⟩
    have h₇ := Reachable.step h₆ (a := Move.resume (R := Answer) 1 (.wait (.static .read)) .returned)
      ⟨trivial, .resume rfl rfl rfl⟩
    have h₈ := reachable_play atYield 0 h₇ (fun _ _ => atYield_yields) (fun _ _ _ _ => trivial)
      rfl rfl 20
    exact ⟨_, h₈.of_restrict, rfl, rfl⟩
  · have h₁ := Reachable.step h₀ (a := Move.start 1 (Call.pwrite [0, 0] 200))
      ⟨trivial, .start rfl rfl⟩
    have h₂ := reachable_play atYield 1 h₁ (fun _ _ => atYield_yields) (fun _ _ _ _ => trivial)
      rfl rfl 20
    have h₃ := Reachable.step h₂ ⟨trivial, .yield rfl rfl trivial⟩
    have h₄ := Reachable.step h₃ (a := Move.resume (R := Answer) 1 (.wait (.static .write)) .cancelled)
      ⟨trivial, .resume rfl rfl rfl⟩
    have h₅ := Reachable.step h₄ ⟨trivial, .unwind rfl rfl rfl⟩
    refine ⟨_, h₅.of_restrict, fun t => ?_, rfl, rfl⟩
    by_cases ht : t = 1 <;> simp [Pool.init]

end Offset

end Io

end GnuPth
