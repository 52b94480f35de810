import Mathlib.Algebra.Order.Ring.Int
import Mathlib.Data.List.SplitLengths

/-!
# Vector I/O by one block

`pth_readv_faked` and `pth_writev_faked`, which copy between the caller's
buffers and a block from `malloc`. A byte of the block that was not written yet
is `none`. Pointers into the block are offsets from its start.
-/

namespace GnuPth.Io.Faked

variable {β : Type} {iov : List (List β)}

inductive Errno
  | EINVAL
  | ENOMEM
  deriving DecidableEq, Repr

-- `size_t` and `ssize_t`
def toSize (n : Int) : Nat := (n % 2 ^ 64).toNat

def toSsize (n : Nat) : Int := if n < 2 ^ 63 then n else n - 2 ^ 64

theorem toSsize_toSize (hlo : -2 ^ 63 ≤ r) (hhi : r < 2 ^ 63) : toSsize (toSize r) = r := by
  unfold toSsize toSize
  split <;> omega

/-- The first loop: the number of bytes, or `EINVAL` for an empty buffer. -/
def sizeLoop : List (List β) → Nat → Except Errno Nat
  | [], bytes => .ok bytes
  | v :: iov, bytes => if v.length ≤ 0 then .error .EINVAL else sizeLoop iov ((bytes + v.length) % 2 ^ 64)

/-- What both calls begin with. -/
def allocate (malloc : Bool) (iov : List (List β)) : Except Errno Nat :=
  match sizeLoop iov 0 with
  | .error e => .error e
  | .ok bytes => if bytes ≤ 0 then .error .EINVAL else if malloc then .ok bytes else .error .ENOMEM

def total (iov : List (List β)) : Nat := iov.flatten.length

theorem total_pos (hne : iov ≠ []) (hpos : ∀ v ∈ iov, v ≠ []) : 0 < total iov := by
  obtain ⟨v, hv⟩ := List.exists_mem_of_ne_nil iov hne
  exact List.length_pos_iff.mpr fun h => hpos v hv (List.flatten_eq_nil_iff.mp h v hv)

theorem sizeLoop_eq (hpos : ∀ v ∈ iov, v ≠ []) (hn : n < 2 ^ 64) :
    sizeLoop iov n = .ok ((n + total iov) % 2 ^ 64) := by
  induction iov generalizing n with
  | nil => rw [sizeLoop, total, List.flatten_nil, List.length_nil, Nat.add_zero, Nat.mod_eq_of_lt hn]
  | cons v iov ih =>
    have hv : ¬v.length ≤ 0 := by simpa using hpos v List.mem_cons_self
    rw [sizeLoop, if_neg hv, ih (fun w hw => hpos w (List.mem_cons_of_mem _ hw)) (Nat.mod_lt _ (by decide))]
    simp [total, Nat.add_assoc]

theorem allocate_eq (hpos : ∀ v ∈ iov, v ≠ []) : allocate true iov =
    if total iov % 2 ^ 64 ≤ 0 then .error .EINVAL else .ok (total iov % 2 ^ 64) := by
  rw [allocate, sizeLoop_eq hpos (by decide), Nat.zero_add]
  rfl

/-! ### Writing -/

def memcpy (dst : List (Option β)) (d : Nat) (src : List β) : List (Option β) :=
  dst.take d ++ src.map some ++ dst.drop (d + src.length)

def gatherLoop (cp : Nat) : List (List β) → Nat → List (Option β) → List (Option β)
  | [], _, block => block
  | v :: iov, toCopy, block =>
    let copy := min v.length toCopy
    let block := memcpy block cp (v.take copy)
    let toCopy := toCopy - copy
    if toCopy ≤ 0 then block else gatherLoop cp iov toCopy block

structure Written (β : Type) where
  -- what is passed to `write`, when it is called
  block : Option (List (Option β))
  result : Int
  errno : Option Errno

def writevFaked (iov : List (List β)) (malloc : Bool) (write : List (Option β) → Int) : Written β :=
  match allocate malloc iov with
  | .error e => ⟨none, -1, some e⟩
  | .ok bytes =>
    let block := gatherLoop 0 iov bytes (List.replicate bytes none)
    ⟨some block, toSsize (toSize (write block)), none⟩

theorem gatherLoop_length (hn : n ≤ b.length) : (gatherLoop 0 iov n b).length = b.length := by
  induction iov generalizing n b with
  | nil => rfl
  | cons v iov ih =>
    have hlen : (memcpy b 0 (v.take (min v.length n))).length = b.length := by
      simp only [memcpy, List.length_append, List.length_map,
        List.length_take, List.length_drop]
      omega
    simp only [gatherLoop]
    split
    · exact hlen
    · exact (ih (by omega)).trans hlen

/-- All copies go to the start of the block. -/
theorem gatherLoop_frame (hi : ∀ v ∈ iov, v.length ≤ i) : (gatherLoop 0 iov n b)[i]? = b[i]? := by
  induction iov generalizing n b with
  | nil => rfl
  | cons v iov ih =>
    have hv := hi v List.mem_cons_self
    have hcell : (memcpy b 0 (v.take (min v.length n)))[i]? = b[i]? := by
      simp only [memcpy, List.take_zero, List.nil_append]
      rw [List.getElem?_append_right (by simp; omega), List.getElem?_drop]
      congr 1
      simp only [List.length_map, List.length_take]
      omega
    simp only [gatherLoop]
    split
    · exact hcell
    · exact (ih fun w hw => hi w (List.mem_cons_of_mem _ hw)).trans hcell

/-- With two buffers no copy reaches the last byte of the block. -/
theorem gatherLoop_last (hpos : ∀ v ∈ iov, v ≠ []) (h2 : 2 ≤ iov.length) :
    (gatherLoop 0 iov n b)[total iov - 1]? = b[total iov - 1]? := by
  refine gatherLoop_frame fun v hv => ?_
  obtain ⟨l₁, l₂, rfl⟩ := List.append_of_mem hv
  have hne : l₁ ++ l₂ ≠ [] := by
    rintro h
    obtain ⟨rfl, rfl⟩ := List.append_eq_nil_iff.mp h
    simp at h2
  have hrest := total_pos hne fun w hw => hpos w (by simpa using (List.mem_append.mp hw).imp_right .inr)
  simp only [total, List.flatten_append, List.flatten_cons, List.length_append] at hrest ⊢
  omega

/-- The block is the concatenation of the buffers only if there is one buffer. The
result is that of `write`. -/
theorem writev_faked_iff {write : List (Option β) → Int} (hne : iov ≠ []) (hpos : ∀ v ∈ iov, v ≠ [])
    (hlen : ∀ v ∈ iov, v.length < 2 ^ 64)
    (hw : ∀ block, -2 ^ 63 ≤ write block ∧ write block < 2 ^ 63) :
    ((writevFaked iov true write).block = some (iov.flatten.map some) ↔ iov.length = 1) ∧
      ∀ block, (writevFaked iov true write).block = some block →
        (writevFaked iov true write).result = write block := by
  have h0 := total_pos hne hpos
  have hone : iov.length = 1 → total iov < 2 ^ 64 := fun h1 => by
    obtain ⟨v, rfl⟩ := List.length_eq_one_iff.mp h1
    simpa only [total, List.flatten_singleton] using hlen v List.mem_cons_self
  unfold writevFaked
  rw [allocate_eq hpos]
  split
  case h_1 e he =>
    refine ⟨⟨nofun, fun h1 => ?_⟩, nofun⟩
    rw [if_neg (by omega)] at he
    cases he
  case h_2 bytes hb =>
    split at hb <;> cases hb
    refine ⟨⟨fun heq => ?_, fun h1 => ?_⟩, fun block hblock => ?_⟩
    · have heq := Option.some.inj heq
      have hsize : total iov % 2 ^ 64 = total iov := by
        have hle := congrArg List.length heq
        rwa [gatherLoop_length (Nat.le_of_eq List.length_replicate.symm), List.length_replicate,
          List.length_map] at hle
      rw [hsize] at heq
      by_contra h1
      have h2 : 2 ≤ iov.length := by
        have := List.length_pos_iff.mpr hne
        omega
      have hlast := gatherLoop_last (n := total iov) (b := List.replicate (total iov) none) hpos h2
      rw [heq, List.getElem?_map, List.getElem?_replicate, if_pos (by omega),
        List.getElem?_eq_getElem (show _ < iov.flatten.length by rw [← total]; omega)] at hlast
      cases hlast
    · rw [Nat.mod_eq_of_lt (hone h1)]
      obtain ⟨v, rfl⟩ := List.length_eq_one_iff.mp h1
      simp [gatherLoop, memcpy, total]
    · cases hblock
      exact toSsize_toSize (hw _).1 (hw _).2

theorem writev_faked_single :
    (writevFaked [[7, 8]] true (fun _ => -1)).block = some [some 7, some 8] ∧
      (writevFaked [[7, 8]] true (fun _ => -1)).result = -1 :=
  have h := @writev_faked_iff Nat [[7, 8]] (fun _ => -1) (by simp) (by simp) (by simp) (by simp)
  ⟨h.1.mpr rfl, h.2 _ (h.1.mpr rfl)⟩

/-- The second buffer overwrites the first one, and the end is not written. -/
theorem writev_faked_overwrites :
    (writevFaked [[1, 2], [3]] true (fun _ => 3)).block = some [some 3, some 2, none] := by decide

/-! ### Reading -/

/-- What `read` does: it fills the start of the block, or fails. -/
inductive Read (β : Type)
  | got (data : List β)
  | failed

def Read.block (bytes : Nat) : Read β → List (Option β)
  | .got data => data.map some ++ List.replicate (bytes - data.length) none
  | .failed => List.replicate bytes none

def Read.value : Read β → Int
  | .got data => data.length
  | .failed => -1

/-- The contents of the buffers behind the loop, and where `buffer` points then. -/
def scatterLoop (block : List (Option β)) : List (List β) → Nat → Nat → List (List (Option β)) × Nat
  | [], buffer, _ => ([], buffer)
  | v :: iov, buffer, bytes =>
    let copy := min v.length bytes
    let v' := (block.drop buffer).take copy ++ (v.drop copy).map some
    let buffer := buffer + copy
    let bytes := bytes - copy
    if bytes ≤ 0 then (v' :: iov.map (·.map some), buffer)
    else
      let (iov', buffer) := scatterLoop block iov buffer bytes
      (v' :: iov', buffer)

structure Scattered (β : Type) where
  buffers : List (List (Option β))
  result : Int
  errno : Option Errno
  -- the pointer that is passed to `free`
  freed : Option Nat

/-- `rv` is a `size_t`, so it is positive when `read` fails. -/
def readvFaked (iov : List (List β)) (malloc : Bool) (read : Read β) : Scattered β :=
  match allocate malloc iov with
  | .error e => ⟨iov.map (·.map some), -1, some e, none⟩
  | .ok bytes =>
    let rv := toSize read.value
    let (buffers, buffer) :=
      if rv > 0 then scatterLoop (read.block bytes) iov 0 rv else (iov.map (·.map some), 0)
    ⟨buffers, toSsize rv, none, some buffer⟩

/-- The buffers with the concatenated contents `all`. -/
def divide (iov : List (List β)) (all : List (Option β)) : List (List (Option β)) :=
  (iov.map List.length).splitLengths all

theorem divide_cons (hx : x.length = v.length) :
    divide (v :: iov) (x ++ y) = x :: divide iov y := by
  simp [divide, ← hx]

theorem divide_self : divide iov (iov.flatten.map some) = iov.map (·.map some) := by
  induction iov with
  | nil => rfl
  | cons v iov ih =>
    rw [List.flatten_cons, List.map_append, divide_cons (List.length_map _), ih, List.map_cons]

theorem scatterLoop_eq (hn : p + min n (total iov) ≤ b.length) :
    scatterLoop b iov p n =
      (divide iov ((b.drop p).take (min n (total iov)) ++ (iov.flatten.drop (min n (total iov))).map some),
        p + min n (total iov)) := by
  induction iov generalizing p n with
  | nil => simp [scatterLoop, total, divide]
  | cons v iov ih =>
    have htot : total (v :: iov) = v.length + total iov := by simp [total]
    rw [htot] at hn
    rw [htot, List.flatten_cons]
    simp only [scatterLoop]
    split
    case isTrue hle =>
      have hmin : min n (v.length + total iov) = n ∧ min v.length n = n := by omega
      rw [hmin.1, hmin.2, List.drop_append_of_le_length (by omega), List.map_append, ← List.append_assoc,
        divide_cons (by simp; omega), divide_self]
    case isFalse hlt =>
      have hmin : min n (v.length + total iov) = v.length + min (n - v.length) (total iov) ∧
        min v.length n = v.length := by omega
      rw [hmin.1, hmin.2, ih (by omega), List.take_add, List.append_assoc,
        divide_cons (by simp; omega)]
      simp [Nat.add_assoc]

theorem scattered_eq (hn : min n (total iov) ≤ b.length) :
    (if n > 0 then scatterLoop b iov 0 n else (iov.map (·.map some), 0)) =
      (divide iov (b.take (min n (total iov)) ++ (iov.flatten.drop (min n (total iov))).map some),
        min n (total iov)) := by
  split
  case isTrue =>
    rw [scatterLoop_eq (by omega), List.drop_zero, Nat.zero_add]
  case isFalse h =>
    obtain rfl : n = 0 := by omega
    rw [Nat.zero_min, List.take_zero, List.nil_append, List.drop_zero, divide_self]

/-- The bytes read are scattered in order, and `free` gets the pointer behind them.
When `read` fails all buffers get what is in the block. -/
theorem readv_faked_scatters (hne : iov ≠ []) (hpos : ∀ v ∈ iov, v ≠ [])
    (hlen : total iov < 2 ^ 64) :
    (∀ data : List β, data.length ≤ total iov → data.length < 2 ^ 63 →
      readvFaked iov true (.got data) = ⟨divide iov ((data ++ iov.flatten.drop data.length).map some),
        data.length, none, some data.length⟩) ∧
    readvFaked iov true .failed =
      ⟨divide iov (List.replicate (total iov) none), -1, none, some (total iov)⟩ := by
  have h0 := total_pos hne hpos
  unfold readvFaked
  rw [allocate_eq hpos, Nat.mod_eq_of_lt hlen, if_neg (by omega)]
  refine ⟨fun data hle hlt => ?_, ?_⟩
  · have hrv : toSize (Read.got data).value = data.length := by
      simp only [Read.value, toSize]
      omega
    dsimp only
    rw [scattered_eq (by simp [Read.block, hrv]), hrv, Nat.min_eq_left hle, toSsize, if_pos hlt]
    simp [Read.block]
  · have hrv : toSize (Read.failed : Read β).value = 2 ^ 64 - 1 := rfl
    have hnil : iov.flatten.drop (total iov) = [] := List.drop_length
    dsimp only
    rw [scattered_eq (by simp [Read.block]), hrv, Nat.min_eq_right (by omega), hnil]
    simp [Read.block, toSsize]

theorem readv_faked_scatters_two : (readvFaked [[1, 2], [3, 4]] true (.got [5, 6, 7])).buffers =
    [[some 5, some 6], [some 7, some 4]] :=
  have h := @readv_faked_scatters Nat [[1, 2], [3, 4]] (by simp) (by simp) (by simp [total])
  congrArg Scattered.buffers (h.1 [5, 6, 7] (by simp [total]) (by simp))

/-- `read` fails, and both buffers are overwritten; `read` fills them, and `free` gets a
pointer to the end of the block. -/
theorem readv_faked_diverges :
    (readvFaked [[1, 2], [3]] true .failed).buffers = [[none, none], [none]] ∧
      (readvFaked [[1, 2], [3]] true (.got [4, 5, 6])).freed = some 3 := by decide

end GnuPth.Io.Faked
