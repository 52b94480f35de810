import GnuPth.Io.Code
import Mathlib.Logic.Function.Basic

/-!
# The temporary vector of `pth_writev_ev`

`pth_writev_iov_advance` at the level of pointers: `liov` is first the caller's
vector and then, from the first partial write on, a place in the copy `tiov`. The
vector that is left is that of `iovAdvance`. `touched` says which elements of
`tiov` were read or written.
-/

namespace GnuPth

namespace Io

namespace Tiov

open Function (update update_self update_of_ne)
open Program

inductive Arr
  | riov
  | tiov
  deriving DecidableEq, Repr

@[ext] structure Ptr where
  arr : Arr
  index : Nat
  deriving DecidableEq, Repr

def Ptr.next (p : Ptr) : Ptr := { p with index := p.index + 1 }

structure Vecs where
  -- the data from `iov_base` on, `iov_len` bytes
  elem : Ptr → Bytes
  liov : Option Ptr
  liovcnt : Nat
  -- history variable
  touched : List Nat

def Vecs.touch (v : Vecs) (p : Ptr) : Vecs :=
  match p.arr with
  | .riov => v
  | .tiov => { v with touched := v.touched ++ [p.index] }

/-- "reinitialize with a copy to be able to adjust it" -/
def copyTiov : Nat → Vecs → Vecs
  | 0, v => v
  | i + 1, v =>
    let v := copyTiov i v
    { v.touch ⟨.tiov, i⟩ with elem := update v.elem ⟨.tiov, i⟩ (v.elem ⟨.riov, i⟩) }

/-- "advance the virtual pointer", with `liovcnt`, `advance` and `liov` as they are
in the loop. -/
def advanceWhile : Nat → Nat → Ptr → Vecs → Vecs
  | 0, _, p, v => { v with liov := some p, liovcnt := 0 }
  | cnt + 1, 0, p, v => { v with liov := some p, liovcnt := cnt + 1 }
  | cnt + 1, n + 1, p, v =>
    if n + 1 < (v.elem p).length then
      { v.touch p with
        elem := update v.elem p ((v.elem p).drop (n + 1))
        liov := some p
        liovcnt := cnt + 1 }
    else advanceWhile cnt (n + 1 - (v.elem p).length) p.next (v.touch p)

/-- "initialize with real (const) structure on first step" -/
def initLiov (riovcnt : Nat) (v : Vecs) : Vecs :=
  if v.liov = none ∧ v.liovcnt = 0 then { v with liov := some ⟨.riov, 0⟩, liovcnt := riovcnt } else v

/-- The copy is made when `liov` is still the caller's vector. -/
def initTiov (riovcnt : Nat) (v : Vecs) : Vecs :=
  if v.liov = some ⟨.riov, 0⟩ ∧ v.liovcnt = riovcnt then
    copyTiov riovcnt { v with liov := some ⟨.tiov, 0⟩ }
  else v

def pthWritevIovAdvance (riovcnt advance : Nat) (v : Vecs) : Vecs :=
  let v := initLiov riovcnt v
  if 0 < advance then
    let v := initTiov riovcnt v
    match v.liov with
    | some p => advanceWhile v.liovcnt advance p v
    | none => v
  else v

def slice (elem : Ptr → Bytes) : Ptr → Nat → List Bytes
  | _, 0 => []
  | p, cnt + 1 => elem p :: slice elem p.next cnt

def Vecs.view (v : Vecs) : List Bytes :=
  match v.liov with
  | some p => slice v.elem p v.liovcnt
  | none => []

/-- The number of elements of the array that is chosen for `tiov`. -/
def tiovCapacity (iovcnt : Nat) : Nat :=
  if sizeofTiovStack < iovcnt then uioMaxiov else 32

def memory (iov : List Bytes) (tiov : Nat → Bytes) : Ptr → Bytes
  | ⟨.riov, i⟩ => iov.getD i []
  | ⟨.tiov, i⟩ => tiov i

/-- "init local iovec structure" -/
def localIov (iov : List Bytes) (tiov : Nat → Bytes) : Vecs :=
  pthWritevIovAdvance iov.length 0 ⟨memory iov tiov, none, 0, []⟩

/-- After partial writes of so many bytes each. -/
def partialWrites (iov : List Bytes) (tiov : Nat → Bytes) (ss : List Nat) : Vecs :=
  ss.foldl (fun v s => pthWritevIovAdvance iov.length s v) (localIov iov tiov)

/-! ### Where `liov` is -/

/-- `liov` is the caller's vector, or what is left of the copy. -/
inductive Placed (n : Nat) : Option Ptr → Nat → Prop
  | riov : Placed n (some ⟨.riov, 0⟩) n
  | tiov {i cnt : Nat} (h : i + cnt = n) : Placed n (some ⟨.tiov, i⟩) cnt

/-- `n` is `riovcnt`. -/
structure Within (n : Nat) (v : Vecs) : Prop where
  placed : Placed n v.liov v.liovcnt
  touched : ∀ i ∈ v.touched, i < n

section
variable {v : Vecs}

@[simp] theorem touch_elem : (v.touch p).elem = v.elem := by
  unfold Vecs.touch
  split <;> rfl

@[simp] theorem touch_liov : (v.touch p).liov = v.liov := by
  unfold Vecs.touch
  split <;> rfl

@[simp] theorem touch_liovcnt : (v.touch p).liovcnt = v.liovcnt := by
  unfold Vecs.touch
  split <;> rfl

theorem touched_touch (h : ∀ j ∈ v.touched, j < n) (hi : i < n) :
    ∀ j ∈ (v.touch ⟨.tiov, i⟩).touched, j < n := by
  intro j hj
  rcases List.mem_append.mp hj with hj | hj
  · exact h j hj
  · exact List.mem_singleton.mp hj ▸ hi

@[simp] theorem copyTiov_liov : (copyTiov i v).liov = v.liov := by
  induction i with
  | zero => rfl
  | succ i ih => simpa [copyTiov] using ih

@[simp] theorem copyTiov_liovcnt : (copyTiov i v).liovcnt = v.liovcnt := by
  induction i with
  | zero => rfl
  | succ i ih => simpa [copyTiov] using ih

theorem copyTiov_touched (h : ∀ j ∈ v.touched, j < n) (hi : i ≤ n) :
    ∀ j ∈ (copyTiov i v).touched, j < n := by
  induction i with
  | zero => exact h
  | succ i ih => exact touched_touch (ih (Nat.le_of_succ_le hi)) hi

theorem advanceWhile_within (hp : i + cnt = n) (h : ∀ j ∈ v.touched, j < n) :
    Within n (advanceWhile cnt s ⟨.tiov, i⟩ v) := by
  induction cnt generalizing i s v with
  | zero => exact ⟨.tiov hp, h⟩
  | succ cnt ih =>
    have hi : i < n := by omega
    cases s with
    | zero => exact ⟨.tiov hp, h⟩
    | succ =>
      rw [advanceWhile]
      split
      · exact ⟨.tiov hp, touched_touch h hi⟩
      · exact ih (i := i + 1) (by omega) (touched_touch h hi)

theorem Within.initLiov (h : Within n v) : initLiov n v = v := by
  refine if_neg fun hnull => ?_
  have hplaced := h.placed
  rw [hnull.1] at hplaced
  cases hplaced

theorem Within.initTiov (h : Within n v) :
    (∃ i, (initTiov n v).liov = some ⟨.tiov, i⟩ ∧ i + (initTiov n v).liovcnt = n) ∧
      ∀ j ∈ (initTiov n v).touched, j < n := by
  obtain ⟨elem, liov, liovcnt, touched⟩ := v
  obtain ⟨hplaced, htouched⟩ := h
  cases hplaced with
  | riov =>
    rw [Tiov.initTiov, if_pos ⟨rfl, rfl⟩]
    refine ⟨⟨0, copyTiov_liov, ?_⟩, copyTiov_touched htouched (Nat.le_refl _)⟩
    rw [copyTiov_liovcnt, Nat.zero_add]
  | tiov hi =>
    exact ⟨⟨_, rfl, hi⟩, htouched⟩

/-- A call of `pth_writev_iov_advance` after the first. -/
theorem Within.advance (h : Within n v) : Within n (pthWritevIovAdvance n s v) := by
  rw [pthWritevIovAdvance, h.initLiov]
  dsimp only
  split
  case isFalse => exact h
  case isTrue =>
    obtain ⟨⟨i, hliov, hi⟩, htouched⟩ := h.initTiov
    rw [hliov]
    exact advanceWhile_within hi htouched

theorem localIov_within (iov : List Bytes) (tiov : Nat → Bytes) :
    Within iov.length (localIov iov tiov) := ⟨.riov, nofun⟩

theorem partialWrites_within (iov : List Bytes) (tiov : Nat → Bytes) (ss : List Nat) :
    Within iov.length (partialWrites iov tiov ss) := by
  rw [partialWrites]
  generalize hv : localIov iov tiov = v
  have h : Within iov.length v := hv ▸ localIov_within iov tiov
  clear hv
  induction ss generalizing v with
  | nil => exact h
  | cons s ss ih => exact ih _ h.advance

theorem capacity_of_length (hmax : n ≤ uioMaxiov) (h : n ≤ 32 ∨ sizeofTiovStack < n) :
    n ≤ tiovCapacity n := by
  rw [tiovCapacity]
  split
  case isTrue => exact hmax
  case isFalse hstack => exact h.resolve_right hstack

end

section
variable {n : Nat}

theorem slice_congr (h : ∀ k, k < cnt → elem ⟨arr, i + k⟩ = elem' ⟨arr', j + k⟩) :
    slice elem ⟨arr, i⟩ cnt = slice elem' ⟨arr', j⟩ cnt := by
  induction cnt generalizing i j with
  | zero => rfl
  | succ cnt ih =>
    have hhead : elem ⟨arr, i⟩ = elem' ⟨arr', j⟩ := h 0 (Nat.succ_pos cnt)
    have htail : slice elem ⟨arr, i + 1⟩ cnt = slice elem' ⟨arr', j + 1⟩ cnt := by
      refine ih fun k hk => ?_
      have hk' := h (k + 1) (Nat.succ_lt_succ hk)
      rwa [Nat.add_comm k 1, ← Nat.add_assoc, ← Nat.add_assoc] at hk'
    rw [slice, hhead]
    exact congrArg _ htail

theorem slice_update (x : Bytes) : slice (update elem p x) p.next cnt = slice elem p.next cnt := by
  refine slice_congr fun k _ => update_of_ne (fun h => ?_) _ _
  have hindex : p.index + 1 + k = p.index := congrArg Ptr.index h
  omega

theorem view_advanceWhile : (advanceWhile cnt s p v).view = iovAdvance s (slice v.elem p cnt) := by
  fun_induction advanceWhile cnt s p v with
  | case1 s => cases s <;> simp [Vecs.view, slice, iovAdvance]
  | case2 => simp [Vecs.view, iovAdvance]
  | case3 cnt s p v hlt =>
    simp [Vecs.view, slice, iovAdvance, hlt, slice_update]
  | case4 cnt s p v hlt ih =>
    rw [ih]
    simp [slice, iovAdvance, hlt]

theorem copyTiov_succ : (copyTiov (i + 1) v).elem =
    update (copyTiov i v).elem ⟨.tiov, i⟩ ((copyTiov i v).elem ⟨.riov, i⟩) := rfl

theorem copyTiov_riov : (copyTiov i v).elem ⟨.riov, j⟩ = v.elem ⟨.riov, j⟩ := by
  induction i with
  | zero => rfl
  | succ i ih =>
    exact ih

theorem copyTiov_tiov (h : j < i) : (copyTiov i v).elem ⟨.tiov, j⟩ = v.elem ⟨.riov, j⟩ := by
  induction i with
  | zero => cases h
  | succ i ih =>
    rw [copyTiov_succ]
    obtain hlt | rfl := Nat.lt_succ_iff_lt_or_eq.mp h
    · rw [update_of_ne (by simpa using Nat.ne_of_lt hlt)]
      exact ih hlt
    · rw [update_self]
      exact copyTiov_riov

theorem Within.view_initTiov (h : Within n v) : (Tiov.initTiov n v).view = v.view := by
  rw [Tiov.initTiov]
  split
  case isFalse => rfl
  case isTrue hriov =>
    obtain ⟨hliov, rfl⟩ := hriov
    rw [Vecs.view, copyTiov_liov, copyTiov_liovcnt, Vecs.view, hliov]
    refine slice_congr fun k hk => ?_
    rw [Nat.zero_add]
    exact copyTiov_tiov hk

theorem Within.view_advance (h : Within n v) :
    (pthWritevIovAdvance n s v).view = iovAdvance s v.view := by
  rw [pthWritevIovAdvance, h.initLiov]
  dsimp only
  split
  case isFalse hs =>
    obtain rfl : s = 0 := Nat.eq_zero_of_not_pos hs
    rw [iovAdvance]
  case isTrue =>
    obtain ⟨⟨i, hliov, -⟩, -⟩ := h.initTiov
    have hview : v.view = slice (Tiov.initTiov n v).elem ⟨.tiov, i⟩ (Tiov.initTiov n v).liovcnt := by
      rw [← h.view_initTiov, Vecs.view, hliov]
    rw [hliov, hview]
    exact view_advanceWhile

theorem slice_getD (iov : List Bytes) (h : ∀ k, elem ⟨arr, i + k⟩ = iov.getD k []) :
    slice elem ⟨arr, i⟩ iov.length = iov := by
  induction iov generalizing i with
  | nil => rfl
  | cons x iov ih =>
    have hhead : elem ⟨arr, i⟩ = x := h 0
    have htail : slice elem ⟨arr, i + 1⟩ iov.length = iov := by
      refine ih fun k => ?_
      rw [Nat.add_assoc, Nat.add_comm 1 k]
      exact h (k + 1)
    rw [List.length_cons, slice, hhead]
    exact congrArg _ htail

theorem view_localIov (iov : List Bytes) (tiov : Nat → Bytes) : (localIov iov tiov).view = iov :=
  slice_getD iov fun k => by rw [Nat.zero_add]; rfl

end

/-! ### The loop of `pth_writev_ev` with pointers -/

def tiovKind (fd : Fd) (iovcnt : Nat) : WriteKind Vecs where
  site := .writev
  call v := writev fd v.view
  advance s v := pthWritevIovAdvance iovcnt s v
  waits := notReady

def viewed (w : Writing Vecs) : Writing (List Bytes) := ⟨w.ready, w.rest.view, w.nbytes, w.rv⟩

section
variable {b : Build}

theorem viewed_advance (h : Within n w.rest) :
    viewed ⟨.ok 0, (tiovKind fd n).advance s w.rest, w.nbytes - s, w.rv + s⟩ =
      ⟨.ok 0, (writevKind fd).advance s (viewed w).rest, (viewed w).nbytes - s, (viewed w).rv + s⟩ :=
  congrArg (fun v => (⟨.ok 0, v, w.nbytes - s, w.rv + s⟩ : Writing (List Bytes))) h.view_advance

theorem writeCall_tiov (h : Within n w.rest) :
    writeCall b (writevKind fd) (viewed w) = Sum.map viewed id <$> writeCall b (tiovKind fd n) w := by
  rw [writeCall, writeCall, map_bind]
  refine bind_congr fun r => ?_
  cases r with
  | error => rfl
  | ok s =>
    by_cases hs : 0 < s ∧ s < w.nbytes
    · have hs' : 0 < s ∧ s < (viewed w).nbytes := hs
      simp only [if_pos hs, if_pos hs']
      rw [map_pure, Sum.map_inl, viewed_advance h]
    · have hs' : ¬ (0 < s ∧ s < (viewed w).nbytes) := hs
      simp only [if_neg hs, if_neg hs']
      rfl

theorem writeTurn_tiov (h : Within n w.rest) :
    writeTurn b (writevKind fd) fd fdmode extra (viewed w) =
      Sum.map viewed id <$> writeTurn b (tiovKind fd n) fd fdmode extra w := by
  rw [writeTurn, writeTurn]
  by_cases hw : notReady w.ready = true
  · rw [if_pos (show (writevKind fd).waits (viewed w).ready = true from hw),
      if_pos (show (tiovKind fd n).waits w.ready = true from hw), map_bind]
    refine bind_congr fun v => ?_
    cases v with
    | false =>
      simp only [Bool.not_false, if_true, map_bind]
      rfl
    | true => exact writeCall_tiov h
  · rw [if_neg (show ¬ (writevKind fd).waits (viewed w).ready = true from hw),
      if_neg (show ¬ (tiovKind fd n).waits w.ready = true from hw)]
    exact writeCall_tiov h

theorem yields_writeCall (h : Within n w.rest) :
    (writeCall b (tiovKind fd n) w).Yields (Sum.elim (fun w => Within n w.rest) fun _ => True) := by
  refine yields_bind _ fun r => ?_
  cases r with
  | error => trivial
  | ok =>
    dsimp only
    split
    · exact h.advance
    · trivial

theorem yields_writeTurn (h : Within n w.rest) :
    (writeTurn b (tiovKind fd n) fd fdmode extra w).Yields
      (Sum.elim (fun w => Within n w.rest) fun _ => True) := by
  unfold writeTurn
  split
  · refine yields_bind _ fun v => ?_
    cases v with
    | false => exact yields_bind _ fun _ => trivial
    | true => exact yields_writeCall h
  · exact yields_writeCall h

theorem writeLoop_tiov (h : Within n w.rest) :
    writeLoop b (tiovKind fd n) fd fdmode extra w =
      writeLoop b (writevKind fd) fd fdmode extra (viewed w) := by
  have hloop : Prog.iterate .fuel (writeTurn b (writevKind fd) fd fdmode extra) b.fuel (viewed w) =
      Prog.iterate .fuel (writeTurn b (tiovKind fd n) fd fdmode extra) b.fuel w :=
    iterate_map (fun _ h => yields_writeTurn h) (fun _ h => writeTurn_tiov h) h b.fuel
  rw [writeLoop, writeLoop, hloop]

/-- The loop of `pth_writev_ev`, from the vector of the caller on. -/
theorem writeLoop_localIov (iov : List Bytes) (tiov : Nat → Bytes) (ready : Res Nat) :
    writeLoop b (tiovKind fd iov.length) fd fdmode extra
        ⟨ready, localIov iov tiov, iovBytes iov, 0⟩ =
      writeLoop b (writevKind fd) fd fdmode extra ⟨ready, iov, iovBytes iov, 0⟩ := by
  rw [writeLoop_tiov (localIov_within iov tiov), viewed, view_localIov]

end

/-! ### Any sequence of advances -/

/-- After calls of `pth_writev_iov_advance` with these advances, the first of them
with `liov` null. -/
def advances (iov : List Bytes) (tiov : Nat → Bytes) (ss : List Nat) : Vecs :=
  ss.foldl (fun v s => pthWritevIovAdvance iov.length s v) ⟨memory iov tiov, none, 0, []⟩

section
variable {n : Nat}

theorem advanceWhile_riov :
    (advanceWhile cnt s ⟨.tiov, i⟩ v).elem ⟨.riov, j⟩ = v.elem ⟨.riov, j⟩ := by
  induction cnt generalizing i s v with
  | zero => rfl
  | succ cnt ih =>
    cases s with
    | zero => rfl
    | succ =>
      rw [advanceWhile]
      split
      · simp
      · rw [Ptr.next, ih, touch_elem]

theorem initTiov_riov : (Tiov.initTiov n v).elem ⟨.riov, j⟩ = v.elem ⟨.riov, j⟩ := by
  rw [Tiov.initTiov]
  split
  · exact copyTiov_riov
  · rfl

theorem Within.advance_riov (h : Within n v) :
    (pthWritevIovAdvance n s v).elem ⟨.riov, j⟩ = v.elem ⟨.riov, j⟩ := by
  rw [pthWritevIovAdvance, h.initLiov]
  dsimp only
  split
  case isFalse => rfl
  case isTrue =>
    obtain ⟨⟨i, hliov, -⟩, -⟩ := h.initTiov
    rw [hliov]
    exact advanceWhile_riov.trans initTiov_riov

theorem Within.advances (h : Within n v) (ss : List Nat) :
    (ss.foldl (fun v s => pthWritevIovAdvance n s v) v).view.flatten = v.view.flatten.drop ss.sum ∧
      ∀ j, (ss.foldl (fun v s => pthWritevIovAdvance n s v) v).elem ⟨.riov, j⟩ =
        v.elem ⟨.riov, j⟩ := by
  induction ss generalizing v with
  | nil => exact ⟨List.drop_zero.symm, fun _ => rfl⟩
  | cons s ss ih =>
    obtain ⟨hview, hriov⟩ := ih (h.advance)
    refine ⟨?_, fun j => (hriov j).trans h.advance_riov⟩
    rw [List.foldl_cons, hview, h.view_advance, iovAdvance_flatten, List.drop_drop, List.sum_cons]

end

/-- For every vector and every sequence of advances: `liov` denotes what is left
behind the bytes advanced over, the caller's vector is as it was, and a `tiov` of
`riovcnt` elements is large enough. -/
theorem iov_advances (iov : List Bytes) (tiov : Nat → Bytes) (s : Nat) (ss : List Nat) :
    (advances iov tiov (s :: ss)).view.flatten = iov.flatten.drop (s :: ss).sum ∧
      (∀ j, (advances iov tiov (s :: ss)).elem ⟨.riov, j⟩ = iov.getD j []) ∧
      ∀ i ∈ (advances iov tiov (s :: ss)).touched, i < iov.length := by
  obtain ⟨hview, hriov⟩ := (localIov_within iov tiov).advances (s :: ss)
  rw [view_localIov] at hview
  exact ⟨hview, hriov, (partialWrites_within iov tiov (s :: ss)).touched⟩

example : (advances [[1, 2], [], [3], [4, 5]] (fun _ => []) [0, 1, 2]).view = [[4, 5]] := by decide

end Tiov

end Io

end GnuPth
