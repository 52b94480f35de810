import GnuPth.Lib.Links
import GnuPth.Lib.Placement

/-!
# Wait queues

`pth_waitq_t` threads its members through the one link `wq_next` of their
control blocks. `WaitLinks` is that memory: the link of every thread and the
header of every queue, with the three operations as the C code performs them.
`WaitLists` is what the memory is for: a FIFO list for every queue and for
every private chain of readers that `pth_rwlock_release` walks.

`Represents` relates the two. Every operation preserves it, except that
appending needs a thread which is on no list: the link of a thread can hold
only one position.
-/

namespace GnuPth

open Function (update update_self update_eq_self update_comm update_idem)
open Intrusive
open Placement

/-- `pth_t`: the address of a thread control block. -/
abbrev Tid := Nat
abbrev MutexId := Nat
abbrev CondId := Nat
abbrev RwlockId := Nat

/-- Every `pth_waitq_t` of the library, by the object it is embedded in. -/
inductive QueueId
  | mutex (m : MutexId)
  | cond (c : CondId)
  | rwlockRd (r : RwlockId)
  | rwlockRw (r : RwlockId)
  | join (t : Tid)
  deriving DecidableEq, Repr

/-! ### Pointers -/

structure WaitLinks where
  wqNext : Tid → Option Tid
  waitq : QueueId → Fifo Tid

def waitqAppend (p : WaitLinks) (q : QueueId) (t : Tid) : WaitLinks :=
  let next := update p.wqNext t none
  match (p.waitq q).tail with
  | some last =>
    { wqNext := update next last (some t)
      waitq := update p.waitq q { (p.waitq q) with tail := some t } }
  | none => { wqNext := next, waitq := update p.waitq q ⟨some t, some t⟩ }

def waitqShift (p : WaitLinks) (q : QueueId) : Option Tid × WaitLinks :=
  match (p.waitq q).head with
  | none => (none, p)
  | some t =>
    let head := p.wqNext t
    let tail := if head = none then none else (p.waitq q).tail
    (some t, { wqNext := update p.wqNext t none, waitq := update p.waitq q ⟨head, tail⟩ })

/-- The search loop of `pth_waitq_remove`, at member `c` with predecessor `p`.
On a link structure with a cycle the C loop does not end: `none`. -/
def waitqRemoveLoop (m : WaitLinks) (q : QueueId) (t : Tid) :
    Nat → Option Tid → Option Tid → Option (Bool × WaitLinks)
  | 0, _, _ => none
  | _ + 1, _, none => some (false, m)
  | fuel + 1, p, some c =>
    if c = t then
      let next := match p with
        | some y => update m.wqNext y (m.wqNext c)
        | none => m.wqNext
      let head := match p with
        | some _ => (m.waitq q).head
        | none => m.wqNext c
      let tail := if (m.waitq q).tail = some c then p else (m.waitq q).tail
      some (true, { wqNext := update next c none, waitq := update m.waitq q ⟨head, tail⟩ })
    else waitqRemoveLoop m q t fuel (some c) (m.wqNext c)

def waitqRemove (fuel : Nat) (m : WaitLinks) (q : QueueId) (t : Tid) :
    Option (Bool × WaitLinks) :=
  waitqRemoveLoop m q t fuel none (m.waitq q).head

/-- `while ((w = pth_waitq_shift(q)) != NULL)`, collecting the threads. -/
def waitqShiftAll (q : QueueId) : Nat → WaitLinks → Option (List Tid × WaitLinks)
  | 0, _ => none
  | fuel + 1, p =>
    match waitqShift p q with
    | (none, p') => some ([], p')
    | (some w, p') => (waitqShiftAll q fuel p').map fun r => (w :: r.1, r.2)

/-- The loop of `pth_rwlock_release` that moves every parked reader onto the
private chain starting at `chain`. -/
def herdReaders (q : QueueId) : Nat → WaitLinks → Option Tid → Option (Option Tid × WaitLinks)
  | 0, _, _ => none
  | fuel + 1, p, chain =>
    match waitqShift p q with
    | (none, p') => some (chain, p')
    | (some w, p') => herdReaders q fuel { p' with wqNext := update p'.wqNext w chain } (some w)

/-! ### Lists -/

/-- What a thread's link can be used for: a wait queue, or the private chain
of a thread inside `pth_rwlock_release`. -/
inductive Slot
  | queue (q : QueueId)
  | chain (owner : Tid)
  deriving DecidableEq, Repr

abbrev WaitLists := Slot → List Tid

structure Represents (p : WaitLinks) (l : WaitLists) : Prop where
  linked : ∀ i, Linked p.wqNext (l i)
  header : ∀ q, p.waitq q = .ofList (l (.queue q))
  linear : Linear l

def WaitLists.Free (l : WaitLists) (t : Tid) : Prop := ∀ i, t ∉ l i

/-- The operations a section of the library performs on the wait queues, over
either memory. `none` is a loop that does not end. -/
structure WaitOps (σ : Type) where
  append : σ → QueueId → Tid → σ
  shift : σ → QueueId → Option Tid × σ
  remove : σ → QueueId → Tid → Option (Bool × σ)
  shiftAll : σ → QueueId → Option (List Tid × σ)
  -- move the whole queue onto the private chain of `owner`
  herd : σ → (owner : Tid) → QueueId → Option (Option Tid × σ)
  -- `w->wq_next`, for the first member `w` of the chain of `owner`
  chainNext : σ → (owner w : Tid) → Option Tid
  -- `w->wq_next = NULL`
  chainClear : σ → (owner w : Tid) → σ

def linkOps (fuel : Nat) : WaitOps WaitLinks where
  append := waitqAppend
  shift := waitqShift
  remove := waitqRemove fuel
  shiftAll p q := waitqShiftAll q fuel p
  herd p _ q := herdReaders q fuel p none
  chainNext p _ w := p.wqNext w
  chainClear p _ w := { p with wqNext := update p.wqNext w none }

def listOps : WaitOps WaitLists where
  append l q t := update l (.queue q) (l (.queue q) ++ [t])
  shift l q := ((l (.queue q)).head?, update l (.queue q) (l (.queue q)).tail)
  remove l q t := some (decide (t ∈ l (.queue q)), update l (.queue q) ((l (.queue q)).erase t))
  shiftAll l q := some (l (.queue q), update l (.queue q) [])
  herd l owner q := some ((l (.queue q)).reverse.head?,
    update (update l (.queue q) []) (.chain owner) (l (.queue q)).reverse)
  chainNext l owner _ := (l (.chain owner)).tail.head?
  chainClear l owner _ := update l (.chain owner) (l (.chain owner)).tail

section
variable {l : WaitLists}

@[simp] theorem listOps_append :
    listOps.append l q t = update l (.queue q) (l (.queue q) ++ [t]) := rfl

@[simp] theorem listOps_remove :
    listOps.remove l q t = some (b, l') ↔
      b = decide (t ∈ l (.queue q)) ∧ l' = update l (.queue q) ((l (.queue q)).erase t) := by
  simp [listOps, eq_comm]

@[simp] theorem listOps_shift_some :
    listOps.shift l q = (some w, l') ↔
      ∃ ws, l (.queue q) = w :: ws ∧ l' = update l (.queue q) ws := by
  simp only [listOps, Prod.mk.injEq]
  constructor
  · rintro ⟨hw, rfl⟩
    obtain ⟨ws, hws⟩ := List.head?_eq_some_iff.mp hw
    exact ⟨ws, hws, by rw [hws, List.tail_cons]⟩
  · rintro ⟨ws, hws, rfl⟩
    simp [hws]

@[simp] theorem listOps_shift_none :
    listOps.shift l q = (none, l') ↔ l (.queue q) = [] ∧ l' = l := by
  simp only [listOps, Prod.mk.injEq, List.head?_eq_none_iff]
  constructor
  · rintro ⟨hq, rfl⟩
    exact ⟨hq, by rw [hq, List.tail_nil, ← hq, update_eq_self]⟩
  · rintro ⟨hq, rfl⟩
    exact ⟨hq, by rw [hq, List.tail_nil, ← hq, update_eq_self]⟩

@[simp] theorem listOps_shiftAll :
    listOps.shiftAll l q = some (ws, l') ↔ ws = l (.queue q) ∧ l' = update l (.queue q) [] := by
  simp [listOps, eq_comm]

@[simp] theorem listOps_herd :
    listOps.herd l t q = some (c, l') ↔ c = (l (.queue q)).reverse.head? ∧
      l' = update (update l (.queue q) []) (.chain t) (l (.queue q)).reverse := by
  simp [listOps, eq_comm]

@[simp] theorem listOps_chainNext : listOps.chainNext l t w = (l (.chain t)).tail.head? := rfl

@[simp] theorem listOps_chainClear :
    listOps.chainClear l t w = update l (.chain t) (l (.chain t)).tail := rfl

end

/-! ### Representation -/

section
variable {p : WaitLinks}

theorem Represents.notMem_of_ne (h : Represents p l) (hij : i ≠ j) (ht : t ∈ l i) : t ∉ l j :=
  fun hj => hij (h.linear.unique ht hj)

/-- Pointer writes confined to free threads and members of list `i` change no
other list. -/
theorem Represents.linked_of_ne (h : Represents p l) (hij : j ≠ i)
    (hw : ∀ x, next x ≠ p.wqNext x → x ∈ l i ∨ l.Free x) : Linked next (l j) := by
  refine (h.linked j).congr fun x hx => ?_
  by_contra hne
  rcases hw x hne with hm | hf
  · exact h.notMem_of_ne (Ne.symm hij) hm hx
  · exact hf j hx

/-- The common form of all operations: list `i` becomes `xs`, the links of `xs`
are right, and nothing else was written. -/
theorem Represents.update_list (h : Represents p l) (hn : xs.Nodup)
    (hx : ∀ x ∈ xs, x ∈ l i ∨ l.Free x) (hl : Linked p'.wqNext xs)
    (hw : ∀ x, p'.wqNext x ≠ p.wqNext x → x ∈ l i ∨ l.Free x)
    (hh : ∀ q, p'.waitq q = .ofList (update l i xs (.queue q))) :
    Represents p' (update l i xs) := by
  refine ⟨fun j => ?_, hh, h.linear.update_list hn hx⟩
  by_cases hj : j = i
  · subst hj; simpa using hl
  · simpa [hj] using h.linked_of_ne hj hw

theorem Represents.append (h : Represents p l) (ht : l.Free t) :
    Represents (waitqAppend p q t) (listOps.append l q t) := by
  have hhd := h.header q
  have hnd : (l (.queue q) ++ [t]).Nodup := h.linear.nodup_snoc (ht _)
  cases hlast : (l (.queue q)).getLast? with
  | none =>
    have hnil : l (.queue q) = [] := by simpa using hlast
    have htail : (p.waitq q).tail = none := by rw [hhd, hnil]; rfl
    simp only [waitqAppend, htail]
    refine h.update_list hnd ?_ ?_ ?_ ?_
    · intro x hx
      rw [hnil] at hx
      obtain rfl : x = t := by simpa using hx
      exact .inr ht
    · rw [hnil]; exact Linked.singleton
    · intro x hx
      by_cases hxt : x = t
      · subst hxt; exact .inr ht
      · simp [hxt] at hx
    · intro q'
      by_cases hq : q' = q
      · subst hq; simp [hnil, Fifo.ofList]
      · simpa [hq] using h.header q'
  | some y =>
    have htail : (p.waitq q).tail = some y := by rw [hhd]; exact hlast
    have hym : y ∈ l (.queue q) := List.mem_of_getLast? hlast
    simp only [waitqAppend, htail]
    refine h.update_list hnd ?_ ?_ ?_ ?_
    · intro x hx
      rcases List.mem_append.mp hx with hx | hx
      · exact .inl hx
      · obtain rfl : x = t := by simpa using hx
        exact .inr ht
    · exact (h.linked _).snoc (h.linear.nodup _) (ht _) hlast
    · intro x hx
      by_cases hxy : x = y
      · subst hxy; exact .inl hym
      · by_cases hxt : x = t
        · subst hxt; exact .inr ht
        · simp [hxy, hxt] at hx
    · intro q'
      by_cases hq : q' = q
      · subst hq
        have hne := List.ne_nil_of_mem hym
        simp [hhd, Fifo.ofList, List.head?_append_of_ne_nil _ hne]
      · simpa [hq] using h.header q'

theorem Represents.shift (h : Represents p l) :
    (waitqShift p q).1 = (l (.queue q)).head? ∧
      Represents (waitqShift p q).2 (listOps.shift l q).2 := by
  have hhd := h.header q
  have hlq := h.linked (.queue q)
  have hnq := h.linear.nodup (.queue q)
  cases hq : l (.queue q) with
  | nil =>
    have hhead : (p.waitq q).head = none := by rw [hhd, hq]; rfl
    have hsame : update l (.queue q) [] = l := by rw [← hq, update_eq_self]
    simp [waitqShift, hhead, listOps, hq, hsame, h]
  | cons w ws =>
    have hhead : (p.waitq q).head = some w := by rw [hhd, hq]; rfl
    rw [hq] at hlq hnq
    simp only [waitqShift, hhead, listOps, hq, List.head?_cons, List.tail_cons]
    refine ⟨trivial, h.update_list hnq.of_cons ?_ (hlq.uncons hnq) ?_ ?_⟩
    · intro x hx
      exact .inl (by simp [hq, hx])
    · intro x hx
      by_cases hxw : x = w
      · exact .inl (by simp [hq, hxw])
      · simp [hxw] at hx
    · intro q'
      by_cases hqq : q' = q
      · subst hqq
        cases ws with
        | nil => simp [show p.wqNext w = none from hlq.1]
        | cons => simp [Fifo.ofList, hlq.1, hhd, hq]
      · simpa [hqq] using h.header q'

theorem Represents.shift_free (h : Represents p l) (hw : (l (.queue q)).head? = some w) :
    ((listOps.shift l q).2).Free w := by
  intro i
  cases hq : l (.queue q) with
  | nil => simp [hq] at hw
  | cons v =>
    obtain rfl : v = w := by simpa [hq] using hw
    have hn := h.linear.nodup (.queue q)
    rw [hq] at hn
    by_cases hi : i = .queue q
    · subst hi
      simpa [listOps, hq] using (List.nodup_cons.mp hn).1
    · have hv : v ∈ l (.queue q) := by simp [hq]
      simpa [listOps, hi] using h.notMem_of_ne (Ne.symm hi) hv

/-- The loop of `pth_waitq_remove` once it has passed `pre`. -/
theorem Represents.removeLoop (h : Represents p l) (fuel : Nat) (pre post : List Tid)
    (hq : l (.queue q) = pre ++ post) (ht : t ∉ pre)
    (hr : waitqRemoveLoop p q t fuel pre.getLast? post.head? = some (b, p')) :
    b = decide (t ∈ l (.queue q)) ∧
      Represents p' (update l (.queue q) ((l (.queue q)).erase t)) := by
  induction fuel generalizing pre post with
  | zero => simp [waitqRemoveLoop] at hr
  | succ fuel ih =>
    cases post with
    | nil =>
      obtain ⟨rfl, rfl⟩ : false = b ∧ p = p' := by simpa [waitqRemoveLoop] using hr
      have hmem : t ∉ l (.queue q) := by simpa [hq] using ht
      refine ⟨by simp [hmem], ?_⟩
      rw [List.erase_of_not_mem hmem, update_eq_self]
      exact h
    | cons c post =>
      simp only [List.head?_cons, waitqRemoveLoop] at hr
      have hlq := h.linked (.queue q)
      have hnq := h.linear.nodup (.queue q)
      rw [hq] at hlq hnq
      split at hr
      · rename_i hct
        subst hct
        have herase : (l (.queue q)).erase c = pre ++ post := by
          rw [hq, List.erase_append_right _ ht, List.erase_cons_head]
        obtain ⟨rfl, rfl⟩ := Prod.mk.inj (Option.some.inj hr)
        refine ⟨by simp [hq], ?_⟩
        rw [herase]
        have hsub : (pre ++ post).Sublist (pre ++ c :: post) :=
          List.Sublist.append (List.Sublist.refl _) (List.sublist_cons_self _ _)
        have htail : (if (p.waitq q).tail = some c then pre.getLast? else (p.waitq q).tail) =
            (pre ++ post).getLast? := by
          rw [h.header q]
          cases post with
          | nil => simp [Fifo.ofList, hq]
          | cons d ds =>
            have hcl : (d :: ds).getLast? ≠ some c := by
              intro he
              have hcm := List.mem_of_getLast? he
              have hnc := (List.nodup_append.mp hnq).2.1
              exact (List.nodup_cons.mp hnc).1 hcm
            have hsome : ∃ z, (d :: ds).getLast? = some z := by
              cases hz : (d :: ds).getLast? with
              | none => simp at hz
              | some z => exact ⟨z, rfl⟩
            obtain ⟨z, hz⟩ := hsome
            have hzc : z ≠ c := fun he => hcl (he ▸ hz)
            have h1 : (pre ++ c :: d :: ds).getLast? = some z := by
              rw [List.getLast?_append, List.getLast?_cons_cons, hz]; rfl
            have h2 : (pre ++ d :: ds).getLast? = some z := by
              rw [List.getLast?_append, hz]; rfl
            simp [Fifo.ofList, hq, h1, h2, hzc]
        refine h.update_list (hnq.sublist hsub) ?_ ?_ ?_ ?_
        · intro x hx
          exact .inl (by rw [hq]; exact hsub.subset hx)
        · cases hpre : pre.getLast? with
          | none =>
            obtain rfl : pre = [] := by simpa using hpre
            simpa using Linked.uncons hlq hnq
          | some => exact hlq.unlink hnq hpre
        · intro x hx
          cases hpre : pre.getLast? with
          | none =>
            by_cases hxc : x = c
            · exact .inl (by simp [hq, hxc])
            · simp [hpre, hxc] at hx
          | some y =>
            have hym : y ∈ pre := List.mem_of_getLast? hpre
            by_cases hxc : x = c
            · exact .inl (by simp [hq, hxc])
            · by_cases hxy : x = y
              · exact .inl (by simp [hq, hxy, hym])
              · simp [hpre, hxc, hxy] at hx
        · intro q'
          by_cases hqq : q' = q
          · subst hqq
            simp only [htail, Fifo.ofList]
            cases hpre : pre.getLast? with
            | none =>
              obtain rfl : pre = [] := by simpa using hpre
              have hnext : p.wqNext c = post.head? := hlq.1
              simp [hnext]
            | some =>
              have hne : pre ≠ [] := by rintro rfl; simp at hpre
              simp [h.header, Fifo.ofList, hq, List.head?_append_of_ne_nil _ hne]
          · simpa [hqq] using h.header q'
      · rename_i hct
        have hnext : p.wqNext c = post.head? := hlq.next_of_mem
        rw [hnext] at hr
        refine ih (pre ++ [c]) post (by simp [hq]) ?_ (by simpa using hr)
        simp [ht, Ne.symm hct]

theorem Represents.remove (h : Represents p l)
    (hr : waitqRemove fuel p q t = some (b, p')) :
    b = decide (t ∈ l (.queue q)) ∧
      Represents p' (update l (.queue q) ((l (.queue q)).erase t)) := by
  refine h.removeLoop fuel [] _ rfl (by simp) ?_
  rw [waitqRemove, h.header q] at hr
  exact hr

theorem Represents.shiftAll (h : Represents p l) (fuel : Nat)
    (hr : waitqShiftAll q fuel p = some (ws, p')) :
    ws = l (.queue q) ∧ Represents p' (update l (.queue q) []) := by
  induction fuel generalizing p l ws with
  | zero => simp [waitqShiftAll] at hr
  | succ fuel ih =>
    obtain ⟨hhead, hrep⟩ := h.shift
    rw [waitqShiftAll] at hr
    cases hs : waitqShift p q with
    | mk w pw =>
      rw [hs] at hr hhead hrep
      cases w with
      | none =>
        have hnil : l (.queue q) = [] := by simpa using hhead.symm
        obtain ⟨rfl, rfl⟩ : [] = ws ∧ pw = p' := by simpa using hr
        simpa [listOps, hnil] using hrep
      | some w =>
        obtain ⟨ws', hr', rfl⟩ : ∃ ws', waitqShiftAll q fuel pw = some (ws', p') ∧ w :: ws' = ws := by
          simpa using hr
        obtain ⟨htl, hp'⟩ := ih hrep hr'
        obtain ⟨vs, hvs⟩ := List.head?_eq_some_iff.mp hhead.symm
        refine ⟨by simp [htl, listOps, hvs], ?_⟩
        simpa [listOps] using hp'

/-- One turn of the herding loop after its `pth_waitq_shift`: a thread on no
list is pushed onto the chain of `owner`. -/
theorem Represents.push (h : Represents p l) (owner : Tid) (hw : l.Free w) :
    Represents { p with wqNext := update p.wqNext w (l (.chain owner)).head? }
      (update l (.chain owner) (w :: l (.chain owner))) := by
  refine h.update_list ?_ ?_ ((h.linked _).push (hw _)) ?_ ?_
  · exact List.nodup_cons.mpr ⟨hw _, h.linear.nodup _⟩
  · intro x hx
    rcases List.mem_cons.mp hx with rfl | hx
    · exact .inr hw
    · exact .inl hx
  · intro x hx
    by_cases hxw : x = w
    · subst hxw; exact .inr hw
    · simp [hxw] at hx
  · intro q'
    simpa using h.header q'

theorem Represents.herdLoop (h : Represents p l) (owner : Tid) (fuel : Nat)
    (hr : herdReaders q fuel p (l (.chain owner)).head? = some (c, p')) :
    c = ((l (.queue q)).reverse ++ l (.chain owner)).head? ∧
      Represents p' (update (update l (.queue q) []) (.chain owner)
        ((l (.queue q)).reverse ++ l (.chain owner))) := by
  induction fuel generalizing p l with
  | zero => simp [herdReaders] at hr
  | succ fuel ih =>
    obtain ⟨hhead, hrep⟩ := h.shift
    rw [herdReaders] at hr
    cases hs : waitqShift p q with
    | mk w pw =>
      rw [hs] at hr hhead hrep
      cases w with
      | none =>
        have hnil : l (.queue q) = [] := by simpa using hhead.symm
        obtain ⟨rfl, rfl⟩ : (l (.chain owner)).head? = c ∧ pw = p' := by simpa using hr
        have hsame : update (update l (.queue q) []) (.chain owner) (l (.chain owner)) =
            update l (.queue q) [] := by
          simp
        simpa [hnil, hsame, listOps] using hrep
      | some =>
        have hfree := h.shift_free hhead.symm
        have hch : (listOps.shift l q).2 (.chain owner) = l (.chain owner) := by simp [listOps]
        have hpush := hrep.push owner hfree
        rw [hch] at hpush
        obtain ⟨vs, hvs⟩ := List.head?_eq_some_iff.mp hhead.symm
        obtain ⟨hc, hp'⟩ := ih hpush (by simpa using hr)
        simp only [listOps, hvs, List.reverse_cons, List.append_assoc,
          ne_eq, reduceCtorEq, not_false_eq_true, Function.update_of_ne,
          update_self] at hc hp' ⊢
        refine ⟨hc, ?_⟩
        rw [update_comm (by simp), update_idem] at hp'
        rwa [update_comm (by simp), update_idem] at hp'

theorem Represents.herd (h : Represents p l)
    (hnil : l (.chain owner) = []) (hr : herdReaders q fuel p none = some (c, p')) :
    c = (l (.queue q)).reverse.head? ∧
      Represents p' (update (update l (.queue q) []) (.chain owner) (l (.queue q)).reverse) := by
  simpa [hnil] using h.herdLoop owner fuel (by simpa [hnil] using hr)

theorem Represents.chainNext (h : Represents p l)
    (hw : l (.chain owner) = w :: ws) : p.wqNext w = ws.head? := by
  have := h.linked (.chain owner)
  rw [hw] at this
  exact this.1

theorem Represents.chainClear (h : Represents p l)
    (hw : l (.chain owner) = w :: ws) :
    Represents { p with wqNext := update p.wqNext w none } (update l (.chain owner) ws) := by
  have hl := h.linked (.chain owner)
  have hn := h.linear.nodup (.chain owner)
  rw [hw] at hl hn
  refine h.update_list hn.of_cons ?_ (hl.uncons hn) ?_ ?_
  · intro x hx
    exact .inl (by simp [hw, hx])
  · intro x hx
    by_cases hxw : x = w
    · exact .inl (by simp [hw, hxw])
    · simp [hxw] at hx
  · intro q'
    simpa using h.header q'

end

end GnuPth
