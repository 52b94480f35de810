import Mathlib.Data.Fintype.Basic
import GnuPth.Pqueue.Represents

/-!
# Any sequence of operations

What the queues are for: each is a list of threads with their priorities, in
descending order, first come first served among equals. `after` and `answer`
say in these terms what the operations do. The links follow any sequence of
operations, on any number of queues that share the control blocks: an insertion
is of a thread that is in none of them, `pth_pqueue_delete` and
`pth_pqueue_favorite` are called for members only.
-/

namespace GnuPth.Pq

open Function (update update_self update_of_ne)

variable {ι : Type} [DecidableEq ι]

inductive Op (ι : Type)
  | insert (i : ι) (prio : Int) (t : Tid)
  | delmax (i : ι)
  | delete (i : ι) (t : Tid)
  | favorite (i : ι) (t : Tid)
  | increase (i : ι)
  | walk (i : ι)
  | contains (i : ι) (t : Tid)
  deriving DecidableEq, Repr

inductive Result
  | done
  | thread (t : Option Tid)
  | found (b : Bool)
  | visited (ts : List Tid)
  deriving DecidableEq, Repr

/-! ### The queues as lists -/

/-- Behind all members of the same or a higher priority. -/
def place (l : Pqueue) (prio : Int) (t : Tid) : Pqueue :=
  l.filter (prio ≤ ·.2) ++ (t, prio) :: l.filter (·.2 < prio)

def without (l : Pqueue) (t : Tid) : Pqueue := l.filter (·.1 ≠ t)

/-- In front of all others; a thread that is alone stays as it is. -/
def raise (l : Pqueue) (t : Tid) : Pqueue :=
  if l.length ≤ 1 then l else (t, (without l t).favoritePrio) :: without l t

def after (m : ι → Pqueue) : Op ι → ι → Pqueue
  | .insert i prio t => update m i (place (m i) prio t)
  | .delmax i => update m i (m i).tail
  | .delete i t => update m i (without (m i) t)
  | .favorite i t => update m i (raise (m i) t)
  | .increase i => update m i ((m i).map fun e => (e.1, e.2 + 1))
  | .walk _ | .contains _ _ => m

def answer (m : ι → Pqueue) : Op ι → Result
  | .insert _ _ _ | .delete _ _ | .increase _ => .done
  | .delmax i => .thread (m i).members.head?
  | .favorite _ _ => .found true
  | .walk i => .visited (m i).members
  | .contains i t => .found (t ∈ (m i).members)

def Allowed (m : ι → Pqueue) : Op ι → Prop
  | .insert _ _ t => ∀ j, t ∉ (m j).members
  | .delete i t | .favorite i t => t ∈ (m i).members
  | _ => True

instance [Fintype ι] (m : ι → Pqueue) (o : Op ι) : Decidable (Allowed m o) :=
  match o with
  | .insert _ _ t => inferInstanceAs (Decidable (∀ j, t ∉ (m j).members))
  | .delete i t | .favorite i t => inferInstanceAs (Decidable (t ∈ (m i).members))
  | .delmax _ | .increase _ | .walk _ | .contains _ _ => inferInstanceAs (Decidable True)

def afterAll (m : ι → Pqueue) : List (Op ι) → ι → Pqueue
  | [] => m
  | o :: ops => afterAll (after m o) ops

def answers (m : ι → Pqueue) : List (Op ι) → List Result
  | [] => []
  | o :: ops => answer m o :: answers (after m o) ops

def AllAllowed (m : ι → Pqueue) : List (Op ι) → Prop
  | [] => True
  | o :: ops => Allowed m o ∧ AllAllowed (after m o) ops

instance decidableAllAllowed [Fintype ι] (m : ι → Pqueue) :
    (ops : List (Op ι)) → Decidable (AllAllowed m ops)
  | [] => inferInstanceAs (Decidable True)
  | o :: ops =>
    have := decidableAllAllowed (after m o) ops
    inferInstanceAs (Decidable (Allowed m o ∧ AllAllowed (after m o) ops))

/-! ### The queues as they are stored -/

structure Store (ι : Type) where
  links : Links
  queue : ι → Header

def Store.put (s : Store ι) (i : ι) (r : Links × Header) : Store ι := ⟨r.1, update s.queue i r.2⟩

def exec (fuel : Nat) (s : Store ι) : Op ι → Option (Store ι × Result)
  | .insert i prio t => (insert fuel s.links (s.queue i) prio t).map fun r => (s.put i r, .done)
  | .delmax i => some (s.put i (delmax s.links (s.queue i)).1, .thread (delmax s.links (s.queue i)).2)
  | .delete i t => some (s.put i (delete s.links (s.queue i) t), .done)
  | .favorite i t => (favorite fuel s.links (s.queue i) t).map fun r => (s.put i r.1, .found r.2)
  | .increase i => some (s.put i (increase s.links (s.queue i), s.queue i), .done)
  | .walk i => (walkFrom s.links (s.queue i) fuel (s.queue i).qHead).map fun ts => (s, .visited ts)
  | .contains i t => (contains fuel s.links (s.queue i) t).map fun b => (s, .found b)

def execAll (fuel : Nat) (s : Store ι) : List (Op ι) → Option (Store ι × List Result)
  | [] => some (s, [])
  | o :: ops => do
    let (s, r) ← exec fuel s o
    let (s, rs) ← execAll fuel s ops
    some (s, r :: rs)

/-! ### Lists in descending order -/

def Descending (l : Pqueue) : Prop := l.Pairwise fun a b => b.2 ≤ a.2

section
variable {l : Pqueue}

theorem insert_eq_place (h : Descending l) : l.insert prio t = place l prio t := by
  induction l with
  | nil => rfl
  | cons e l ih =>
    obtain ⟨hle, hl⟩ := List.pairwise_cons.mp h
    unfold Pqueue.insert
    split
    · rename_i hlt
      -- everything from here on is below
      have hbelow : ∀ x ∈ e :: l, x.2 < prio := by
        intro x hx
        rcases List.mem_cons.mp hx with rfl | hx
        · exact hlt
        · exact (hle x hx).trans_lt hlt
      have hnone : (e :: l).filter (fun x => prio ≤ x.2) = [] :=
        List.filter_eq_nil_iff.mpr fun x hx => by simpa using hbelow x hx
      have hall : (e :: l).filter (fun x => x.2 < prio) = e :: l :=
        List.filter_eq_self.mpr fun x hx => by simpa using hbelow x hx
      rw [place, hnone, hall]
      rfl
    · rename_i hge
      rw [ih hl]
      simp [place, not_lt.mp hge]

theorem Descending.place (h : Descending l) (prio : Int) (t : Tid) :
    Descending (place l prio t) := by
  refine List.pairwise_append.mpr ⟨h.filter _, List.pairwise_cons.mpr ⟨?_, h.filter _⟩, ?_⟩
  · intro x hx
    have := List.of_mem_filter hx
    simp only [decide_eq_true_eq] at this
    exact this.le
  · intro x hx y hy
    have hx := List.of_mem_filter hx
    simp only [decide_eq_true_eq] at hx
    rcases List.mem_cons.mp hy with rfl | hy
    · exact hx
    · have hy := List.of_mem_filter hy
      simp only [decide_eq_true_eq] at hy
      exact (hy.trans_le hx).le

theorem delete_eq_without (h : l.members.Nodup) : l.delete t = without l t := by
  induction l with
  | nil => rfl
  | cons e l ih =>
    obtain ⟨hnot, hl⟩ := List.nodup_cons.mp h
    by_cases he : e.1 = t
    · have hself : without l t = l := by
        refine List.filter_eq_self.mpr fun x hx => ?_
        have hne : x.1 ≠ t := by
          intro hxt
          have hmem : x.1 ∈ Pqueue.members l := List.mem_map_of_mem hx
          rw [hxt, ← he] at hmem
          exact hnot hmem
        simpa using hne
      have hcons : without (e :: l) t = without l t := List.filter_cons_of_neg (by simp [he])
      rw [hcons, hself, Pqueue.delete, List.eraseP_cons_of_pos (by simp [he])]
    · have := ih hl
      simpa [Pqueue.delete, without, he] using this

theorem insert_favoritePrio (l : Pqueue) (t : Tid) :
    l.insert l.favoritePrio t = (t, l.favoritePrio) :: l := by
  cases l with
  | nil => rfl
  | cons e l =>
    obtain ⟨u, p⟩ := e
    have hlt : p < Pqueue.favoritePrio ((u, p) :: l) := Int.lt_succ p
    rw [Pqueue.insert, if_pos hlt]

theorem favorite_eq_raise (h : l.members.Nodup) : l.favorite t = raise l t := by
  unfold Pqueue.favorite raise
  rw [delete_eq_without h, insert_favoritePrio]

theorem Descending.raise (h : Descending l) (t : Tid) : Descending (raise l t) := by
  unfold Pq.raise
  split
  · exact h
  · have hw : Descending (without l t) := h.filter _
    refine List.pairwise_cons.mpr ⟨fun x hx => ?_, hw⟩
    cases hl : without l t with
    | nil =>
      rw [hl] at hx
      cases hx
    | cons e =>
      obtain ⟨u, p⟩ := e
      rw [hl] at hx hw
      have hle : x.2 ≤ p := by
        rcases List.mem_cons.mp hx with rfl | hx
        · exact le_rfl
        · exact (List.pairwise_cons.mp hw).1 x hx
      exact hle.trans (Int.le_add_one le_rfl)

theorem Descending.increase (h : Descending l) : Descending (l.map fun e => (e.1, e.2 + 1)) := by
  refine List.pairwise_map.mpr (h.imp fun hab => ?_)
  exact Int.add_le_add_right hab 1

end

/-! ### One operation -/

structure Holds (s : Store ι) (m : ι → Pqueue) : Prop where
  represents : ∀ i, Represents s.links (s.queue i) (m i)
  descending : ∀ i, Descending (m i)
  apart : ∀ i j t, t ∈ (m i).members → t ∈ (m j).members → i = j

def Around (m m' : ι → Pqueue) (a : Int) : Prop := ∃ i, Prio (m i) a ∨ Prio (m' i) a

section
variable {m : ι → Pqueue}

omit [DecidableEq ι] in
theorem holds_init (k : Links) : Holds ⟨k, fun _ : ι => init⟩ fun _ => [] :=
  ⟨fun _ => represents_init k, fun _ => List.Pairwise.nil, fun _ _ _ h => by cases h⟩

/-- An operation on the queue `i`; `ts` are its members and perhaps a thread that is
in no queue. -/
theorem Holds.put (h : Holds s m) (hp : Performs ts S l' s.links r) (hl' : Descending l')
    (hts : ∀ u ∈ ts, u ∈ (m i).members ∨ ∀ j, u ∉ (m j).members) (hsub : ∀ u ∈ l'.members, u ∈ ts) :
    Holds (s.put i r) (update m i l') := by
  have hother : ∀ j, j ≠ i → ∀ u ∈ (m j).members, u ∉ ts := by
    intro j hj u hu hut
    rcases hts u hut with hui | hno
    · exact hj (h.apart j i u hu hui)
    · exact hno j hu
  refine ⟨fun j => ?_, fun j => ?_, fun j j' u hu hu' => ?_⟩
  · by_cases hj : j = i
    · subst hj
      simpa [Store.put] using hp.represents
    · simpa [Store.put, hj] using (h.represents j).frame hp.frame (hother j hj)
  · by_cases hj : j = i
    · subst hj
      simpa using hl'
    · simpa [hj] using h.descending j
  · by_cases hj : j = i <;> by_cases hj' : j' = i
    · rw [hj, hj']
    · subst hj
      simp only [update_self, ne_eq, hj', not_false_eq_true, update_of_ne] at hu hu'
      exact absurd (hsub u hu) (hother j' hj' u hu')
    · subst hj'
      simp only [update_self, ne_eq, hj, not_false_eq_true, update_of_ne] at hu hu'
      exact absurd (hsub u hu') (hother j hj u hu)
    · simp only [ne_eq, hj, hj', not_false_eq_true, update_of_ne] at hu hu'
      exact h.apart j j' u hu hu'

/-- The links follow an operation, and compute priorities and their differences. -/
structure Follows (s : Store ι) (m m' : ι → Pqueue) (s' : Store ι) : Prop where
  holds : Holds s' m'
  int : s'.links.int = s.links.int
  computes : Computes (Around m m') s.links s'.links

theorem Holds.follows (h : Holds s m) (hp : Performs ts S l' s.links r) (hl' : Descending l')
    (hts : ∀ u ∈ ts, u ∈ (m i).members ∨ ∀ j, u ∉ (m j).members) (hsub : ∀ u ∈ l'.members, u ∈ ts)
    (hS : ∀ a, S a → Prio (m i) a ∨ Prio l' a) : Follows s m (update m i l') (s.put i r) := by
  refine ⟨h.put hp hl' hts hsub, hp.frame.int, hp.computes.mono fun a ha => ⟨i, ?_⟩⟩
  rw [update_self]
  exact hS a ha

/-- An operation on the queue `i` computes with the priorities in that one only. -/
theorem Exact.queue (h : Exact k (Around m (update m i l'))) :
    Exact k fun a => Prio (m i) a ∨ Prio l' a :=
  h.mono fun a ha => ⟨i, by rwa [update_self]⟩

theorem mem_place (h : u ∈ (place l prio t).members) :
    u = t ∨ u ∈ l.members := by
  simp only [place, members_append, Pqueue.members_cons, List.mem_append, List.mem_cons] at h
  rcases h with h | h | h
  · exact .inr ((List.filter_sublist.map Prod.fst).subset h)
  · exact .inl h
  · exact .inr ((List.filter_sublist.map Prod.fst).subset h)

theorem Holds.insert (h : Holds s m) (prio : Int) (ht : ∀ j, t ∉ (m j).members)
    (hfuel : (m i).length ≤ fuel)
    (hint : Exact s.links (Around m (update m i (place (m i) prio t)))) :
    ∃ r, Pq.insert fuel s.links (s.queue i) prio t = some r ∧
      Follows s m (update m i (place (m i) prio t)) (s.put i r) := by
  have hnear : ∀ a, Near prio (m i) a → Prio (m i) a ∨ Prio (place (m i) prio t) a := by
    rintro a (rfl | ha)
    · exact .inr (by simp [Prio, place])
    · exact .inl ha
  obtain ⟨r, hr, hp⟩ := performs_insert (h.represents i) (ht i) prio hfuel (hint.queue.mono hnear)
  rw [insert_eq_place (h.descending i)] at hp
  refine ⟨r, hr, h.follows hp ((h.descending i).place prio t) ?_ ?_ hnear⟩
  · intro u hu
    rcases List.mem_cons.mp hu with rfl | hu
    · exact .inr ht
    · exact .inl hu
  · exact fun u hu => List.mem_cons.mpr (mem_place hu)

theorem Holds.delete (h : Holds s m) (ht : t ∈ (m i).members)
    (hint : Exact s.links (Around m (update m i (without (m i) t)))) :
    Follows s m (update m i (without (m i) t)) (s.put i (Pq.delete s.links (s.queue i) t)) := by
  have hp := performs_delete (h.represents i) ht (hint.queue.mono fun _ => .inl)
  rw [delete_eq_without (h.represents i).nodup] at hp
  refine h.follows hp ((h.descending i).filter _) (fun _ => .inl) ?_ fun _ => .inl
  exact fun u hu => (List.filter_sublist.map Prod.fst).subset hu

theorem without_head {l : Pqueue} (h : Pqueue.members ((t, v) :: l)|>.Nodup) :
    without ((t, v) :: l) t = l := by
  have hnil : t ∉ Pqueue.members [] := nofun
  rw [← delete_eq_without h]
  exact delete_append hnil

theorem Holds.delmax (h : Holds s m)
    (hint : Exact s.links (Around m (update m i (m i).tail))) :
    Follows s m (update m i (m i).tail) (s.put i (Pq.delmax s.links (s.queue i)).1) ∧
      (Pq.delmax s.links (s.queue i)).2 = (m i).members.head? := by
  have hrep := h.represents i
  cases hm : m i with
  | nil =>
    rw [hm] at hrep
    rw [delmax_nil hrep]
    have hself : update m i [] = m := by rw [← hm, Function.update_eq_self]
    have hput : s.put i (s.links, s.queue i) = s := by simp [Store.put]
    rw [List.tail_nil, hself, hput]
    exact ⟨⟨h, rfl, .refl⟩, rfl⟩
  | cons e =>
    obtain ⟨t, v⟩ := e
    rw [hm] at hrep
    rw [delmax_cons hrep]
    have htail : (m i).tail = without (m i) t := by rw [hm, without_head hrep.nodup, List.tail_cons]
    rw [htail] at hint
    have hdel := h.delete (by simp [hm]) hint
    rw [hm, without_head hrep.nodup] at hdel
    exact ⟨hdel, rfl⟩

theorem Holds.favorite (h : Holds s m) (ht : t ∈ (m i).members) (hfuel : (m i).length ≤ fuel)
    (hint : Exact s.links (Around m (update m i (raise (m i) t)))) :
    ∃ r, Pq.favorite fuel s.links (s.queue i) t = some (r, true) ∧
      Follows s m (update m i (raise (m i) t)) (s.put i r) := by
  have hexact := hint.queue
  rw [← favorite_eq_raise (h.represents i).nodup] at hexact
  obtain ⟨r, hr, hp⟩ := performs_favorite (h.represents i) ht hfuel hexact
  have hperm := Pqueue.favorite_perm ht
  rw [favorite_eq_raise (h.represents i).nodup] at hp hperm
  refine ⟨r, hr, h.follows hp ((h.descending i).raise t) (fun _ => .inl) ?_ fun _ ha => ha⟩
  exact fun u hu => hperm.mem_iff.mp hu

theorem Holds.increase (h : Holds s m)
    (hint : Exact s.links (Around m (update m i ((m i).map fun e => (e.1, e.2 + 1))))) :
    Follows s m (update m i ((m i).map fun e => (e.1, e.2 + 1)))
      (s.put i (Pq.increase s.links (s.queue i), s.queue i)) := by
  have hp := performs_increase (h.represents i) (hint.queue.mono fun _ => .inr)
  refine h.follows hp (h.descending i).increase (fun _ => .inl) ?_ fun _ => .inr
  intro u (hu : u ∈ (m i).increase.members)
  rwa [Pqueue.members_increase] at hu

theorem Holds.exec (h : Holds s m) (ho : Allowed m o)
    (hfuel : ∀ i, (m i).length ≤ fuel) (hint : Exact s.links (Around m (after m o))) :
    ∃ s', Pq.exec fuel s o = some (s', answer m o) ∧ Follows s m (after m o) s' := by
  cases o with
  | insert i prio =>
    obtain ⟨r, hr, hf⟩ := h.insert prio ho (hfuel i) hint
    exact ⟨s.put i r, by rw [Pq.exec, hr]; rfl, hf⟩
  | delmax =>
    obtain ⟨hf, hhead⟩ := h.delmax hint
    exact ⟨_, by rw [Pq.exec, hhead]; rfl, hf⟩
  | delete => exact ⟨_, rfl, h.delete ho hint⟩
  | favorite i =>
    obtain ⟨r, hr, hf⟩ := h.favorite ho (hfuel i) hint
    exact ⟨s.put i r, by rw [Pq.exec, hr]; rfl, hf⟩
  | increase => exact ⟨_, rfl, h.increase hint⟩
  | walk i =>
    have hrep : Represents s.links (s.queue i) ([] ++ m i) := h.represents i
    have hw := walkFrom_eq hrep (hfuel i)
    rw [← (h.represents i).head] at hw
    exact ⟨s, by rw [Pq.exec, hw]; rfl, h, rfl, .refl⟩
  | contains i t =>
    have hrep : Represents s.links (s.queue i) ([] ++ m i) := h.represents i
    have hc := containsFrom_eq (t := t) hrep (hfuel i)
    rw [← (h.represents i).head] at hc
    exact ⟨s, by rw [Pq.exec, contains, hc]; rfl, h, rfl, .refl⟩

end

/-! ### All operations -/

section
variable {m : ι → Pqueue}

theorem length_place (l : Pqueue) (prio : Int) (t : Tid) :
    (place l prio t).length ≤ l.length + 1 := by
  have hlt : ∀ e : Tid × Int, decide (e.2 < prio) = !decide (prio ≤ e.2) := by
    intro e
    rw [← decide_not]
    exact decide_eq_decide.mpr not_le.symm
  have := List.length_eq_length_filter_add (l := l) fun e => decide (prio ≤ e.2)
  simp only [place, List.length_append, List.length_cons, hlt]
  omega

theorem length_after (o : Op ι) (j : ι) : (after m o j).length ≤ (m j).length + 1 := by
  have hupdate : ∀ (i : ι) (l : Pqueue), l.length ≤ (m i).length + 1 →
      (update m i l j).length ≤ (m j).length + 1 := by
    intro i l hl
    by_cases hj : j = i
    · subst hj
      simpa using hl
    · simp [hj]
  cases o with
  | insert i => exact hupdate i _ (length_place _ _ _)
  | delmax =>
    apply hupdate
    rw [List.length_tail]
    omega
  | delete i => exact hupdate i _ ((List.length_filter_le _ _).trans (Nat.le_succ _))
  | favorite =>
    apply hupdate
    unfold raise
    split
    · exact Nat.le_succ _
    · exact Nat.succ_le_succ (List.length_filter_le _ _)
  | increase =>
    apply hupdate
    rw [List.length_map]
    exact Nat.le_succ _
  | walk | contains => exact Nat.le_succ _

theorem Holds.execAll (h : Holds s m)
    (hint : s.links.int = id) (hops : AllAllowed m ops)
    (hfuel : ∀ i, (m i).length + ops.length ≤ fuel) :
    ∃ s', Pq.execAll fuel s ops = some (s', answers m ops) ∧ Holds s' (afterAll m ops) := by
  induction ops generalizing s m with
  | nil => exact ⟨s, rfl, h⟩
  | cons o ops ih =>
    obtain ⟨s₁, hs₁, hf⟩ := h.exec hops.1 (fun i => (Nat.le_add_right _ _).trans (hfuel i))
      (.of_id hint)
    have hfuel' : ∀ i, (after m o i).length + ops.length ≤ fuel := by
      intro i
      have := hfuel i
      have := length_after (m := m) o i
      rw [List.length_cons] at *
      omega
    obtain ⟨s₂, hs₂, h₂⟩ := ih hf.holds (hf.int.trans hint) hops.2 hfuel'
    refine ⟨s₂, ?_, h₂⟩
    simp only [Pq.execAll, hs₁, hs₂, Option.bind_eq_bind, Option.bind_some]
    rfl

end

theorem pqueue_refines (k : Links) (hk : k.int = id) (ops : List (Op ι))
    (hops : AllAllowed (fun _ => []) ops) (fuel : Nat) (hfuel : ops.length ≤ fuel) :
    ∃ s, execAll fuel ⟨k, fun _ => init⟩ ops = some (s, answers (fun _ => []) ops) ∧
      ∀ i, Represents s.links (s.queue i) (afterAll (fun _ => []) ops i) ∧
        Descending (afterAll (fun _ => []) ops i) := by
  have hlen : ∀ i : ι, ((fun _ => [] : ι → Pqueue) i).length + ops.length ≤ fuel := by
    intro _
    simpa using hfuel
  obtain ⟨s, hs, h⟩ := (holds_init k).execAll hk hops hlen
  exact ⟨s, hs, fun i => ⟨h.represents i, h.descending i⟩⟩

def Links.blank : Links := ⟨fun _ => none, fun _ => none, fun _ => 0, id, []⟩

/-- Three threads in one of two queues; the last one is favoured, taken out and put
into the other one. -/
def turnabout : List (Op Bool) :=
  [.insert false 0 1, .insert false 3 2, .insert false 0 3, .increase false, .walk false,
    .favorite false 3, .delmax false, .insert true 5 3, .contains false 1, .delete false 2]

theorem pqueue_refines_turnabout :
    ∃ s, execAll 10 ⟨.blank, fun _ => init⟩ turnabout =
        some (s, [.done, .done, .done, .done, .visited [2, 1, 3], .found true, .thread (some 3), .done,
          .found true, .done]) ∧
      Represents s.links (s.queue false) [(1, 1)] ∧ Represents s.links (s.queue true) [(3, 5)] := by
  obtain ⟨s, hs, h⟩ := pqueue_refines .blank rfl turnabout (by decide) 10 (by decide)
  exact ⟨s, hs, (h false).1, (h true).1⟩

end GnuPth.Pq
