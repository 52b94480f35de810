import GnuPth.Waitq

/-!
# Thread priority queues

`pth_pqueue_t` keeps its threads in descending order of priority, first come
first served among equals. The C code stores the priorities as differences
along a circular list; here a queue is the list of its threads with their
absolute priorities, head first. Deleting is only meant for a member: what the
list surgery does otherwise is not a matter of one queue, so the callers check
membership first where the source does not.
-/

namespace GnuPth

def prioMax : Int := 5
def prioStd : Int := 0
def prioMin : Int := -5

abbrev Pqueue := List (Tid × Int)

namespace Pqueue

/-- Behind the members of the same or a higher priority. -/
def insert : Pqueue → Int → Tid → Pqueue
  | [], prio, t => [(t, prio)]
  | (u, p) :: q, prio, t => if p < prio then (t, prio) :: (u, p) :: q else (u, p) :: insert q prio t

def delete (q : Pqueue) (t : Tid) : Pqueue := q.eraseP (·.1 = t)

def favoritePrio : Pqueue → Int
  | [] => prioMax
  | (_, p) :: _ => p + 1

def favorite (q : Pqueue) (t : Tid) : Pqueue :=
  if q.length ≤ 1 then q
  else
    let q := q.delete t
    q.insert q.favoritePrio t

def increase (q : Pqueue) : Pqueue := q.map fun (t, p) => (t, p + 1)

def members (q : Pqueue) : List Tid := q.map (·.1)

def contains (q : Pqueue) (t : Tid) : Bool := q.members.contains t

/-! ### Members -/

variable {q : Pqueue}

@[simp] theorem members_nil : members [] = [] := rfl

@[simp] theorem members_cons : members (e :: q) = e.1 :: members q := rfl

theorem contains_iff : q.contains t = true ↔ t ∈ q.members := by
  simp [contains]

theorem insert_perm_cons : (q.insert prio t).Perm ((t, prio) :: q) := by
  induction q with
  | nil => exact List.Perm.refl _
  | cons e q ih =>
    unfold insert
    split
    · exact List.Perm.refl _
    · exact (ih.cons e).trans (List.Perm.swap (t, prio) e q)

theorem insert_perm : (q.insert prio t).members.Perm (t :: q.members) :=
  insert_perm_cons.map Prod.fst

theorem mem_insert : u ∈ (q.insert prio t).members ↔ u = t ∨ u ∈ q.members := by
  rw [insert_perm.mem_iff, List.mem_cons]

theorem members_delete : (q.delete t).members = q.members.erase t := by
  induction q with
  | nil => rfl
  | cons e q ih =>
    by_cases he : e.1 = t
    · simp [delete, he]
    · have hne : (e.1 == t) = false := by simpa using he
      simpa [delete, he, List.erase_cons, hne] using ih

@[simp] theorem members_increase : q.increase.members = q.members := by
  simp [increase, members]

theorem favorite_perm (ht : t ∈ q.members) : (q.favorite t).members.Perm q.members := by
  unfold favorite
  split
  · exact List.Perm.refl _
  · refine insert_perm.trans ?_
    rw [members_delete]
    exact (List.perm_cons_erase ht).symm

end Pqueue

end GnuPth
