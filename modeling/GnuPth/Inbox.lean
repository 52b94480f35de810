import Mathlib.Logic.Relation
import GnuPth.Lib.Runs
import GnuPth.Waitq

/-!
# The wakeup inbox of a scheduler

`g->inbox` is a lock-free stack: any OS thread pushes a `pth_gmsg_t` with a
compare-and-swap loop, and the scheduler takes the whole stack with one
exchange, reverses it in place and processes the messages from the oldest on.

The model has one inbox and any number of OS threads. A load together with the
write of the private `m->next`, a CAS attempt, the pipe write, the exchange and
each turn of the drain's two loops are single steps, so the handler of a
message can be interleaved with pushes of every thread, its own included.
Nodes come from `malloc` and go back to it with `free`, so an address may
return while a poster still compares against it.
-/

namespace GnuPth.Inbox

open Function (update)
open Intrusive
open Placement
open Transition

abbrev OsThread := Nat

/-- The address of a `pth_gmsg_t`. -/
abbrev Node := Nat

/-- The address of an event, as far as a message carries it. -/
abbrev EventAddr := Nat

/-- `PTH_GMSG_*` -/
inductive Kind
  | wake
  | spawn
  | stop
  | reap
  | cancel
  | raise
  | suspend
  | resume
  | favor
  | abort
  deriving DecidableEq, Repr

structure Gmsg where
  kind : Kind
  thread : Option Tid
  event : Option EventAddr
  sig : Int
  deriving DecidableEq, Repr

inductive Call
  | gschedPost (kind : Kind) (t : Option Tid) (ev : Option EventAddr)
  | gschedPostRaise (t : Option Tid) (sig : Int)
  deriving DecidableEq, Repr

def Call.msg : Call → Gmsg
  | .gschedPost kind t ev => { kind, thread := t, event := ev, sig := 0 }
  | .gschedPostRaise t sig => { kind := .raise, thread := t, event := none, sig }

/-- Where an OS thread is in a post. At `ringing i` its CAS has succeeded as
the `i`-th of all and the write to the pipe is still to come. -/
inductive Poster
  | idle
  | ready (m : Node)
  | loaded (m : Node) (head : Option Node)
  | ringing (i : Nat)
  deriving DecidableEq, Repr

def Poster.node : Poster → List Node
  | .ready m | .loaded m _ => [m]
  | .idle | .ringing _ => []

/-- Where the scheduler is in `pth_gsched_drain`. At `handling` the message in
`rev` is being processed and `next` has been read from it. -/
inductive Drain
  | idle
  | reversing (m rev : Option Node)
  | processing (rev : Option Node) (any : Bool)
  | handling (rev : Node) (next : Option Node)
  deriving DecidableEq, Repr

structure State where
  head : Option Node
  next : Node → Option Node
  msg : Node → Gmsg
  allocated : Node → Bool
  -- bytes in the pipe
  sigpipe : Nat
  poster : OsThread → Poster
  drain : Drain
  -- history: the calls of each thread, the successful CAS operations, how many
  -- of their messages the exchanges took, and the messages processed
  posted : OsThread → List Gmsg
  pushed : List (OsThread × Gmsg)
  taken : Nat
  processed : List Gmsg

inductive Act
  | call (p : OsThread) (c : Call) (m : Node)
  | load (p : OsThread)
  | cas (p : OsThread)
  | ring (p : OsThread) (full : Bool)
  | kick
  | read
  | xchg
  | reverse
  | process
  | free
  | leave
  deriving DecidableEq, Repr

/-! ### pth_gsched_post -/

/-- `malloc` returned `m`; the fields of the message are set. -/
def postCall (s : State) (p : OsThread) (c : Call) (m : Node) : Option State :=
  match s.poster p with
  | .idle =>
    if s.allocated m then none
    else some { s with
      allocated := update s.allocated m true
      msg := update s.msg m c.msg
      poster := update s.poster p (.ready m)
      posted := update s.posted p (s.posted p ++ [c.msg]) }
  | _ => none

def postLoad (s : State) (p : OsThread) : Option State :=
  match s.poster p with
  | .ready m => some { s with
      next := update s.next m s.head
      poster := update s.poster p (.loaded m s.head) }
  | _ => none

/-- `own` is the OS thread of the target scheduler: there `g` is
`pth_gsched_active` and the pipe is not written. -/
def postCas (own : OsThread) (s : State) (p : OsThread) : Option State :=
  match s.poster p with
  | .loaded m h =>
    if s.head = h then some { s with
      head := some m
      poster := update s.poster p (if p = own then .idle else .ringing s.pushed.length)
      pushed := s.pushed ++ [(p, s.msg m)] }
    else some { s with poster := update s.poster p (.ready m) }
  | _ => none

/-- The write of one byte. It fails on a full pipe, which is not empty. -/
def postRing (s : State) (p : OsThread) (full : Bool) : Option State :=
  match s.poster p with
  | .ringing _ =>
    if full ∧ s.sigpipe = 0 then none
    else some { s with
      poster := update s.poster p .idle
      sigpipe := if full then s.sigpipe else s.sigpipe + 1 }
  | _ => none

/-! ### pth_gsched_drain -/

def drainXchg (s : State) : Option State :=
  match s.drain with
  | .idle => some { s with
      head := none
      drain := .reversing s.head none
      taken := s.pushed.length }
  | _ => none

def drainReverse (s : State) : Option State :=
  match s.drain with
  | .reversing (some m) rev => some { s with
      next := update s.next m rev
      drain := .reversing (s.next m) (some m) }
  | .reversing none rev => some { s with drain := .processing rev false }
  | _ => none

def drainProcess (s : State) : Option State :=
  match s.drain with
  | .processing (some rev) _ => some { s with
      drain := .handling rev (s.next rev)
      processed := s.processed ++ [s.msg rev] }
  | _ => none

def drainFree (s : State) : Option State :=
  match s.drain with
  | .handling rev next => some { s with
      allocated := update s.allocated rev false
      drain := .processing next true }
  | _ => none

def drainLeave (s : State) : Option State :=
  match s.drain with
  | .processing none _ => some { s with drain := .idle }
  | _ => none

/-! ### The system -/

def exec (own : OsThread) (s : State) : Act → Option State
  | .call p c m => postCall s p c m
  | .load p => postLoad s p
  | .cas p => postCas own s p
  | .ring p full => postRing s p full
  -- a byte without a message: `pth_gsched_kick_others`, or the signal handler
  | .kick => some { s with sigpipe := s.sigpipe + 1 }
  -- one `read` of the event manager into its buffer of 128 bytes
  | .read => some { s with sigpipe := s.sigpipe - min s.sigpipe 128 }
  | .xchg => drainXchg s
  | .reverse => drainReverse s
  | .process => drainProcess s
  | .free => drainFree s
  | .leave => drainLeave s

structure Initial (s : State) : Prop where
  head : s.head = none
  allocated : ∀ m, s.allocated m = false
  poster : ∀ p, s.poster p = .idle
  drain : s.drain = .idle
  sigpipe : s.sigpipe = 0
  posted : ∀ p, s.posted p = []
  pushed : s.pushed = []
  taken : s.taken = 0
  processed : s.processed = []

def system (own : OsThread) : System State Act where
  init := Initial
  step s a s' := exec own s a = some s'

def Act.isDrain : Act → Prop
  | .xchg | .reverse | .process | .free | .leave => True
  | _ => False

/-- The scheduler runs its drain and nobody else moves. -/
def Drains (own : OsThread) (s s' : State) : Prop :=
  ∃ a : Act, a.isDrain ∧ exec own s a = some s'

/-- Following the links from `p` meets nodes with the messages `ms`. -/
def Spells (s : State) (p : Option Node) (ms : List Gmsg) : Prop :=
  ∃ l, Linked s.next l ∧ p = l.head? ∧ l.map s.msg = ms

def pushedBy (pushed : List (OsThread × Gmsg)) (p : OsThread) : List Gmsg :=
  (pushed.filter (·.1 = p)).map (·.2)

/-! ### Where the nodes are -/

/-- The lists an allocated node can be on: the stack, the two lists of the
reversal, or the hands of its poster. -/
inductive Cell
  | inbox
  | taken
  | rev
  | own (p : OsThread)
  deriving DecidableEq

def Drain.taken : Drain → Option Node
  | .reversing m _ => m
  | _ => none

def Drain.rev : Drain → Option Node
  | .idle => none
  | .reversing _ rev | .processing rev _ => rev
  | .handling rev _ => some rev

/-- The first node that is still to be processed once the list is reversed. -/
def Drain.pending : Drain → Option Node
  | .handling _ next => next
  | d => d.rev

def Drain.todo : Drain → List Node → List Node
  | .handling _ _, rev => rev.tail
  | _, rev => rev

structure Shape (s : State) (q : Cell → List Node) : Prop where
  linear : Linear q
  allocated : ∀ c, ∀ m ∈ q c, s.allocated m = true
  linked : Linked s.next (q .inbox) ∧ Linked s.next (q .taken) ∧ Linked s.next (q .rev)
  head : s.head = (q .inbox).head?
  drainTaken : s.drain.taken = (q .taken).head?
  drainRev : s.drain.rev = (q .rev).head?
  next : ∀ m n, s.drain = .handling m n → s.next m = n
  own : ∀ p, q (.own p) = (s.poster p).node
  loaded : ∀ p m h, s.poster p = .loaded m h → s.next m = h
  -- the order of the CAS operations
  order : s.pushed.map (·.2) = s.processed ++
    ((q .taken).reverse ++ s.drain.todo (q .rev)).map s.msg ++ (q .inbox).reverse.map s.msg
  taken : s.pushed.length = s.taken + (q .inbox).length

/-! ### What each step does to the lists -/

variable {own : OsThread}
variable {m : Node}

theorem Shape.notMem (h : Shape s q) (hm : s.allocated m = false) (c : Cell) :
    m ∉ q c := by
  intro hc
  simp [h.allocated c m hc] at hm

theorem Shape.notMem_of_own (h : Shape s q)
    (hm : m ∈ (s.poster p).node) (hc : c ≠ .own p) : m ∉ q c := by
  rw [← h.own p] at hm
  exact h.linear.notMem_of_ne (Ne.symm hc) hm

theorem map_msg_update {l : List Node} (hm : m ∉ l) (f : Node → Gmsg) (x : Gmsg) :
    l.map (update f m x) = l.map f := by
  refine List.map_congr_left fun a ha => ?_
  have hne : a ≠ m := fun he => hm (he ▸ ha)
  simp [hne]

theorem Drain.todo_subset (d : Drain) (l : List Node) : d.todo l ⊆ l := by
  cases d with
  | handling => exact (List.tail_sublist l).subset
  | _ => exact List.Subset.refl l

theorem Shape.call (h : Shape s q)
    (hs : postCall s p c m = some s') : Shape s' (update q (.own p) [m]) := by
  unfold postCall at hs
  split at hs
  case h_2 => cases hs
  case h_1 hp =>
  split at hs
  case isTrue => cases hs
  case isFalse hm =>
  have hfree : ∀ c, m ∉ q c := h.notMem (by simpa using hm)
  cases hs
  refine ⟨?linear, ?allocated, h.linked, h.head, h.drainTaken, h.drainRev, h.next, ?own, ?loaded,
    ?order, h.taken⟩
  case linear =>
    refine h.linear.update_list (by simp) fun x hx => .inr ?_
    obtain rfl : x = m := by simpa using hx
    exact hfree
  case allocated =>
    intro c x hx
    by_cases hxm : x = m
    · simp [hxm]
    · by_cases hc : c = .own p
      · subst hc; simp [hxm] at hx
      · simpa [hxm] using h.allocated c x (by simpa [hc] using hx)
  case own =>
    intro p'
    by_cases hpp : p' = p
    · subst hpp; simp [Poster.node]
    · simp [hpp, h.own p']
  case loaded =>
    intro p' m' h' hl
    by_cases hpp : p' = p
    · subst hpp; simp at hl
    · exact h.loaded p' m' h' (by simpa [hpp] using hl)
  case order =>
    have hb : m ∉ (q .taken).reverse ++ s.drain.todo (q .rev) := by
      simp only [List.mem_append, List.mem_reverse, not_or]
      exact ⟨hfree _, fun hm => hfree _ (Drain.todo_subset _ _ hm)⟩
    have hi : m ∉ (q .inbox).reverse := by simpa using hfree .inbox
    change s.pushed.map _ = s.processed ++
      ((q .taken).reverse ++ s.drain.todo (q .rev)).map (update s.msg m c.msg) ++
      (q .inbox).reverse.map (update s.msg m c.msg)
    rw [map_msg_update hb, map_msg_update hi]
    exact h.order

theorem Shape.load (h : Shape s q) (hs : postLoad s p = some s') : Shape s' q := by
  unfold postLoad at hs
  split at hs
  case h_2 => cases hs
  case h_1 m hp =>
  cases hs
  have hm : m ∈ (s.poster p).node := by simp [hp, Poster.node]
  -- only the private link of `m` is written
  have hout : ∀ c, c ≠ .own p → ∀ x ∈ q c, update s.next m s.head x = s.next x := by
    intro c hc x hx
    have hne : x ≠ m := fun he => h.notMem_of_own hm hc (he ▸ hx)
    simp [hne]
  obtain ⟨hi, ht, hr⟩ := h.linked
  refine ⟨h.linear, h.allocated, ⟨?_, ?_, ?_⟩, h.head, h.drainTaken, h.drainRev, ?next, ?own, ?loaded,
    h.order, h.taken⟩
  · exact hi.congr (hout .inbox (by simp))
  · exact ht.congr (hout .taken (by simp))
  · exact hr.congr (hout .rev (by simp))
  case next =>
    intro a n hd
    have ha : a ∈ q .rev := List.mem_of_mem_head? (by
      rw [← h.drainRev]
      simpa [Drain.rev] using congrArg Drain.rev hd)
    exact (hout .rev (by simp) a ha).trans (h.next a n hd)
  case own =>
    intro p'
    by_cases hpp : p' = p
    · subst hpp; simp [Poster.node, h.own, hp]
    · simp [hpp, h.own p']
  case loaded =>
    intro p' m' h' hl
    by_cases hpp : p' = p
    · subst hpp
      obtain ⟨rfl, rfl⟩ : m = m' ∧ s.head = h' := by simpa using hl
      simp
    · have hl' : s.poster p' = .loaded m' h' := by simpa [hpp] using hl
      have hm' : m' ∈ q (.own p') := by rw [h.own]; simp [hl', Poster.node]
      exact (hout (.own p') (by simpa using hpp) m' hm').trans (h.loaded p' m' h' hl')

theorem Shape.advance (h : Shape s q)
    (hn : x.node = (s.poster p).node) (hl : ∀ m h, x = .loaded m h → s.next m = h) :
    Shape { s with poster := update s.poster p x, sigpipe := n } q := by
  refine ⟨h.linear, h.allocated, h.linked, h.head, h.drainTaken, h.drainRev, h.next, ?own, ?loaded,
    h.order, h.taken⟩
  case own =>
    intro p'
    by_cases hpp : p' = p
    · subst hpp; simpa [hn] using h.own p'
    · simp [hpp, h.own p']
  case loaded =>
    intro p' m' h' hl'
    by_cases hpp : p' = p
    · subst hpp; exact hl m' h' (by simpa using hl')
    · exact h.loaded p' m' h' (by simpa [hpp] using hl')

/-- A successful CAS: the head is still the one that was loaded, whatever
happened to the stack in between. -/
theorem Shape.push (h : Shape s q) (hp : s.poster p = .loaded m s.head) (hx : x.node = []) :
    Shape { s with
        head := some m
        poster := update s.poster p x
        pushed := s.pushed ++ [(p, s.msg m)] }
      (update (update q (.own p) []) .inbox (m :: q .inbox)) := by
  have hown : q (.own p) = [m] := by rw [h.own, hp]; rfl
  obtain ⟨hi, ht, hr⟩ := h.linked
  refine ⟨h.linear.shift hown (by simp), ?allocated, ⟨⟨?link, hi⟩, ht, hr⟩, rfl, h.drainTaken, h.drainRev,
    h.next, ?own, ?loaded, ?order, ?taken⟩
  case link => exact (h.loaded p m s.head hp).trans h.head
  case allocated =>
    intro c a ha
    by_cases hc : c = .inbox
    · subst hc
      rcases List.mem_cons.mp (by simpa using ha) with rfl | ha
      · exact h.allocated (.own p) a (by simp [hown])
      · exact h.allocated _ a ha
    · by_cases hc' : c = .own p
      · subst hc'; simp at ha
      · exact h.allocated c a (by simpa [hc, hc'] using ha)
  case own =>
    intro p'
    by_cases hpp : p' = p
    · subst hpp; simp [hx]
    · simp [hpp, h.own p']
  case loaded =>
    intro p' m' h' hl
    by_cases hpp : p' = p
    · subst hpp
      obtain rfl : x = .loaded m' h' := by simpa using hl
      cases hx
    · exact h.loaded p' m' h' (by simpa [hpp] using hl)
  case order =>
    have ho := h.order
    simp only [List.map_append, ho, Function.update_self,
      List.reverse_cons, List.append_assoc]
    rfl
  case taken =>
    simp [h.taken, Nat.add_assoc]

theorem Shape.cas (h : Shape s q) (hs : postCas own s p = some s') :
    ∃ q', Shape s' q' := by
  unfold postCas at hs
  split at hs
  case h_2 => cases hs
  case h_1 m hd hp =>
  split at hs
  case isTrue heq =>
    subst heq
    cases hs
    refine ⟨_, h.push hp ?_⟩
    split <;> rfl
  case isFalse =>
    cases hs
    exact ⟨q, h.advance (by simp [hp, Poster.node]) (by simp)⟩

theorem Shape.ring (h : Shape s q)
    (hs : postRing s p full = some s') : Shape s' q := by
  unfold postRing at hs
  split at hs
  case h_2 => cases hs
  case h_1 i hp =>
  split at hs
  case isTrue => cases hs
  case isFalse =>
    cases hs
    exact h.advance (by simp [hp, Poster.node]) (by simp)

theorem Shape.taken_nil (h : Shape s q) (hd : s.drain.taken = none) : q .taken = [] :=
  List.head?_eq_none_iff.mp (h.drainTaken.symm.trans hd)

theorem Shape.rev_nil (h : Shape s q) (hd : s.drain.rev = none) : q .rev = [] :=
  List.head?_eq_none_iff.mp (h.drainRev.symm.trans hd)

theorem Shape.rev_cons (h : Shape s q) (hd : s.drain.rev = some m) :
    ∃ ms, q .rev = m :: ms ∧ s.next m = ms.head? ∧ Linked s.next ms := by
  obtain ⟨ms, hr⟩ := List.head?_eq_some_iff.mp (h.drainRev.symm.trans hd)
  obtain ⟨hm, hms⟩ : Linked s.next (m :: ms) := hr ▸ h.linked.2.2
  exact ⟨ms, hr, hm, hms⟩

theorem Shape.xchg (h : Shape s q) (hd : s.drain = .idle) :
    Shape { s with head := none, drain := .reversing s.head none, taken := s.pushed.length }
      (update (update q .inbox []) .taken (q .inbox)) := by
  have ht : q .taken = [] := h.taken_nil (by simp [hd, Drain.taken])
  have hr : q .rev = [] := h.rev_nil (by simp [hd, Drain.rev])
  refine ⟨h.linear.transfer (List.Perm.refl _), ?allocated, ⟨trivial, h.linked.1, h.linked.2.2⟩, rfl,
    h.head, ?rev, by simp, h.own, h.loaded, ?order, by simp⟩
  case allocated =>
    intro c m hm
    by_cases hc : c = .taken
    · subst hc; exact h.allocated .inbox m (by simpa using hm)
    · by_cases hc' : c = .inbox
      · subst hc'; simp at hm
      · exact h.allocated c m (by simpa [hc, hc'] using hm)
  case rev => simp [Drain.rev, hr]
  case order =>
    have ho := h.order
    simp only [hd, ht] at ho
    simp [ho, Drain.todo, hr]

theorem Shape.reverse (h : Shape s q)
    (hd : s.drain = .reversing (some m) rev) (hm : q .taken = m :: ms) :
    Shape { s with next := update s.next m rev, drain := .reversing (s.next m) (some m) }
      (update (update q .taken ms) .rev (m :: q .rev)) := by
  have hmt : m ∈ q .taken := by simp [hm]
  have hout : ∀ {c}, c ≠ .taken → m ∉ q c := fun hc => h.linear.notMem_of_ne (Ne.symm hc) hmt
  obtain ⟨hi, ht, hr⟩ := h.linked
  rw [hm] at ht
  have hmms : m ∉ ms := by
    have := h.linear.nodup .taken
    rw [hm] at this
    exact (List.nodup_cons.mp this).1
  have hrev : rev = (q .rev).head? := by
    rw [← h.drainRev, hd]
    rfl
  subst hrev
  have hlinked : Linked (update s.next m (q .rev).head?) (q .inbox) ∧
      Linked (update s.next m (q .rev).head?) ms ∧
      Linked (update s.next m (q .rev).head?) (m :: q .rev) :=
    ⟨hi.update_of_notMem (hout (by simp)) _, ht.2.update_of_notMem hmms _, hr.push (hout (by simp))⟩
  refine ⟨h.linear.shift hm (by simp), ?allocated, hlinked, h.head, ht.1, rfl, by simp, h.own,
    ?loaded, ?order, h.taken⟩
  case allocated =>
    intro c a ha
    by_cases hc : c = .rev
    · subst hc
      rcases List.mem_cons.mp (by simpa using ha) with rfl | ha
      · exact h.allocated _ a hmt
      · exact h.allocated _ a ha
    · by_cases hc' : c = .taken
      · subst hc'
        exact h.allocated .taken a (by rw [hm]; exact List.mem_cons_of_mem _ (by simpa using ha))
      · exact h.allocated c a (by simpa [hc, hc'] using ha)
  case loaded =>
    intro p m' h' (hl : s.poster p = .loaded m' h')
    have hm' : m' ∈ q (.own p) := by rw [h.own, hl]; simp [Poster.node]
    have hne : m' ≠ m := fun he => hout (by simp) (he ▸ hm')
    simpa [hne] using h.loaded p m' h' hl
  case order =>
    have ho := h.order
    simp only [hd, hm] at ho
    simpa [Drain.todo] using ho

theorem Shape.proceed (h : Shape s q) (ht : d.taken = s.drain.taken)
    (hr : d.rev = s.drain.rev) (hn : ∀ m n, d ≠ .handling m n)
    (ho : s.drain.todo (q .rev) = q .rev) : Shape { s with drain := d } q := by
  have hd : d.todo (q .rev) = q .rev := by
    cases d with
    | handling m n => exact absurd rfl (hn m n)
    | _ => rfl
  refine ⟨h.linear, h.allocated, h.linked, h.head, ht.trans h.drainTaken, hr.trans h.drainRev,
    fun m n hm => absurd hm (hn m n), h.own, h.loaded, ?_, h.taken⟩
  simpa only [hd, ho] using h.order

theorem Shape.process (h : Shape s q) (hd : s.drain = .processing (some m) any) :
    Shape { s with
      drain := .handling m (s.next m)
      processed := s.processed ++ [s.msg m] } q := by
  have ht : q .taken = [] := h.taken_nil (by simp [hd, Drain.taken])
  obtain ⟨ms, hr, -, -⟩ := h.rev_cons (m := m) (by simp [hd, Drain.rev])
  refine ⟨h.linear, h.allocated, h.linked, h.head, by simp [ht, Drain.taken], by simp [hr, Drain.rev],
    ?next, h.own, h.loaded, ?order, h.taken⟩
  case next => simp
  case order =>
    have ho := h.order
    simp only [hd] at ho
    simp [ho, ht, hr, Drain.todo]

theorem Shape.free (h : Shape s q)
    (hd : s.drain = .handling m n) (hr : q .rev = m :: ms) (hm : s.next m = ms.head?) :
    Shape { s with
      allocated := update s.allocated m false
      drain := .processing n true } (update q .rev ms) := by
  have ht : q .taken = [] := h.taken_nil (by simp [hd, Drain.taken])
  have hmms : m ∉ ms := by
    have := h.linear.nodup .rev
    rw [hr] at this
    exact (List.nodup_cons.mp this).1
  obtain ⟨hi, hlt, hlr⟩ := h.linked
  rw [hr] at hlr
  refine ⟨h.linear.sublist (by simp [hr]), ?allocated, ⟨hi, hlt, hlr.2⟩, h.head, by simp [ht, Drain.taken],
    ?rev, by simp, h.own, h.loaded, ?order, h.taken⟩
  case allocated =>
    intro c a ha
    have hne : a ≠ m := fun he => h.linear.free_of_dropped (by simp [hr]) hmms c (he ▸ ha)
    have hac : a ∈ q c := by
      by_cases hc : c = .rev
      · subst hc; rw [hr]; exact List.mem_cons_of_mem _ (by simpa using ha)
      · simpa [hc] using ha
    simpa [hne] using h.allocated c a hac
  case rev => exact (h.next m n hd).symm.trans hm
  case order =>
    have ho := h.order
    simp only [hd, hr] at ho
    simpa [Drain.todo] using ho

/-! ### Every reachable state -/

theorem Shape.step (h : Shape s q) (hs : exec own s a = some s') : ∃ q', Shape s' q' := by
  cases a with
  | call => exact ⟨_, h.call hs⟩
  | load => exact ⟨_, h.load hs⟩
  | cas => exact h.cas hs
  | ring => exact ⟨_, h.ring hs⟩
  | kick | read =>
    cases hs
    exact ⟨q, h.linear, h.allocated, h.linked, h.head, h.drainTaken, h.drainRev, h.next, h.own, h.loaded,
      h.order, h.taken⟩
  | xchg =>
    simp only [exec, drainXchg] at hs
    split at hs
    case h_1 hd => cases hs; exact ⟨_, h.xchg hd⟩
    case h_2 => cases hs
  | reverse =>
    simp only [exec, drainReverse] at hs
    split at hs
    case h_1 m rev hd =>
      cases hs
      have ht : s.drain.taken = some m := by simp [hd, Drain.taken]
      obtain ⟨ms, hm⟩ := List.head?_eq_some_iff.mp (h.drainTaken.symm.trans ht)
      exact ⟨_, h.reverse hd hm⟩
    case h_2 rev hd =>
      cases hs
      exact ⟨q, h.proceed (by simp [hd, Drain.taken]) (by simp [hd, Drain.rev]) (by simp)
        (by simp [hd, Drain.todo])⟩
    case h_3 => cases hs
  | process =>
    simp only [exec, drainProcess] at hs
    split at hs
    case h_1 m any hd => cases hs; exact ⟨q, h.process hd⟩
    case h_2 => cases hs
  | free =>
    simp only [exec, drainFree] at hs
    split at hs
    case h_1 m n hd =>
      cases hs
      obtain ⟨ms, hr, hm, -⟩ := h.rev_cons (m := m) (by simp [hd, Drain.rev])
      exact ⟨_, h.free hd hr hm⟩
    case h_2 => cases hs
  | leave =>
    simp only [exec, drainLeave] at hs
    split at hs
    case h_1 any hd =>
      cases hs
      exact ⟨q, h.proceed (by simp [hd, Drain.taken]) (by simp [hd, Drain.rev]) (by simp)
        (by simp [hd, Drain.todo])⟩
    case h_2 => cases hs

theorem Initial.shape (h : Initial s) : Shape s fun _ => [] := by
  refine ⟨⟨by simp, by simp⟩, by simp, by simp, by simp [h.head], by simp [h.drain, Drain.taken],
    by simp [h.drain, Drain.rev], by simp [h.drain], ?_, by simp [h.poster], ?_, ?_⟩
  · intro p; simp [h.poster p, Poster.node]
  · simp [h.pushed, h.processed, h.drain, Drain.todo]
  · simp [h.pushed, h.taken]

theorem shape_of_reachable (h : Reachable (system own) s) : ∃ q, Shape s q := by
  refine h.invariant (I := fun s => ∃ q, Shape s q) ?_ ?_
  · intro s hi
    exact ⟨_, Initial.shape hi⟩
  · rintro s a s' ⟨q, hq⟩ hs
    exact hq.step hs

/-- Each thread posts one message after the other: what it has pushed, and the
message it is working on, are its calls in order. -/
def InOrder (s : State) : Prop :=
  ∀ p, pushedBy s.pushed p ++ (s.poster p).node.map s.msg = s.posted p

theorem InOrder.advance (h : InOrder s) (hx : x.node = (s.poster p).node) :
    pushedBy s.pushed p' ++ (update s.poster p x p').node.map s.msg = s.posted p' := by
  by_cases hp : p' = p
  · subst hp; simpa [hx] using h p'
  · simpa [hp] using h p'

theorem InOrder.call (h : InOrder s) (hq : Shape s q)
    (hs : postCall s p c m = some s') : InOrder s' := by
  unfold postCall at hs
  split at hs
  case h_2 => cases hs
  case h_1 hp =>
  split at hs
  case isTrue => cases hs
  case isFalse hm =>
  cases hs
  intro p'
  by_cases hpp : p' = p
  · subst hpp
    have hp' : pushedBy s.pushed p' = s.posted p' := by simpa [hp, Poster.node] using h p'
    simp [Poster.node, hp']
  · have hout : m ∉ (s.poster p').node := by
      rw [← hq.own p']
      exact hq.notMem (by simpa using hm) _
    simpa [hpp, map_msg_update hout] using h p'

theorem InOrder.cas (h : InOrder s) (hs : postCas own s p = some s') : InOrder s' := by
  unfold postCas at hs
  split at hs
  case h_2 => cases hs
  case h_1 m hd hp =>
  split at hs
  case isFalse =>
    cases hs
    intro p'
    exact h.advance (by simp [hp, Poster.node])
  case isTrue =>
  cases hs
  intro p'
  by_cases hpp : p' = p
  · subst hpp
    have hx : (if p' = own then Poster.idle else .ringing s.pushed.length).node = [] := by
      split <;> rfl
    have hp' := h p'
    simp only [hp, Poster.node] at hp'
    simpa [pushedBy, hx] using hp'
  · simpa [pushedBy, hpp, Ne.symm hpp] using h p'

theorem InOrder.step (h : InOrder s) (hq : Shape s q) (hs : exec own s a = some s') :
    InOrder s' := by
  cases a with
  | call => exact h.call hq hs
  | cas => exact h.cas hs
  | load =>
    simp only [exec, postLoad] at hs
    split at hs
    case h_1 m hp =>
      cases hs
      intro p'
      exact h.advance (by simp [hp, Poster.node])
    case h_2 => cases hs
  | ring =>
    simp only [exec, postRing] at hs
    split at hs
    case h_1 i hp =>
      split at hs
      case isTrue => cases hs
      case isFalse =>
        cases hs
        intro p'
        exact h.advance (by simp [hp, Poster.node])
    case h_2 => cases hs
  | kick | read => cases hs; exact h
  | xchg =>
    simp only [exec, drainXchg] at hs
    split at hs <;> cases hs
    exact h
  | reverse =>
    simp only [exec, drainReverse] at hs
    split at hs <;> cases hs <;> exact h
  | process =>
    simp only [exec, drainProcess] at hs
    split at hs <;> cases hs
    exact h
  | free =>
    simp only [exec, drainFree] at hs
    split at hs <;> cases hs
    exact h
  | leave =>
    simp only [exec, drainLeave] at hs
    split at hs <;> cases hs
    exact h

theorem inOrder_of_reachable (h : Reachable (system own) s) : InOrder s := by
  refine h.invariant_of_reachable ?_ ?_
  · intro s hi p
    simp [hi.poster, hi.posted, hi.pushed, pushedBy, Poster.node]
  · intro s a s' hr hs ha
    obtain ⟨q, hq⟩ := shape_of_reachable hr
    exact hs.step hq ha

/-! ### The drain comes to its end -/

theorem exec_xchg (hd : s.drain = .idle) : exec own s .xchg = some { s with
    head := none, drain := .reversing s.head none, taken := s.pushed.length } := by
  simp [exec, drainXchg, hd]

theorem exec_reverse (hd : s.drain = .reversing (some m) rev) :
    exec own s .reverse = some { s with
      next := update s.next m rev, drain := .reversing (s.next m) (some m) } := by
  simp [exec, drainReverse, hd]

theorem exec_process (hd : s.drain = .processing (some m) any) :
    exec own s .process = some { s with
      drain := .handling m (s.next m), processed := s.processed ++ [s.msg m] } := by
  simp [exec, drainProcess, hd]

theorem exec_free (hd : s.drain = .handling m n) :
    exec own s .free = some { s with
      allocated := update s.allocated m false, drain := .processing n true } := by
  simp [exec, drainFree, hd]

structure Completes (own : OsThread) (s s' : State) : Prop where
  steps : Relation.ReflTransGen (Drains own) s s'
  idle : s'.drain = .idle
  head : s'.head = s.head
  pushed : s'.pushed = s.pushed
  shape : ∃ q, Shape s' q

theorem Completes.cons (ha : a.isDrain)
    (hs : exec own s₁ a = some s₂) (hh : s₂.head = s₁.head) (hp : s₂.pushed = s₁.pushed)
    (h : Completes own s₂ s₃) : Completes own s₁ s₃ where
  steps := .head ⟨a, ha, hs⟩ h.steps
  idle := h.idle
  head := h.head.trans hh
  pushed := h.pushed.trans hp
  shape := h.shape

theorem Shape.completes_of_processing (own : OsThread) (h : Shape s q)
    (hd : s.drain = .processing r any) : ∃ s', Completes own s s' := by
  have hr : r = (q .rev).head? := by
    rw [← h.drainRev, hd]
    rfl
  generalize hms : q .rev = ms at hr
  -- each turn of the loop takes one node off the reversed list
  induction ms generalizing s q r any with
  | nil =>
    subst hr
    have hl : exec own s .leave = some { s with drain := .idle } := by simp [exec, drainLeave, hd]
    obtain ⟨q', hq'⟩ := h.step hl
    exact ⟨_, .single ⟨.leave, trivial, hl⟩, rfl, rfl, rfl, q', hq'⟩
  | cons m ms ih =>
    subst hr
    have hm : s.next m = ms.head? := (hms ▸ h.linked.2.2 : Linked s.next (m :: ms)).1
    obtain ⟨s', hs'⟩ := ih ((h.process hd).free rfl hms hm) rfl (by simp) hm
    exact ⟨s', .cons (a := .process) trivial (exec_process hd) rfl rfl
      (.cons (a := .free) trivial (exec_free rfl) rfl rfl hs')⟩

theorem Shape.completes_of_reversing (own : OsThread) (h : Shape s q) {m : Option Node}
    (hd : s.drain = .reversing m rev) : ∃ s', Completes own s s' := by
  have hm : m = (q .taken).head? := by
    rw [← h.drainTaken, hd]
    rfl
  generalize hms : q .taken = ms at hm
  induction ms generalizing s q m rev with
  | nil =>
    subst hm
    have hr : exec own s .reverse = some { s with drain := .processing rev false } := by
      simp [exec, drainReverse, hd]
    obtain ⟨q', hq'⟩ := h.step hr
    obtain ⟨s', hs'⟩ := hq'.completes_of_processing own rfl
    exact ⟨s', .cons (a := .reverse) trivial hr rfl rfl hs'⟩
  | cons a ms ih =>
    subst hm
    have hl : s.next a = ms.head? := (hms ▸ h.linked.2.1 : Linked s.next (a :: ms)).1
    obtain ⟨s', hs'⟩ := ih (h.reverse hd hms) rfl (by simp) hl
    exact ⟨s', .cons (a := .reverse) trivial (exec_reverse hd) rfl rfl hs'⟩

theorem Shape.completes (own : OsThread) (h : Shape s q) : ∃ s', Completes own s s' := by
  cases hd : s.drain with
  | idle => exact ⟨s, .refl, hd, rfl, rfl, q, h⟩
  | reversing => exact h.completes_of_reversing own hd
  | processing => exact h.completes_of_processing own hd
  | handling =>
    obtain ⟨q', hq'⟩ := h.step (exec_free hd : exec own s .free = some _)
    obtain ⟨s', hs'⟩ := hq'.completes_of_processing own rfl
    exact ⟨s', .cons (a := .free) trivial (exec_free hd) rfl rfl hs'⟩

theorem Shape.delivers (own : OsThread) (h : Shape s q) :
    ∃ s', Relation.ReflTransGen (Drains own) s s' ∧ s'.drain = .idle ∧
      s'.processed = s.pushed.map (·.2) := by
  obtain ⟨s₁, h₁⟩ := h.completes own
  obtain ⟨q₁, hq₁⟩ := h₁.shape
  obtain ⟨s₃, h₃⟩ := (hq₁.xchg h₁.idle).completes own
  obtain ⟨q₃, hq₃⟩ := h₃.shape
  refine ⟨s₃, h₁.steps.trans (.head ⟨.xchg, trivial, exec_xchg h₁.idle⟩ h₃.steps), h₃.idle, ?_⟩
  have ht : q₃ .taken = [] := hq₃.taken_nil (by simp [h₃.idle, Drain.taken])
  have hr : q₃ .rev = [] := hq₃.rev_nil (by simp [h₃.idle, Drain.rev])
  have hi : q₃ .inbox = [] := List.head?_eq_none_iff.mp (hq₃.head.symm.trans h₃.head)
  have ho := hq₃.order
  simp only [ht, hr, hi, h₃.idle, Drain.todo, List.reverse_nil, List.append_nil, List.map_nil] at ho
  rw [← ho, h₃.pushed]
  exact congrArg _ h₁.pushed

/-- What each processed message was: the `n`-th one is that of the `n`-th CAS. -/
theorem Shape.processed_eq (h : Shape s q) :
    s.processed = (s.pushed.take s.processed.length).map (·.2) := by
  rw [List.map_take, h.order, List.append_assoc, List.take_left]

theorem Shape.spells (h : Shape s q) :
    ∃ batch waiting, s.pushed.map (·.2) = s.processed ++ batch ++ waiting ∧
      Spells s s.head waiting.reverse ∧
      ∃ l r, batch = l.reverse ++ r ∧ Spells s s.drain.taken l ∧ Spells s s.drain.pending r := by
  refine ⟨_, _, h.order, ⟨q .inbox, h.linked.1, h.head, by simp⟩, (q .taken).map s.msg,
    (s.drain.todo (q .rev)).map s.msg, by simp, ⟨q .taken, h.linked.2.1, h.drainTaken, rfl⟩,
    s.drain.todo (q .rev), ?_, ?_, rfl⟩
  · cases hd : s.drain with
    | handling => exact h.linked.2.2.tail
    | _ => exact h.linked.2.2
  · cases hd : s.drain with
    | handling m n =>
      obtain ⟨ms, hr, hm, -⟩ := h.rev_cons (m := m) (by simp [hd, Drain.rev])
      simpa [Drain.pending, Drain.todo, hr] using (h.next m n hd).symm.trans hm
    | _ =>
      have hr := h.drainRev
      rw [hd] at hr
      exact hr

/-- The messages on the stack are those of the CAS operations since the last
exchange. -/
theorem Shape.spells_head (h : Shape s q) :
    Spells s s.head ((s.pushed.drop s.taken).map (·.2)).reverse := by
  refine ⟨q .inbox, h.linked.1, h.head, ?_⟩
  have ho := h.order
  have hl := congrArg List.length ho
  simp only [List.length_map, List.length_append, List.length_reverse, h.taken] at hl
  have hd := congrArg (List.drop s.taken) ho
  rw [← List.map_drop, List.drop_left' (by simp; omega)] at hd
  rw [hd, ← List.map_reverse, List.reverse_reverse]

theorem pushedBy_take (pushed : List (OsThread × Gmsg)) (n : Nat) (p : OsThread) :
    pushedBy (pushed.take n) p <+: pushedBy pushed p :=
  ((List.take_prefix n pushed).filter _).map _

def State.empty : State where
  head := none
  next := fun _ => none
  msg := fun _ => (Call.gschedPost .wake none none).msg
  allocated := fun _ => false
  sigpipe := 0
  poster := fun _ => .idle
  drain := .idle
  posted := fun _ => []
  pushed := []
  taken := 0
  processed := []

theorem State.empty_initial : Initial State.empty := by
  constructor <;> simp [State.empty]

theorem reachable_of_acts {acts : List Act} (hs : acts.foldlM (exec own) .empty = some s) :
    Reachable (system own) s :=
  .of_foldlM (fun _ _ _ ha => ha) (.init State.empty_initial) hs

/-- Two threads push and a CAS fails in between; the node of the first message
is freed and used again for the third. -/
def spawnThenCancel : List Act :=
  [.call 1 (.gschedPost .spawn (some 7) none) 10, .load 1, .call 2 (.gschedPost .wake (some 5) (some 3)) 11,
    .load 2, .cas 1, .cas 2, .xchg, .reverse, .reverse, .process, .free, .ring 1 false,
    .call 1 (.gschedPost .cancel (some 7) none) 10, .load 1, .load 2, .cas 1, .cas 2, .load 2, .cas 2,
    .leave, .xchg, .reverse, .reverse, .reverse, .process]

end GnuPth.Inbox
