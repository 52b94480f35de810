import Mathlib.Data.Finset.SDiff
import Mathlib.Data.List.Forall2

/-!
# The signal mask and fork

`pth_sigmask` changes the mask of the process twice when a set is given: first by
the mask that is remembered in the thread's context, then by the set.

`pth_fork` runs handlers from a table before and after the fork. An entry of
`pthread_atfork` holds wrappers, which find the application's functions in a table
of their own.
-/

namespace GnuPth.Process

/-! ### pth_sigmask -/

abbrev Sigset := Finset Nat

/-- `SIG_BLOCK`, `SIG_UNBLOCK` and `SIG_SETMASK`. -/
inductive How
  | block
  | unblock
  | setmask
  deriving DecidableEq, Repr

structure SigCall where
  how : How
  set : Option Sigset
  deriving DecidableEq

section

-- the signals that cannot be blocked, and the mask that the thread remembers
variable (fixed sigs : Sigset)

def How.apply (mask set : Sigset) : How → Sigset
  | .block => mask ∪ (set \ fixed)
  | .unblock => mask \ set
  | .setmask => set \ fixed

/-- The mask in force after the call, and the one reported. -/
def sigprocmask (c : SigCall) (mask : Sigset) : Sigset × Sigset :=
  match c.set with
  | none => (mask, mask)
  | some set => (c.how.apply fixed mask set, mask)

def sigmask (c : SigCall) (mask : Sigset) : Sigset × Sigset :=
  if c.set.isSome then sigprocmask fixed c (sigprocmask fixed ⟨c.how, some sigs⟩ mask).1
  else sigprocmask fixed c mask

/-- What every call of a sequence leaves behind and reports. -/
def masks (call : SigCall → Sigset → Sigset × Sigset) :
    Sigset → List SigCall → List (Sigset × Sigset)
  | _, [] => []
  | mask, c :: cs => call c mask :: masks call (call c mask).1 cs

/-- The remembered mask has no effect of its own. -/
def How.Inert (mask : Sigset) : How → Prop
  | .block => sigs \ fixed ⊆ mask
  | .unblock => Disjoint mask sigs
  | .setmask => sigs \ fixed = mask

/-- The remembered mask has no effect in any call, where every call works on what the
single operations before it have left. -/
def AllInert : Sigset → List SigCall → Prop
  | _, [] => True
  | mask, c :: cs =>
    (c.set.isSome = true → c.how.Inert fixed sigs mask) ∧ AllInert (sigprocmask fixed c mask).1 cs

theorem apply_eq_self_iff (how : How) (mask : Sigset) :
    how.apply fixed mask sigs = mask ↔ how.Inert fixed sigs mask := by
  cases how with
  | block => exact Finset.union_eq_left
  | unblock => exact Finset.sdiff_eq_self_iff_disjoint
  | setmask => exact Iff.rfl

theorem sigmask_eq_iff (c : SigCall) (mask : Sigset) :
    sigmask fixed sigs c mask = sigprocmask fixed c mask ↔
      (c.set.isSome = true → c.how.Inert fixed sigs mask) := by
  obtain ⟨how, _ | set⟩ := c
  · simp [sigmask]
  · rw [← apply_eq_self_iff]
    constructor
    · intro h _
      exact congrArg Prod.snd h
    · intro h
      simp [sigmask, sigprocmask, h rfl]

/-- The calls of a thread give the masks of the single operations in sequence exactly
if the remembered mask has no effect in any of them. -/
theorem sigmask_composes_iff (mask : Sigset) (cs : List SigCall) :
    masks (sigmask fixed sigs) mask cs = masks (sigprocmask fixed) mask cs ↔
      AllInert fixed sigs mask cs := by
  induction cs generalizing mask with
  | nil => simp [masks, AllInert]
  | cons c cs ih =>
    rw [masks, masks, AllInert, List.cons.injEq, sigmask_eq_iff]
    refine and_congr_right fun h => ?_
    rw [(sigmask_eq_iff fixed sigs c mask).mpr h]
    exact ih _

end

/-- A thread remembers the mask it started with. After it has blocked signal 3, to
unblock signal 4 unblocks signal 1 as well; and the second of two calls that set
the mask reports the remembered one. -/
theorem sigmask_diverges :
    masks (sigmask ∅ {1}) {1} [⟨.block, some {3}⟩, ⟨.unblock, some {4}⟩] =
        [({1, 3}, {1}), ({3}, {3})] ∧
      masks (sigprocmask ∅) {1} [⟨.block, some {3}⟩, ⟨.unblock, some {4}⟩] =
        [({1, 3}, {1}), ({1, 3}, {1, 3})] ∧
      masks (sigmask ∅ {1}) {1} [⟨.setmask, some {2}⟩, ⟨.setmask, some {3}⟩] =
        [({2}, {1}), ({3}, {1})] ∧
      masks (sigprocmask ∅) {1} [⟨.setmask, some {2}⟩, ⟨.setmask, some {3}⟩] =
        [({2}, {1}), ({3}, {2})] := by
  decide

/-! ### pth_atfork_push, pth_atfork_pop, pthread_atfork -/

def atforkMax : Nat := 128

inductive Phase
  | prepare
  | parent
  | child
  deriving DecidableEq, Repr

/-- A function of the application; `none` is `NULL`. -/
abbrev Fn := Option Nat

structure Handlers where
  prepare : Fn
  parent : Fn
  child : Fn
  deriving DecidableEq, Repr

def Handlers.get (h : Handlers) : Phase → Fn
  | .prepare => h.prepare
  | .parent => h.parent
  | .child => h.child

inductive Entry
  | push (fns : Handlers) (arg : Nat)
  -- the three wrappers, with an index of `pthread_atfork_info` as argument
  | wrappers (i : Nat)
  deriving DecidableEq, Repr

structure State where
  list : List Entry
  info : List Handlers
  deriving DecidableEq, Repr

/-- `none` is `FALSE`, with `ENOMEM`. -/
def atforkPush (s : State) (e : Entry) : Option State :=
  if s.list.length > atforkMax - 1 then none else some { s with list := s.list ++ [e] }

def atforkPop (s : State) : Option State :=
  if s.list.length ≤ 0 then none else some { s with list := s.list.dropLast }

/-- With whether it succeeds. The index is taken before the push, which may fail, and is
never given back. -/
def pthreadAtfork (s : State) (fns : Handlers) : State × Bool :=
  if s.info.length > atforkMax - 1 then (s, false)
  else
    let s₁ := { s with info := s.info ++ [fns] }
    match atforkPush s₁ (.wrappers s.info.length) with
    | some s₂ => (s₂, true)
    | none => (s₁, false)

/-! ### pth_fork -/

inductive Event
  -- the functions of `pthread_atfork` have no argument
  | call (f : Fn) (arg : Option Nat)
  -- `pth_scheduler_drop`
  | drop
  deriving DecidableEq, Repr

/-- A wrapper calls the function of its entry without a test. -/
def State.handler (s : State) (p : Phase) : Entry → Option Event
  | .push fns arg => if (fns.get p).isSome then some (.call (fns.get p) (some arg)) else none
  | .wrappers i => some (.call ((s.info[i]?).bind (·.get p)) none)

/-- `pid` is what the fork of the system returns. -/
def fork (s : State) (pid : Int) : List Event × Int :=
  let before := s.list.reverse.filterMap (s.handler .prepare)
  if pid = -1 then (before, 0)
  else if pid ≠ 0 then (before ++ s.list.filterMap (s.handler .parent), pid)
  else (before ++ .drop :: s.list.filterMap (s.handler .child), pid)

/-! ### Histories of registrations -/

inductive Reg
  | push (fns : Handlers) (arg : Nat)
  | pthread (fns : Handlers)
  deriving DecidableEq, Repr

/-- What the application registered for a phase, if it is there. -/
def Reg.handler (p : Phase) : Reg → Option Event
  | .push fns arg => (fns.get p).map fun f => .call (some f) (some arg)
  | .pthread fns => (fns.get p).map fun f => .call (some f) none

inductive Op
  | register (r : Reg)
  | pop
  deriving DecidableEq, Repr

/-- The tables, and the entries registered: those whose call succeeded and that were not
removed since. -/
def exec : State × List Reg → Op → State × List Reg
  | (s, regs), .register (.push fns arg) =>
    match atforkPush s (.push fns arg) with
    | some s' => (s', regs ++ [.push fns arg])
    | none => (s, regs)
  | (s, regs), .register (.pthread fns) =>
    match pthreadAtfork s fns with
    | (s', true) => (s', regs ++ [.pthread fns])
    | (s', false) => (s', regs)
  | (s, regs), .pop =>
    match atforkPop s with
    | some s' => (s', regs.dropLast)
    | none => (s, regs)

def history (ops : List Op) : State × List Reg := ops.foldl exec (⟨[], []⟩, [])

inductive Stands (info : List Handlers) : Entry → Reg → Prop
  | push {fns arg} : Stands info (.push fns arg) (.push fns arg)
  | pthread {fns i} (h : info[i]? = some fns) : Stands info (.wrappers i) (.pthread fns)

def Agrees (x : State × List Reg) : Prop := List.Forall₂ (Stands x.1.info) x.1.list x.2

variable {s : State}

theorem Stands.append (h : Stands info e r) (fns : Handlers) : Stands (info ++ [fns]) e r := by
  cases h with
  | push => exact .push
  | pthread h =>
    have hlt := (List.getElem?_eq_some_iff.mp h).1
    exact .pthread (by rw [List.getElem?_append_left hlt, h])

theorem Agrees.exec (h : Agrees (s, regs)) (op : Op) : Agrees (exec (s, regs) op) := by
  match op with
  | .pop =>
    unfold Process.exec atforkPop
    by_cases hl : s.list.length ≤ 0
    · simpa only [if_pos hl] using h
    · simpa only [if_neg hl, Agrees, List.dropLast_eq_take, ← h.length_eq] using List.forall₂_take _ h
  | .register (.push fns arg) =>
    unfold Process.exec atforkPush
    by_cases hl : s.list.length > atforkMax - 1
    · simpa only [if_pos hl] using h
    · simp only [if_neg hl]
      exact List.rel_append h (.cons .push .nil)
  | .register (.pthread fns) =>
    have hgrown : Agrees ({ s with info := s.info ++ [fns] }, regs) := h.imp fun _ _ h => h.append fns
    unfold Process.exec pthreadAtfork atforkPush
    by_cases hi : s.info.length > atforkMax - 1
    · simpa only [if_pos hi] using h
    by_cases hl : s.list.length > atforkMax - 1
    · simpa only [if_neg hi, if_pos hl] using hgrown
    · simp only [if_neg hi, if_neg hl]
      exact List.rel_append hgrown (.cons (.pthread (by simp)) .nil)

theorem history_agrees (ops : List Op) : Agrees (history ops) := by
  have hfold : ∀ x, Agrees x → Agrees (ops.foldl exec x) := by
    induction ops with
    | nil => exact fun _ => id
    | cons op ops ih => exact fun x h => ih _ (h.exec op)
  exact hfold _ .nil

theorem Stands.handler (h : Stands s.info e r) (p : Phase)
    (hall : ∀ fns, r = .pthread fns → (fns.get p).isSome = true) : s.handler p e = r.handler p := by
  cases h with
  | @push fns arg => cases hf : fns.get p <;> simp [State.handler, Reg.handler, hf]
  | @pthread fns i hi =>
    obtain ⟨f, hf⟩ := Option.isSome_iff_exists.mp (hall fns rfl)
    simp [State.handler, Reg.handler, hi, hf]

theorem handlers_eq (h : List.Forall₂ (Stands s.info) l regs) (p : Phase)
    (hall : ∀ fns, .pthread fns ∈ regs → (fns.get p).isSome = true) :
    l.filterMap (s.handler p) = regs.filterMap (Reg.handler p) := by
  induction h with
  | nil => rfl
  | @cons e r l regs hs h ih =>
    have hone := hs.handler p fun fns hr => hall fns (hr ▸ List.mem_cons_self)
    have hrest := ih fun fns hr => hall fns (List.mem_cons_of_mem r hr)
    rw [List.filterMap_cons, List.filterMap_cons, hone, hrest]

def mixed : List Op :=
  [.register (.push ⟨some 1, none, some 2⟩ 7), .register (.pthread ⟨some 3, some 4, some 5⟩)]

end GnuPth.Process
