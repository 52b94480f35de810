import GnuPth.Lib.Runs
import GnuPth.Waitq

/-!
# pth_once

The control word is moved by atomic operations: 0 until the first call, 1 while
a constructor runs, 2 for ever after it returned. If its thread ends inside the
constructor, a cleanup handler puts it back to 0. `pthread_once` has the same
steps.

A thread is a stack of activations with a stack of cleanup handlers beside it.
Application code runs at the bottom, inside a constructor, and in the handlers
and destructors that run while the thread exits; it may call `pth_once` again,
push and pop handlers, and exit. A cancellation is an exit too. It strikes where
the thread runs application code or has given up control: a thread in a queue
can be cancelled asynchronously, and in `pth_once` this is the yield.
-/

namespace GnuPth.Once

open Function (update update_self update_of_ne update_eq_self)
open Placement
open Transition

abbrev Ctl := Nat

inductive Handler
  | app
  | once (c : Ctl)
  deriving DecidableEq, Repr

/-- The next step of a call of `pth_once`. In the constructor, with the number of
cleanup handlers when it was entered. -/
inductive Pc
  | load
  | cas
  | yield
  | push
  | constructing (depth : Nat)
  | pop
  | store
  deriving DecidableEq, Repr

inductive Frame
  | once (c : Ctl) (pc : Pc)
  | exit
  deriving DecidableEq, Repr

structure Thread where
  -- the innermost activation first
  frames : List Frame
  cleanups : List Handler
  deriving DecidableEq, Repr

structure State where
  control : Ctl → Int
  thread : Tid → Thread
  -- history: how often a constructor returned, and the calls that returned `TRUE`
  completed : Ctl → Nat
  returned : List (Tid × Ctl)

inductive Act
  | call (t : Tid) (c : Ctl)
  | go (t : Tid)
  | push (t : Tid) (malloc : Bool)
  | ret (t : Tid)
  | cleanupPush (t : Tid) (malloc : Bool)
  | cleanupPop (t : Tid) (execute : Bool)
  | exit (t : Tid)
  | unwind (t : Tid)
  deriving DecidableEq, Repr

/-! ### Cleanup handlers -/

def cleanupPush (cleanups : List Handler) (h : Handler) (malloc : Bool) : List Handler :=
  if malloc then h :: cleanups else cleanups

/-- `pth_once_cleanup`, or a handler of the application, whose calls are steps of
their own. -/
def runHandler (control : Ctl → Int) : Handler → Ctl → Int
  | .app => control
  | .once c => update control c 0

/-! ### Steps -/

namespace State

variable (s : State)

def setThread (t : Tid) (b : Thread) : State := { s with thread := update s.thread t b }

def frames (t : Tid) : List Frame := (s.thread t).frames

def cleanups (t : Tid) : List Handler := (s.thread t).cleanups

def setFrames (t : Tid) (fs : List Frame) : State := s.setThread t ⟨fs, s.cleanups t⟩

end State

def inApp : List Frame → Bool
  | [] | .once _ (.constructing _) :: _ | .exit :: _ => true
  | _ => false

def go (s : State) (t : Tid) : Option State :=
  match s.frames t with
  | .once c .load :: fs =>
    if s.control c = 2 then some { s.setFrames t fs with returned := s.returned ++ [(t, c)] }
    else some (s.setFrames t (.once c (if s.control c = 0 then .cas else .yield) :: fs))
  | .once c .cas :: fs =>
    if s.control c = 0 then
      some { s.setFrames t (.once c .push :: fs) with control := update s.control c 1 }
    else some (s.setFrames t (.once c .load :: fs))
  | .once c .yield :: fs => some (s.setFrames t (.once c .load :: fs))
  | .once c .pop :: fs => some (s.setThread t ⟨.once c .store :: fs, (s.cleanups t).tail⟩)
  | .once c .store :: fs =>
    some { s.setFrames t fs with
      control := update s.control c 2
      returned := s.returned ++ [(t, c)] }
  | _ => none

def push (s : State) (t : Tid) (malloc : Bool) : Option State :=
  match s.frames t with
  | .once c .push :: fs =>
    let cleanups := cleanupPush (s.cleanups t) (.once c) malloc
    some (s.setThread t ⟨.once c (.constructing cleanups.length) :: fs, cleanups⟩)
  | _ => none

def ret (s : State) (t : Tid) : Option State :=
  match s.frames t with
  | .once c (.constructing _) :: fs =>
    some { s.setFrames t (.once c .pop :: fs) with
      completed := update s.completed c (s.completed c + 1) }
  | _ => none

/-- `pth_cleanup_pop`, called by the application. -/
def cleanupPop (s : State) (t : Tid) (execute : Bool) : State :=
  match s.cleanups t with
  | h :: hs =>
    { s.setThread t ⟨s.frames t, hs⟩ with
      control := if execute then runHandler s.control h else s.control }
  | [] => s

/-- The thread can be cancelled, or calls `pth_exit`. -/
def mayExit : List Frame → Bool
  | .once _ .yield :: _ => true
  | fs => inApp fs

/-- A turn of the loop in `pth_cleanup_popall`. -/
def unwind (s : State) (t : Tid) : Option State :=
  match s.frames t, s.cleanups t with
  | .exit :: fs, h :: hs =>
    some { s.setThread t ⟨.exit :: fs, hs⟩ with control := runHandler s.control h }
  | _, _ => none

def exec (s : State) : Act → Option State
  | .call t c => if inApp (s.frames t) then some (s.setFrames t (.once c .load :: s.frames t)) else none
  | .go t => go s t
  | .push t malloc => push s t malloc
  | .ret t => ret s t
  | .cleanupPush t malloc =>
    if inApp (s.frames t) then
      some (s.setThread t ⟨s.frames t, cleanupPush (s.cleanups t) .app malloc⟩)
    else none
  | .cleanupPop t execute => if inApp (s.frames t) then some (cleanupPop s t execute) else none
  | .exit t => if mayExit (s.frames t) then some (s.setFrames t (.exit :: s.frames t)) else none
  | .unwind t => unwind s t

structure Initial (s : State) : Prop where
  control : ∀ c, s.control c = 0
  thread : ∀ t, s.thread t = ⟨[], []⟩
  completed : ∀ c, s.completed c = 0
  returned : s.returned = []

def system : System State Act where
  init := Initial
  step s a s' := exec s a = some s'

/-- A constructor pops only handlers it has pushed, and none of them is left when it
returns; `pth_once` gets the memory for its own handler. -/
def balanced (s : State) : Act → Bool
  | .push _ malloc => malloc
  | .ret t =>
    match s.frames t with
    | .once _ (.constructing depth) :: _ => (s.cleanups t).length = depth
    | _ => true
  | .cleanupPop t _ =>
    match s.frames t with
    | .once _ (.constructing depth) :: _ => depth < (s.cleanups t).length
    | _ => true
  | _ => true

def balancedSystem : System State Act := system.restrict fun s a => balanced s a = true

/-- The invocations of the constructor of `c` that a thread is in: those below an
exit are over. -/
def invocations (c : Ctl) : List Frame → Nat
  | [] => 0
  | .exit :: _ => 0
  | .once d (.constructing _) :: fs => (if d = c then 1 else 0) + invocations c fs
  | .once _ _ :: fs => invocations c fs

/-! ### Who holds a control -/

variable {s : State}

def Handler.control? : Handler → Option Ctl
  | .app => none
  | .once c => some c

def controls (hs : List Handler) : List Ctl := hs.filterMap Handler.control?

@[simp] theorem controls_nil : controls [] = [] := rfl

@[simp] theorem controls_app : controls (.app :: hs) = controls hs := rfl

@[simp] theorem controls_once : controls (.once c :: hs) = c :: controls hs := rfl

@[simp] theorem controls_append : controls (hs ++ hs') = controls hs ++ controls hs' :=
  List.filterMap_append

/-- The handlers are those the activations have pushed. Below an exit nothing is
required: the handlers that are left will be run. -/
def Aligned : List Frame → List Handler → Prop
  | [], hs => controls hs = []
  | .exit :: _, _ => True
  | .once c (.constructing depth) :: fs, hs =>
    inApp fs = true ∧ ∃ own rest, hs = own ++ .once c :: rest ∧ controls own = [] ∧
      depth = rest.length + 1 ∧ Aligned fs rest
  | .once c .pop :: fs, hs => inApp fs = true ∧ ∃ rest, hs = .once c :: rest ∧ Aligned fs rest
  | .once _ _ :: fs, hs => inApp fs = true ∧ Aligned fs hs

/-- A control that the innermost call holds without a handler for it. -/
def pending : List Frame → List Ctl
  | .once c .push :: _ | .once c .store :: _ => [c]
  | _ => []

def held (b : Thread) : List Ctl := pending b.frames ++ controls b.cleanups

/-- The constructor has returned, and the control is still 1. -/
def Finishing (fs : List Frame) (c : Ctl) : Prop :=
  fs.head? = some (.once c .pop) ∨ fs.head? = some (.once c .store)

/-- The value of a control and the number of completed constructors, by what the
threads do with it. -/
structure Counted (s : State) (c : Ctl) : Prop where
  one : ∀ t, c ∈ held (s.thread t) → s.control c = 1
  waiting : s.control c ≠ 2 → (∀ t, ¬ Finishing (s.frames t) c) → s.completed c = 0
  finishing : ∀ t, Finishing (s.frames t) c → s.completed c = 1
  done : s.control c = 2 → s.completed c = 1
  returned : ∀ t, (t, c) ∈ s.returned → s.completed c = 1

structure Safe (s : State) : Prop where
  aligned : ∀ t, Aligned (s.frames t) (s.cleanups t)
  linear : Linear fun t => held (s.thread t)
  counted : ∀ c, Counted s c

theorem pending_of_inApp (h : inApp fs = true) : pending fs = [] := by
  unfold inApp at h
  split at h
  · rfl
  · rfl
  · rfl
  · cases h

theorem not_finishing_of_inApp (h : inApp fs = true) : ¬ Finishing fs c := by
  unfold inApp at h
  split at h
  · simp [Finishing]
  · simp [Finishing]
  · simp [Finishing]
  · cases h

theorem not_finishing_of_mayExit (h : mayExit fs = true) : ¬ Finishing fs c := by
  unfold mayExit at h
  split at h
  · simp [Finishing]
  · exact not_finishing_of_inApp h

theorem Finishing.mem_held (h : Finishing b.frames c) (ha : Aligned b.frames b.cleanups) :
    c ∈ held b := by
  obtain ⟨fs, hs⟩ := b
  cases fs with
  | nil => simp [Finishing] at h
  | cons =>
    rcases h with hf | hf
    · obtain rfl := Option.some.inj hf
      obtain ⟨-, rest, rfl, -⟩ := ha
      simp [held]
    · obtain rfl := Option.some.inj hf
      simp [held, pending]

theorem Safe.finishing_unique (h : Safe s) (hc : c ∈ held (s.thread t))
    (hf : Finishing (s.frames u) c) :
    u = t :=
  h.linear.unique (hf.mem_held (h.aligned u)) hc

/-! ### Steps -/

@[simp] theorem setThread_self : (s.setThread t b).thread t = b := update_self ..

theorem setThread_of_ne (h : u ≠ t) : (s.setThread t b).thread u = s.thread u :=
  update_of_ne h ..

theorem held_setThread :
    (fun u => held ((s.setThread t b).thread u)) = update (fun u => held (s.thread u)) t (held b) := by
  funext u
  by_cases hu : u = t
  · subst hu
    simp
  · simp [setThread_of_ne hu, hu]

theorem forall_thread {P : Tid → Thread → Prop} (hb : P t b) (h : ∀ u, P u (s.thread u)) :
    ∀ u, P u ((s.setThread t b).thread u) := by
  intro u
  by_cases hu : u = t
  · subst hu
    rwa [setThread_self]
  · rw [setThread_of_ne hu]
    exact h u

theorem setThread_held (h : d ∈ held b → d ∈ held (s.thread t))
    (hu : d ∈ held ((s.setThread t b).thread u)) : d ∈ held (s.thread u) := by
  by_cases hut : u = t
  · subst hut
    rw [setThread_self] at hu
    exact h hu
  · rwa [setThread_of_ne hut] at hu

theorem setThread_finishing (h : Finishing b.frames d ↔ Finishing (s.frames t) d) (u : Tid) :
    Finishing ((s.setThread t b).frames u) d ↔ Finishing (s.frames u) d := by
  unfold State.frames
  by_cases hut : u = t
  · subst hut
    rw [setThread_self]
    exact h
  · rw [setThread_of_ne hut]

theorem Counted.frame (h : Counted s d)
    (hheld : ∀ u, d ∈ held (s'.thread u) → d ∈ held (s.thread u))
    (hf : ∀ u, Finishing (s'.frames u) d ↔ Finishing (s.frames u) d) (hv : s'.control d = s.control d)
    (hn : s'.completed d = s.completed d) (hr : s'.returned = s.returned) : Counted s' d where
  one u hu := hv.trans (h.one u (hheld u hu))
  waiting hne hw := hn.trans (h.waiting (hv ▸ hne) fun u hu => hw u ((hf u).mpr hu))
  finishing u hu := hn.trans (h.finishing u ((hf u).mp hu))
  done hd := hn.trans (h.done (hv ▸ hd))
  returned u hu := hn.trans (h.returned u (hr ▸ hu))

theorem Safe.retain (h : Safe s) (ha : Aligned b.frames b.cleanups)
    (hb : (held b).Sublist (held (s.thread t))) (hf : ∀ c, Finishing b.frames c ↔ Finishing (s.frames t) c) :
    Safe (s.setThread t b) where
  aligned := forall_thread (P := fun _ b => Aligned b.frames b.cleanups) ha h.aligned
  linear := by
    rw [held_setThread]
    exact h.linear.sublist hb
  counted c := (h.counted c).frame (fun _ => setThread_held fun hc => hb.subset hc) (setThread_finishing (hf c))
    rfl rfl rfl

theorem Safe.returns (h : Safe s) (hc : s.completed c = 1) :
    Safe { s with returned := s.returned ++ [(t, c)] } := by
  refine ⟨h.aligned, h.linear, fun d => ?_⟩
  have hd := h.counted d
  refine ⟨hd.one, hd.waiting, hd.finishing, hd.done, fun u hu => ?_⟩
  rcases List.mem_append.mp hu with hu | hu
  · exact hd.returned u hu
  · cases List.mem_singleton.mp hu
    exact hc

/-- What a step makes of the control `c`, which no other thread holds. -/
structure Settles (c : Ctl) (b : Thread) (value : Int) (count : Nat) : Prop where
  one : c ∈ held b → value = 1
  waiting : value ≠ 2 → ¬ Finishing b.frames c → count = 0
  finishing : Finishing b.frames c → count = 1
  done : value = 2 → count = 1

theorem Safe.settle (h : Safe s) (ha : Aligned b.frames b.cleanups)
    (hn : (held b).Nodup) (hb : ∀ d, d ≠ c → d ∈ held b → d ∈ held (s.thread t))
    (hf : ∀ d, d ≠ c → (Finishing b.frames d ↔ Finishing (s.frames t) d))
    (honly : ∀ u, u ≠ t → c ∉ held (s.thread u)) (hs : Settles c b value count)
    (hr : s.completed c = 1 → count = 1) :
    Safe { s.setThread t b with
      control := update s.control c value, completed := update s.completed c count } := by
  refine ⟨forall_thread (P := fun _ b => Aligned b.frames b.cleanups) ha h.aligned, ?_, fun d => ?_⟩
  · refine held_setThread ▸ h.linear.update_list hn fun d hd => ?_
    by_cases hdt : d ∈ held (s.thread t)
    · exact .inl hdt
    · obtain rfl : d = c := by
        by_contra hne
        exact hdt (hb d hne hd)
      refine .inr fun u => ?_
      by_cases hu : u = t
      · rwa [hu]
      · exact honly u hu
  · by_cases hd : d = c
    case neg =>
      exact (h.counted d).frame (fun _ => setThread_held (hb d hd)) (setThread_finishing (hf d hd))
        (update_of_ne hd ..) (update_of_ne hd ..) rfl
    case pos =>
    subst hd
    -- of all threads only `t` has to do with the control
    have hself : ∀ u, d ∈ held ((s.setThread t b).thread u) → d ∈ held b := by
      intro u hu
      by_cases hut : u = t
      · subst hut
        rwa [setThread_self] at hu
      · rw [setThread_of_ne hut] at hu
        exact absurd hu (honly u hut)
    have hfin : ∀ u, Finishing ((s.setThread t b).frames u) d → Finishing b.frames d := by
      intro u hu
      unfold State.frames at hu
      by_cases hut : u = t
      · subst hut
        rwa [setThread_self] at hu
      · rw [setThread_of_ne hut] at hu
        exact absurd (hu.mem_held (h.aligned u)) (honly u hut)
    have hval : update s.control d value d = value := update_self ..
    have hcnt : update s.completed d count d = count := update_self ..
    refine ⟨fun u hu => hval.trans (hs.one (hself u hu)), fun hne hw => hcnt.trans (hs.waiting (hval ▸ hne) ?_),
      fun u hu => hcnt.trans (hs.finishing (hfin u hu)), fun hd => hcnt.trans (hs.done (hval ▸ hd)),
      fun u hu => hcnt.trans (hr ((h.counted d).returned u hu))⟩
    simpa [State.frames] using hw t

/-! ### The steps that set a control -/

/-- A control that a thread holds, but is not about to publish, is 1 and its
constructor has not returned. -/
theorem Safe.not_completed (h : Safe s) (hc : c ∈ held (s.thread t))
    (hf : ¬ Finishing (s.frames t) c) :
    s.completed c = 0 := by
  refine (h.counted c).waiting (by simp [(h.counted c).one t hc]) fun u hu => ?_
  obtain rfl := h.finishing_unique hc hu
  exact hf hu

theorem held_eq (hfs : s.frames t = fs) :
    held (s.thread t) = pending fs ++ controls (s.cleanups t) := by
  unfold held
  rw [show (s.thread t).frames = fs from hfs]
  rfl

theorem finishing_cons : Finishing (f :: fs) d ↔ f = .once d .pop ∨ f = .once d .store := by
  simp [Finishing]

theorem Safe.cas (h : Safe s) (hfs : s.frames t = .once c .cas :: fs) (h0 : s.control c = 0) :
    Safe { s.setFrames t (.once c .push :: fs) with control := update s.control c 1 } := by
  have hfree : ∀ u, c ∉ held (s.thread u) := by
    intro u hu
    have := (h.counted c).one u hu
    omega
  have hcount : s.completed c = 0 :=
    (h.counted c).waiting (by omega) fun u hu => hfree u (hu.mem_held (h.aligned u))
  have ha : Aligned (.once c .cas :: fs) (s.cleanups t) := hfs ▸ h.aligned t
  have hheld : held (s.thread t) = controls (s.cleanups t) := held_eq hfs
  have hset : Settles c ⟨.once c .push :: fs, s.cleanups t⟩ 1 (s.completed c) :=
    ⟨fun _ => rfl, fun _ _ => hcount, by simp [finishing_cons], by simp⟩
  have hn : (held ⟨.once c .push :: fs, s.cleanups t⟩).Nodup :=
    List.nodup_cons.mpr ⟨hheld ▸ hfree t, hheld ▸ h.linear.nodup t⟩
  have := h.settle ha hn (fun d hd hm => hheld ▸ (List.mem_cons.mp hm).resolve_left hd)
    (fun d _ => by simp [hfs, finishing_cons]) (fun u _ => hfree u) hset fun h => h
  rwa [update_eq_self] at this

theorem Safe.ret (h : Safe s) (hfs : s.frames t = .once c (.constructing depth) :: fs)
    (hd : (s.cleanups t).length = depth) :
    Safe { s.setFrames t (.once c .pop :: fs) with
      completed := update s.completed c (s.completed c + 1) } := by
  obtain ⟨happ, own, rest, hcl, -, hdepth, ha⟩ : Aligned (.once c (.constructing depth) :: fs) (s.cleanups t) :=
    hfs ▸ h.aligned t
  obtain rfl : own = [] := by
    rw [hcl] at hd
    simpa [hdepth] using hd
  have hheld : held (s.thread t) = c :: controls rest := by
    rw [held_eq hfs, hcl]
    rfl
  have hmem : c ∈ held (s.thread t) := hheld ▸ List.mem_cons_self
  have hnot : ¬ Finishing (s.frames t) c := by simp [hfs, finishing_cons]
  have hset : Settles c ⟨.once c .pop :: fs, s.cleanups t⟩ (s.control c) (s.completed c + 1) := by
    have h1 := (h.counted c).one t hmem
    refine ⟨fun _ => h1, fun _ hf => absurd (.inl rfl) hf, fun _ => ?_, fun _ => ?_⟩
    all_goals rw [h.not_completed hmem hnot]
  have hsame : held ⟨.once c .pop :: fs, s.cleanups t⟩ = held (s.thread t) := by
    rw [held_eq hfs]
    rfl
  have := h.settle (b := ⟨.once c .pop :: fs, s.cleanups t⟩) ⟨happ, rest, hcl, ha⟩ (hsame ▸ h.linear.nodup t)
    (fun d _ hm => hsame ▸ hm) (fun d hd => by simp [hfs, finishing_cons, Ne.symm hd])
    (fun u hu hm => hu (h.linear.unique hm hmem)) hset fun h1 => by
      rw [h.not_completed hmem hnot] at h1
      cases h1
  rwa [update_eq_self] at this

theorem Safe.store (h : Safe s) (hfs : s.frames t = .once c .store :: fs) :
    Safe { s.setFrames t fs with control := update s.control c 2, returned := s.returned ++ [(t, c)] } := by
  obtain ⟨happ, ha⟩ : Aligned (.once c .store :: fs) (s.cleanups t) := hfs ▸ h.aligned t
  have hheld : held (s.thread t) = c :: controls (s.cleanups t) := held_eq hfs
  have hmem : c ∈ held (s.thread t) := hheld ▸ List.mem_cons_self
  have hcount := (h.counted c).finishing t (.inr (by rw [hfs]; rfl))
  have hsame : held ⟨fs, s.cleanups t⟩ = controls (s.cleanups t) := by
    simp [held, pending_of_inApp happ]
  have hn := List.nodup_cons.mp (hheld ▸ h.linear.nodup t)
  have hset : Settles c ⟨fs, s.cleanups t⟩ 2 (s.completed c) :=
    ⟨fun hm => absurd (hsame ▸ hm) hn.1, absurd rfl, fun _ => hcount, fun _ => hcount⟩
  have := h.settle ha (hsame ▸ hn.2) (fun d _ hm => hheld ▸ List.mem_cons_of_mem _ (hsame ▸ hm))
    (fun d hd => by simp [hfs, finishing_cons, not_finishing_of_inApp happ, Ne.symm hd])
    (fun u hu hm => hu (h.linear.unique hm hmem)) hset fun h => h
  rw [update_eq_self] at this
  exact this.returns hcount

/-- The handler of the control runs: the thread exits. -/
theorem Safe.reset (h : Safe s) (happ : inApp (s.frames t) = true)
    (hcl : s.cleanups t = .once c :: hs)
    (ha : Aligned (s.frames t) hs) :
    Safe { s.setThread t ⟨s.frames t, hs⟩ with control := update s.control c 0 } := by
  have hheld : held (s.thread t) = c :: controls hs := by
    rw [held_eq rfl, hcl, pending_of_inApp happ]
    rfl
  have hmem : c ∈ held (s.thread t) := hheld ▸ List.mem_cons_self
  have hnot := not_finishing_of_inApp (c := c) happ
  have hcount := h.not_completed hmem hnot
  have hsame : held ⟨s.frames t, hs⟩ = controls hs := by
    simp [held, pending_of_inApp happ]
  have hn := List.nodup_cons.mp (hheld ▸ h.linear.nodup t)
  have hset : Settles c ⟨s.frames t, hs⟩ 0 (s.completed c) :=
    ⟨fun hm => absurd (hsame ▸ hm) hn.1, fun _ _ => hcount, fun hf => absurd hf hnot, by simp⟩
  have := h.settle (b := ⟨s.frames t, hs⟩) ha (hsame ▸ hn.2)
    (fun d _ hm => hheld ▸ List.mem_cons_of_mem _ (hsame ▸ hm)) (fun d _ => Iff.rfl)
    (fun u hu hm => hu (h.linear.unique hm hmem)) hset fun h => h
  rwa [update_eq_self] at this

/-! ### The other steps -/

theorem Safe.setFrames (h : Safe s) (hfs : s.frames t = fs) (ha : Aligned fs' (s.cleanups t))
    (hp : pending fs' = []) (hf : ∀ d, ¬ Finishing fs' d) (hf' : ∀ d, ¬ Finishing fs d) :
    Safe (s.setFrames t fs') := by
  refine h.retain ha ?_ fun d => iff_of_false (hf d) (hfs ▸ hf' d)
  rw [held, hp]
  exact List.sublist_append_right ..

theorem Aligned.app_push (h : Aligned fs hs) (happ : inApp fs = true) :
    Aligned fs (.app :: hs) := by
  cases fs with
  | nil => exact h
  | cons f =>
    cases f with
    | exit => trivial
    | once c pc =>
      cases pc with
      | constructing =>
        obtain ⟨happ, own, rest, rfl, hown, hd, ha⟩ := h
        exact ⟨happ, .app :: own, rest, rfl, hown, hd, ha⟩
      | _ => cases happ

/-- The application pops a handler: it runs at the bottom, it has pushed the handler
itself, or the thread exits. -/
theorem Aligned.app_pop (h : Aligned fs (x :: hs)) (happ : inApp fs = true)
    (hd : ∀ c depth fs', fs = .once c (.constructing depth) :: fs' → depth < (x :: hs).length) :
    Aligned fs hs := by
  cases fs with
  | nil =>
    cases x with
    | app => exact h
    | once => cases h
  | cons f fs =>
    cases f with
    | exit => trivial
    | once c pc =>
      cases pc with
      | constructing depth =>
        obtain ⟨happ, own, rest, hcl, hown, hdepth, ha⟩ := h
        cases own with
        | nil =>
          cases hcl
          have := hd c depth fs rfl
          simp [hdepth] at this
        | cons y own =>
          cases hcl
          cases x with
          | app => exact ⟨happ, own, rest, rfl, hown, hdepth, ha⟩
          | once => cases hown
      | _ => cases happ

theorem Safe.drop (h : Safe s) (hcl : s.cleanups t = x :: hs) (ha : Aligned (s.frames t) hs) :
    Safe (s.setThread t ⟨s.frames t, hs⟩) := by
  refine h.retain ha ?_ fun _ => Iff.rfl
  rw [held_eq rfl, hcl]
  exact (List.sublist_cons_self x hs).filterMap _ |>.append_left _

theorem Safe.runHandler (h : Safe s) (happ : inApp (s.frames t) = true)
    (hcl : s.cleanups t = x :: hs) (ha : Aligned (s.frames t) hs) :
    Safe { s.setThread t ⟨s.frames t, hs⟩ with control := runHandler s.control x } := by
  cases x with
  | app => exact h.drop hcl ha
  | once => exact h.reset happ hcl ha

theorem Safe.cleanupPop (h : Safe s) (happ : inApp (s.frames t) = true)
    (hd : ∀ c depth fs', s.frames t = .once c (.constructing depth) :: fs' → depth < (s.cleanups t).length) :
    Safe (cleanupPop s t execute) := by
  unfold Once.cleanupPop
  split
  case h_2 => exact h
  case h_1 x hs hcl =>
  have ha := Aligned.app_pop (hcl ▸ h.aligned t) happ (hcl ▸ hd)
  cases execute with
  | false => exact h.drop hcl ha
  | true => exact h.runHandler happ hcl ha

theorem Safe.unwind (h : Safe s) (hs : unwind s t = some s') : Safe s' := by
  unfold Once.unwind at hs
  split at hs
  case h_2 => cases hs
  case h_1 fs x hs' hfs hcl =>
  cases hs
  rw [← hfs]
  exact h.runHandler (by rw [hfs]; rfl) hcl (by rw [hfs]; trivial)

theorem Safe.go (h : Safe s) (hs : go s t = some s') : Safe s' := by
  have ha := h.aligned t
  unfold Once.go at hs
  split at hs
  case h_1 c fs hfs =>
    rw [hfs] at ha
    have hnot : ∀ pc, pc = .load ∨ pc = .cas ∨ pc = .yield → ∀ d, ¬ Finishing (.once c pc :: fs) d := by
      rintro pc (rfl | rfl | rfl) d <;> simp [finishing_cons]
    split at hs
    case isTrue h2 =>
      cases hs
      have := h.setFrames hfs ha.2 (pending_of_inApp ha.1) (fun _ => not_finishing_of_inApp ha.1)
        (hnot .load (by simp))
      exact this.returns ((h.counted c).done h2)
    case isFalse =>
      cases hs
      split
      · exact h.setFrames hfs ha rfl (hnot .cas (by simp)) (hnot .load (by simp))
      · exact h.setFrames hfs ha rfl (hnot .yield (by simp)) (hnot .load (by simp))
  case h_2 c fs hfs =>
    split at hs
    case isTrue h0 =>
      cases hs
      exact h.cas hfs h0
    case isFalse =>
      cases hs
      rw [hfs] at ha
      exact h.setFrames hfs ha rfl (by simp [finishing_cons]) (by simp [finishing_cons])
  case h_3 c fs hfs =>
    cases hs
    rw [hfs] at ha
    exact h.setFrames hfs ha rfl (by simp [finishing_cons]) (by simp [finishing_cons])
  case h_4 c fs hfs =>
    cases hs
    rw [hfs] at ha
    obtain ⟨happ, rest, hcl, ha⟩ := ha
    rw [hcl]
    refine h.retain ⟨happ, ha⟩ ?_ (by simp [hfs, finishing_cons])
    rw [held_eq hfs, hcl]
    exact List.Sublist.refl _
  case h_5 c fs hfs =>
    cases hs
    exact h.store hfs
  case h_6 => cases hs

theorem Safe.push (h : Safe s) (hs : push s t true = some s') : Safe s' := by
  unfold Once.push at hs
  split at hs
  case h_2 => cases hs
  case h_1 c fs hfs =>
  cases hs
  obtain ⟨happ, ha⟩ : Aligned (.once c .push :: fs) (s.cleanups t) := hfs ▸ h.aligned t
  refine h.retain ⟨happ, [], s.cleanups t, rfl, rfl, rfl, ha⟩ ?_ (by simp [hfs, finishing_cons])
  rw [held_eq hfs]
  exact List.Sublist.refl _

theorem Safe.step (h : Safe s) (hok : balanced s a = true) (hs : exec s a = some s') : Safe s' := by
  cases a with
  | call t =>
    simp only [exec] at hs
    split at hs <;> cases hs
    rename_i happ
    exact h.setFrames rfl ⟨happ, h.aligned t⟩ rfl (by simp [finishing_cons])
      fun _ => not_finishing_of_inApp happ
  | go => exact h.go hs
  | push t malloc =>
    have hm : malloc = true := hok
    exact h.push (hm ▸ hs)
  | ret =>
    simp only [exec, Once.ret] at hs
    split at hs <;> cases hs
    rename_i c depth fs hfs
    simp only [balanced, hfs, decide_eq_true_eq] at hok
    exact h.ret hfs hok
  | cleanupPush t malloc =>
    simp only [exec] at hs
    split at hs <;> cases hs
    rename_i happ
    cases malloc with
    | false => exact h.retain (h.aligned t) (List.Sublist.refl _) fun _ => Iff.rfl
    | true => exact h.retain ((h.aligned t).app_push happ) (List.Sublist.refl _) fun _ => Iff.rfl
  | cleanupPop =>
    simp only [exec] at hs
    split at hs <;> cases hs
    rename_i happ
    refine h.cleanupPop happ fun c depth fs hfs => ?_
    simpa [balanced, hfs] using hok
  | exit =>
    simp only [exec] at hs
    split at hs <;> cases hs
    rename_i hmay
    exact h.setFrames rfl trivial rfl (by simp [finishing_cons]) fun _ => not_finishing_of_mayExit hmay
  | unwind => exact h.unwind hs

theorem Initial.safe (h : Initial s) : Safe s := by
  have hb : ∀ t, s.thread t = ⟨[], []⟩ := h.thread
  refine ⟨fun t => ?_, ⟨fun t => ?_, fun {t u c} ht => ?_⟩, fun c => ⟨fun t ht => ?_, ?_, fun t ht => ?_, ?_, ?_⟩⟩
  all_goals simp_all [State.frames, State.cleanups, Aligned, held, pending, Finishing, h.control,
    h.completed, h.returned]

theorem safe_of_reachable (h : Reachable balancedSystem s) : Safe s := by
  refine h.invariant ?_ ?_
  · intro s hi
    exact Initial.safe hi
  · intro s a s' hI hs
    exact hI.step hs.1 hs.2

/-! ### Constructors -/

theorem Aligned.invocations_le (h : Aligned fs hs) : invocations c fs ≤ (controls hs).count c := by
  induction fs generalizing hs with
  | nil => exact Nat.zero_le _
  | cons f fs ih =>
    cases f with
    | exit => exact Nat.zero_le _
    | once d pc =>
      cases pc with
      | constructing =>
        obtain ⟨-, own, rest, rfl, -, -, ha⟩ := h
        have := ih ha
        by_cases hd : d = c
        · simp only [invocations, controls_append, controls_once, List.count_append, hd, if_true,
            List.count_cons_self]
          omega
        · simp only [invocations, controls_append, controls_once, List.count_append, hd, if_false]
          rw [List.count_cons_of_ne hd]
          omega
      | pop =>
        obtain ⟨-, rest, rfl, ha⟩ := h
        have := ih ha
        exact Nat.le_trans this List.count_le_count_cons
      | _ => exact ih h.2

theorem Safe.invocations_le (h : Safe s) :
    invocations c (s.frames t) ≤ (held (s.thread t)).count c := by
  refine Nat.le_trans (h.aligned t).invocations_le ?_
  rw [held, List.count_append]
  exact Nat.le_add_left ..

theorem Safe.completed_le (h : Safe s) : s.completed c ≤ 1 := by
  have hc := h.counted c
  by_cases h2 : s.control c = 2
  · exact Nat.le_of_eq (hc.done h2)
  by_cases hf : ∃ t, Finishing (s.frames t) c
  · obtain ⟨t, hf⟩ := hf
    exact Nat.le_of_eq (hc.finishing t hf)
  · rw [hc.waiting h2 fun t ht => hf ⟨t, ht⟩]
    exact Nat.zero_le 1

/-- Constructors of one control do not overlap, at most one returns, and a call
returns `TRUE` only after that. -/
theorem constructor_once (h : Reachable balancedSystem s) (c : Ctl) :
    (∀ t, invocations c (s.frames t) ≤ 1) ∧
      (∀ t u, 0 < invocations c (s.frames t) → 0 < invocations c (s.frames u) → t = u) ∧
      s.completed c ≤ 1 ∧ ∀ t, (t, c) ∈ s.returned → s.completed c = 1 := by
  have hI := safe_of_reachable h
  have hmem : ∀ t, 0 < invocations c (s.frames t) → c ∈ held (s.thread t) := fun t ht =>
    List.count_pos_iff.mp (Nat.lt_of_lt_of_le ht hI.invocations_le)
  refine ⟨fun t => ?_, fun t u ht hu => ?_, hI.completed_le, (hI.counted c).returned⟩
  · exact Nat.le_trans hI.invocations_le (List.nodup_iff_count_le_one.mp (hI.linear.nodup t) c)
  · exact hI.linear.unique (hmem t ht) (hmem u hu)

/-! ### Schedules -/

def boot : State := ⟨fun _ => 0, fun _ => ⟨[], []⟩, fun _ => 0, []⟩

theorem boot_initial : Initial boot := ⟨fun _ => rfl, fun _ => rfl, fun _ => rfl, rfl⟩

theorem exists_reachable (ok : State → Act → Bool) [DecidablePred P] (acts : List Act)
    (h : (acts.foldlM (stepIf ok exec) boot).any (fun s => decide (P s)) = true) :
    ∃ s, Reachable (system.restrict fun s a => ok s a = true) s ∧ P s :=
  exists_reachable_restrict (fun _ _ _ h => h) boot_initial h

def enters (t : Tid) (c : Ctl) : List Act := [.call t c, .go t, .go t, .push t true]

def completes (t : Tid) : List Act := [.ret t, .go t, .go t]

/-- Thread 1 is cancelled in the constructor, with a handler of its own; thread 2,
which waits, takes over. -/
def cancelledOnce : List Act :=
  enters 1 7 ++ [.cleanupPush 1 true, .call 2 7, .go 2, .go 2, .exit 1, .unwind 1, .unwind 1] ++
    [.go 2, .go 2, .push 2 true] ++ completes 2

theorem constructor_once_cancelledOnce :
    ∃ s, Reachable balancedSystem s ∧ s.returned = [(2, 7)] ∧
      (∀ t, invocations 7 (s.frames t) ≤ 1) ∧
      (∀ t u, 0 < invocations 7 (s.frames t) → 0 < invocations 7 (s.frames u) → t = u) ∧
      s.completed 7 ≤ 1 ∧ ∀ t, (t, 7) ∈ s.returned → s.completed 7 = 1 := by
  obtain ⟨s, hs, hr⟩ := exists_reachable balanced (P := fun s => s.returned = [(2, 7)])
    cancelledOnce (by decide +kernel)
  exact ⟨s, hs, hr, constructor_once hs 7⟩

/-- The constructor pushes a handler and returns without popping it: this handler is
popped in place of `pth_once_cleanup`, which puts the published control back to 0
when the thread exits. -/
def handlerLeft : List Act :=
  enters 1 7 ++ [.cleanupPush 1 true] ++ completes 1 ++ [.exit 1, .unwind 1] ++ enters 2 7 ++ completes 2

theorem constructor_twice :
    ∃ s, Reachable system s ∧ s.returned = [(1, 7), (2, 7)] ∧ s.completed 7 = 2 :=
  exists_reachable_foldlM (fun _ _ _ h => h) boot_initial handlerLeft (by decide +kernel)

end GnuPth.Once
