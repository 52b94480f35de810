import GnuPth.Lib.Runs
import GnuPth.Waitq

/-!
# The keys of static events

A call site that uses `PTH_MODE_STATIC` has one static variable for the key under
which every thread keeps its event for the site. The first use creates the key:
`pth_key_create` searches the table under a spinlock, with the variable itself as
the loop counter, while `pth_event` reads the variable without the lock.

The model has one step for each access to a variable and one for each spinlock
section. The table may hold any keys from the start.
-/

namespace GnuPth.Keys

open Function (update update_self update_of_ne)
open Transition

def keyMax : Int := 256

def keyInit : Int := -1

/-- A call site, which is its static variable. -/
abbrev Site := Nat

abbrev EventAddr := Nat

inductive Errno
  | EINVAL
  | ENOENT
  | ENOMEM
  deriving DecidableEq, Repr

/-- The next step of a thread in `pth_event`: the test of the variable, the steps of
`pth_key_create` from its spinlock to the end of its section, and the read of the
variable for each of the two calls behind it. -/
inductive Pc
  | idle
  | test
  | lock
  | clear
  | bound
  | look
  | incr
  | claim
  | unlock
  | read
  | getdata (key : Int)
  | alloc
  | reread (ev : Option EventAddr)
  | setdata (key : Int) (ev : Option EventAddr)
  deriving DecidableEq, Repr

structure Thread where
  site : Site
  pc : Pc
  -- `NULL` until the first `pth_key_setdata`
  dataValue : Option (Int → Option EventAddr)
  dataCount : Int

structure State where
  thread : Tid → Thread
  key : Site → Int
  used : Int → Bool
  lock : Option Tid
  -- allocated and not freed
  live : EventAddr → Bool
  -- history: the threads in `pth_key_create` for a site, the keys it took, and the
  -- events that `pth_event` returned
  creating : Site → List Tid
  allocated : List (Site × Int)
  obtained : List (Tid × Site × EventAddr)

def Thread.stored (b : Thread) (key : Int) : Option EventAddr :=
  match b.dataValue with
  | none => none
  | some d => d key

namespace State

variable (s : State)

def setThread (t : Tid) (b : Thread) : State := { s with thread := update s.thread t b }

def goto (t : Tid) (pc : Pc) : State := s.setThread t { s.thread t with pc := pc }

def site (t : Tid) : Site := (s.thread t).site

def pc (t : Tid) : Pc := (s.thread t).pc

def keysOf (v : Site) : List Int := (s.allocated.filter (·.1 = v)).map (·.2)

end State

/-! ### pth_key_getdata, pth_key_setdata -/

def keyGetdata (used : Int → Bool) (b : Thread) (key : Int) : Except Errno (Option EventAddr) :=
  if key < 0 ∨ key ≥ keyMax then .error .EINVAL
  else if used key then .ok (b.stored key)
  else .error .ENOENT

/-- `calloc` says whether the thread gets its array if it has none. -/
def keySetdata (used : Int → Bool) (b : Thread) (key : Int) (value : Option EventAddr) (calloc : Bool) :
    Except Errno Thread :=
  if key < 0 ∨ key ≥ keyMax then .error .EINVAL
  else if ¬ used key then .error .ENOENT
  else if b.dataValue.isNone ∧ ¬ calloc then .error .ENOMEM
  else
    let count := match b.stored key, value with
      | none, some _ => b.dataCount + 1
      | some _, none => b.dataCount - 1
      | _, _ => b.dataCount
    .ok { b with dataValue := some (update b.stored key value), dataCount := count }

/-! ### pth_event -/

inductive Act
  | enter (t : Tid) (v : Site)
  | go (t : Tid)
  | malloc (t : Tid) (ev : Option EventAddr)
  | store (t : Tid) (calloc : Bool)
  deriving DecidableEq, Repr

/-- `pth_event` returns the event, or `NULL` if there is none. -/
def finish (s : State) (t : Tid) (b : Thread) (ev : Option EventAddr) : State :=
  { s.setThread t { b with pc := .idle } with
    obtained := s.obtained ++ ev.toList.map (t, s.site t, ·) }

/-- The spinlock is needed to look at the table. -/
def spins (s : State) (key : Int) : Bool := 0 ≤ key && key < keyMax && s.lock.isSome

def go (s : State) (t : Tid) : Option State :=
  let v := s.site t
  match s.pc t with
  | .test =>
    if s.key v = keyInit then
      some { s.goto t .lock with creating := update s.creating v (t :: s.creating v) }
    else some (s.goto t .read)
  | .lock => if s.lock = none then some { s.goto t .clear with lock := some t } else none
  | .clear => some { s.goto t .bound with key := update s.key v 0 }
  | .bound => some (s.goto t (if s.key v < keyMax then .look else .unlock))
  | .look => some (s.goto t (if s.used (s.key v) then .incr else .claim))
  | .incr => some { s.goto t .bound with key := update s.key v (s.key v + 1) }
  | .claim =>
    some { s.goto t .unlock with
      used := update s.used (s.key v) true
      allocated := s.allocated ++ [(v, s.key v)] }
  | .unlock =>
    some { s.goto t .read with lock := none, creating := update s.creating v ((s.creating v).erase t) }
  | .read => some (s.goto t (.getdata (s.key v)))
  | .getdata key =>
    if spins s key then none
    else match keyGetdata s.used (s.thread t) key with
      | .ok (some e) => some (finish s t (s.thread t) (some e))
      | _ => some (s.goto t .alloc)
  | .reread ev => some (s.goto t (.setdata (s.key v) ev))
  | _ => none

def exec (s : State) : Act → Option State
  | .enter t v =>
    if s.pc t = .idle then some (s.setThread t { s.thread t with site := v, pc := .test }) else none
  | .go t => go s t
  | .malloc t ev =>
    if s.pc t = .alloc ∧ ev.all (fun e => !s.live e) then
      some { s.goto t (.reread ev) with live := fun e => s.live e || ev = some e }
    else none
  | .store t calloc =>
    match s.pc t with
    | .setdata key ev =>
      if spins s key then none
      -- `pth_event` does not look at the result
      else match keySetdata s.used (s.thread t) key ev calloc with
        | .ok b => some (finish s t b ev)
        | .error _ => some (finish s t (s.thread t) ev)
    | _ => none

structure Initial (s : State) : Prop where
  pc : ∀ t, s.pc t = .idle
  data : ∀ t, (s.thread t).dataValue = none
  key : ∀ v, s.key v = keyInit
  lock : s.lock = none
  creating : ∀ v, s.creating v = []
  allocated : s.allocated = []
  obtained : s.obtained = []

def system : System State Act where
  init := Initial
  step s a s' := exec s a = some s'

/-! ### One creator at a time -/

/-- The variable of a site is not tested while another thread is in `pth_key_create`
for the site; the search starts with a free entry in the table; and a thread gets
its array of values. -/
def solitary (s : State) : Act → Bool
  | .go t =>
    match s.pc t with
    | .test => (s.creating (s.site t)).isEmpty
    | .clear => (List.range 256).any fun k => !s.used k
    | _ => true
  | .store t calloc => (s.thread t).dataValue.isSome || calloc
  | _ => true

def solitarySystem : System State Act := system.restrict fun s a => solitary s a = true

/-! ### The invariant -/

variable {s : State}
  {pc : Pc}

def Pc.searches : Pc → Bool
  | .bound | .look | .incr | .claim => true
  | _ => false

def Pc.locks : Pc → Bool
  | .clear | .unlock => true
  | pc => pc.searches

def Pc.creates : Pc → Bool
  | .lock => true
  | pc => pc.locks

structure Shared where
  key : Site → Int
  keysOf : Site → List Int
  used : Int → Bool

def State.shared (s : State) : Shared := ⟨s.key, s.keysOf, s.used⟩

variable {c : Shared}

structure Fresh (c : Shared) (v : Site) : Prop where
  keys : c.keysOf v = []
  key : c.key v = keyInit

/-- The search is under way, and an entry from `low` on is free. -/
structure Search (c : Shared) (v : Site) (low : Int) : Prop where
  keys : c.keysOf v = []
  nonneg : 0 ≤ c.key v
  free : ∃ k, low ≤ k ∧ k < keyMax ∧ c.used k = false

structure Settled (c : Shared) (v : Site) (k : Int) : Prop where
  keys : c.keysOf v = [k]
  key : c.key v = k
  nonneg : 0 ≤ k
  lt : k < keyMax
  used : c.used k = true

def Unstored (l : EventAddr → Bool) (b : Thread) (ev : Option EventAddr) : Prop :=
  ∀ e, ev = some e → l e = true ∧ ∀ k, b.stored k ≠ some e

def Relies (c : Shared) (l : EventAddr → Bool) (b : Thread) : Pc → Prop
  | .idle | .test => True
  | .lock | .clear => Fresh c b.site
  | .bound | .look => Search c b.site (c.key b.site)
  | .incr => Search c b.site (c.key b.site + 1)
  | .claim => Search c b.site (c.key b.site) ∧ c.used (c.key b.site) = false
  | .unlock | .read => ∃ k, Settled c b.site k
  | .getdata k => Settled c b.site k
  | .alloc => ∃ k, Settled c b.site k ∧ b.stored k = none
  | .reread ev => (∃ k, Settled c b.site k ∧ b.stored k = none) ∧ Unstored l b ev
  | .setdata k ev => Settled c b.site k ∧ b.stored k = none ∧ Unstored l b ev

/-- Who holds the spinlock, and who is alone in creating the key of a site. -/
structure Guarded (s : State) : Prop where
  locked : ∀ t, (s.pc t).locks = true → s.lock = some t
  creator : ∀ t, (s.pc t).creates = true → s.creating (s.site t) = [t]

structure Safe (s : State) : Prop where
  guarded : Guarded s
  relies : ∀ t, Relies s.shared s.live (s.thread t) (s.pc t)
  phase : ∀ v, Fresh s.shared v ∨ (∃ k, Settled s.shared v k) ∨
    ∃ t, s.site t = v ∧ (s.pc t).searches = true
  keys : (s.allocated.map (·.2)).Nodup
  used : ∀ x ∈ s.allocated, s.used x.2 = true
  live : ∀ t k e, (s.thread t).stored k = some e → s.live e = true
  injective : ∀ t k k' e, (s.thread t).stored k = some e → (s.thread t).stored k' = some e → k = k'
  obtained : ∀ t v e, (t, v, e) ∈ s.obtained →
    ∃ k, Settled s.shared v k ∧ (s.thread t).stored k = some e

theorem Pc.creates_of_locks (h : pc.locks = true) : pc.creates = true := by
  cases pc <;> first | rfl | cases h

theorem Pc.locks_of_searches (h : pc.searches = true) : pc.locks = true := by
  cases pc <;> first | rfl | cases h

/-! ### What a step leaves alone -/

/-- The table grows, but not while a thread searches that relies on it; the variable
of the thread's site does not change. -/
structure Grows (b : Thread) (pc : Pc) (c c' : Shared) : Prop where
  key : c'.key b.site = c.key b.site
  keys : c'.keysOf b.site = c.keysOf b.site
  used : ∀ k, c.used k = true → c'.used k = true
  search : pc.searches = true → c'.used = c.used

theorem Settled.mono (h : Settled c v k) (hk : c'.key v = c.key v) (ha : c'.keysOf v = c.keysOf v)
    (hu : ∀ k, c.used k = true → c'.used k = true) : Settled c' v k :=
  ⟨ha.trans h.keys, hk.trans h.key, h.nonneg, h.lt, hu k h.used⟩

theorem Relies.mono (h : Relies c l b pc) (hg : Grows b pc c c')
    (hl : ∀ e, l e = true → l' e = true) :
    Relies c' l' b pc := by
  have hset : ∀ {k}, Settled c b.site k → Settled c' b.site k := fun h => h.mono hg.key hg.keys hg.used
  have hsearch : ∀ {low}, pc.searches = true → Search c b.site low → Search c' b.site low :=
    fun hs h => ⟨hg.keys.trans h.keys, hg.key ▸ h.nonneg, by rw [hg.search hs]; exact h.free⟩
  have hun : ∀ {ev}, Unstored l b ev → Unstored l' b ev :=
    fun h e he => ⟨hl e (h e he).1, (h e he).2⟩
  cases pc with
  | idle | test => trivial
  | lock | clear => exact ⟨hg.keys.trans h.keys, hg.key.trans h.key⟩
  | bound | look | incr =>
    unfold Relies
    rw [hg.key]
    exact hsearch rfl h
  | claim =>
    unfold Relies
    rw [hg.key, hg.search rfl]
    exact ⟨hsearch rfl h.1, h.2⟩
  | unlock | read => exact h.imp fun _ h => hset h
  | getdata => exact hset h
  | alloc => exact h.imp fun _ h => ⟨hset h.1, h.2⟩
  | reread => exact ⟨h.1.imp fun _ h => ⟨hset h.1, h.2⟩, hun h.2⟩
  | setdata => exact ⟨hset h.1, h.2.1, hun h.2.2⟩

theorem Relies.keysOf_of_searches (h : Relies c l b pc) (hs : pc.searches = true) :
    c.keysOf b.site = [] := by
  cases pc with
  | bound | look | incr => exact h.keys
  | claim => exact h.1.keys
  | _ => cases hs

/-- A thread that has passed the test either creates the key or finds it created. -/
theorem Relies.past_test (h : Relies c l b pc) (hi : pc ≠ .idle) (ht : pc ≠ .test)
    (hc : pc.creates = false) : ∃ k, Settled c b.site k := by
  cases pc with
  | idle => exact absurd rfl hi
  | test => exact absurd rfl ht
  | lock | clear | bound | look | incr | claim | unlock => cases hc
  | read => exact h
  | getdata k => exact ⟨k, h⟩
  | alloc => exact h.imp fun _ h => h.1
  | reread => exact h.1.imp fun _ h => h.1
  | setdata k => exact ⟨k, h.1⟩

/-- While a thread creates the key of a site, no other thread relies on the site. -/
theorem Safe.relies_of_creator (h : Safe s) (ht : (s.pc t).creates = true)
    (hk : s.keysOf (s.site t) = []) (hu : u ≠ t) (hv : s.site u = s.site t) :
    Relies c l (s.thread u) (s.pc u) := by
  have hcreates : (s.pc u).creates = false := by
    by_contra hc
    have := (h.guarded.creator u (by simpa using hc)).symm.trans (hv ▸ h.guarded.creator t ht)
    exact hu (List.cons.inj this).1
  by_cases hi : s.pc u = .idle
  · rw [hi]
    trivial
  by_cases htest : s.pc u = .test
  · rw [htest]
    trivial
  obtain ⟨k, hs⟩ := (h.relies u).past_test hi htest hcreates
  have hnil : s.keysOf (s.site u) = [k] := hs.keys
  rw [hv, hk] at hnil
  cases hnil

theorem forall_thread {P : Tid → Prop} (ht : P t) (h : ∀ u, u ≠ t → P u) : ∀ u, P u := by
  intro u
  by_cases hu : u = t
  · exact hu ▸ ht
  · exact h u hu

theorem Guarded.step (h : Guarded s) (hother : ∀ u, u ≠ t → s'.thread u = s.thread u)
    (hlock : ∀ u, u ≠ t → s.lock = some u → s'.lock = some u)
    (hcreating : ∀ u v, u ≠ t → s.creating v = [u] → s'.creating v = [u])
    (hlocks : (s'.pc t).locks = true → s'.lock = some t)
    (hcreates : (s'.pc t).creates = true → s'.creating (s'.site t) = [t]) : Guarded s' := by
  refine ⟨forall_thread hlocks fun u hu => ?_, forall_thread hcreates fun u hu => ?_⟩
  · unfold State.pc
    rw [hother u hu]
    exact fun hl => hlock u hu (h.locked u hl)
  · unfold State.pc State.site
    rw [hother u hu]
    exact fun hc => hcreating u _ hu (h.creator u hc)

/-! ### Steps that leave the variables and the table alone -/

structure Moves (t : Tid) (b : Thread) (s s' : State) : Prop where
  thread : s'.thread = update s.thread t b
  key : s'.key = s.key
  used : s'.used = s.used
  allocated : s'.allocated = s.allocated
  live : ∀ e, s.live e = true → s'.live e = true

theorem Moves.shared (h : Moves t b s s') : s'.shared = s.shared := by
  have hk : s'.keysOf = s.keysOf := by
    funext v
    rw [State.keysOf, State.keysOf, h.allocated]
  simp [State.shared, hk, h.key, h.used]

theorem Moves.self (h : Moves t b s s') : s'.thread t = b := by
  rw [h.thread, update_self]

theorem Moves.of_ne (h : Moves t b s s') (hu : u ≠ t) : s'.thread u = s.thread u := by
  rw [h.thread, update_of_ne hu]

structure Keeps (l : EventAddr → Bool) (b b' : Thread) : Prop where
  old : ∀ k e, b.stored k = some e → b'.stored k = some e
  live : ∀ k e, b'.stored k = some e → l e = true
  injective : ∀ k k' e, b'.stored k = some e → b'.stored k' = some e → k = k'

theorem Safe.moves (h : Safe s) (hm : Moves t b s s') (hg : Guarded s')
    (hb : Keeps s'.live (s.thread t) b)
    (hsearch : (s.pc t).searches = true → b.site = s.site t ∧ b.pc.searches = true)
    (hr : Relies s.shared s'.live b b.pc)
    (ho : ∀ x ∈ s'.obtained, x ∈ s.obtained ∨
      ∃ v e k, x = (t, v, e) ∧ Settled s.shared v k ∧ b.stored k = some e) : Safe s' where
  guarded := hg
  relies := by
    rw [hm.shared]
    unfold State.pc
    refine forall_thread (by rwa [hm.self]) fun u hu => ?_
    rw [hm.of_ne hu]
    exact (h.relies u).mono ⟨rfl, rfl, fun _ h => h, fun _ => rfl⟩ hm.live
  phase v := by
    rw [hm.shared]
    refine (h.phase v).imp_right (·.imp_right fun ⟨u, hv, hs⟩ => ⟨u, ?_⟩)
    unfold State.site State.pc
    by_cases hu : u = t
    · subst hu
      rw [hm.self]
      exact ⟨(hsearch hs).1.trans hv, (hsearch hs).2⟩
    · rw [hm.of_ne hu]
      exact ⟨hv, hs⟩
  keys := hm.allocated ▸ h.keys
  used := by
    rw [hm.allocated, hm.used]
    exact h.used
  live := by
    refine forall_thread (by rw [hm.self]; exact hb.live) fun u hu k e he => ?_
    rw [hm.of_ne hu] at he
    exact hm.live e (h.live u k e he)
  injective := by
    refine forall_thread (by rw [hm.self]; exact hb.injective) fun u hu => ?_
    rw [hm.of_ne hu]
    exact h.injective u
  obtained u v e hx := by
    rw [hm.shared]
    rcases ho _ hx with hx | ⟨v, e, k, heq, hs, he⟩
    · obtain ⟨k, hs, he⟩ := h.obtained u v e hx
      refine ⟨k, hs, ?_⟩
      by_cases hu : u = t
      · subst hu
        rw [hm.self]
        exact hb.old k e he
      · rwa [hm.of_ne hu]
    · cases heq
      exact ⟨k, hs, by rwa [hm.self]⟩

theorem Safe.keeps (h : Safe s) (hl : ∀ e, s.live e = true → l e = true) :
    Keeps l (s.thread t) { s.thread t with site := v, pc := pc } where
  old _ _ h := h
  live k e he := hl e (h.live t k e he)
  injective := h.injective t

theorem Safe.goto (h : Safe s) (hlocks : pc.locks = true → (s.pc t).locks = true)
    (hcreates : pc.creates = true → (s.pc t).creates = true)
    (hsearch : (s.pc t).searches = true → pc.searches = true)
    (hr : Relies s.shared s.live { s.thread t with pc := pc } pc) : Safe (s.goto t pc) := by
  have hm : Moves t { s.thread t with pc := pc } s (s.goto t pc) := ⟨rfl, rfl, rfl, rfl, fun _ h => h⟩
  have hg : Guarded (s.goto t pc) := by
    refine h.guarded.step (fun u hu => hm.of_ne hu) (fun _ _ h => h) (fun _ _ _ h => h) ?_ ?_
    · unfold State.pc
      rw [hm.self]
      exact fun hl => h.guarded.locked t (hlocks hl)
    · unfold State.pc State.site
      rw [hm.self]
      exact fun hc => h.guarded.creator t (hcreates hc)
  exact h.moves hm hg (h.keeps fun _ h => h) (fun hs => ⟨rfl, hsearch hs⟩) hr fun x hx => .inl hx

theorem Safe.enter (h : Safe s) (hp : s.pc t = .idle) :
    Safe (s.setThread t { s.thread t with site := v, pc := .test }) := by
  have hm : Moves t { s.thread t with site := v, pc := .test } s
      (s.setThread t { s.thread t with site := v, pc := .test }) := ⟨rfl, rfl, rfl, rfl, fun _ h => h⟩
  have hg : Guarded (s.setThread t { s.thread t with site := v, pc := .test }) := by
    refine h.guarded.step (fun u hu => hm.of_ne hu) (fun _ _ h => h) (fun _ _ _ h => h) ?_ ?_
    all_goals
      unfold State.pc
      rw [hm.self]
      exact nofun
  refine h.moves hm hg (h.keeps fun _ h => h) (fun hs => ?_) trivial fun x hx => .inl hx
  rw [hp] at hs
  cases hs

theorem Safe.test (h : Safe s) (hp : s.pc t = .test) (hc : s.creating (s.site t) = [])
    (hf : Fresh s.shared (s.site t)) :
    Safe { s.goto t .lock with
      creating := update s.creating (s.site t) (t :: s.creating (s.site t)) } := by
  refine h.moves ⟨rfl, rfl, rfl, rfl, fun _ h => h⟩ ?_
    (h.keeps fun _ h => h) (fun hs => ?_) hf fun x hx => .inl hx
  · refine h.guarded.step (fun u hu => update_of_ne hu ..) (fun _ _ h => h) ?_ ?_ ?_
    · intro u v hu hv
      have hne : v ≠ s.site t := by
        rintro rfl
        rw [hc] at hv
        cases hv
      exact (update_of_ne hne ..).trans hv
    · simp [State.pc, State.goto, State.setThread, Pc.locks, Pc.searches]
    · intro _
      rw [hc]
      simp [State.site, State.goto, State.setThread]
  · rw [hp] at hs
    cases hs

theorem Safe.lock (h : Safe s) (hp : s.pc t = .lock) (hl : s.lock = none) :
    Safe { s.goto t .clear with lock := some t } := by
  have hr := hp ▸ h.relies t
  refine h.moves ⟨rfl, rfl, rfl, rfl, fun _ h => h⟩ ?_
    (h.keeps fun _ h => h) (fun hs => ?_) hr fun x hx => .inl hx
  · refine h.guarded.step (fun u hu => update_of_ne hu ..) ?_ (fun _ _ _ h => h)
      (fun _ => rfl) fun _ => ?_
    · intro u _ hu
      rw [hl] at hu
      cases hu
    · have := h.guarded.creator t (by rw [hp]; rfl)
      simpa [State.site, State.goto, State.setThread] using this
  · rw [hp] at hs
    cases hs

theorem Safe.unlock (h : Safe s) (hp : s.pc t = .unlock) :
    Safe { s.goto t .read with
      lock := none, creating := update s.creating (s.site t) ((s.creating (s.site t)).erase t) } := by
  have hr := hp ▸ h.relies t
  have hc := h.guarded.creator t (by rw [hp]; rfl)
  have hl := h.guarded.locked t (by rw [hp]; rfl)
  refine h.moves ⟨rfl, rfl, rfl, rfl, fun _ h => h⟩ ?_
    (h.keeps fun _ h => h) (fun hs => ?_) hr fun x hx => .inl hx
  · refine h.guarded.step (fun u hu => update_of_ne hu ..) ?_ ?_ ?_ ?_
    · intro u hu hlu
      exact absurd (Option.some.inj (hlu.symm.trans hl)) hu
    · intro u v hu hv
      have hne : v ≠ s.site t := by
        rintro rfl
        exact hu (List.cons.inj (hv.symm.trans hc)).1
      exact (update_of_ne hne ..).trans hv
    all_goals simp [State.pc, State.goto, State.setThread, Pc.locks, Pc.creates, Pc.searches]
  · rw [hp] at hs
    cases hs

theorem Safe.malloc (h : Safe s) (hp : s.pc t = .alloc) (hev : ev.all (fun e => !s.live e) = true) :
    Safe { s.goto t (.reread ev) with live := fun e => s.live e || ev = some e } := by
  have hgrow : ∀ e, s.live e = true → (s.live e || decide (ev = some e)) = true := fun e he => by simp [he]
  have hr := hp ▸ h.relies t
  refine h.moves ⟨rfl, rfl, rfl, rfl, hgrow⟩ ?_
    (h.keeps hgrow) (fun hs => ?_) ⟨hr, fun e he => ⟨by simp [he], fun k hk => ?_⟩⟩ fun x hx => .inl hx
  · refine h.guarded.step (fun u hu => update_of_ne hu ..) (fun _ _ h => h)
      (fun _ _ _ h => h) ?_ ?_
    all_goals simp [State.pc, State.goto, State.setThread, Pc.locks, Pc.creates, Pc.searches]
  · rw [hp] at hs
    cases hs
  · -- what a thread has stored is allocated
    have := h.live t k e hk
    simp [he, this] at hev

theorem finish_moves (s : State) (t : Tid) (b : Thread) (ev : Option EventAddr) :
    Moves t { b with pc := .idle } s (finish s t b ev) :=
  ⟨rfl, rfl, rfl, rfl, fun _ h => h⟩

/-- `pth_event` returns an event that is stored under the key of the site. -/
theorem Safe.finish (h : Safe s) (hs : (s.pc t).searches = false) (hb : Keeps s.live (s.thread t) b)
    (hk : Settled s.shared (s.site t) k) (hev : ∀ e, ev = some e → b.stored k = some e) :
    Safe (finish s t b ev) := by
  refine h.moves (finish_moves s t b ev) ?_ ⟨hb.old, hb.live, hb.injective⟩ (by simp [hs]) trivial fun x hx => ?_
  · refine h.guarded.step (fun u hu => (finish_moves s t b ev).of_ne hu) (fun _ _ h => h)
      (fun _ _ _ h => h) ?_ ?_
    all_goals simp [State.pc, (finish_moves s t b ev).self, Pc.locks, Pc.creates, Pc.searches]
  · rcases List.mem_append.mp hx with hx | hx
    · exact .inl hx
    · obtain ⟨e, he, rfl⟩ := List.mem_map.mp hx
      exact .inr ⟨_, e, k, rfl, hk, hev e (Option.mem_toList.mp he)⟩

theorem keySetdata_ok (b : Thread) (ev : Option EventAddr)
    (h0 : 0 ≤ k) (hlt : k < keyMax) (hu : used k = true)
    (hc : (b.dataValue.isSome || calloc) = true) :
    ∃ n, keySetdata used b k ev calloc =
      .ok { b with dataValue := some (update b.stored k ev), dataCount := n } := by
  have hrange : ¬ (k < 0 ∨ k ≥ keyMax) := by omega
  have hmem : ¬ (b.dataValue.isNone = true ∧ ¬ calloc = true) := by
    cases hd : b.dataValue <;> simp_all
  unfold keySetdata
  rw [if_neg hrange, if_neg (by simp [hu]), if_neg hmem]
  exact ⟨_, rfl⟩

theorem Safe.keeps_store (h : Safe s) (hnone : (s.thread t).stored k = none)
    (hun : Unstored s.live (s.thread t) ev) :
    Keeps s.live (s.thread t)
      { s.thread t with dataValue := some (update (s.thread t).stored k ev), dataCount := n } := by
  have hstored : ∀ j e, update (s.thread t).stored k ev j = some e →
      j = k ∧ ev = some e ∨ (s.thread t).stored j = some e := by
    intro j e he
    by_cases hj : j = k
    · subst hj
      exact .inl ⟨rfl, by simpa using he⟩
    · exact .inr (by simpa [hj] using he)
  refine ⟨fun j e he => ?_, fun j e he => ?_, fun j j' e he he' => ?_⟩
  · have hne : j ≠ k := by
      rintro rfl
      rw [hnone] at he
      cases he
    exact (update_of_ne hne ..).trans he
  · rcases hstored j e he with ⟨-, hev⟩ | hold
    · exact (hun e hev).1
    · exact h.live t j e hold
  · rcases hstored j e he with ⟨rfl, hev⟩ | hold <;> rcases hstored j' e he' with ⟨rfl, hev'⟩ | hold'
    · rfl
    · exact absurd hold' ((hun e hev).2 j')
    · exact absurd hold ((hun e hev').2 j)
    · exact h.injective t j j' e hold hold'

theorem Safe.store (h : Safe s) (hp : s.pc t = .setdata k ev)
    (hc : ((s.thread t).dataValue.isSome || calloc) = true) :
    ∃ b, keySetdata s.used (s.thread t) k ev calloc = .ok b ∧ Safe (Keys.finish s t b ev) := by
  obtain ⟨hset, hnone, hun⟩ : Settled _ _ _ ∧ _ ∧ _ := hp ▸ h.relies t
  obtain ⟨n, hb⟩ := keySetdata_ok (s.thread t) ev hset.nonneg hset.lt hset.used hc
  refine ⟨_, hb, h.finish (by rw [hp]; rfl) (h.keeps_store hnone hun) hset fun e he => ?_⟩
  exact (update_self ..).trans he

/-! ### The search -/

/-- A step of the search, or the one that ends it. -/
structure Works (t : Tid) (pc : Pc) (s s' : State) : Prop where
  thread : s'.thread = update s.thread t { s.thread t with pc := pc }
  key : ∀ v, v ≠ s.site t → s'.key v = s.key v
  keys : ∀ v, v ≠ s.site t → s'.keysOf v = s.keysOf v
  used : ∀ k, s.used k = true → s'.used k = true
  lock : s'.lock = s.lock
  creating : s'.creating = s.creating
  live : s'.live = s.live
  obtained : s'.obtained = s.obtained

theorem Works.self (h : Works t pc s s') : s'.thread t = { s.thread t with pc := pc } := by
  rw [h.thread, update_self]

theorem Works.of_ne (h : Works t pc s s') (hu : u ≠ t) : s'.thread u = s.thread u := by
  rw [h.thread, update_of_ne hu]

theorem Works.stored (h : Works t pc s s') (u : Tid) :
    (s'.thread u).stored = (s.thread u).stored := by
  by_cases hu : u = t
  · subst hu
    rw [h.self]
    rfl
  · rw [h.of_ne hu]

theorem Safe.works (h : Safe s) (hw : Works t pc s s') (hl : (s.pc t).locks = true)
    (hk : s.keysOf (s.site t) = []) (hr : Relies s'.shared s'.live { s.thread t with pc := pc } pc)
    (hphase : pc.searches = true ∨ ∃ k, Settled s'.shared (s.site t) k)
    (hkeys : (s'.allocated.map (·.2)).Nodup) (hused : ∀ x ∈ s'.allocated, s'.used x.2 = true) : Safe s' := by
  have hlock := h.guarded.locked t hl
  have hset : ∀ {v k}, Settled s.shared v k → Settled s'.shared v k := fun {v k} hs => by
    have hv : v ≠ s.site t := by
      rintro rfl
      cases hs.keys.symm.trans hk
    exact hs.mono (hw.key v hv) (hw.keys v hv) hw.used
  refine ⟨?_, ?_, fun v => ?_, hkeys, hused, fun u k e he => ?_, fun u => ?_, fun u v e hx => ?_⟩
  · refine h.guarded.step (fun u hu => hw.of_ne hu) (fun _ _ h => hw.lock.trans h)
      (fun _ _ _ h => by rw [hw.creating]; exact h) (fun _ => hw.lock.trans hlock) fun _ => ?_
    rw [hw.creating, State.site, hw.self]
    exact h.guarded.creator t (Pc.creates_of_locks hl)
  · unfold State.pc
    refine forall_thread (by rwa [hw.self]) fun u hu => ?_
    rw [hw.of_ne hu]
    by_cases hv : s.site u = s.site t
    · exact h.relies_of_creator (Pc.creates_of_locks hl) hk hu hv
    · refine (h.relies u).mono ⟨hw.key _ hv, hw.keys _ hv, hw.used, fun hs => ?_⟩ (hw.live ▸ fun _ h => h)
      have := h.guarded.locked u (Pc.locks_of_searches hs)
      exact absurd (Option.some.inj (this.symm.trans hlock)) hu
  · by_cases hv : v = s.site t
    · subst hv
      rcases hphase with hs | hs
      · exact .inr (.inr ⟨t, by rw [State.site, hw.self]; rfl, by rw [State.pc, hw.self]; exact hs⟩)
      · exact .inr (.inl hs)
    · rcases h.phase v with hf | ⟨k, hs⟩ | ⟨u, hu, hs⟩
      · exact .inl ⟨(hw.keys v hv).trans hf.keys, (hw.key v hv).trans hf.key⟩
      · exact .inr (.inl ⟨k, hset hs⟩)
      · have hne : u ≠ t := by
          rintro rfl
          exact hv hu.symm
        refine .inr (.inr ⟨u, ?_⟩)
        unfold State.site State.pc
        rw [hw.of_ne hne]
        exact ⟨hu, hs⟩
  · rw [hw.stored] at he
    rw [hw.live]
    exact h.live u k e he
  · rw [hw.stored]
    exact h.injective u
  · rw [hw.obtained] at hx
    obtain ⟨k, hs, he⟩ := h.obtained u v e hx
    exact ⟨k, hset hs, by rwa [hw.stored]⟩

theorem Safe.write (h : Safe s) (hl : (s.pc t).locks = true) (hk : s.keysOf (s.site t) = [])
    (h0 : 0 ≤ x) (hfree : ∃ k, x ≤ k ∧ k < keyMax ∧ s.used k = false) :
    Safe { s.goto t .bound with key := update s.key (s.site t) x } := by
  have hx : update s.key (s.site t) x (s.site t) = x := update_self ..
  have hr : Search { s.goto t .bound with key := update s.key (s.site t) x }.shared (s.site t)
      (update s.key (s.site t) x (s.site t)) :=
    ⟨hk, h0.trans_eq hx.symm, by rw [hx]; exact hfree⟩
  have hw : Works t .bound s { s.goto t .bound with key := update s.key (s.site t) x } :=
    ⟨rfl, fun v hv => update_of_ne hv .., fun _ _ => rfl, fun _ h => h, rfl, rfl, rfl, rfl⟩
  exact h.works hw hl hk hr (.inl rfl) h.keys h.used

theorem keysOf_append (l : List (Site × Int)) :
    ((l ++ [(v, k)]).filter (·.1 = w)).map (·.2) =
      (l.filter (·.1 = w)).map (·.2) ++ if v = w then [k] else [] := by
  by_cases h : v = w <;> simp [h]

theorem Safe.claim (h : Safe s) (hp : s.pc t = .claim) :
    Safe { s.goto t .unlock with
      used := update s.used (s.key (s.site t)) true
      allocated := s.allocated ++ [(s.site t, s.key (s.site t))] } := by
  obtain ⟨hs, hfree⟩ : Search _ _ _ ∧ s.used (s.key (s.site t)) = false := hp ▸ h.relies t
  have hk : s.keysOf (s.site t) = [] := hs.keys
  have hgrow : ∀ k, s.used k = true → update s.used (s.key (s.site t)) true k = true := by
    intro k hu
    by_cases he : k = s.key (s.site t)
    · simp [he]
    · simpa [he] using hu
  have hset : Settled { s.goto t .unlock with
      used := update s.used (s.key (s.site t)) true
      allocated := s.allocated ++ [(s.site t, s.key (s.site t))] }.shared (s.site t) (s.key (s.site t)) := by
    refine ⟨(keysOf_append _).trans ?_, rfl, hs.nonneg, ?_, update_self ..⟩
    · rw [if_pos rfl]
      exact congrArg (· ++ _) hk
    · obtain ⟨k, hle, hlt, -⟩ := hs.free
      exact Int.lt_of_le_of_lt hle hlt
  have hw : Works t .unlock s { s.goto t .unlock with
      used := update s.used (s.key (s.site t)) true
      allocated := s.allocated ++ [(s.site t, s.key (s.site t))] } := by
    refine ⟨rfl, fun _ _ => rfl, fun v hv => (keysOf_append _).trans ?_, hgrow, rfl, rfl, rfl, rfl⟩
    rw [if_neg (Ne.symm hv), List.append_nil]
    rfl
  refine h.works hw (by rw [hp]; rfl) hk ⟨_, hset⟩ (.inr ⟨_, hset⟩) ?_ ?_
  · -- the entry was free, so it is none of the keys created before
    rw [List.map_append, List.nodup_append]
    refine ⟨h.keys, List.nodup_singleton _, fun k hk k' hk' heq => ?_⟩
    obtain ⟨x, hx, hxk⟩ := List.mem_map.mp hk
    have hused := h.used x hx
    rw [hxk, heq, List.mem_singleton.mp hk', hfree] at hused
    cases hused
  · intro x hx
    rcases List.mem_append.mp hx with hx | hx
    · exact hgrow _ (h.used x hx)
    · rw [List.mem_singleton.mp hx]
      exact update_self ..

/-! ### Runs -/

theorem Safe.testStep (h : Safe s) (hp : s.pc t = .test) (hc : s.creating (s.site t) = [])
    (hs : go s t = some s') : Safe s' := by
  have hphase : Fresh s.shared (s.site t) ∨ ∃ k, Settled s.shared (s.site t) k := by
    rcases h.phase (s.site t) with hf | hs | ⟨u, hv, hs⟩
    · exact .inl hf
    · exact .inr hs
    · have := h.guarded.creator u (Pc.creates_of_locks (Pc.locks_of_searches hs))
      rw [hv, hc] at this
      cases this
  simp only [go, hp] at hs
  split at hs <;> cases hs
  case isTrue hk =>
    refine h.test hp hc (hphase.resolve_right fun ⟨k, hset⟩ => ?_)
    have h0 := hset.nonneg
    rw [hset.key.symm.trans hk] at h0
    exact absurd h0 (by decide)
  case isFalse hk =>
    refine h.goto nofun nofun (by rw [hp]; exact nofun) ?_
    exact hphase.resolve_left fun hf => hk hf.key

theorem exists_free {used : Int → Bool} (h : ((List.range 256).any fun k => !used k) = true) :
    ∃ k, 0 ≤ k ∧ k < keyMax ∧ used k = false := by
  obtain ⟨k, hk, hu⟩ := List.any_eq_true.mp h
  refine ⟨k, Int.natCast_nonneg k, ?_, by simpa using hu⟩
  have := List.mem_range.mp hk
  unfold keyMax
  omega

theorem Safe.look (h : Safe s) (hp : s.pc t = .look) :
    Safe (s.goto t (if s.used (s.key (s.site t)) then .incr else .claim)) := by
  have hr : Search _ _ _ := hp ▸ h.relies t
  split
  case isTrue hu =>
    refine h.goto (fun _ => by rw [hp]; rfl) (fun _ => by rw [hp]; rfl) (fun _ => rfl)
      ⟨hr.keys, hr.nonneg, ?_⟩
    obtain ⟨k, hle, hlt, hk⟩ := hr.free
    have hne : k ≠ s.key (s.site t) := by
      rintro rfl
      cases hk.symm.trans hu
    have hle' : s.key (s.site t) ≤ k := hle
    have hlt' : s.key (s.site t) + 1 ≤ k := by omega
    exact ⟨k, hlt', hlt, hk⟩
  case isFalse hu =>
    exact h.goto (fun _ => by rw [hp]; rfl) (fun _ => by rw [hp]; rfl) (fun _ => rfl)
      ⟨hr, Bool.eq_false_iff.mpr hu⟩

theorem Safe.getdata (h : Safe s) (hp : s.pc t = .getdata k) (hs : go s t = some s') : Safe s' := by
  have hr : Settled _ _ _ := hp ▸ h.relies t
  have hget : keyGetdata s.used (s.thread t) k = .ok ((s.thread t).stored k) := by
    have hrange : ¬ (k < 0 ∨ k ≥ keyMax) := by
      have := hr.nonneg
      have := hr.lt
      omega
    have hused : s.used k = true := hr.used
    rw [keyGetdata, if_neg hrange, if_pos hused]
  simp only [go, hp] at hs
  split at hs
  case isTrue => cases hs
  case isFalse =>
  rw [hget] at hs
  cases he : (s.thread t).stored k with
  | some =>
    rw [he] at hs
    cases hs
    refine h.finish (by rw [hp]; rfl) (h.keeps fun _ h => h) hr fun e' he' => ?_
    cases he'
    exact he
  | none =>
    rw [he] at hs
    cases hs
    exact h.goto nofun nofun (by rw [hp]; exact nofun)
      ⟨k, hr, he⟩

theorem Safe.go (h : Safe s) (hok : solitary s (.go t) = true) (hs : go s t = some s') :
    Safe s' := by
  have hr := h.relies t
  cases hp : s.pc t with
  | idle | alloc | setdata =>
    simp only [Keys.go, hp] at hs
    cases hs
  | test => exact h.testStep hp (by simpa [solitary, hp] using hok) hs
  | lock =>
    simp only [Keys.go, hp] at hs
    split at hs <;> cases hs
    exact h.lock hp ‹_›
  | clear =>
    rw [hp] at hr
    simp only [Keys.go, hp] at hs
    simp only [solitary, hp] at hok
    cases hs
    exact h.write (by rw [hp]; rfl) hr.keys (Int.le_refl 0) (exists_free hok)
  | bound =>
    rw [hp] at hr
    obtain ⟨k, hle, hlt, -⟩ := Search.free hr
    have hmax : s.key (s.site t) < keyMax := Int.lt_of_le_of_lt hle hlt
    simp only [Keys.go, hp, hmax] at hs
    cases hs
    exact h.goto (fun _ => by rw [hp]; rfl) (fun _ => by rw [hp]; rfl) (fun _ => rfl) hr
  | look =>
    simp only [Keys.go, hp] at hs
    cases hs
    exact h.look hp
  | incr =>
    rw [hp] at hr
    simp only [Keys.go, hp] at hs
    cases hs
    exact h.write (by rw [hp]; rfl) (Search.keys hr) (Int.le_add_one (Search.nonneg hr)) (Search.free hr)
  | claim =>
    simp only [Keys.go, hp] at hs
    cases hs
    exact h.claim hp
  | unlock =>
    simp only [Keys.go, hp] at hs
    cases hs
    exact h.unlock hp
  | read =>
    rw [hp] at hr
    obtain ⟨k, hset⟩ := hr
    simp only [Keys.go, hp] at hs
    cases hs
    refine h.goto nofun nofun (by rw [hp]; exact nofun) ?_
    have hkey : s.key (s.site t) = k := hset.key
    exact hkey.symm ▸ hset
  | getdata => exact h.getdata hp hs
  | reread =>
    rw [hp] at hr
    obtain ⟨⟨k, hset, hnone⟩, hun⟩ := hr
    simp only [Keys.go, hp] at hs
    cases hs
    refine h.goto nofun nofun (by rw [hp]; exact nofun) ?_
    have hkey : s.key (s.site t) = k := hset.key
    exact ⟨hkey.symm ▸ hset, hkey.symm ▸ hnone, hun⟩

theorem Safe.step (h : Safe s) (hok : solitary s a = true) (hs : exec s a = some s') : Safe s' := by
  cases a with
  | enter =>
    simp only [exec] at hs
    split at hs <;> cases hs
    exact h.enter ‹_›
  | go => exact h.go hok hs
  | malloc =>
    simp only [exec] at hs
    split at hs <;> cases hs
    rename_i hp
    exact h.malloc hp.1 hp.2
  | store =>
    simp only [exec] at hs
    split at hs
    case h_2 => cases hs
    case h_1 k ev hp =>
    split at hs
    case isTrue => cases hs
    case isFalse =>
    obtain ⟨b, hb, hsafe⟩ := h.store hp hok
    rw [hb] at hs
    cases hs
    exact hsafe

theorem Initial.safe (h : Initial s) : Safe s := by
  have hstored : ∀ t k, (s.thread t).stored k = none := by
    intro t k
    rw [Thread.stored, h.data t]
  refine ⟨⟨fun t ht => ?_, fun t ht => ?_⟩, fun t => ?_, fun v => .inl ⟨?_, h.key v⟩, ?_, ?_, ?_, ?_, ?_⟩
  · rw [h.pc t] at ht
    cases ht
  · rw [h.pc t] at ht
    cases ht
  · rw [h.pc t]
    trivial
  all_goals simp [State.shared, State.keysOf, h.allocated, h.obtained, hstored]

theorem safe_of_reachable (h : Reachable solitarySystem s) : Safe s := by
  refine h.invariant ?_ ?_
  · intro s hi
    exact Initial.safe hi
  · intro s a s' hI hs
    exact hI.step hs.1 hs.2

theorem mem_allocated (h : s.keysOf v = [k]) : (v, k) ∈ s.allocated := by
  have hk : k ∈ s.keysOf v := by simp [h]
  obtain ⟨x, hx, rfl⟩ := List.mem_map.mp hk
  obtain ⟨hx, hv⟩ := List.mem_filter.mp hx
  rwa [← of_decide_eq_true hv]

/-- Every site has one key at most, every event that was obtained through a site is
stored under it, and no thread gets one event for two sites. -/
theorem one_key_per_site (h : Reachable solitarySystem s) :
    (∀ v, (s.keysOf v).length ≤ 1) ∧
      (∀ t v e, (t, v, e) ∈ s.obtained → ∃ k, s.keysOf v = [k] ∧ (s.thread t).stored k = some e) ∧
      ∀ t v w e, (t, v, e) ∈ s.obtained → (t, w, e) ∈ s.obtained → v = w := by
  have hI := safe_of_reachable h
  refine ⟨fun v => ?_, fun t v e he => ?_, fun t v w e hv hw => ?_⟩
  · have hkeys : s.keysOf v = [] ∨ ∃ k, s.keysOf v = [k] := by
      rcases hI.phase v with hf | ⟨k, hs⟩ | ⟨t, rfl, hs⟩
      · exact .inl hf.keys
      · exact .inr ⟨k, hs.keys⟩
      · exact .inl ((hI.relies t).keysOf_of_searches hs)
    rcases hkeys with hk | ⟨k, hk⟩ <;> simp [hk]
  · obtain ⟨k, hs, hst⟩ := hI.obtained t v e he
    exact ⟨k, hs.keys, hst⟩
  · obtain ⟨k, hsv, hkv⟩ := hI.obtained t v e hv
    obtain ⟨k', hsw, hkw⟩ := hI.obtained t w e hw
    obtain rfl := hI.injective t k k' e hkv hkw
    -- the two sites have the same key
    have := List.inj_on_of_nodup_map hI.keys (mem_allocated hsv.keys) (mem_allocated hsw.keys) rfl
    exact congrArg Prod.fst this

/-! ### Schedules -/

def boot : State where
  thread _ := ⟨0, .idle, none, 0⟩
  key _ := keyInit
  used _ := false
  lock := none
  live _ := false
  creating _ := []
  allocated := []
  obtained := []

theorem boot_initial : Initial boot :=
  ⟨fun _ => rfl, fun _ => rfl, fun _ => rfl, rfl, fun _ => rfl, rfl, rfl⟩

theorem exists_reachable (ok : State → Act → Bool) [DecidablePred P] (acts : List Act)
    (h : (acts.foldlM (stepIf ok exec) boot).any (fun s => decide (P s)) = true) :
    ∃ s, Reachable (system.restrict fun s a => ok s a = true) s ∧ P s :=
  exists_reachable_restrict (fun _ _ _ h => h) boot_initial h

def goes (t : Tid) (n : Nat) : List Act := List.replicate n (.go t)

/-- The first use of a site, whose key is created `later` turns of the search behind
key 0. -/
def firstUse (t : Tid) (v : Site) (e : EventAddr) (later : Nat) : List Act :=
  .enter t v :: goes t (9 + 3 * later) ++ [.malloc t (some e), .go t, .store t true]

def twoSites : List Act :=
  firstUse 1 10 100 0 ++ firstUse 1 11 101 1 ++
    .enter 2 10 :: goes 2 3 ++ [.malloc 2 (some 102), .go 2, .store 2 true]

theorem one_key_per_site_twoSites :
    ∃ s, Reachable solitarySystem s ∧ s.obtained = [(1, 10, 100), (1, 11, 101), (2, 10, 102)] ∧
      (∀ v, (s.keysOf v).length ≤ 1) ∧
      (∀ t v e, (t, v, e) ∈ s.obtained → ∃ k, s.keysOf v = [k] ∧ (s.thread t).stored k = some e) ∧
      ∀ t v w e, (t, v, e) ∈ s.obtained → (t, w, e) ∈ s.obtained → v = w := by
  obtain ⟨s, hs, ho⟩ := exists_reachable solitary
    (P := fun s => s.obtained = [(1, 10, 100), (1, 11, 101), (2, 10, 102)]) twoSites (by decide +kernel)
  exact ⟨s, hs, ho, one_key_per_site hs⟩

/-- Thread 1 reads the variable of site 11 while thread 2 has the candidate 0 in it,
which is the key of site 10. -/
def candidateRead : List Act :=
  firstUse 1 10 100 0 ++ .enter 2 11 :: goes 2 3 ++ .enter 1 11 :: goes 1 2 ++ goes 2 7 ++ [.go 1]

/-- Both threads find `PTH_KEY_INIT`. -/
def bothTest : List Act :=
  [.enter 1 10, .enter 2 10, .go 1, .go 2] ++ goes 1 6 ++ goes 2 9

theorem sites_share_event :
    (∃ s, Reachable system s ∧ (1, 10, 100) ∈ s.obtained ∧ (1, 11, 100) ∈ s.obtained) ∧
      ∃ s, Reachable system s ∧ s.keysOf 10 = [0, 1] := by
  constructor
  · exact exists_reachable_foldlM (fun _ _ _ h => h) boot_initial candidateRead (by decide +kernel)
  · exact exists_reachable_foldlM (fun _ _ _ h => h) boot_initial bothTest (by decide +kernel)

end GnuPth.Keys
