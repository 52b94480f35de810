import GnuPth.Sync.Client
import GnuPth.Sync.MutexRuns

/-!
# Lazily initialized POSIX mutexes

`pthread_mutex_lock`, `pthread_mutex_trylock` and `pthread_mutex_unlock` on a
variable that starts as `PTHREAD_MUTEX_INITIALIZER`: a null pointer that the
first call replaces by a mutex of its own. The test, the allocation, the store
and the second read of the variable are separate steps.
-/

namespace GnuPth

open Function (update update_eq_self)
open Transition

namespace Pthread

inductive Op
  | lock
  | trylock
  | unlock
  deriving DecidableEq, Repr

inductive Point
  | out
  -- the variable was null
  | initializing (op : Op)
  | storing (m : MutexId) (op : Op)
  -- about to read the variable again and to call the primitive
  | calling (op : Op)
  deriving DecidableEq, Repr

structure State (σ : Type) where
  sync : GnuPth.State σ
  -- the variable
  mutex : Option MutexId
  -- what `malloc` gives out next
  fresh : MutexId
  point : Tid → Point

inductive Action
  | sync (a : Act)
  | enter (t : Tid) (op : Op)
  -- the next step of the code; `ok` says whether `malloc` succeeds
  | run (t : Tid) (ok : Bool)
  deriving DecidableEq, Repr

def Action.thread : Action → Option Tid
  | .sync _ => none
  | .enter t _ | .run t _ => some t

/-- The fields as `pth_mutex_init` sets them. -/
def initMutex : Mutex := ⟨true, false, false, none, 0⟩

def mutexInit (s : GnuPth.State WaitLinks) (m : MutexId) : GnuPth.State WaitLinks :=
  { s with
    mutex := update s.mutex m initMutex
    store := { s.store with waitq := update s.store.waitq (.mutex m) ⟨none, none⟩ } }

def Op.act (t : Tid) (m : MutexId) : Op → Act
  | .lock => .acquire t m false false
  | .trylock => .acquire t m true false
  | .unlock => .release t m

section
variable (home : Tid → SchedId) (heap : MutexId) (ops : WaitOps WaitLinks) (s : State WaitLinks)
  (t : Tid)

def State.goto (p : Point) : State WaitLinks := { s with point := update s.point t p }

/-- The application makes calls of the mutex interface outside the three
functions. Mutexes from `heap` on are memory of the allocator: it cannot name them. -/
def State.permits (a : Act) : Bool :=
  a.mutexOnly && (!a.isCall || a.actor.all fun t => s.point t = .out) &&
    match a with
    | .acquire _ m _ _ | .release _ m | .setfair _ m _ => m < heap
    | _ => true

def run (ok : Bool) : Option (State WaitLinks) :=
  match s.point t with
  | .out => none
  | .initializing op =>
    some <| if ok then
      { s with
        sync := mutexInit s.sync s.fresh
        fresh := s.fresh + 1
        point := update s.point t (.storing s.fresh op) }
    else s.goto t .out
  | .storing m op => some ({ s with mutex := some m }.goto t (.calling op))
  | .calling op =>
    match s.mutex with
    | none => some (s.goto t .out)
    | some m =>
      (GnuPth.exec home ops s.sync (op.act t m)).map fun sync =>
        { s with sync, point := update s.point t .out }

def exec : Action → Option (State WaitLinks)
  | .sync a =>
    if s.permits heap a then (GnuPth.exec home ops s.sync a).map fun sync => { s with sync }
    else none
  | .enter t op =>
    if running home s.sync t ∧ (s.sync.tcb t).pc = .app ∧ s.point t = .out then
      some (s.goto t (if s.mutex = none then .initializing op else .calling op))
    else none
  | .run t ok =>
    if running home s.sync t ∧ (s.sync.tcb t).pc = .app then run home ops s t ok else none

end

/-- Memory is not read before it is initialized, so that of the allocator may be
taken to hold what `pth_mutex_init` will write. -/
def system (home : Tid → SchedId) (heap : MutexId) : System (State WaitLinks) Action where
  init s := ∃ cfg, (∀ m, heap ≤ m → cfg.mutexInit m = true ∧ cfg.fair m = false) ∧
    s = ⟨GnuPth.initial .empty cfg, none, heap, fun _ => .out⟩
  step s a s' := ∃ fuel, exec home heap (linkOps fuel) s a = some s'

/-- Between a successful lock of the variable and its unlock: the thread has
acquired a mutex that was made for the variable and has not released it. -/
def State.inside (heap : MutexId) (s : State WaitLinks) (t : Tid) : Prop :=
  ∃ m, heap ≤ m ∧ t ∈ holders m s.sync.log

def Point.initializes : Point → Bool
  | .initializing _ | .storing .. => true
  | .out | .calling _ => false

/-- No thread tests the variable while another one is between its own test and
its store. -/
def Serial (s : State WaitLinks) (a : Action) : Prop :=
  ∀ t op, a = .enter t op → ∀ u, u ≠ t → (s.point u).initializes = false

/-! ### What a step of the primitives can do to a mutex -/

/-- The mutex that the thread is in `pth_mutex_acquire` for, or in its cleanup
handler. -/
def acquires : Pc → Option MutexId
  | .mutexEnter m _ _ _ | .mutexWait m _ _ | .mutexWoken m _ _ | .mutexCleanup m _ => some m
  | _ => none

section
variable {ops : WaitOps WaitLinks} {log : List Obs}

theorem next_acquires (h : Next a pc os pc') (hm : acquires pc' = some m) :
    acquires pc = some m ∨ pc.inAwait = true ∨
      ∃ t tryonly extra, a = .acquire t m tryonly extra := by
  cases h with
  | stay => exact .inl hm
  | call he =>
    cases a with
    | acquire t m' tryonly extra =>
      cases he
      cases hm
      exact .inr (.inr ⟨_, tryonly, extra, rfl⟩)
    | release | await | notify | rwlockAcquire | rwlockRelease | join =>
      cases he
      cases hm
    | _ => cases he
  | woken | unwound =>
    cases pc with
    | mutexWait | mutexEnter | mutexWoken | mutexCleanup => exact .inl hm
    | condWait => exact .inr (.inl rfl)
    | _ => cases hm
  | @acquired _ _ _ _ k | @mutexDone _ _ _ k => cases k <;> cases hm
  | mutexPark | mutexRepark => exact .inl hm
  | condWoken => exact .inr (.inl rfl)
  | releaseFail hk | releaseDone hk =>
    revert hm
    exact hk.elim nofun (fun _ _ => nofun) nofun (fun _ _ => nofun)
  | post hk =>
    revert hm
    exact hk.elim nofun (fun _ _ _ => nofun) nofun (fun _ _ => nofun) (fun _ _ => nofun)
      (fun _ => nofun)
  | _ => cases hm

theorem next_acquired (h : Next a pc os pc') (ho : .acquire t m .ok ∈ os) :
    acquires pc = some m := by
  cases h with
  | @acquired _ _ _ _ k | @mutexDone _ _ _ k =>
    cases k <;> simp_all [AcquireFrom.obs, acquires]
  | @post _ _ k =>
    cases k with
    | notify c broadcast => cases broadcast <;> simp [PostThen.obs] at ho
    | _ => cases ho
  | _ => simp at ho

theorem acquires_of_inWait (h : (pc.mutexRole m).inWait = true) : acquires pc = some m := by
  cases pc with
  | mutexWait m' | mutexWoken m' | mutexCleanup m' =>
    by_cases hm : m' = m
    · subst hm
      rfl
    · simp [hm, MutexRole.inWait] at h
  | releaseLock m' =>
    by_cases hm : m' = m <;> simp [hm, MutexRole.inWait] at h
  | _ => cases h

theorem holders_append (h : holders m (os ++ log) ≠ []) :
    holders m log ≠ [] ∨ ∃ t, .acquire t m .ok ∈ os := by
  induction os with
  | nil => exact .inl h
  | cons o os ih =>
    have hrest (h : holders m (os ++ log) ≠ []) :
        holders m log ≠ [] ∨ ∃ t, .acquire t m .ok ∈ o :: os :=
      (ih h).imp_right fun ⟨t, ht⟩ => ⟨t, List.mem_cons_of_mem _ ht⟩
    rw [List.cons_append] at h
    unfold holders at h
    split at h
    · cases ‹_ :: _ = []›
    · rename_i t m' log' he
      cases he
      split at h
      · rename_i hm
        subst hm
        exact .inr ⟨t, List.mem_cons_self⟩
      · exact hrest h
    · rename_i t m' log' he
      cases he
      split at h
      · exact hrest fun hnil => h (by rw [hnil]; rfl)
      · exact hrest h
    · rename_i he
      cases he
      exact hrest h

/-- The fields of a mutex change by a call that names it, or by a thread that
is acquiring it or gives it away. -/
theorem step_mutex (h : GnuPth.Step home ops s a s') (m : MutexId) :
    s'.mutex m = s.mutex m ∨ (∃ t fair, a = .setfair t m fair) ∨
      ∃ t, a = .step t ∧ (acquires (s.tcb t).pc = some m ∨ GivesAway s t m) := by
  have hne {m' : MutexId} {x : Mutex} (hm : m' ≠ m) (hx : s'.mutex = update s.mutex m' x) :
      s'.mutex m = s.mutex m := by
    rw [hx, Function.update_of_ne (Ne.symm hm)]
  cases h with
  | @setfair t m' fair =>
    by_cases hm : m' = m
    · subst hm
      exact .inr (.inl ⟨t, fair, rfl⟩)
    · exact .inl (hne hm rfl)
  | @take t m' tryonly extra k hr hpc | @recurse t m' tryonly extra k hr hpc
  | @retake t m' extra k b store hr hpc =>
    by_cases hm : m' = m
    · subst hm
      exact .inr (.inr ⟨t, rfl, .inl (by rw [hpc]; rfl)⟩)
    · exact .inl (hne hm rfl)
  | @passOn t m' k w store hr hpc ho | @passFree t m' k store hr hpc ho =>
    by_cases hm : m' = m
    · subst hm
      exact .inr (.inr ⟨t, rfl, .inr (.inl ⟨⟨k, hpc⟩, ho⟩)⟩)
    · exact .inl (hne hm rfl)
  | @handoff t m' k w store hr hpc | @wakeOne t m' k w store hr hpc
  | @unlock t m' k store b g hr hpc | @unrecurse t m' k b g hr hpc =>
    by_cases hm : m' = m
    · subst hm
      exact .inr (.inr ⟨t, rfl, .inr (.inr ⟨k, hpc⟩)⟩)
    · exact .inl (hne hm rfl)
  | _ => exact .inl rfl

end

/-! ### Exclusion -/

abbrev mutexSystem (home : Tid → SchedId) : System (GnuPth.State WaitLinks) Act :=
  (pthSystem home).restrict fun _ a => a.mutexOnly = true

/-- What holds while a single thread at a time initializes the variable. -/
structure Safe (home : Tid → SchedId) (heap : MutexId) (s : State WaitLinks) : Prop where
  reachable : Reachable (mutexSystem home) s.sync
  grown : heap ≤ s.fresh
  clean : ∀ m, s.fresh ≤ m → s.sync.mutex m = initMutex
  acquiring : ∀ t m, acquires (s.sync.tcb t).pc = some m → heap ≤ m → s.mutex = some m
  held : ∀ m, heap ≤ m → holders m s.sync.log ≠ [] → s.mutex = some m
  allocated : ∀ m, s.mutex = some m → m < s.fresh
  storing : ∀ t m op, s.point t = .storing m op → m < s.fresh
  unset : ∀ t, (s.point t).initializes = true → s.mutex = none
  alone : ∀ t u, (s.point t).initializes = true → (s.point u).initializes = true → u = t

section
variable {s : State WaitLinks}

theorem ownerOk_of_reachable {s : GnuPth.State WaitLinks} (h : Reachable (mutexSystem home) s) :
    OwnerOk s := by
  refine h.invariant ?_ ?_
  · rintro _ ⟨cfg, rfl⟩
    exact ⟨fun m => by simp [GnuPth.initial], nofun⟩
  · rintro s a s' inv ⟨-, fuel, hs⟩
    exact inv.step (exec_step hs)

/-- A step of the primitives; a call that names memory of the allocator is one
for the mutex in the variable. -/
theorem Safe.primitive (h : Safe home heap s) (hm : a.mutexOnly = true)
    (hacq : ∀ t m tryonly extra, a = .acquire t m tryonly extra → heap ≤ m → s.mutex = some m)
    (hfair : ∀ t m fair, a = .setfair t m fair → m < heap)
    (hs : GnuPth.exec home (linkOps fuel) s.sync a = some sync) :
    Safe home heap { s with sync } := by
  have hstep := exec_step hs
  have hnot := not_inAwait (fun _ a ha t c m extra => by rintro rfl; cases ha) h.reachable
  refine ⟨.step h.reachable ⟨hm, fuel, hs⟩, h.grown, fun m hfresh => ?_, fun t m hpc hheap => ?_,
    fun m hheap hh => ?_, h.allocated, h.storing, h.unset, h.alone⟩
  · have hclean := h.clean m hfresh
    rcases step_mutex hstep m with he | ⟨t, fair, rfl⟩ | ⟨t, -, hpc | hg⟩
    · exact he.trans hclean
    · exact absurd (hfair t m fair rfl) (Nat.not_lt.mpr (Nat.le_trans h.grown hfresh))
    · have hset := h.acquiring t m hpc (Nat.le_trans h.grown hfresh)
      exact absurd (h.allocated m hset) (Nat.not_lt.mpr hfresh)
    · have ho := (ownerOk_of_reachable h.reachable).givesAway hg
      rw [hclean] at ho
      cases ho
  · by_cases ha : a.actor = some t
    · obtain ⟨os, -, hn⟩ := hstep.next ha
      rcases next_acquires hn hpc with hpc | hin | ⟨t, tryonly, extra, rfl⟩
      · exact h.acquiring t m hpc hheap
      · rw [hnot] at hin
        cases hin
      · exact hacq t m tryonly extra rfl hheap
    · exact h.acquiring t m (by rwa [← hstep.pc_of_ne ha]) hheap
  · cases ha : a.actor with
    | none => exact h.held m hheap (by rwa [← hstep.log_of_drain ha])
    | some t =>
      obtain ⟨os, hl, hn⟩ := hstep.next ha
      rw [hl] at hh
      rcases holders_append hh with hh | ⟨u, hu⟩
      · exact h.held m hheap hh
      · exact h.acquiring t m (next_acquired hn hu) hheap

theorem Safe.waitq_empty (h : Safe home heap s) (hm : s.fresh ≤ m) :
    s.sync.store.waitq (.mutex m) = ⟨none, none⟩ := by
  obtain ⟨l, hl, hR⟩ := (mutexOnly_refines home fun _ _ h => h).reachable h.reachable
  have hv := hR.mutexView (m := m) hl
  have hnil : (mutexView m l).queue = [] := by
    refine List.eq_nil_iff_forall_not_mem.mpr fun t ht => ?_
    have hpc : acquires (s.sync.tcb t).pc = some m := by
      have hrole := hv.ok.queued t ht
      rw [hv.role] at hrole
      exact acquires_of_inWait hrole
    have hset := h.acquiring t m hpc (Nat.le_trans h.grown hm)
    exact absurd (h.allocated m hset) (Nat.not_lt.mpr hm)
  rw [hv.header, hnil, Intrusive.Fifo.ofList_nil]

theorem Safe.mutexInit_eq (h : Safe home heap s) : mutexInit s.sync s.fresh = s.sync := by
  have hw := h.waitq_empty (Nat.le_refl s.fresh)
  have hx := h.clean s.fresh (Nat.le_refl _)
  unfold mutexInit
  rw [← hw, ← hx, update_eq_self, update_eq_self]

theorem permits_act (h : s.permits heap a = true) :
    a.mutexOnly = true ∧ (∀ t m tryonly extra, a = .acquire t m tryonly extra → m < heap) ∧
      ∀ t m fair, a = .setfair t m fair → m < heap := by
  simp only [State.permits, Bool.and_eq_true] at h
  obtain ⟨⟨hm, -⟩, hname⟩ := h
  refine ⟨hm, ?_, ?_⟩
  · rintro t m tryonly extra rfl
    simpa using hname
  · rintro t m fair rfl
    simpa using hname

theorem Safe.goto (h : Safe home heap s) (hp : p.initializes = false) :
    Safe home heap (s.goto t p) := by
  have hother {u : Tid} (hu : ((s.goto t p).point u).initializes = true) :
      (s.point u).initializes = true := by
    by_cases hut : u = t
    · subst hut
      simp [State.goto, hp] at hu
    · simpa [State.goto, hut] using hu
  refine ⟨h.reachable, h.grown, h.clean, h.acquiring, h.held, h.allocated, fun u m op hu => ?_,
    fun u hu => h.unset u (hother hu), fun u v hu hv => h.alone u v (hother hu) (hother hv)⟩
  by_cases hut : u = t
  · subst hut
    have hpu : p = .storing m op := by simpa [State.goto] using hu
    rw [hpu] at hp
    cases hp
  · exact h.storing u m op (by simpa [State.goto, hut] using hu)

theorem Safe.test (h : Safe home heap s) (hm : s.mutex = none)
    (hu : ∀ u, u ≠ t → (s.point u).initializes = false) :
    Safe home heap (s.goto t (.initializing op)) := by
  have honly {u : Tid} (hi : ((s.goto t (.initializing op)).point u).initializes = true) :
      u = t := by
    by_contra hut
    have := hu u hut
    simp [State.goto, hut, this] at hi
  refine ⟨h.reachable, h.grown, h.clean, h.acquiring, h.held, h.allocated, fun u m op' hpt => ?_,
    fun _ _ => hm, fun u v hu hv => (honly hv).trans (honly hu).symm⟩
  by_cases hut : u = t
  · subst hut
    simp [State.goto] at hpt
  · exact h.storing u m op' (by simpa [State.goto, hut] using hpt)

theorem Safe.allocate (h : Safe home heap s) (hp : s.point t = .initializing op) :
    Safe home heap
      { s with
        sync := mutexInit s.sync s.fresh, fresh := s.fresh + 1
        point := update s.point t (.storing s.fresh op) } := by
  rw [h.mutexInit_eq]
  have hin : (s.point t).initializes = true := by rw [hp]; rfl
  have hother {u : Tid} (hu : (update s.point t (.storing s.fresh op) u).initializes = true) :
      (s.point u).initializes = true := by
    by_cases hut : u = t
    · rw [hut]
      exact hin
    · simpa [hut] using hu
  refine ⟨h.reachable, Nat.le_succ_of_le h.grown, fun m hm => h.clean m (Nat.le_of_succ_le hm),
    h.acquiring, h.held, fun m hm => Nat.lt_succ_of_lt (h.allocated m hm), fun u m op' hu => ?_,
    fun u hu => h.unset u (hother hu), fun u v hu hv => h.alone u v (hother hu) (hother hv)⟩
  by_cases hut : u = t
  · subst hut
    simp only [Function.update_self, Point.storing.injEq] at hu
    rw [← hu.1]
    exact Nat.lt_succ_self _
  · exact Nat.lt_succ_of_lt (h.storing u m op' (by simpa [hut] using hu))

theorem Safe.store (h : Safe home heap s) (hp : s.point t = .storing m op) :
    Safe home heap ({ s with mutex := some m }.goto t (.calling op)) := by
  have hin : (s.point t).initializes = true := by rw [hp]; rfl
  have hnull := h.unset t hin
  -- nobody else is initializing, so what was known of a null variable is void
  have hnone {u : Tid} (hu : (update s.point t (.calling op) u).initializes = true) : False := by
    by_cases hut : u = t
    · subst hut
      simp [Point.initializes] at hu
    · exact hut (h.alone t u hin (by simpa [hut] using hu))
  refine ⟨h.reachable, h.grown, h.clean, fun u m' hpc hm => ?_, fun m' hm hh => ?_,
    fun m' hm => ?_, fun u m' op' hu => (hnone (u := u) ?_).elim, fun u hu => (hnone hu).elim,
    fun u v hu => (hnone hu).elim⟩
  · cases hnull.symm.trans (h.acquiring u m' hpc hm)
  · cases hnull.symm.trans (h.held m' hm hh)
  · cases hm
    exact h.storing t m op hp
  · rw [show update s.point t (.calling op) u = _ from hu]
    rfl

theorem Safe.step (h : Safe home heap s) (hp : Serial s a)
    (hs : exec home heap (linkOps fuel) s a = some s') : Safe home heap s' := by
  cases a with
  | sync =>
    simp only [exec] at hs
    split at hs
    case isTrue hperm =>
      obtain ⟨sync, hsync, rfl⟩ := Option.map_eq_some_iff.mp hs
      obtain ⟨hm, hacq, hfair⟩ := permits_act hperm
      refine h.primitive hm (fun t m tryonly extra ha hheap => ?_) hfair hsync
      exact absurd (hacq t m tryonly extra ha) (Nat.not_lt.mpr hheap)
    case isFalse => cases hs
  | enter t op =>
    simp only [exec] at hs
    split at hs
    case isTrue =>
      cases hs
      by_cases hm : s.mutex = none
      · rw [if_pos hm]
        exact h.test hm (hp t op rfl)
      · rw [if_neg hm]
        exact h.goto rfl
    case isFalse => cases hs
  | run =>
    simp only [exec] at hs
    split at hs
    case isFalse => cases hs
    unfold run at hs
    split at hs
    case h_1 => cases hs
    case h_2 op hpt =>
      cases hs
      split
      · exact h.allocate hpt
      · exact h.goto rfl
    case h_3 m op hpt =>
      cases hs
      exact h.store hpt
    case h_4 op hpt =>
      split at hs
      case h_1 =>
        cases hs
        exact h.goto rfl
      case h_2 m hm =>
        obtain ⟨sync, hsync, rfl⟩ := Option.map_eq_some_iff.mp hs
        have hcall : Safe home heap { s with sync } := by
          refine h.primitive ?_ ?_ ?_ hsync
          · cases op <;> rfl
          · rintro u m' tryonly extra he -
            cases op <;> cases he <;> exact hm
          · rintro u m' fair he
            cases op <;> cases he
        exact hcall.goto rfl

theorem safe_of_reachable (h : Reachable ((system home heap).restrict Serial) s) :
    Safe home heap s := by
  refine h.invariant ?_ ?_
  · rintro s ⟨cfg, hcfg, rfl⟩
    refine ⟨.init ⟨cfg, rfl⟩, Nat.le_refl _, fun m hm => ?_, nofun, fun m _ hh => absurd rfl hh,
      nofun, nofun, nofun, nofun⟩
    simp [GnuPth.initial, hcfg m hm, initMutex]
  · rintro s a s' h ⟨hp, fuel, hs⟩
    exact h.step hp hs

/-- In every run in which no thread tests the variable while another one is
initializing it, at most one thread is between its lock and its unlock. -/
theorem lazy_mutex_excludes (h : Reachable ((system home heap).restrict Serial) s)
    (ht : s.inside heap t) (hu : s.inside heap u) : u = t := by
  have hsafe := safe_of_reachable h
  obtain ⟨m, hm, ht⟩ := ht
  obtain ⟨m', hm', hu⟩ := hu
  have hset := hsafe.held m hm (List.ne_nil_of_mem ht)
  have hset' := hsafe.held m' hm' (List.ne_nil_of_mem hu)
  obtain rfl : m = m' := Option.some.inj (hset.symm.trans hset')
  have howner := owner_of_mem_holders hsafe.reachable ht
  exact Option.some.inj ((owner_of_mem_holders hsafe.reachable hu).symm.trans howner)

theorem exists_reachable [DecidablePred P] (home : Tid → SchedId)
    (ok : State WaitLinks → Action → Bool) (acts : List Action)
    (h : (acts.foldlM (stepIf ok (exec home 0 (linkOps 5)))
      ⟨GnuPth.initial .empty .plain, none, 0, fun _ => .out⟩).any (fun s => decide (P s)) = true) :
    ∃ s, Reachable ((system home 0).restrict fun s a => ok s a = true) s ∧ P s := by
  refine exists_reachable_restrict (S := system home 0) ?_ ⟨.plain, fun _ _ => ⟨rfl, rfl⟩, rfl⟩ h
  exact fun _ _ _ hs => ⟨5, hs⟩

theorem exec_point (h : exec home heap (linkOps fuel) s a = some s')
    (ha : a.thread ≠ some u) : s'.point u = s.point u := by
  cases a with
  | sync =>
    simp only [exec] at h
    split at h
    · obtain ⟨sync, -, rfl⟩ := Option.map_eq_some_iff.mp h
      rfl
    · cases h
  | enter t =>
    have hut : u ≠ t := by rintro rfl; exact ha rfl
    simp only [exec] at h
    split at h
    · cases h
      simp [State.goto, hut]
    · cases h
  | run t =>
    have hut : u ≠ t := by rintro rfl; exact ha rfl
    simp only [exec] at h
    split at h
    case isFalse => cases h
    unfold run at h
    split at h
    case h_1 => cases h
    case h_2 =>
      cases h
      split <;> simp [State.goto, hut]
    case h_3 =>
      cases h
      simp [State.goto, hut]
    case h_4 =>
      split at h
      · cases h
        simp [State.goto, hut]
      · obtain ⟨sync, -, rfl⟩ := Option.map_eq_some_iff.mp h
        simp [hut]

def ownScheduler (t : Tid) : SchedId := t

def onlyFirst (_ : State WaitLinks) : Action → Bool
  | .enter t _ | .run t _ => t = 1
  | .sync _ => true

theorem onlyFirst_thread (h : onlyFirst s a = true) (hu : u ≠ 1) :
    a.thread ≠ some u := by
  cases a with
  | sync => nofun
  | enter t | run t =>
    obtain rfl : t = 1 := by simpa [onlyFirst] using h
    simpa [Action.thread] using Ne.symm hu

theorem serial_of_onlyFirst
    (h : Reachable ((system ownScheduler 0).restrict fun s a => onlyFirst s a = true) s)
    (ha : onlyFirst s a = true) : Serial s a := by
  have hout : ∀ u, u ≠ 1 → s.point u = .out := by
    refine h.invariant (I := fun s => ∀ u, u ≠ 1 → s.point u = .out) ?_ ?_
    · rintro s ⟨cfg, -, rfl⟩ u -
      rfl
    · rintro s a s' hout ⟨hok, fuel, hs⟩ u hu
      rw [exec_point hs (onlyFirst_thread hok hu)]
      exact hout u hu
  rintro t op rfl u hu
  rw [hout u (by simp_all [onlyFirst])]
  rfl

theorem lazy_mutex_excludes_onlyFirst :
    ∃ s : State WaitLinks, s.inside 0 1 ∧ ∀ u, s.inside 0 u → u = 1 := by
  obtain ⟨s, hs, hh⟩ := exists_reachable ownScheduler
    (P := fun s => holders 0 s.sync.log = [1]) onlyFirst
    [.sync (.dispatch 1), .enter 1 .lock, .run 1 true, .run 1 true, .run 1 true, .sync (.step 1)]
    (by decide +kernel)
  have hin : s.inside 0 1 := ⟨0, Nat.le_refl 0, by simp [hh]⟩
  have hserial := hs.mono fun _ _ => serial_of_onlyFirst
  exact ⟨s, hin, fun u hu => lazy_mutex_excludes hserial hin hu⟩

/-- Two threads find the variable null: each makes a mutex of its own and locks
it. -/
theorem lazy_mutex_shared :
    ∃ s, Reachable (system ownScheduler 0) s ∧ s.inside 0 1 ∧ s.inside 0 2 := by
  obtain ⟨s, hs, h₁, h₂⟩ := exists_reachable ownScheduler
    (P := fun s => holders 0 s.sync.log = [1] ∧ holders 1 s.sync.log = [2]) (fun _ _ => true)
    [.sync (.dispatch 1), .sync (.dispatch 2), .enter 1 .lock, .enter 2 .lock,
      .run 1 true, .run 1 true, .run 1 true, .sync (.step 1),
      .run 2 true, .run 2 true, .run 2 true, .sync (.step 2)]
    (by decide +kernel)
  exact ⟨s, hs.of_restrict, ⟨0, Nat.le_refl 0, by simp [h₁]⟩, ⟨1, Nat.zero_le 1, by simp [h₂]⟩⟩

end

end Pthread

end GnuPth
