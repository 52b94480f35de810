import GnuPth.Sync.Frame

/-!
# What a step does to the wait lists

`ListStep` says once, over lists, what a step can do to the queues, the private
chains and the inboxes, and where that leaves its thread. The invariants about
parked threads are proved from it and not from the rules.
-/

namespace GnuPth

open Function (update)

/-! ### Control points -/

def Pc.parkedOn : Pc → Option QueueId
  | .mutexWait m _ _ | .mutexWoken m _ _ | .mutexCleanup m _ => some (.mutex m)
  | .condWait c _ _ | .condWoken c _ | .condUnpark c _ => some (.cond c)
  | .mutexEnter _ _ _ (.handler c) => some (.cond c)
  | .releaseCheck _ (.await c _) | .releaseLock _ (.await c _) => some (.cond c)
  | .post _ (.release _ (.await c _)) => some (.cond c)
  | .rwlockWait r op _ | .rwlockWoken r op _ | .rwlockCleanup r op => some (op.queue r)
  | .joinWait tid | .joinWoken tid | .joinCleanup tid => some (.join tid)
  | _ => none

/-- The private chain of a thread at this point, by its local variables. -/
def Pc.ChainIs (ws : List Tid) : Pc → Prop
  | .herdWalk _ chain | .post _ (.herd _ chain) => chain = ws.head?
  | .herdClear _ w chain => ∃ rest, ws = w :: rest ∧ chain = rest.head?
  | _ => ws = []

def Pc.hand : Pc → List Tid
  | .post w _ => [w]
  | _ => []

/-- Nobody else is in the hand of the thread or on a chain of it. -/
def Pc.Idle : Pc → Prop
  | .post .. | .herdWalk .. | .herdClear .. => False
  | _ => True

/-- The queue that the next section of the thread may put it on. -/
def Pc.parksOn : Pc → Option QueueId
  | .mutexEnter m _ _ _ | .mutexWoken m _ _ => some (.mutex m)
  | .condPark c _ _ => some (.cond c)
  | .rwlockEnter r op _ _ | .rwlockWoken r op _ => some (op.queue r)
  | .joinEnter tid => some (.join tid)
  | _ => none

/-- The queue of the wait that the next section of the thread ends, or that it
goes on to park elsewhere from. -/
def Pc.leaves : Pc → Option QueueId
  | .mutexWoken m _ _ | .mutexCleanup m _ => some (.mutex m)
  | .condWoken c _ | .condUnpark c _ | .mutexEnter _ _ _ (.handler c) => some (.cond c)
  | .rwlockWoken r op _ | .rwlockCleanup r op => some (op.queue r)
  | .joinWoken tid | .joinCleanup tid => some (.join tid)
  | _ => none

/-- On the queue of a condition and on the way to `pth_wait`. -/
def Pc.enqueued : Pc → Bool
  | .releaseCheck _ (.await ..) | .releaseLock _ (.await ..) => true
  | .post _ (.release _ (.await ..)) => true
  | _ => false

def PostThen.queue : PostThen → QueueId
  | .release m _ | .unwind m _ => .mutex m
  | .rwlockRelease r => .rwlockRw r
  | .herd r _ => .rwlockRd r
  | .notify c _ => .cond c

/-- Where the thread to be woken was taken off the head of that queue. -/
def PostThen.source : PostThen → Option Pc
  | .release m k => some (.releaseLock m k)
  | .unwind m k => some (.mutexCleanup m k)
  | .rwlockRelease r => some (.rwlockRelease r)
  | .herd .. => none
  | .notify c broadcast => some (.notify c broadcast)

def QueueId.key : QueueId → EventKey
  | .mutex _ => .mutex
  | .cond _ => .cond
  | .rwlockRd _ => .rwlockRd
  | .rwlockRw _ => .rwlockRw
  | .join _ => .join

@[simp] theorem RwOp.queue_key (r : RwlockId) (op : RwOp) : (op.queue r).key = op.key := by
  cases op <;> rfl

section
variable {pc : Pc} {k : ReleaseFrom}

@[simp] theorem Pc.parkedOn_woken : pc.woken.parkedOn = pc.parkedOn := by cases pc <;> rfl

@[simp] theorem Pc.parkedOn_unwound : pc.unwound.parkedOn = pc.parkedOn := by cases pc <;> rfl

@[simp] theorem Pc.chainIs_woken : pc.woken.ChainIs ws ↔ pc.ChainIs ws := by cases pc <;> rfl

@[simp] theorem Pc.chainIs_unwound : pc.unwound.ChainIs ws ↔ pc.ChainIs ws := by cases pc <;> rfl

theorem Pc.woken_hands : pc.woken = pc ∨ pc.hand = [] ∧ pc.woken.hand = [] := by
  cases pc <;> first | exact .inl rfl | exact .inr ⟨rfl, rfl⟩

theorem Pc.unwound_hands : pc.unwound = pc ∨ pc.hand = [] ∧ pc.unwound.hand = [] := by
  cases pc <;> first | exact .inl rfl | exact .inr ⟨rfl, rfl⟩

@[simp] theorem Pc.enqueued_woken : pc.woken.enqueued = pc.enqueued := by cases pc <;> rfl

@[simp] theorem Pc.enqueued_unwound : pc.unwound.enqueued = pc.enqueued := by cases pc <;> rfl

theorem Pc.Idle.hand (h : pc.Idle) : pc.hand = [] := by
  cases pc <;> first | rfl | exact h.elim

theorem Pc.Idle.chainIs (h : pc.Idle) : pc.ChainIs ws ↔ ws = [] := by
  cases pc <;> first | rfl | exact h.elim

theorem Pc.idle_of_parksOn (h : pc.parksOn = some q) : pc.Idle := by cases pc <;> trivial

theorem Pc.of_parksOn_cond (h : pc.parksOn = some (.cond c)) :
    ∃ m extra, pc = .condPark c m extra := by
  cases pc with
  | condPark c' m extra => cases h; exact ⟨m, extra, rfl⟩
  | rwlockEnter r op | rwlockWoken r op => cases op <;> cases h
  | _ => cases h

theorem Pc.of_parksOn_join (h : pc.parksOn = some (.join tid)) : pc = .joinEnter tid := by
  cases pc with
  | joinEnter => cases h; rfl
  | rwlockEnter r op | rwlockWoken r op => cases op <;> cases h
  | _ => cases h

theorem Pc.of_leaves (h : pc.leaves = some q) :
    pc.parkedOn = some q ∧ pc.enqueued = false ∧ pc.Idle := by
  cases pc with
  | mutexEnter m tryonly extra k =>
    cases k with
    | handler => exact ⟨h, rfl, trivial⟩
    | _ => cases h
  | mutexWoken | mutexCleanup | condWoken | condUnpark | rwlockWoken | rwlockCleanup | joinWoken
  | joinCleanup => exact ⟨h, rfl, trivial⟩
  | _ => cases h

theorem AcquireFrom.parkedOn_pc (k : AcquireFrom) :
    (k.pc m).parkedOn = (Pc.mutexEnter m tryonly extra k).parkedOn := by cases k <;> rfl

theorem AcquireFrom.enqueued_pc (k : AcquireFrom) : (k.pc m).enqueued = false := by
  cases k <;> rfl

theorem AcquireFrom.idle_pc (k : AcquireFrom) : (k.pc m).Idle := by cases k <;> trivial

theorem ReleaseFrom.parkedOn_releaseLock (k : ReleaseFrom) :
    (Pc.releaseLock m k).parkedOn = (Pc.releaseCheck m k).parkedOn := by cases k <;> rfl

theorem ReleaseFrom.ReturnsTo.parkedOn (h : k.ReturnsTo m pc) :
    pc.parkedOn = (Pc.releaseCheck m k).parkedOn := by
  cases k with
  | app | await => cases h; rfl
  | all => rcases h with rfl | ⟨rn, rfl⟩ <;> rfl

theorem ReleaseFrom.ReturnsTo.idle (h : k.ReturnsTo m pc) : pc.Idle :=
  h.elim trivial (fun _ _ => trivial) trivial (fun _ _ => trivial)

theorem PostThen.ReturnsTo.hand {k : PostThen} (h : k.ReturnsTo pc) : pc.hand = [] :=
  h.elim rfl (fun _ _ _ => rfl) rfl (fun _ _ => rfl) (fun _ _ => rfl) (fun _ => rfl)

theorem PostThen.ReturnsTo.chainIs {k : PostThen} (h : k.ReturnsTo pc) :
    pc.ChainIs ws ↔ (Pc.post w k).ChainIs ws := by
  cases k with
  | release => exact (ReleaseFrom.ReturnsTo.idle h).chainIs
  | unwind | rwlockRelease | herd => cases h; rfl
  | notify c broadcast => cases broadcast <;> (cases h; rfl)

theorem PostThen.source_idle {k : PostThen} (h : k.source = some pc) : pc.Idle := by
  cases k <;> cases h <;> trivial

theorem PostThen.source_chainIs {k : PostThen} (h : k.source = some pc) :
    (Pc.post w k).ChainIs ws ↔ ws = [] := by
  cases k <;> cases h <;> rfl

theorem Act.entry_idle {a : Act} (h : a.entry = some (t, pc)) : pc.Idle := by
  cases a with
  | acquire | release | await | notify | rwlockAcquire | rwlockRelease | join => cases h; trivial
  | _ => cases h

end

/-! ### Waits -/

/-- The thread is in a wait whose event has not occurred yet. -/
def Tcb.Expects (b : Tcb) : Prop :=
  ∃ q, b.pc.parkedOn = some q ∧ b.wqEvent = some q.key ∧
    (b.status q.key = .pending ∨ b.pc.enqueued = true)

/-- The thread has just parked on `q`. -/
structure Tcb.Parked (b : Tcb) (q : QueueId) : Prop where
  idle : b.pc.Idle
  parkedOn : b.pc.parkedOn = some q
  wqEvent : b.wqEvent = some q.key
  expects : b.status q.key = .pending ∨ b.pc.enqueued = true

/-- The thread waits for what it waited for, or it was in no wait, or the wait was
for a mutex that it owns. -/
def StaysPut (s s' : State WaitLists) (a : Act) (t : Tid) : Prop :=
  (s.tcb t).pc.parkedOn = none ∨
  ((s'.tcb t).pc.parkedOn = (s.tcb t).pc.parkedOn ∧ ((s.tcb t).Expects → (s'.tcb t).Expects)) ∨
  a = .step t ∧ ∃ m, (s.tcb t).pc.leaves = some (.mutex m) ∧ (s.mutex m).owner = some t

section
variable {b : Tcb}

theorem StaysPut.of_eq (hpk : (s'.tcb t).pc.parkedOn = (s.tcb t).pc.parkedOn)
    (hen : (s'.tcb t).pc.enqueued = (s.tcb t).pc.enqueued)
    (he : (s'.tcb t).wqEvent = (s.tcb t).wqEvent) (hst : (s'.tcb t).status = (s.tcb t).status) :
    StaysPut s s' a t := by
  refine .inr (.inl ⟨hpk, fun h => ?_⟩)
  unfold Tcb.Expects
  rw [hpk, hen, he, hst]
  exact h

/-- After a release on the way to `pth_wait` the thread is in it. -/
theorem Tcb.Expects.returns (hE : b.Expects)
    (hpc : b.pc.parkedOn = (Pc.releaseCheck m k).parkedOn) (hb : k.ReturnsTo m b'.pc)
    (hc : b.Continues b') : b'.Expects := by
  obtain ⟨q, hq, hev, -⟩ := hE
  have hq' : b'.pc.parkedOn = some q := by rw [hb.parkedOn, ← hpc, hq]
  refine ⟨q, hq', by rw [hc.rest]; exact hev, .inl ?_⟩
  cases k with
  | await c extra =>
    have hw : b'.pc = .condWait c m extra := hb
    rw [hw] at hq'
    cases hq'
    exact hc.slept c m extra hw
  | app =>
    rw [show b'.pc = .app from hb] at hq'
    cases hq'
  | all =>
    rcases hb with hb | ⟨rn, hb⟩
    all_goals
      rw [hb] at hq'
      cases hq'

theorem StaysPut.returns (hpc : (s.tcb t).pc.parkedOn = (Pc.releaseCheck m k).parkedOn)
    (hb : k.ReturnsTo m (s'.tcb t).pc) (hc : (s.tcb t).Continues (s'.tcb t)) :
    StaysPut s s' a t :=
  .inr (.inl ⟨hb.parkedOn.trans hpc.symm, fun hE => hE.returns hpc hb hc⟩)

end

/-! ### Steps -/

/-- What a step posts, and who is then in the hand of its thread. -/
inductive Sends (home : Tid → SchedId) (s s' : State WaitLists) (t : Tid) : Prop
  | none (hi : s'.inbox = s.inbox)
      (hh : (s'.tcb t).pc = (s.tcb t).pc ∨ (s.tcb t).pc.hand = [] ∧ (s'.tcb t).pc.hand = [])
  | wake {w k} (hpc : (s.tcb t).pc = .post w k) (hi : s'.inbox = (gschedWake home s w).inbox)
      (hh : (s'.tcb t).pc.hand = [])
  | reap {tid v} (hpc : (s.tcb t).pc = .joinReap tid v)
      (hi : s'.inbox = (joinReap home s t tid v).inbox) (hh : (s'.tcb t).pc.hand = [])

inductive ListStep (home : Tid → SchedId) (s s' : State WaitLists) : Act → Prop
  | drain {g} (hs : s' =
      { s with
        tcb := fun u => (s.tcb u).drained (s.inbox g) u
        inbox := update s.inbox g [] }) : ListStep home s s' (.drain g)
  | keep {a t} (ha : a.actor = some t) (hs : s'.store = s.store)
      (he : (s'.tcb t).wqEvent = (s.tcb t).wqEvent) (hm : Sends home s s' t)
      (hstay : StaysPut s s' a t) (hc : (s.tcb t).pc.ChainIs (s.store (.chain t)) →
        (s'.tcb t).pc.ChainIs (s.store (.chain t))) : ListStep home s s' a
  | park {t q} (hp : parks s t) (hq : (s.tcb t).pc.parksOn = some q)
      (hfrom : (s.tcb t).pc.parkedOn = none ∨
        ∃ m tryonly extra c, (s.tcb t).pc = .mutexEnter m tryonly extra (.handler c))
      (hs : s'.store = update s.store (.queue q) (s.store (.queue q) ++ [t]))
      (hi : s'.inbox = s.inbox) (hb : (s'.tcb t).Parked q) : ListStep home s s' (.step t)
  | repark {t q} (hp : parks s t) (hq : (s.tcb t).pc.parksOn = some q)
      (hl : (s.tcb t).pc.leaves = some q)
      (hs : s'.store = update s.store (.queue q) ((s.store (.queue q)).erase t ++ [t]))
      (hi : s'.inbox = s.inbox) (hb : (s'.tcb t).Parked q) : ListStep home s s' (.step t)
  | leave {t q} (hl : (s.tcb t).pc.leaves = some q)
      (hs : s'.store = update s.store (.queue q) ((s.store (.queue q)).erase t))
      (hi : s'.inbox = s.inbox) (he : (s'.tcb t).wqEvent = (s.tcb t).wqEvent)
      (hpc' : (s'.tcb t).pc.Idle) : ListStep home s s' (.step t)
  -- `pth_rwlock_wait_cleanup` tries both queues
  | leaveBoth {t r op b₁ b₂ store₁} (hpc : (s.tcb t).pc = .rwlockCleanup r op)
      (h₁ : listOps.remove s.store (.rwlockRw r) t = some (b₁, store₁))
      (h₂ : listOps.remove store₁ (.rwlockRd r) t = some (b₂, s'.store))
      (hi : s'.inbox = s.inbox) (he : (s'.tcb t).wqEvent = (s.tcb t).wqEvent)
      (hpc' : (s'.tcb t).pc = .app) : ListStep home s s' (.step t)
  | shift {t w ws k} (hpc : k.source = some (s.tcb t).pc) (hpc' : (s'.tcb t).pc = .post w k)
      (hq : s.store (.queue k.queue) = w :: ws)
      (hs : s'.store = update s.store (.queue k.queue) ws) (hi : s'.inbox = s.inbox)
      (he : (s'.tcb t).wqEvent = (s.tcb t).wqEvent) (hstay : StaysPut s s' (.step t) t) :
      ListStep home s s' (.step t)
  | herd {t r} (hpc : (s.tcb t).pc = .rwlockRelease r)
      (hpc' : (s'.tcb t).pc = .herdWalk r (s.store (.queue (.rwlockRd r))).reverse.head?)
      (hs : s'.store = update (update s.store (.queue (.rwlockRd r)) []) (.chain t)
        (s.store (.queue (.rwlockRd r))).reverse)
      (hi : s'.inbox = s.inbox) (he : (s'.tcb t).wqEvent = (s.tcb t).wqEvent) :
      ListStep home s s' (.step t)
  | unchain {t r w chain} (hpc : (s.tcb t).pc = .herdClear r w chain)
      (hpc' : (s'.tcb t).pc = .post w (.herd r chain))
      (hs : s'.store = update s.store (.chain t) (s.store (.chain t)).tail)
      (hi : s'.inbox = s.inbox) (he : (s'.tcb t).wqEvent = (s.tcb t).wqEvent) :
      ListStep home s s' (.step t)
  | die {t} (hpc : (s.tcb t).pc = .dying) (hpc' : (s'.tcb t).pc = .dead)
      (hd : (s'.tcb t).joinDone = true) (hs : s'.store = update s.store (.queue (.join t)) [])
      (hi : s'.inbox = fun g =>
        s.inbox g ++ s.wakes ((s.store (.queue (.join t))).filter (home · = g)))
      (he : (s'.tcb t).wqEvent = (s.tcb t).wqEvent) : ListStep home s s' (.step t)

section
variable {home : Tid → SchedId}

theorem ListStep.move (ha : a.actor = some t) (hs : s'.store = s.store)
    (hi : s'.inbox = s.inbox) (he : (s'.tcb t).wqEvent = (s.tcb t).wqEvent)
    (hpc : (s.tcb t).pc.Idle) (hpc' : (s'.tcb t).pc.Idle) (hstay : StaysPut s s' a t) :
    ListStep home s s' a :=
  .keep ha hs he (.none hi (.inr ⟨hpc.hand, hpc'.hand⟩)) hstay
    fun h => hpc'.chainIs.mpr (hpc.chainIs.mp h)

theorem Step.listStep (h : Step home listOps s a s') : ListStep home s s' a := by
  cases h with
  | drain => exact .drain rfl
  | call hr hpc he =>
    refine .move (Act.entry_actor he) rfl rfl (by simp) (by rw [hpc]; trivial) ?_ (.inl (by rw [hpc]; rfl))
    rw [State.goto_pc]
    exact Act.entry_idle he
  | dispatch | yield | setfair | setfairFail | joinFail | cancelState | cancelPoint | cancelActed | fire
  | cancel | abort | abortDead | setJoinable =>
    refine .keep rfl rfl (by simp) (.none rfl (.inl (by simp))) (.of_eq ?_ ?_ ?_ ?_) ?_
    all_goals simp
  | resume =>
    refine .keep rfl rfl (by simp) (.none rfl (by simpa using Pc.woken_hands)) (.of_eq ?_ ?_ ?_ ?_) ?_
    all_goals simp
  | unwind | cancelAsync =>
    refine .keep rfl rfl (by simp) (.none rfl (by simpa using Pc.unwound_hands)) (.of_eq ?_ ?_ ?_ ?_) ?_
    all_goals simp
  | exit hr hpc hp =>
    refine .move rfl rfl rfl (by simp) (by rw [hpc]; trivial) ?_ (.inl (by rw [hpc]; rfl))
    rcases hp with rfl | ⟨rn, rfl⟩ <;> simp [Pc.Idle]
  | @acquireFail t m tryonly extra k e hr hpc | @take t m tryonly extra k hr hpc
  | @recurse t m tryonly extra k hr hpc =>
    refine .move rfl rfl rfl (by simp) (by rw [hpc]; trivial) (by simpa using k.idle_pc)
      (.of_eq ?_ ?_ (by simp) (by simp))
    · simpa [hpc] using k.parkedOn_pc
    · simpa [hpc, Pc.enqueued] using k.enqueued_pc
  | @mutexPark t m extra k hr hpc hi hl ho hf =>
    refine .park (q := .mutex m) ?_ (by rw [hpc]; rfl) ?_ rfl rfl ?_
    · simp only [parks, hpc]
      exact ⟨hi, hl, ho, trivial⟩
    · cases k with
      | app | await => exact .inl (by rw [hpc]; rfl)
      | handler c => exact .inr ⟨m, false, extra, c, hpc⟩
    · constructor <;> simp [Pc.Idle, Pc.parkedOn, QueueId.key]
  | @grant t m extra k hr hpc ho =>
    exact .move rfl rfl rfl (by simp) (by rw [hpc]; trivial) (by simpa using k.idle_pc)
      (.inr (.inr ⟨rfl, m, by rw [hpc]; rfl, ho⟩))
  | @mutexTimeout t m extra k b store hr hpc ho hrem | @retake t m extra k b store hr hpc ho hrem =>
    obtain ⟨-, rfl⟩ := listOps_remove.mp hrem
    exact .leave (by rw [hpc]; rfl) rfl rfl (by simp) (by simpa using k.idle_pc)
  | mutexRepark hr hpc ho hrem he hl =>
    obtain ⟨-, rfl⟩ := listOps_remove.mp hrem
    refine .repark ?_ (by rw [hpc]; rfl) (by rw [hpc]; rfl) (by simp) rfl ?_
    · simp only [parks, hpc]
      exact ⟨ho, hl, he⟩
    · constructor <;> simp [Pc.Idle, Pc.parkedOn, QueueId.key]
  | @passOn t m k w store hr hpc ho hs =>
    obtain ⟨ws, hq, rfl⟩ := listOps_shift_some.mp hs
    exact .shift (by rw [hpc]; rfl) (State.goto_pc ..) hq rfl rfl (by simp)
      (.inr (.inr ⟨rfl, m, by rw [hpc]; rfl, ho⟩))
  | @passFree t m k store hr hpc ho hs =>
    obtain ⟨-, rfl⟩ := listOps_shift_none.mp hs
    exact .move rfl rfl rfl (by simp) (by rw [hpc]; trivial) (by simp [Pc.Idle])
      (.inr (.inr ⟨rfl, m, by rw [hpc]; rfl, ho⟩))
  | mutexLeave hr hpc ho hrem | rwlockTimeout hr hpc hrem | rwlockReenter hr hpc hrem
  | joinWoken hr hpc hrem | joinCleanup hr hpc hrem =>
    obtain ⟨-, rfl⟩ := listOps_remove.mp hrem
    exact .leave (by rw [hpc]; rfl) rfl rfl (by simp) (by simp [Pc.Idle])
  | condDequeue hr hpc hrem =>
    obtain ⟨-, rfl⟩ := listOps_remove.mp hrem
    rcases hpc with ⟨hpc, rfl⟩ | ⟨hpc, rfl⟩
    all_goals exact .leave (by rw [hpc]; rfl) rfl rfl (by simp) (by simp [Pc.Idle])
  | @releaseFail t m k e b g hr hpc ho hb hc =>
    refine .move rfl rfl rfl ?_ (by rw [hpc]; trivial) (by simpa using hb.idle)
      (.returns (by rw [hpc]) (by simpa using hb) (by simpa using hc))
    simpa using congrArg Tcb.wqEvent hc.rest
  | @releaseCheck t m k hr hpc =>
    refine .move rfl rfl rfl (by simp) (by rw [hpc]; trivial) (by simp [Pc.Idle])
      (.of_eq ?_ ?_ (by simp) (by simp))
    · simp [hpc, ReleaseFrom.parkedOn_releaseLock]
    · cases k <;> simp [hpc, Pc.enqueued]
  | @handoff t m k w store hr hpc hn hs | @wakeOne t m k w store hr hpc hn hs =>
    obtain ⟨ws, hq, rfl⟩ := listOps_shift_some.mp hs
    refine .shift (by rw [hpc]; rfl) (State.goto_pc ..) hq rfl rfl (by simp)
      (.of_eq ?_ ?_ (by simp) (by simp))
    all_goals cases k <;> simp [hpc, Pc.parkedOn, Pc.enqueued]
  | @unlock t m k store b g hr hpc hn hs hb hc =>
    obtain ⟨-, rfl⟩ := listOps_shift_none.mp hs
    refine .move rfl rfl rfl ?_ (by rw [hpc]; trivial) (by simpa using hb.idle)
      (.returns ?_ (by simpa using hb) (by simpa using hc))
    · simpa using congrArg Tcb.wqEvent hc.rest
    · rw [hpc, ReleaseFrom.parkedOn_releaseLock]
  | @unrecurse t m k b g hr hpc hn hb hc =>
    refine .move rfl rfl rfl ?_ (by rw [hpc]; trivial) (by simpa using hb.idle)
      (.returns ?_ (by simpa using hb) (by simpa using hc))
    · simpa using congrArg Tcb.wqEvent hc.rest
    · rw [hpc, ReleaseFrom.parkedOn_releaseLock]
  | @post t w k b g hr hpc hb hc =>
    refine .keep rfl rfl ?_ (.wake hpc rfl (by simpa using hb.hand)) ?_ fun h => ?_
    · simpa using congrArg Tcb.wqEvent hc.rest
    · cases k with
      | release m k =>
        have hk : k.ReturnsTo m b.pc := hb
        refine .returns ?_ (by simpa using hk) (by simpa using hc)
        rw [hpc]
        cases k <;> rfl
      | _ => exact .inl (by rw [hpc]; rfl)
    · rw [hpc] at h
      simpa using hb.chainIs.mpr h
  | condPark hr hpc hi =>
    refine .park ?_ (by rw [hpc]; rfl) (.inl (by rw [hpc]; rfl)) rfl rfl ?_
    · simpa only [parks, hpc] using hi
    · constructor <;> simp [Pc.Idle, Pc.parkedOn, QueueId.key, Pc.enqueued]
  | notifyOne hr hpc hi hs | wakeWriter hr hpc hx hs =>
    obtain ⟨ws, hq, rfl⟩ := listOps_shift_some.mp hs
    exact .shift (by rw [hpc]; rfl) (State.goto_pc ..) hq rfl rfl (by simp) (.inl (by rw [hpc]; rfl))
  | rwlockPark hr hpc hi ha =>
    refine .park ?_ (by rw [hpc]; rfl) (.inl (by rw [hpc]; rfl)) rfl rfl ?_
    · simp only [parks, hpc]
      exact ⟨hi, ha, trivial⟩
    · constructor <;> simp [Pc.Idle, Pc.parkedOn]
  | rwlockRepark hr hpc hrem he ha =>
    obtain ⟨-, rfl⟩ := listOps_remove.mp hrem
    rw [Rwlock.admits_unwait] at ha
    refine .repark ?_ (by rw [hpc]; rfl) (by rw [hpc]; rfl) (by simp) rfl ?_
    · simp only [parks, hpc]
      exact ⟨ha, he⟩
    · constructor <;> simp [Pc.Idle, Pc.parkedOn]
  | rwlockCleanup hr hpc h₁ h₂ => exact .leaveBoth hpc h₁ h₂ rfl (by simp) (State.goto_pc ..)
  | herd hr hpc hx hs hh =>
    obtain ⟨-, rfl⟩ := listOps_shift_none.mp hs
    obtain ⟨rfl, rfl⟩ := listOps_herd.mp hh
    exact .herd hpc (State.goto_pc ..) rfl rfl (by simp)
  | herdDone hr hpc =>
    refine .keep rfl rfl (by simp) (.none rfl (.inr (by simp [hpc, Pc.hand]))) (.inl (by rw [hpc]; rfl))
      fun h => ?_
    rw [hpc] at h
    simpa [Pc.ChainIs] using (show none = (s.store (.chain _)).head? from h).symm
  | @herdNext t r w hr hpc =>
    refine .keep rfl rfl (by simp) (.none rfl (.inr (by simp [hpc, Pc.hand]))) (.inl (by rw [hpc]; rfl))
      fun h => ?_
    rw [hpc] at h
    obtain ⟨ws, hws⟩ := List.head?_eq_some_iff.mp (show _ = some w from h.symm)
    simp [Pc.ChainIs, hws]
  | herdClear hr hpc => exact .unchain hpc (State.goto_pc ..) rfl rfl (by simp)
  | joinPark hr hpc hd =>
    refine .park ?_ (by rw [hpc]; rfl) (.inl (by rw [hpc]; rfl)) rfl rfl ?_
    · simpa only [parks, hpc] using hd
    · constructor <;> simp [Pc.Idle, Pc.parkedOn, QueueId.key]
  | joinReap hr hpc =>
    exact .keep rfl rfl (by simp) (.reap hpc rfl (by simp [Pc.hand])) (.inl (by rw [hpc]; rfl))
      fun h => by simpa [hpc, Pc.ChainIs] using h
  | die hr hpc hj hs =>
    obtain ⟨rfl, rfl⟩ := listOps_shiftAll.mp hs
    exact .die hpc (by simp) (by simp) rfl rfl (by simp)
  | notifyNone hr hpc hi hs =>
    obtain ⟨-, rfl⟩ := listOps_shift_none.mp hs
    exact .move rfl rfl rfl (by simp) (by rw [hpc]; trivial) (by simp [Pc.Idle]) (.inl (by rw [hpc]; rfl))
  | awaitFail hr hpc | notifyFail hr hpc | rwlockFail hr hpc | rwlockEnter hr hpc
  | rwlockReleaseFail hr hpc | readersLeft hr hpc | joinPast hr hpc | dieDetached hr hpc =>
    exact .move rfl rfl rfl (by simp) (by rw [hpc]; trivial) (by simp [Pc.Idle]) (.inl (by rw [hpc]; rfl))

end

end GnuPth
