import GnuPth.Sync.System

/-!
# Returns and inboxes

What the parts of a step that go on elsewhere leave behind: the return from
`pth_mutex_release` and from the post of a wakeup, the walk of
`pth_mutex_releaseall`, the wakeups a dying thread posts, and the drain of an
inbox.
-/

namespace GnuPth

open Function (update)

variable {σ : Type}

/-! ### Returns -/

theorem enterWait_some (h : enterWait home s t key pc = some s') :
    (s.tcb t).foreign = false ∧ s' = s.sleep home t key pc := by
  unfold enterWait at h
  split at h
  · cases h
  · rename_i hf
    exact ⟨by simpa using hf, (Option.some.inj h).symm⟩

/-- What of a control block is left as it was when its thread goes on elsewhere,
possibly into the wait of `pth_cond_await`. -/
structure Tcb.Continues (b b' : Tcb) : Prop where
  rest : b' =
    { b with pc := b'.pc, status := b'.status, extra := b'.extra, mutexring := b'.mutexring }
  slept : ∀ c m extra, b'.pc = .condWait c m extra → b'.status .cond = .pending

/-- The scheduler goes on by itself when the thread is in `pth_wait`. -/
def activeAfter (home : Tid → SchedId) (s : State σ) (t : Tid) (pc : Pc) : SchedId → List Tid :=
  if pc.waitsFor.isSome then update s.active (home t) (s.active (home t)).tail else s.active

/-- Where `pth_mutex_release` may leave the thread. -/
def ReleaseFrom.ReturnsTo (m : MutexId) (pc : Pc) : ReleaseFrom → Prop
  | .app => pc = .app
  | .await c extra => pc = .condWait c m extra
  | .all rnf => pc = .dying ∨ ∃ rn, pc = .releaseCheck rn (.all rnf)

@[elab_as_elim]
theorem ReleaseFrom.ReturnsTo.elim {P : Pc → Prop} {k : ReleaseFrom}
    (h : k.ReturnsTo m pc) (happ : P .app) (hwait : ∀ c extra, P (.condWait c m extra))
    (hdying : P .dying) (hcheck : ∀ rn rnf, P (.releaseCheck rn (.all rnf))) : P pc := by
  cases k with
  | app => cases h; exact happ
  | await c extra => cases h; exact hwait c extra
  | all rnf =>
    rcases h with rfl | ⟨rn, rfl⟩
    · exact hdying
    · exact hcheck rn rnf

theorem releaseallNext_pc (s : State σ) (t : Tid) (rn rnf : MutexId) :
    ∃ pc, releaseallNext s t rn rnf = s.goto t pc ∧ (ReleaseFrom.all rnf).ReturnsTo rn pc := by
  unfold releaseallNext
  split
  · exact ⟨_, rfl, .inl rfl⟩
  · split
    · exact ⟨_, rfl, .inl rfl⟩
    · exact ⟨_, rfl, .inr ⟨_, rfl⟩⟩

theorem mutexReleaseall_pc (s : State σ) (t : Tid) :
    ∃ pc, mutexReleaseall s t = s.goto t pc ∧
      (pc = .dying ∨ ∃ rn, pc = .releaseCheck rn (.all rn)) := by
  unfold mutexReleaseall
  split
  · exact ⟨_, rfl, .inl rfl⟩
  · exact ⟨_, rfl, .inr ⟨_, rfl⟩⟩

theorem releaseReturn_some (h : releaseReturn home s t m k = some s') :
    ∃ b g, s' = { s with tcb := update s.tcb t b, active := g } ∧ k.ReturnsTo m b.pc ∧
      (s.tcb t).Continues b ∧ g = activeAfter home s t b.pc := by
  cases k with
  | app =>
    cases h
    exact ⟨_, _, rfl, rfl, ⟨rfl, nofun⟩, rfl⟩
  | await c extra =>
    obtain ⟨_, rfl⟩ := enterWait_some h
    exact ⟨_, _, rfl, rfl, ⟨rfl, by simp⟩, rfl⟩
  | all rnf =>
    obtain ⟨pc, he, hpc⟩ := releaseallNext_pc s t m rnf
    cases h
    refine ⟨_, _, he, hpc, ⟨rfl, fun c m extra hw => ?_⟩, ?_⟩
    · rcases hpc with rfl | ⟨rn, rfl⟩ <;> cases hw
    · rcases hpc with rfl | ⟨rn, rfl⟩ <;> rfl

def PostThen.ReturnsTo (pc : Pc) : PostThen → Prop
  | .release m k => k.ReturnsTo m pc
  | .unwind _ _ => pc = .app
  | .rwlockRelease _ => pc = .app
  | .herd r chain => pc = .herdWalk r chain
  | .notify c broadcast => pc = if broadcast then .notify c broadcast else .app

@[elab_as_elim]
theorem PostThen.ReturnsTo.elim {P : Pc → Prop} {k : PostThen} (h : k.ReturnsTo pc)
    (happ : P .app) (hwait : ∀ c m extra, P (.condWait c m extra)) (hdying : P .dying)
    (hcheck : ∀ rn rnf, P (.releaseCheck rn (.all rnf)))
    (hherd : ∀ r chain, P (.herdWalk r chain)) (hnotify : ∀ c, P (.notify c true)) : P pc := by
  cases k with
  | release m k =>
    exact ReleaseFrom.ReturnsTo.elim h happ (fun c extra => hwait c m extra) hdying hcheck
  | unwind | rwlockRelease => cases h; exact happ
  | herd r chain => cases h; exact hherd r chain
  | notify c broadcast =>
    cases broadcast with
    | false => cases h; exact happ
    | true => cases h; exact hnotify c

def PostThen.obs (t : Tid) : PostThen → List Obs
  | .notify c false => [.notify t c .ok]
  | _ => []

theorem postReturn_some (h : postReturn home s t k = some s') :
    ∃ b g, s' = { s with tcb := update s.tcb t b, active := g, log := k.obs t ++ s.log } ∧
      k.ReturnsTo b.pc ∧ (s.tcb t).Continues b ∧ g = activeAfter home s t b.pc := by
  cases k with
  | release m k =>
    obtain ⟨b, g, rfl, hb, hc, hg⟩ := releaseReturn_some h
    exact ⟨b, g, rfl, hb, hc, hg⟩
  | unwind m k | rwlockRelease r | herd r chain =>
    cases h
    exact ⟨_, _, rfl, rfl, ⟨rfl, nofun⟩, rfl⟩
  | notify c broadcast =>
    cases broadcast with
    | true | false =>
      cases h
      exact ⟨_, _, rfl, rfl, ⟨rfl, nofun⟩, rfl⟩

/-! ### Inboxes -/

theorem foldl_gschedWake (home : Tid → SchedId) (ws : List Tid) (s : State σ) :
    ws.foldl (gschedWake home) s =
      { s with inbox := fun g => s.inbox g ++ s.wakes (ws.filter (home · = g)) } := by
  induction ws generalizing s with
  | nil => simp [State.wakes]
  | cons w ws ih =>
    rw [List.foldl_cons, ih]
    simp only [gschedWake, State.wakes, State.mk.injEq, and_true, true_and]
    funext g
    by_cases hg : home w = g
    · subst hg; simp
    · simp [hg, Ne.symm hg]

/-- What a drain of `msgs` makes of the control block of `u`. -/
@[simps] def Tcb.drained (msgs : List Msg) (u : Tid) (b : Tcb) : Tcb :=
  { b with
    status := fun key => if .wake u (some key) ∈ msgs then .occurred else b.status key
    freed := b.freed || .reap u ∈ msgs }

theorem applyMsg_drained (msg : Msg) (s : State σ) :
    applyMsg s msg = { s with tcb := fun u => (s.tcb u).drained [msg] u } := by
  cases msg with
  | wake w ev =>
    cases ev with
    | none => simp [Tcb.drained]
    | some key =>
      simp only [applyMsg, State.modTcb, State.mk.injEq, and_true]
      funext u
      by_cases hu : u = w
      · subst hu
        simp only [Function.update_self, Tcb.drained, List.mem_singleton, Msg.wake.injEq, true_and,
          Option.some.injEq, reduceCtorEq, decide_false, Bool.or_false, Tcb.mk.injEq, and_true]
        funext key'
        by_cases hk : key' = key
        · subst hk; simp
        · simp [hk]
      · simp [hu, Tcb.drained]
  | reap tid =>
    simp only [applyMsg, State.modTcb, State.mk.injEq, and_true]
    funext u
    by_cases hu : u = tid
    · subst hu; simp [Tcb.drained]
    · simp [hu, Tcb.drained]

theorem Tcb.drained_cons (msg : Msg) (msgs : List Msg) (u : Tid) (b : Tcb) :
    b.drained (msg :: msgs) u = (b.drained [msg] u).drained msgs u := by
  simp only [Tcb.drained, List.mem_cons, List.not_mem_nil, or_false, Bool.decide_or, Bool.or_assoc,
    Tcb.mk.injEq, and_true, true_and]
  funext key
  by_cases hm : Msg.wake u (some key) = msg
  · simp [hm]
  · by_cases hms : Msg.wake u (some key) ∈ msgs
    · simp [hms]
    · simp [hm, hms]

theorem foldl_applyMsg (msgs : List Msg) (s : State σ) :
    msgs.foldl applyMsg s = { s with tcb := fun u => (s.tcb u).drained msgs u } := by
  induction msgs generalizing s with
  | nil => simp [Tcb.drained]
  | cons msg msgs ih =>
    rw [List.foldl_cons, applyMsg_drained, ih]
    simp [← Tcb.drained_cons]

/-- A drain writes nothing but event status, never back to pending, and the
`freed` mark. -/
structure Tcb.DrainsTo (b b' : Tcb) : Prop where
  pc : b'.pc = b.pc
  wqEvent : b'.wqEvent = b.wqEvent
  status : ∀ key, b.status key ≠ .pending → b'.status key ≠ .pending

theorem Tcb.DrainsTo.refl (b : Tcb) : b.DrainsTo b := ⟨rfl, rfl, fun _ h => h⟩

theorem Tcb.drainsTo_drained (b : Tcb) (msgs : List Msg) (u : Tid) :
    b.DrainsTo (b.drained msgs u) := by
  refine ⟨rfl, rfl, fun key h => ?_⟩
  rw [Tcb.drained_status]
  split
  · nofun
  · exact h

end GnuPth
