import GnuPth.Sync.Frame

/-!
# The protocol of one mutex

`MutexView` is what a single mutex can see of the system: its own fields, its
wait queue, what each thread is doing with it, and who holds it. `MutexStep`
says how the view can change, one rule for each transition of the lock; every
step of the system over lists either leaves the view of a mutex alone or is one
of these (`Step.mutexView`).
-/

namespace GnuPth

open Function (update update_apply)
open Transition

/-- What a thread is doing with one given mutex. `waiting`, `woken` and
`cleanup` are the three places in the wait of `pth_mutex_acquire`; `releasing`
is behind the checks of `pth_mutex_release`. -/
inductive MutexRole
  | out
  | waiting
  | woken
  | cleanup
  | releasing
  deriving DecidableEq, Repr

def Pc.mutexRole (m : MutexId) : Pc → MutexRole
  | .mutexWait m' _ _ => if m' = m then .waiting else .out
  | .mutexWoken m' _ _ => if m' = m then .woken else .out
  | .mutexCleanup m' _ => if m' = m then .cleanup else .out
  | .releaseLock m' _ => if m' = m then .releasing else .out
  | _ => .out

/-- The threads that hold `m`, one entry for each acquire that returned `TRUE`
and is not yet released. -/
def holders (m : MutexId) : List Obs → List Tid
  | [] => []
  | .acquire t m' .ok :: log => if m' = m then t :: holders m log else holders m log
  | .release t m' .ok :: log => if m' = m then (holders m log).erase t else holders m log
  | _ :: log => holders m log

@[ext] structure MutexView where
  mx : Mutex
  queue : List Tid
  role : Tid → MutexRole
  holders : List Tid

def mutexView (m : MutexId) (s : State WaitLists) : MutexView where
  mx := s.mutex m
  queue := s.store (.queue (.mutex m))
  role u := (s.tcb u).pc.mutexRole m
  holders := holders m s.log

inductive MutexEvent
  | setfair (fair : Bool)
  | take (t : Tid)
  | recurse (t : Tid)
  | park (t : Tid)
  | resume (t : Tid)
  | unwind (t : Tid)
  | grant (t : Tid)
  | timeout (t : Tid)
  | retake (t : Tid)
  | repark (t : Tid)
  | passOn (t w : Tid)
  | passFree (t : Tid)
  | leave (t : Tid)
  | check (t : Tid)
  | unrecurse (t : Tid)
  | handoff (t w : Tid)
  | wakeOne (t w : Tid)
  | unlock (t : Tid)

def Mutex.lockFor (x : Mutex) (t : Tid) : Mutex :=
  { x with locked := true, owner := some t, count := 1 }

inductive MutexStep : MutexView → MutexEvent → MutexView → Prop
  | setfair {v fair} : MutexStep v (.setfair fair) { v with mx := { v.mx with fair } }
  | take {v t} (hr : v.role t = .out) (hl : v.mx.locked = false) :
      MutexStep v (.take t) { v with mx := v.mx.lockFor t, holders := t :: v.holders }
  | recurse {v t} (hr : v.role t = .out) (hl : v.mx.locked = true) (ho : v.mx.owner = some t) :
      MutexStep v (.recurse t)
        { v with mx := { v.mx with count := v.mx.count + 1 }, holders := t :: v.holders }
  | park {v t} (hr : v.role t = .out) (hl : v.mx.locked = true)
      (ho : ¬(v.mx.count ≥ 1 ∧ v.mx.owner = some t)) :
      MutexStep v (.park t) { v with queue := v.queue ++ [t], role := update v.role t .waiting }
  | resume {v t} (hr : v.role t = .waiting) :
      MutexStep v (.resume t) { v with role := update v.role t .woken }
  | unwind {v t} (hr : v.role t = .waiting) :
      MutexStep v (.unwind t) { v with role := update v.role t .cleanup }
  | grant {v t} (hr : v.role t = .woken) (ho : v.mx.owner = some t) :
      MutexStep v (.grant t) { v with role := update v.role t .out, holders := t :: v.holders }
  | timeout {v t} (hr : v.role t = .woken) (ho : v.mx.owner ≠ some t) :
      MutexStep v (.timeout t) { v with queue := v.queue.erase t, role := update v.role t .out }
  | retake {v t} (hr : v.role t = .woken) (ho : v.mx.owner ≠ some t) (hl : v.mx.locked = false) :
      MutexStep v (.retake t)
        { mx := v.mx.lockFor t, queue := v.queue.erase t, role := update v.role t .out
          holders := t :: v.holders }
  | repark {v t} (hr : v.role t = .woken) (ho : v.mx.owner ≠ some t) (hl : v.mx.locked = true) :
      MutexStep v (.repark t)
        { v with queue := v.queue.erase t ++ [t], role := update v.role t .waiting }
  | passOn {v t w ws} (hr : v.role t = .cleanup) (ho : v.mx.owner = some t)
      (hq : v.queue = w :: ws) :
      MutexStep v (.passOn t w)
        { v with mx := v.mx.handTo w, queue := ws, role := update v.role t .out }
  | passFree {v t} (hr : v.role t = .cleanup) (ho : v.mx.owner = some t) (hq : v.queue = []) :
      MutexStep v (.passFree t) { v with mx := v.mx.unlock, role := update v.role t .out }
  | leave {v t} (hr : v.role t = .cleanup) (ho : v.mx.owner ≠ some t) :
      MutexStep v (.leave t) { v with queue := v.queue.erase t, role := update v.role t .out }
  | check {v t} (hr : v.role t = .out) (ho : v.mx.owner = some t) :
      MutexStep v (.check t) { v with role := update v.role t .releasing }
  | unrecurse {v t} (hr : v.role t = .releasing) (hn : v.mx.count - 1 ≠ 0) :
      MutexStep v (.unrecurse t)
        { v with
          mx := { v.mx with count := v.mx.count - 1 }, role := update v.role t .out
          holders := v.holders.erase t }
  | handoff {v t w ws} (hr : v.role t = .releasing) (hn : v.mx.count - 1 = 0)
      (hq : v.queue = w :: ws) (hf : v.mx.fair = true) :
      MutexStep v (.handoff t w)
        { mx := v.mx.handTo w, queue := ws, role := update v.role t .out
          holders := v.holders.erase t }
  | wakeOne {v t w ws} (hr : v.role t = .releasing) (hn : v.mx.count - 1 = 0)
      (hq : v.queue = w :: ws) (hf : v.mx.fair = false) :
      MutexStep v (.wakeOne t w)
        { mx := v.mx.unlock, queue := ws, role := update v.role t .out
          holders := v.holders.erase t }
  | unlock {v t} (hr : v.role t = .releasing) (hn : v.mx.count - 1 = 0) (hq : v.queue = []) :
      MutexStep v (.unlock t)
        { v with mx := v.mx.unlock, role := update v.role t .out, holders := v.holders.erase t }

/-! ### What the protocol keeps -/

def MutexRole.inWait : MutexRole → Bool
  | .waiting | .woken | .cleanup => true
  | .out | .releasing => false

structure MutexView.Ok (v : MutexView) : Prop where
  locked : v.mx.locked = true ↔ v.mx.owner ≠ none
  counted : v.mx.owner ≠ none ↔ 1 ≤ v.mx.count
  nodup : v.queue.Nodup
  queued : ∀ t ∈ v.queue, (v.role t).inWait = true
  owner : ∀ t, v.mx.owner = some t → t ∉ v.queue
  releasing : ∀ t, v.role t = .releasing → v.mx.owner = some t
  -- an owner that is still in the wait was handed the lock
  granted : ∀ t, v.mx.owner = some t → (v.role t).inWait = true → v.mx.count = 1
  held : ∀ t, v.holders.count t =
    if v.mx.owner = some t ∧ (v.role t).inWait = false then v.mx.count else 0

section
variable {v : MutexView}

theorem MutexView.Ok.notMem (ok : v.Ok) (hr : (v.role t).inWait = false) : t ∉ v.queue := by
  intro ht
  rw [ok.queued t ht] at hr
  cases hr

theorem MutexView.Ok.setRole (ok : v.Ok) (hr : (v.role t).inWait = r.inWait)
    (ho : r = .releasing → v.mx.owner = some t) :
    ({ v with role := update v.role t r } : MutexView).Ok := by
  have hin : ∀ u, (update v.role t r u).inWait = (v.role u).inWait := by
    intro u
    by_cases hu : u = t
    · subst hu; simp [hr]
    · simp [hu]
  refine ⟨ok.locked, ok.counted, ok.nodup, fun u hu => ?_, ok.owner, fun u hu => ?_, fun u hu => ?_,
    fun u => ?_⟩
  · rw [hin]; exact ok.queued u hu
  · by_cases hut : u = t
    · subst hut
      exact ho (by simpa using hu)
    · exact ok.releasing u (by simpa [hut] using hu)
  · rw [hin]; exact ok.granted u hu
  · rw [hin]; exact ok.held u

theorem MutexView.Ok.park (ok : v.Ok) (hr : (v.role t).inWait = false) (ho : v.mx.owner ≠ some t) :
    ({ v with queue := v.queue ++ [t], role := update v.role t .waiting } : MutexView).Ok := by
  have hnot := ok.notMem hr
  refine ⟨ok.locked, ok.counted, ?_, fun u hu => ?_, fun u hu => ?_, fun u hu => ?_, fun u hu => ?_,
    fun u => ?_⟩
  · exact ok.nodup.append (List.nodup_singleton t) (by simpa using hnot)
  · by_cases hut : u = t
    · subst hut; simp [MutexRole.inWait]
    · simpa [hut] using ok.queued u (by simpa [hut] using hu)
  · have hut : u ≠ t := by rintro rfl; exact ho hu
    simpa [hut] using ok.owner u hu
  · have hut : u ≠ t := by rintro rfl; simp at hu
    exact ok.releasing u (by simpa [hut] using hu)
  · have hut : u ≠ t := by rintro rfl; exact ho hu
    simpa [hut] using ok.granted u hu
  · have hheld := ok.held u
    by_cases hut : u = t
    · subst hut; simpa [ho] using hheld
    · simpa [hut] using hheld

theorem MutexView.Ok.leave (ok : v.Ok) (ho : v.mx.owner ≠ some t) :
    ({ v with queue := v.queue.erase t, role := update v.role t .out } : MutexView).Ok := by
  obtain ⟨locked, counted, nodup, queued, owner, releasing, granted, held⟩ := ok
  refine ⟨locked, counted, nodup.erase t, ?_, ?_, ?_, ?_, ?_⟩
  · grind
  · grind
  · grind
  · grind
  · grind

theorem MutexView.Ok.take (ok : v.Ok) (hr : v.role t = .out) (hl : v.mx.locked = false) :
    ({ v with mx := v.mx.lockFor t, holders := t :: v.holders } : MutexView).Ok := by
  have hnot := ok.notMem (by rw [hr]; rfl)
  obtain ⟨locked, counted, nodup, queued, owner, releasing, granted, held⟩ := ok
  refine ⟨?_, ?_, nodup, queued, ?_, ?_, ?_, ?_⟩ <;> simp only [Mutex.lockFor]
  · simp
  · simp
  · grind
  · grind
  · grind
  · grind [MutexRole.inWait]

theorem MutexView.Ok.handTo (ok : v.Ok) (hq : v.queue = w :: ws) (ho : v.mx.owner = some t)
    (hh : ∀ u, hs.count u = 0) :
    (MutexView.mk (v.mx.handTo w) ws (update v.role t .out) hs).Ok := by
  obtain ⟨locked, counted, nodup, queued, owner, releasing, granted, held⟩ := ok
  refine ⟨?_, ?_, ?_, ?_, ?_, ?_, ?_, ?_⟩ <;> simp only [Mutex.handTo]
  · simp [locked, ho]
  · simp
  · grind
  · grind
  · grind
  · grind
  · grind
  · grind

theorem MutexView.Ok.unlock (ok : v.Ok) (hq : ws.Sublist v.queue) (ho : v.mx.owner = some t)
    (hh : ∀ u, hs.count u = 0) :
    (MutexView.mk v.mx.unlock ws (update v.role t .out) hs).Ok := by
  obtain ⟨locked, counted, nodup, queued, owner, releasing, granted, held⟩ := ok
  refine ⟨?_, ?_, nodup.sublist hq, ?_, ?_, ?_, ?_, ?_⟩ <;> simp only [Mutex.unlock]
  · simp
  · simp
  · grind
  · simp
  · grind
  · simp
  · grind

theorem MutexView.Ok.holders_of_inWait (ok : v.Ok) (ho : v.mx.owner = some t)
    (hr : (v.role t).inWait = true) (u : Tid) : v.holders.count u = 0 := by
  rw [ok.held u]
  grind

theorem MutexView.Ok.holders_of_last (ok : v.Ok) (hr : v.role t = .releasing)
    (hn : v.mx.count - 1 = 0) (u : Tid) : (v.holders.erase t).count u = 0 := by
  have ho := ok.releasing t hr
  have hu := ok.held u
  grind

theorem MutexView.Ok.recurse (ok : v.Ok) (hr : v.role t = .out) (ho : v.mx.owner = some t) :
    ({ v with mx := { v.mx with count := v.mx.count + 1 }, holders := t :: v.holders } :
      MutexView).Ok := by
  obtain ⟨locked, counted, nodup, queued, owner, releasing, granted, held⟩ := ok
  refine ⟨locked, ?_, nodup, queued, owner, releasing, ?_, ?_⟩
  · simp [ho]
  · grind [MutexRole.inWait]
  · grind [MutexRole.inWait]

theorem MutexView.Ok.grant (ok : v.Ok) (hr : v.role t = .woken) (ho : v.mx.owner = some t) :
    ({ v with role := update v.role t .out, holders := t :: v.holders } : MutexView).Ok := by
  obtain ⟨locked, counted, nodup, queued, owner, releasing, granted, held⟩ := ok
  refine ⟨locked, counted, nodup, ?_, owner, ?_, ?_, ?_⟩
  · grind
  · grind
  · grind [MutexRole.inWait]
  · grind [MutexRole.inWait]

theorem MutexView.Ok.unrecurse (ok : v.Ok) (hr : v.role t = .releasing) (hn : v.mx.count - 1 ≠ 0) :
    ({ v with
        mx := { v.mx with count := v.mx.count - 1 }, role := update v.role t .out
        holders := v.holders.erase t } : MutexView).Ok := by
  obtain ⟨locked, counted, nodup, queued, owner, releasing, granted, held⟩ := ok
  refine ⟨locked, ?_, nodup, ?_, owner, ?_, ?_, ?_⟩
  · grind
  · grind
  · grind
  · grind [MutexRole.inWait]
  · grind [MutexRole.inWait]

theorem MutexStep.ok (h : MutexStep v e v') (ok : v.Ok) : v'.Ok := by
  cases h with
  | setfair =>
    exact ⟨ok.locked, ok.counted, ok.nodup, ok.queued, ok.owner, ok.releasing, ok.granted, ok.held⟩
  | take hr hl => exact ok.take hr hl
  | recurse hr hl ho => exact ok.recurse hr ho
  | park hr hl ho =>
    refine ok.park (by rw [hr]; rfl) fun hown => ho ⟨?_, hown⟩
    exact ok.counted.mp (by simp [hown])
  | resume hr | unwind hr => exact ok.setRole (by rw [hr]; rfl) nofun
  | check hr ho => exact ok.setRole (by rw [hr]; rfl) fun _ => ho
  | grant hr ho => exact ok.grant hr ho
  | timeout hr ho | leave hr ho => exact ok.leave ho
  | retake hr ho hl => exact (ok.leave ho).take (by simp) hl
  | @repark t hr ho => simpa using (ok.leave ho).park (by simp [MutexRole.inWait]) ho
  | passOn hr ho hq => exact ok.handTo hq ho (ok.holders_of_inWait ho (by rw [hr]; rfl))
  | passFree hr ho =>
    exact ok.unlock (List.Sublist.refl _) ho (ok.holders_of_inWait ho (by rw [hr]; rfl))
  | unrecurse hr hn => exact ok.unrecurse hr hn
  | handoff hr hn hq => exact ok.handTo hq (ok.releasing _ hr) (ok.holders_of_last hr hn)
  | @wakeOne t w ws hr hn hq =>
    have hsub : ws.Sublist v.queue := by rw [hq]; exact List.sublist_cons_self _ _
    exact ok.unlock hsub (ok.releasing _ hr) (ok.holders_of_last hr hn)
  | unlock hr hn =>
    exact ok.unlock (List.Sublist.refl _) (ok.releasing _ hr) (ok.holders_of_last hr hn)

end

/-! ### The system follows the protocol -/

/-- What the event says about the action, beyond its rule. -/
def MutexEvent.By {σ : Type} (s s' : State σ) (a : Act) (m : MutexId) : MutexEvent → Prop
  | .setfair fair => ∃ t, a = .setfair t m fair
  | .take t => ∃ tryonly extra k, (s.tcb t).pc = .mutexEnter m tryonly extra k
  | .unwind t => ActsOnCancel s a t ∧ Emits s s' (.cancelled t)
  | .timeout t =>
    a = .step t ∧ (∃ k, (s.tcb t).pc = .mutexWoken m true k) ∧
      (s.tcb t).status .mutex = .pending ∧ Emits s s' (.acquire t m (.error .EINTR))
  | .repark t => a = .step t ∧ (∃ extra k, (s.tcb t).pc = .mutexWoken m extra k) ∧ parks s t
  | .wakeOne t _ => a = .step t ∧ ∃ k, (s.tcb t).pc = .releaseLock m k
  | _ => True

section
variable {log : List Obs}

theorem Pc.mutexRole_spec (m : MutexId) (pc : Pc) :
    match pc.mutexRole m with
    | .out => True
    | .waiting => ∃ extra k, pc = .mutexWait m extra k
    | .woken => ∃ extra k, pc = .mutexWoken m extra k
    | .cleanup => ∃ k, pc = .mutexCleanup m k
    | .releasing => ∃ k, pc = .releaseLock m k := by
  cases pc with
  | mutexWait m' | mutexWoken m' | mutexCleanup m' | releaseLock m' =>
    by_cases hm : m' = m <;> simp [Pc.mutexRole, hm]
  | _ => trivial

attribute [simp] Pc.mutexRole.eq_1 Pc.mutexRole.eq_2 Pc.mutexRole.eq_3 Pc.mutexRole.eq_4
  Pc.mutexRole.eq_5

variable {k : AcquireFrom}

@[simp] theorem AcquireFrom.pc_mutexRole : (k.pc m').mutexRole m = .out := by cases k <;> rfl

theorem ReleaseFrom.ReturnsTo.mutexRole {k : ReleaseFrom}
    (h : k.ReturnsTo m' pc) : pc.mutexRole m = .out :=
  h.elim rfl (fun _ _ => rfl) rfl (fun _ _ => rfl)

theorem PostThen.ReturnsTo.mutexRole {k : PostThen} (h : k.ReturnsTo pc) :
    pc.mutexRole m = .out :=
  h.elim rfl (fun _ _ _ => rfl) rfl (fun _ _ => rfl) (fun _ _ => rfl) (fun _ => rfl)

theorem Pc.woken_mutexRole (pc : Pc) :
    pc.woken.mutexRole m = if pc.mutexRole m = .waiting then .woken else pc.mutexRole m := by
  cases pc with
  | mutexWait m' | mutexWoken m' | mutexCleanup m' | releaseLock m' =>
    by_cases hm : m' = m <;> simp [Pc.woken, hm]
  | _ => rfl

theorem Pc.unwound_mutexRole (pc : Pc) :
    pc.unwound.mutexRole m = if pc.mutexRole m = .waiting then .cleanup else pc.mutexRole m := by
  cases pc with
  | mutexWait m' | mutexWoken m' | mutexCleanup m' | releaseLock m' =>
    by_cases hm : m' = m <;> simp [Pc.unwound, Pc.mutexRole, hm]
  | _ => rfl

@[simp] theorem holders_obs_ok :
    holders m (k.obs t m .ok ++ log) = t :: holders m log := by
  cases k <;> simp [AcquireFrom.obs, holders]

@[simp] theorem holders_obs_error :
    holders m (k.obs t m' (.error e) ++ log) = holders m log := by
  cases k <;> simp [AcquireFrom.obs, holders]

@[simp] theorem holders_post_obs {k : PostThen} :
    holders m (k.obs t ++ log) = holders m log := by
  cases k with
  | notify c broadcast => cases broadcast <;> rfl
  | _ => rfl

theorem holders_obs_of_ne (hm : m' ≠ m) :
    holders m (k.obs t m' r ++ log) = holders m log := by
  cases r with
  | error => simp
  | ok => cases k <;> simp [AcquireFrom.obs, holders, hm]

theorem Act.entry_mutexRole {a : Act} (h : a.entry = some (t, pc)) : pc.mutexRole m = .out := by
  cases a with
  | acquire | release | await | notify | rwlockAcquire | rwlockRelease | join => cases h; rfl
  | _ => cases h

end

section
variable {home : Tid → SchedId}
variable {v : MutexView}

theorem MutexStep.of_eq (h : MutexStep v e v₁) (hrole : v'.role = role)
    (hm : v'.mx = v₁.mx) (hq : v'.queue = v₁.queue) (hr : role = v₁.role)
    (hh : v'.holders = v₁.holders) : MutexStep v e v' := by
  obtain rfl : v' = v₁ := MutexView.ext hm hq (hrole.trans hr) hh
  exact h

theorem Step.role_eq (h : Step home listOps s a s') (ha : a.actor = some t) :
    (mutexView m s').role = update (mutexView m s).role t ((s'.tcb t).pc.mutexRole m) := by
  funext u
  by_cases hu : u = t
  · subst hu; simp [mutexView]
  · simp [mutexView, hu, h.tcb_of_ne ha hu]

theorem Step.mutexView_of_frame (h : Step home listOps s a s') (ha : a.actor = some t)
    (hm : s'.mutex m = s.mutex m)
    (hq : s'.store (.queue (.mutex m)) = s.store (.queue (.mutex m)))
    (ht : (s'.tcb t).pc.mutexRole m = (s.tcb t).pc.mutexRole m)
    (hl : holders m s'.log = holders m s.log) : mutexView m s' = mutexView m s := by
  refine MutexView.ext hm hq ?_ hl
  rw [h.role_eq ha, ht]
  exact Function.update_eq_self _ _

theorem Step.mutexView (h : Step home listOps s a s') :
    mutexView m s' = mutexView m s ∨
      ∃ e, MutexStep (mutexView m s) e (mutexView m s') ∧ e.By s s' a m := by
  have hframe := fun {t} => h.mutexView_of_frame (m := m) (t := t)
  have hrole := fun t => h.role_eq (m := m) (t := t)
  cases h with
  | drain | cancelPoint => exact .inl rfl
  | call hr hpc he =>
    exact .inl (hframe (Act.entry_actor he) rfl rfl (by simp [hpc, Act.entry_mutexRole he]) rfl)
  | @exit t v pc hr hpc hp =>
    refine .inl (hframe rfl rfl rfl ?_ rfl)
    rcases hp with rfl | ⟨rn, rfl⟩ <;> simp [hpc, Pc.mutexRole]
  | @resume t ha hw hc =>
    by_cases hq : (s.tcb t).pc.mutexRole m = .waiting
    · refine .inr ⟨.resume t, .of_eq (.resume hq) (hrole t rfl) rfl rfl ?_ rfl, trivial⟩
      simp [Pc.woken_mutexRole, hq]
    · exact .inl (hframe rfl rfl rfl (by simp [Pc.woken_mutexRole, hq]) rfl)
  | @unwind t ha hw hc =>
    by_cases hq : (s.tcb t).pc.mutexRole m = .waiting
    · refine .inr ⟨.unwind t, .of_eq (.unwind hq) (hrole t rfl) rfl rfl ?_ rfl, .inl ⟨rfl, by simpa using hc⟩,
        [.cancelled t], rfl, by simp⟩
      simp [Pc.unwound_mutexRole, hq]
    · exact .inl (hframe rfl rfl rfl (by simp [Pc.unwound_mutexRole, hq]) rfl)
  | @cancelAsync t ha hpc hc =>
    by_cases hq : (s.tcb t).pc.mutexRole m = .waiting
    · refine .inr ⟨.unwind t, .of_eq (.unwind hq) (hrole t rfl) rfl rfl ?_ rfl, .inr ⟨rfl, by simpa using hc⟩,
        [.cancelled t], rfl, by simp⟩
      simp [Pc.unwound_mutexRole, hq]
    · exact .inl (hframe rfl rfl rfl (by simp [Pc.unwound_mutexRole, hq]) rfl)
  | @setfair t m' fair hr hpc hi =>
    by_cases hm : m' = m
    · subst hm
      refine .inr ⟨.setfair fair, .of_eq .setfair (hrole t rfl) ?_ rfl ?_ rfl, t, rfl⟩
      all_goals simp [GnuPth.mutexView]
    · exact .inl (hframe rfl (by simp [Ne.symm hm]) rfl rfl rfl)
  | @take t m' tryonly extra k hr hpc hi hl =>
    by_cases hm : m' = m
    · subst hm
      refine .inr ⟨.take t, .of_eq (.take ?_ hl) (hrole t rfl) ?_ rfl ?_ ?_,
        tryonly, extra, k, hpc⟩
      all_goals simp [GnuPth.mutexView, hpc, Mutex.lockFor]
    · exact .inl (hframe rfl (by simp [Ne.symm hm]) rfl (by simp [hpc])
        (by simp [holders_obs_of_ne hm]))
  | @acquireFail t m' tryonly extra k e hr hpc he =>
    exact .inl (hframe rfl rfl rfl (by simp [hpc]) (by simp))
  | @recurse t m' tryonly extra k hr hpc hi hl hn ho =>
    by_cases hm : m' = m
    · subst hm
      refine .inr ⟨.recurse t, .of_eq (.recurse ?_ hl ho) (hrole t rfl) ?_ rfl ?_ ?_, trivial⟩
      all_goals simp [GnuPth.mutexView, hpc]
    · exact .inl (hframe rfl (by simp [Ne.symm hm]) rfl (by simp [hpc])
        (by simp [holders_obs_of_ne hm]))
  | @mutexPark t m' extra k hr hpc hi hl ho hf =>
    by_cases hm : m' = m
    · subst hm
      refine .inr ⟨.park t, .of_eq (.park ?_ hl ho) (hrole t rfl) rfl ?_ ?_ rfl, trivial⟩
      all_goals simp [GnuPth.mutexView, hpc]
    · exact .inl (hframe rfl rfl (by simp [Ne.symm hm]) (by simp [hpc, hm]) rfl)
  | @grant t m' extra k hr hpc ho =>
    by_cases hm : m' = m
    · subst hm
      refine .inr ⟨.grant t, .of_eq (.grant ?_ ho) (hrole t rfl) rfl rfl ?_ ?_, trivial⟩
      all_goals simp [GnuPth.mutexView, hpc]
    · exact .inl (hframe rfl rfl rfl (by simp [hpc, hm]) (by simp [holders_obs_of_ne hm]))
  | @mutexTimeout t m' extra k b store hr hpc ho hrem he =>
    obtain ⟨-, rfl⟩ := listOps_remove.mp hrem
    by_cases hm : m' = m
    · subst hm
      obtain ⟨rfl, hst⟩ := he
      refine .inr ⟨.timeout t, .of_eq (.timeout ?_ ho) (hrole t rfl) rfl ?_ ?_ ?_, rfl, ⟨k, hpc⟩, hst, ?_⟩
      case refine_5 => exact ⟨_, rfl, by cases k <;> simp [AcquireFrom.obs]⟩
      all_goals simp [GnuPth.mutexView, hpc]
    · exact .inl (hframe rfl rfl (by simp [Ne.symm hm]) (by simp [hpc, hm])
        (by simp [holders_obs_of_ne hm]))
  | @retake t m' extra k b store hr hpc ho hrem he hl =>
    obtain ⟨-, rfl⟩ := listOps_remove.mp hrem
    by_cases hm : m' = m
    · subst hm
      refine .inr ⟨.retake t, .of_eq (.retake ?_ ho hl) (hrole t rfl) ?_ ?_ ?_ ?_, trivial⟩
      all_goals simp [GnuPth.mutexView, hpc, Mutex.lockFor]
    · exact .inl (hframe rfl (by simp [Ne.symm hm]) (by simp [Ne.symm hm]) (by simp [hpc, hm])
        (by simp [holders_obs_of_ne hm]))
  | @mutexRepark t m' extra k b store hr hpc ho hrem he hl hf =>
    obtain ⟨-, rfl⟩ := listOps_remove.mp hrem
    by_cases hm : m' = m
    · subst hm
      refine .inr ⟨.repark t, .of_eq (.repark ?_ ho hl) (hrole t rfl) rfl ?_ ?_ rfl, rfl, ⟨extra, k, hpc⟩, ?_⟩
      case refine_4 => simp only [parks, hpc]; exact ⟨ho, hl, he⟩
      all_goals simp [GnuPth.mutexView, hpc]
    · exact .inl (hframe rfl rfl (by simp [Ne.symm hm]) (by simp [hpc, hm]) rfl)
  | @passOn t m' k w store hr hpc ho hs =>
    obtain ⟨ws, hq, rfl⟩ := listOps_shift_some.mp hs
    by_cases hm : m' = m
    · subst hm
      refine .inr ⟨.passOn t w, .of_eq (.passOn ?_ ho hq) (hrole t rfl) ?_ ?_ ?_ rfl, trivial⟩
      all_goals simp [GnuPth.mutexView, hpc]
    · exact .inl (hframe rfl (by simp [Ne.symm hm]) (by simp [Ne.symm hm]) (by simp [hpc, hm]) rfl)
  | @passFree t m' k store hr hpc ho hs =>
    obtain ⟨hq, rfl⟩ := listOps_shift_none.mp hs
    by_cases hm : m' = m
    · subst hm
      refine .inr ⟨.passFree t, .of_eq (.passFree ?_ ho hq) (hrole t rfl) ?_ rfl ?_ rfl, trivial⟩
      all_goals simp [GnuPth.mutexView, hpc]
    · exact .inl (hframe rfl (by simp [Ne.symm hm]) rfl (by simp [hpc, hm]) rfl)
  | @mutexLeave t m' k b store hr hpc ho hrem =>
    obtain ⟨-, rfl⟩ := listOps_remove.mp hrem
    by_cases hm : m' = m
    · subst hm
      refine .inr ⟨.leave t, .of_eq (.leave ?_ ho) (hrole t rfl) rfl ?_ ?_ rfl, trivial⟩
      all_goals simp [GnuPth.mutexView, hpc]
    · exact .inl (hframe rfl rfl (by simp [Ne.symm hm]) (by simp [hpc, hm]) rfl)
  | @releaseFail t m' k e b g hr hpc ho hb =>
    exact .inl (hframe rfl rfl rfl (by simp [hpc, hb.mutexRole]) rfl)
  | @releaseCheck t m' k hr hpc hi hl ho =>
    by_cases hm : m' = m
    · subst hm
      refine .inr ⟨.check t, .of_eq (.check ?_ ho) (hrole t rfl) rfl rfl ?_ rfl, trivial⟩
      all_goals simp [GnuPth.mutexView, hpc]
    · exact .inl (hframe rfl rfl rfl (by simp [hpc, hm]) rfl)
  | @handoff t m' k w store hr hpc hn hs hf =>
    obtain ⟨ws, hq, rfl⟩ := listOps_shift_some.mp hs
    by_cases hm : m' = m
    · subst hm
      refine .inr ⟨.handoff t w, .of_eq (.handoff ?_ hn hq hf) (hrole t rfl) ?_ ?_ ?_ ?_, trivial⟩
      all_goals simp [GnuPth.mutexView, hpc, holders]
    · exact .inl (hframe rfl (by simp [Ne.symm hm]) (by simp [Ne.symm hm]) (by simp [hpc, hm])
        (by simp [holders, hm]))
  | @wakeOne t m' k w store hr hpc hn hs hf =>
    obtain ⟨ws, hq, rfl⟩ := listOps_shift_some.mp hs
    by_cases hm : m' = m
    · subst hm
      refine .inr ⟨.wakeOne t w, .of_eq (.wakeOne ?_ hn hq hf) (hrole t rfl) ?_ ?_ ?_ ?_, rfl, k, hpc⟩
      all_goals simp [GnuPth.mutexView, hpc, holders]
    · exact .inl (hframe rfl (by simp [Ne.symm hm]) (by simp [Ne.symm hm]) (by simp [hpc, hm])
        (by simp [holders, hm]))
  | @unlock t m' k store b g hr hpc hn hs hb =>
    obtain ⟨hq, rfl⟩ := listOps_shift_none.mp hs
    by_cases hm : m' = m
    · subst hm
      refine .inr ⟨.unlock t, .of_eq (.unlock ?_ hn hq) (hrole t rfl) ?_ rfl ?_ ?_, trivial⟩
      all_goals simp [GnuPth.mutexView, hpc, hb.mutexRole, holders]
    · exact .inl (hframe rfl (by simp [Ne.symm hm]) rfl (by simp [hpc, hb.mutexRole, hm])
        (by simp [holders, hm]))
  | @unrecurse t m' k b g hr hpc hn hb =>
    by_cases hm : m' = m
    · subst hm
      refine .inr ⟨.unrecurse t, .of_eq (.unrecurse ?_ hn) (hrole t rfl) ?_ rfl ?_ ?_, trivial⟩
      all_goals simp [GnuPth.mutexView, hpc, hb.mutexRole, holders]
    · exact .inl (hframe rfl (by simp [Ne.symm hm]) rfl (by simp [hpc, hb.mutexRole, hm])
        (by simp [holders, hm]))
  | @post t w k b g hr hpc hb =>
    exact .inl (hframe rfl rfl rfl (by simp [hpc, hb.mutexRole]) (by simp))
  | @die t ws store hr hpc hj hs =>
    obtain ⟨-, rfl⟩ := listOps_shiftAll.mp hs
    exact .inl (hframe rfl rfl (by simp) (by simp [hpc, Pc.mutexRole]) rfl)
  | @condDequeue t c m' pc b store hr hpc hrem =>
    obtain ⟨-, rfl⟩ := listOps_remove.mp hrem
    refine .inl (hframe rfl rfl (by simp) ?_ rfl)
    rcases hpc with ⟨hpc, rfl⟩ | ⟨hpc, rfl⟩ <;> simp [hpc, Pc.mutexRole]
  | @notifyOne t c broadcast w store hr hpc hi hs | @wakeWriter t r op w store hr hpc hx hs =>
    obtain ⟨ws, hq, rfl⟩ := listOps_shift_some.mp hs
    exact .inl (hframe rfl rfl (by simp) (by simp [hpc, Pc.mutexRole]) rfl)
  | _ =>
    left
    refine hframe rfl ?_ ?_ ?_ ?_
    all_goals clear hframe hrole
    all_goals simp_all [Pc.mutexRole, holders]

theorem mutexView_initial : (mutexView m (initial (fun _ => []) cfg)).Ok := by
  constructor <;> simp [mutexView, initial, holders]

theorem mutexView_ok (h : Reachable (listSystem home) s) : (mutexView m s).Ok := by
  induction h with
  | init h =>
    obtain ⟨cfg, rfl⟩ := h
    exact mutexView_initial
  | step _ hs ih =>
    rcases Step.mutexView hs with he | ⟨e, he, -⟩
    · rwa [he]
    · exact he.ok ih

end

end GnuPth
