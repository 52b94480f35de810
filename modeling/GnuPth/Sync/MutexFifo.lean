import Mathlib.Tactic.IntervalCases
import GnuPth.Sync.MutexRuns

/-!
# The order of a fair mutex

A fair mutex is handed from its holder to the head of the queue and is never
free while somebody is parked, so whoever is ahead in the queue gets it first,
as long as a waiter that is woken for another reason does not lose its place.
-/

namespace GnuPth

open Function (update update_apply)
open Transition

/-! ### The protocol of a fair mutex -/

/-- A mutex that is fair from its first use on. -/
structure MutexView.Fair (v : MutexView) : Prop where
  fair : v.mx.fair = true ∨ v.mx.locked = false
  empty : v.mx.locked = false → v.queue = []
  waits : ∀ t, v.role t = .waiting ∨ v.role t = .woken → v.mx.owner ≠ some t → t ∈ v.queue

/-- `u` is not ahead of `t` in a queue that `t` is in. -/
def Before (t u : Tid) (q : List Tid) : Prop := ∃ xs ys, q = xs ++ t :: ys ∧ u ∉ xs

/-- `t` waits, and `u` neither owns the mutex nor is ahead of `t`. -/
structure MutexView.Ahead (v : MutexView) (t u : Tid) : Prop where
  waits : v.role t = .waiting ∨ v.role t = .woken
  owner : v.mx.owner ≠ some u
  order : Before t u v.queue

/-- Nobody who waits is moved to the end of the queue from further ahead. -/
def MutexEvent.KeepsPlace (v : MutexView) : MutexEvent → Prop
  | .repark t => v.queue.getLast? = some t
  | _ => True

/-- `t` gives up: its extra event ends the wait, or it is cancelled. -/
def MutexEvent.GivesUp (t : Tid) : MutexEvent → Prop
  | .unwind u | .timeout u => u = t
  | _ => False

section
variable {v : MutexView}

theorem MutexView.Fair.not_retake (hf : v.Fair) (hr : v.role t = .woken)
    (ho : v.mx.owner ≠ some t) : v.mx.locked ≠ false := by
  intro hl
  have hmem := hf.waits t (.inr hr) ho
  rw [hf.empty hl] at hmem
  cases hmem

variable {q : List Tid}

theorem MutexView.Fair.update (hf : v.Fair)
    (hfair : x.fair = true ∨ x.locked = false) (hempty : x.locked = false → q = [])
    (hq : ∀ u ∈ v.queue, u ≠ t → x.owner ≠ some u → u ∈ q)
    (ho : ∀ u, u ≠ t → x.owner ≠ some u → v.mx.owner ≠ some u)
    (ht : r = .waiting ∨ r = .woken → x.owner ≠ some t → t ∈ q) :
    (MutexView.mk x q (update v.role t r) hs).Fair := by
  refine ⟨hfair, hempty, fun u hu hou => ?_⟩
  by_cases hut : u = t
  · subst hut
    exact ht (by simpa using hu) hou
  · exact hq u (hf.waits u (by simpa [hut] using hu) (ho u hut hou)) hut hou

theorem MutexView.Fair.handTo (hf : v.Fair) (hl : v.mx.locked = true)
    (ho : v.mx.owner = some t) (hq : v.queue = w :: ws) :
    (MutexView.mk (v.mx.handTo w) ws (Function.update v.role t .out) hs).Fair := by
  refine hf.update hf.fair (fun h => ?_) (fun u hu _ hw => ?_) (fun u hut _ => ?_) (by simp)
  · simp [Mutex.handTo, hl] at h
  · rw [hq] at hu
    exact (List.mem_cons.mp hu).resolve_left fun h => hw (by rw [h]; rfl)
  · simpa [ho] using hut.symm

theorem MutexView.Fair.unlock (hf : v.Fair) (ho : v.mx.owner = some t) (hq : v.queue = []) :
    (MutexView.mk v.mx.unlock v.queue (Function.update v.role t .out) hs).Fair := by
  refine hf.update (.inr rfl) (fun _ => hq) (fun u hu _ _ => hu) (fun u hut _ => ?_) (by simp)
  simpa [ho] using hut.symm

theorem MutexStep.fair (h : MutexStep v e v') (ok : v.Ok) (hset : e ≠ .setfair false)
    (htake : ∀ t, e = .take t → v.mx.fair = true) (hf : v.Fair) : v'.Fair := by
  have hlocked : ∀ {t}, v.mx.owner = some t → v.mx.locked = true :=
    fun ho => ok.locked.mpr (by simp [ho])
  cases h with
  | @setfair fair =>
    refine ⟨.inl ?_, hf.empty, hf.waits⟩
    cases fair with
    | true => rfl
    | false => exact absurd rfl hset
  | take hr hl =>
    refine ⟨.inl (htake _ rfl), nofun, fun u hu _ => hf.waits u hu fun hown => ?_⟩
    simp [hlocked hown] at hl
  | recurse => exact ⟨hf.fair, hf.empty, hf.waits⟩
  | retake hr ho hl => exact absurd hl (hf.not_retake hr ho)
  | park hr hl =>
    refine hf.update hf.fair (fun h => ?_) (fun u hu _ _ => by simp [hu]) (fun _ _ h => h) (by simp)
    simp [hl] at h
  | resume hr =>
    exact hf.update hf.fair hf.empty (fun u hu _ _ => hu) (fun _ _ h => h)
      fun _ ho => hf.waits _ (.inl hr) ho
  | unwind | grant | check | unrecurse =>
    exact hf.update hf.fair hf.empty (fun u hu _ _ => hu) (fun _ _ h => h) (by simp)
  | timeout | leave =>
    refine hf.update hf.fair (fun h => by simp [hf.empty h]) (fun u hu hut _ => ?_)
      (fun _ _ h => h) (by simp)
    exact (List.mem_erase_of_ne hut).mpr hu
  | repark hr ho hl =>
    refine hf.update hf.fair (fun h => ?_) (fun u hu hut _ => ?_) (fun _ _ h => h) (by simp)
    · simp [hl] at h
    · simp [List.mem_erase_of_ne hut, hu]
  | passOn hr ho hq => exact hf.handTo (hlocked ho) ho hq
  | handoff hr hn hq => exact hf.handTo (hlocked (ok.releasing _ hr)) (ok.releasing _ hr) hq
  | passFree hr ho hq => exact hf.unlock ho hq
  | unlock hr hn hq => exact hf.unlock (ok.releasing _ hr) hq
  | wakeOne hr hn hq hnf =>
    rcases hf.fair with h | h
    · simp [h] at hnf
    · simp [hlocked (ok.releasing _ hr)] at h

theorem erase_append_getLast {xs : List Tid} (hn : xs.Nodup) (ht : xs.getLast? = some t) :
    xs.erase t ++ [t] = xs := by
  obtain ⟨ys, rfl⟩ := List.getLast?_eq_some_iff.mp ht
  have hys : t ∉ ys := fun hmem => (List.nodup_append.mp hn).2.2 t hmem t (by simp) rfl
  rw [List.erase_append_right _ hys]
  simp

theorem Before.append (h : Before t u q) : Before t u (q ++ [w]) := by
  obtain ⟨xs, ys, rfl, hu⟩ := h
  exact ⟨xs, ys ++ [w], by simp, hu⟩

theorem Before.erase (h : Before t u q) (hw : w ≠ t) :
    Before t u (q.erase w) := by
  obtain ⟨xs, ys, rfl, hu⟩ := h
  by_cases hx : w ∈ xs
  · exact ⟨xs.erase w, ys, List.erase_append_left _ hx, fun h => hu (List.mem_of_mem_erase h)⟩
  · refine ⟨xs, ys.erase w, ?_, hu⟩
    rw [List.erase_append_right _ hx, List.erase_cons_tail (by simpa using hw.symm)]

theorem Before.uncons (h : Before t u (w :: ws)) :
    w = t ∨ w ≠ u ∧ Before t u ws := by
  obtain ⟨xs, ys, he, hu⟩ := h
  cases xs with
  | nil => exact .inl (List.cons.inj he).1
  | cons x xs =>
    obtain ⟨rfl, rfl⟩ := List.cons.inj he
    rw [List.mem_cons, not_or] at hu
    exact .inr ⟨Ne.symm hu.1, xs, ys, rfl, hu.2⟩

theorem Before.of_mem (ht : t ∈ q) (hu : u ∉ q) : Before t u q := by
  obtain ⟨xs, ys, rfl⟩ := List.append_of_mem ht
  exact ⟨xs, ys, rfl, fun h => hu (by simp [h])⟩

theorem Before.ne_nil (h : Before t u q) : q ≠ [] := by
  obtain ⟨xs, ys, rfl, -⟩ := h
  simp

/-- The mutex goes to the head of the queue, and that is `t` or somebody other
than `u`. -/
theorem MutexView.Ahead.handTo {x : Mutex} {role : Tid → MutexRole}
    (ha : v.Ahead t u) (hq : v.queue = w :: ws)
    (hr : role t = .waiting ∨ role t = .woken) :
    (x.handTo w).owner = some t ∨ (MutexView.mk (x.handTo w) ws role hs).Ahead t u := by
  have ho := ha.order
  rw [hq] at ho
  rcases ho.uncons with rfl | ⟨hwu, ho⟩
  · exact .inl rfl
  · exact .inr ⟨hr, by simpa [Mutex.handTo] using hwu, ho⟩

theorem MutexStep.ahead (h : MutexStep v e v') (ok : v.Ok) (hf : v.Fair) (hk : e.KeepsPlace v)
    (hg : ¬e.GivesUp t) (ha : v.Ahead t u) : v'.mx.owner = some t ∨ v'.Ahead t u := by
  have hstay : ∀ {w r}, t ≠ w → update v.role w r t = .waiting ∨ update v.role w r t = .woken := by
    intro w r hne
    simpa [hne] using ha.waits
  have hne : ∀ {w}, v.role w ≠ .waiting → v.role w ≠ .woken → t ≠ w := by
    rintro w h₁ h₂ rfl
    exact ha.waits.elim h₁ h₂
  have hlocked : v.mx.locked ≠ false := fun h => ha.order.ne_nil (hf.empty h)
  cases h with
  | setfair | recurse => exact .inr ⟨ha.waits, ha.owner, ha.order⟩
  | take hr hl | retake hr _ hl => exact absurd hl hlocked
  | passFree hr ho hq | unlock hr hn hq => exact absurd hq ha.order.ne_nil
  | wakeOne hr hn hq hnf =>
    rcases hf.fair with h | h
    · simp [h] at hnf
    · exact absurd h hlocked
  | passOn hr ho hq | handoff hr hn hq =>
    exact ha.handTo hq (hstay (hne (by simp [hr]) (by simp [hr])))
  | park hr =>
    exact .inr ⟨hstay (hne (by simp [hr]) (by simp [hr])), ha.owner, ha.order.append⟩
  | check hr | unrecurse hr =>
    exact .inr ⟨hstay (hne (by simp [hr]) (by simp [hr])), ha.owner, ha.order⟩
  | @leave w hr =>
    have hw : t ≠ w := hne (by simp [hr]) (by simp [hr])
    exact .inr ⟨hstay hw, ha.owner, ha.order.erase hw.symm⟩
  | timeout => exact .inr ⟨hstay (Ne.symm hg), ha.owner, ha.order.erase hg⟩
  | unwind => exact .inr ⟨hstay (Ne.symm hg), ha.owner, ha.order⟩
  | @grant w hr ho =>
    by_cases hw : t = w
    · exact .inl (hw ▸ ho)
    · exact .inr ⟨hstay hw, ha.owner, ha.order⟩
  | @resume w =>
    refine .inr ⟨?_, ha.owner, ha.order⟩
    by_cases hw : t = w
    · simp [hw]
    · exact hstay hw
  | @repark w =>
    refine .inr ⟨?_, ha.owner, ?_⟩
    · by_cases hw : t = w
      · simp [hw]
      · exact hstay hw
    · rw [erase_append_getLast ok.nodup hk]
      exact ha.order

theorem MutexStep.waits (h : MutexStep v e v') (hf : v.Fair) (hg : ¬e.GivesUp t)
    (ht : v.role t = .waiting ∨ v.role t = .woken) :
    v'.mx.owner = some t ∨ v'.role t = .waiting ∨ v'.role t = .woken := by
  have hnr := hf.not_retake (t := t)
  cases h with
  | setfair | take | recurse => exact .inr ht
  | timeout | unwind => exact .inr (by simpa [Ne.symm hg] using ht)
  | _ => grind

theorem MutexStep.parks (h : MutexStep v e v') (ok : v.Ok) (h₀ : v.role u = .out)
    (h₁ : v'.role u = .waiting) :
    v' = { v with queue := v.queue ++ [u], role := update v.role u .waiting } ∧
      v.mx.owner ≠ some u := by
  have hcount := ok.counted
  cases h with
  | @park t hr hl ho =>
    by_cases hu : u = t
    · subst hu
      refine ⟨rfl, fun hown => ho ⟨hcount.mp (by simp [hown]), hown⟩⟩
    · simp [hu, h₀] at h₁
  | _ => grind

end

/-! ### Fair from the first use on -/

/-- Nobody calls `pth_mutex_acquire` before the mutex is fair, and nobody makes
it unfair. -/
def FairUse {σ : Type} (m : MutexId) (s : State σ) (a : Act) : Prop :=
  (∀ t tryonly extra, a = .acquire t m tryonly extra → (s.mutex m).fair = true) ∧
    ∀ t, a ≠ .setfair t m false

section
variable {σ : Type}

theorem Step.fair (h : Step home ops s a s') (ha : ∀ t, a ≠ .setfair t m false)
    (hf : (s.mutex m).fair = true) : (s'.mutex m).fair = true := by
  cases h with
  | @setfair t m' fair =>
    by_cases hm : m' = m
    · subst hm
      cases fair with
      | true => simp
      | false => exact absurd rfl (ha t)
    · simpa [Ne.symm hm] using hf
  | @take _ m' | @recurse _ m' | @retake _ m' | @passOn _ m' | @passFree _ m' | @handoff _ m'
  | @wakeOne _ m' | @unlock _ m' | @unrecurse _ m' =>
    by_cases hm : m = m' <;> simp_all [Mutex.unlock, Mutex.handTo]
  | _ => exact hf

/-- Outside `pth_cond_await`, only the application calls `pth_mutex_acquire`. -/
theorem Next.mutexEnter
    (h : Next a pc os pc') (hpc : pc.inAwait = false) (he : pc' = .mutexEnter m tryonly extra k) :
    pc = pc' ∨ ∃ t, a = .acquire t m tryonly extra := by
  cases h with
  | stay => exact .inl rfl
  | call hen =>
    cases a with
    | acquire => cases hen; cases he; exact .inr ⟨_, rfl⟩
    | release | await | notify | rwlockAcquire | rwlockRelease | join => cases hen; cases he
    | _ => cases hen
  | woken | unwound => cases pc <;> first | exact .inl rfl | (cases hpc; done) | cases he
  | @acquired _ _ _ _ k | @mutexDone _ _ _ k => cases k <;> cases he
  | @releaseFail _ _ k _ _ hk | @releaseDone _ _ k _ hk =>
    cases k with
    | app | await => cases hk; cases he
    | all => rcases hk with rfl | ⟨rn, rfl⟩ <;> cases he
  | @post _ _ k _ hk =>
    cases k with
    | release m k =>
      cases k with
      | app | await => cases hk; cases he
      | all => rcases hk with rfl | ⟨rn, rfl⟩ <;> cases he
    | unwind | rwlockRelease | herd => cases hk; cases he
    | notify c broadcast => cases broadcast <;> (cases hk; cases he)
  | condWoken => cases hpc
  | _ => cases he

end

variable {s : State WaitLinks}

theorem fair_of_mutexEnter (hP : ∀ s a, P s a → a.mutexOnly = true ∧ FairUse m s a)
    (h : Reachable ((pthSystem home).restrict P) s)
    (hpc : (s.tcb t).pc = .mutexEnter m tryonly extra k) : (s.mutex m).fair = true := by
  induction h generalizing t tryonly extra k with
  | init h =>
    obtain ⟨cfg, rfl⟩ := h
    cases hpc
  | @step s s' a hr hs ih =>
    obtain ⟨ha, fuel, hstep⟩ := hs
    obtain ⟨hmo, huse, hset⟩ := hP s a ha
    have hstep := exec_step hstep
    by_cases ht : a.actor = some t
    · have hin : (s.tcb t).pc.inAwait = false := by
        refine not_inAwait ?_ hr t
        rintro s a ha t c m extra rfl
        cases (hP _ _ ha).1
      obtain ⟨os, -, hn⟩ := hstep.next ht
      rcases hn.mutexEnter hin hpc with he | ⟨u, rfl⟩
      · exact hstep.fair hset (ih (he.trans hpc))
      · exact hstep.fair hset (huse _ _ _ rfl)
    · rw [hstep.pc_of_ne ht] at hpc
      exact hstep.fair hset (ih hpc)

/-! ### First in, first out -/

/-- A waiter that is woken without having been handed the mutex parks again
only when it is the last in the queue. -/
def KeepsPlace (m : MutexId) (s : State WaitLinks) (a : Act) : Prop :=
  ∀ t extra k, a = .step t → (s.tcb t).pc = .mutexWoken m extra k → parks s t →
    (s.store.waitq (.mutex m)).tail = some t

section
variable {S : System (State WaitLinks) Act}

/-- With step `i`, the acquire call of `t` parks for the first time. -/
def FirstParks (m : MutexId) (r : Run S n) (i : Nat) (t : Tid) : Prop :=
  ∃ tryonly extra k, ((r.state i).tcb t).pc = .mutexEnter m tryonly extra k ∧
    ((r.state (i + 1)).tcb t).pc = .mutexWait m extra k

/-- From step `i` to step `k`, `t` neither returns `EINTR` nor is cancelled. -/
def Persists (m : MutexId) (r : Run S n) (t : Tid) (i k : Nat) : Prop :=
  ∀ l, i ≤ l → l < k → ¬Emits (r.state l) (r.state (l + 1)) (.cancelled t) ∧
    ¬Emits (r.state l) (r.state (l + 1)) (.acquire t m (.error .EINTR))

end

section
variable {home : Tid → SchedId} {m : MutexId} {e : MutexEvent}

theorem KeepsPlace.keepsPlace (hk : KeepsPlace m s a) (hv : v.Of home m s) (hby : e.By s s' a m) :
    e.KeepsPlace v := by
  cases e with
  | repark t =>
    obtain ⟨ha, ⟨extra, k, hpc⟩, hp⟩ := hby
    have htail := hk t extra k ha hpc hp
    rw [hv.header] at htail
    exact htail
  | _ => trivial

theorem MutexEvent.By.not_givesUp (hby : e.By s s' a m) (hc : ¬Emits s s' (.cancelled t))
    (he : ¬Emits s s' (.acquire t m (.error .EINTR))) : ¬e.GivesUp t := by
  cases e with
  | unwind =>
    rintro rfl
    exact hc hby.2
  | timeout =>
    rintro rfl
    exact he hby.2.2.2
  | _ => exact id

/-- The programs in question: mutex calls only, `m` is fair from its first use
on, and no waiter loses its place. -/
def InOrder (m : MutexId) (s : State WaitLinks) (a : Act) : Prop :=
  a.mutexOnly = true ∧ FairUse m s a ∧ KeepsPlace m s a

variable {n : Nat}

/-- What the mutex sees along a run, and the transitions in between. -/
structure FairViews (r : Run ((pthSystem home).restrict (InOrder m)) n) (v : Nat → MutexView) :
    Prop where
  of : ∀ i ≤ n, (v i).Of home m (r.state i)
  fair : ∀ i ≤ n, (v i).Fair
  step : ∀ i < n, v (i + 1) = v i ∨ ∃ e, MutexStep (v i) e (v (i + 1)) ∧
    e.By (r.state i) (r.state (i + 1)) (r.act i) m ∧ e.KeepsPlace (v i)

theorem exists_fairViews (r : Run ((pthSystem home).restrict (InOrder m)) n) :
    ∃ v, FairViews r v := by
  obtain ⟨v, ⟨cfg, h₀⟩, hv, hstep⟩ := mutex_run (fun _ _ h => h.1) m r
  refine ⟨v, hv, fun i hi => ?_, fun i hi => ?_⟩
  · induction i with
    | zero =>
      rw [h₀]
      exact ⟨.inr rfl, fun _ => rfl, fun t hr => by simp [mutexView, initial] at hr⟩
    | succ i ih =>
      have hf := ih (by omega)
      rcases hstep i hi with he | ⟨e, he, hby⟩
      · rwa [he]
      · obtain ⟨hmo, huse, -⟩ := (r.step i hi).1
        refine he.fair (hv i (by omega)).ok ?_ ?_ hf
        · rintro rfl
          obtain ⟨t, ha⟩ := hby
          exact huse.2 t ha
        · rintro t rfl
          obtain ⟨tryonly, extra, k, hpc⟩ := hby
          rw [(hv i (by omega)).mx]
          exact fair_of_mutexEnter (fun _ _ h => ⟨h.1, h.2.1⟩) (r.reachable (by omega)) hpc
  · rcases hstep i hi with he | ⟨e, he, hby⟩
    · exact .inl he
    · exact .inr ⟨e, he, hby, (r.step i hi).1.2.2.keepsPlace (hv i (by omega)) hby⟩

section
variable {r : Run ((pthSystem home).restrict (InOrder m)) n}

/-- A thread that waits and does not give up waits until the mutex is its own. -/
theorem FairViews.waits (hv : FairViews r vs) (hij : i ≤ j) (hj : j ≤ n)
    (ht : Persists m r t i j) (hw : (vs i).role t = .waiting ∨ (vs i).role t = .woken) :
    (∃ l, i < l ∧ l ≤ j ∧ ((r.state l).mutex m).owner = some t) ∨
      (vs j).role t = .waiting ∨ (vs j).role t = .woken := by
  have hlast := lasts_until (Q := fun i => (vs i).role t = .waiting ∨ (vs i).role t = .woken)
    (R := fun i => (vs i).mx.owner = some t) hw ?_ hij
  · rcases hlast with ⟨l, hil, hlj, hl⟩ | hlast
    · rw [(hv.of l (by omega)).mx] at hl
      exact .inl ⟨l, hil, hlj, hl⟩
    · exact .inr hlast
  · intro l hil hlj hw
    rcases hv.step l (by omega) with he | ⟨e, he, hby, -⟩
    · rw [he]
      exact .inr hw
    · obtain ⟨hc, hi⟩ := ht l hil hlj
      exact he.waits (hv.fair l (by omega)) (hby.not_givesUp hc hi) hw

/-- Whoever is ahead in the queue and does not give up gets the mutex first. -/
theorem FairViews.first (hv : FairViews r vs) (hik : i ≤ k) (hk : k ≤ n) (hne : t ≠ u)
    (ha : (vs i).Ahead t u) (ht : Persists m r t i k)
    (ho : ((r.state k).mutex m).owner = some u) :
    ∃ l, i < l ∧ l < k ∧ ((r.state l).mutex m).owner = some t := by
  have hlast := lasts_until (Q := fun i => (vs i).Ahead t u)
    (R := fun i => (vs i).mx.owner = some t) ha ?_ hik
  · rw [← (hv.of k hk).mx] at ho
    rcases hlast with ⟨l, hil, hlk, hl⟩ | hlast
    · have hlt : l ≠ k := by
        rintro rfl
        exact hne (Option.some.inj (hl.symm.trans ho))
      rw [(hv.of l (by omega)).mx] at hl
      exact ⟨l, hil, by omega, hl⟩
    · exact absurd ho hlast.owner
  · intro l hil hlk ha
    rcases hv.step l (by omega) with he | ⟨e, he, hby, hkp⟩
    · rw [he]
      exact .inr ha
    · obtain ⟨hc, hi⟩ := ht l hil hlk
      exact he.ahead (hv.of l (by omega)).ok (hv.fair l (by omega)) hkp (hby.not_givesUp hc hi) ha

theorem FairViews.behind (hv : FairViews r vs) (hj : j < n) (hu : FirstParks m r j u)
    (hw : (vs j).role t = .waiting ∨ (vs j).role t = .woken)
    (hown : ((r.state j).mutex m).owner ≠ some t) : t ≠ u ∧ (vs (j + 1)).Ahead t u := by
  obtain ⟨_, _, _, hpc, hpc'⟩ := hu
  have hof := hv.of j (by omega)
  have hout : (vs j).role u = .out := by rw [hof.role, hpc]; simp
  have hpark : (vs (j + 1)).role u = .waiting := by rw [(hv.of _ hj).role, hpc']; simp
  have hne : t ≠ u := by
    rintro rfl
    simp [hout] at hw
  have hmem := (hv.fair j (by omega)).waits t hw (by rwa [hof.mx])
  have hnot := hof.ok.notMem (by rw [hout]; rfl)
  rcases hv.step j hj with he | ⟨e, he, -, -⟩
  · rw [he, hout] at hpark
    cases hpark
  · obtain ⟨he, hnu⟩ := he.parks hof.ok hout hpark
    rw [he]
    exact ⟨hne, by simpa [hne] using hw, hnu, (Before.of_mem hmem hnot).append⟩

end

/-- A fair mutex is first in, first out: whoever parked first gets it first,
unless it gives up, and nobody overtakes a thread that is queued already. -/
theorem fair_fifo (r : Run ((pthSystem home).restrict (InOrder m)) n) {u : Tid} {k : Nat}
    (hk : k ≤ n) (ho : ((r.state k).mutex m).owner = some u) :
    (∀ i j, i < j → j < k → FirstParks m r i t → FirstParks m r j u → Persists m r t i k →
      ∃ l, i < l ∧ l < k ∧ ((r.state l).mutex m).owner = some t) ∧
    ∀ i tryonly extra, i < k → r.act i = .acquire u m tryonly extra →
      ((r.state i).mutex m).owner ≠ some u → OnList (r.state i) t (.queue (.mutex m)) →
      (∀ j, ((r.state i).tcb t).pc ≠ .mutexCleanup m j) → Persists m r t i k →
      ∃ l, i < l ∧ l < k ∧ ((r.state l).mutex m).owner = some t := by
  obtain ⟨vs, hv⟩ := exists_fairViews r
  refine ⟨?_, ?_⟩
  · intro i j hij hjk hti huj ht
    have hwait : (vs (i + 1)).role t = .waiting := by
      obtain ⟨_, _, _, -, hpc⟩ := hti
      rw [(hv.of _ (by omega)).role, hpc]
      simp
    by_cases hown : ((r.state j).mutex m).owner = some t
    · exact ⟨j, hij, hjk, hown⟩
    · rcases hv.waits hij (by omega)
        (fun l h₁ h₂ => ht l (by omega) (by omega)) (.inl hwait) with ⟨l, hil, hlj, hl⟩ | hwait
      · exact ⟨l, by omega, by omega, hl⟩
      · obtain ⟨hne, ha⟩ := hv.behind (by omega) huj hwait hown
        obtain ⟨l, hjl, hlk, hl⟩ := hv.first (by omega) hk hne ha
          (fun l h₁ h₂ => ht l (by omega) h₂) ho
        exact ⟨l, by omega, hlk, hl⟩
  · intro i tryonly extra hik hact hnu hon hcl ht
    have hof := hv.of i (by omega)
    have hmem := (hof.onList t).mp hon
    have hw := hof.ok.queued t hmem
    have hout : (vs i).role u = .out := by
      obtain ⟨-, fuel, hstep⟩ := r.step i (by omega)
      simp only [hact, exec] at hstep
      obtain ⟨-, hpc, -⟩ := call_some hstep
      rw [hof.role, hpc]
      rfl
    have hne : t ≠ u := by
      rintro rfl
      simp [hout, MutexRole.inWait] at hw
    refine hv.first (by omega) hk hne ⟨?_, by rwa [hof.mx], ?_⟩ ht ho
    · have hpc := Pc.mutexRole_spec m ((r.state i).tcb t).pc
      rw [← hof.role] at hpc
      cases hr : (vs i).role t with
      | waiting => exact .inl rfl
      | woken => exact .inr rfl
      | cleanup =>
        rw [hr] at hpc
        obtain ⟨j, hpc⟩ := hpc
        exact absurd hpc (hcl j)
      | out | releasing => simp [hr, MutexRole.inWait] at hw
    · exact .of_mem hmem (hof.ok.notMem (by rw [hout]; rfl))

end

def fairUse (m : MutexId) (s : State WaitLinks) : Act → Bool
  | .acquire .. => (s.mutex m).fair
  | .setfair .. => false
  | _ => true

theorem fairUse_ok (h : fairUse m s a = true) :
    FairUse m s a := by
  constructor
  · rintro t tryonly extra rfl
    exact h
  · rintro t rfl
    cases h

def granted (m : MutexId) (s : State WaitLinks) : Act → Bool
  | .step t => (s.tcb t).pc.mutexRole m != .woken || (s.mutex m).owner == some t
  | _ => true

theorem keepsPlace_of_granted (h : granted m s a = true) : KeepsPlace m s a := by
  rintro t extra k rfl hpc hp
  simp only [parks, hpc] at hp
  simp [granted, hpc] at h
  exact absurd h hp.1

theorem inOrder_of_granted
    (h : (a.mutexOnly && (fairUse m s a && granted m s a)) = true) : InOrder m s a := by
  simp only [Bool.and_eq_true] at h
  exact ⟨h.1, fairUse_ok h.2.1, keepsPlace_of_granted h.2.2⟩

theorem fair_fifo_two :
    ∃ home n, ∃ r : Run ((pthSystem home).restrict (InOrder 0)) n, ∃ i j k,
      FirstParks 0 r i 2 ∧ FirstParks 0 r j 3 ∧ ((r.state k).mutex 0).owner = some 3 ∧
      ∃ l, i < l ∧ l < k ∧ ((r.state l).mutex 0).owner = some 2 := by
  let r := (runOf (fun s a => a.mutexOnly && (fairUse 0 s a && granted 0 s a))
    { Config.plain with fair := fun _ => true } (fun _ => 0) 5
    [.dispatch 1, .acquire 1 0 false false, .step 1, .yield 1,
      .dispatch 2, .acquire 2 0 false false, .step 2, .dispatch 3, .acquire 3 0 false false, .step 3,
      .dispatch 1, .release 1 0, .step 1, .step 1, .step 1, .yield 1,
      .drain 0, .resume 2, .step 2, .release 2 0, .step 2, .step 2] rfl).mono
    fun _ _ _ => inOrder_of_granted
  have h₂ : FirstParks 0 r 6 2 := ⟨false, false, .app, rfl, rfl⟩
  have h₃ : FirstParks 0 r 9 3 := ⟨false, false, .app, rfl, rfl⟩
  have hlog : (r.state 22).log = [.release 2 0 .ok, .acquire 2 0 .ok, .release 1 0 .ok,
    .acquire 1 0 .ok] := rfl
  refine ⟨_, _, r, 6, 9, 22, h₂, h₃, rfl, ?_⟩
  refine (fair_fifo r (by simp) rfl).1 6 9 (by simp) (by simp) h₂ h₃ fun l _ hl => ⟨?_, ?_⟩
  · exact not_emits_of_notMem r (by simp [hlog]) hl
  · exact not_emits_of_notMem r (by simp [hlog]) hl

/-- A waiter that is woken by a cancellation request it does not act upon loses
its place: thread 2 parks before thread 3, which then gets the mutex first. -/
theorem fair_overtaken :
    ∃ home n, ∃ r : Run ((pthSystem home).restrict fun s a => a.mutexOnly = true ∧ FairUse 0 s a) n,
      ∃ i j k, i < j ∧ j < k ∧ k ≤ n ∧ FirstParks 0 r i 2 ∧ FirstParks 0 r j 3 ∧
        Persists 0 r 2 0 k ∧ Persists 0 r 3 0 k ∧ ((r.state k).mutex 0).owner = some 3 ∧
        ∀ l < k, ((r.state l).mutex 0).owner ≠ some 2 := by
  let r := (runOf (fun s a => a.mutexOnly && fairUse 0 s a)
    { Config.plain with fair := fun _ => true } (fun _ => 0) 5
    [.dispatch 1, .acquire 1 0 false false, .step 1, .yield 1,
      .dispatch 2, .cancelState 2 false false, .acquire 2 0 false false, .step 2,
      .dispatch 3, .acquire 3 0 false false, .step 3, .cancel 2, .resume 2, .step 2,
      .dispatch 1, .release 1 0, .step 1, .step 1] rfl).mono
    (Q := fun s a => a.mutexOnly = true ∧ FairUse 0 s a) fun _ _ _ h => by
      simp only [Bool.and_eq_true] at h
      exact ⟨h.1, fairUse_ok h.2⟩
  have hlog : (r.state 18).log = [.release 1 0 .ok, .acquire 1 0 .ok] := rfl
  have hpersists : ∀ t ∈ [2, 3], Persists 0 r t 0 18 := fun t _ l _ hl =>
    ⟨not_emits_of_notMem r (by simp [hlog]) hl, not_emits_of_notMem r (by simp [hlog]) hl⟩
  refine ⟨_, _, r, 7, 10, 18, by simp, by simp, by simp, ⟨false, false, .app, rfl, rfl⟩,
    ⟨false, false, .app, rfl, rfl⟩, hpersists 2 (by simp), hpersists 3 (by simp), rfl, fun l hl => ?_⟩
  interval_cases l <;> nofun

end GnuPth
