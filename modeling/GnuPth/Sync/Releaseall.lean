import GnuPth.Sync.System

/-!
# Releasing what a thread holds when it dies

`pth_mutex_releaseall` walks the ring of the mutexes of a thread and releases
each of them once. A release that leaves the mutex free takes its node off the
ring, and moves the hook when it was the hook's node: the walk is over then.
-/

namespace GnuPth

open Function (update)
open Transition

section
variable (home : Tid → SchedId) (ops : WaitOps σ) (t : Tid)

/-- Thread `t` goes on until it is through with `pth_mutex_releaseall`, for at
most so many steps. -/
def untilDying : Nat → State σ → Option (State σ)
  | 0, _ => none
  | n + 1, s =>
    if (s.tcb t).pc = .dying then some s else (advance home ops s t).bind (untilDying n)

/-- `pth_mutex_releaseall(t)` called in `s` returns in `s'`. -/
def Releaseall (s s' : State σ) : Prop :=
  ∃ n, untilDying home ops t n (mutexReleaseall s t) = some s'

/-- The ring of `t` has the nodes `ms`, which are the mutexes that `t` owns. -/
structure OwnsRing (s : State σ) (ms : List MutexId) : Prop where
  ring : (s.tcb t).mutexring.Holds s.rings ms
  owned : ∀ m, m ∈ ms ↔ (s.mutex m).owner = some t
  locked : ∀ m ∈ ms, (s.mutex m).initialized = true ∧ (s.mutex m).locked = true
  counted : ∀ m ∈ ms, 1 ≤ (s.mutex m).count

end

section
variable {home : Tid → SchedId} {ops : WaitOps σ}

theorem untilDying_advance (hpc : (s.tcb t).pc ≠ .dying)
    (h : advance home ops s t = some s') :
    untilDying home ops t (n + 1) s = untilDying home ops t n s' := by
  rw [untilDying, if_neg hpc, h]
  rfl

/-- What the last release of a mutex leaves, with the first thread of its queue. -/
inductive Mutex.Released (x : Mutex) (first : Option Tid) : Mutex → Prop
  | unlocked : Released x first x.unlock
  | handed {w : Tid} (hf : x.fair = true) (hw : first = some w) : Released x first (x.handTo w)

theorem Mutex.Released.owner_ne {x : Mutex} (h : x.Released first y)
    (hf : first ≠ some t) : y.owner ≠ some t := by
  cases h with
  | unlocked => nofun
  | handed _ hw =>
    subst hw
    exact hf

theorem Mutex.Released.count {x : Mutex} (h : x.Released first y) :
    y.locked = false ∧ y.count = 0 ∨ x.fair = true ∧ y.owner = first ∧ first ≠ none := by
  cases h with
  | unlocked => exact .inl ⟨rfl, rfl⟩
  | handed hf hw => exact .inr ⟨hf, hw.symm, by rw [hw]; nofun⟩

theorem eq_ringInit {r : Ring MutexId} (h : r.Holds k []) :
    r = ringInit := by
  obtain ⟨hook, nodes⟩ := r
  obtain rfl : hook = none := h.hook
  obtain rfl : nodes = 0 := h.nodes
  rfl

theorem ringDelete_only {r : Ring MutexId} (h : r.Holds k [m]) :
    ringDelete k r m = (k, ringInit) := by
  have hhook : r.hook = some m := h.hook
  have hnodes : r.nodes = 1 := h.nodes
  rw [ringDelete, if_pos ⟨hhook, h.circular.2, h.circular.1⟩, hnodes]
  rfl

/-- The node of the walk is not on the ring any more and is its own successor:
the walk is back where it started. -/
theorem releaseallNext_only (hr : (s.tcb t).mutexring = ringInit) (hn : s.rings.rnNext m = m) :
    releaseallNext s t m m = s.goto t .dying := by
  simp [releaseallNext, ringNext, ringInit, hr, hn]

variable (home ops)

theorem releaseLock_only (hpc : (s.tcb t).pc = .releaseLock m (.all m))
    (hr : (s.tcb t).mutexring.Holds s.rings [m]) (hc : (s.mutex m).count = 1) :
    ∃ s', untilDying home ops t 3 s = some s' ∧ (s'.tcb t).mutexring = ringInit ∧
      (s.mutex m).Released (ops.shift s.store (.mutex m)).1 (s'.mutex m) := by
  have hdel := ringDelete_only hr
  have hnext : s.rings.rnNext m = m := hr.circular.1
  have hlive : (s.tcb t).pc ≠ .dying := by rw [hpc]; nofun
  rcases hshift : ops.shift s.store (.mutex m) with ⟨_ | w, store⟩
  · let x := (s.mutex m).unlock
    let s₁ := (((s.emit (.release t m .ok)).setStore store).setMutex m x).ringDel t m
    have hring : (s₁.tcb t).mutexring = ringInit := by simp [s₁, hdel]
    have hadv : advance home ops s t = some (s₁.goto t .dying) := by
      rw [advance, hpc]
      simp only [releaseLock, hc, State.emit, hshift, releaseReturn]
      exact congrArg some (releaseallNext_only hring (by simp [hdel, hnext]))
    refine ⟨s₁.goto t .dying, ?_, by simp [s₁, hdel], ?_⟩
    · rw [untilDying_advance hlive hadv]
      exact if_pos (s₁.goto_pc t .dying)
    · have hx : (s₁.goto t .dying).mutex m = x := by simp [s₁]
      rw [hx]
      exact .unlocked
  · let x := if (s.mutex m).fair then (s.mutex m).handTo w else (s.mutex m).unlock
    let s₁ := ((((s.emit (.release t m .ok)).setStore store).setMutex m x).ringDel t m).goto t
      (.post w (.release m (.all m)))
    let s₂ := gschedWake home s₁ w
    have hpost : (s₁.tcb t).pc = .post w (.release m (.all m)) := State.goto_pc ..
    have hring : (s₂.tcb t).mutexring = ringInit := by simp [s₂, s₁, hdel]
    have hadv : advance home ops s t = some s₁ := by
      rw [advance, hpc]
      simp only [releaseLock, hc, State.emit, hshift]
      rfl
    have hadv' : advance home ops s₁ t = some (s₂.goto t .dying) := by
      rw [advance, hpost]
      simp only [postReturn, releaseReturn]
      exact congrArg some (releaseallNext_only hring (by simp [s₁, hdel, hnext]))
    refine ⟨s₂.goto t .dying, ?_, by simp [s₂, s₁, hdel], ?_⟩
    · rw [untilDying_advance hlive hadv, untilDying_advance (by rw [hpost]; nofun) hadv']
      exact if_pos (s₂.goto_pc t .dying)
    · have hx : (s₂.goto t .dying).mutex m = x := by simp [s₂, s₁]
      rw [hx]
      by_cases hf : (s.mutex m).fair = true
      · simp only [x, if_pos hf]
        exact .handed hf rfl
      · simp only [x, if_neg hf]
        exact .unlocked

theorem releaseall_only (h : OwnsRing t s [m]) (hc : (s.mutex m).count = 1) :
    ∃ s', Releaseall home ops t s s' ∧ (s'.tcb t).mutexring = ringInit ∧
      (s.mutex m).Released (ops.shift s.store (.mutex m)).1 (s'.mutex m) := by
  obtain ⟨hinit, hlock⟩ := h.locked m List.mem_cons_self
  have howner := (h.owned m).mp List.mem_cons_self
  have hhook : (s.tcb t).mutexring.hook = some m := h.ring.hook
  have hcall : mutexReleaseall s t = s.goto t (.releaseCheck m (.all m)) := by
    simp [mutexReleaseall, ringFirst, hhook]
  have hadv : advance home ops (mutexReleaseall s t) t =
      some (s.goto t (.releaseLock m (.all m))) := by
    rw [hcall, advance, State.goto_pc]
    simp [releaseCheck, hinit, hlock, howner]
  obtain ⟨s', hs', hring, hx⟩ := releaseLock_only home ops
    (State.goto_pc s t (.releaseLock m (.all m))) (by simpa using h.ring) (by simpa using hc)
  refine ⟨s', ⟨4, ?_⟩, hring, hx⟩
  rw [untilDying_advance (by rw [hcall, State.goto_pc]; rintro ⟨⟩) hadv]
  exact hs'

end

end GnuPth
