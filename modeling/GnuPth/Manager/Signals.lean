import GnuPth.Manager.Scanning

/-!
# Waiting for a signal

The two loops over the signals do not stop at the first one that they find. A
pass takes every signal of the waited-for set that is pending, or every one that
was raised, and the variable keeps the last of them. A signal that is raised
after the scan has taken one stays in `sigraised`, which the next pass empties.
-/

namespace GnuPth.Manager

open Sched (EventId)

/-- The signals at one moment of a pass, with those that it gets to see raised. -/
structure Signals where
  st : St
  sigpending : List Int
  sigraised : List Int

def Signals.thread (v : Signals) (t : Tid) : List Int := (v.st.sched.tcb t).sigpending

def Signals.Has (v : Signals) (t : Tid) (sig : Int) : Prop :=
  sig ∈ v.thread t ∨ sig ∈ v.sigpending ∨ sig ∈ v.sigraised

/-- A wait of the thread `t` has taken `sig` and no other signal. -/
structure TakesOne (t : Tid) (a : SigsArgs) (sig : Int) (v v' : Signals) : Prop where
  waited : sig ∈ a.sigs
  stored : ∀ x, a.sig = some x → v'.st.mem.int x = sig
  found : v.Has t sig
  union : ∀ x, v'.Has t x ↔ v.Has t x ∧ x ≠ sig
  sigpendcnt : (v'.st.sched.tcb t).sigpendcnt =
    (v.st.sched.tcb t).sigpendcnt - if sig ∈ v.thread t then 1 else 0
  others : ∀ u ≠ t, v'.st.sched.tcb u = v.st.sched.tcb u

/-- No signal of the waited-for set is there but `sig`, and that one not twice. -/
structure Sole (env : Env) (t : Tid) (a : SigsArgs) (sig : Int) (v : Signals) : Prop where
  only : ∀ x ∈ env.sigs, x ∈ a.sigs → v.Has t x → x = sig
  once : sig ∈ v.sigraised → sig ∉ v.thread t ∧ sig ∉ v.sigpending

/-! ### The scan -/

structure Taken (t : Tid) (a : SigsArgs) (sig : Int) (c d : SigScan) : Prop where
  tcb : d.st.sched.tcb = Function.update c.st.sched.tcb t
    { c.st.sched.tcb t with
      sigpending := (c.st.sched.tcb t).sigpending.filter (· ≠ sig)
      sigpendcnt := (c.st.sched.tcb t).sigpendcnt -
        if sig ∈ (c.st.sched.tcb t).sigpending then 1 else 0 }
  mem : d.st.mem = c.st.mem.store a.sig sig
  sigpending : d.sigpending = c.sigpending.filter (· ≠ sig)

section
variable {t : Tid}

def SigScan.Pending (c : SigScan) (t : Tid) (sig : Int) : Prop :=
  sig ∈ (c.st.sched.tcb t).sigpending ∨ sig ∈ c.sigpending

theorem Mem.store_store (mem : Mem) (x : Option IntAddr) (v : Int) :
    (mem.store x v).store x v = mem.store x v := by
  cases x <;> simp [Mem.store]

theorem filter_absent {sigs : List Int} (h : sig ∉ sigs) : sigs.filter (· ≠ sig) = sigs := by
  apply List.filter_eq_self.mpr
  intro x hx
  simp only [decide_eq_true_eq]
  exact fun hxs => h (hxs ▸ hx)

theorem Taken.not_pending (h : Taken t a sig c d) : ¬ d.Pending t sig := by
  simp [SigScan.Pending, h.tcb, h.sigpending]

theorem Taken.pending (h : Taken t a sig c d) (hx : d.Pending t x) : c.Pending t x := by
  simp only [SigScan.Pending, h.tcb, h.sigpending, Function.update_self, List.mem_filter] at hx
  exact hx.imp And.left And.left

theorem scanSig_taken (ha : sig ∈ a.sigs) (h : c.Pending t sig) :
    (scanSig t a c sig).occurred = true ∧ Taken t a sig c (scanSig t a c sig) := by
  rw [scanSig, if_pos ha]
  by_cases hthread : sig ∈ (c.st.sched.tcb t).sigpending
  · by_cases hprocess : sig ∈ c.sigpending
    · simp only [threadSig, if_pos hthread, processSig, if_pos hprocess]
      refine ⟨trivial, ?_, Mem.store_store _ _ _, rfl⟩
      simp [Sched.State.setTcb, St.store, hthread]
    · simp only [threadSig, if_pos hthread, processSig, if_neg hprocess]
      refine ⟨trivial, ?_, rfl, (filter_absent hprocess).symm⟩
      simp [Sched.State.setTcb, St.store, hthread]
  · have hprocess : sig ∈ c.sigpending := h.resolve_left hthread
    simp only [threadSig, if_neg hthread, processSig, if_pos hprocess]
    refine ⟨trivial, ?_, rfl, rfl⟩
    rw [filter_absent hthread, if_neg hthread, Int.sub_zero]
    exact (Function.update_eq_self t _).symm

/-- Where nothing is found, the signal is only caught from now on. -/
theorem scanSig_absent (h : sig ∈ a.sigs → ¬ c.Pending t sig) :
    (scanSig t a c sig).st = c.st ∧ (scanSig t a c sig).sigpending = c.sigpending ∧
      (scanSig t a c sig).occurred = c.occurred := by
  unfold scanSig
  split
  · rename_i ha
    obtain ⟨hthread, hprocess⟩ := not_or.mp (h ha)
    simp only [threadSig, if_neg hthread, processSig, if_neg hprocess]
    trivial
  · trivial

def Found (t : Tid) (a : SigsArgs) (sig : Int) (c d : SigScan) : Prop :=
  d.occurred = false ∧ d.st = c.st ∧ d.sigpending = c.sigpending ∨
    d.occurred = true ∧ sig ∈ a.sigs ∧ c.Pending t sig ∧ Taken t a sig c d

theorem Found.step (h : Found t a sig c d) (hx : x ∈ a.sigs → c.Pending t x → x = sig) :
    Found t a sig c (scanSig t a d x) := by
  rcases h with ⟨hocc, hst, hpend⟩ | ⟨hocc, ha, hsig, hd⟩
  · have hsame : d.Pending t x ↔ c.Pending t x := by simp [SigScan.Pending, hst, hpend]
    by_cases hfound : x ∈ a.sigs ∧ d.Pending t x
    · obtain ⟨ha, hfound⟩ := hfound
      obtain rfl : x = sig := hx ha (hsame.mp hfound)
      obtain ⟨hocc', hd'⟩ := scanSig_taken ha hfound
      refine .inr ⟨hocc', ha, hsame.mp hfound, ?_⟩
      exact ⟨hst ▸ hd'.tcb, hst ▸ hd'.mem, hpend ▸ hd'.sigpending⟩
    · obtain ⟨hst', hpend', hocc'⟩ := scanSig_absent (not_and.mp hfound)
      exact .inl ⟨hocc'.trans hocc, hst'.trans hst, hpend'.trans hpend⟩
  · -- what is still pending was pending before, and is not `sig`
    have habsent : x ∈ a.sigs → ¬ d.Pending t x := by
      intro hax hpx
      obtain rfl : x = sig := hx hax (hd.pending hpx)
      exact hd.not_pending hpx
    obtain ⟨hst', hpend', hocc'⟩ := scanSig_absent habsent
    exact .inr ⟨hocc'.trans hocc, ha, hsig, hst' ▸ hd.tcb, hst' ▸ hd.mem, hpend'.trans hd.sigpending⟩

theorem Found.scan {env : Env} (h : ∀ x ∈ env.sigs, x ∈ a.sigs → c.Pending t x → x = sig)
    (hc : c.occurred = false) : Found t a sig c (env.sigs.foldl (scanSig t a) c) := by
  apply List.foldlRecOn
  · exact .inl ⟨hc, rfl, rfl⟩
  · exact fun d hd x hx => hd.step (h x hx)

/-- The thread has what it took, whatever else is raised in this pass. -/
theorem Taken.takesOne (h : Taken t a sig c d) (ha : sig ∈ a.sigs)
    (hsig : c.Pending t sig) (hraised : sig ∉ raised) (htcb : st.sched.tcb = d.st.sched.tcb)
    (hmem : st.mem = d.st.mem) :
    TakesOne t a sig ⟨c.st, c.sigpending, raised⟩ ⟨st, d.sigpending, raised⟩ where
  waited := ha
  stored x hx := by simp [hmem, h.mem, hx, Mem.store]
  found := hsig.elim .inl fun hp => .inr (.inl hp)
  union x := by
    simp only [Signals.Has, Signals.thread, htcb, h.tcb, h.sigpending, Function.update_self,
      List.mem_filter, decide_eq_true_eq]
    have hx : x ∈ raised → x ≠ sig := fun hx hxs => hraised (hxs ▸ hx)
    tauto
  sigpendcnt := by
    rw [htcb, h.tcb, Function.update_self]
    rfl
  others u hu := by simp [htcb, h.tcb, hu]

end

/-! ### The late handling -/

section
variable {l : Late Q}

theorem lateSigs_sole {sigs : List Int}
    (h : ∀ x ∈ sigs, x ∈ a.sigs → x ∈ l.sigraised → x = sig) :
    sigs.foldl (lateSig a e) l = l ∨ sig ∈ a.sigs ∧ sig ∈ l.sigraised ∧
      sigs.foldl (lateSig a e) l = lateSig a e l sig := by
  apply List.foldlRecOn (motive := fun d => d = l ∨ sig ∈ a.sigs ∧ sig ∈ l.sigraised ∧
    d = lateSig a e l sig)
  · exact .inl rfl
  · rintro d (rfl | ⟨ha, hsig, rfl⟩) x hx
    · by_cases hfound : x ∈ a.sigs ∧ x ∈ d.sigraised
      · obtain rfl : x = sig := h x hx hfound.1 hfound.2
        exact .inr ⟨hfound.1, hfound.2, rfl⟩
      · exact .inl (if_neg hfound)
    · refine .inr ⟨ha, hsig, if_neg ?_⟩
      simp only [lateSig, if_pos (And.intro ha hsig), List.mem_filter, decide_eq_true_eq, not_and,
        not_not]
      exact h x hx

theorem lateSig_takesOne (ha : sig ∈ a.sigs) (hsig : sig ∈ l.sigraised)
    (hthread : sig ∉ (l.st.sched.tcb t).sigpending) (hprocess : sig ∉ pending) :
    TakesOne t a sig ⟨l.st, pending, l.sigraised⟩
      ⟨(lateSig a e l sig).st, pending, (lateSig a e l sig).sigraised⟩ := by
  rw [lateSig, if_pos ⟨ha, hsig⟩]
  refine ⟨ha, fun x hx => ?_, .inr (.inr hsig), fun x => ?_, ?_, fun _ _ => rfl⟩
  · simp [St.setStatus, St.store, Mem.store, hx]
  · have hthread' : x ∈ (l.st.sched.tcb t).sigpending → x ≠ sig := fun hx hxs => hthread (hxs ▸ hx)
    have hprocess' : x ∈ pending → x ≠ sig := fun hx hxs => hprocess (hxs ▸ hx)
    simp only [Signals.Has, List.mem_filter, decide_eq_true_eq]
    tauto
  · simp [Signals.thread, St.setStatus, St.store, Sched.State.setStatus, Sched.State.setEvent,
      hthread]

end

/-! ### A pass -/

section
variable {Q : Type}

end

def sigWaiting (thread : List Int) : St :=
  let s := St.waiting [0] fun _ => .sigs
  { s with
    sched := s.sched.setTcb 0 ({ · with sigpending := thread, sigpendcnt := thread.length })
    sigsArgs := fun _ => ⟨[10, 12], some 0⟩ }

def sigScan (thread process : List Int) : Scan Pollset :=
  ⟨sigWaiting thread, [], process, [], false, none⟩

/-- One turn of the event manager for poll(2), with the signals that are pending
and those that arrive during the wait. -/
def sigPass (thread process caught : List Int) : Passed Pollset :=
  pass (pollCore 3) .plain { Input.quiet with sigpending := process, caught } none false []
    (sigWaiting thread)

end GnuPth.Manager
