import GnuPth.Manager.Isolation

/-!
# Descriptors that fail to register

`pth_evp_commit` flags a descriptor whose epoll_ctl(2) fails. The late handling
then lets the events about it fail, and moves their threads, in the same pass;
but how long the pass waits before that was decided from the scan, when nothing
was flagged yet.
-/

namespace GnuPth.Manager

open Sched (EventId)

/-! ### The wait -/

namespace Evp

variable {q : Evp}

theorem want_waited (q : Evp) (fd : Fd) (mask : Bits) : (q.want fd mask).waited = q.waited := by
  have hgrow : (q.growReg fd).waited = q.waited := by
    unfold growReg
    split <;> rfl
  unfold want
  simp only
  split <;> exact hgrow

theorem begin_waited (q : Evp) : q.begin.waited = none := by
  unfold begin
  simp only
  split <;> rfl

theorem ctl_waited (q : Evp) (os : EvpOs) (fd : Fd) : (q.ctl os fd).waited = q.waited := by
  unfold ctl
  simp only
  repeat' split
  all_goals rfl

theorem prune_waited (q : Evp) : q.prune.waited = q.waited := by
  apply List.foldlRecOn (motive := fun c : Nat × Evp => c.2.waited = q.waited)
  · rfl
  · intro c hc _ _
    rw [← hc]
    unfold pruneStep
    simp only
    repeat' split
    all_goals rfl

theorem commit_waited (q : Evp) (os : EvpOs) : (q.commit os).waited = q.waited := by
  rw [commit, prune_waited]
  apply List.foldlRecOn (motive := fun q' : Evp => q'.waited = q.waited)
  · rfl
  · intro q' hq' fd _
    rw [ctl_waited, hq']

theorem wanted_waited (q : Evp) (pipe : Fd) (now : Timeval) :
    (q.wanted pipe now).waited = q.waited := by
  rw [← want_waited q pipe ⟨true, false, false⟩]
  unfold wanted heartbeat
  split <;> rfl

theorem evpWait_waited (q : Evp) (os : EvpOs) (timeout : Int) :
    (q.evpWait os timeout).1.waited = q.waited ∨
      (q.evpWait os timeout).1.waited = some timeout := by
  have hreports : ∀ (evs : List (Fd × EpollEvents)) (q : Evp),
      (evs.foldl report q).waited = q.waited := by
    intro evs q
    apply List.foldlRecOn (motive := fun q' : Evp => q'.waited = q.waited)
    · rfl
    · intro q' hq' ev _
      rw [← hq']
      unfold report
      split <;> rfl
  have hgrow : (q.growEvs os).waited = q.waited := by
    unfold growEvs
    split <;> rfl
  unfold evpWait
  simp only
  split
  · exact .inl hgrow
  · split
    · exact .inr (hreports _ _)
    · exact .inr rfl

theorem ptimeout_dopoll (q : Evp) (delay : Option Timeval) : q.ptimeout true delay = 0 := by
  unfold ptimeout
  simp only [if_true]
  split
  · omega
  · rfl

end Evp

theorem evportCore_keeps_waited (pipe : Fd) : (evportCore pipe).Keeps fun q => q.waited = none where
  wantFd fd goal h := (Evp.want_waited _ fd goal).trans h
  wantSelect mem a h := by
    apply List.foldlRecOn (motive := fun q : Evp => q.waited = none)
    · exact h
    · intro q hq fd _
      split
      · exact (Evp.want_waited q fd _).trans hq
      · exact hq

theorem committed_waited (pipe : Fd) (p : Call Evp EvpOs) : (p.committed pipe).waited = none := by
  have hrun : ScanRun (evportCore pipe) (fun _ => False) _ (p.scanned (evportCore pipe)).scan :=
    scanned_run p.env.leaves_none
  rw [Call.committed, Evp.commit_waited, Call.wanted, Evp.wanted_waited]
  exact hrun.req (evportCore_keeps_waited pipe) (Evp.begin_waited p.req)

theorem pass_waited {p : Call Evp EvpOs}
    (hpoll : (p.scanned (evportCore pipe)).dopoll = true) :
    (p.pass (evportCore pipe)).req.waited = none ∨
      (p.pass (evportCore pipe)).req.waited = some 0 := by
  rw [pass_req, late_evp, hpoll, Evp.ptimeout_dopoll, ← committed_waited pipe p]
  exact Evp.evpWait_waited _ _ _

/-! ### The late handling -/

/-- The replies let `e` fail: one of its descriptors has failed and none is ready. -/
def Failing (re : Fd → Reply) (s : St) (e : EventId) : Prop :=
  (s.event e).spec = .fd ∧ re (s.fdArgs e).1 = evpFail ∨
  (s.event e).spec = .select ∧ replyBad re (s.selectArgs e) = true ∧
    ∀ fd < (s.selectArgs e).nfd, (((s.selectArgs e).bits s.mem fd).and (re fd).bits).any = false

theorem and_any_within {a : SelectArgs} (h : mem.Within old)
    (hold : ((a.bits old fd).and b).any = false) : ((a.bits mem fd).and b).any = false := by
  rw [← Bool.not_eq_true, Bits.any_iff] at hold ⊢
  simp only [Bits.and, Bool.and_eq_true] at hold ⊢
  rintro (⟨hr, hb⟩ | ⟨hw, hb⟩ | ⟨he, hb⟩)
  · exact hold (.inl ⟨isset_within h hr, hb⟩)
  · exact hold (.inr (.inl ⟨isset_within h hw, hb⟩))
  · exact hold (.inr (.inr ⟨isset_within h he, hb⟩))

theorem Failing.narrows (h : Failing re s e)
    (hn : Narrows s s') : Failing re s' e := by
  rcases h with ⟨hspec, hre⟩ | ⟨hspec, hbad, hnone⟩
  · exact .inl ⟨(hn.spec e).trans hspec, by rwa [hn.fdArgs]⟩
  · refine .inr ⟨(hn.spec e).trans hspec, by rwa [hn.selectArgs], ?_⟩
    rw [hn.selectArgs]
    exact fun fd hfd => and_any_within hn.sets (hnone fd hfd)

theorem replyFd_evpFail (goal : Bits) : replyFd evpFail goal = some .failed := by
  simp [replyFd, evpFail, Bits.and, Bits.any, Bits.zero]

theorem replySelect_failing (hbad : replyBad re a = true)
    (hnone : ∀ fd < a.nfd, ((a.bits mem fd).and (re fd).bits).any = false) :
    replySelect re mem a = some (.failed, mem) := by
  have htest : fdsTest a mem (replySets re mem a) = false := by
    rw [fdsTest, List.any_eq_false]
    intro fd hfd
    have hfd := List.mem_range.mp hfd
    have hno := hnone fd hfd
    rw [← Bool.not_eq_true, Bits.any_iff] at hno
    rw [Bits.any_iff, replySets, if_pos hfd]
    simp only [Bits.and, Bool.and_eq_true] at hno ⊢
    tauto
  simp [replySelect, htest, hbad]

section
variable {Q : Type}

structure ToFail (re : Q → Fd → Reply) (q : Q) (e : EventId) (l : Late Q) : Prop where
  req : l.req = q
  failing : Failing (re q) l.st e
  pending : (l.st.event e).status = .pending

theorem ToFail.own (hK : K.Replies re) (h : ToFail re q e l) :
    ((lateEvent K env os rc l e).st.event e).status = .failed := by
  obtain ⟨rfl, hfail, hp⟩ := h
  rcases hfail with ⟨hspec, hre⟩ | ⟨hspec, hbad, hnone⟩
  · have hlate : lateEvent K env os rc l e = l.fd e (l.req, some .failed) := by
      simp only [lateEvent, hp, ne_eq, not_true_eq_false, if_false, hspec, hK.lateFd, hre,
        replyFd_evpFail]
    rw [hlate]
    simp [Late.fd]
  · have hlate : lateEvent K env os rc l e = l.select e (l.req, some (.failed, l.st.mem)) := by
      simp only [lateEvent, hp, ne_eq, not_true_eq_false, if_false, hspec, hK.lateSelect,
        replySelect_failing hbad hnone]
    have hev : (l.select e (l.req, some (.failed, l.st.mem))).st.event e =
        { l.st.event e with status := .failed } := event_setStatus_self l.st e .failed
    rw [hlate, hev]

theorem reaches_failed (hK : K.Replies re) :
    Reaches K env os rc (fun _ => True) e (ToFail re q e)
      (fun l => (l.st.event e).status = .failed) where
  other {l x} _ hx h := by
    have haside : Aside x l (lateEvent K env os rc l x) := lateEvent_aside hK l x
    exact ⟨haside.req.trans h.req, h.failing.narrows (.lateEvent hK.narrow l x),
      (congrArg Sched.Event.status (haside.event e hx.symm)).trans h.pending⟩
  own h := h.own hK
  done {l x} _ h := by
    by_cases hx : x = e
    · subst hx
      rw [lateEvent_of_status (by rw [h]; nofun)]
      exact h
    · have haside : Aside x l (lateEvent K env os rc l x) := lateEvent_aside hK l x
      exact (congrArg Sched.Event.status (haside.event e (Ne.symm hx))).trans h
  moved {l t} h := ⟨h.req, h.failing.narrows (.toReady l.st t), by simpa using h.pending⟩
  doneMoved h := by simpa using h

end

/-! ### A flagged descriptor -/

section
variable {p : Call Evp EvpOs}

def Call.reported (pipe : Fd) (p : Call Evp EvpOs) (fd : Fd) : Option EpollEvents :=
  Evp.lastReport ((p.committed pipe).delivered p.os) fd

/-- No descriptor that the select event `e` asks about is reported as it asks. -/
def Call.NoneReady (pipe : Fd) (p : Call Evp EvpOs) (e : EventId) : Prop :=
  ∀ x ev, p.reported pipe x = some ev →
    ((((p.late (evportCore pipe)).st.selectArgs e).bits (p.late (evportCore pipe)).st.mem x).and
      (evpFromEpoll ev).bits).any = false

theorem late_ready_of_flagged (hflag : (p.committed pipe).ready fd = evpFail)
    (hreport : p.reported pipe fd = none) :
    (p.late (evportCore pipe)).req.ready fd = evpFail := by
  have hlt : fd < (p.committed pipe).regcap := by
    by_contra hno
    rw [Evp.ready, if_neg fun h => hno h.1] at hflag
    cases hflag
  unfold Call.reported at hreport
  rw [late_evp, Evp.evpWait_ready _ _ _ hlt, hreport, hflag]
  rfl

theorem late_ready_bits (hs : p.req.Sane) (x : Fd) :
    ((p.late (evportCore pipe)).req.ready x).bits = .zero ∨
      ∃ ev, p.reported pipe x = some ev ∧
        (p.late (evportCore pipe)).req.ready x = evpFromEpoll ev := by
  rw [late_evp]
  by_cases hx : x < (p.committed pipe).regcap
  · rw [Evp.evpWait_ready _ _ _ hx]
    unfold Call.reported
    cases Evp.lastReport ((p.committed pipe).delivered p.os) x with
    | none =>
      left
      rw [Call.committed, Evp.commit_ready (wanted_tracks hs)]
      simp only [Option.map_none, Option.getD_none]
      split <;> rfl
    | some ev => exact .inr ⟨ev, rfl, rfl⟩
  · left
    rw [Evp.ready, Evp.evpWait_regcap, if_neg fun h => hx h.1]
    rfl

theorem late_failing (hs : p.req.Sane) (hflag : (p.committed pipe).ready fd = evpFail)
    (hreport : p.reported pipe fd = none)
    (hready : ((p.late (evportCore pipe)).st.event e).spec = .select → p.NoneReady pipe e)
    (hrefers : (p.late (evportCore pipe)).st.refers e fd = true) :
    Failing (p.late (evportCore pipe)).req.ready (p.late (evportCore pipe)).st e := by
  have hfail := late_ready_of_flagged hflag hreport
  unfold St.refers at hrefers
  split at hrefers
  · rename_i hspec
    rw [decide_eq_true_eq] at hrefers
    exact .inl ⟨hspec, hrefers ▸ hfail⟩
  · rename_i hspec
    rw [Bool.and_eq_true, decide_eq_true_eq] at hrefers
    refine .inr ⟨hspec, ?_, fun x _ => ?_⟩
    · refine List.any_eq_true.mpr ⟨fd, List.mem_range.mpr hrefers.1, ?_⟩
      rw [hfail]
      rfl
    · rcases late_ready_bits hs x with hzero | ⟨ev, hev, hre⟩
      · rw [hzero]
        simp [Bits.and, Bits.any, Bits.zero]
      · rw [hre]
        exact hready hspec x ev hev
  · cases hrefers

end

end GnuPth.Manager
