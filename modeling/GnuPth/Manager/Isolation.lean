import GnuPth.Manager.Calls
import GnuPth.Manager.EvportLaws
import GnuPth.Manager.Pollset

/-!
# Select events and the descriptors of others

A select event is decided by the replies for the descriptors below its `nfd`.
Poll and the event port read the readiness only of the members of its sets, but
an invalid descriptor counts also when it is in none of them, and then it comes
from another thread. Without such a descriptor, two passes that agree on the
members decide the event alike.
-/

namespace GnuPth.Manager

open Sched (EventId)

/-- `t` waits with the select event `e`, whose sets are as in `mem`. -/
structure Holds (t : Tid) (e : EventId) (a : SelectArgs) (mem : Mem) (s : St) : Prop where
  queued : t ∈ s.sched.members .wq
  ring : e ∈ s.ring t
  spec : (s.event e).spec = .select
  pending : (s.event e).status = .pending
  args : s.selectArgs e = a
  sets : SameOn a.owns s.mem mem

/-- In the turn `p` nothing but the late handling touches `e` and its sets: not the
drains, the functions of the application or a thread that shares a set. -/
structure Undisturbed {Q A : Type} (K : Core Q A) (t : Tid) (e : EventId) (a : SelectArgs)
    (mem : Mem) (p : Call Q A) : Prop where
  drained : Holds t e a mem (p.input.drain p.st).2
  functions : p.env.Leaves a.owns
  redrained : Holds t e a mem (p.input.redrain (p.scanned K).scan.st)
  apart : ∀ u ∈ (p.late K).st.sched.members .wq, ∀ x ∈ (p.late K).st.ring u,
    Apart (p.late K).st.selectArgs e x

section
variable {a : SelectArgs}

theorem Undisturbed.holds (h : Undisturbed K t e a mem p) : Holds t e a mem (p.late K).st := by
  have hrun : ScanRun K a.owns _ (p.scanned K).scan := scanned_run h.functions
  have hspec : ((p.scanned K).scan.st.event e).spec = .select :=
    (hrun.st.spec e).trans h.drained.spec
  have ht : Timed _ (p.late K).st := late_timed
  have hev : (p.late K).st.event e = _ := late_event (.inr hspec)
  obtain ⟨hq, hr, hs, hp, ha, hm⟩ := h.redrained
  exact ⟨ht.members ▸ hq, by rwa [ht.ring], by rwa [hev], by rwa [hev], by rwa [ht.selectArgs],
    by rwa [ht.mem]⟩

theorem Undisturbed.pass (hK : K.Replies re) (h : Undisturbed K t e a mem p) :
    ((p.pass K).st.event e).status = (selectOutcome (re (p.late K).req) mem a).1 ∧
      SameOn a.owns (p.pass K).st.mem (selectOutcome (re (p.late K).req) mem a).2 := by
  have hh := h.holds
  have hargs : a = (p.late K).st.selectArgs e := hh.args.symm
  subst hargs
  have hreach : AtSelect _ e _ _ _
      (cleanupLoop K p.env p.os ((p.scanned K).late K p.input p.os).2 (p.late K)) :=
    (reaches_select hK (p.late K).st.selectArgs mem).cleanupLoop hK.narrow h.apart hh.queued
      hh.ring ⟨rfl, hh.spec, rfl, hh.pending, hh.sets⟩
  exact ⟨hreach.status, hreach.sets⟩

theorem undisturbed_of_quiet (K : Core Q A) (hd : (p.input.drain p.st).2 = p.st)
    (hr : ∀ s, p.input.redrain s = s) (hf : p.env.Leaves a.owns) (h : Holds t e a mem p.st)
    (ha : ∀ u ∈ p.st.sched.members .wq, ∀ x ∈ p.st.ring u, Apart p.st.selectArgs e x) :
    Undisturbed K t e a mem p := by
  have hrun : Scans a.owns (p.input.drain p.st).2 (p.scanned K).scan.st := (scanned_run hf).st
  rw [hd] at hrun
  have hmembers : (p.scanned K).scan.st.sched.members .wq = p.st.sched.members .wq := by
    rw [Sched.State.members, hrun.queue]
    rfl
  have ht : Timed (p.scanned K).scan.st (p.late K).st := by
    have htimed : Timed (p.input.redrain (p.scanned K).scan.st) (p.late K).st := late_timed
    rwa [hr] at htimed
  refine ⟨hd.symm ▸ h, hf, ?_, fun u hu x hx => ?_⟩
  · rw [hr]
    exact ⟨hmembers ▸ h.queued, (hrun.ring t).symm ▸ h.ring, (hrun.spec e).trans h.spec,
      (hrun.status e (.inr h.spec)).trans h.pending, (congrFun hrun.selectArgs e).trans h.args,
      fun x hx => (hrun.sets x hx).trans (h.sets x hx)⟩
  · rw [ht.members, hmembers] at hu
    rw [ht.ring, hrun.ring] at hx
    rw [ht.selectArgs, hrun.selectArgs]
    exact ha u hu x hx

/-- What the wants of `e` establish in a request, it has at the end of the scan. -/
theorem Undisturbed.asks (h : Undisturbed K t e a mem p) (hP : K.Keeps P)
    (hwant : ∀ q mem', SameOn a.owns mem' mem → P (K.wantSelect q mem' a)) :
    P (p.scanned K).scan.req := by
  apply scanQueue_own h.functions hP h.drained.queued h.drained.ring h.drained.pending
    h.drained.spec
  intro q mem' hmem
  have hargs : (p.input.drain p.st).2.selectArgs e = a := h.drained.args
  simp only [hargs]
  exact hwant q mem' fun x hx => (hmem x hx).trans (h.drained.sets x hx)

def SelectArgs.has (a : SelectArgs) (mem : Mem) (fd : Fd) : Prop :=
  fd < a.nfd ∧ (a.bits mem fd).any = true

/-- Two turns decide `e` alike when they reply alike for its members, and reply
for no other descriptor below `nfd` that it is invalid. -/
theorem agreeOn_of_members
    (hbits : ∀ fd, a.has mem fd → (a.bits mem fd).and (re fd).bits = (a.bits mem fd).and (re' fd).bits)
    (hfail : ∀ fd, a.has mem fd → (re fd).fail = (re' fd).fail)
    (hother : ∀ fd < a.nfd, (re fd).fail = true → a.has mem fd)
    (hother' : ∀ fd < a.nfd, (re' fd).fail = true → a.has mem fd) : AgreeOn mem a re re' where
  bits fd hfd := by
    cases hany : (a.bits mem fd).any with
    | true => exact hbits fd ⟨hfd, hany⟩
    | false => rw [Bits.eq_zero hany, Bits.zero_and, Bits.zero_and]
  bad := by
    rw [replyBad, replyBad, Bool.eq_iff_iff, List.any_eq_true, List.any_eq_true]
    apply exists_congr
    intro fd
    apply and_congr_right
    intro hfd
    have hlt := List.mem_range.mp hfd
    constructor
    · intro hf
      rwa [← hfail fd (hother fd hlt hf)]
    · intro hf
      rwa [hfail fd (hother' fd hlt hf)]

theorem failed_outcome (h : (selectOutcome re mem a).1 = .failed) :
    ∃ fd < a.nfd, (re fd).fail = true := by
  simp only [selectOutcome, replySelect] at h
  split at h
  · cases h
  · split at h
    · rename_i hbad
      obtain ⟨fd, hfd, hf⟩ := List.any_eq_true.mp hbad
      exact ⟨fd, List.mem_range.mp hfd, hf⟩
    · cases h

end

/-! ### Poll -/

section
variable {a : SelectArgs}

def pollReply (os : PollOs) (fd : Fd) : Reply :=
  match os with
  | some cond => (cond fd).reply
  | none => .none

def Bits.Within (b c : Bits) : Prop :=
  (b.r = true → c.r = true) ∧ (b.w = true → c.w = true) ∧ (b.e = true → c.e = true)

variable {b : Bits}

theorem Bits.within_or_left (h : b.Within c) : b.Within (c.or d) := by
  simp only [Bits.Within, Bits.or, Bool.or_eq_true] at h ⊢
  tauto

theorem Bits.within_or_right (b c : Bits) : b.Within (c.or b) := by
  simp only [Bits.Within, Bits.or, Bool.or_eq_true]
  tauto

theorem Poll.keeps (pipe : Fd)
    (hP : ∀ q fd b, P q → P (pollsetAdd q fd b)) : (pollCore pipe).Keeps P where
  wantFd fd goal h := hP _ fd goal h
  wantSelect mem a h := by
    apply List.foldlRecOn
    · exact h
    · intro q hq fd _
      split
      · exact hP q fd _ hq
      · exact hq

theorem within_add (x : Fd)
    (h : b.Within (pollsetEvents q fd)) : b.Within (pollsetEvents (pollsetAdd q x c) fd) := by
  rw [pollsetEvents_add]
  split
  · exact Bits.within_or_left h
  · exact h

theorem within_wantSelect (q : Pollset) (hfd : a.has mem fd) :
    (a.bits mem fd).Within (pollsetEvents (Poll.wantSelect q mem a) fd) := by
  obtain ⟨before, after, hsplit⟩ := List.append_of_mem (List.mem_range.mpr hfd.1)
  unfold Poll.wantSelect
  rw [hsplit, List.foldl_append, List.foldl_cons, if_pos hfd.2]
  apply List.foldlRecOn (motive := fun q : Pollset => (a.bits mem fd).Within (pollsetEvents q fd))
  · rw [pollsetEvents_add, if_pos rfl]
    exact Bits.within_or_right _ _
  · intro q hq y _
    split
    · exact within_add y hq
    · exact hq

theorem Poll.wait_some (pipe : Fd) (hq : Plain q) (cond : Fd → Revents) (dopoll : Bool) :
    Counted (Poll.wait pipe (some cond) q dopoll).1 (Poll.wait pipe (some cond) q dopoll).2 ∧
      ∀ fd, pollsetRevents (Poll.wait pipe (some cond) q dopoll).1 fd =
        if fd = pipe ∨ fd ∈ q.map PollFd.fd then
          (cond fd).mask (pollsetEvents (pollsetAdd q pipe ⟨true, false, false⟩) fd)
        else .zero := by
  have hne : ¬ (dopoll = true ∧ (pollsetAdd q pipe ⟨true, false, false⟩).isEmpty = true) := by
    intro hd
    have hm : pipe ∈ (pollsetAdd q pipe ⟨true, false, false⟩).map PollFd.fd :=
      mem_pollsetAdd.mpr (.inl rfl)
    rw [List.isEmpty_iff.mp hd.2] at hm
    cases hm
  simp only [Poll.wait, hne, if_false]
  refine ⟨⟨?_, rfl⟩, fun fd => ?_⟩
  · rw [List.map_map]
    exact (hq.add pipe _).nodup
  · rw [pollsetRevents_map _ fun fd events => (cond fd).mask events]
    simp [mem_pollsetAdd]

theorem Poll.wait_none (q : Pollset) (dopoll : Bool) :
    Poll.wait pipe none q dopoll = (pollsetAdd q pipe ⟨true, false, false⟩, -1) := by
  unfold Poll.wait
  simp only
  split <;> rfl

variable {p : Call Pollset PollOs}

theorem scanned_plain (p : Call Pollset PollOs) : Plain (p.scanned (pollCore pipe)).scan.req := by
  have hrun : ScanRun (pollCore pipe) (fun _ => False) _ (p.scanned (pollCore pipe)).scan :=
    scanned_run p.env.leaves_none
  apply hrun.req (Poll.keeps pipe fun q fd b h => h.add fd b)
  exact ⟨List.nodup_nil, fun _ => rfl⟩

theorem late_poll (p : Call Pollset PollOs) : (p.late (pollCore pipe)).req =
      (Poll.adjust pipe
        (Poll.wait pipe p.os (p.scanned (pollCore pipe)).scan.req (p.scanned (pollCore pipe)).dopoll).1
        (p.scanned (pollCore pipe)).dopoll
        (Poll.wait pipe p.os (p.scanned (pollCore pipe)).scan.req (p.scanned (pollCore pipe)).dopoll).2).1 :=
  rfl

theorem late_poll_none (hos : p.os = none) (fd : Fd) :
    pollsetRevents (p.late (pollCore pipe)).req fd = .zero := by
  rw [late_poll, hos, Poll.wait_none, pollsetRevents_adjust]
  split
  · rfl
  · exact ((scanned_plain p).add pipe _).revents fd

theorem mask_bits (re : Revents) (h : b.Within c) :
    b.and (re.mask c).reply.bits = b.and re.reply.bits := by
  obtain ⟨hr, hw, he⟩ := h
  obtain ⟨r, w, e⟩ := b
  simp only [Bits.and, Revents.mask, Revents.reply, Bits.mk.injEq]
  refine ⟨?_, ?_, ?_⟩
  · cases r
    · rfl
    · simp [hr rfl]
  · cases w
    · rfl
    · simp [hw rfl]
  · cases e
    · rfl
    · simp [he rfl]

theorem Undisturbed.poll_asked (h : Undisturbed (pollCore pipe) t e a mem p)
    (hfd : a.has mem fd) :
    (a.bits mem fd).Within (pollsetEvents (p.scanned (pollCore pipe)).scan.req fd) := by
  have hkeeps : (pollCore pipe).Keeps fun q => (a.bits mem fd).Within (pollsetEvents q fd) :=
    Poll.keeps pipe fun q x c hq => within_add x hq
  apply h.asks hkeeps
  intro q mem' hmem
  have hbits : a.bits mem' fd = a.bits mem fd := hmem.bits (fun _ hx => hx) fd
  have hfd' : a.has mem' fd := ⟨hfd.1, hbits ▸ hfd.2⟩
  rw [← hbits]
  exact within_wantSelect q hfd'

/-- The reply for a member is what poll(2) says of it: what the event asks for is
in the request. -/
theorem Undisturbed.poll_member (h : Undisturbed (pollCore pipe) t e a mem p)
    (hfd : a.has mem fd) (hpipe : fd ≠ pipe) :
    (a.bits mem fd).and (Poll.reply (p.late (pollCore pipe)).req fd).bits =
        (a.bits mem fd).and (pollReply p.os fd).bits ∧
      (Poll.reply (p.late (pollCore pipe)).req fd).fail = (pollReply p.os fd).fail := by
  have hasked := h.poll_asked hfd
  cases hos : p.os with
  | none =>
    rw [Poll.reply, late_poll_none hos]
    exact ⟨rfl, rfl⟩
  | some cond =>
    have hplain : Plain (p.scanned (pollCore pipe)).scan.req := scanned_plain p
    have hmem : fd ∈ (p.scanned (pollCore pipe)).scan.req.map PollFd.fd := by
      by_contra hno
      rw [pollsetEvents_of_notMem hno] at hasked
      have := Bits.any_iff.mp hfd.2
      simp only [Bits.Within] at hasked
      tauto
    obtain ⟨hcounted, hrevents⟩ :=
      Poll.wait_some pipe hplain cond (p.scanned (pollCore pipe)).dopoll
    rw [Poll.reply, late_poll, hos, hcounted.revents_adjust (fun _ => hpipe), hrevents,
      if_pos (.inr hmem)]
    exact ⟨mask_bits _ (within_add pipe hasked), rfl⟩

theorem poll_failed (hf : (Poll.reply (p.late (pollCore pipe)).req fd).fail = true) :
    (pollReply p.os fd).fail = true ∧
      (fd = pipe ∨ fd ∈ (p.scanned (pollCore pipe)).scan.req.map PollFd.fd) := by
  cases hos : p.os with
  | none =>
    rw [Poll.reply, late_poll_none hos] at hf
    cases hf
  | some cond =>
    obtain ⟨_, hrevents⟩ :=
      Poll.wait_some pipe (scanned_plain p) cond (p.scanned (pollCore pipe)).dopoll
    rw [Poll.reply, late_poll, hos, pollsetRevents_adjust, hrevents] at hf
    split at hf
    · cases hf
    · split at hf
      · rename_i hfd
        exact ⟨hf, hfd⟩
      · cases hf

/-- No descriptor below `nfd` that another thread waits on is invalid, unless it is
a member too; and the signal pipe is no member. -/
structure PollAlone (pipe : Fd) (a : SelectArgs) (mem : Mem) (p : Call Pollset PollOs) : Prop where
  notPipe : ¬ a.has mem pipe
  invalid : ∀ fd < a.nfd, fd = pipe ∨ fd ∈ (p.scanned (pollCore pipe)).scan.req.map PollFd.fd →
    (pollReply p.os fd).fail = true → a.has mem fd

theorem poll_agree (h : Undisturbed (pollCore pipe) t e a mem p)
    (h' : Undisturbed (pollCore pipe) t e a mem p') (halone : PollAlone pipe a mem p)
    (halone' : PollAlone pipe a mem p')
    (hos : ∀ fd, a.has mem fd → pollReply p.os fd = pollReply p'.os fd) :
    AgreeOn mem a (Poll.reply (p.late (pollCore pipe)).req)
      (Poll.reply (p'.late (pollCore pipe)).req) := by
  have hpipe : ∀ fd, a.has mem fd → fd ≠ pipe := fun fd hfd hne => halone.notPipe (hne ▸ hfd)
  apply agreeOn_of_members
  · intro fd hfd
    rw [(h.poll_member hfd (hpipe fd hfd)).1, (h'.poll_member hfd (hpipe fd hfd)).1, hos fd hfd]
  · intro fd hfd
    rw [(h.poll_member hfd (hpipe fd hfd)).2, (h'.poll_member hfd (hpipe fd hfd)).2, hos fd hfd]
  · intro fd hlt hf
    exact halone.invalid fd hlt (poll_failed hf).2 (poll_failed hf).1
  · intro fd hlt hf
    exact halone'.invalid fd hlt (poll_failed hf).2 (poll_failed hf).1

end

/-! ### The event port -/

section
variable {pipe : Fd}

/-- The cache when `pth_evp_commit` is called, and behind it. -/
def Call.wanted (pipe : Fd) (p : Call Evp EvpOs) : Evp :=
  (p.scanned (evportCore pipe)).scan.req.wanted pipe p.input.now

def Call.committed (pipe : Fd) (p : Call Evp EvpOs) : Evp := (p.wanted pipe).commit p.os

theorem evportCore_keeps (pipe : Fd)
    (hP : ∀ {q} fd mask, P q → P (Evp.want q fd mask)) : (evportCore pipe).Keeps P where
  wantFd := hP
  wantSelect mem a h := by
    apply List.foldlRecOn
    · exact h
    · intro q hq fd _
      split
      · exact hP fd _ hq
      · exact hq

variable {p : Call Evp EvpOs}

theorem wanted_tracks (h : p.req.Sane) : (p.wanted pipe).Tracks :=
  have hrun : ScanRun (evportCore pipe) (fun _ => False) _ _ := scanned_run p.env.leaves_none
  (hrun.req (evportCore_keeps pipe fun fd mask h => h.want fd mask) h.begin).wanted pipe p.input.now

theorem wanted_sane (h : p.req.Sane) : (p.wanted pipe).Sane :=
  have hrun : ScanRun (evportCore pipe) (fun _ => False) _ _ := scanned_run p.env.leaves_none
  (hrun.req (evportCore_keeps pipe fun fd mask h => h.want fd mask) h.begin_sane).wanted pipe p.input.now

theorem late_evp (p : Call Evp EvpOs) : (p.late (evportCore pipe)).req =
      ((p.committed pipe).evpWait p.os ((p.committed pipe).ptimeout
        (p.scanned (evportCore pipe)).dopoll
        ((p.scanned (evportCore pipe)).delay p.input.now))).1 := by
  unfold Call.late Scanned.late Scanned.wait Call.committed Call.wanted
  simp [evportCore, Evp.wait]

theorem pass_req (p : Call Evp EvpOs) :
    (p.pass (evportCore pipe)).req = (p.late (evportCore pipe)).req :=
  cleanupLoop_req (evportCore_replies pipe) _

/-- The stamps are sane when the scheduler starts, and a turn leaves them so. -/
theorem pass_sane (h : p.req.Sane) : (p.pass (evportCore pipe)).req.Sane := by
  rw [pass_req, late_evp]
  exact ((wanted_sane h).commit (wanted_tracks h) p.os).evpWait p.os _

variable {fd : Fd}

theorem Undisturbed.evp_touched (h : Undisturbed (evportCore pipe) t e a mem p)
    (hs : p.req.Sane) (hfd : a.has mem fd) : fd ∈ (p.wanted pipe).touched := by
  have hstamped : Evp.Stamped fd (p.scanned (evportCore pipe)).scan.req := by
    apply h.asks (evportCore_keeps pipe fun x mask h => h.want x mask)
    intro q mem' hmem
    apply Evp.stamped_wantSelect q hfd.1
    rw [hmem.bits (fun _ hx => hx)]
    exact hfd.2
  exact ((wanted_tracks hs).touched fd).mpr (hstamped.wanted pipe p.input.now).2

/-- The reply for a member is the last report for it, or the failure of its
epoll_ctl(2). -/
theorem Undisturbed.evp_member (h : Undisturbed (evportCore pipe) t e a mem p)
    (hs : p.req.Sane) (hfd : a.has mem fd) :
    (p.late (evportCore pipe)).req.ready fd =
      ((Evp.lastReport ((p.committed pipe).delivered p.os) fd).map evpFromEpoll).getD
        (if Evp.flags p.os (p.wanted pipe).force fd ((p.wanted pipe).reg fd) then evpFail
          else .none) := by
  have ht : (p.wanted pipe).Tracks := wanted_tracks hs
  have htouched := h.evp_touched hs hfd
  have hlt : fd < (p.committed pipe).regcap := by
    rw [Call.committed, (Evp.commit_gen ht p.os).2]
    exact ht.below fd htouched
  rw [late_evp, Evp.evpWait_ready _ _ _ hlt, Call.committed, Evp.commit_ready ht]
  simp [htouched]

theorem evp_failed (hf : ((p.late (evportCore pipe)).req.ready fd).fail = true) :
    ((p.committed pipe).ready fd).fail = true := by
  rw [late_evp] at hf
  exact Evp.evpWait_fail hf

/-- The two turns agree on the members: the kernel is asked the same about them and
answers the same. -/
structure EvpAgree (pipe : Fd) (a : SelectArgs) (mem : Mem) (p p' : Call Evp EvpOs) : Prop where
  force : (p.wanted pipe).force = (p'.wanted pipe).force
  registered : ∀ fd, a.has mem fd →
    ((p.wanted pipe).reg fd).registered = ((p'.wanted pipe).reg fd).registered
  regmask : ∀ fd, a.has mem fd →
    ((p.wanted pipe).reg fd).regmask = ((p'.wanted pipe).reg fd).regmask
  want : ∀ fd, a.has mem fd → ((p.wanted pipe).reg fd).want = ((p'.wanted pipe).reg fd).want
  ctl : ∀ op fd mask, a.has mem fd → p.os.ctl op fd mask = p'.os.ctl op fd mask
  reports : ∀ fd, a.has mem fd →
    Evp.lastReport ((p.committed pipe).delivered p.os) fd =
      Evp.lastReport ((p'.committed pipe).delivered p'.os) fd

/-- `pth_evp_commit` flags no descriptor below `nfd` but members. -/
def EvpAlone (pipe : Fd) (a : SelectArgs) (mem : Mem) (p : Call Evp EvpOs) : Prop :=
  ∀ fd < a.nfd, ((p.committed pipe).ready fd).fail = true → a.has mem fd

theorem EvpAgree.ready (hagree : EvpAgree pipe a mem p p')
    (h : Undisturbed (evportCore pipe) t e a mem p)
    (h' : Undisturbed (evportCore pipe) t e a mem p') (hs : p.req.Sane) (hs' : p'.req.Sane)
    (hfd : a.has mem fd) :
    (p.late (evportCore pipe)).req.ready fd = (p'.late (evportCore pipe)).req.ready fd := by
  have hflags : Evp.flags p.os (p.wanted pipe).force fd ((p.wanted pipe).reg fd) =
      Evp.flags p'.os (p'.wanted pipe).force fd ((p'.wanted pipe).reg fd) := by
    simp [Evp.flags, hagree.registered fd hfd, hagree.regmask fd hfd, hagree.want fd hfd,
      hagree.force, hagree.ctl _ fd _ hfd]
  rw [h.evp_member hs hfd, h'.evp_member hs' hfd, hagree.reports fd hfd, hflags]

theorem evp_agree (h : Undisturbed (evportCore pipe) t e a mem p)
    (h' : Undisturbed (evportCore pipe) t e a mem p') (hs : p.req.Sane) (hs' : p'.req.Sane)
    (halone : EvpAlone pipe a mem p) (halone' : EvpAlone pipe a mem p')
    (hagree : EvpAgree pipe a mem p p') :
    AgreeOn mem a (p.late (evportCore pipe)).req.ready (p'.late (evportCore pipe)).req.ready := by
  apply agreeOn_of_members
  · intro fd hfd
    rw [hagree.ready h h' hs hs' hfd]
  · intro fd hfd
    rw [hagree.ready h h' hs hs' hfd]
  · exact fun fd hlt hf => halone fd hlt (evp_failed hf)
  · exact fun fd hlt hf => halone' fd hlt (evp_failed hf)

end

/-! ### Two passes -/

/-- The turns `p` and `p'` leave the select event `e` with the same status and the
same fd sets, and let it fail only for a member that is `invalid`. -/
structure Isolated {Q A : Type} (K : Core Q A) (e : EventId) (a : SelectArgs) (mem : Mem)
    (invalid : Fd → Prop) (p p' : Call Q A) : Prop where
  status : ((p.pass K).st.event e).status = ((p'.pass K).st.event e).status
  sets : SameOn a.owns (p.pass K).st.mem (p'.pass K).st.mem
  failed : ((p.pass K).st.event e).status = .failed → ∃ fd, a.has mem fd ∧ invalid fd

theorem Undisturbed.isolated {K : Core Q A}
    (hK : K.Replies re) (h : Undisturbed K t e a mem p) (h' : Undisturbed K t e a mem p')
    (hagree : AgreeOn mem a (re (p.late K).req) (re (p'.late K).req))
    (hinvalid : ∀ fd < a.nfd, (re (p.late K).req fd).fail = true → a.has mem fd ∧ invalid fd) :
    Isolated K e a mem invalid p p' := by
  obtain ⟨hst, hsets⟩ := h.pass hK
  obtain ⟨hst', hsets'⟩ := h'.pass hK
  obtain ⟨hsame, hmem⟩ := selectOutcome_congr (fun _ _ => rfl) hagree
  refine ⟨hst.trans (hsame.trans hst'.symm), fun x hx => ?_, fun hf => ?_⟩
  · exact (hsets x hx).trans ((hmem x hx).trans (hsets' x hx).symm)
  · obtain ⟨fd, hlt, hfail⟩ := failed_outcome (hst.symm.trans hf)
    exact ⟨fd, hinvalid fd hlt hfail⟩

def five : SelectArgs := ⟨6, some 0, none, none, none⟩

def fiveMem : Mem := ⟨fun x fd => x = 0 ∧ fd = 5, fun _ => 0⟩

def selectBeside (wq : List Tid) : St :=
  { St.waiting wq fun e => if e = 1 then .select else .fd with
    fdArgs := fun _ => (3, ⟨true, false, false⟩)
    selectArgs := fun e => if e = 1 then five else ⟨0, none, none, none, none⟩
    mem := fiveMem }

def pollBeside (wq : List Tid) (cond : Fd → Revents) : Call Pollset PollOs :=
  ⟨.plain, .quiet, some cond, false, [], selectBeside wq⟩

def evpBeside (wq : List Tid) (os : EvpOs) : Call Evp EvpOs :=
  ⟨.plain, .quiet, os, false, .init 0, selectBeside wq⟩

/-- Every epoll_ctl(2) but those for `bad` succeeds, and `fds` are readable. -/
def evpAnswer (bad : List Fd) (fds : List Fd) : EvpOs where
  ctl _ fd _ := if fd ∈ bad then some .other else none
  realloc := true
  wait := some (fds.map fun fd => (fd, ⟨true, false, false, false, false⟩))

theorem five_has (h : five.has fiveMem fd) : fd = 5 := by
  simpa [five, SelectArgs.bits, Mem.isset, fiveMem, Bits.any] using h.2

variable {wq : List Tid}

theorem beside_holds (h : 1 ∈ wq) :
    Holds 1 1 five fiveMem (selectBeside wq) where
  queued := by simpa [selectBeside, St.waiting, Sched.State.members, Pqueue.members] using h
  ring := by simp [selectBeside, St.waiting, St.ring]
  spec := rfl
  pending := rfl
  args := rfl
  sets _ _ := rfl

theorem beside_apart (wq : List Tid) (u : Tid) (x : EventId) :
    x ∈ (selectBeside wq).ring u → Apart (selectBeside wq).selectArgs 1 x := by
  intro _ hx y _
  simp [selectBeside, hx, SelectArgs.owns]

theorem poll_undisturbed (h : 1 ∈ wq) (cond : Fd → Revents) :
    Undisturbed (pollCore 9) 1 1 five fiveMem (pollBeside wq cond) :=
  undisturbed_of_quiet _ rfl (fun _ => rfl) (fun _ _ _ _ => rfl) (beside_holds h)
    fun u _ x => beside_apart wq u x

theorem evp_undisturbed (h : 1 ∈ wq) (os : EvpOs) :
    Undisturbed (evportCore 9) 1 1 five fiveMem (evpBeside wq os) :=
  undisturbed_of_quiet _ rfl (fun _ => rfl) (fun _ _ _ _ => rfl) (beside_holds h)
    fun u _ x => beside_apart wq u x

end GnuPth.Manager
