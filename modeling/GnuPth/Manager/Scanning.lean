import GnuPth.Manager.Frame

/-!
# What the scan leaves alone

The scan fills in the variables of signal events, runs the functions of the
application and tags events, but never an event that is about descriptors; for
these it only adds to the request.
-/

namespace GnuPth.Manager

open Sched (EventId)

def Descriptors (spec : Sched.Spec) : Prop := spec = .fd ∨ spec = .select

/-- What stays from `s` to `s'`; `S` are the fd sets that the functions of the
application leave alone. -/
structure Scans (S : SetAddr → Prop) (s s' : St) : Prop where
  ring : ∀ t, s'.ring t = s.ring t
  queue : s'.sched.queue = s.sched.queue
  spec : ∀ e, (s'.event e).spec = (s.event e).spec
  status : ∀ e, Descriptors (s.event e).spec → (s'.event e).status = (s.event e).status
  fdArgs : s'.fdArgs = s.fdArgs
  selectArgs : s'.selectArgs = s.selectArgs
  sets : SameOn S s'.mem s.mem

def Env.Leaves (env : Env) (S : SetAddr → Prop) : Prop := ∀ e s, SameOn S (env.func e s).2 s.mem

theorem Env.leaves_none (env : Env) : env.Leaves fun _ => False :=
  fun _ _ _ hx => hx.elim

namespace Scans

variable {S : SetAddr → Prop}

theorem refl (s : St) : Scans S s s :=
  ⟨fun _ => rfl, rfl, fun _ => rfl, fun _ _ => rfl, rfl, rfl, fun _ _ => rfl⟩

theorem trans (h : Scans S s₁ s₂) (h' : Scans S s₂ s₃) : Scans S s₁ s₃ where
  ring t := (h'.ring t).trans (h.ring t)
  queue := h'.queue.trans h.queue
  spec e := (h'.spec e).trans (h.spec e)
  status e he := (h'.status e ((h.spec e).symm ▸ he)).trans (h.status e he)
  fdArgs := h'.fdArgs.trans h.fdArgs
  selectArgs := h'.selectArgs.trans h.selectArgs
  sets x hx := (h'.sets x hx).trans (h.sets x hx)

theorem setMem (h : SameOn S mem s.mem) : Scans S s { s with mem } :=
  ⟨fun _ => rfl, rfl, fun _ => rfl, fun _ _ => rfl, rfl, rfl, h⟩

theorem store (s : St) (x : Option IntAddr) (v : Int) : Scans S s (s.store x v) := by
  apply setMem
  intro y _
  rw [Mem.store_set]

theorem tag (he : ¬ Descriptors (s.event e).spec) : Scans S s (s.tag e) := by
  have hev : ∀ x, (s.tag e).event x =
      if x = e then { s.event e with status := .occurred } else s.event x := by
    intro x
    by_cases hx : x = e
    · subst hx
      simp [St.tag, St.event, Sched.State.setStatus, Sched.State.setEvent]
    · simp [St.tag, St.event, Sched.State.setStatus, Sched.State.setEvent, hx]
  refine ⟨fun t => ?_, ?_, fun x => ?_, fun x hx => ?_, rfl, rfl, fun _ _ => rfl⟩
  · simp [St.ring, St.tag, Sched.State.setStatus, Sched.State.setEvent]
  · simp [St.tag, Sched.State.setStatus, Sched.State.setEvent]
  · rw [hev]
    split
    · rename_i hxe
      subst hxe
      rfl
    · rfl
  · rw [hev, if_neg]
    rintro rfl
    exact he hx

section
variable {t : Tid}

theorem threadSig : Scans S c.st (threadSig t a c sig).st := by
  unfold Manager.threadSig
  split
  · refine (store c.st a.sig sig).trans ?_
    refine ⟨fun u => ?_, rfl, fun _ => rfl, fun _ _ => rfl, rfl, rfl, fun _ _ => rfl⟩
    by_cases hu : u = t
    · subst hu
      simp [St.ring, Sched.State.setTcb]
    · simp [St.ring, Sched.State.setTcb, hu]
  · exact refl _

theorem processSig : Scans S c.st (processSig a c sig).st := by
  unfold Manager.processSig
  split
  · exact store _ _ _
  · exact refl _

theorem scanSig : Scans S c.st (scanSig t a c sig).st := by
  unfold Manager.scanSig
  split
  · exact threadSig.trans processSig
  · exact refl _

end

end Scans

section
variable {K : Core Q A}

structure ScanStep (K : Core Q A) (S : SetAddr → Prop) (e : EventId) (c c' : Scan Q) : Prop where
  st : Scans S c.st c'.st
  req : c'.req = c.req ∨ (∃ fd goal, c'.req = K.wantFd c.req fd goal) ∨
    ∃ mem a, c'.req = K.wantSelect c.req mem a
  own : (c.st.event e).status = .pending → (c.st.event e).spec = .select →
    c'.req = K.wantSelect c.req c.st.mem (c.st.selectArgs e)
  timer : ∀ n, c'.timer = some n →
    c.timer = some n ∨ n.event = e ∧ ¬ Descriptors (c.st.event e).spec

namespace ScanStep

variable {e : EventId}

theorem of_other (he : ¬ Descriptors (c.st.event e).spec) (hst : Scans S c.st c'.st)
    (hreq : c'.req = c.req) (htimer : c'.timer = c.timer) : ScanStep K S e c c' :=
  ⟨hst, .inl hreq, fun _ hs => absurd (.inr hs) he, fun _ hn => .inl (htimer ▸ hn)⟩

theorem tag (he : ¬ Descriptors (c.st.event e).spec) : ScanStep K S e c (c.tag e) :=
  of_other he (.tag he) rfl rfl

theorem tagIf (he : ¬ Descriptors (c.st.event e).spec) (b : Bool) :
    ScanStep K S e c (c.tagIf b e) := by
  cases b with
  | false => exact of_other he (.refl _) rfl rfl
  | true => exact tag he

theorem remember (he : ¬ Descriptors (c.st.event e).spec) (t : Tid) (tv : Timeval) :
    ScanStep K S e c (c.remember t e tv) := by
  refine ⟨.refl _, .inl rfl, fun _ hs => absurd (.inr hs) he, fun n hn => ?_⟩
  simp only [Scan.remember, Sched.nextTimer] at hn
  split at hn
  · cases hn
    exact .inr ⟨rfl, he⟩
  · split at hn
    · cases hn
      exact .inr ⟨rfl, he⟩
    · rename_i hc _
      exact .inl (hc.trans hn)

theorem after (he : ¬ Descriptors (c.st.event e).spec) (hm : SameOn S mem c.st.mem)
    (h : ScanStep K S e { c with st := { c.st with mem } } c') : ScanStep K S e c c' :=
  ⟨(Scans.setMem hm).trans h.st, h.req, fun _ hs => absurd (.inr hs) he, h.timer⟩

theorem event (henv : env.Leaves S) (c : Scan Q) (e : EventId) :
    ScanStep K S e c (scanEvent K env now t c e) := by
  unfold scanEvent
  split
  · rename_i hp
    exact ⟨.refl _, .inl rfl, fun h => absurd h hp, fun _ hn => .inl hn⟩
  · split <;> rename_i hspec
    · refine ⟨.refl _, .inr (.inl ⟨_, _, rfl⟩), fun _ h => ?_, fun _ hn => .inl hn⟩
      rw [hspec] at h
      cases h
    · exact ⟨.refl _, .inr (.inr ⟨_, _, rfl⟩), fun _ _ => rfl, fun _ hn => .inl hn⟩
    all_goals have he : ¬ Descriptors (c.st.event e).spec := by simp [Descriptors, hspec]
    · have hsigs : Scans S c.st (env.sigs.foldl (scanSig t (c.st.sigsArgs e))
          ⟨c.st, c.sigpending, c.sigcatch, false⟩).st := by
        apply List.foldlRecOn (motive := fun d : SigScan => Scans S c.st d.st)
        · exact .refl _
        · exact fun d hd sig _ => hd.trans .scanSig
      simp only [Scan.sigs, Scan.tagIf]
      split
      · refine of_other he (hsigs.trans (.tag ?_)) rfl rfl
        rw [hsigs.spec]
        exact he
      · exact of_other he hsigs rfl rfl
    · split
      · exact tag he
      · exact remember he t _
    · exact tagIf he _
    · exact of_other he (.refl _) rfl rfl
    · exact tagIf he _
    · have hmem : ∀ b, SameOn S (c.func env b e).2 c.st.mem := by
        intro b
        unfold Scan.func
        split
        · exact fun _ _ => rfl
        · exact henv e c.st
      simp only
      split
      · apply after he (hmem _)
        apply tag
        exact he
      · apply after he (hmem _)
        apply remember
        exact he

end ScanStep

/-- What the wants of a core keep. -/
structure Core.Keeps (K : Core Q A) (P : Q → Prop) : Prop where
  wantFd : ∀ {q} fd goal, P q → P (K.wantFd q fd goal)
  wantSelect : ∀ {q} mem a, P q → P (K.wantSelect q mem a)

structure ScanRun (K : Core Q A) (S : SetAddr → Prop) (c c' : Scan Q) : Prop where
  st : Scans S c.st c'.st
  req : ∀ {P : Q → Prop}, K.Keeps P → P c.req → P c'.req
  timer : (∀ n, c.timer = some n → ¬ Descriptors (c.st.event n.event).spec) →
    ∀ n, c'.timer = some n → ¬ Descriptors (c'.st.event n.event).spec

namespace ScanRun

variable {c : Scan Q}

theorem refl (c : Scan Q) : ScanRun K S c c := ⟨.refl _, fun _ h => h, fun h => h⟩

theorem trans (h : ScanRun K S c₁ c₂) (h' : ScanRun K S c₂ c₃) : ScanRun K S c₁ c₃ :=
  ⟨h.st.trans h'.st, fun hP hq => h'.req hP (h.req hP hq), fun ht => h'.timer (h.timer ht)⟩

theorem of_step (h : ScanStep K S e c₁ c₂) : ScanRun K S c₁ c₂ where
  st := h.st
  req {P} hP hq := by
    rcases h.req with hr | ⟨fd, goal, hr⟩ | ⟨mem, a, hr⟩
    · rwa [hr]
    · rw [hr]
      exact hP.wantFd fd goal hq
    · rw [hr]
      exact hP.wantSelect mem a hq
  timer ht n hn := by
    rw [h.st.spec]
    rcases h.timer n hn with hn | ⟨hne, he⟩
    · exact ht n hn
    · rwa [hne]

theorem events (henv : env.Leaves S) (es : List EventId) (c : Scan Q) :
    ScanRun K S c (es.foldl (scanEvent K env now t) c) := by
  induction es generalizing c with
  | nil => exact refl c
  | cons e es ih => exact (of_step (ScanStep.event henv c e)).trans (ih _)

theorem cancel (b : Bool) (c : Scan Q) :
    ScanRun K S c (if b then { c with anyOccurred := true } else c) := by
  cases b with
  | false => exact refl c
  | true => exact ⟨.refl _, fun _ h => h, fun h => h⟩

theorem thread (henv : env.Leaves S) (c : Scan Q) (t : Tid) :
    ScanRun K S c (scanThread K env now c t) :=
  (cancel _ c).trans (events henv _ _)

theorem threads (henv : env.Leaves S) (ts : List Tid) (c : Scan Q) :
    ScanRun K S c (ts.foldl (scanThread K env now) c) := by
  induction ts generalizing c with
  | nil => exact refl c
  | cons t ts ih => exact (thread henv c t).trans (ih _)

end ScanRun

theorem events_own {es : List EventId}
    (henv : env.Leaves S) (hP : K.Keeps P) (he : e ∈ es)
    (hp : (c.st.event e).status = .pending) (hs : (c.st.event e).spec = .select)
    (hwant : ∀ q mem, SameOn S mem c.st.mem → P (K.wantSelect q mem (c.st.selectArgs e))) :
    P (es.foldl (scanEvent K env now t) c).req := by
  obtain ⟨before, after, rfl⟩ := List.append_of_mem he
  have hrun : ScanRun K S c (before.foldl (scanEvent K env now t) c) := .events henv before c
  rw [List.foldl_append, List.foldl_cons]
  apply (ScanRun.events henv after _).req hP
  have hstep : ScanStep K S e (before.foldl (scanEvent K env now t) c)
      (scanEvent K env now t (before.foldl (scanEvent K env now t) c) e) := .event henv _ e
  rw [hstep.own ((hrun.st.status e (.inr hs)).trans hp) ((hrun.st.spec e).trans hs),
    hrun.st.selectArgs]
  exact hwant _ _ hrun.st.sets

theorem scanQueue_own (henv : env.Leaves S)
    (hP : K.Keeps P) (ht : t ∈ c.st.sched.members .wq) (he : e ∈ c.st.ring t)
    (hp : (c.st.event e).status = .pending) (hs : (c.st.event e).spec = .select)
    (hwant : ∀ q mem, SameOn S mem c.st.mem → P (K.wantSelect q mem (c.st.selectArgs e))) :
    P (scanQueue K env now c).req := by
  obtain ⟨before, after, hsplit⟩ := List.append_of_mem ht
  have hrun : ScanRun K S c (before.foldl (scanThread K env now) c) := .threads henv before c
  rw [scanQueue, hsplit, List.foldl_append, List.foldl_cons]
  apply (ScanRun.threads henv after _).req hP
  generalize before.foldl (scanThread K env now) c = c₁ at hrun ⊢
  have hcancel := hrun.trans (.cancel (c₁.st.sched.tcb t).cancelreq c₁)
  unfold scanThread
  generalize (if (c₁.st.sched.tcb t).cancelreq = true then { c₁ with anyOccurred := true }
    else c₁) = c₂ at hcancel ⊢
  apply events_own henv hP (e := e)
  · rwa [hcancel.st.ring]
  · exact (hcancel.st.status e (.inr hs)).trans hp
  · exact (hcancel.st.spec e).trans hs
  · intro q mem hmem
    rw [hcancel.st.selectArgs]
    exact hwant q mem fun x hx => (hmem x hx).trans (hcancel.st.sets x hx)

end

end GnuPth.Manager
