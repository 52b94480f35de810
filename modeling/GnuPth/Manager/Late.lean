import GnuPth.Manager.Frame

/-!
# One event through the late handling

An event of a waiting thread is looked at once it is its turn; what happens to
it then is in the replies for its descriptors. Handling another event does not
touch it, nor its fd sets as long as the two do not share one.
-/

namespace GnuPth.Manager

open Sched (EventId)

section
variable {Q : Type}

/-! ### The walk -/

/-- The late handling takes `e` from `B` to `D` when it looks at it, and keeps
both otherwise. `X` are the events it looks at. -/
structure Reaches (K : Core Q A) (env : Env) (os : A) (rc : Int) (X : EventId → Prop) (e : EventId)
    (B D : Late Q → Prop) : Prop where
  other : ∀ {l x}, X x → x ≠ e → B l → B (lateEvent K env os rc l x)
  own : ∀ {l}, B l → D (lateEvent K env os rc l e)
  done : ∀ {l x}, X x → D l → D (lateEvent K env os rc l x)
  moved : ∀ {l t}, B l → B { l with st := toReady l.st t }
  doneMoved : ∀ {l t}, D l → D { l with st := toReady l.st t }

namespace Reaches

variable {B : Late Q → Prop}
variable {es : List EventId}

theorem events_done (h : Reaches K env os rc X e B D) (hes : ∀ x ∈ es, X x)
    (hl : D l) : D (es.foldl (lateEvent K env os rc) l) := by
  induction es generalizing l with
  | nil => exact hl
  | cons x es ih =>
    exact ih (fun y hy => hes y (by simp [hy])) (h.done (hes x (by simp)) hl)

theorem events_before (h : Reaches K env os rc X e B D)
    (hes : ∀ x ∈ es, X x) (hl : B l) (he : e ∉ es) : B (es.foldl (lateEvent K env os rc) l) := by
  induction es generalizing l with
  | nil => exact hl
  | cons x es ih =>
    have hx : x ≠ e := fun hxe => he (by simp [hxe])
    exact ih (fun y hy => hes y (by simp [hy])) (h.other (hes x (by simp)) hx hl)
      (fun hm => he (by simp [hm]))

theorem events_own (h : Reaches K env os rc X e B D) (hes : ∀ x ∈ es, X x)
    (hl : B l) (he : e ∈ es) : D (es.foldl (lateEvent K env os rc) l) := by
  obtain ⟨before, after, rfl, hbefore⟩ := List.eq_append_cons_of_mem he
  rw [List.foldl_append, List.foldl_cons]
  apply h.events_done (fun x hx => hes x (by simp [hx]))
  apply h.own
  exact h.events_before (fun x hx => hes x (by simp [hx])) hl hbefore

theorem thread (h : Reaches K env os rc X e B D) (hX : ∀ x ∈ l.st.ring t, X x)
    (hl : B l ∨ D l) :
    B (cleanupThread K env os rc l t) ∧ e ∉ l.st.ring t ∨ D (cleanupThread K env os rc l t) := by
  rcases hl with hl | hl
  · by_cases he : e ∈ l.st.ring t
    · exact .inr (h.doneMoved (h.events_own hX hl he))
    · exact .inl ⟨h.moved (h.events_before hX hl he), he⟩
  · exact .inr (h.doneMoved (h.events_done hX hl))

theorem threads (h : Reaches K env os rc X e B D) (hK : K.Narrow) {ts : List Tid}
    (hX : ∀ t ∈ ts, ∀ x ∈ l.st.ring t, X x)
    (hl : (B l ∧ ∃ t ∈ ts, e ∈ l.st.ring t) ∨ D l) :
    D (ts.foldl (cleanupThread K env os rc) l) := by
  induction ts generalizing l with
  | nil =>
    rcases hl with ⟨_, t, ht, _⟩ | hl
    · cases ht
    · exact hl
  | cons u ts ih =>
    have hn : Narrows l.st (cleanupThread K env os rc l u).st := .cleanupThread hK l u
    have hX' : ∀ t ∈ ts, ∀ x ∈ (cleanupThread K env os rc l u).st.ring t, X x := by
      intro t ht x hx
      rw [hn.ring] at hx
      exact hX t (by simp [ht]) x hx
    apply ih hX'
    rcases hl with ⟨hB, t, ht, he⟩ | hD
    · rcases h.thread (hX u (by simp)) (.inl hB) with ⟨hB', hne⟩ | hD'
      · refine .inl ⟨hB', t, ?_, by rwa [hn.ring]⟩
        rcases List.mem_cons.mp ht with rfl | ht
        · exact absurd he hne
        · exact ht
      · exact .inr hD'
    · rcases h.thread (hX u (by simp)) (.inr hD) with ⟨hB', _⟩ | hD'
      · exact .inr (h.doneMoved (h.events_done (hX u (by simp)) hD))
      · exact .inr hD'

theorem cleanupLoop (h : Reaches K env os rc X e B D) (hK : K.Narrow)
    (hX : ∀ t ∈ l.st.sched.members .wq, ∀ x ∈ l.st.ring t, X x)
    (ht : t ∈ l.st.sched.members .wq) (he : e ∈ l.st.ring t) (hl : B l) :
    D (cleanupLoop K env os rc l) :=
  h.threads hK hX (.inl ⟨hl, t, ht, he⟩)

end Reaches

/-! ### Other events -/

@[simp] theorem event_setStatus_self (s : St) (e : EventId) (st : Status) :
    (s.setStatus e st).event e = { s.event e with status := st } := by
  simp [St.setStatus, St.event, Sched.State.setStatus, Sched.State.setEvent]

variable {s : St}

theorem event_setStatus_of_ne (h : e ≠ x) (st : Status) :
    (s.setStatus x st).event e = s.event e := by
  simp [St.setStatus, St.event, Sched.State.setStatus, Sched.State.setEvent, h]

@[simp] theorem event_toReady (s : St) (t : Tid) (e : EventId) :
    (toReady s t).event e = s.event e := by
  unfold toReady
  split <;> rfl

@[simp] theorem mem_toReady (s : St) (t : Tid) : (toReady s t).mem = s.mem := by
  unfold toReady
  split <;> rfl

@[simp] theorem selectArgs_toReady (s : St) (t : Tid) :
    (toReady s t).selectArgs = s.selectArgs := by
  unfold toReady
  split <;> rfl

/-- What handling the event `x` leaves alone: the other events, and the fd sets
that `x` does not own. -/
structure Aside (x : EventId) (l l' : Late Q) : Prop where
  req : l'.req = l.req
  queue : l'.st.sched.queue = l.st.sched.queue
  event : ∀ e, e ≠ x → l'.st.event e = l.st.event e
  sets : ∀ y, ¬ (l.st.selectArgs x).owns y → l'.st.mem.set y = l.st.mem.set y

theorem Aside.refl (x : EventId) (l : Late Q) : Aside x l l :=
  ⟨rfl, rfl, fun _ _ => rfl, fun _ _ => rfl⟩

theorem keepOccurred_set (h : x ≠ some y) (o : Bool) (fd : Fd)
    (c : Mem × Nat) : (keepOccurred x o fd c).1.set y = c.1.set y := by
  cases x with
  | none => rfl
  | some x =>
    have hyx : y ≠ x := fun hyx => h (by rw [hyx])
    unfold keepOccurred
    split
    · rfl
    · rename_i hx
      cases hx
      split
      · split
        · rfl
        · simp [Mem.clear, hyx]
      · rfl

theorem selectOccurred_set (h : ¬ a.owns y) (mem : Mem)
    (out : Sets) : (selectOccurred a mem out).set y = mem.set y := by
  simp only [SelectArgs.owns, not_or] at h
  rw [selectOccurred, Mem.store_set]
  apply List.foldlRecOn (motive := fun c : Mem × Nat => c.1.set y = mem.set y)
  · rfl
  · intro c hc fd _
    rw [keepFd, keepOccurred_set h.2.2, keepOccurred_set h.2.1, keepOccurred_set h.1, hc]

theorem replySelect_set (h : replySelect re mem a = some (st, mem')) (hy : ¬ a.owns y) :
    mem'.set y = mem.set y := by
  simp only [replySelect] at h
  split at h
  · cases h
    exact selectOccurred_set hy _ _
  · split at h
    · cases h
      rfl
    · cases h

theorem lateSig_aside (h : Aside x l l') (a : SigsArgs) (sig : Int) :
    Aside x l (lateSig a x l' sig) := by
  unfold lateSig
  split
  · refine ⟨h.req, h.queue, fun e he => ?_, fun y hy => ?_⟩
    · rw [event_setStatus_of_ne he]
      exact h.event e he
    · exact (congrFun (Mem.store_set _ _ _) y).trans (h.sets y hy)
  · exact h

theorem lateEvent_aside (hK : K.Replies re) (l : Late Q) (x : EventId) :
    Aside x l (lateEvent K env os rc l x) := by
  unfold lateEvent
  split
  · exact .refl x l
  · split
    · rw [hK.lateFd]
      cases replyFd (re l.req (l.st.fdArgs x).1) (l.st.fdArgs x).2 with
      | none => exact .refl x l
      | some st => exact ⟨rfl, rfl, fun e he => event_setStatus_of_ne he st, fun _ _ => rfl⟩
    · rw [hK.lateSelect]
      cases hres : replySelect (re l.req) l.st.mem (l.st.selectArgs x) with
      | none => exact .refl x l
      | some res =>
        exact ⟨rfl, rfl, fun e he => event_setStatus_of_ne he res.1,
          fun y hy => replySelect_set hres hy⟩
    · apply List.foldlRecOn
      · exact .refl x l
      · exact fun l' hl' sig _ => lateSig_aside hl' _ sig
    · exact .refl x l

theorem lateEvents_queue (hK : K.Replies re) (es : List EventId)
    (l : Late Q) : (es.foldl (lateEvent K env os rc) l).req = l.req ∧
      (es.foldl (lateEvent K env os rc) l).st.sched.queue = l.st.sched.queue := by
  induction es generalizing l with
  | nil => exact ⟨rfl, rfl⟩
  | cons x es ih =>
    have haside : Aside x l (lateEvent K env os rc l x) := lateEvent_aside hK l x
    obtain ⟨hreq, hqueue⟩ := ih (lateEvent K env os rc l x)
    exact ⟨hreq.trans haside.req, hqueue.trans haside.queue⟩

theorem cleanupLoop_req (hK : K.Replies re) (l : Late Q) :
    (cleanupLoop K env os rc l).req = l.req := by
  apply List.foldlRecOn (motive := fun l' : Late Q => l'.req = l.req)
  · rfl
  · exact fun l' hl' t _ => (lateEvents_queue hK _ l').1.trans hl'

/-! ### A select event -/

variable {re : Q → Fd → Reply}

theorem lateEvent_of_status (h : (l.st.event e).status ≠ .pending) :
    lateEvent K env os rc l e = l :=
  if_pos h

/-- The status that a pending select event ends with, and the memory then. -/
def selectOutcome (re : Fd → Reply) (mem : Mem) (a : SelectArgs) : Status × Mem :=
  (replySelect re mem a).getD (.pending, mem)

/-- The replies are the same for the members of the sets, and for no other
descriptor below `nfd` is there a failure in one of the two alone. -/
structure AgreeOn (mem : Mem) (a : SelectArgs) (re re' : Fd → Reply) : Prop where
  bits : Alike mem a (fun fd => (re fd).bits) (fun fd => (re' fd).bits)
  bad : replyBad re a = replyBad re' a

theorem AgreeOn.refl (mem : Mem) (a : SelectArgs) (re : Fd → Reply) : AgreeOn mem a re re :=
  ⟨fun _ _ => rfl, rfl⟩

theorem AgreeOn.alike {re : Fd → Reply}
    (h : AgreeOn mem a re re') (hm : SameOn a.owns mem mem') :
    Alike mem a (replySets re mem a) (replySets re' mem' a) := by
  intro fd hfd
  simp [replySets, ← hm.bits (fun _ hx => hx), h.bits fd hfd]

theorem selectOutcome_congr {re : Fd → Reply}
    (hm : SameOn a.owns mem mem') (h : AgreeOn mem a re re') :
    (selectOutcome re mem a).1 = (selectOutcome re' mem' a).1 ∧
      SameOn a.owns (selectOutcome re mem a).2 (selectOutcome re' mem' a).2 := by
  have htest := fdsTest_congr hm (fun _ hx => hx) (h.alike hm)
  simp only [selectOutcome, replySelect, htest, h.bad]
  split
  · exact ⟨rfl, selectOccurred_sameOn hm (fun _ hx => hx) (h.alike hm)⟩
  · split
    · exact ⟨rfl, hm⟩
    · exact ⟨rfl, hm⟩

theorem selectOutcome_pending {re : Fd → Reply}
    (h : (selectOutcome re mem a).1 = .pending) : replySelect re mem a = none := by
  cases hres : replySelect re mem a with
  | none => rfl
  | some =>
    rw [selectOutcome, hres] at h
    exact absurd h (replySelect_narrow hres).1

structure AtSelect (q : Q) (e : EventId) (args : EventId → SelectArgs) (st : Status) (mem : Mem)
    (l : Late Q) : Prop where
  req : l.req = q
  spec : (l.st.event e).spec = .select
  selectArgs : l.st.selectArgs = args
  status : (l.st.event e).status = st
  sets : SameOn (args e).owns l.st.mem mem

def Apart (args : EventId → SelectArgs) (e x : EventId) : Prop :=
  x ≠ e → ∀ y, (args e).owns y → ¬ (args x).owns y

namespace AtSelect

variable {args : EventId → SelectArgs}

theorem other (hK : K.Replies re) (h : AtSelect q e args st mem l) (hx : x ≠ e)
    (ha : Apart args e x) : AtSelect q e args st mem (lateEvent K env os rc l x) := by
  have haside : Aside x l (lateEvent K env os rc l x) := lateEvent_aside hK l x
  have hn : Narrows l.st (lateEvent K env os rc l x).st := .lateEvent hK.narrow l x
  refine ⟨haside.req.trans h.req, (hn.spec e).trans h.spec, hn.selectArgs.trans h.selectArgs, ?_, ?_⟩
  · rw [haside.event e hx.symm]
    exact h.status
  · intro y hy
    have hxy : ¬ (l.st.selectArgs x).owns y := by
      rw [h.selectArgs]
      exact ha hx y hy
    exact (haside.sets y hxy).trans (h.sets y hy)

theorem moved (h : AtSelect q e args st mem l) (t : Tid) :
    AtSelect q e args st mem { l with st := toReady l.st t } :=
  ⟨h.req, by simpa using h.spec, by simpa using h.selectArgs, by simpa using h.status,
    by simpa using h.sets⟩

theorem own (hK : K.Replies re) (h : AtSelect q e args .pending mem l) :
    AtSelect q e args (selectOutcome (re q) mem (args e)).1 (selectOutcome (re q) mem (args e)).2
      (lateEvent K env os rc l e) := by
  have hlate : lateEvent K env os rc l e =
      l.select e (q, replySelect (re q) l.st.mem (args e)) := by
    simp [lateEvent, h.status, h.spec, hK.lateSelect,
      h.selectArgs, h.req]
  obtain ⟨hst, hsets⟩ := selectOutcome_congr h.sets (.refl l.st.mem (args e) (re q))
  rw [hlate, ← hst]
  unfold selectOutcome at hsets ⊢
  cases hres : replySelect (re q) l.st.mem (args e) with
  | none =>
    rw [hres] at hsets
    exact ⟨rfl, h.spec, h.selectArgs, h.status, hsets⟩
  | some res =>
    rw [hres] at hsets
    have hev : (l.select e (q, some res)).st.event e = { l.st.event e with status := res.1 } :=
      event_setStatus_self l.st e res.1
    exact ⟨rfl, by rw [hev]; exact h.spec, h.selectArgs, by rw [hev]; rfl, hsets⟩

theorem outcome_own (hK : K.Replies re) (h : AtSelect q e args (selectOutcome (re q) mem (args e)).1
      (selectOutcome (re q) mem (args e)).2 l) :
    AtSelect q e args (selectOutcome (re q) mem (args e)).1 (selectOutcome (re q) mem (args e)).2
      (lateEvent K env os rc l e) := by
  by_cases hp : (selectOutcome (re q) mem (args e)).1 = .pending
  · -- nothing was found, and nothing is found again
    have hmem : (selectOutcome (re q) mem (args e)).2 = mem := by
      rw [selectOutcome, selectOutcome_pending hp]
      rfl
    rw [hp, hmem] at h
    exact h.own hK
  · rw [lateEvent_of_status (by rwa [h.status])]
    exact h

end AtSelect

theorem reaches_select (hK : K.Replies re) (args : EventId → SelectArgs) (mem : Mem) :
    Reaches K env os rc (Apart args e) e (AtSelect q e args .pending mem)
      (AtSelect q e args (selectOutcome (re q) mem (args e)).1
        (selectOutcome (re q) mem (args e)).2) where
  other ha hx h := h.other hK hx ha
  own h := h.own hK
  done {l x} ha h := by
    by_cases hx : x = e
    · subst hx
      exact h.outcome_own hK
    · exact h.other hK hx ha
  moved h := h.moved _
  doneMoved h := h.moved _

/-! ### Moving to the ready queue -/

theorem members_toReady_wq (s : St) (t : Tid) : (toReady s t).sched.members .wq =
      if Sched.anyOccurred s.sched t then (s.sched.members .wq).erase t
      else s.sched.members .wq := by
  unfold toReady
  split
  · exact Pqueue.members_delete
  · rfl

theorem mem_toReady_rq :
    u ∈ (toReady s t).sched.members .rq ↔
      u ∈ s.sched.members .rq ∨ Sched.anyOccurred s.sched t = true ∧ u = t := by
  unfold toReady
  split
  · rename_i h
    have hins : u ∈ ((s.sched.queue .rq).insert ((s.sched.tcb t).prio + 1) t).members ↔ _ :=
      Pqueue.mem_insert
    simp only [h, true_and]
    exact hins.trans or_comm
  · rename_i h
    simp [h]

theorem anyOccurred_of_event (he : e ∈ s.ring t)
    (hst : (s.event e).status ≠ .pending) : Sched.anyOccurred s.sched t = true := by
  rw [Sched.anyOccurred, Bool.or_eq_true, List.any_eq_true]
  exact .inl ⟨e, he, by simpa [St.event] using hst⟩

/-- On the way through `ts`: `t` is in the waiting queue as often as it is still to
come, and in the ready queue if it has been met. -/
structure Moving (t : Tid) (ts : List Tid) (met : Prop) (l : Late Q) : Prop where
  count : (l.st.sched.members .wq).count t = ts.count t
  ready : met → t ∈ l.st.sched.members .rq

section
variable {X : EventId → Prop}

theorem Reaches.moves_thread (h : Reaches K env os rc X e B D) (hK : K.Replies re)
    (hD : ∀ l, D l → (l.st.event e).status ≠ .pending)
    (hX : ∀ x ∈ l.st.ring u, X x) (he : e ∈ l.st.ring t) (hl : B l ∨ D l)
    (hm : Moving t (u :: ts) met l) :
    Moving t ts (met ∨ t = u) (cleanupThread K env os rc l u) := by
  have hqueue : ((l.st.ring u).foldl (lateEvent K env os rc) l).st.sched.queue =
      l.st.sched.queue := (lateEvents_queue hK _ l).2
  have hn : Narrows l.st ((l.st.ring u).foldl (lateEvent K env os rc) l).st :=
    .lateEvents hK.narrow l _
  have hany : t = u → Sched.anyOccurred
      ((l.st.ring u).foldl (lateEvent K env os rc) l).st.sched u = true := by
    rintro rfl
    apply anyOccurred_of_event
    · rwa [hn.ring]
    · apply hD
      rcases hl with hl | hl
      · exact h.events_own hX hl he
      · exact h.events_done hX hl
  have hmembers : ∀ n, ((l.st.ring u).foldl (lateEvent K env os rc) l).st.sched.members n =
      l.st.sched.members n := fun n => congrArg (fun queue => (queue n).members) hqueue
  constructor
  · have hcount := hm.count
    show ((toReady _ u).sched.members .wq).count t = ts.count t
    rw [members_toReady_wq, hmembers]
    by_cases hu : t = u
    · subst hu
      rw [if_pos (hany rfl), List.count_erase_self, hcount, List.count_cons_self]
      rfl
    · rw [List.count_cons_of_ne (Ne.symm hu)] at hcount
      split
      · rw [List.count_erase_of_ne hu]
        exact hcount
      · exact hcount
  · intro hmet
    apply mem_toReady_rq.mpr
    rw [hmembers]
    rcases hmet with hmet | rfl
    · exact .inl (hm.ready hmet)
    · exact .inr ⟨hany rfl, rfl⟩

theorem Reaches.moves (h : Reaches K env os rc X e B D) (hK : K.Replies re)
    (hD : ∀ l, D l → (l.st.event e).status ≠ .pending)
    (hX : ∀ u ∈ ts, ∀ x ∈ l.st.ring u, X x) (he : e ∈ l.st.ring t) (hl : B l ∨ D l)
    (hm : Moving t ts met l) :
    Moving t [] (met ∨ t ∈ ts) (ts.foldl (cleanupThread K env os rc) l) := by
  induction ts generalizing l met with
  | nil => exact ⟨hm.count, fun hmet => hm.ready (hmet.resolve_right nofun)⟩
  | cons u ts ih =>
    have hn : Narrows l.st (cleanupThread K env os rc l u).st := .cleanupThread hK.narrow l u
    have hXu : ∀ x ∈ l.st.ring u, X x := hX u (by simp)
    have hX' : ∀ v ∈ ts, ∀ x ∈ (cleanupThread K env os rc l u).st.ring v, X x := by
      intro v hv x hx
      rw [hn.ring] at hx
      exact hX v (by simp [hv]) x hx
    have hl' : B (cleanupThread K env os rc l u) ∨ D (cleanupThread K env os rc l u) :=
      (h.thread hXu hl).imp_left And.left
    have hrest := ih hX' (by rwa [hn.ring]) hl' (h.moves_thread hK hD hXu he hl hm)
    refine ⟨hrest.count, fun hmet => hrest.ready ?_⟩
    rw [List.mem_cons] at hmet
    exact or_assoc.mpr hmet

theorem Reaches.cleanupLoop_moves (h : Reaches K env os rc X e B D) (hK : K.Replies re)
    (hD : ∀ l, D l → (l.st.event e).status ≠ .pending)
    (hX : ∀ u ∈ l.st.sched.members .wq, ∀ x ∈ l.st.ring u, X x)
    (ht : t ∈ l.st.sched.members .wq) (he : e ∈ l.st.ring t) (hl : B l) :
    t ∈ (Manager.cleanupLoop K env os rc l).st.sched.members .rq ∧
      t ∉ (Manager.cleanupLoop K env os rc l).st.sched.members .wq := by
  have hm : Moving t [] (False ∨ t ∈ l.st.sched.members .wq) (Manager.cleanupLoop K env os rc l) :=
    h.moves hK hD hX he (.inl hl) ⟨rfl, False.elim⟩
  exact ⟨hm.ready (.inr ht), List.count_eq_zero.mp hm.count⟩

end

end

end GnuPth.Manager
