import GnuPth.Pqueue.Refines
import GnuPth.Sched.Partition

/-!
# Ageing

Whenever a thread comes back, the priorities of all ready threads rise by one. The
priorities of threads are from `PTH_PRIO_MIN` to `PTH_PRIO_MAX` and the event manager
adds one, so whoever has been raised eleven times is overtaken by nobody, unless a
thread is favoured.
-/

namespace GnuPth.Sched

open Function (update update_of_ne)
open Inbox (Gmsg)
open Pq (Descending)
open Transition

/-! ### Queues -/

/-- What becomes of a queue: threads are removed, threads in `new` are inserted with a
priority that the scheduler uses, and all priorities are raised `n` times. -/
inductive Later (new : Tid → Prop) (q : Pqueue) : Nat → Pqueue → Prop
  | refl : Later new q 0 q
  | delete {n : Nat} {q' : Pqueue} (t : Tid) (h : Later new q n q') : Later new q n (q'.delete t)
  | insert {n : Nat} {q' : Pqueue} {t : Tid} {prio : Int} (h : Later new q n q') (ht : new t)
      (hmin : prioMin ≤ prio) (hmax : prio ≤ prioMax + 1) : Later new q n (q'.insert prio t)
  | increase {n : Nat} {q' : Pqueue} (h : Later new q n q') : Later new q (n + 1) q'.increase

def ahead (q : Pqueue) (t : Tid) : List Tid := q.members.takeWhile (· ≠ t)

/-- Nobody gets in front of `t`: it and all threads in front of it, which are some of
`ts`, have at least the highest priority with which a thread is inserted. -/
structure Aged (ts : List Tid) (t : Tid) (pre : Pqueue) (p : Int) (post : Pqueue) : Prop where
  prio : prioMax + 1 ≤ p
  front : ∀ e ∈ pre, prioMax + 1 ≤ e.2
  sublist : pre.members.Sublist ts
  notMem_pre : t ∉ pre.members
  notMem_post : t ∉ post.members

section
variable {post : Pqueue}

theorem Later.trans (h : Later new q n q') (h' : Later new q' m q'') : Later new q (n + m) q'' := by
  induction h' with
  | refl => exact h
  | delete t _ ih => exact ih.delete t
  | insert _ ht hmin hmax ih => exact ih.insert ht hmin hmax
  | increase _ ih => exact ih.increase

theorem Later.descending (h : Later new q n q') (hq : Descending q) : Descending q' := by
  induction h with
  | refl => exact hq
  | delete t _ ih => exact ih.sublist List.eraseP_sublist
  | insert _ _ _ _ ih =>
    rw [Pq.insert_eq_place ih]
    exact ih.place _ _
  | increase _ ih => exact ih.increase

theorem Later.floor (h : Later new q n q') (hq : ∀ e ∈ q, prioMin ≤ e.2) :
    ∀ e ∈ q', prioMin ≤ e.2 := by
  induction h with
  | refl => exact hq
  | delete t _ ih => exact fun e he => ih e (List.eraseP_sublist.subset he)
  | insert _ _ hmin _ ih =>
    intro e he
    rcases List.mem_cons.mp (Pqueue.insert_perm_cons.mem_iff.mp he) with rfl | he
    · exact hmin
    · exact ih e he
  | increase _ ih =>
    intro e he
    obtain ⟨e, he', rfl⟩ := List.mem_map.mp he
    exact (ih e he').trans (Int.le_add_one le_rfl)

theorem Later.raised (h : Later new q n q') (ht : ¬ new t) (hq : ∀ x, (t, x) ∈ q → p ≤ x) :
    ∀ x, (t, x) ∈ q' → p + n ≤ x := by
  induction h with
  | refl => simpa using hq
  | delete u _ ih => exact fun x hx => ih x (List.eraseP_sublist.subset hx)
  | insert _ hu _ _ ih =>
    intro x hx
    rcases List.mem_cons.mp (Pqueue.insert_perm_cons.mem_iff.mp hx) with he | hx
    · cases he
      exact absurd hu ht
    · exact ih x hx
  | @increase n q' _ ih =>
    intro x hx
    obtain ⟨e, he, hex⟩ := List.mem_map.mp hx
    cases hex
    rw [Nat.cast_add, ← add_assoc]
    exact Int.add_le_add_right (ih e.2 he) 1

theorem insert_append (h : ∀ e ∈ pre, prio ≤ e.2) :
    Pqueue.insert (pre ++ post) prio u = pre ++ Pqueue.insert post prio u := by
  induction pre with
  | nil => rfl
  | cons e pre ih =>
    have he : ¬ e.2 < prio := not_lt.mpr (h e (by simp))
    rw [List.cons_append, Pqueue.insert, if_neg he, ih fun e' he' => h e' (by simp [he']),
      List.cons_append]

theorem ahead_append (ht : t ∉ pre.members) : ahead (pre ++ (t, p) :: post) t = pre.members := by
  unfold ahead
  rw [Pq.members_append, List.takeWhile_append_of_pos]
  · simp
  · intro u hu
    have hne : u ≠ t := fun he => ht (he ▸ hu)
    simpa using hne

theorem delete_around (hu : u ≠ t) (ha : Aged ts t pre p post) :
    ∃ pre' post', Pqueue.delete (pre ++ (t, p) :: post) u = pre' ++ (t, p) :: post' ∧
      Aged ts t pre' p post' := by
  have hsub : ∀ q : Pqueue, List.Sublist (q.delete u).members q.members := fun _ =>
    List.eraseP_sublist.map Prod.fst
  have htu : Pqueue.delete ((t, p) :: post) u = (t, p) :: post.delete u :=
    List.eraseP_cons_of_neg (by simpa using hu.symm)
  unfold Pqueue.delete at htu ⊢
  rw [List.eraseP_append]
  split
  · refine ⟨pre.delete u, post, rfl, ha.prio, ?_, (hsub pre).trans ha.sublist, ?_, ha.notMem_post⟩
    · exact fun e he => ha.front e (List.eraseP_sublist.subset he)
    · exact fun hm => ha.notMem_pre ((hsub pre).subset hm)
  · rw [htu]
    refine ⟨pre, post.delete u, rfl, ha.prio, ha.front, ha.sublist, ha.notMem_pre, ?_⟩
    exact fun hm => ha.notMem_post ((hsub post).subset hm)

theorem insert_behind (hu : u ≠ t) (hmax : prio ≤ prioMax + 1) (ha : Aged ts t pre p post) :
    Pqueue.insert (pre ++ (t, p) :: post) prio u = pre ++ (t, p) :: Pqueue.insert post prio u ∧
      Aged ts t pre p (Pqueue.insert post prio u) := by
  have hp : ¬ p < prio := not_lt.mpr (hmax.trans ha.prio)
  constructor
  · rw [insert_append fun e he => hmax.trans (ha.front e he), Pqueue.insert, if_neg hp]
  · refine ⟨ha.prio, ha.front, ha.sublist, ha.notMem_pre, fun hm => ?_⟩
    rcases Pqueue.mem_insert.mp hm with he | hm
    · exact hu he.symm
    · exact ha.notMem_post hm

theorem Aged.increase (ha : Aged ts t pre p post) :
    Aged ts t pre.increase (p + 1) post.increase := by
  refine ⟨ha.prio.trans (Int.le_add_one le_rfl), ?_, ?_, ?_, ?_⟩
  · intro e he
    obtain ⟨e, he', rfl⟩ := List.mem_map.mp he
    exact (ha.front e he').trans (Int.le_add_one le_rfl)
  · rw [Pqueue.members_increase]
    exact ha.sublist
  · rw [Pqueue.members_increase]
    exact ha.notMem_pre
  · rw [Pqueue.members_increase]
    exact ha.notMem_post

theorem Later.aged (h : Later new (pre ++ (t, p) :: post) n q') (ht : ¬ new t)
    (ha : Aged ts t pre p post) :
    t ∉ q'.members ∨ ∃ pre' post', q' = pre' ++ (t, p + n) :: post' ∧ Aged ts t pre' (p + n) post' := by
  induction h with
  | refl => exact .inr ⟨pre, post, by simp, by simpa using ha⟩
  | delete u _ ih =>
    rcases ih with hnot | ⟨pre', post', rfl, ha'⟩
    · exact .inl fun hm => hnot ((List.eraseP_sublist.map Prod.fst).subset hm)
    · by_cases hu : u = t
      · subst hu
        rw [Pq.delete_append ha'.notMem_pre, Pq.members_append, List.mem_append, not_or]
        exact .inl ⟨ha'.notMem_pre, ha'.notMem_post⟩
      · exact .inr (delete_around hu ha')
  | @insert n q' u prio _ hu _ hmax ih =>
    have hne : u ≠ t := fun he => ht (he ▸ hu)
    rcases ih with hnot | ⟨pre', post', rfl, ha'⟩
    · refine .inl fun hm => ?_
      rcases Pqueue.mem_insert.mp hm with he | hm
      · exact hne he.symm
      · exact hnot hm
    · obtain ⟨heq, ha''⟩ := insert_behind hne hmax ha'
      exact .inr ⟨pre', _, heq, ha''⟩
  | @increase n q' _ ih =>
    rcases ih with hnot | ⟨pre', post', rfl, ha'⟩
    · exact .inl (by rwa [Pqueue.members_increase])
    · refine .inr ⟨pre'.increase, Pqueue.increase post', ?_, ?_⟩
      · simp [Pqueue.increase, add_assoc]
      · rw [Nat.cast_add, ← add_assoc]
        exact ha'.increase

theorem exists_aged (hq : Descending q) (hn : q.members.Nodup) (ht : t ∈ q.members)
    (hp : ∀ x, (t, x) ∈ q → prioMax + 1 ≤ x) :
    ∃ pre p post, q = pre ++ (t, p) :: post ∧ Aged (ahead q t) t pre p post := by
  obtain ⟨⟨t, p⟩, he, rfl⟩ := List.mem_map.mp ht
  obtain ⟨pre, post, rfl⟩ := List.append_of_mem he
  rw [Pq.members_append, List.nodup_append, Pqueue.members_cons, List.nodup_cons] at hn
  have hpre : t ∉ Pqueue.members pre := fun hm => hn.2.2 t hm t (by simp) rfl
  refine ⟨pre, p, post, rfl, hp p (by simp), ?_, ?_, hpre, hn.2.1.1⟩
  · intro e he
    exact (hp p (by simp)).trans ((List.pairwise_append.mp hq).2.2 e he (t, p) (by simp))
  · rw [ahead_append hpre]

end

/-! ### What the steps do to the ready queue -/

def Kept (new : Tid → Prop) (s s' : State) : Prop := Later new (s.queue .rq) 0 (s'.queue .rq)

section
variable {new : Tid → Prop}

theorem Kept.refl : Kept new s s := Later.refl

theorem Kept.of_queue (h : s'.queue = s.queue) : Kept new s s' := by
  unfold Kept
  rw [h]
  exact .refl

theorem Kept.trans (h : Kept new s₁ s₂) (h' : Kept new s₂ s₃) : Kept new s₁ s₃ := Later.trans h h'

theorem Kept.dequeue : Kept new s (s.dequeue n t) := by
  by_cases hn : n = .rq
  · subst hn
    exact Later.refl.delete t
  · have hq : (s.dequeue n t).queue .rq = s.queue .rq := update_of_ne (Ne.symm hn) _ _
    unfold Kept
    rw [hq]
    exact .refl

theorem Kept.enqueue (h : n = .rq → new t ∧ prioMin ≤ prio ∧ prio ≤ prioMax + 1) :
    Kept new s (s.enqueue n prio t) := by
  by_cases hn : n = .rq
  · subst hn
    obtain ⟨ht, hmin, hmax⟩ := h rfl
    exact Later.refl.insert ht hmin hmax
  · have hq : (s.enqueue n prio t).queue .rq = s.queue .rq := update_of_ne (Ne.symm hn) _ _
    unfold Kept
    rw [hq]
    exact .refl

theorem Kept.reap : Kept new s (reap s t) := by
  have hd : Kept new s (s.dequeue .dq t) := .dequeue
  unfold Sched.reap
  split
  · exact hd
  · exact .refl

/-- Where no thread is favoured, nothing but a resumed thread is inserted. -/
theorem Kept.edits (hk : .favor ∉ ks)
    (hsq : .resume ∈ ks → .suspend ∉ ks ∧ (t ∈ s.members .sq → new t)) (he : Edits t ks s s') :
    Kept new s s' := by
  refine (he.rule (P := fun s₁ => Kept new s s₁ ∧ (.resume ∈ ks → t ∈ s₁.members .sq → new t))
    ⟨.refl, fun hr => (hsq hr).2⟩ fun {s₁ _ _} hks he h => ⟨h.1.trans ?_, fun hr ht => ?_⟩).1
  · cases he with
    | suspend => exact Kept.dequeue.trans (.enqueue nofun)
    | resume _ ht => exact Kept.dequeue.trans (.enqueue fun _ => ⟨h.2 hks ht, by decide, by decide⟩)
    | lose => exact .dequeue
    | favor => exact absurd hks hk
    | @clean q =>
      have hd : Kept new s₁ (s₁.dequeue q t) := .dequeue
      exact hd
    | bury => exact .reap
    | mark | force | blame => exact .refl
  · cases he with
    | suspend => exact absurd hks (hsq hr).1
    | resume _ hm | lose _ hm => exact h.2 hks hm
    | favor => exact absurd hks hk
    | clean => exact h.2 hr (members_dequeue_subset ht)
    | bury =>
      refine h.2 hr ?_
      unfold Sched.reap at ht
      split at ht <;> exact ht
    | mark | force | blame => exact h.2 hr ht

theorem Kept.bury (he : Edit t s .bury s') : Kept new s s' := by
  cases he with
  | bury => exact .reap
  | blame => exact .refl

theorem Kept.joinEnd : Kept new s (joinEnd s tid).1 := by
  rcases (joinEnd_edit : (Sched.joinEnd s tid).1 = s ∨ _) with h | ⟨t, -, he⟩
  · rw [h]
    exact .refl
  · exact .bury he

theorem Kept.cancelDone : Kept new s (cancelDone s t) := by
  unfold Sched.cancelDone
  dsimp only
  split
  · exact .refl
  · exact Kept.enqueue nofun

theorem Kept.drainMsg (hm : m.kind ≠ .favor) (hsq : ∀ t ∈ s.members .sq, new t) :
    Kept new s (drainMsg s m) := by
  have hd := drainMsg_drains s m
  generalize Sched.drainMsg s m = s' at hd ⊢
  cases hd with
  | same | wake | stop => exact .refl
  | spawn => exact Kept.enqueue nofun
  | reap => exact .reap
  | bury _ _ he => exact .bury he
  | @edits t _ _ he =>
    refine .edits ?_ ?_ he
    · cases hk : m.kind <;> simp_all [msgEdits, abortEdits]
    · cases hk : m.kind <;> simp_all [msgEdits, abortEdits]

/-! ### Calls -/

theorem Kept.calls (hsq : ∀ t ∈ s.members .sq, new t) (hs : Calls s cur o s') :
    Kept new s s' := by
  cases hs with
  | edits _ he =>
    refine .edits Op.edits_favor (fun hr => ?_) he
    obtain ⟨u, rfl⟩ := Op.edits_resume hr
    exact ⟨by simp [Op.edits], hsq _⟩
  | bury _ he => exact .bury he
  | @spawn => exact Kept.enqueue (by rintro ⟨⟩)
  | event hn => exact .of_queue (SameThreads.newEvent hn).queue
  | same | eventFree | cancelState => exact .refl

theorem pthWait_queue : (pthWait s cur ring k).queue = s.queue :=
  (SameThreads.markPending s ring).queue

theorem pthDie_queue : (pthDie cfg s cur).queue = s.queue := by
  unfold pthDie
  split <;> rfl

theorem Acked.queue (h : Acked s cur s₁) : s₁.queue = s.queue := by
  cases h <;> rfl

theorem Kept.call (hsq : ∀ t ∈ s.members .sq, new t) (ho : o.favours s = false)
    (hs : CallStep cfg s o s') : Kept new s s' := by
  cases hs with
  | calls _ _ hc => exact .calls hsq hc
  | wait => exact .of_queue pthWait_queue
  | join _ _ hn => exact .of_queue (pthWait_queue.trans (SameThreads.newEvent hn).queue)
  | yield _ _ hf =>
    rcases hf with rfl | hf
    · exact .refl
    · cases ho.symm.trans hf
  | exitWait _ _ _ ha _ hn =>
    exact .of_queue (pthWait_queue.trans ((SameThreads.newEvent hn).queue.trans ha.queue))
  | exit _ _ ha => exact .of_queue ha.queue
  | die => exact .of_queue pthDie_queue
  | @joined cur => exact Kept.joinEnd (s := s.setTcb cur ({ · with events := [], pc := .app }))
  | exitReturned => exact .of_queue (SameThreads.freeEvents _ _).queue
  | handlerDied _ _ ha => exact .of_queue (pthDie_queue.trans ha.queue)
  | ack | returned => exact .refl

/-! ### The scheduler -/

theorem Kept.promoteTail (hf : cfg.favournew = false) (ht : new t) :
    Kept new s (promoteTail cfg s t) := by
  unfold Sched.promoteTail
  dsimp only
  rw [hf, if_neg (by decide)]
  exact Kept.enqueue fun _ =>
    ⟨ht, by decide, by decide⟩

theorem Kept.promoteNew (hf : cfg.favournew = false) (k : Nat) (hnq : ∀ t ∈ s.members .nq, new t) :
    Kept new s (promoteNew cfg k s) := by
  induction k generalizing s with
  | zero => exact .refl
  | succ k ih =>
    unfold Sched.promoteNew
    split
    · exact .refl
    · rename_i t ht
      refine (Kept.promoteTail hf (hnq t (List.mem_of_getLast? ht))).trans (ih fun u hu => hnq u ?_)
      have hsame : (Sched.promoteTail cfg s t).members .nq = (s.dequeue .nq t).members .nq := rfl
      rw [hsame] at hu
      exact members_dequeue_subset hu

theorem mem_promoteNew (k : Nat) (h : u ∈ s.members .rq) :
    u ∈ (promoteNew cfg k s).members .rq := by
  induction k generalizing s with
  | zero => exact h
  | succ k ih =>
    unfold promoteNew
    split
    · exact h
    · rename_i t _
      have hrq : (s.dequeue .nq t).members .rq = s.members .rq := rfl
      exact ih (mem_members_enqueue.mpr (.inr (hrq ▸ h)))

/-- The thread that is dispatched is the first one, behind the promotion of new threads. -/
theorem schedule_run (h : (schedule cfg s).ctl = .run u) :
    ∃ p, (promoteNew cfg (s.elements .nq) s).queue .rq = (u, p) :: (schedule cfg s).queue .rq := by
  unfold schedule at h ⊢
  dsimp only at h ⊢
  split at h
  · rename_i t p rq hq
    cases h
    exact ⟨p, by simp [hq]⟩
  · split at h
    · cases h
    · split at h <;> cases h

theorem Kept.schedule (hf : cfg.favournew = false) (hnq : ∀ t ∈ s.members .nq, new t) :
    Kept new s (schedule cfg s) := by
  refine (Kept.promoteNew hf (s.elements .nq) hnq).trans ?_
  unfold Sched.schedule
  dsimp only
  split
  · rename_i t p rq hq
    have hpop : Pqueue.delete ((t, p) :: rq) t = rq := List.eraseP_cons_of_pos (by simp)
    have hdel : Later new ((t, p) :: rq) 0 (Pqueue.delete ((t, p) :: rq) t) := Later.refl.delete t
    rw [hpop] at hdel
    simpa [Kept, hq] using hdel
  · split
    · exact .refl
    · split <;> exact .refl

theorem later_putBack (ht : new t) (hmin : prioMin ≤ (s.tcb t).prio)
    (hmax : (s.tcb t).prio ≤ prioMax) :
    Later new (s.queue .rq) 1 ((putBack s t).queue .rq) := by
  have hinc : Later new (s.queue .rq) 1 (s.queue .rq).increase := Later.refl.increase
  unfold putBack
  split
  · split
    · simpa [State.enqueue] using hinc
    · simpa [tcbFree, State.setTcb] using hinc
  · simpa [State.enqueue] using hinc
  · simpa [State.enqueue] using hinc.insert ht hmin (hmax.trans (Int.le_add_one le_rfl))

theorem comeBack_queue : (comeBack cfg s t).queue = (putBack s t).queue := by
  unfold comeBack
  dsimp only
  repeat' split
  all_goals rfl

variable {late : EventId → Option Status}

theorem Kept.cleanupThread (ht : new t)
    (hmin : prioMin ≤ (s.tcb t).prio) (hmax : (s.tcb t).prio ≤ prioMax) :
    Kept new s (cleanupThread late s t) := by
  have hlate : SameThreads s ((s.tcb t).events.foldl (lateEvent late) s) :=
    .foldl SameThreads.lateEvent _ _
  unfold Sched.cleanupThread
  dsimp only
  rw [hlate.tcb]
  generalize (s.tcb t).events.foldl (lateEvent late) s = s₁ at hlate ⊢
  split
  · have hd : Kept new s₁ (s₁.dequeue .wq t) := .dequeue
    have hin : Kept new (s₁.dequeue .wq t)
        (((s₁.dequeue .wq t).setTcb t ({ · with state := .ready })).enqueue .rq ((s.tcb t).prio + 1) t) :=
      Kept.enqueue fun _ =>
        ⟨ht, hmin.trans (Int.le_add_one le_rfl), Int.add_le_add_right hmax 1⟩
    exact (Kept.of_queue hlate.queue).trans (hd.trans hin)
  · exact .of_queue hlate.queue

theorem cleanupThread_prio : ((cleanupThread late s t).tcb u).prio = (s.tcb u).prio := by
  have hlate : SameThreads s ((s.tcb t).events.foldl (lateEvent late) s) :=
    .foldl SameThreads.lateEvent _ _
  unfold cleanupThread
  dsimp only
  split
  · by_cases hu : u = t
    · subst hu
      simp [State.enqueue, State.setTcb, State.dequeue, hlate.tcb]
    · simp [State.enqueue, State.setTcb, State.dequeue, hlate.tcb, hu]
  · rw [hlate.tcb]

theorem Kept.cleanupThreads {ts : List Tid}
    (h : ∀ t ∈ ts, new t ∧ prioMin ≤ (s.tcb t).prio ∧ (s.tcb t).prio ≤ prioMax) :
    Kept new s (ts.foldl (Sched.cleanupThread late) s) := by
  induction ts generalizing s with
  | nil => exact .refl
  | cons t ts ih =>
    obtain ⟨ht, hmin, hmax⟩ := h t (by simp)
    refine (Kept.cleanupThread ht hmin hmax).trans (ih fun u hu => ?_)
    rw [cleanupThread_prio]
    exact h u (by simp [hu])

end

/-! ### Runs -/

/-- A step that moves a thread to the top of its queue. -/
def favours (s : State) : Act → Bool
  | .op o => o.favours s
  | .msg => s.ctl.batch.head?.any (·.kind = .favor)
  | _ => false

/-- No thread is favoured, and the priorities of all threads are those of the manual. -/
def plain (s : State) (a : Act) : Bool :=
  !favours s a && (places s).all fun t => prioMin ≤ (s.tcb t).prio && (s.tcb t).prio ≤ prioMax

def plainSystem (cfg : Config) : System State Act := (system cfg).restrict fun s a => plain s a = true

/-- The calls of `pth_pqueue_increase` in a step. -/
def Act.increases : Act → Nat
  | .back => 1
  | _ => 0

/-- A stretch of a run throughout which `t` is ready, with `n` calls of
`pth_pqueue_increase`. -/
inductive Stays (cfg : Config) (t : Tid) (s : State) : Nat → State → Prop
  | refl (ht : t ∈ s.members .rq) : Stays cfg t s 0 s
  | step {n : Nat} {s' s'' : State} {a : Act} (h : Stays cfg t s n s')
      (hs : (plainSystem cfg).step s' a s'') (ht : t ∈ s''.members .rq) :
      Stays cfg t s (n + a.increases) s''

section
variable {cfg : Config}

theorem plain_prio (h : plain s a = true) (ht : t ∈ places s) :
    prioMin ≤ (s.tcb t).prio ∧ (s.tcb t).prio ≤ prioMax := by
  simp only [plain, Bool.and_eq_true, List.all_eq_true, decide_eq_true_eq] at h
  exact h.2 t ht

theorem plain_favours (h : plain s a = true) : favours s a = false := by
  simp only [plain, Bool.and_eq_true, Bool.not_eq_true'] at h
  exact h.1

theorem Placed.notMem_rq (h : Placed False none s) (hc : c ≠ .queue .rq)
    (ht : t ∈ spots s c) : t ∉ s.members .rq := fun hm =>
  hc (h.linear.unique ht (show t ∈ spots s (.queue .rq) from hm))

theorem later_step (hf : cfg.favournew = false) (hr : Reachable (plainSystem cfg) s)
    (hs : (plainSystem cfg).step s a s') :
    Later (· ∉ s.members .rq) (s.queue .rq) a.increases (s'.queue .rq) := by
  obtain ⟨ha, hs⟩ := hs
  obtain ⟨-, hx, -⟩ := exec_step hs
  have hp := (placed_of_reachable hr.of_restrict).resolve_left hx
  have hsq : ∀ t ∈ s.members .sq, t ∉ s.members .rq := fun t ht =>
    hp.notMem_rq (c := .queue .sq) (by decide) ht
  have hmsg : ∀ {m batch}, s.ctl.batch = m :: batch → a = .msg →
      ∀ c, Kept (· ∉ s.members .rq) s (drainMsg { s with ctl := c } m) := by
    rintro m batch hb rfl c
    have hk : m.kind ≠ .favor := by
      intro hk
      have := plain_favours ha
      simp [favours, hb, hk] at this
    exact Kept.drainMsg (s := { s with ctl := c }) hk hsq
  obtain ⟨o, rfl, hst⟩ | ⟨hop, hst⟩ := exec_cases hs
  · exact Kept.call hsq (plain_favours ha) hst
  cases hst with
  | @cleaned _ rest => exact Kept.cancelDone (s := { s with cleaning := rest })
  | sched => exact Kept.schedule hf fun t ht => hp.notMem_rq (c := .queue .nq) (by decide) ht
  | @back t _ hc =>
    have ht : t ∈ spots s .back := by simp [spots, hc, Ctl.returning]
    obtain ⟨hmin, hmax⟩ := plain_prio ha (t := t) (by simp [places, hc, Ctl.returning])
    rw [comeBack_queue]
    exact later_putBack (hp.notMem_rq (by decide) ht) hmin hmax
  | msg _ hc | remsg _ hc => exact hmsg (by rw [hc]; rfl) rfl _
  | scan => exact Kept.of_queue SameThreads.scanQueue.queue
  | @finish dopoll timer rc0 late =>
    have hsame : SameThreads s (timerBranch s dopoll timer rc0).1 := .timerBranch
    have hclean : Kept (· ∉ s.members .rq) (timerBranch s dopoll timer rc0).1
        (cleanupLoop late (timerBranch s dopoll timer rc0).1) := by
      refine Kept.cleanupThreads fun t ht => ?_
      have hw : t ∈ s.members .wq := by
        rw [State.members, hsame.queue] at ht
        exact ht
      rw [hsame.tcb]
      exact ⟨hp.notMem_rq (c := .queue .wq) (by decide) hw, plain_prio ha (by simp [places, hw])⟩
    exact (Kept.of_queue hsame.queue).trans hclean
  | post | spawnOn | tick | take | retake | drained | redrained | woken => exact .refl
  | _ => exact absurd rfl (hop _)

structure Ordered (s : State) : Prop where
  descending : Descending (s.queue .rq)
  floor : ∀ e ∈ s.queue .rq, prioMin ≤ e.2

theorem ordered_of_reachable (hf : cfg.favournew = false) (h : Reachable (plainSystem cfg) s) :
    Ordered s := by
  refine h.invariant_of_reachable ?_ ?_
  · intro s hi
    have hq : s.queue .rq = [] := Initial.queues hi .rq (by decide)
    exact ⟨by rw [hq]; exact .nil, by simp [hq]⟩
  · intro s a s' hr hI hs
    have hl := later_step hf hr hs
    exact ⟨hl.descending hI.descending, hl.floor hI.floor⟩

theorem Stays.mem (h : Stays cfg t s n s') : t ∈ s'.members .rq := by
  cases h with
  | refl ht => exact ht
  | step _ _ ht => exact ht

theorem Stays.reachable (h : Stays cfg t s n s') (hr : Reachable (plainSystem cfg) s) :
    Reachable (plainSystem cfg) s' := by
  induction h with
  | refl => exact hr
  | step _ hs _ ih => exact .step ih hs

variable {p : Int}

theorem Stays.raised (hf : cfg.favournew = false) (hr : Reachable (plainSystem cfg) s)
    (h : Stays cfg t s n s') (hp : ∀ x, (t, x) ∈ s.queue .rq → p ≤ x) :
    ∀ x, (t, x) ∈ s'.queue .rq → p + n ≤ x := by
  induction h with
  | refl => simpa using hp
  | step h hs _ ih =>
    have hl := later_step hf (h.reachable hr) hs
    have := hl.raised (not_not.mpr h.mem) ih
    simpa [add_assoc] using this

theorem Stays.aged {post : Pqueue} (hf : cfg.favournew = false)
    (hr : Reachable (plainSystem cfg) s) (h : Stays cfg t s n s')
    (hq : s.queue .rq = pre ++ (t, p) :: post) (ha : Aged ts t pre p post) :
    ∃ pre' p' post', s'.queue .rq = pre' ++ (t, p') :: post' ∧ Aged ts t pre' p' post' := by
  induction h with
  | refl => exact ⟨pre, p, post, hq, ha⟩
  | step h hs ht ih =>
    obtain ⟨pre', p', post', hq', ha'⟩ := ih
    have hl := later_step hf (h.reachable hr) hs
    rw [hq'] at hl
    rcases hl.aged (not_not.mpr h.mem) ha' with hnot | ⟨pre'', post'', hq'', ha''⟩
    · exact absurd ht hnot
    · exact ⟨pre'', _, post'', hq'', ha''⟩

theorem step_not_exited (hs : (plainSystem cfg).step s a s') : s.ctl ≠ .exited :=
  (exec_step hs.2).2.1

theorem Stays.not_exited (h : Stays cfg t s n s') (hx : s'.ctl ≠ .exited) : s.ctl ≠ .exited := by
  induction h with
  | refl => exact hx
  | step _ hs _ ih => exact ih (step_not_exited hs)

theorem dispatched {post : Pqueue} (hf : cfg.favournew = false)
    (hr : Reachable (plainSystem cfg) s) (hs : (plainSystem cfg).step s .sched s')
    (hq : s.queue .rq = pre ++ (t, p) :: post) (ha : Aged ts t pre p post) (hu : s'.ctl = .run u) :
    u = t ∨ u ∈ ts := by
  obtain ⟨-, hs⟩ := hs
  obtain ⟨-, hx, hstep⟩ := exec_step hs
  have hp := (placed_of_reachable hr.of_restrict).resolve_left hx
  cases hstep with
  | sched =>
  obtain ⟨x, hhead⟩ := schedule_run hu
  -- the threads from the new queue are behind `t`
  have hk : Kept (· ∉ s.members .rq) s (promoteNew cfg (s.elements .nq) s) :=
    .promoteNew hf _ fun t ht => hp.notMem_rq (c := .queue .nq) (by decide) ht
  have ht : t ∈ s.members .rq := by simp [State.members, hq]
  have hmem : t ∈ ((promoteNew cfg (s.elements .nq) s).queue .rq).members := mem_promoteNew _ ht
  unfold Kept at hk
  rw [hq] at hk
  rcases hk.aged (not_not.mpr ht) ha with hnot | ⟨pre', post', hq', ha'⟩
  · exact absurd hmem hnot
  · rw [hq'] at hhead
    cases pre' with
    | nil =>
      cases hhead
      exact .inl rfl
    | cons e =>
      have he : e = (u, x) := (List.cons.inj hhead).1
      exact .inr (ha'.sublist.subset (by simp [he]))

end

theorem ageing_bounds_overtaking {cfg : Config} (hf : cfg.favournew = false) {t : Tid}
    {s s₁ s₂ s₃ : State} {n m : Nat} {a : Act} (hr : Reachable (plainSystem cfg) s)
    (h₁ : Stays cfg t s n s₁) (hn : 11 ≤ n) (h₂ : Stays cfg t s₁ m s₂)
    (hs : (plainSystem cfg).step s₂ a s₃) :
    List.Sublist (ahead (s₂.queue .rq) t) (ahead (s₁.queue .rq) t) ∧
      (t ∈ s₃.members .rq →
        ∀ u ∈ s₃.members .rq, u ∉ s₂.members .rq → u ∉ ahead (s₃.queue .rq) t) ∧
      ∀ u, a = .sched → s₃.ctl = .run u → u = t ∨ u ∈ ahead (s₁.queue .rq) t := by
  have hr₁ := h₁.reachable hr
  have hr₂ := h₂.reachable hr₁
  have hp₁ := (placed_of_reachable hr₁.of_restrict).resolve_left (h₂.not_exited (step_not_exited hs))
  have hold : ∀ x, (t, x) ∈ s₁.queue .rq → prioMax + 1 ≤ x := by
    intro x hx
    have hfloor := (ordered_of_reachable hf hr).floor
    have hraised := h₁.raised hf hr (fun x hx => hfloor (t, x) hx) x hx
    have hlevel : prioMax + 1 = prioMin + 11 := rfl
    omega
  obtain ⟨pre₁, p₁, post₁, hq₁, ha₁⟩ :=
    exists_aged (ordered_of_reachable hf hr₁).descending (hp₁.linear.nodup (.queue .rq)) h₁.mem hold
  obtain ⟨pre₂, p₂, post₂, hq₂, ha₂⟩ := h₂.aged hf hr₁ hq₁ ha₁
  have hahead₂ : ahead (s₂.queue .rq) t = pre₂.members := by
    rw [hq₂, ahead_append ha₂.notMem_pre]
  refine ⟨hahead₂ ▸ ha₂.sublist, fun ht u _ hnew hu => ?_, ?_⟩
  · have hl := later_step hf hr₂ hs
    rw [hq₂] at hl
    rcases hl.aged (not_not.mpr h₂.mem) { ha₂ with sublist := .refl _ } with hnot | ⟨pre₃, post₃, hq₃, ha₃⟩
    · exact hnot ht
    · rw [hq₃, ahead_append ha₃.notMem_pre] at hu
      refine hnew ?_
      rw [State.members, hq₂, Pq.members_append]
      exact List.mem_append_left _ (ha₃.sublist.subset hu)
  · rintro u rfl hu
    exact dispatched hf hr₂ hs hq₂ ha₂ hu

/-! ### A schedule -/

def execReady (cfg : Config) (t : Tid) (s : State) (a : Act) : Option State :=
  (execIf cfg plain s a).filter (t ∈ ·.members .rq)

theorem execIf_plain (h : execIf cfg plain s a = some s') :
    (plainSystem cfg).step s a s' := by
  unfold execIf at h
  split at h
  case isTrue hok => exact ⟨hok, h⟩
  case isFalse => cases h

theorem Stays.of_foldlM {acts : List Act}
    (h : Stays cfg t s n s₁) (hs : acts.foldlM (execReady cfg t) s₁ = some s₂) :
    Stays cfg t s (n + (acts.map Act.increases).sum) s₂ := by
  induction acts generalizing n s₁ with
  | nil =>
    cases hs
    exact h
  | cons a acts ih =>
    rw [List.foldlM_cons, Option.bind_eq_bind, Option.bind_eq_some_iff] at hs
    obtain ⟨s', ha, hs⟩ := hs
    obtain ⟨hexec, ht⟩ := Option.filter_eq_some_iff.mp ha
    have := ih (h.step (execIf_plain hexec) (by simpa using ht)) hs
    rwa [add_assoc] at this

def quietConfig : Config := ⟨some 0, false, .poll⟩

def prioAttr (prio : Int) : Attr := ⟨prio, true, true, true⟩

def startSchedule : List Act :=
  [.sched, .op (.spawn 1 (prioAttr 5)), .op (.spawn 2 (prioAttr 5)), .op (.spawn 3 (prioAttr 5)),
    .op (.yield none), .back]

def turn : List Act := idlePass ++ [.sched, .op (.yield none), .back]

theorem ageing_bounds_overtaking_lowest :
    ∃ s s₁ s₂ s₃ u, Reachable (plainSystem quietConfig) s ∧ Stays quietConfig 0 s 11 s₁ ∧
      s₁.members .rq = [2, 0, 1, 3] ∧ Stays quietConfig 0 s₁ 0 s₂ ∧
      (plainSystem quietConfig).step s₂ .sched s₃ ∧ s₃.ctl = .run u ∧ (u = 0 ∨ u ∈ [2]) := by
  have hrun : (startSchedule.foldlM (execIf quietConfig plain) (boot quietConfig.main (prioAttr (-5)))).any
      (fun s => 0 ∈ s.members .rq &&
        ((List.replicate 11 turn).flatten.foldlM (execReady quietConfig 0) s).any fun s₁ =>
          s₁.members .rq = [2, 0, 1, 3] &&
          (idlePass.foldlM (execReady quietConfig 0) s₁).any fun s₂ =>
            (execIf quietConfig plain s₂ .sched).any fun s₃ => s₃.ctl = .run 2) = true := by
    decide +kernel
  simp only [Option.any_eq_true, Bool.and_eq_true, decide_eq_true_eq] at hrun
  obtain ⟨s, hs, hmem, s₁, hs₁, hrq, s₂, hs₂, s₃, hs₃, hctl⟩ := hrun
  have hr : Reachable (plainSystem quietConfig) s :=
    Reachable.of_foldlM (fun _ _ _ => execIf_plain) (.init boot_initial) hs
  have h₁ := (Stays.refl hmem : Stays quietConfig 0 s 0 s).of_foldlM hs₁
  have h₂ := (Stays.refl h₁.mem : Stays quietConfig 0 s₁ 0 s₁).of_foldlM hs₂
  obtain ⟨-, -, hu⟩ :=
    ageing_bounds_overtaking rfl hr h₁ (by decide) h₂ (execIf_plain hs₃)
  have hahead : ahead (s₁.queue .rq) 0 = [2] := by
    rw [State.members] at hrq
    rw [ahead, hrq]
    rfl
  exact ⟨s, s₁, s₂, s₃, 2, hr, h₁, hrq, h₂, execIf_plain hs₃, hctl, hahead ▸ hu 2 rfl hctl⟩

end GnuPth.Sched
