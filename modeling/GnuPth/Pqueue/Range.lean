import GnuPth.Pqueue.Refines

/-!
# The range of priorities

`pth_attr_set` stores any `int` as the priority of a thread; only
`pthread_attr_setprio_np` checks it. The event manager adds one to it, the
queues compute differences of such values, and ageing and favouring raise what
is in a queue without a limit. With priorities between `PTH_PRIO_MIN` and
`PTH_PRIO_MAX`, what is computed grows by one with each of the latter at most.
-/

namespace GnuPth.Pq

open Function (update)

variable {ι : Type} [DecidableEq ι]

/-! ### The uses of the queues -/

/-- What the rest of the library does with the queues. A thread is inserted with its
own priority (spawned, ready again, waiting), with one more (by the event manager),
with `PTH_PRIO_STD` (from the new queue, suspended, resumed, dead), or on top (from
the new queue with `favournew`). -/
inductive Act (ι : Type)
  | attrSet (t : Tid) (val : Int)
  | insertOwn (i : ι) (t : Tid)
  | insertRaised (i : ι) (t : Tid)
  | insertStd (i : ι) (t : Tid)
  | insertTop (i : ι) (t : Tid)
  | delmax (i : ι)
  | delete (i : ι) (t : Tid)
  | favorite (i : ι) (t : Tid)
  | increase (i : ι)
  deriving DecidableEq, Repr

/-- The operation on the queues; `top` is what `pth_pqueue_favorite_prio` gives. -/
def Act.op (int : Int → Int) (prio : Tid → Int) (top : ι → Int) : Act ι → Option (Op ι)
  | .attrSet _ _ => none
  | .insertOwn i t => some (.insert i (prio t) t)
  | .insertRaised i t => some (.insert i (int (prio t + 1)) t)
  | .insertStd i t => some (.insert i prioStd t)
  | .insertTop i t => some (.insert i (top i) t)
  | .delmax i => some (.delmax i)
  | .delete i t => some (.delete i t)
  | .favorite i t => some (.favorite i t)
  | .increase i => some (.increase i)

/-- `pth_attr_ctrl(PTH_ATTR_SET, .., PTH_ATTR_PRIO)` for an attribute that is bound to
a thread. -/
def Act.setPrio (prio : Tid → Int) : Act ι → Tid → Int
  | .attrSet t val => update prio t val
  | _ => prio

/-- What is computed for the call; `sum` is one more than the highest priority. -/
def Act.value (prio : Tid → Int) (sum : ι → Int) : Act ι → Option Int
  | .insertRaised _ t => some (prio t + 1)
  | .insertTop i _ => some (sum i)
  | _ => none

structure Sys (ι : Type) where
  store : Store ι
  prio : Tid → Int

def Sys.sum (s : Sys ι) (i : ι) : Int := favoriteSum s.store.links (s.store.queue i)

def Sys.top (s : Sys ι) (i : ι) : Int := favoritePrio s.store.links (s.store.queue i)

def Store.compute (s : Store ι) : Option Int → Store ι
  | none => s
  | some v => { s with links := s.links.compute v }

def Sys.act (fuel : Nat) (s : Sys ι) (a : Act ι) : Option (Sys ι) :=
  match a.op s.store.links.int s.prio s.top with
  | none => some { s with prio := a.setPrio s.prio }
  | some o =>
    (exec fuel (s.store.compute (a.value s.prio s.sum)) o).map fun r => { s with store := r.1 }

def Sys.acts (fuel : Nat) (s : Sys ι) : List (Act ι) → Option (Sys ι)
  | [] => some s
  | a :: as => do
    let s ← s.act fuel a
    s.acts fuel as

/-! ### The same with lists -/

/-- The priorities of the threads, and the queues as lists. -/
structure Model (ι : Type) where
  prio : Tid → Int
  queue : ι → Pqueue

def Model.top (m : Model ι) (i : ι) : Int := (m.queue i).favoritePrio

def Model.act (m : Model ι) (a : Act ι) : Model ι where
  prio := a.setPrio m.prio
  queue := match a.op id m.prio m.top with
    | none => m.queue
    | some o => after m.queue o

def Model.Allows (m : Model ι) (a : Act ι) : Prop := ∀ o ∈ a.op id m.prio m.top, Allowed m.queue o

def Model.acts (m : Model ι) : List (Act ι) → Model ι
  | [] => m
  | a :: as => (m.act a).acts as

def Model.AllowsAll (m : Model ι) : List (Act ι) → Prop
  | [] => True
  | a :: as => m.Allows a ∧ (m.act a).AllowsAll as

/-- The priority that is set, if one is, is one of those in the manual. -/
def Act.Regular : Act ι → Prop
  | .attrSet _ val => prioMin ≤ val ∧ val ≤ prioMax
  | _ => True

/-- By how much the priorities in the queues may rise. -/
def Act.lift : Act ι → Nat
  | .insertTop _ _ | .favorite _ _ | .increase _ => 1
  | _ => 0

/-! ### Bounds -/

def Level (n : Nat) (a : Int) : Prop := prioMin ≤ a ∧ a ≤ prioMax + 1 + n

section
variable {l : Pqueue}

theorem prio_place (h : Prio (place l prio t) a) : a = prio ∨ Prio l a := by
  simp only [Prio, place, List.map_append, List.map_cons, List.mem_append, List.mem_cons] at h
  rcases h with h | h | h
  · exact .inr ((List.filter_sublist.map Prod.snd).subset h)
  · exact .inl h
  · exact .inr ((List.filter_sublist.map Prod.snd).subset h)

theorem level_favoritePrio (h : ∀ a, Prio l a → Level n a) : Level (n + 1) l.favoritePrio := by
  cases l with
  | nil => simp [Level, Pqueue.favoritePrio, prioMin, prioMax]; omega
  | cons e =>
    obtain ⟨u, p⟩ := e
    obtain ⟨hmin, hmax⟩ := h p (by simp [Prio])
    simp only [Level, Pqueue.favoritePrio]
    omega

theorem Level.mono (h : Level n a) (hn : n ≤ n') : Level n' a := by
  obtain ⟨hmin, hmax⟩ := h
  exact ⟨hmin, by omega⟩

theorem Spans.bounded (h : Spans (Level n) v) : -(n + 11 : Int) ≤ v ∧ v ≤ n + 11 := by
  simp only [Spans, Level, prioMin, prioMax] at h
  rcases h with h | h | ⟨a, b, ha, hb, h⟩ <;> omega

end

section
variable {m : ι → Pqueue}

theorem level_update (h : ∀ j a, Prio (m j) a → Level n a) (hn : n ≤ n')
    (hl' : ∀ a, Prio l' a → Level n' a) : ∀ j a, Prio (update m i l' j) a → Level n' a := by
  intro j a ha
  by_cases hj : j = i
  · subst hj
    rw [Function.update_self] at ha
    exact hl' a ha
  · rw [Function.update_of_ne hj] at ha
    exact (h j a ha).mono hn

theorem level_insert (h : ∀ j a, Prio (m j) a → Level n a) (hn : n ≤ n') (i : ι) (t : Tid)
    (hprio : Level n' prio) : ∀ j a, Prio (after m (.insert i prio t) j) a → Level n' a := by
  apply level_update h hn
  intro a ha
  rcases prio_place ha with rfl | ha
  · exact hprio
  · exact (h i a ha).mono hn

theorem level_favorite (h : ∀ j a, Prio (m j) a → Level n a) (i : ι) (t : Tid) :
    ∀ j a, Prio (after m (.favorite i t) j) a → Level (n + 1) a := by
  have hwithout : ∀ a, Prio (without (m i) t) a → Level n a := fun a ha =>
    h i a ((List.filter_sublist.map Prod.snd).subset ha)
  apply level_update h (Nat.le_succ n)
  intro a ha
  unfold raise at ha
  split at ha
  · exact (h i a ha).mono (Nat.le_succ n)
  · rcases List.mem_cons.mp ha with rfl | ha
    · exact level_favoritePrio hwithout
    · exact (hwithout a ha).mono (Nat.le_succ n)

theorem level_increase (h : ∀ j a, Prio (m j) a → Level n a) (i : ι) :
    ∀ j a, Prio (after m (.increase i) j) a → Level (n + 1) a := by
  apply level_update h (Nat.le_succ n)
  intro a ha
  simp only [Prio, List.map_map, List.mem_map, Function.comp_apply] at ha
  obtain ⟨e, he, rfl⟩ := ha
  obtain ⟨hmin, hmax⟩ := h i e.2 (List.mem_map_of_mem he)
  exact ⟨by omega, by omega⟩

end

/-! ### Runs -/

structure InRange (n : Nat) (s : Sys ι) (m : Model ι) : Prop where
  int : ∀ v, Fits v → s.store.links.int v = v
  holds : Holds s.store m.queue
  prio : s.prio = m.prio
  own : ∀ t, prioMin ≤ m.prio t ∧ m.prio t ≤ prioMax
  level : ∀ i a, Prio (m.queue i) a → Level n a
  computed : ∀ v ∈ s.store.links.computed, -(n + 11 : Int) ≤ v ∧ v ≤ n + 11

section
variable {m : Model ι}

theorem Level.fits (h : Level n v) (hn : n + 11 < 2 ^ 31) : Fits v := by
  obtain ⟨hmin, hmax⟩ := h
  simp only [prioMin, prioMax] at hmin hmax
  exact ⟨by omega, by omega⟩

omit [DecidableEq ι] in
theorem InRange.sum (h : InRange n s m) : s.sum = m.top :=
  funext fun i => favoriteSum_eq (h.holds.represents i)

omit [DecidableEq ι] in
theorem InRange.op (h : InRange n s m) (hn : n + 11 < 2 ^ 31) (a : Act ι) :
    a.op s.store.links.int s.prio s.top = a.op id m.prio m.top := by
  have hraised : ∀ t, s.store.links.int (m.prio t + 1) = m.prio t + 1 := by
    intro t
    obtain ⟨hmin, hmax⟩ := h.own t
    have hlevel : Level n (m.prio t + 1) := ⟨by omega, by omega⟩
    exact h.int _ (hlevel.fits hn)
  have htop : s.top = m.top := by
    funext i
    have hlevel : Level (n + 1) (m.top i) := level_favoritePrio (h.level i)
    have hfits : Fits (m.top i) := by
      obtain ⟨hmin, hmax⟩ := hlevel
      simp only [prioMin, prioMax] at hmin hmax
      exact ⟨by omega, by omega⟩
    rw [Sys.top, favoritePrio, favoriteSum_eq (h.holds.represents i)]
    exact h.int _ hfits
  rw [h.prio, htop]
  cases a with
  | insertRaised i t => simp only [Act.op, hraised, id_eq]
  | _ => rfl

/-- What an operation does to the levels, and the value that is computed for it. -/
theorem InRange.level_act (h : InRange n s m) (hreg : a.Regular) :
    (∀ t, prioMin ≤ (m.act a).prio t ∧ (m.act a).prio t ≤ prioMax) ∧
      (∀ i x, Prio ((m.act a).queue i) x → Level (n + a.lift) x) ∧
      ∀ v ∈ a.value m.prio m.top, Level (n + a.lift) v := by
  have hown : ∀ t, Level n (m.prio t) := by
    intro t
    obtain ⟨hmin, hmax⟩ := h.own t
    exact ⟨hmin, by omega⟩
  have hraised : ∀ t, Level n (m.prio t + 1) := by
    intro t
    obtain ⟨hmin, hmax⟩ := h.own t
    exact ⟨by omega, by omega⟩
  cases a with
  | attrSet t val =>
    refine ⟨fun u => ?_, h.level, (by intros; contradiction)⟩
    by_cases hu : u = t
    · subst hu
      have hval : prioMin ≤ val ∧ val ≤ prioMax := hreg
      simpa [Model.act, Act.setPrio] using hval
    · simpa [Model.act, Act.setPrio, hu] using h.own u
  | insertOwn i t => exact ⟨h.own, level_insert h.level le_rfl i t (hown t), (by intros; contradiction)⟩
  | insertRaised i t =>
    refine ⟨h.own, level_insert h.level le_rfl i t (hraised t), ?_⟩
    rintro v ⟨⟩
    exact hraised t
  | insertStd i t =>
    refine ⟨h.own, level_insert h.level le_rfl i t ?_, (by intros; contradiction)⟩
    simp only [Level, prioMin, prioMax, prioStd]
    omega
  | insertTop i t =>
    have htop : Level (n + 1) (m.top i) := level_favoritePrio (h.level i)
    refine ⟨h.own, level_insert h.level (Nat.le_succ n) i t htop, ?_⟩
    rintro v ⟨⟩
    exact htop
  | delmax i =>
    refine ⟨h.own, level_update h.level le_rfl fun x hx => h.level i x ?_, (by intros; contradiction)⟩
    exact ((List.tail_sublist _).map Prod.snd).subset hx
  | delete i =>
    refine ⟨h.own, level_update h.level le_rfl fun x hx => h.level i x ?_, (by intros; contradiction)⟩
    exact (List.filter_sublist.map Prod.snd).subset hx
  | favorite i t => exact ⟨h.own, level_favorite h.level i t, (by intros; contradiction)⟩
  | increase i => exact ⟨h.own, level_increase h.level i, (by intros; contradiction)⟩

omit [DecidableEq ι] in
theorem Holds.compute {s : Store ι} {m : ι → Pqueue} (h : Holds s m) (v : Option Int) :
    Holds (s.compute v) m := by
  cases v with
  | none => exact h
  | some v => exact ⟨fun i => (h.represents i).computed _, h.descending, h.apart⟩

omit [DecidableEq ι] in
theorem mem_compute {s : Store ι} {v : Option Int} {x : Int}
    (h : x ∈ (s.compute v).links.computed) : x ∈ v ∨ x ∈ s.links.computed := by
  cases v with
  | none => exact .inr h
  | some v =>
    rcases List.mem_cons.mp h with rfl | h
    · exact .inl rfl
    · exact .inr h

theorem act_queue_none (h : a.op id m.prio m.top = none) : (m.act a).queue = m.queue := by
  rw [Model.act, h]

theorem act_queue_some (h : a.op id m.prio m.top = some o) :
    (m.act a).queue = after m.queue o := by
  rw [Model.act, h]

theorem InRange.act (h : InRange n s m) (ha : m.Allows a) (hreg : a.Regular)
    (hfuel : ∀ i, (m.queue i).length ≤ fuel) (hn : n + a.lift + 11 < 2 ^ 31) :
    ∃ s', s.act fuel a = some s' ∧ InRange (n + a.lift) s' (m.act a) := by
  obtain ⟨hown, hlevel, hvalue⟩ := h.level_act hreg
  have hold : ∀ v ∈ s.store.links.computed,
      -((n + a.lift : Nat) + 11 : Int) ≤ v ∧ v ≤ (n + a.lift : Nat) + 11 := by
    intro v hv
    have := h.computed v hv
    omega
  unfold Sys.act
  rw [h.op (by omega) a, h.prio, h.sum]
  cases hop : a.op id m.prio m.top with
  | none => exact ⟨_, rfl, h.int, act_queue_none hop ▸ h.holds, rfl, hown, hlevel, hold⟩
  | some o =>
    have hqueue := act_queue_some hop
    have haround : ∀ x, Around m.queue (after m.queue o) x → Level (n + a.lift) x := by
      rintro x ⟨i, hx | hx⟩
      · exact (h.level i x hx).mono (Nat.le_add_right _ _)
      · exact hlevel i x (hqueue ▸ hx)
    have hint : ∀ v, Fits v → (s.store.compute (a.value m.prio m.top)).links.int v = v := by
      cases a.value m.prio m.top <;> exact h.int
    have hexact : Exact (s.store.compute (a.value m.prio m.top)).links
        (Around m.queue (after m.queue o)) := by
      intro v hv
      have hbound := (hv.mono haround).bounded
      exact hint v ⟨by omega, by omega⟩
    obtain ⟨s', hs', hf⟩ := (h.holds.compute (a.value m.prio m.top)).exec (ha o hop) hfuel hexact
    simp only [hs']
    have hset : a.setPrio m.prio = m.prio := by cases a <;> first | rfl | cases hop
    refine ⟨_, rfl, ?_, hqueue ▸ hf.holds, hset.symm, hown, hlevel, fun v hv => ?_⟩
    · exact fun v hv => (congrFun hf.int v).trans (hint v hv)
    obtain ⟨vs, hvs, hspan⟩ := hf.computes
    rw [hvs] at hv
    rcases List.mem_append.mp hv with hv | hv
    · exact Spans.bounded ((hspan v hv).mono haround)
    · rcases mem_compute hv with hv | hv
      · exact Spans.bounded (.inr (.inl (hvalue v hv)))
      · exact hold v hv

theorem length_act (m : Model ι) (a : Act ι) (i : ι) :
    ((m.act a).queue i).length ≤ (m.queue i).length + 1 := by
  cases hop : a.op id m.prio m.top with
  | none =>
    rw [act_queue_none hop]
    exact Nat.le_succ _
  | some o =>
    rw [act_queue_some hop]
    exact length_after o i

def lifts (as : List (Act ι)) : Nat := (as.map Act.lift).sum

theorem InRange.acts (h : InRange n s m) (ha : m.AllowsAll as)
    (hreg : ∀ a ∈ as, a.Regular) (hfuel : ∀ i, (m.queue i).length + as.length ≤ fuel)
    (hn : n + lifts as + 11 < 2 ^ 31) :
    ∃ s', s.acts fuel as = some s' ∧ InRange (n + lifts as) s' (m.acts as) := by
  induction as generalizing s m n with
  | nil => exact ⟨s, rfl, h⟩
  | cons a as ih =>
    have hsum : n + a.lift + lifts as = n + lifts (a :: as) := by
      simp [lifts, Nat.add_assoc]
    obtain ⟨s₁, hs₁, h₁⟩ := h.act ha.1 (hreg a (by simp))
      (fun i => (Nat.le_add_right _ _).trans (hfuel i)) (by omega)
    have hfuel' : ∀ i, ((m.act a).queue i).length + as.length ≤ fuel := by
      intro i
      have hlen := length_act m a i
      have := hfuel i
      rw [List.length_cons] at this
      omega
    obtain ⟨s₂, hs₂, h₂⟩ := ih h₁ ha.2 (fun a ha => hreg a (by simp [ha])) hfuel' (by omega)
    refine ⟨s₂, by simp [Sys.acts, hs₁, hs₂], ?_⟩
    rwa [hsum] at h₂

end

theorem Represents.prio_spans
    (h : Represents k q l) (he : e ∈ l) : Spans (Prio l) (k.qPrio e.1) := by
  obtain ⟨t, v⟩ := e
  obtain ⟨l₁, l₂, rfl⟩ := List.append_of_mem he
  rcases List.eq_nil_or_concat' l₁ with rfl | ⟨l₁, ⟨c, p⟩, rfl⟩
  · rw [Represents.prio_head h]
    exact .inr (.inl (by simp [Prio]))
  · have h' : Represents k q (l₁ ++ (c, p) :: (t, v) :: l₂) := by simpa using h
    rw [h'.prio_next]
    exact .inr (.inr ⟨p, v, by simp [Prio], by simp [Prio], rfl⟩)

def Sys.start (k : Links) (prio : Tid → Int) : Sys ι :=
  ⟨⟨{ k with computed := [] }, fun _ => init⟩, prio⟩

def Model.start (prio : Tid → Int) : Model ι := ⟨prio, fun _ => []⟩

theorem priorities_fit (k : Links) (hint : ∀ v, Fits v → k.int v = v) (prio : Tid → Int)
    (as : List (Act ι)) (fuel : Nat) (ha : (Model.start prio : Model ι).AllowsAll as) (hfuel : as.length ≤ fuel)
    (hprio : ∀ t, prioMin ≤ prio t ∧ prio t ≤ prioMax) (hreg : ∀ a ∈ as, a.Regular)
    (hlifts : lifts as + 11 < 2 ^ 31) :
    ∃ s, (Sys.start k prio).acts fuel as = some s ∧
      (∀ v ∈ s.store.links.computed, Fits v) ∧
      ∀ i, Represents s.store.links (s.store.queue i) (((Model.start prio).acts as).queue i) ∧
        ∀ e ∈ ((Model.start prio).acts as).queue i, Fits e.2 ∧ Fits (s.store.links.qPrio e.1) := by
  have hstart : InRange 0 (Sys.start k prio) (Model.start prio : Model ι) :=
    ⟨hint, holds_init _, rfl, hprio, nofun, nofun⟩
  have hlen : ∀ i : ι, ((Model.start prio : Model ι).queue i).length + as.length ≤ fuel := by
    intro i
    simpa [Model.start] using hfuel
  obtain ⟨s, hs, h⟩ := hstart.acts ha hreg hlen (by omega)
  rw [Nat.zero_add] at h
  have hfits : ∀ v : Int, -(lifts as + 11 : Int) ≤ v ∧ v ≤ lifts as + 11 → Fits v := by
    intro v hv
    unfold Fits
    omega
  refine ⟨s, hs, fun v hv => hfits v (h.computed v hv), fun i => ⟨h.holds.represents i, ?_⟩⟩
  intro e he
  have hspan := ((h.holds.represents i).prio_spans he).mono (h.level i)
  have hself : Spans (Level (lifts as)) e.2 := .inr (.inl (h.level i e.2 (List.mem_map_of_mem he)))
  exact ⟨hfits _ hself.bounded, hfits _ hspan.bounded⟩

def Links.machine : Links := { Links.blank with int := wrap }

/-- Two threads age in one queue, the second of which came from the event manager. -/
def ageing : List (Act Bool) :=
  [.attrSet 1 (-5), .insertOwn false 1, .increase false, .attrSet 2 5, .insertRaised false 2,
    .increase false]

theorem priorities_fit_ageing :
    ∃ s, (Sys.start .machine fun _ => 0).acts 6 ageing = some s ∧
      (∀ v ∈ s.store.links.computed, Fits v) ∧
      Represents s.store.links (s.store.queue false) [(2, 7), (1, -3)] := by
  have ha : (Model.start (fun _ => 0) : Model Bool).AllowsAll ageing := by
    refine ⟨nofun, ?_, ?_, nofun, ?_, ?_, trivial⟩
    all_goals
      rintro o ⟨⟩
      decide
  obtain ⟨s, hs, hfits, h⟩ := priorities_fit .machine (fun _ => wrap_of_fits) (fun _ => 0) ageing 6 ha (by decide)
    (fun _ => by decide) (by simp [ageing, Act.Regular, prioMin, prioMax]) (by decide)
  exact ⟨s, hs, hfits, (h false).1⟩

/-- Priorities that `pth_attr_set` accepts: one more than the largest `int` for the
event manager, and a difference that is no `int` in a queue. -/
theorem priorities_overflow :
    ((Sys.start .machine fun _ => 0).acts 2 [.attrSet 1 2147483647, .insertRaised false 1]).map
        (fun s => s.store.links.computed) = some [-2147483648, 2147483648] ∧
      ((Sys.start .machine fun _ => 0).acts 4 [.attrSet 1 2147483647, .insertOwn false 1,
          .attrSet 2 (-2147483648), .insertOwn false 2]).map
        (fun s => s.store.links.computed) = some [4294967295, 0, 2147483647] ∧
      Fits 2147483647 ∧ Fits (-2147483648) ∧ ¬ Fits 2147483648 ∧ ¬ Fits 4294967295 := by
  decide

end GnuPth.Pq
