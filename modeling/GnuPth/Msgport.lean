import GnuPth.Lib.Placement
import GnuPth.Lib.Runs
import GnuPth.Ring

/-!
# Message ports

A port is a ring of messages behind a spinlock: `pth_msgport_put` appends,
`pth_msgport_get` pops, each in one section. The link of a message is part of
the message, so all ports share one memory of links, and a message must not be
put on a port while it is on one.
-/

namespace GnuPth.Msgport

open Function (update update_self update_of_ne)
open Placement
open Transition

abbrev Port := Nat

abbrev Message := Nat

inductive Errno
  | EINVAL
  deriving DecidableEq, Repr

structure State where
  links : RingLinks Message
  mpQueue : Port → Ring Message
  -- `m_replyport`
  replyport : Message → Option Port
  -- history: the messages that were put and not taken out since, and the calls on
  -- each port in the order of their sections
  queued : Message → Bool
  puts : Port → List Message
  gets : Port → List Message

/-! ### The calls -/

def append (s : State) (p : Port) (m : Message) : State :=
  let (links, ring) := ringAppend s.links (s.mpQueue p) m
  { s with
    links := links
    mpQueue := update s.mpQueue p ring
    queued := update s.queued m true
    puts := update s.puts p (s.puts p ++ [m]) }

/-- A port that is `NULL` is an error; a message that is `NULL` is not appended. -/
def msgportPut (s : State) (mp : Option Port) (m : Option Message) : Except Errno State :=
  match mp, m with
  | none, _ => .error .EINVAL
  | some _, none => .ok s
  | some p, some m => .ok (append s p m)

def msgportGet (s : State) : Option Port → Except Errno (State × Option Message)
  | none => .error .EINVAL
  | some p =>
    match ringPop s.links (s.mpQueue p) with
    | ((links, ring), some m) =>
      .ok ({ s with
        links := links
        mpQueue := update s.mpQueue p ring
        queued := update s.queued m false
        gets := update s.gets p (s.gets p ++ [m]) }, some m)
    | ((links, ring), none) => .ok ({ s with links := links, mpQueue := update s.mpQueue p ring }, none)

def msgportReply (s : State) : Option Message → Except Errno State
  | none => .error .EINVAL
  | some m => msgportPut s (s.replyport m) (some m)

def msgportPending (s : State) : Option Port → Except Errno Int
  | none => .error .EINVAL
  | some p => .ok (ringElements (s.mpQueue p))

/-! ### Interleavings -/

/-- `address` is the application, which sets the port for replies. -/
inductive Act
  | put (mp : Option Port) (m : Option Message)
  | get (mp : Option Port)
  | reply (m : Option Message)
  | address (m : Message) (mp : Option Port)
  deriving DecidableEq, Repr

/-- A call that fails changes nothing. A message is put again only after it was
taken out. -/
def exec (s : State) : Act → Option State
  | .put mp m =>
    if m.any s.queued then none
    else some ((msgportPut s mp m).toOption.getD s)
  | .get mp => some (((msgportGet s mp).toOption.map Prod.fst).getD s)
  | .reply m =>
    if m.any s.queued then none
    else some ((msgportReply s m).toOption.getD s)
  | .address m mp => some { s with replyport := update s.replyport m mp }

def putOf (s : State) : Act → Option (Port × Option Message)
  | .put (some p) m => some (p, m)
  | .reply (some m) => (s.replyport m).map (·, some m)
  | _ => none

structure Initial (s : State) : Prop where
  mpQueue : ∀ p, s.mpQueue p = ringInit
  puts : ∀ p, s.puts p = []
  gets : ∀ p, s.gets p = []

def system : System State Act where
  init := Initial
  step s a s' := exec s a = some s'

/-! ### Ports as queues -/

variable {s : State}

structure Queues (q : Port → List Message) (s : State) : Prop where
  linear : Linear q
  holds : ∀ p, (s.mpQueue p).Holds s.links (q p)
  queued : ∀ p, ∀ m ∈ q p, s.queued m = true
  order : ∀ p, s.puts p = s.gets p ++ q p

theorem Queues.holds_update (h : Queues q s) (hring : ring.Holds links l')
    (hout : RingLinks.SameOutside l s.links links)
    (hl : ∀ p', p' ≠ p → ∀ m ∈ q p', m ∉ l) (p' : Port) :
    (update s.mpQueue p ring p').Holds links (update q p l' p') := by
  by_cases hp : p' = p
  · subst hp
    simpa using hring
  · simpa [hp] using (h.holds p').frame hout (hl p' hp)

theorem Queues.append (h : Queues q s) (hm : s.queued m = false) :
    Queues (update q p (q p ++ [m])) (append s p m) := by
  have hfree : ∀ p, m ∉ q p := fun p hp => by simp [h.queued p m hp] at hm
  obtain ⟨hring, hout⟩ := (h.holds p).append (hfree p)
  refine ⟨h.linear.append hfree, h.holds_update hring hout ?_, ?_, fun p' => ?_⟩
  · intro p' hp' m' hm' hmem
    rcases List.mem_append.mp hmem with hmem | hmem
    · exact hp' (h.linear.unique hm' hmem)
    · rw [List.mem_singleton.mp hmem] at hm'
      exact hfree p' hm'
  · intro p' m' hm'
    by_cases hmm : m' = m
    · subst hmm
      exact update_self ..
    · refine (update_of_ne hmm ..).trans (h.queued p' m' ?_)
      by_cases hp' : p' = p
      · subst hp'
        simpa [hmm] using hm'
      · simpa [hp'] using hm'
  · by_cases hp' : p' = p
    · subst hp'
      simp [Msgport.append, h.order p']
    · simp [Msgport.append, hp', h.order p']

theorem Queues.get (h : Queues q s) (p : Port) :
    ∃ s', msgportGet s (some p) = .ok (s', (q p).head?) ∧ Queues (update q p (q p).tail) s' := by
  cases hq : q p with
  | nil =>
    have hpop := (hq ▸ h.holds p : (s.mpQueue p).Holds s.links []).pop_nil
    refine ⟨s, ?_, ?_⟩
    · simp [msgportGet, hpop]
    · rw [List.tail_nil, ← hq, Function.update_eq_self]
      exact h
  | cons m l =>
    obtain ⟨links, ring, hpop, hring, hout⟩ := (hq ▸ h.holds p : (s.mpQueue p).Holds s.links (m :: l)).pop_cons
    obtain ⟨hml, -⟩ := List.nodup_cons.mp (hq ▸ h.linear.nodup p)
    have hold : ∀ {p' m'}, m' ∈ update q p l p' → m' ∈ q p' := by
      intro p' m' hm'
      by_cases hp' : p' = p
      · subst hp'
        rw [hq]
        exact List.mem_cons_of_mem _ (by simpa using hm')
      · simpa [hp'] using hm'
    have hgone : ∀ p', m ∉ update q p l p' := h.linear.free_of_dropped (hq ▸ List.mem_cons_self) hml
    refine ⟨_, by simp only [msgportGet, hpop]; rfl, h.linear.sublist ?_, h.holds_update hring hout ?_, ?_, ?_⟩
    · rw [hq]
      exact List.sublist_cons_self m l
    · intro p' hp' m' hm' hmem
      exact hp' (h.linear.unique hm' (hq ▸ hmem))
    · intro p' m' hm'
      have hne : m' ≠ m := fun he => hgone p' (he ▸ hm')
      exact (update_of_ne hne ..).trans (h.queued p' m' (hold hm'))
    · intro p'
      by_cases hp' : p' = p
      · subst hp'
        simp [h.order p', hq]
      · simp [hp', h.order p']

/-- The queues after a put: nothing is there but what was there and the message. -/
theorem Queues.put (h : Queues q s) (mp : Option Port) (hm : m.any s.queued = false) :
    ∃ q', Queues q' ((msgportPut s mp m).toOption.getD s) ∧
      ∀ p, ∀ x ∈ q' p, x ∈ q p ∨ mp = some p ∧ m = some x := by
  have hsame : ∃ q', Queues q' s ∧ ∀ p, ∀ x ∈ q' p, x ∈ q p ∨ mp = some p ∧ m = some x :=
    ⟨q, h, fun _ _ hx => .inl hx⟩
  cases mp with
  | none => exact hsame
  | some p =>
    cases m with
    | none => exact hsame
    | some =>
      refine ⟨_, h.append (by simpa using hm), fun p' x hx => ?_⟩
      by_cases hp : p' = p
      · subst hp
        rw [update_self, List.mem_append, List.mem_singleton] at hx
        exact hx.imp_right fun hx => ⟨rfl, congrArg some hx.symm⟩
      · exact .inl (by simpa [hp] using hx)

theorem Queues.step (h : Queues q s) (hs : exec s a = some s') :
    ∃ q', Queues q' s' ∧ ∀ p, ∀ x ∈ q' p, x ∈ q p ∨ putOf s a = some (p, some x) := by
  have hsame : ∃ q', Queues q' s ∧ ∀ p, ∀ x ∈ q' p, x ∈ q p ∨ putOf s a = some (p, some x) :=
    ⟨q, h, fun _ _ hx => .inl hx⟩
  cases a with
  | put mp =>
    simp only [exec] at hs
    split at hs <;> cases hs
    rename_i hm
    obtain ⟨q', hq', hput⟩ := h.put mp (by simpa using hm)
    refine ⟨q', hq', fun p x hx => (hput p x hx).imp_right ?_⟩
    rintro ⟨rfl, rfl⟩
    rfl
  | get mp =>
    cases hs
    cases mp with
    | none => exact hsame
    | some p =>
      obtain ⟨s', hget, hq⟩ := h.get p
      rw [hget]
      refine ⟨_, hq, fun p' x hx => .inl ?_⟩
      by_cases hp : p' = p
      · subst hp
        exact List.mem_of_mem_tail (by simpa using hx)
      · simpa [hp] using hx
  | reply m =>
    simp only [exec] at hs
    split at hs <;> cases hs
    rename_i hm
    cases m with
    | none => exact hsame
    | some m =>
      obtain ⟨q', hq', hput⟩ := h.put (s.replyport m) (m := some m) (by simpa using hm)
      refine ⟨q', hq', fun p x hx => (hput p x hx).imp_right ?_⟩
      rintro ⟨hp, hx⟩
      cases hx
      simp [putOf, hp]
  | address =>
    cases hs
    exact ⟨q, ⟨h.linear, h.holds, h.queued, h.order⟩, fun _ _ hx => .inl hx⟩

theorem queues_of_reachable (h : Reachable system s) : ∃ q, Queues q s := by
  refine h.invariant (I := fun s => ∃ q, Queues q s) ?_ ?_
  · intro s hi
    refine ⟨fun _ => [], ⟨fun _ => List.nodup_nil, nofun⟩, fun p => ?_, nofun, ?_⟩
    · rw [hi.mpQueue p]
      exact .init
    · simp [hi.puts, hi.gets]
  · rintro s a s' ⟨q, hq⟩ hs
    obtain ⟨q', hq', -⟩ := hq.step hs
    exact ⟨q', hq'⟩

/-- The messages on a port, by the history of the calls. -/
def State.pending (s : State) (p : Port) : List Message := (s.puts p).drop (s.gets p).length

theorem Queues.pending (h : Queues q s) (p : Port) : s.pending p = q p := by
  rw [State.pending, h.order p, List.drop_left]

theorem elements_eq (h : Reachable system s) (p : Port) :
    ringElements (s.mpQueue p) = (s.pending p).length := by
  obtain ⟨q, hq⟩ := queues_of_reachable h
  rw [hq.pending p]
  exact (hq.holds p).nodes

theorem pending_step (h : Reachable system s) (hs : exec s a = some s') (hm : m ∈ s'.pending p) :
    m ∈ s.pending p ∨ putOf s a = some (p, some m) := by
  obtain ⟨q, hq⟩ := queues_of_reachable h
  obtain ⟨q', hq', hput⟩ := hq.step hs
  rw [hq.pending p]
  exact hput p m (hq'.pending p ▸ hm)

/-- What was taken from a port is what was put on it, in order, up to the messages
that are still there: these are counted by `pending`, and a get returns the oldest
one. -/
theorem msgport_fifo (h : Reachable system s) (p : Port) :
    ∃ l, s.puts p = s.gets p ++ l ∧
      msgportPending s (some p) = .ok ((s.puts p).length - (s.gets p).length) ∧
      ∃ s', msgportGet s (some p) = .ok (s', l.head?) := by
  obtain ⟨q, hq⟩ := queues_of_reachable h
  obtain ⟨s', hget, -⟩ := hq.get p
  refine ⟨q p, hq.order p, ?_, s', hget⟩
  have hnodes : ringElements (s.mpQueue p) = (q p).length := (hq.holds p).nodes
  rw [msgportPending, hq.order p, List.length_append]
  congr 1
  omega

/-! ### Schedules -/

def boot : State := ⟨⟨id, id⟩, fun _ => ringInit, fun _ => none, fun _ => false, fun _ => [], fun _ => []⟩

theorem exists_reachable [DecidablePred P] (acts : List Act)
    (h : (acts.foldlM exec boot).any (fun s => decide (P s)) = true) :
    ∃ s, Reachable system s ∧ P s :=
  exists_reachable_foldlM (S := system) (fun _ _ _ h => h) ⟨fun _ => rfl, fun _ => rfl, fun _ => rfl⟩ acts h

/-- Three messages are put on port 1; the first one is taken, replied to port 2, taken
there and put on port 1 again. -/
def roundTrip : List Act :=
  [.address 10 (some 2), .put (some 1) (some 10), .put (some 1) (some 11), .put (some 1) (some 12),
    .get (some 1), .reply (some 10), .get (some 2), .put (some 1) (some 10), .get (some 1)]

theorem msgport_fifo_roundTrip :
    ∃ s, Reachable system s ∧ s.puts 1 = [10, 11, 12, 10] ∧ s.gets 1 = [10, 11] ∧
      ∃ l, s.puts 1 = s.gets 1 ++ l ∧
        msgportPending s (some 1) = .ok ((s.puts 1).length - (s.gets 1).length) ∧
        ∃ s', msgportGet s (some 1) = .ok (s', l.head?) := by
  obtain ⟨s, hs, hp, hg⟩ := exists_reachable
    (P := fun s => s.puts 1 = [10, 11, 12, 10] ∧ s.gets 1 = [10, 11]) roundTrip (by decide +kernel)
  exact ⟨s, hs, hp, hg, msgport_fifo hs 1⟩

/-! ### The end of a port -/

/-- `pth_msgport`, the list of the existing ports, linked by their `mp_node`. -/
structure Ports where
  links : RingLinks Port
  ring : Ring Port

/-- Each pending message is taken and replied to; that a reply fails goes unnoticed. -/
def destroyLoop (p : Port) : Nat → State → Option State
  | 0, _ => none
  | n + 1, s =>
    match msgportGet s (some p) with
    | .ok (s', some m) => destroyLoop p n ((msgportReply s' (some m)).toOption.getD s')
    | .ok (s', none) => some s'
    | .error _ => some s

def msgportDestroy (fuel : Nat) (s : State) (ports : Ports) : Option Port → Option (State × Ports)
  | none => some (s, ports)
  | some p => (destroyLoop p fuel s).map fun s' =>
      let (links, ring) := ringDelete ports.links ports.ring p
      (s', ⟨links, ring⟩)

def answered (replyport : Message → Option Port) (q : Port → List Message) (m : Message) (p : Port) :
    List Message :=
  if replyport m = some p then q p ++ [m] else q p

theorem Queues.reply (h : Queues q s) (hm : s.queued m = false) :
    Queues (answered s.replyport q m) ((msgportReply s (some m)).toOption.getD s) := by
  rw [msgportReply]
  cases hr : s.replyport m with
  | none =>
    have hq : answered s.replyport q m = q := by
      funext p
      simp [answered, hr]
    rw [hq]
    exact h
  | some r =>
    have hq : answered s.replyport q m = update q r (q r ++ [m]) := by
      funext p
      by_cases hp : p = r
      · subst hp
        simp [answered, hr]
      · simp [answered, hr, hp, Ne.symm hp]
    rw [hq]
    exact h.append hm

theorem msgportGet_out (h : msgportGet s (some p) = .ok (s', some m)) :
    s'.queued m = false ∧ s'.replyport = s.replyport := by
  simp only [msgportGet] at h
  split at h <;> cases h
  exact ⟨update_self .., rfl⟩

variable {l : List Message}

theorem destroyLoop_nil (h : Queues q s) (hq : q p = []) :
    ∃ s', destroyLoop p (n + 1) s = some s' ∧ Queues q s' := by
  obtain ⟨s', hget, hq'⟩ := h.get p
  rw [hq, List.tail_nil, ← hq, Function.update_eq_self] at hq'
  refine ⟨s', ?_, hq'⟩
  rw [destroyLoop, hget, hq]
  rfl

theorem destroyLoop_cons (h : Queues q s) (hq : q p = m :: l) :
    ∃ s', (∀ n, destroyLoop p (n + 1) s = destroyLoop p n s') ∧ s'.replyport = s.replyport ∧
      Queues (answered s.replyport (update q p l) m) s' := by
  obtain ⟨s₁, hget, hq₁⟩ := h.get p
  rw [hq] at hget hq₁
  obtain ⟨hm, hto⟩ := msgportGet_out hget
  refine ⟨(msgportReply s₁ (some m)).toOption.getD s₁, fun n => ?_, ?_, hto ▸ hq₁.reply hm⟩
  · rw [destroyLoop, hget]
    rfl
  · rw [← hto]
    rw [msgportReply]
    cases s₁.replyport m <;> rfl

theorem destroyLoop_drains (h : Queues q s) (hself : ∀ m ∈ q p, s.replyport m ≠ some p)
    (hn : (q p).length < n) :
    ∃ s', destroyLoop p n s = some s' ∧
      Queues (fun r => if r = p then [] else q r ++ (q p).filter fun m => s.replyport m = some r) s' := by
  induction n generalizing q s with
  | zero => cases hn
  | succ n ih =>
    cases hq : q p with
    | nil =>
      have hsame : (fun r => if r = p then [] else q r ++ [].filter fun m => s.replyport m = some r) = q := by
        funext r
        by_cases hr : r = p
        · simp [hr, hq]
        · simp [hr]
      rw [hsame]
      exact destroyLoop_nil h hq
    | cons m l =>
      obtain ⟨s₁, hloop, hto, hq₁⟩ := destroyLoop_cons h hq
      rw [hq] at hself hn
      have hm : s.replyport m ≠ some p := hself m List.mem_cons_self
      have hl : answered s.replyport (update q p l) m p = l := by simp [answered, hm]
      obtain ⟨s', hs', hq'⟩ := ih hq₁
        (by rw [hl, hto]; exact fun m hm => hself m (List.mem_cons_of_mem _ hm))
        (by rw [hl]; exact Nat.lt_of_succ_lt_succ hn)
      refine ⟨s', (hloop n).trans hs', ?_⟩
      convert hq' using 2 with r
      rw [hl, hto]
      by_cases hr : r = p
      · simp [hr]
      · by_cases hmr : s.replyport m = some r <;> simp [answered, hr, hmr]

/-- A message that goes back to the port is on it before every turn. -/
theorem destroyLoop_none (h : Queues q s) (hm : m ∈ q p) (hself : s.replyport m = some p) :
    destroyLoop p n s = none := by
  induction n generalizing q s with
  | zero => rfl
  | succ n ih =>
    obtain ⟨x, l, hq⟩ := List.exists_cons_of_ne_nil (List.ne_nil_of_mem hm)
    obtain ⟨s₁, hloop, hto, hq₁⟩ := destroyLoop_cons h hq
    rw [hloop n]
    refine ih hq₁ ?_ (hto ▸ hself)
    rw [hq] at hm
    rcases List.mem_cons.mp hm with rfl | hm
    · simp [answered, hself]
    · unfold answered
      split <;> simp [hm]

/-- A port is destroyed after its messages have gone to the end of their reply ports;
but the call does not return if one of them is to go back to the port itself. -/
theorem msgport_destroy {ports : Ports} {all : List Port} (h : Reachable system s)
    (hports : ports.ring.Holds ports.links all) (hp : p ∈ all) :
    (∀ r, (s.mpQueue r).Holds s.links (s.pending r)) ∧
    ((∀ m ∈ s.pending p, s.replyport m ≠ some p) → ∀ n, (s.pending p).length < n →
      ∃ s' ports', msgportDestroy n s ports (some p) = some (s', ports') ∧
        ports'.ring.Holds ports'.links (all.erase p) ∧ ∀ r, r ≠ p → (s'.mpQueue r).Holds s'.links
          (s.pending r ++ (s.pending p).filter fun m => s.replyport m = some r)) ∧
    ((∃ m ∈ s.pending p, s.replyport m = some p) → ∀ n, msgportDestroy n s ports (some p) = none) := by
  obtain ⟨q, hq⟩ := queues_of_reachable h
  simp only [hq.pending]
  refine ⟨hq.holds, fun hself n hn => ?_, ?_⟩
  · obtain ⟨s', hs', hq'⟩ := destroyLoop_drains hq hself hn
    obtain ⟨l₁, l₂, hnot, rfl, herase⟩ := List.exists_erase_eq hp
    refine ⟨s', _, by rw [msgportDestroy, hs']; rfl, ?_, fun r hr => ?_⟩
    · rw [herase]
      exact hports.delete.1
    · simpa [hr] using hq'.holds r
  · rintro ⟨m, hm, hself⟩ n
    rw [msgportDestroy, destroyLoop_none hq hm hself]
    rfl

def portRing : Ports := ⟨⟨fun p => (p + 1) % 3, fun p => (p + 2) % 3⟩, ⟨some 0, 3⟩⟩

theorem portRing_holds : portRing.ring.Holds portRing.links [0, 1, 2] :=
  ⟨rfl, rfl, by decide, ⟨rfl, rfl⟩, ⟨rfl, rfl⟩, rfl, rfl⟩

/-- Of three messages the first and the last go to port 2, which holds one, and the
second has no reply port. -/
theorem msgport_destroy_three :
    ∃ s, Reachable system s ∧ s.pending 1 = [10, 11, 12] ∧ s.pending 2 = [13] ∧
      ∃ s' ports', msgportDestroy 4 s portRing (some 1) = some (s', ports') ∧
        ports'.ring.Holds ports'.links [0, 2] ∧ (s'.mpQueue 2).Holds s'.links [13, 10, 12] := by
  obtain ⟨s, hs, h1, h2, hto⟩ := exists_reachable (P := fun s => s.pending 1 = [10, 11, 12] ∧
      s.pending 2 = [13] ∧ [10, 11, 12].map s.replyport = [some 2, none, some 2])
    [.address 10 (some 2), .address 12 (some 2), .put (some 1) (some 10), .put (some 1) (some 11),
      .put (some 1) (some 12), .put (some 2) (some 13)] (by decide +kernel)
  simp only [List.map_cons, List.cons.injEq] at hto
  obtain ⟨-, hd, -⟩ := msgport_destroy hs portRing_holds (p := 1) (by decide)
  obtain ⟨s', ports', hdes, hall, hto'⟩ := hd (by simp [h1, hto]) 4 (by simp [h1])
  exact ⟨s, hs, h1, h2, s', ports', hdes, hall, by simpa [h1, h2, hto] using hto' 2 (by decide)⟩

/-- A message whose reply port is the port it is pending on. -/
theorem msgport_destroy_hangs :
    ∃ s, Reachable system s ∧ s.pending 1 = [10] ∧ s.replyport 10 = some 1 ∧
      ∀ n, msgportDestroy n s portRing (some 1) = none := by
  obtain ⟨s, hs, h1, hto⟩ := exists_reachable (P := fun s => s.pending 1 = [10] ∧ s.replyport 10 = some 1)
    [.address 10 (some 1), .put (some 1) (some 10)] (by decide +kernel)
  obtain ⟨q, hq⟩ := queues_of_reachable hs
  refine ⟨s, hs, h1, hto, fun n => ?_⟩
  rw [msgportDestroy, destroyLoop_none hq (by rw [← hq.pending, h1]; exact List.mem_cons_self) hto]
  rfl

end GnuPth.Msgport
