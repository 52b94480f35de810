import GnuPth.Inbox

/-!
# The doorbell of the event manager

A scheduler that waits for work sleeps in `select`, `poll` or the event port,
with the read end of its signal pipe among the descriptors. Whoever posts to
its inbox from another OS thread writes a byte to that pipe after the push. A
post by the scheduler's own threads, or by a handler that its drain runs,
writes nothing: what it leaves in the inbox must be met by a drain before the
scheduler can sleep.

The model adds the control of the event manager to the inbox. It is the same
in all three event managers: clear the pipe, drain, scan the waiting queue,
wait unless `dopoll`, drain again, finish, and possibly repeat. Custom event
functions do not post, so the scan is one step.
-/

namespace GnuPth.Doorbell

open Inbox (OsThread Poster Drain Spells Shape)
open Transition

/-- Where the scheduler's OS thread is: running its threads (and the scheduler
loop around them), or in a pass of the event manager. `wait false` is the
blocking wait call. -/
inductive Phase
  | threads
  | clear (dopoll : Bool)
  | drain (dopoll : Bool)
  | scan (dopoll : Bool)
  | wait (dopoll : Bool)
  | redrain (dopoll : Bool)
  | finish (dopoll : Bool)
  deriving DecidableEq, Repr

structure State where
  inbox : Inbox.State
  phase : Phase

inductive Act
  -- a step of a post, by any OS thread
  | post (a : Inbox.Act)
  -- a step of the drain other than its return
  | drain (a : Inbox.Act)
  | enter (dopoll : Bool)
  | read
  | drained
  | scanned (anyOccurred : Bool)
  | woken
  | leave
  | loopRepeat
  deriving DecidableEq, Repr

/-- The OS thread that takes a step of a post; `none` for a byte from a signal
handler or from `pth_gsched_kick_others`. -/
def poster : Inbox.Act → Option (Option OsThread)
  | .call p _ _ | .load p | .cas p | .ring p _ => some (some p)
  | .kick => some none
  | _ => none

/-- The scheduler's own OS thread posts while it runs a thread, or from the
handler of a message. -/
def mayPost (s : State) : Bool :=
  match s.phase, s.inbox.drain with
  | .threads, _ => true
  | .drain _, .handling _ _ | .redrain _, .handling _ _ => true
  | _, _ => false

def postStep (own : OsThread) (s : State) (a : Inbox.Act) : Option State :=
  match poster a with
  | none => none
  | some p =>
    if p = some own ∧ mayPost s = false then none
    else (Inbox.exec own s.inbox a).map fun i => { s with inbox := i }

def inDrain : Inbox.Act → Bool
  | .xchg | .reverse | .process | .free => true
  | _ => false

def drainStep (own : OsThread) (s : State) (a : Inbox.Act) : Option State :=
  match s.phase, inDrain a with
  | .drain _, true | .redrain _, true =>
    (Inbox.exec own s.inbox a).map fun i => { s with inbox := i }
  | _, _ => none

/-- `pth_gsched_drain` returns: the first one decides about `dopoll`, the second
one is not looked at. -/
def drained (own : OsThread) (s : State) : Option State :=
  match s.inbox.drain, s.phase with
  | .processing none any, .drain dopoll =>
    (Inbox.exec own s.inbox .leave).map fun i => ⟨i, .scan (dopoll || any)⟩
  | .processing none _, .redrain dopoll =>
    (Inbox.exec own s.inbox .leave).map fun i => ⟨i, .finish dopoll⟩
  | _, _ => none

/-- The loop that reads the pipe ends when nothing is left. -/
def read (own : OsThread) (s : State) : Option State :=
  match s.phase with
  | .clear dopoll =>
    if s.inbox.sigpipe = 0 then some { s with phase := .drain dopoll }
    else (Inbox.exec own s.inbox .read).map fun i => { s with inbox := i }
  | _ => none

def advance (s : State) : Act → Option Phase
  | .enter dopoll =>
    match s.phase with
    | .threads => some (.clear dopoll)
    | _ => none
  | .scanned anyOccurred =>
    match s.phase with
    | .scan dopoll => some (.wait (dopoll || anyOccurred))
    | _ => none
  | .woken =>
    match s.phase with
    | .wait dopoll => some (.redrain dopoll)
    | _ => none
  | .leave =>
    match s.phase with
    | .finish _ => some .threads
    | _ => none
  -- a function event was due: only after a wait that could block
  | .loopRepeat =>
    match s.phase with
    | .finish false => some (.clear false)
    | _ => none
  | _ => none

/-- Everything but a post is done by the scheduler's OS thread, which then has
no post of its own under way. -/
def exec (own : OsThread) (s : State) (a : Act) : Option State :=
  match a with
  | .post a => postStep own s a
  | _ =>
    if s.inbox.poster own ≠ .idle then none
    else match a with
      | .drain a => drainStep own s a
      | .read => read own s
      | .drained => drained own s
      | a => (advance s a).map fun phase => { s with phase }

def system (own : OsThread) : System State Act where
  init s := Inbox.Initial s.inbox ∧ s.phase = .threads
  step s a s' := exec own s a = some s'

/-! ### Posts -/

variable {own : OsThread}

/-- The bell has been rung, or every message on the stack still has its poster
between the push and the write. -/
def Belled (i : Inbox.State) : Prop :=
  0 < i.sigpipe ∨ ∀ n, i.taken ≤ n → n < i.pushed.length →
    ∃ p m, i.pushed[n]? = some (p, m) ∧ i.poster p = .ringing n

theorem Belled.of_empty (h : i.taken = i.pushed.length) : Belled i :=
  .inr fun n h₁ h₂ => absurd h₂ (by rw [← h]; exact Nat.not_lt.mpr h₁)

/-- What a step of a post changes besides the inbox: the place of its own thread. -/
structure PostFrame (p : Option OsThread) (i i' : Inbox.State) : Prop where
  drain : i'.drain = i.drain
  taken : i'.taken = i.taken
  poster : ∀ p', p ≠ some p' → i'.poster p' = i.poster p'

theorem PostFrame.of_update (hd : i'.drain = i.drain)
    (ht : i'.taken = i.taken) (hx : i'.poster = Function.update i.poster t x) :
    PostFrame (some t) i i' := by
  refine ⟨hd, ht, fun p' hp' => ?_⟩
  have hne : p' ≠ t := fun he => hp' (congrArg some he.symm)
  simp [hx, hne]

theorem postFrame (hp : poster a = some p)
    (h : Inbox.exec own i a = some i') : PostFrame p i i' := by
  cases a with
  | call =>
    cases hp
    simp only [Inbox.exec, Inbox.postCall] at h
    split at h
    case h_2 => cases h
    case h_1 =>
    split at h <;> cases h
    exact .of_update rfl rfl rfl
  | load =>
    cases hp
    simp only [Inbox.exec, Inbox.postLoad] at h
    split at h <;> cases h
    exact .of_update rfl rfl rfl
  | cas =>
    cases hp
    simp only [Inbox.exec, Inbox.postCas] at h
    split at h
    case h_2 => cases h
    case h_1 =>
    split at h <;> cases h
    all_goals exact .of_update rfl rfl rfl
  | ring =>
    cases hp
    simp only [Inbox.exec, Inbox.postRing] at h
    split at h
    case h_2 => cases h
    case h_1 =>
    split at h <;> cases h
    exact .of_update rfl rfl rfl
  | kick =>
    cases h
    exact ⟨rfl, rfl, fun _ _ => rfl⟩
  | _ => cases hp

theorem Belled.advance (h : Belled i)
    (hp : ∀ n, i.poster p ≠ .ringing n) (hb : i'.sigpipe = i.sigpipe) (ht : i'.taken = i.taken)
    (hs : i'.pushed = i.pushed) (hx : i'.poster = Function.update i.poster p x) : Belled i' := by
  refine h.imp (hb ▸ ·) fun h n h₁ h₂ => ?_
  obtain ⟨p', m, hm, hr⟩ := h n (ht ▸ h₁) (hs ▸ h₂)
  have hne : p' ≠ p := fun he => hp n (he ▸ hr)
  exact ⟨p', m, hs ▸ hm, by simpa [hx, hne] using hr⟩

theorem Belled.push (h : Belled i)
    (hp : ∀ n, i.poster p ≠ .ringing n) (hb : i'.sigpipe = i.sigpipe) (ht : i'.taken = i.taken)
    (hs : i'.pushed = i.pushed ++ [(p, m)])
    (hx : i'.poster = Function.update i.poster p (.ringing i.pushed.length)) : Belled i' := by
  refine h.imp (hb ▸ ·) fun h n h₁ h₂ => ?_
  rw [hs, List.length_append] at h₂
  rcases Nat.lt_succ_iff_lt_or_eq.mp h₂ with hn | rfl
  · obtain ⟨p', m', hm, hr⟩ := h n (ht ▸ h₁) hn
    have hne : p' ≠ p := fun he => hp n (he ▸ hr)
    exact ⟨p', m', by rw [hs, List.getElem?_append_left hn, hm], by simpa [hx, hne] using hr⟩
  · exact ⟨p, m, by simp [hs], by simp [hx]⟩

theorem Belled.post (h : Belled i) (ha : poster a = some p) (hp : p ≠ some own)
    (hs : Inbox.exec own i a = some i') : Belled i' := by
  cases a with
  | call =>
    simp only [Inbox.exec, Inbox.postCall] at hs
    split at hs
    case h_2 => cases hs
    case h_1 ht =>
    split at hs <;> cases hs
    exact h.advance (by simp [ht]) rfl rfl rfl rfl
  | load =>
    simp only [Inbox.exec, Inbox.postLoad] at hs
    split at hs
    case h_2 => cases hs
    case h_1 m ht =>
    cases hs
    exact h.advance (by simp [ht]) rfl rfl rfl rfl
  | cas t =>
    cases ha
    have hown : t ≠ own := fun he => hp (he ▸ rfl)
    simp only [Inbox.exec, Inbox.postCas] at hs
    split at hs
    case h_2 => cases hs
    case h_1 m hd ht =>
    split at hs
    case isTrue =>
      cases hs
      exact h.push (by simp [ht]) rfl rfl rfl rfl
    case isFalse =>
      cases hs
      exact h.advance (by simp [ht]) rfl rfl rfl rfl
  | ring t full =>
    simp only [Inbox.exec, Inbox.postRing] at hs
    split at hs
    case h_2 => cases hs
    case h_1 n ht =>
    split at hs
    case isTrue => cases hs
    case isFalse hfull =>
    cases hs
    -- the byte is in the pipe, or the pipe was full and so not empty
    refine .inl ?_
    cases full with
    | false => exact Nat.succ_pos _
    | true => simpa [Nat.pos_iff_ne_zero] using hfull
  | kick =>
    cases hs
    exact .inl (Nat.succ_pos _)
  | _ => cases ha

/-! ### Passes -/

/-- In the first drain: once it has exchanged the stack the bell is in order,
until a handler runs and makes the drain return `TRUE`. -/
def DrainOk (i : Inbox.State) : Prop :=
  match i.drain with
  | .idle | .handling _ _ => True
  | .reversing _ _ => Belled i
  | .processing _ any => any = true ∨ Belled i

def Phase.Ok (i : Inbox.State) : Phase → Prop
  | .threads | .clear _ | .finish _ => i.drain = .idle
  | .drain _ => DrainOk i
  | .scan dopoll | .wait dopoll => i.drain = .idle ∧ (dopoll = true ∨ Belled i)
  | .redrain _ => True

structure Safe (own : OsThread) (s : State) : Prop where
  quiet : mayPost s = false → s.inbox.poster own = .idle
  phase : s.phase.Ok s.inbox

theorem Phase.Ok.post {ph : Phase} (h : ph.Ok i) (hd : i'.drain = i.drain)
    (hb : Belled i → Belled i') : ph.Ok i' := by
  cases ph with
  | threads | clear | finish => exact hd.trans h
  | scan | wait => exact ⟨hd.trans h.1, h.2.imp_right hb⟩
  | redrain => trivial
  | drain =>
    simp only [Phase.Ok, DrainOk, hd] at h ⊢
    cases hi : i.drain with
    | idle | handling => trivial
    | reversing => exact hb (by simpa [hi] using h)
    | processing => exact (by simpa [hi] using h : _ ∨ _).imp_right hb

theorem Phase.Ok.own_post (h : s.phase.Ok s.inbox) (hm : mayPost s = true)
    (hd : i'.drain = s.inbox.drain) : s.phase.Ok i' := by
  cases hp : s.phase with
  | threads => rw [hp] at h; exact hd.trans h
  | redrain => trivial
  | drain =>
    cases hi : s.inbox.drain with
    | handling => simp [Phase.Ok, DrainOk, hd, hi]
    | _ => simp [mayPost, hp, hi] at hm
  | _ => simp [mayPost, hp] at hm

theorem Safe.post (h : Safe own s) (hs : postStep own s a = some s') : Safe own s' := by
  unfold postStep at hs
  split at hs
  case h_1 => cases hs
  case h_2 p ha =>
  split at hs
  case isTrue => cases hs
  case isFalse hown =>
  obtain ⟨i', hi, rfl⟩ := Option.map_eq_some_iff.mp hs
  have hf := postFrame ha hi
  have hmay : mayPost { s with inbox := i' } = mayPost s := by simp [mayPost, hf.drain]
  by_cases hp : p = some own
  · have hm : mayPost s = true := by simpa [hp] using hown
    refine ⟨fun hq => ?_, h.phase.own_post hm hf.drain⟩
    simp [hmay, hm] at hq
  · refine ⟨fun hq => ?_, h.phase.post hf.drain fun hb => hb.post ha hp hi⟩
    exact (hf.poster own hp).trans (h.quiet (hmay ▸ hq))

theorem DrainOk.step (h : DrainOk i) (ha : inDrain a = true) (hs : Inbox.exec own i a = some i') :
    DrainOk i' := by
  unfold DrainOk at h
  cases a with
  | xchg =>
    simp only [Inbox.exec, Inbox.drainXchg] at hs
    split at hs <;> cases hs
    exact .of_empty rfl
  | reverse =>
    simp only [Inbox.exec, Inbox.drainReverse] at hs
    split at hs
    case h_1 hd => cases hs; rw [hd] at h; exact h
    case h_2 hd => cases hs; rw [hd] at h; exact .inr h
    case h_3 => cases hs
  | process =>
    simp only [Inbox.exec, Inbox.drainProcess] at hs
    split at hs <;> cases hs
    trivial
  | free =>
    simp only [Inbox.exec, Inbox.drainFree] at hs
    split at hs <;> cases hs
    exact .inl rfl
  | _ => cases ha

theorem inDrain_poster (ha : inDrain a = true) (hs : Inbox.exec own i a = some i') :
    i'.poster = i.poster := by
  cases a with
  | xchg =>
    simp only [Inbox.exec, Inbox.drainXchg] at hs
    split at hs <;> cases hs
    rfl
  | reverse =>
    simp only [Inbox.exec, Inbox.drainReverse] at hs
    split at hs <;> cases hs <;> rfl
  | process =>
    simp only [Inbox.exec, Inbox.drainProcess] at hs
    split at hs <;> cases hs
    rfl
  | free =>
    simp only [Inbox.exec, Inbox.drainFree] at hs
    split at hs <;> cases hs
    rfl
  | _ => cases ha

theorem Safe.drain (h : Safe own s) (hown : s.inbox.poster own = .idle)
    (hs : drainStep own s a = some s') : Safe own s' := by
  unfold drainStep at hs
  split at hs
  case h_1 d hp ha =>
    obtain ⟨i', hi, rfl⟩ := Option.map_eq_some_iff.mp hs
    refine ⟨fun _ => by rw [inDrain_poster ha hi]; exact hown, ?_⟩
    have hd := h.phase
    rw [hp] at hd
    rw [hp]
    exact DrainOk.step hd ha hi
  case h_2 d hp ha =>
    obtain ⟨i', hi, rfl⟩ := Option.map_eq_some_iff.mp hs
    refine ⟨fun _ => by rw [inDrain_poster ha hi]; exact hown, ?_⟩
    simp [hp, Phase.Ok]
  case h_3 => cases hs

theorem exec_leave (hd : i.drain = .processing none any) :
    Inbox.exec own i .leave = some { i with drain := .idle } := by
  simp [Inbox.exec, Inbox.drainLeave, hd]

theorem Safe.drained (h : Safe own s) (hown : s.inbox.poster own = .idle)
    (hs : drained own s = some s') : Safe own s' := by
  unfold Doorbell.drained at hs
  split at hs
  case h_1 any dopoll hd hp =>
    rw [exec_leave hd] at hs
    cases hs
    refine ⟨fun _ => hown, rfl, ?_⟩
    have hb := h.phase
    simp only [hp, Phase.Ok, DrainOk, hd] at hb
    cases any with
    | true => exact .inl (Bool.or_true dopoll)
    | false => exact .inr (hb.resolve_left Bool.false_ne_true)
  case h_2 any dopoll hd hp =>
    rw [exec_leave hd] at hs
    cases hs
    exact ⟨fun _ => hown, rfl⟩
  case h_3 => cases hs

theorem Safe.read (h : Safe own s) (hown : s.inbox.poster own = .idle)
    (hs : read own s = some s') : Safe own s' := by
  unfold Doorbell.read at hs
  split at hs
  case h_2 => cases hs
  case h_1 dopoll hp =>
  have hd : s.inbox.drain = .idle := by simpa only [hp, Phase.Ok] using h.phase
  split at hs
  case isTrue =>
    cases hs
    exact ⟨fun _ => hown, by simp [Phase.Ok, DrainOk, hd]⟩
  case isFalse =>
    cases hs
    exact ⟨fun _ => hown, by simpa only [hp, Phase.Ok] using hd⟩

theorem Safe.advance (h : Safe own s) (hown : s.inbox.poster own = .idle)
    (hs : advance s a = some ph) : Safe own { s with phase := ph } := by
  have hok := h.phase
  refine ⟨fun _ => hown, ?_⟩
  cases a with
  | enter | leave | loopRepeat =>
    simp only [Doorbell.advance] at hs
    split at hs <;> cases hs
    rename_i hp; rw [hp] at hok; exact hok
  | scanned =>
    simp only [Doorbell.advance] at hs
    split at hs <;> cases hs
    rename_i dopoll hp
    rw [hp] at hok
    refine ⟨hok.1, hok.2.imp_left fun hd => ?_⟩
    simp [hd]
  | woken =>
    simp only [Doorbell.advance] at hs
    split at hs <;> cases hs
    trivial
  | _ => cases hs

theorem Safe.step (h : Safe own s) (hs : exec own s a = some s') : Safe own s' := by
  unfold exec at hs
  split at hs
  case h_1 => exact h.post hs
  case h_2 =>
  split at hs
  case isTrue => cases hs
  case isFalse hown =>
  have hown : s.inbox.poster own = .idle := by simpa using hown
  split at hs
  case h_1 => exact h.drain hown hs
  case h_2 => exact h.read hown hs
  case h_3 => exact h.drained hown hs
  case h_4 =>
    obtain ⟨ph, hph, rfl⟩ := Option.map_eq_some_iff.mp hs
    exact h.advance hown hph

theorem safe_of_reachable (h : Reachable (system own) s) : Safe own s := by
  refine h.invariant ?_ fun _ _ _ hs ha => hs.step ha
  rintro s ⟨hi, hp⟩
  exact ⟨fun _ => hi.poster own, by rw [hp]; exact hi.drain⟩

theorem exec_inbox (hs : exec own s a = some s') :
    s'.inbox = s.inbox ∨ ∃ b, Inbox.exec own s.inbox b = some s'.inbox := by
  unfold exec at hs
  split at hs
  case h_1 b =>
    unfold postStep at hs
    split at hs
    case h_1 => cases hs
    case h_2 =>
    split at hs
    case isTrue => cases hs
    case isFalse =>
      obtain ⟨i', hi, rfl⟩ := Option.map_eq_some_iff.mp hs
      exact .inr ⟨b, hi⟩
  case h_2 =>
  split at hs
  case isTrue => cases hs
  case isFalse =>
  split at hs
  case h_1 =>
    unfold drainStep at hs
    split at hs
    case h_3 => cases hs
    all_goals
      obtain ⟨i', hi, rfl⟩ := Option.map_eq_some_iff.mp hs
      exact .inr ⟨_, hi⟩
  case h_2 =>
    unfold read at hs
    split at hs
    case h_2 => cases hs
    case h_1 =>
    split at hs
    case isTrue => cases hs; exact .inl rfl
    case isFalse => cases hs; exact .inr ⟨.read, rfl⟩
  case h_3 =>
    unfold drained at hs
    split at hs
    case h_3 => cases hs
    all_goals
      obtain ⟨i', hi, rfl⟩ := Option.map_eq_some_iff.mp hs
      exact .inr ⟨.leave, hi⟩
  case h_4 =>
    obtain ⟨ph, -, rfl⟩ := Option.map_eq_some_iff.mp hs
    exact .inl rfl

theorem inbox_reachable (h : Reachable (system own) s) : Reachable (Inbox.system own) s.inbox := by
  refine h.invariant (I := fun s => Reachable (Inbox.system own) s.inbox) ?_ ?_
  · rintro s ⟨hi, -⟩
    exact .init hi
  · intro s a s' hr hs
    obtain he | ⟨b, hb⟩ := exec_inbox hs
    · rw [he]; exact hr
    · exact .step hr hb

/-- No lost wakeup. While the event manager is in its blocking wait call, the
stack holds the messages pushed since the last exchange, and if it is not empty
then the pipe is not, or each of these messages has a poster that has still to
write its byte. -/
theorem blocked_belled (h : Reachable (system own) s) (hb : s.phase = .wait false) :
    Spells s.inbox s.inbox.head ((s.inbox.pushed.drop s.inbox.taken).map (·.2)).reverse ∧
    (0 < s.inbox.sigpipe ∨ ∀ n, s.inbox.taken ≤ n → n < s.inbox.pushed.length →
      ∃ p m, s.inbox.pushed[n]? = some (p, m) ∧ s.inbox.poster p = .ringing n) := by
  obtain ⟨q, hq⟩ := Inbox.shape_of_reachable (inbox_reachable h)
  refine ⟨hq.spells_head, ?_⟩
  have hs := (safe_of_reachable h).phase
  rw [hb] at hs
  exact hs.2.resolve_left Bool.false_ne_true

/-- A message is pushed while the scheduler sleeps and its byte is on the way. -/
def pushedAsleep : List Act :=
  [.enter false, .read, .drain .xchg, .drain .reverse, .drained, .scanned false,
    .post (.call 1 (.gschedPost .wake (some 5) (some 3)) 10), .post (.load 1), .post (.cas 1)]

theorem blocked_belled_pushedAsleep :
    ∃ s, Reachable (system 0) s ∧ s.phase = .wait false ∧ s.inbox.head = some 10 ∧
      s.inbox.sigpipe = 0 ∧ ∃ p m, s.inbox.pushed[0]? = some (p, m) ∧ s.inbox.poster p = .ringing 0 := by
  obtain ⟨s, hs, hb, hh, hp, ht, hl⟩ : ∃ s, pushedAsleep.foldlM (exec 0) ⟨.empty, .threads⟩ = some s ∧
      s.phase = .wait false ∧ s.inbox.head = some 10 ∧ s.inbox.sigpipe = 0 ∧ s.inbox.taken = 0 ∧
      s.inbox.pushed.length = 1 := ⟨_, rfl, rfl, rfl, rfl, rfl, rfl⟩
  have hr : Reachable (system 0) s :=
    .of_foldlM (fun _ _ _ ha => ha) (.init ⟨Inbox.State.empty_initial, rfl⟩) hs
  obtain ⟨-, hpipe | hring⟩ := blocked_belled hr hb
  · simp [hp] at hpipe
  · exact ⟨s, hr, hb, hh, hp, hring 0 (by simp [ht]) (by simp [hl])⟩

end GnuPth.Doorbell
