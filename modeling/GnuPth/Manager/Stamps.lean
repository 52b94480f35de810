import GnuPth.Manager.EvportLaws

/-!
# The stamps of the event port

Nothing in the cache is cleared between two passes; what belongs to a pass is
told by its stamp alone. The calls of `pth_evp_want` are taken here with the
memory that they get.
-/

namespace GnuPth.Manager.Evp

/-- A call of `pth_evp_want`, and whether there is memory for a larger cache and
for one more entry of `evp_touched`. -/
structure Want where
  fd : Fd
  mask : Bits
  grow : Bool
  push : Bool

/-- `pth_evp_want`, with its result -/
def wantIn (q : Evp) (w : Want) : Evp × Bool :=
  if q.regcap ≤ w.fd ∧ w.grow = false then (q, false)
  else
    let q := q.growReg w.fd
    let r := q.reg w.fd
    if r.gen ≠ q.gen then
      let q := q.setReg w.fd { r with gen := q.gen, want := w.mask }
      if w.push then ({ q with touched := q.touched ++ [w.fd] }, true) else (q, false)
    else (q.setReg w.fd { r with want := r.want.or w.mask }, true)

/-- Beside the cache, what was asked for in this pass by calls that returned `TRUE`. -/
def collect (c : Evp × List (Fd × Bits)) (w : Want) : Evp × List (Fd × Bits) :=
  let (q, ok) := c.1.wantIn w
  (q, if ok then c.2 ++ [(w.fd, w.mask)] else c.2)

def asked (l : List (Fd × Bits)) (fd : Fd) : Bits :=
  l.foldl (fun b a => if a.1 = fd then b.or a.2 else b) .zero

structure Collected (c : Evp × List (Fd × Bits)) : Prop where
  sane : c.1.Sane
  tracks : c.1.Tracks
  touched : ∀ fd, fd ∈ c.1.touched ↔ fd ∈ c.2.map Prod.fst
  want : ∀ fd ∈ c.1.touched, (c.1.reg fd).want = asked c.2 fd

/-- The caches between two passes, if memory never ran out for `evp_touched`. -/
inductive Between (revalMs : Int) : Evp → Prop
  | init : Between revalMs (init revalMs)
  | pass {q} (h : Between revalMs q) (ws : List Want) (hws : ∀ w ∈ ws, w.push = true) (force : Bool)
      (os : EvpOs) (timeout : Int) :
      Between revalMs
        (({ (ws.foldl collect (q.begin, [])).1 with force }.commit os).evpWait os timeout).1

section
variable {q : Evp} {ws : List Want} {revalMs : Int}

theorem wantIn_push (hw : w.push = true) :
    q.wantIn w = (q, false) ∨ q.wantIn w = (q.want w.fd w.mask, true) := by
  unfold wantIn Evp.want
  split
  · exact .inl rfl
  · right
    simp only
    split <;> rfl

theorem asked_absent (h : fd ∉ l.map Prod.fst) :
    asked l fd = .zero := by
  apply List.foldlRecOn (motive := fun b => b = Bits.zero)
  · rfl
  · rintro b rfl a ha
    refine if_neg fun he => h ?_
    rw [← he]
    exact List.mem_map_of_mem ha

theorem Collected.want_step (h : Collected c) (fd : Fd) (mask : Bits) :
    Collected (c.1.want fd mask, c.2 ++ [(fd, mask)]) := by
  have hg := h.tracks.growReg fd
  refine ⟨h.sane.want fd mask, h.tracks.want fd mask, fun x => ?_, fun x hx => ?_⟩
  · rw [h.tracks.mem_want, h.touched]
    simp [or_comm]
  · rw [h.tracks.mem_want] at hx
    rw [want_reg, asked, List.foldl_append, List.foldl_cons, List.foldl_nil]
    -- an entry below the capacity is not touched by the growing
    have hold : x ∈ c.1.touched → ((c.1.growReg fd).reg x).want = asked c.2 x := by
      intro hm
      rcases growReg_reg c.1 fd x with hr | ⟨hcap, -⟩
      · rw [hr, h.want x hm]
      · exact absurd (h.tracks.below x hm) (not_lt.mpr hcap)
    have hstamp : ((c.1.growReg fd).reg fd).gen = c.1.gen ↔ fd ∈ c.1.touched := by
      rw [← growReg_gen c.1 fd, ← hg.touched, growReg_touched]
    by_cases hxf : x = fd
    · subst hxf
      rw [if_pos rfl, if_pos rfl]
      split
      · rename_i hs
        rw [hold (hstamp.mp hs)]
        rfl
      · rename_i hs
        have hz : asked c.2 x = .zero := asked_absent fun hm => hs (hstamp.mpr ((h.touched x).mpr hm))
        exact (congrArg (Bits.or · mask) hz).symm
    · rw [if_neg hxf, if_neg (Ne.symm hxf)]
      exact hold (hx.resolve_left hxf)

theorem Collected.step (h : Collected c) (hw : w.push = true) : Collected (collect c w) := by
  unfold collect
  rcases wantIn_push (q := c.1) hw with he | he
  · rw [he]
    exact h
  · rw [he]
    exact h.want_step w.fd w.mask

theorem Sane.collected (h : Sane q) (hws : ∀ w ∈ ws, w.push = true) :
    Collected (ws.foldl collect (q.begin, [])) := by
  apply List.foldlRecOn
  · have htouched : q.begin.touched = [] := by
      unfold Evp.begin
      simp only
      split <;> rfl
    exact ⟨h.begin_sane, h.begin, by simp [htouched], by simp [htouched]⟩
  · exact fun c hc w hw => hc.step (hws w hw)

theorem Collected.forced (h : Collected c) (force : Bool) :
    Sane { c.1 with force } ∧ Tracks { c.1 with force } :=
  ⟨⟨h.sane.gen, h.sane.stamps, h.sane.unused⟩,
    h.tracks.pos, h.tracks.nodup, h.tracks.touched, h.tracks.unreported, h.tracks.below⟩

theorem Between.sane (h : Between revalMs q) : Sane q := by
  induction h with
  | init => exact sane_init revalMs
  | pass _ ws hws force os timeout ih =>
    obtain ⟨hs, ht⟩ := (ih.collected hws).forced force
    exact (hs.commit ht os).evpWait os timeout

/-- In every pass `evp_touched` lists the wanted descriptors, each once, with the
masks of this pass; a descriptor has a reply only if `pth_evp_ctl` has flagged it or
epoll_wait(2) has reported it in this pass. -/
theorem stamps_fresh (revalMs : Int) (q : Evp) (h : Between revalMs q) (ws : List Want)
    (hws : ∀ w ∈ ws, w.push = true) (force : Bool) (os : EvpOs) (timeout : Int) :
    let c := ws.foldl collect (q.begin, [])
    let d := Evp.commit { c.1 with force } os
    c.1.touched.Nodup ∧
    (∀ fd, fd ∈ c.1.touched ↔ fd ∈ c.2.map Prod.fst) ∧
    (∀ fd ∈ c.1.touched, (c.1.reg fd).want = asked c.2 fd) ∧
    ∀ fd, c.1.ready fd = .none ∧
      (d.ready fd ≠ .none → fd ∈ c.1.touched ∧ flags os force fd (c.1.reg fd) = true) ∧
      ((d.evpWait os timeout).1.ready fd ≠ .none →
        d.ready fd ≠ .none ∨ fd ∈ (d.delivered os).map Prod.fst) := by
  intro c d
  have hc : Collected c := h.sane.collected hws
  refine ⟨hc.tracks.nodup, hc.touched, hc.want, fun fd => ⟨?_, fun hd => ?_, fun hr => ?_⟩⟩
  · exact if_neg fun hs => hc.tracks.unreported fd hs.2
  · rw [commit_ready (hc.forced force).2] at hd
    exact (ite_ne_right_iff.mp hd).1
  · by_cases hfd : fd < d.regcap
    · rw [evpWait_ready d os timeout hfd] at hr
      cases hl : lastReport (d.delivered os) fd with
      | none => exact .inl (by simpa [hl] using hr)
      | some => exact .inr (lastReport_mem hl)
    · refine absurd (if_neg fun hs => hfd ?_) hr
      exact (evpWait_regcap d os timeout) ▸ hs.1

end

def wantTwice : List Want :=
  [⟨5, ⟨true, false, false⟩, true, true⟩, ⟨5, ⟨false, true, false⟩, true, true⟩]

theorem stamps_fresh_twice :
    ((wantTwice.foldl collect ((init 0).begin, [])).1.reg 5).want = ⟨true, true, false⟩ :=
  ((stamps_fresh 0 (init 0) .init wantTwice (by decide) false ⟨fun _ _ _ => none, true, none⟩ 0).2.2.1
    5 (by decide +kernel)).trans (by decide +kernel)

/-- The failed call has set the stamp, so the next one returns `TRUE` and lists nothing. -/
theorem stamps_unlisted :
    let c := [⟨5, ⟨true, false, false⟩, true, false⟩, ⟨5, ⟨true, false, false⟩, true, true⟩].foldl
      collect ((init 0).begin, [])
    c.2.map Prod.fst = [5] ∧ c.1.touched = [] := by
  decide +kernel

end GnuPth.Manager.Evp
