import Mathlib.Data.List.Basic
import Mathlib.Data.List.Perm.Basic
import Mathlib.Logic.Function.Iterate

/-!
# Sweeping a list in place

A loop goes over a list by index. An element that is to go is overwritten with the
last one, and the list gets shorter; otherwise the index moves on.
-/

namespace Sweep

theorem swapRemove (a b : List α) (x : α) :
    ∃ b', ((a ++ x :: b).set a.length ((a ++ x :: b).getLastD x)).dropLast = a ++ b' ∧ b'.Perm b := by
  rcases List.eq_nil_or_concat' b with rfl | ⟨b, y, rfl⟩
  · exact ⟨[], by simp, .nil⟩
  · refine ⟨y :: b, ?_, (List.perm_append_singleton y b).symm⟩
    have hlist : a ++ x :: (b ++ [y]) = (a ++ x :: b) ++ [y] := by simp
    have hset : (a ++ x :: (b ++ [y])).set a.length y = (a ++ y :: b) ++ [y] := by simp
    rw [List.getLastD_eq_getLast?, hlist, List.getLast?_concat, ← hlist]
    exact (congrArg List.dropLast hset).trans List.dropLast_concat

/-- One round of such a loop: `list` is in the state, and `I` says what the state is
once the elements of its first argument have gone. -/
structure Rounds (list : S → List α) (keep : α → Bool) (I : List α → S → Prop)
    (f : Nat × S → Nat × S) : Prop where
  stops : ∀ i s, (list s)[i]? = none → f (i, s) = (i, s)
  keeps : ∀ D i s x, I D s → x ∉ D → (list s)[i]? = some x → keep x = true → f (i, s) = (i + 1, s)
  drops : ∀ D i s x, I D s → x ∉ D → (list s)[i]? = some x → keep x = false →
    (f (i, s)).1 = i ∧ list (f (i, s)).2 = ((list s).set i ((list s).getLastD x)).dropLast ∧
      I (x :: D) (f (i, s)).2

theorem Rounds.run {list : S → List α} (h : Rounds list keep I f) (hl : list s = a ++ b) (hn : b.length ≤ n)
    (hD : (b ++ D).Nodup) (hI : I D s) :
    ∃ c E, list (f^[n] (a.length, s)).2 = a ++ c ∧ c.Perm (b.filter keep) ∧
      E.Perm (b.filter (!keep ·) ++ D) ∧ I E (f^[n] (a.length, s)).2 := by
  induction n generalizing a b D s with
  | zero =>
    obtain rfl := List.length_eq_zero_iff.mp (Nat.le_zero.mp hn)
    exact ⟨[], D, hl, .nil, .refl _, hI⟩
  | succ n ih =>
    rw [Function.iterate_succ_apply]
    cases b with
    | nil =>
      rw [h.stops _ _ (by simp [hl])]
      exact ih hl (Nat.zero_le n) hD hI
    | cons x b =>
      have hx : (list s)[a.length]? = some x := by simp [hl]
      have hxD : x ∉ D := fun hm => (List.nodup_cons.mp hD).1 (List.mem_append_right b hm)
      cases hk : keep x with
      | true =>
        rw [h.keeps D _ s x hI hxD hx hk]
        have hl' : list s = (a ++ [x]) ++ b := by simp [hl]
        obtain ⟨c, E, hc, hcp, hE, hIE⟩ :=
          ih hl' (Nat.le_of_succ_le_succ hn) (List.nodup_cons.mp hD).2 hI
        refine ⟨x :: c, E, ?_, ?_, ?_, ?_⟩
        · simpa using hc
        · simpa [hk] using hcp
        · simpa [hk] using hE
        · simpa using hIE
      | false =>
        obtain ⟨hi, hlist, hI'⟩ := h.drops D _ s x hI hxD hx hk
        obtain ⟨b', hb', hperm⟩ := swapRemove a b x
        rw [hl, hb'] at hlist
        have hD' : (b' ++ x :: D).Nodup := by
          have hp : (b' ++ x :: D).Perm (x :: b ++ D) :=
            List.perm_middle.trans ((hperm.append_right D).cons x)
          exact hp.nodup_iff.mpr hD
        have hlen : b'.length ≤ n := hperm.length_eq ▸ Nat.le_of_succ_le_succ hn
        obtain ⟨c, E, hc, hcp, hE, hIE⟩ := ih hlist hlen hD' hI'
        have hf : f (a.length, s) = (a.length, (f (a.length, s)).2) := Prod.ext hi rfl
        rw [hf]
        refine ⟨c, E, hc, ?_, ?_, hIE⟩
        · simpa [hk] using hcp.trans (hperm.filter keep)
        · have hp := (hperm.filter (!keep ·)).append_right (x :: D)
          simpa [hk] using hE.trans (hp.trans List.perm_middle)

end Sweep
