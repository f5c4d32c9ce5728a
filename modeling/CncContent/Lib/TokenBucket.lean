import Mathlib.Algebra.BigOperators.Group.List.Basic
import Mathlib.Algebra.Order.Field.Rat
import Mathlib.Tactic.Linarith
import Mathlib.Tactic.Ring

/-! # Token buckets

A bucket holds at most `cap` tokens and gains `rate` tokens in a unit of time. What happens to it is a
list of events, each a time and the tokens taken then; `Metered` says that nothing is taken that is not
there. The tokens that are there are a potential: what is taken later is paid from them and from what
is gained until then (`Metered.spent_le_level`). As there are never more than `cap`, what is taken in a
window is at most `cap` and what is gained in it (`Metered.spent_le`). -/

namespace CncContent.Lib.TokenBucket

variable {rate cap : ℚ}

/-- The events, in a bucket that had at most `level` tokens at the time `u`. -/
def Metered (rate cap : ℚ) : ℚ → ℚ → List (ℚ × ℚ) → Prop
  | _, _, [] => True
  | level, u, (u', n) :: es => 0 ≤ n ∧ ∃ level' ≤ cap, level' ≤ level + rate * (u' - u) ∧
    (n = 0 ∨ n ≤ level') ∧ Metered rate cap (level' - n) u' es

section

variable {level level' u u' n : ℚ} {es : List (ℚ × ℚ)}

/-- An event that takes nothing. -/
theorem Metered.idle (hn : n = 0) (hcap : level' ≤ cap) (hlevel : level' ≤ level + rate * (u' - u))
    (h : Metered rate cap level' u' es) : Metered rate cap level u ((u', n) :: es) := by
  subst hn
  exact ⟨le_rfl, level', hcap, hlevel, Or.inl rfl, (sub_zero level').symm ▸ h⟩

/-- An event that takes what is there. -/
theorem Metered.take (hn : 0 ≤ n) (hle : n ≤ level') (hcap : level' ≤ cap)
    (hlevel : level' ≤ level + rate * (u' - u)) (h : Metered rate cap (level' - n) u' es) :
    Metered rate cap level u ((u', n) :: es) :=
  ⟨hn, level', hcap, hlevel, Or.inr hle, h⟩

end

/-- What is taken from the time `s` to the time `t`. -/
def spent (s t : ℚ) (es : List (ℚ × ℚ)) : ℚ :=
  ((es.filter fun e => s ≤ e.1 ∧ e.1 ≤ t).map Prod.snd).sum

theorem spent_nil {s t : ℚ} : spent s t [] = 0 := rfl

theorem spent_cons_of_mem {s t u n : ℚ} {es : List (ℚ × ℚ)} (hs : s ≤ u) (ht : u ≤ t) :
    spent s t ((u, n) :: es) = n + spent s t es := by
  simp [spent, hs, ht]

theorem spent_cons_of_notMem {s t u n : ℚ} {es : List (ℚ × ℚ)} (h : ¬ (s ≤ u ∧ u ≤ t)) :
    spent s t ((u, n) :: es) = spent s t es := by
  simp [spent, h]

/-- **The tokens are a potential**: what is taken until `t` is paid from them and from what is gained
until `t`. -/
theorem Metered.spent_le_level (hrate : 0 ≤ rate) {s t : ℚ} : ∀ {es : List (ℚ × ℚ)} {level u : ℚ},
    Metered rate cap level u es → spent s t es = 0 ∨ spent s t es ≤ level + rate * (t - u)
  | [], _, _, _ => Or.inl spent_nil
  | (u', n) :: es, level, u, h => by
    obtain ⟨hn, level', -, hlevel, htake, hrest⟩ := h
    have ih := hrest.spent_le_level hrate (s := s) (t := t)
    have hsum : rate * (t - u) = rate * (u' - u) + rate * (t - u') := by ring
    by_cases hw : s ≤ u' ∧ u' ≤ t
    · rw [spent_cons_of_mem hw.1 hw.2]
      have hgain : 0 ≤ rate * (t - u') := mul_nonneg hrate (by linarith [hw.2])
      rcases ih with hzero | hle
      · rcases htake with rfl | htake
        · exact Or.inl (by linarith)
        · exact Or.inr (by linarith)
      · exact Or.inr (by linarith)
    · rw [spent_cons_of_notMem hw]
      rcases ih with hzero | hle
      · exact Or.inl hzero
      · exact Or.inr (by linarith)

/-- **Every window** is bounded by a full bucket and what is gained in the window. -/
theorem Metered.spent_le (hrate : 0 ≤ rate) (hcap : 0 ≤ cap) {s t : ℚ} (hst : s ≤ t) :
    ∀ {es : List (ℚ × ℚ)} {level u : ℚ}, Metered rate cap level u es →
      spent s t es ≤ cap + rate * (t - s)
  | [], _, _, _ => by
    have hgain : 0 ≤ rate * (t - s) := mul_nonneg hrate (by linarith)
    rw [spent_nil]
    linarith
  | (u', n) :: es, level, u, h => by
    have hgain : 0 ≤ rate * (t - s) := mul_nonneg hrate (by linarith)
    obtain ⟨hn, level', hfull, -, htake, hrest⟩ := h
    by_cases hw : s ≤ u' ∧ u' ≤ t
    · rw [spent_cons_of_mem hw.1 hw.2]
      -- the first event of the window: from here on the potential is at most that of a full bucket
      have hlater : rate * (t - u') ≤ rate * (t - s) :=
        mul_le_mul_of_nonneg_left (by linarith [hw.1]) hrate
      rcases hrest.spent_le_level hrate (s := s) (t := t) with hzero | hle
      · rcases htake with rfl | htake <;> linarith
      · linarith
    · rw [spent_cons_of_notMem hw]
      exact hrest.spent_le hrate hcap hst

end CncContent.Lib.TokenBucket
