import Mathlib.Algebra.BigOperators.Intervals
import Mathlib.Algebra.BigOperators.Ring.Finset
import Mathlib.Algebra.Order.Field.Basic
import Mathlib.Data.List.GetD
import Mathlib.Data.List.Induction
import Mathlib.Tactic.Linarith
import Mathlib.Tactic.Ring

/-! # Moving averages

An exponentially weighted moving average keeps the share `1 - α` of what it was and takes the share `α`
of each new value. It is the average of all values so far by weights that fall off geometrically
(`movingAverage_eq`), and lies between the smallest and the largest of them (`exists_le_movingAverage`,
`exists_movingAverage_le`). -/

namespace CncContent.Lib.Averages

variable {K : Type*} [Field K]

/-- The average after the values of the list, from the first value on. -/
def movingAverage (α first : K) (xs : List K) : K :=
  xs.foldl (fun average x => α * x + (1 - α) * average) first

/-- The average by weights: the last value has the weight `α`, each earlier one `1 - α` times the weight of
the next, and the first value what is left. -/
def weightedAverage (α first : K) (xs : List K) : K :=
  (1 - α) ^ xs.length * first +
    ∑ j ∈ Finset.range xs.length, α * (1 - α) ^ (xs.length - 1 - j) * xs.getD j 0

variable {α first : K} {xs : List K}

theorem movingAverage_append_singleton (x : K) :
    movingAverage α first (xs ++ [x]) = α * x + (1 - α) * movingAverage α first xs := by
  unfold movingAverage
  rw [List.foldl_append]
  rfl

theorem movingAverage_neg : movingAverage α (-first) (xs.map Neg.neg) = -movingAverage α first xs := by
  induction xs using List.reverseRecOn with
  | nil => rfl
  | append_singleton xs x ih =>
    rw [List.map_append, List.map_singleton, movingAverage_append_singleton, ih,
      movingAverage_append_singleton]
    ring

/-- **A moving average** is the average by geometric weights. -/
theorem movingAverage_eq : movingAverage α first xs = weightedAverage α first xs := by
  induction xs using List.reverseRecOn with
  | nil =>
    unfold weightedAverage
    rw [List.length_nil, pow_zero, one_mul, Finset.range_zero, Finset.sum_empty, add_zero]
    rfl
  | append_singleton xs x ih =>
    have hold : ∀ j ∈ Finset.range xs.length,
        α * (1 - α) ^ (xs.length + 1 - 1 - j) * (xs ++ [x]).getD j 0 =
          (1 - α) * (α * (1 - α) ^ (xs.length - 1 - j) * xs.getD j 0) := fun j hj => by
      have hlt := Finset.mem_range.mp hj
      rw [List.getD_append _ _ _ _ hlt, show xs.length + 1 - 1 - j = xs.length - 1 - j + 1 by omega,
        pow_succ]
      ring
    have hlast : (xs ++ [x]).getD xs.length 0 = x := by
      rw [List.getD_append_right _ _ _ _ le_rfl, Nat.sub_self]
      rfl
    rw [movingAverage_append_singleton, ih, weightedAverage, weightedAverage, List.length_append,
      List.length_singleton, Finset.sum_range_succ, Finset.sum_congr rfl hold, ← Finset.mul_sum, hlast,
      show xs.length + 1 - 1 - xs.length = 0 by omega, pow_zero, pow_succ]
    ring

section Bounds

variable [LinearOrder K] [IsStrictOrderedRing K]

/-- **Not all values** are above the average. -/
theorem exists_le_movingAverage (h0 : 0 ≤ α) (h1 : α ≤ 1) (first : K) (xs : List K) :
    ∃ x ∈ first :: xs, x ≤ movingAverage α first xs := by
  induction xs using List.reverseRecOn with
  | nil => exact ⟨first, List.mem_cons_self, le_rfl⟩
  | append_singleton xs x ih =>
    obtain ⟨y, hy, hle⟩ := ih
    rw [movingAverage_append_singleton]
    rcases le_total x (movingAverage α first xs) with hx | hx
    · refine ⟨x, by simp, ?_⟩
      have := mul_le_mul_of_nonneg_left hx (sub_nonneg.mpr h1)
      linarith
    · refine ⟨y, ?_, ?_⟩
      · rw [← List.cons_append]
        exact List.mem_append_left _ hy
      · have := mul_le_mul_of_nonneg_left hx h0
        linarith

/-- **Not all values** are below the average. -/
theorem exists_movingAverage_le (h0 : 0 ≤ α) (h1 : α ≤ 1) (first : K) (xs : List K) :
    ∃ x ∈ first :: xs, movingAverage α first xs ≤ x := by
  obtain ⟨y, hy, hle⟩ := exists_le_movingAverage h0 h1 (-first) (xs.map Neg.neg)
  rw [← List.map_cons, List.mem_map] at hy
  obtain ⟨x, hx, rfl⟩ := hy
  rw [movingAverage_neg] at hle
  exact ⟨x, hx, neg_le_neg_iff.mp hle⟩

end Bounds

end CncContent.Lib.Averages
