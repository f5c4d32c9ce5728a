import Mathlib.Algebra.BigOperators.Group.List.Basic
import Mathlib.Algebra.GroupWithZero.Nat
import Mathlib.Algebra.Order.BigOperators.Group.List
import Mathlib.Algebra.Order.Group.Nat
import Mathlib.Order.Monotone.Basic
import Mathlib.Tactic.SplitIfs

/-! # Counting who holds a position

A range is a pair `(lo, hi)` and holds the positions `lo ≤ x < hi`. `countAt rs x` is the number of
ranges of the list that hold `x`; a list of ranges is a partition of `[0, n)` if it counts one below
`n` and nothing from `n` on (`Partitions`). Splitting a range at a point inside it changes no count
(`hold_split`), and the counts add up to the lengths (`sum_countAt`). -/

namespace CncContent.Lib.CoverCount

/-- One if the range holds the position, else zero. -/
def hold (r : ℕ × ℕ) (x : ℕ) : ℕ := if r.1 ≤ x ∧ x < r.2 then 1 else 0

/-- The number of ranges that hold the position. -/
def countAt (rs : List (ℕ × ℕ)) (x : ℕ) : ℕ := (rs.map fun r => hold r x).sum

/-- Every position below `n` is held once, no other at all. -/
def Partitions (rs : List (ℕ × ℕ)) (n : ℕ) : Prop := ∀ x, countAt rs x = hold (0, n) x

theorem hold_split {lo mid hi : ℕ} (h1 : lo ≤ mid) (h2 : mid ≤ hi) (x : ℕ) :
    hold (lo, mid) x + hold (mid, hi) x = hold (lo, hi) x := by
  unfold hold
  split_ifs <;> omega

theorem hold_of_mem {r : ℕ × ℕ} {x : ℕ} (h1 : r.1 ≤ x) (h2 : x < r.2) : hold r x = 1 :=
  if_pos ⟨h1, h2⟩

theorem hold_le_one (r : ℕ × ℕ) (x : ℕ) : hold r x ≤ 1 := by
  unfold hold
  split_ifs <;> omega

/-! ### The count of a list -/

@[simp] theorem countAt_nil (x : ℕ) : countAt [] x = 0 := rfl

@[simp] theorem countAt_cons (r : ℕ × ℕ) (rs : List (ℕ × ℕ)) (x : ℕ) :
    countAt (r :: rs) x = hold r x + countAt rs x := rfl

@[simp] theorem countAt_append (rs rs' : List (ℕ × ℕ)) (x : ℕ) :
    countAt (rs ++ rs') x = countAt rs x + countAt rs' x := by
  unfold countAt
  rw [List.map_append, List.sum_append]

/-- Replacing a range replaces its share. -/
theorem countAt_set {r : ℕ × ℕ} (r' : ℕ × ℕ) (x : ℕ) : ∀ {rs : List (ℕ × ℕ)} {i : ℕ},
    rs[i]? = some r → countAt (rs.set i r') x + hold r x = countAt rs x + hold r' x
  | a :: rs, 0, h => by
    cases h
    show hold r' x + countAt rs x + hold r x = hold r x + countAt rs x + hold r' x
    omega
  | a :: rs, i + 1, h => by
    have ih : countAt (rs.set i r') x + hold r x = countAt rs x + hold r' x := countAt_set r' x h
    show hold a x + countAt (rs.set i r') x + hold r x = hold a x + countAt rs x + hold r' x
    omega

theorem countAt_pos_iff {rs : List (ℕ × ℕ)} {x : ℕ} :
    0 < countAt rs x ↔ ∃ r ∈ rs, r.1 ≤ x ∧ x < r.2 := by
  induction rs with
  | nil => simp
  | cons r rs ih =>
    rw [countAt_cons, List.exists_mem_cons_iff, ← ih]
    unfold hold
    by_cases h : r.1 ≤ x ∧ x < r.2
    · rw [if_pos h]
      exact ⟨fun _ => Or.inl h, fun _ => by omega⟩
    · rw [if_neg h]
      refine ⟨fun h' => Or.inr (by omega), fun h' => ?_⟩
      rcases h' with h' | h'
      · exact absurd h' h
      · omega

theorem hold_le_countAt {rs : List (ℕ × ℕ)} {r : ℕ × ℕ} (h : r ∈ rs) (x : ℕ) :
    hold r x ≤ countAt rs x := by
  by_cases hx : r.1 ≤ x ∧ x < r.2
  · have := countAt_pos_iff.mpr ⟨r, h, hx⟩
    have := hold_le_one r x
    omega
  · rw [hold, if_neg hx]
    exact Nat.zero_le _

/-- Consecutive ranges hold what the range from the first to the last bound does. -/
theorem countAt_consecutive {b : ℕ → ℕ} (hb : Monotone b) (x : ℕ) : ∀ n,
    countAt ((List.range n).map fun i => (b i, b (i + 1))) x = hold (b 0, b n) x
  | 0 => by simp [hold]
  | n + 1 => by
    rw [List.range_succ, List.map_append, countAt_append, countAt_consecutive hb x n]
    exact hold_split (hb (Nat.zero_le n)) (hb (Nat.le_succ n)) x

/-! ### The sum of the counts -/

/-- The positions below `n` a range holds. -/
theorem sum_hold (r : ℕ × ℕ) : ∀ n, ((List.range n).map (hold r)).sum = min n r.2 - r.1
  | 0 => by simp
  | n + 1 => by
    rw [List.range_succ, List.map_append, List.sum_append, sum_hold r n]
    simp only [List.map_cons, List.map_nil, List.sum_cons, List.sum_nil, hold]
    split_ifs <;> omega

/-- **The counts add up to the lengths.** -/
theorem sum_countAt {n : ℕ} : ∀ {rs : List (ℕ × ℕ)}, (∀ r ∈ rs, r.1 < r.2 → r.2 ≤ n) →
    ((List.range n).map (countAt rs)).sum = (rs.map fun r => r.2 - r.1).sum
  | [], _ => by
    show ((List.range n).map fun _ => 0).sum = 0
    simp
  | r :: rs, h => by
    have ih : ((List.range n).map (countAt rs)).sum = (rs.map fun r => r.2 - r.1).sum :=
      sum_countAt fun r' hr' => h r' (by simp [hr'])
    have hr := h r (by simp)
    show ((List.range n).map fun x => hold r x + countAt rs x).sum = _
    rw [List.sum_map_add, ih, List.map_cons, List.sum_cons, sum_hold r n]
    omega

/-- Ranges of which no two hold one position. -/
theorem countAt_le_one {x : ℕ} : ∀ {rs : List (ℕ × ℕ)},
    (rs.Pairwise fun r r' => r.1 ≤ x → x < r.2 → ¬ (r'.1 ≤ x ∧ x < r'.2)) → countAt rs x ≤ 1
  | [], _ => Nat.zero_le _
  | r :: rs, h => by
    obtain ⟨hr, hrs⟩ := List.pairwise_cons.mp h
    rw [countAt_cons]
    by_cases hx : r.1 ≤ x ∧ x < r.2
    · have hnone : ¬ 0 < countAt rs x := fun hpos => by
        obtain ⟨r', hmem, hx'⟩ := countAt_pos_iff.mp hpos
        exact hr r' hmem hx.1 hx.2 hx'
      have := hold_le_one r x
      omega
    · rw [hold, if_neg hx, Nat.zero_add]
      exact countAt_le_one hrs

/-- **Ranges of which no two hold one position** have at most the bytes up to the last bound. -/
theorem sum_length_le {n : ℕ} {rs : List (ℕ × ℕ)} (hn : ∀ r ∈ rs, r.1 < r.2 → r.2 ≤ n)
    (h : ∀ x, rs.Pairwise fun r r' => r.1 ≤ x → x < r.2 → ¬ (r'.1 ≤ x ∧ x < r'.2)) :
    (rs.map fun r => r.2 - r.1).sum ≤ n := by
  have hle := List.sum_le_card_nsmul ((List.range n).map (countAt rs)) 1 fun c hc => by
    obtain ⟨x, -, rfl⟩ := List.mem_map.mp hc
    exact countAt_le_one (h x)
  rwa [sum_countAt hn, List.length_map, List.length_range, Nat.nsmul_eq_mul, Nat.mul_one] at hle

/-- The number of elements with a property, as a sum. -/
theorem length_filter_eq_sum {p : ℕ → Bool} {f : ℕ → ℕ} : ∀ {l : List ℕ},
    (∀ x ∈ l, f x = if p x then 1 else 0) → (l.filter p).length = (l.map f).sum
  | [], _ => rfl
  | a :: l, h => by
    have ih := length_filter_eq_sum fun x hx => h x (List.mem_cons_of_mem a hx)
    have ha := h a (by simp)
    rw [List.map_cons, List.sum_cons, ← ih, ha, List.filter_cons]
    split_ifs
    · rw [List.length_cons, Nat.add_comm]
    · rw [Nat.zero_add]

end CncContent.Lib.CoverCount
