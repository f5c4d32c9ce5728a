import Mathlib.Order.Lattice
import Mathlib.Data.List.Pairwise
import Mathlib.Tactic.SplitIfs

/-! # Binary search in a sorted list

The search halves a window `[base, base + size)` until one position is left, and only then compares
for equality; it answers `ok i` at a position that holds the target and `error i` at the position
where it would have to be inserted. On strictly sorted keys both answers split the list in the same
way: the keys before the position are below the target and the others are not
(`lt_of_mem_take`, `le_of_mem_drop`). -/

namespace CncContent.Lib.BinarySearch

/-- The halving loop: `le i` says that the key at `i` is not above the target. -/
def bisect (le : ℕ → Bool) (base size : ℕ) : ℕ :=
  if 1 < size then
    let half := size / 2
    bisect le (if le (base + half) then base + half else base) (size - half)
  else base
termination_by size

/-- The loop ends at the last position that is not above the target, or at the first one. -/
theorem bisect_spec {le : ℕ → Bool} (hle : ∀ i j, i ≤ j → le j → le i) (base size : ℕ)
    (hsize : 0 < size) :
    base ≤ bisect le base size ∧ bisect le base size < base + size ∧
      (bisect le base size = base ∨ le (bisect le base size)) ∧
      ∀ j, bisect le base size < j → j < base + size → ¬ le j := by
  fun_induction bisect le base size with
  | case1 base size hlt half ih =>
    have hhalf : 0 < half ∧ half < size := by
      constructor
      · exact Nat.div_pos hlt (by decide)
      · exact Nat.div_lt_self (by omega) (by decide)
    obtain ⟨h1, h2, h3, h4⟩ := ih (by omega)
    split_ifs at h1 h2 h3 h4 ⊢ with hmid
    · refine ⟨by omega, by omega, Or.inr ?_, fun j hj hj' => h4 j hj (by omega)⟩
      rcases h3 with h3 | h3
      · rw [h3]; exact hmid
      · exact h3
    · refine ⟨h1, by omega, h3, fun j hj hj' hlej => ?_⟩
      by_cases hwin : j < base + (size - half)
      · exact h4 j hj hwin hlej
      · exact hmid (hle _ j (by omega) hlej)
  | case2 base size hlt => exact ⟨le_rfl, by omega, Or.inl rfl, fun j _ _ => by omega⟩

variable {α : Type} [LinearOrder α]

/-- The key at `i` is not above the target. -/
def notAbove (keys : List α) (target : α) (i : ℕ) : Bool :=
  match keys[i]? with
  | some k => decide (k ≤ target)
  | none => false

/-- The position of the target, or the position to insert it at. -/
def binarySearch (keys : List α) (target : α) : Except ℕ ℕ :=
  match keys[bisect (notAbove keys target) 0 keys.length]? with
  | none => .error 0
  | some k =>
    let base := bisect (notAbove keys target) 0 keys.length
    if k = target then .ok base
    else if k < target then .error (base + 1) else .error base

/-- The position a search answers with, either way. -/
def position : Except ℕ ℕ → ℕ
  | .ok i => i
  | .error i => i

theorem notAbove_of_le {keys : List α} (hs : keys.Pairwise (· < ·)) (target : α) (i j : ℕ)
    (hij : i ≤ j) (hj : notAbove keys target j) : notAbove keys target i := by
  unfold notAbove at hj ⊢
  rcases lt_or_ge j keys.length with hlt | hge
  · rw [List.getElem?_eq_getElem hlt, decide_eq_true_eq] at hj
    rw [List.getElem?_eq_getElem (by omega), decide_eq_true_eq]
    rcases Nat.lt_or_eq_of_le hij with h | rfl
    · exact ((List.pairwise_iff_getElem.mp hs) i j (by omega) hlt h).le.trans hj
    · exact hj
  · rw [List.getElem?_eq_none hge] at hj
    simp at hj

/-- **Where the search ends**: below the position the keys are less than the target, from the
position on they are not. -/
theorem binarySearch_spec {keys : List α} (hs : keys.Pairwise (· < ·)) (target : α) :
    position (binarySearch keys target) ≤ keys.length ∧
      ∀ (i : ℕ) (hi : i < keys.length),
        keys[i] < target ↔ i < position (binarySearch keys target) := by
  unfold binarySearch
  rcases Nat.eq_zero_or_pos keys.length with h0 | hpos
  · rw [List.getElem?_eq_none (by omega)]
    exact ⟨Nat.zero_le _, fun i hi => by omega⟩
  obtain ⟨-, hlt, hbase, habove⟩ := bisect_spec (notAbove_of_le hs target) 0 keys.length hpos
  generalize bisect (notAbove keys target) 0 keys.length = b at hlt hbase habove ⊢
  rw [Nat.zero_add] at hlt
  have hmono := List.pairwise_iff_getElem.mp hs
  -- every key after the final position is above the target
  have hgt : ∀ (i : ℕ) (hi : i < keys.length), b < i → target < keys[i] := by
    intro i hi hbi
    have := habove i hbi (by omega)
    simpa [notAbove, List.getElem?_eq_getElem hi] using this
  have hbefore : ∀ (i : ℕ) (hi : i < b), keys[i] < keys[b] := fun i hi => hmono i b _ hlt hi
  rw [List.getElem?_eq_getElem hlt]
  dsimp only
  split_ifs with heq hless
  · refine ⟨hlt.le, fun i hi => ⟨fun h => ?_, fun h => heq ▸ hbefore i h⟩⟩
    by_contra hn
    rcases Nat.lt_or_eq_of_le (not_lt.mp hn) with h' | rfl
    · exact lt_asymm h (hgt i hi h')
    · exact absurd heq h.ne
  · refine ⟨hlt, fun i hi => ⟨fun h => ?_, fun h => ?_⟩⟩
    · by_contra hn
      simp only [position, not_lt] at hn
      exact lt_asymm h (hgt i hi hn)
    · rcases Nat.lt_or_eq_of_le (Nat.lt_succ_iff.mp h) with h' | rfl
      · exact (hbefore i h').trans hless
      · exact hless
  · have hb : target < keys[b] := lt_of_le_of_ne (not_lt.mp hless) (Ne.symm heq)
    refine ⟨hlt.le, fun i hi => ⟨fun h => ?_, fun h => ?_⟩⟩
    · by_contra hn
      rcases Nat.lt_or_eq_of_le (not_lt.mp hn) with h' | rfl
      · exact lt_asymm h (hgt i hi h')
      · exact lt_asymm h hb
    · rcases hbase with h0 | hle
      · simp only [position] at h; omega
      · exact absurd (by simpa [notAbove, List.getElem?_eq_getElem hlt] using hle) (not_le.mpr hb)

theorem lt_of_mem_take {keys : List α} (hs : keys.Pairwise (· < ·)) {target k : α}
    (hk : k ∈ keys.take (position (binarySearch keys target))) : k < target := by
  obtain ⟨i, hi, rfl⟩ := List.getElem_of_mem hk
  rw [List.getElem_take]
  rw [List.length_take] at hi
  exact ((binarySearch_spec hs target).2 i (by omega)).mpr (by omega)

theorem le_of_mem_drop {keys : List α} (hs : keys.Pairwise (· < ·)) {target k : α}
    (hk : k ∈ keys.drop (position (binarySearch keys target))) : target ≤ k := by
  obtain ⟨i, hi, rfl⟩ := List.getElem_of_mem hk
  rw [List.getElem_drop]
  rw [List.length_drop] at hi
  refine not_lt.mp fun h => ?_
  have := ((binarySearch_spec hs target).2 _ (by omega)).mp h
  omega

end CncContent.Lib.BinarySearch
