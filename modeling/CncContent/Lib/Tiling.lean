import Mathlib.Algebra.BigOperators.Group.List.Basic
import Mathlib.Algebra.Group.Nat.Even
import Mathlib.Algebra.Ring.Nat

/-! # Tilings

A list of half-open spans tiles an interval if the first one starts where the interval does, each other one
where the one before it ends, the last one ends where the interval does, and none is empty. The spans between
the values of a strictly increasing function are a tiling (`tiles_range'`); the lengths of a tiling add up to
that of the interval (`Tiles.sum_length`). -/

namespace CncContent.Lib.Tiling

variable {ι : Type*} {lo hi : ι → ℕ}

variable (lo hi) in
/-- The spans tile the interval from `a` to `b`. -/
def Tiles : ℕ → List ι → ℕ → Prop
  | a, [], b => a = b
  | a, r :: l, b => lo r = a ∧ lo r < hi r ∧ Tiles (hi r) l b

/-- The spans between the cuts. -/
theorem tiles_range' {cut : ℕ → ℕ} {span : ℕ → ι} : ∀ {k n : ℕ},
    (∀ i, k ≤ i → i < k + n → lo (span i) = cut i ∧ hi (span i) = cut (i + 1) ∧ cut i < cut (i + 1)) →
    Tiles lo hi (cut k) ((List.range' k n).map span) (cut (k + n))
  | k, 0, _ => rfl
  | k, n + 1, h => by
    obtain ⟨hlo, hhi, hlt⟩ := h k (Nat.le_refl k) (by omega)
    have ih := tiles_range' (k := k + 1) (n := n) fun i hki hi => h i (by omega) (by omega)
    rw [List.range'_succ, List.map_cons]
    refine ⟨hlo, hlo ▸ hhi ▸ hlt, ?_⟩
    rw [hhi, show k + (n + 1) = k + 1 + n by omega]
    exact ih

theorem Tiles.le : ∀ {l : List ι} {a b : ℕ}, Tiles lo hi a l b → a ≤ b
  | [], _, _, h => Nat.le_of_eq h
  | _ :: _, _, _, ⟨rfl, hlt, hrest⟩ => Nat.le_trans (Nat.le_of_lt hlt) hrest.le

/-- A span of a tiling lies in the interval. -/
theorem Tiles.of_mem : ∀ {l : List ι} {a b : ℕ}, Tiles lo hi a l b → ∀ r ∈ l, lo r < hi r ∧ hi r ≤ b
  | r :: l, _, _, ⟨_, hlt, hrest⟩, x, hx => by
    rcases List.mem_cons.mp hx with rfl | hx
    · exact ⟨hlt, hrest.le⟩
    · exact hrest.of_mem x hx

theorem Tiles.sum_length : ∀ {l : List ι} {a b : ℕ}, Tiles lo hi a l b →
    a + (l.map fun r => hi r - lo r).sum = b
  | [], _, _, h => h
  | r :: l, a, b, h => by
    obtain ⟨rfl, hlt, hrest⟩ := h
    have ih := hrest.sum_length
    rw [List.map_cons, List.sum_cons]
    omega

end CncContent.Lib.Tiling
