import Mathlib.Algebra.GroupWithZero.Nat
import Mathlib.Tactic.SplitIfs

/-! # Arithmetic of bounded unsigned integers

A machine integer is a natural number; what a type's width changes is stated by the operations: the
checked ones fail, the saturating ones stop at the largest value. -/

namespace CncContent.Lib.Bounded

/-- The largest 32-bit value. -/
def u32Max : ℕ := 2 ^ 32 - 1

/-- The largest 64-bit value; `usize` has the same width. -/
def u64Max : ℕ := 2 ^ 64 - 1

/-- The largest size of an allocation. -/
def isizeMax : ℕ := 2 ^ 63 - 1

/-- The value cut to 32 bits, as by `as u32`. -/
def asU32 (n : ℕ) : ℕ := n % (u32Max + 1)

/-- The sum, if it does not exceed `m`. -/
def checkedAdd (m a b : ℕ) : Option ℕ := if a + b ≤ m then some (a + b) else none

/-- The product, if it does not exceed `m`. -/
def checkedMul (m a b : ℕ) : Option ℕ := if a * b ≤ m then some (a * b) else none

/-- The sum, or `m` if that is smaller. -/
def satAdd (m a b : ℕ) : ℕ := min (a + b) m

/-- The sum, which starts again at zero behind `m`. -/
def wrappingAdd (m a b : ℕ) : ℕ := (a + b) % (m + 1)

/-- The product, or `m` if that is smaller. -/
def satMul (m a b : ℕ) : ℕ := min (a * b) m

/-- The power, or `m` if that is smaller. -/
def satPow (m a n : ℕ) : ℕ := min (a ^ n) m

/-- A sum that does not saturate. -/
theorem satAdd_of_le {m a b : ℕ} (h : a + b ≤ m) : satAdd m a b = a + b := Nat.min_eq_left h

/-- Saturating sums, one after the other, are the saturated sum. -/
theorem satAdd_min (m a b : ℕ) : satAdd m (min a m) b = min (a + b) m := by
  unfold satAdd
  omega

theorem asU32_le (n : ℕ) : asU32 n ≤ n := Nat.mod_le _ _

theorem asU32_lt (n : ℕ) : asU32 n < u32Max + 1 := Nat.mod_lt _ (Nat.succ_pos _)

theorem asU32_of_lt {n : ℕ} (h : n < 2 ^ 32) : asU32 n = n := Nat.mod_eq_of_lt h

theorem checkedAdd_of_le {m a b : ℕ} (h : a + b ≤ m) : checkedAdd m a b = some (a + b) := if_pos h

theorem checkedAdd_eq_some_iff {m a b c : ℕ} :
    checkedAdd m a b = some c ↔ c = a + b ∧ a + b ≤ m := by
  unfold checkedAdd
  split_ifs with h
  · rw [Option.some.injEq]
    exact ⟨fun he => ⟨he.symm, h⟩, fun he => he.1.symm⟩
  · exact ⟨nofun, fun he => absurd he.2 h⟩

end CncContent.Lib.Bounded
