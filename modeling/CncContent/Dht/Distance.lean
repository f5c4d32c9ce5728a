import CncContent.Lib.Bytes
import Mathlib.Data.Nat.Bitwise
import Mathlib.Data.Vector.Defs

/-! # Node identities

A `NodeId` is a number of 256 bits, the highest byte first, and the distance of two nodes the XOR of
their bytes. `bucket_index` finds the highest bit in which two nodes differ
(`bucketIndex_eq_some_iff`). -/

namespace CncContent.Dht.Distance

open CncContent.Lib.Bytes

def nodeIdLen : ℕ := 32

def bucketCount : ℕ := nodeIdLen * 8

abbrev NodeId := Vector UInt8 32

def xorDistance (a b : NodeId) : Vector UInt8 32 := Vector.zipWith (· ^^^ ·) a b

/-- `leading_zeros` of a byte. -/
def leadingZeros (byte : UInt8) : ℕ := if byte = 0 then 8 else 7 - byte.toNat.log2

/-- The loop of `bucket_index` over the bytes of the distance, from the `i`-th on. None of its
saturating operations can saturate. -/
def highestBit : List UInt8 → ℕ → Option ℕ
  | [], _ => none
  | byte :: bytes, i =>
    if byte ≠ 0 then some ((nodeIdLen - 1 - i) * 8 + (7 - leadingZeros byte))
    else highestBit bytes (i + 1)

def bucketIndex (a b : NodeId) : Option ℕ := highestBit (xorDistance a b).toList 0

/-! ### The highest different bit -/

/-- A bit of a node's number, counted from the lowest. -/
def bit (a : NodeId) (k : ℕ) : Bool := (ofBe a.toList).testBit k

/-- The nodes differ in the bit and in none above it. -/
def HighestDifference (a b : NodeId) (k : ℕ) : Prop :=
  bit a k ≠ bit b k ∧ ∀ j, k < j → bit a j = bit b j

theorem pow_256 (n : ℕ) : 256 ^ n = 2 ^ (8 * n) := (Nat.pow_mul 2 8 n).symm

/-- The number of the distance. -/
theorem testBit_zipWith_xor (k : ℕ) : ∀ {as bs : List UInt8}, as.length = bs.length →
    (ofBe (List.zipWith (· ^^^ ·) as bs)).testBit k =
      ((ofBe as).testBit k ^^ (ofBe bs).testBit k)
  | [], [], _ => by
    show (0 : ℕ).testBit k = ((0 : ℕ).testBit k ^^ (0 : ℕ).testBit k)
    rw [Nat.zero_testBit]
    rfl
  | a :: as, b :: bs, h => by
    have hlen : as.length = bs.length := Nat.succ.inj h
    have hzip : (List.zipWith (· ^^^ ·) as bs).length = as.length := by
      rw [List.length_zipWith, hlen, Nat.min_self]
    have hlt : ∀ l : List UInt8, ofBe l < 2 ^ (8 * l.length) := fun l => pow_256 _ ▸ ofBe_lt l
    rw [List.zipWith_cons_cons, ofBe_cons, ofBe_cons, ofBe_cons, pow_256, pow_256, pow_256,
      Nat.testBit_two_pow_mul_add _ (hlt _), Nat.testBit_two_pow_mul_add _ (hlt _),
      Nat.testBit_two_pow_mul_add _ (hlt _), hzip, hlen]
    split_ifs
    · exact testBit_zipWith_xor k hlen
    · rw [UInt8.toNat_xor, Nat.testBit_xor]

/-- The loop computes a logarithm. -/
theorem highestBit_eq : ∀ {bytes : List UInt8} {i : ℕ}, bytes.length + i = nodeIdLen →
    highestBit bytes i = if ofBe bytes = 0 then none else some (ofBe bytes).log2
  | [], _, _ => rfl
  | byte :: bytes, i, h => by
    have hlen : bytes.length + (i + 1) = nodeIdLen := by
      rw [← h, List.length_cons]
      omega
    unfold highestBit
    by_cases hbyte : byte = 0
    · have hskip : ofBe (byte :: bytes) = ofBe bytes := by
        rw [ofBe_cons, hbyte]
        exact Nat.zero_add _
      rw [if_neg (not_not.mpr hbyte), highestBit_eq hlen, hskip]
    · have hpos : byte.toNat ≠ 0 := fun h0 => hbyte (UInt8.toNat_inj.mp h0)
      have hlog : byte.toNat.log2 < 8 := (Nat.log2_lt hpos).mpr byte.toNat_lt
      have hindex : (nodeIdLen - 1 - i) * 8 + (7 - leadingZeros byte) =
          8 * bytes.length + byte.toNat.log2 := by
        unfold leadingZeros
        rw [if_neg hbyte]
        omega
      have hlow : ofBe bytes < 2 ^ (8 * bytes.length) := pow_256 _ ▸ ofBe_lt bytes
      have hself := Nat.log2_self_le hpos
      have hnext : byte.toNat < 2 ^ (byte.toNat.log2 + 1) := Nat.lt_log2_self
      have hnumber : ofBe (byte :: bytes) = 2 ^ (8 * bytes.length) * byte.toNat + ofBe bytes := by
        rw [ofBe_cons, pow_256]
      have hle : 2 ^ (8 * bytes.length + byte.toNat.log2) ≤ ofBe (byte :: bytes) := by
        rw [hnumber, Nat.pow_add]
        exact le_trans (Nat.mul_le_mul_left _ hself) (Nat.le_add_right _ _)
      have hlt : ofBe (byte :: bytes) < 2 ^ (8 * bytes.length + byte.toNat.log2 + 1) := by
        rw [hnumber, Nat.add_assoc, Nat.pow_add]
        refine lt_of_lt_of_le (Nat.add_lt_add_left hlow _) ?_
        rw [← Nat.mul_succ]
        exact Nat.mul_le_mul_left _ hnext
      have hne : ofBe (byte :: bytes) ≠ 0 :=
        Nat.ne_of_gt (lt_of_lt_of_le (Nat.two_pow_pos _) hle)
      rw [if_pos hbyte, if_neg hne, hindex, (Nat.log2_eq_iff hne).mpr ⟨hle, hlt⟩]

theorem bit_xorDistance (a b : NodeId) (k : ℕ) :
    (ofBe (xorDistance a b).toList).testBit k = (bit a k ^^ bit b k) := by
  unfold xorDistance bit
  rw [Vector.toList_zipWith]
  exact testBit_zipWith_xor k (by rw [Vector.length_toList, Vector.length_toList])

/-- **The bucket of a node** is that of the highest bit in which it differs. -/
theorem bucketIndex_eq_some_iff {a b : NodeId} {k : ℕ} :
    bucketIndex a b = some k ↔ HighestDifference a b k := by
  have hxor : ∀ j, (ofBe (xorDistance a b).toList).testBit j = true ↔ bit a j ≠ bit b j := by
    intro j
    rw [bit_xorDistance, bne_iff_ne]
  unfold bucketIndex HighestDifference
  rw [highestBit_eq (by rw [Vector.length_toList]; rfl), ← hxor]
  generalize ofBe (xorDistance a b).toList = n at hxor ⊢
  constructor
  · intro h
    split_ifs at h with hzero
    obtain rfl := Option.some.inj h
    refine ⟨Nat.testBit_log2 hzero, fun j hj => ?_⟩
    by_contra hne
    have hbit := Nat.ge_two_pow_of_testBit ((hxor j).mpr hne)
    have hlt : n < 2 ^ j := (Nat.log2_lt hzero).mp hj
    omega
  · rintro ⟨hk, habove⟩
    have hle := Nat.ge_two_pow_of_testBit hk
    have hne : n ≠ 0 := Nat.ne_of_gt (lt_of_lt_of_le (Nat.two_pow_pos k) hle)
    have hlt : n < 2 ^ (k + 1) := by
      refine Nat.lt_pow_two_of_testBit n fun j hj => ?_
      rw [← Bool.not_eq_true, hxor, not_not]
      exact habove j hj
    rw [if_neg hne, (Nat.log2_eq_iff hne).mpr ⟨hle, hlt⟩]

theorem bucketIndex_self (a : NodeId) : bucketIndex a a = none := by
  cases h : bucketIndex a a with
  | none => rfl
  | some k => exact absurd rfl (bucketIndex_eq_some_iff.mp h).1

end CncContent.Dht.Distance
