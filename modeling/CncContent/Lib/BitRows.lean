import CncContent.Lib.Bytes
import Mathlib.Data.List.Count

/-! # Rows of bits, the highest of a byte first

`bitAt` reads a bit of a row that is packed into bytes, of each byte the highest bit first. One bit is
changed by `orBit` and `andNotBit`, which leave the others alone (`bitAt_orBit`, `bitAt_andNotBit`), and
the ones of the bytes are the ones of the row (`sum_countOnes`). -/

namespace CncContent.Lib.BitRows

open CncContent.Lib.Bytes

/-- `u8::count_ones`. -/
def countOnes (b : UInt8) : ℕ := (List.range 8).countP fun i => b.toNat.testBit (7 - i)

/-- Bit `i` of the row; behind its end there is none. -/
def bitAt (bytes : List UInt8) (i : ℕ) : Bool :=
  bytes[i / 8]?.any fun b => (b >>> UInt8.ofNat (7 - i % 8)) &&& 1 == 1

/-- The bit is set, if the row reaches that far. -/
def orBit (bytes : List UInt8) (i : ℕ) : List UInt8 :=
  bytes.modify (i / 8) fun b => b ||| 1 <<< UInt8.ofNat (7 - i % 8)

/-- The bit is cleared, if the row reaches that far. -/
def andNotBit (bytes : List UInt8) (i : ℕ) : List UInt8 :=
  bytes.modify (i / 8) fun b => b &&& ~~~(1 <<< UInt8.ofNat (7 - i % 8))

variable {bytes : List UInt8}

theorem length_orBit (i : ℕ) : (orBit bytes i).length = bytes.length := List.length_modify _ _ _

theorem length_andNotBit (i : ℕ) : (andNotBit bytes i).length = bytes.length := List.length_modify _ _ _

/-! ### Bits of a byte -/

theorem testBit_clearByteBit (b : UInt8) {j k : ℕ} (hj : j < 8) (hk : k < 8) :
    (b &&& ~~~(1 <<< UInt8.ofNat k)).toNat.testBit j = (b.toNat.testBit j && decide (j ≠ k)) := by
  have hlt : 2 ^ k < 2 ^ 8 := Nat.pow_lt_pow_right (by decide) hk
  have hnot : (~~~(1 <<< UInt8.ofNat k) : UInt8).toNat = 2 ^ 8 - (2 ^ k + 1) := by
    rw [UInt8.toNat_not, toNat_one_shiftLeft hk]
    show 256 - 1 - 2 ^ k = 256 - (2 ^ k + 1)
    omega
  rw [UInt8.toNat_and, Nat.testBit_and, hnot, Nat.testBit_two_pow_sub_succ hlt, Nat.testBit_two_pow,
    decide_eq_true hj, Bool.true_and]
  congr 1
  rw [← decide_not, decide_eq_decide]
  exact not_congr eq_comm

/-! ### Bits of a row -/

theorem bitAt_of_getElem? {b : UInt8} {i : ℕ} (h : bytes[i / 8]? = some b) :
    bitAt bytes i = b.toNat.testBit (7 - i % 8) := by
  unfold bitAt
  rw [h, Option.any_some, byteBit_eq_testBit _ (by omega)]

theorem bitAt_of_le {i : ℕ} (h : 8 * bytes.length ≤ i) : bitAt bytes i = false := by
  unfold bitAt
  rw [List.getElem?_eq_none (by omega)]
  rfl

/-- What a change of one byte does to the bits. -/
theorem bitAt_modify {f : UInt8 → UInt8} {i j : ℕ} : bitAt (bytes.modify (i / 8) f) j =
    if i / 8 = j / 8 then bytes[j / 8]?.any fun b => (f b).toNat.testBit (7 - j % 8)
    else bitAt bytes j := by
  have hj : 7 - j % 8 < 8 := by omega
  unfold bitAt
  rw [List.getElem?_modify]
  rcases bytes[j / 8]? with _ | b
  · split_ifs <;> rfl
  · split_ifs
    · exact byteBit_eq_testBit (f b) hj
    · rfl

/-- **Setting a bit** sets that bit, if it is there, and no other. -/
theorem bitAt_orBit (i j : ℕ) :
    bitAt (orBit bytes i) j = (bitAt bytes j || decide (j = i ∧ i / 8 < bytes.length)) := by
  unfold orBit
  rw [bitAt_modify]
  rcases hb : bytes[j / 8]? with _ | b
  · have hlen := List.getElem?_eq_none_iff.mp hb
    have hnot : ¬ (j = i ∧ i / 8 < bytes.length) := by
      rintro ⟨rfl, hlt⟩
      omega
    have hnone : bitAt bytes j = false := bitAt_of_le (by omega)
    rw [decide_eq_false hnot, hnone]
    split_ifs <;> rfl
  · have hlen := (List.getElem?_eq_some_iff.mp hb).1
    rw [bitAt_of_getElem? hb]
    split_ifs with hij
    · rw [Option.any_some, testBit_setByteBit b _ (by omega)]
      congr 1
      rw [decide_eq_decide]
      omega
    · have hnot : ¬ (j = i ∧ i / 8 < bytes.length) := by
        rintro ⟨rfl, -⟩
        exact hij rfl
      rw [decide_eq_false hnot, Bool.or_false]

/-- **Clearing a bit** clears that bit and no other. -/
theorem bitAt_andNotBit (i j : ℕ) :
    bitAt (andNotBit bytes i) j = (bitAt bytes j && decide (j ≠ i)) := by
  unfold andNotBit
  rw [bitAt_modify]
  rcases hb : bytes[j / 8]? with _ | b
  · have hlen := List.getElem?_eq_none_iff.mp hb
    have hnone : bitAt bytes j = false := bitAt_of_le (by omega)
    rw [hnone]
    split_ifs <;> rfl
  · rw [bitAt_of_getElem? hb]
    split_ifs with hij
    · rw [Option.any_some, testBit_clearByteBit b (by omega) (by omega)]
      congr 1
      rw [decide_eq_decide]
      omega
    · have hne : j ≠ i := by
        rintro rfl
        exact hij rfl
      rw [decide_eq_true hne, Bool.and_true]

/-! ### Counting -/

theorem bitAt_cons_of_lt (b : UInt8) {i : ℕ} (h : i < 8) :
    bitAt (b :: bytes) i = b.toNat.testBit (7 - i) := by
  have hzero : i / 8 = 0 := by omega
  have hmod : i % 8 = i := Nat.mod_eq_of_lt h
  have hget : (b :: bytes)[i / 8]? = some b := by rw [hzero]; rfl
  rw [bitAt_of_getElem? hget, hmod]

theorem bitAt_cons_add (b : UInt8) (i : ℕ) : bitAt (b :: bytes) (8 + i) = bitAt bytes i := by
  have hdiv : (8 + i) / 8 = i / 8 + 1 := by omega
  have hmod : (8 + i) % 8 = i % 8 := by omega
  unfold bitAt
  rw [hdiv, hmod, List.getElem?_cons_succ]

/-- **The ones of the bytes** are those of the row. -/
theorem sum_countOnes : ∀ bytes : List UInt8,
    (bytes.map countOnes).sum = (List.range (8 * bytes.length)).countP (bitAt bytes)
  | [] => rfl
  | b :: bytes => by
    have hfirst : countOnes b = (List.range 8).countP (bitAt (b :: bytes)) :=
      List.countP_congr fun i hi => by rw [bitAt_cons_of_lt b (List.mem_range.mp hi)]
    have hrest : bitAt (b :: bytes) ∘ (8 + ·) = bitAt bytes := funext (bitAt_cons_add b)
    rw [List.map_cons, List.sum_cons, List.length_cons, Nat.mul_add, Nat.mul_one, Nat.add_comm _ 8,
      List.range_add, List.countP_append, List.countP_map, hrest, sum_countOnes bytes, hfirst]

/-- The row may be counted beyond its end. -/
theorem countP_range_bitAt {n : ℕ} (h : 8 * bytes.length ≤ n) :
    (List.range n).countP (bitAt bytes) = (List.range (8 * bytes.length)).countP (bitAt bytes) := by
  obtain ⟨k, rfl⟩ := Nat.exists_eq_add_of_le h
  have hbehind : (List.range k).countP (bitAt bytes ∘ (8 * bytes.length + ·)) = 0 := by
    refine List.countP_eq_zero.mpr fun i _ => ?_
    rw [Function.comp_apply, bitAt_of_le (Nat.le_add_right _ i)]
    exact Bool.false_ne_true
  rw [List.range_add, List.countP_append, List.countP_map, hbehind, Nat.add_zero]

/-- **The ones up to a place, and those behind it.** -/
theorem sum_countOnes_split (n : ℕ) : (bytes.map countOnes).sum = (List.range n).countP (bitAt bytes) +
    (List.range' n (8 * bytes.length - n)).countP (bitAt bytes) := by
  rw [sum_countOnes]
  rcases Nat.le_total n (8 * bytes.length) with h | h
  · have hrest := List.range'_append_1 (s := 0) (m := n) (n := 8 * bytes.length - n)
    rw [Nat.zero_add, Nat.add_sub_cancel' h] at hrest
    rw [List.range_eq_range', ← hrest, List.countP_append, List.range_eq_range']
  · rw [Nat.sub_eq_zero_of_le h, countP_range_bitAt h]
    rfl

theorem sum_countOnes_eq_zero_iff :
    (bytes.map countOnes).sum = 0 ↔ ∀ i, bitAt bytes i = false := by
  rw [sum_countOnes, List.countP_eq_zero]
  constructor
  · intro h i
    rcases Nat.lt_or_ge i (8 * bytes.length) with hi | hi
    · exact Bool.eq_false_iff.mpr (h i (List.mem_range.mpr hi))
    · exact bitAt_of_le hi
  · intro h i _
    rw [h i]
    exact Bool.false_ne_true

theorem countOnes_eq_zero_iff (b : UInt8) : countOnes b = 0 ↔ b = 0 := by
  constructor
  · intro h
    rw [← UInt8.toNat_inj]
    refine Nat.eq_of_testBit_eq fun k => ?_
    rw [UInt8.toNat_zero, Nat.zero_testBit]
    rcases Nat.lt_or_ge k 8 with hk | hk
    · have hbit := List.countP_eq_zero.mp h (7 - k) (List.mem_range.mpr (by omega))
      rw [Nat.sub_sub_self (by omega : k ≤ 7)] at hbit
      exact Bool.eq_false_iff.mpr hbit
    · exact Nat.testBit_lt_two_pow (b.toNat_lt.trans_le (Nat.pow_le_pow_right (by decide) hk))
  · rintro rfl
    decide

/-- All bits are clear exactly if all bytes are zero. -/
theorem all_eq_zero_iff : (bytes.all fun b => b == 0) = true ↔ ∀ i, bitAt bytes i = false := by
  rw [← sum_countOnes_eq_zero_iff, List.sum_eq_zero_iff_forall_eq_nat, List.all_eq_true]
  simp only [List.forall_mem_map, countOnes_eq_zero_iff, beq_iff_eq]

end CncContent.Lib.BitRows
