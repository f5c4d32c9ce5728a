import Mathlib.Data.List.Basic
import Mathlib.Tactic.IntervalCases

/-! # Three bytes as four sextets

Three bytes have the bits of four sextets, and so do two bytes of three and one byte of two sextets, the
last of which has unused bits. The first facts are about bytes that are cut into sextets, the others about
sextets that are joined to bytes. -/

namespace CncContent.Lib.Sextets

/-- The two highest bits are zero. -/
def Sextet (v : UInt8) : Prop := v.toBitVec[6] = false ∧ v.toBitVec[7] = false

instance {v : UInt8} : Decidable (Sextet v) := inferInstanceAs (Decidable (_ ∧ _))

theorem forall_byte {P : UInt8 → Prop} (h : ∀ n < 256, P (UInt8.ofNat n)) (v : UInt8) : P v := by
  have hv := h v.toNat v.toNat_lt
  rwa [UInt8.ofNat_toNat] at hv

section Bits

variable {a b c w x y z : UInt8}

/-- Two bytes with the same bits. -/
theorem ext_bits (h : ∀ i, (hi : i < 8) → a.toBitVec[i] = b.toBitVec[i]) : a = b :=
  UInt8.toBitVec_inj.mp (BitVec.eq_of_getElem_eq h)

theorem sextet_first : Sextet (a >>> 2) := by
  constructor <;> simp

theorem sextet_second : Sextet ((a &&& 0x03) <<< 4 ||| b >>> 4) := by
  constructor <;> simp

theorem sextet_third : Sextet ((b &&& 0x0f) <<< 2 ||| c >>> 6) := by
  constructor <;> simp

theorem sextet_fourth : Sextet (c &&& 0x3f) := by
  constructor <;> simp

theorem firstByte_eq : (a >>> 2) <<< 2 ||| ((a &&& 0x03) <<< 4 ||| b >>> 4) >>> 4 = a := by
  refine ext_bits fun i hi => ?_
  interval_cases i <;> simp

theorem secondByte_eq :
    ((a &&& 0x03) <<< 4 ||| b >>> 4) <<< 4 ||| ((b &&& 0x0f) <<< 2 ||| c >>> 6) >>> 2 = b := by
  refine ext_bits fun i hi => ?_
  interval_cases i <;> simp

theorem thirdByte_eq : ((b &&& 0x0f) <<< 2 ||| c >>> 6) <<< 6 ||| (c &&& 0x3f) = c := by
  refine ext_bits fun i hi => ?_
  interval_cases i <;> simp

theorem first_eq (hw : Sextet w) (hx : Sextet x) : (w <<< 2 ||| x >>> 4) >>> 2 = w := by
  obtain ⟨hw6, hw7⟩ := hw
  obtain ⟨hx6, hx7⟩ := hx
  refine ext_bits fun i hi => ?_
  interval_cases i <;> simp_all

theorem second_eq (hx : Sextet x) (hy : Sextet y) :
    ((w <<< 2 ||| x >>> 4) &&& 0x03) <<< 4 ||| (x <<< 4 ||| y >>> 2) >>> 4 = x := by
  obtain ⟨hx6, hx7⟩ := hx
  obtain ⟨hy6, hy7⟩ := hy
  refine ext_bits fun i hi => ?_
  interval_cases i <;> simp_all

theorem third_eq (hy : Sextet y) (hz : Sextet z) :
    ((x <<< 4 ||| y >>> 2) &&& 0x0f) <<< 2 ||| (y <<< 6 ||| z) >>> 6 = y := by
  obtain ⟨hy6, hy7⟩ := hy
  obtain ⟨hz6, hz7⟩ := hz
  refine ext_bits fun i hi => ?_
  interval_cases i <;> simp_all

theorem fourth_eq (hz : Sextet z) : (y <<< 6 ||| z) &&& 0x3f = z := by
  obtain ⟨hz6, hz7⟩ := hz
  refine ext_bits fun i hi => ?_
  interval_cases i <;> simp_all

/-- The bits of a mask that are not set. -/
theorem unused {m v : UInt8} (h : v &&& m = 0) {i : ℕ} (hi : i < 8) :
    (v.toBitVec[i] && m.toBitVec[i]) = false := by
  have hbit := congrArg (fun u : UInt8 => u.toBitVec[i]) h
  simpa using hbit

theorem secondEnd_eq (hx : Sextet x) (h : x &&& 0x0f = 0) :
    ((w <<< 2 ||| x >>> 4) &&& 0x03) <<< 4 = x := by
  obtain ⟨hx6, hx7⟩ := hx
  refine ext_bits fun i hi => ?_
  have hi' := unused h hi
  interval_cases i <;> simp_all

theorem thirdEnd_eq (hy : Sextet y) (h : y &&& 0x03 = 0) :
    ((x <<< 4 ||| y >>> 2) &&& 0x0f) <<< 2 = y := by
  obtain ⟨hy6, hy7⟩ := hy
  refine ext_bits fun i hi => ?_
  have hi' := unused h hi
  interval_cases i <;> simp_all

theorem sextet_secondEnd : Sextet ((a &&& 0x03) <<< 4) := by
  constructor <;> simp

theorem sextet_thirdEnd : Sextet ((b &&& 0x0f) <<< 2) := by
  constructor <;> simp

theorem firstByteEnd_eq : (a >>> 2) <<< 2 ||| ((a &&& 0x03) <<< 4) >>> 4 = a := by
  refine ext_bits fun i hi => ?_
  interval_cases i <;> simp

theorem secondByteEnd_eq :
    ((a &&& 0x03) <<< 4 ||| b >>> 4) <<< 4 ||| ((b &&& 0x0f) <<< 2) >>> 2 = b := by
  refine ext_bits fun i hi => ?_
  interval_cases i <;> simp

theorem secondEnd_unused : ((a &&& 0x03) <<< 4) &&& 0x0f = 0 := by
  refine ext_bits fun i hi => ?_
  interval_cases i <;> simp

theorem thirdEnd_unused : ((b &&& 0x0f) <<< 2) &&& 0x03 = 0 := by
  refine ext_bits fun i hi => ?_
  interval_cases i <;> simp

end Bits

end CncContent.Lib.Sextets
