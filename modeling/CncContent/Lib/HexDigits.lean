import CncContent.Lib.IpAddresses

/-! # Hexadecimal digits

`toHex` prints a byte string in lower case, two digits a byte, and `ofHex` reads pairs of digits. What is
printed is read back (`ofHex_toHex`), and pairs of digits in lower case are printed again
(`toHex_ofHex`). -/

namespace CncContent.Lib.HexDigits

open CncContent.Lib.Bytes
open CncContent.Lib.IpAddresses (isHexDigit hexVal isHexDigit_iff hexVal_eq hexVal_lt)

/-- A digit, or a letter in lower case. -/
def isLowerHexDigit (b : UInt8) : Bool := isHexDigit b && !within (byte 'A') (byte 'F') b

/-- The bytes that pairs of digits spell. -/
def ofHex : List UInt8 → List UInt8
  | x :: y :: s => UInt8.ofNat (16 * hexVal x + hexVal y) :: ofHex s
  | _ => []

/-! ### Printed digits -/

theorem digitChar_low : ∀ n < 10, byte (Nat.digitChar n) = UInt8.ofNat (48 + n) := by decide

theorem digitChar_high : ∀ n < 6, byte (Nat.digitChar (10 + n)) = UInt8.ofNat (97 + n) := by decide

/-- The printed digit of a value. -/
theorem toNat_byte_digitChar {n : ℕ} (h : n < 16) :
    (byte (Nat.digitChar n)).toNat = if n < 10 then 48 + n else 87 + n := by
  split_ifs with hlow
  · rw [digitChar_low n hlow, UInt8.toNat_ofNat']
    omega
  · obtain ⟨k, rfl⟩ := Nat.exists_eq_add_of_le (Nat.le_of_not_lt hlow)
    rw [digitChar_high k (by omega), UInt8.toNat_ofNat']
    omega

theorem isHexDigit_digitChar {n : ℕ} (h : n < 16) : isHexDigit (byte (Nat.digitChar n)) = true ∧
    hexVal (byte (Nat.digitChar n)) = n := by
  rw [isHexDigit_iff, hexVal_eq, toNat_byte_digitChar h]
  constructor
  · split_ifs <;> omega
  · split_ifs <;> omega

theorem isLowerHexDigit_iff {b : UInt8} : isLowerHexDigit b = true ↔
    (48 ≤ b.toNat ∧ b.toNat ≤ 57) ∨ (97 ≤ b.toNat ∧ b.toNat ≤ 102) := by
  have hupper : within (byte 'A') (byte 'F') b = true ↔ 65 ≤ b.toNat ∧ b.toNat ≤ 70 := within_iff
  unfold isLowerHexDigit
  rw [Bool.and_eq_true, isHexDigit_iff, Bool.not_eq_true', ← Bool.not_eq_true, hupper]
  omega

/-- **A printed digit** is in lower case. -/
theorem isLowerHexDigit_digitChar {n : ℕ} (h : n < 16) :
    isLowerHexDigit (byte (Nat.digitChar n)) = true := by
  rw [isLowerHexDigit_iff, toNat_byte_digitChar h]
  split_ifs <;> omega

/-- A digit in lower case is printed for its value. -/
theorem digitChar_hexVal {x : UInt8} (hx : isLowerHexDigit x = true) :
    byte (Nat.digitChar (hexVal x)) = x := by
  have hlt : hexVal x < 16 := hexVal_lt (Bool.and_elim_left hx)
  rw [← UInt8.toNat_inj, toNat_byte_digitChar hlt, hexVal_eq]
  rw [isLowerHexDigit_iff] at hx
  split_ifs <;> omega

/-- The digits of the byte that two digits spell. -/
theorem hexByte_eq {x y : UInt8} (hx : isHexDigit x = true) (hy : isHexDigit y = true) :
    hexByte (UInt8.ofNat (16 * hexVal x + hexVal y)) =
      [byte (Nat.digitChar (hexVal x)), byte (Nat.digitChar (hexVal y))] := by
  have hltx := hexVal_lt hx
  have hlty := hexVal_lt hy
  have hval : (UInt8.ofNat (16 * hexVal x + hexVal y)).toNat = 16 * hexVal x + hexVal y := by
    rw [UInt8.toNat_ofNat']
    omega
  have hdiv : (16 * hexVal x + hexVal y) / 16 = hexVal x := by omega
  have hmod : (16 * hexVal x + hexVal y) % 16 = hexVal y := by omega
  unfold hexByte
  rw [hval, hdiv, hmod]

/-! ### Byte strings -/

theorem toHex_cons (b : UInt8) (l : List UInt8) : toHex (b :: l) = hexByte b ++ toHex l := rfl

theorem length_toHex : ∀ l : List UInt8, (toHex l).length = 2 * l.length
  | [] => rfl
  | b :: l => by
    rw [toHex_cons, List.length_append, length_toHex l, List.length_cons]
    show 2 + _ = _
    omega

theorem length_ofHex : ∀ {k : ℕ} {s : List UInt8}, s.length = 2 * k → (ofHex s).length = k
  | 0, s, hlen => by
    rw [List.eq_nil_of_length_eq_zero hlen]
    rfl
  | k + 1, x :: y :: s, hlen => by
    rw [List.length_cons, List.length_cons] at hlen
    rw [ofHex, List.length_cons, length_ofHex (k := k) (by omega)]

theorem isLowerHexDigit_of_mem_toHex {l : List UInt8} {c : UInt8} (h : c ∈ toHex l) :
    isLowerHexDigit c = true := by
  obtain ⟨b, -, hc⟩ := List.mem_flatMap.mp h
  have hlt := b.toNat_lt
  rcases List.mem_pair.mp hc with rfl | rfl
  · exact isLowerHexDigit_digitChar (by omega)
  · exact isLowerHexDigit_digitChar (by omega)

/-- **What is printed is read back.** -/
theorem ofHex_toHex : ∀ l : List UInt8, ofHex (toHex l) = l
  | [] => rfl
  | b :: l => by
    have hlt := b.toNat_lt
    have hhigh := (isHexDigit_digitChar (n := b.toNat / 16) (by omega)).2
    have hlow := (isHexDigit_digitChar (n := b.toNat % 16) (by omega)).2
    show UInt8.ofNat (16 * hexVal _ + hexVal _) :: ofHex (toHex l) = b :: l
    rw [hhigh, hlow, ofHex_toHex l, Nat.div_add_mod, UInt8.ofNat_toNat]

/-- **Digits in lower case are printed again.** -/
theorem toHex_ofHex : ∀ {k : ℕ} {s : List UInt8}, s.length = 2 * k →
    (∀ c ∈ s, isLowerHexDigit c = true) → toHex (ofHex s) = s
  | 0, s, hlen, _ => by
    rw [List.eq_nil_of_length_eq_zero hlen]
    rfl
  | k + 1, x :: y :: s, hlen, hs => by
    rw [List.forall_mem_cons, List.forall_mem_cons] at hs
    obtain ⟨hx, hy, hs⟩ := hs
    have hrest : s.length = 2 * k := by
      rw [List.length_cons, List.length_cons] at hlen
      omega
    rw [ofHex, toHex_cons, hexByte_eq (Bool.and_elim_left hx) (Bool.and_elim_left hy),
      digitChar_hexVal hx, digitChar_hexVal hy, toHex_ofHex hrest hs]
    rfl

end CncContent.Lib.HexDigits
