import CncContent.Lib.Bytes
import CncContent.Lib.Bounded
import Mathlib.Data.List.Induction
import Mathlib.Tactic.SplitIfs

/-! # Decimal numbers in bytes

`printNat` and `printInt` are `to_string`, `parseNat` and `parseI64` the integer parsers of the
standard library, which also take a leading `+` and leading zeros. Parsing inverts printing
(`parseNat_printNat`, `parseI64_printInt`); printing inverts parsing on numerals without a leading
zero (`printNat_value`), and gives something shorter on the others (`length_printNat_lt`). -/

namespace CncContent.Lib.Decimal

open CncContent.Lib.Bounded CncContent.Lib.Bytes

def isDigit (b : UInt8) : Bool := byte '0' ≤ b && b ≤ byte '9'

def digitVal (b : UInt8) : ℕ := b.toNat - 48

def digitByte (d : ℕ) : UInt8 := (Nat.digitChar d).toUInt8

/-- The number the digits spell. -/
def value (ds : List UInt8) : ℕ := ds.foldl (fun n b => 10 * n + digitVal b) 0

/-- At least one digit and nothing else. -/
def isNumeral (ds : List UInt8) : Bool := !ds.isEmpty && ds.all isDigit

/-! ### Printing -/

def printNat (n : ℕ) : List UInt8 := (Nat.toDigits 10 n).map Char.toUInt8

def printInt (n : ℤ) : List UInt8 :=
  if n < 0 then byte '-' :: printNat n.natAbs else printNat n.natAbs

/-! ### Parsing -/

def stripPlus : List UInt8 → List UInt8
  | b :: ds => if b = byte '+' then ds else b :: ds
  | [] => []

/-- `parse` to an unsigned integer with the given maximum. -/
def parseNat (max : ℕ) (s : List UInt8) : Option ℕ :=
  let ds := stripPlus s
  if isNumeral ds ∧ value ds ≤ max then some (value ds) else none

/-- `parse` to an `i64`. -/
def parseI64 (s : List UInt8) : Option Int64 :=
  if s.head? = some (byte '-') then
    if isNumeral s.tail ∧ value s.tail ≤ 2 ^ 63 then some (Int64.ofInt (-(value s.tail : ℤ)))
    else none
  else
    (parseNat (2 ^ 63 - 1) s).map fun n : ℕ => Int64.ofInt (n : ℤ)

/-! ### Digits -/

theorem isDigit_iff {b : UInt8} : isDigit b = true ↔ 48 ≤ b.toNat ∧ b.toNat ≤ 57 := by
  unfold isDigit
  rw [Bool.and_eq_true, decide_eq_true_eq, decide_eq_true_eq]
  exact Iff.rfl

theorem toNat_digitByte {d : ℕ} (h : d < 10) : (digitByte d).toNat = 48 + d := by
  have hall : ∀ d < 10, (digitByte d).toNat = 48 + d := by decide
  exact hall d h

theorem isDigit_digitByte {d : ℕ} (h : d < 10) : isDigit (digitByte d) = true := by
  rw [isDigit_iff, toNat_digitByte h]
  omega

theorem digitVal_digitByte {d : ℕ} (h : d < 10) : digitVal (digitByte d) = d := by
  unfold digitVal
  rw [toNat_digitByte h]
  omega

theorem digitVal_lt {b : UInt8} (h : isDigit b = true) : digitVal b < 10 := by
  rw [isDigit_iff] at h
  unfold digitVal
  omega

theorem digitByte_digitVal {b : UInt8} (h : isDigit b = true) : digitByte (digitVal b) = b := by
  have hlt := digitVal_lt h
  rw [isDigit_iff] at h
  refine UInt8.toNat_inj.mp ?_
  rw [toNat_digitByte hlt]
  unfold digitVal
  omega

theorem digitVal_pos {b : UInt8} (h : isDigit b = true) (h0 : b ≠ byte '0') : 0 < digitVal b := by
  rw [isDigit_iff] at h
  have hne : b.toNat ≠ 48 := fun he => h0 (UInt8.toNat_inj.mp he)
  unfold digitVal
  omega

theorem isNumeral_iff {ds : List UInt8} :
    isNumeral ds = true ↔ ds ≠ [] ∧ ∀ b ∈ ds, isDigit b = true := by
  unfold isNumeral
  rw [Bool.and_eq_true, List.all_eq_true, Bool.not_eq_true', List.isEmpty_eq_false_iff]

/-! ### Values -/

theorem value_append_singleton (ds : List UInt8) (b : UInt8) :
    value (ds ++ [b]) = 10 * value ds + digitVal b := by
  unfold value
  rw [List.foldl_append]
  rfl

theorem value_zero_cons (ds : List UInt8) : value (byte '0' :: ds) = value ds := rfl

/-- A numeral that does not start with a zero spells a positive number. -/
theorem value_pos {b : UInt8} (hb : isDigit b = true) (h0 : b ≠ byte '0') (ds : List UInt8) :
    0 < value (b :: ds) := by
  have hmono : ∀ (ds : List UInt8) (n : ℕ), 0 < n →
      0 < ds.foldl (fun n b => 10 * n + digitVal b) n := by
    intro ds
    induction ds with
    | nil => intro n hn; exact hn
    | cons a ds ih =>
      intro n hn
      refine ih _ ?_
      show 0 < 10 * n + digitVal a
      omega
  refine hmono ds _ ?_
  have := digitVal_pos hb h0
  show 0 < 10 * 0 + digitVal b
  omega

/-- The recursion of printing. -/
theorem printNat_eq_if (n : ℕ) :
    printNat n = if n < 10 then [digitByte n] else printNat (n / 10) ++ [digitByte (n % 10)] := by
  unfold printNat
  rw [Nat.toDigits_eq_if (by omega)]
  split_ifs
  · rfl
  · rw [List.map_append]
    rfl

theorem isNumeral_printNat (n : ℕ) : isNumeral (printNat n) = true := by
  induction n using Nat.strong_induction_on with
  | _ n ih =>
    rw [isNumeral_iff, printNat_eq_if]
    split_ifs with hlt
    · refine ⟨List.cons_ne_nil _ _, fun b hb => ?_⟩
      rw [List.mem_singleton.mp hb]
      exact isDigit_digitByte hlt
    · have hrec := (isNumeral_iff.mp (ih (n / 10) (by omega))).2
      refine ⟨by simp, fun b hb => ?_⟩
      rcases List.mem_append.mp hb with hb | hb
      · exact hrec b hb
      · rw [List.mem_singleton.mp hb]
        exact isDigit_digitByte (Nat.mod_lt n (by omega))

theorem value_printNat (n : ℕ) : value (printNat n) = n := by
  induction n using Nat.strong_induction_on with
  | _ n ih =>
    rw [printNat_eq_if]
    split_ifs with hlt
    · show 10 * 0 + digitVal (digitByte n) = n
      rw [digitVal_digitByte hlt]
      omega
    · rw [value_append_singleton, ih (n / 10) (by omega),
        digitVal_digitByte (Nat.mod_lt n (by omega))]
      omega

theorem printNat_inj {m n : ℕ} (h : printNat m = printNat n) : m = n := by
  rw [← value_printNat m, h, value_printNat]

/-! ### Printing and parsing -/

/-- The numeral starts with a zero that it does not need. -/
def leadingZero (ds : List UInt8) : Bool := 1 < ds.length && ds.head? == some (byte '0')

/-- **Printing what a numeral spells** gives the numeral back if it has no leading zero. -/
theorem printNat_value : ∀ {ds : List UInt8}, isNumeral ds = true → leadingZero ds = false →
    printNat (value ds) = ds := by
  intro ds
  induction ds using List.reverseRecOn with
  | nil => intro h; cases h
  | append_singleton l d ih =>
    intro hnum hlead
    have hdigits := (isNumeral_iff.mp hnum).2
    have hd : isDigit d = true := hdigits d (by simp)
    have hlt := digitVal_lt hd
    rw [value_append_singleton, printNat_eq_if]
    rcases l with _ | ⟨b, l⟩
    · rw [if_pos (by show 10 * 0 + _ < 10; omega)]
      show [digitByte (10 * 0 + digitVal d)] = [d]
      rw [Nat.mul_zero, Nat.zero_add, digitByte_digitVal hd]
    · have h0 : b ≠ byte '0' := by
        rintro rfl
        simp [leadingZero] at hlead
      have hb : isDigit b = true := hdigits b (by simp)
      have hpos := value_pos hb h0 l
      have hnum' : isNumeral (b :: l) = true :=
        isNumeral_iff.mpr ⟨List.cons_ne_nil _ _, fun x hx => hdigits x (by simp at hx ⊢; tauto)⟩
      have hlead' : leadingZero (b :: l) = false := by
        simp [leadingZero, h0]
      rw [if_neg (by omega), show (10 * value (b :: l) + digitVal d) / 10 = value (b :: l) by omega,
        show (10 * value (b :: l) + digitVal d) % 10 = digitVal d by omega, ih hnum' hlead',
        digitByte_digitVal hd]

theorem length_printNat_le : ∀ {ds : List UInt8}, isNumeral ds = true →
    (printNat (value ds)).length ≤ ds.length
  | [], h => by cases h
  | b :: ds, h => by
    by_cases hlead : leadingZero (b :: ds) = true
    · have hb : b = byte '0' := by
        unfold leadingZero at hlead
        simp at hlead
        exact hlead.2
      have hne : ds ≠ [] := by
        rintro rfl
        simp [leadingZero] at hlead
      have hnum : isNumeral ds = true :=
        isNumeral_iff.mpr ⟨hne, fun x hx => (isNumeral_iff.mp h).2 x (by simp [hx])⟩
      rw [hb, value_zero_cons, List.length_cons]
      exact le_trans (length_printNat_le hnum) (Nat.le_succ _)
    · rw [printNat_value h (by simpa using hlead)]

/-- **A leading zero** makes a numeral longer than what is printed for its number. -/
theorem length_printNat_lt {ds : List UInt8} (h : isNumeral ds = true)
    (hlead : leadingZero ds = true) : (printNat (value ds)).length < ds.length := by
  rcases ds with _ | ⟨b, ds⟩
  · cases h
  · unfold leadingZero at hlead
    simp only [List.length_cons, List.head?_cons, Bool.and_eq_true, decide_eq_true_eq,
      beq_iff_eq, Option.some.injEq] at hlead
    obtain ⟨hlen, rfl⟩ := hlead
    have hne : ds ≠ [] := List.ne_nil_of_length_pos (by omega)
    have hnum : isNumeral ds = true :=
      isNumeral_iff.mpr ⟨hne, fun x hx => (isNumeral_iff.mp h).2 x (by simp [hx])⟩
    rw [value_zero_cons, List.length_cons]
    exact Nat.lt_succ_of_le (length_printNat_le hnum)

theorem leadingZero_printNat (n : ℕ) : leadingZero (printNat n) = false := by
  by_contra h
  have hlt := length_printNat_lt (isNumeral_printNat n) (by simpa using h)
  rw [value_printNat] at hlt
  exact lt_irrefl _ hlt

theorem stripPlus_of_isNumeral {ds : List UInt8} (h : isNumeral ds = true) :
    stripPlus ds = ds := by
  rcases ds with _ | ⟨b, ds⟩
  · rfl
  · refine if_neg ?_
    rintro rfl
    have := (isNumeral_iff.mp h).2 (byte '+') (by simp)
    revert this
    decide

/-- What a successful parse has read: a numeral, perhaps after a plus sign. -/
theorem parseNat_eq_some_iff {max n : ℕ} {s : List UInt8} : parseNat max s = some n ↔
    isNumeral (stripPlus s) = true ∧ value (stripPlus s) = n ∧ n ≤ max := by
  unfold parseNat
  dsimp only
  split_ifs with h
  · rw [Option.some.injEq]
    constructor
    · rintro rfl
      exact ⟨h.1, rfl, h.2⟩
    · exact fun h' => h'.2.1
  · refine ⟨nofun, ?_⟩
    rintro ⟨h1, rfl, h2⟩
    exact absurd ⟨h1, h2⟩ h

/-- **Parsing inverts printing**, up to the maximum. -/
theorem parseNat_printNat {max n : ℕ} (h : n ≤ max) : parseNat max (printNat n) = some n := by
  rw [parseNat_eq_some_iff, stripPlus_of_isNumeral (isNumeral_printNat n)]
  exact ⟨isNumeral_printNat n, value_printNat n, h⟩

theorem printNat_head_ne {n : ℕ} {c : UInt8} (hc : isDigit c = false) :
    (printNat n).head? ≠ some c := by
  intro h
  have hd := (isNumeral_iff.mp (isNumeral_printNat n)).2 c (List.mem_of_mem_head? h)
  rw [hc] at hd
  cases hd

/-- **Parsing inverts printing** of every `i64`. -/
theorem parseI64_printInt (n : Int64) : parseI64 (printInt n.toInt) = some n := by
  have hlo := n.le_toInt
  have hhi := n.toInt_lt
  unfold parseI64 printInt
  by_cases hneg : n.toInt < 0
  · rw [if_pos hneg, List.head?_cons, if_pos rfl, List.tail_cons, value_printNat,
      if_pos ⟨isNumeral_printNat _, by omega⟩, show -(n.toInt.natAbs : ℤ) = n.toInt by omega,
      Int64.ofInt_toInt]
  · rw [if_neg hneg, if_neg (printNat_head_ne (by decide)),
      parseNat_printNat (by omega), Option.map_some, show (n.toInt.natAbs : ℤ) = n.toInt by omega,
      Int64.ofInt_toInt]

/-- What a successful parse of an `i64` has read: a minus sign and a numeral, or a numeral, perhaps
after a plus sign. -/
theorem parseI64_cases {s : List UInt8} {n : Int64} (h : parseI64 s = some n) :
    (∃ ds, s = byte '-' :: ds ∧ isNumeral ds = true ∧ n.toInt = -(value ds : ℤ)) ∨
    (s.head? ≠ some (byte '-') ∧ isNumeral (stripPlus s) = true ∧
      n.toInt = (value (stripPlus s) : ℤ)) := by
  unfold parseI64 at h
  by_cases hneg : s.head? = some (byte '-')
  · left
    rw [if_pos hneg] at h
    split_ifs at h with hnum
    cases h
    refine ⟨s.tail, (List.cons_head?_tail hneg).symm, hnum.1, ?_⟩
    rw [Int64.toInt_ofInt_of_le (by omega) (by omega)]
  · right
    rw [if_neg hneg] at h
    obtain ⟨m, hm, rfl⟩ := Option.map_eq_some_iff.mp h
    obtain ⟨hnum, hval, hle⟩ := parseNat_eq_some_iff.mp hm
    refine ⟨hneg, hnum, ?_⟩
    rw [Int64.toInt_ofInt_of_le (by omega) (by omega), hval]

/-! ### The text of a number -/

theorem length_printNat_le_of_lt {n k : ℕ} (hk : 0 < k) (h : n < 10 ^ k) :
    (printNat n).length ≤ k := by
  unfold printNat
  rw [List.length_map]
  exact (Nat.length_toDigits_le_iff (by omega) hk).mpr h

theorem length_printInt_le (n : Int64) : (printInt n.toInt).length ≤ 20 := by
  have hlo := n.le_toInt
  have hhi := n.toInt_lt
  have hnat : (printNat n.toInt.natAbs).length ≤ 19 :=
    length_printNat_le_of_lt (by omega) (by omega)
  unfold printInt
  split_ifs
  · rw [List.length_cons]
    omega
  · omega

theorem printInt_ne_nil (n : ℤ) : printInt n ≠ [] := by
  unfold printInt
  split_ifs
  · exact List.cons_ne_nil _ _
  · exact (isNumeral_iff.mp (isNumeral_printNat _)).1

/-- A printed integer consists of digits and a minus sign. -/
theorem mem_printInt {n : ℤ} {b : UInt8} (h : b ∈ printInt n) : isDigit b = true ∨ b = byte '-' := by
  unfold printInt at h
  split_ifs at h
  · rcases List.mem_cons.mp h with rfl | h
    · exact Or.inr rfl
    · exact Or.inl ((isNumeral_iff.mp (isNumeral_printNat _)).2 b h)
  · exact Or.inl ((isNumeral_iff.mp (isNumeral_printNat _)).2 b h)

theorem leadingZero_printInt (n : ℤ) : leadingZero (printInt n) = false := by
  unfold printInt
  split_ifs
  · unfold leadingZero
    rw [List.head?_cons]
    exact Bool.and_eq_false_imp.mpr fun _ => rfl
  · exact leadingZero_printNat _

/-- Behind a minus sign a printed integer has a positive number. -/
theorem printInt_eq_minus_cons {n : ℤ} {ds : List UInt8} (h : printInt n = byte '-' :: ds) :
    ds = printNat n.natAbs ∧ 0 < n.natAbs := by
  unfold printInt at h
  split_ifs at h with hneg
  · exact ⟨(List.cons.inj h).2.symm, by omega⟩
  · have hd := (isNumeral_iff.mp (isNumeral_printNat n.natAbs)).2 (byte '-') (by rw [h]; simp)
    exact absurd hd (by decide)

theorem lt_of_isDigit {b : UInt8} (h : isDigit b = true) : b < 0x80 := by
  rw [isDigit_iff] at h
  exact UInt8.lt_iff_toNat_lt.mpr (lt_of_le_of_lt h.2 (by decide))

end CncContent.Lib.Decimal
