import CncContent.Lib.Decimal

/-! # Texts of semantic versions

A version has three numbers without leading zeros, and behind them possibly a hyphen with the
identifiers of a pre-release and a plus sign with those of a build. A text is taken apart in one way
only (`version_parts`). -/

namespace CncContent.Lib.SemVer

open CncContent.Lib.Bytes CncContent.Lib.Decimal

/-- A number without a leading zero. -/
def isNumericIdentifier (s : List UInt8) : Bool := isNumeral s && !leadingZero s

def isIdentifierByte (b : UInt8) : Bool :=
  isDigit b || within (byte 'A') (byte 'Z') b || within (byte 'a') (byte 'z') b || b == byte '-'

def isBuildIdentifier (s : List UInt8) : Bool := !s.isEmpty && s.all isIdentifierByte

/-- An identifier that is a number has no leading zero. -/
def isPreReleaseIdentifier (s : List UInt8) : Bool :=
  isBuildIdentifier s && (!isNumeral s || !leadingZero s)

def isPreRelease (s : List UInt8) : Bool := (s.splitOn (byte '.')).all isPreReleaseIdentifier

def isBuild (s : List UInt8) : Bool := (s.splitOn (byte '.')).all isBuildIdentifier

/-- What may stand behind the three numbers. -/
inductive Suffix : List UInt8 → Prop
  | release : Suffix []
  | preRelease {p : List UInt8} (hp : isPreRelease p = true) : Suffix (byte '-' :: p)
  | build {b : List UInt8} (hb : isBuild b = true) : Suffix (byte '+' :: b)
  | preReleaseBuild {p b : List UInt8} (hp : isPreRelease p = true) (hb : isBuild b = true) :
    Suffix (byte '-' :: (p ++ byte '+' :: b))

/-- The text of a version with these numbers. -/
inductive Version : List UInt8 → ℕ → ℕ → ℕ → Prop
  | mk {a b c s : List UInt8} (ha : isNumericIdentifier a = true) (hb : isNumericIdentifier b = true)
    (hc : isNumericIdentifier c = true) (hs : Suffix s) :
    Version (a ++ byte '.' :: (b ++ byte '.' :: (c ++ s))) (value a) (value b) (value c)

theorem isDigit_of_isNumericIdentifier {s : List UInt8} (h : isNumericIdentifier s = true) :
    ∀ d ∈ s, isDigit d = true :=
  (isNumeral_iff.mp (Bool.and_eq_true_iff.mp h).1).2

/-- There is no digit behind the numbers. -/
theorem Suffix.head {s : List UInt8} (h : Suffix s) : ∀ d ∈ s.head?, isDigit d = false := by
  cases h with
  | release => exact fun d hd => by cases hd
  | preRelease | build | preReleaseBuild =>
    rintro d ⟨⟩
    decide

theorem dot_notMem {s : List UInt8} (h : ∀ d ∈ s, isDigit d = true) : byte '.' ∉ s := fun hmem =>
  absurd (h _ hmem) (by decide)

/-- **The parts of a version** that is read up to dots: the third number may have been read after a
plus sign, and ends where the digits end. -/
theorem version_parts {a b c tail : List UInt8} {x y z : ℕ} (ha : byte '.' ∉ a) (hb : byte '.' ∉ b)
    (hc : isNumeral (stripPlus c) = true) (htail : ∀ d ∈ tail.head?, isDigit d = false)
    (h : Version (a ++ byte '.' :: (b ++ byte '.' :: (c ++ tail))) x y z) :
    isNumericIdentifier a = true ∧ isNumericIdentifier b = true ∧ isNumericIdentifier c = true ∧
      Suffix tail := by
  generalize htext : a ++ byte '.' :: (b ++ byte '.' :: (c ++ tail)) = s at h
  obtain ⟨ha', hb', hc', hs⟩ := h
  rename_i a' b' c' s'
  have hdigits := isDigit_of_isNumericIdentifier hc'
  obtain ⟨rfl, hrest⟩ :=
    append_cons_inj ha (dot_notMem (isDigit_of_isNumericIdentifier ha')) htext
  obtain ⟨rfl, hlast⟩ :=
    append_cons_inj hb (dot_notMem (isDigit_of_isNumericIdentifier hb')) hrest
  have hnum : ∀ d ∈ c, isDigit d = true := by
    rcases c with _ | ⟨d, c⟩
    · cases hc
    · rcases c' with _ | ⟨d', c'⟩
      · cases hc'
      · have hd : d ≠ byte '+' := by
          rintro rfl
          have hplus := hdigits _ List.mem_cons_self
          rw [← (List.cons.inj hlast).1] at hplus
          exact absurd hplus (by decide)
        have hstrip : stripPlus (d :: c) = d :: c := if_neg hd
        rw [hstrip] at hc
        exact (isNumeral_iff.mp hc).2
  have hcc : c = c' := by
    rw [← takeWhile_append_stop hnum htail, hlast, takeWhile_append_stop hdigits hs.head]
  subst hcc
  rw [List.append_cancel_left hlast]
  exact ⟨ha', hb', hc', hs⟩

example : isPreRelease (text "beta.1") = true ∧ isPreRelease (text "beta.01") = false ∧
    isBuild (text "sha.01") = true := by
  decide

end CncContent.Lib.SemVer
