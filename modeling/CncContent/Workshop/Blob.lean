import CncContent.Lib.Chunks
import CncContent.Lib.HexDigits
import CncContent.Workshop.Announcement
import CncContent.Workshop.Package

/-! # Blob identifiers in hexadecimal

`BlobId` of the source as a text of 64 digits. What is printed is read back, and the digits may be in
either case; but a pair is read by the integer parser, which accepts a plus sign in front of a digit
(`fromHex_iff`). -/

namespace CncContent.Workshop.Blob

open CncContent.Lib.Bounded CncContent.Lib.Bytes CncContent.Lib.Chunks CncContent.Lib.HexDigits
open CncContent.Lib.IpAddresses (isHexDigit hexVal isHexDigit_iff hexVal_eq hexVal_lt)
open CncContent.Workshop.Announcement (BlobId)
open CncContent.Workshop.Package (toAsciiLowercase)

/-- One more digit of a number that may not exceed 255. -/
def digitStep (n : ℕ) (b : UInt8) : Option ℕ :=
  if isHexDigit b then (checkedMul 255 n 16).bind fun m => checkedAdd 255 m (hexVal b) else none

def radixDigits (digits : List UInt8) : Option ℕ := digits.foldlM digitStep 0

/-- `u8::from_str_radix` for the radix 16. A plus sign may stand in front of the digits. -/
def fromStrRadix (src : List UInt8) : Option UInt8 :=
  match src with
  | [] => none
  | [b] => if b = byte '+' ∨ b = byte '-' then none else (radixDigits [b]).map UInt8.ofNat
  | b :: c :: rest =>
    (radixDigits (if b = byte '+' then c :: rest else b :: c :: rest)).map UInt8.ofNat

/-- The loop of `from_hex`, from a slot on. -/
def slots (hex : List UInt8) : ℕ → ℕ → Option (List UInt8)
  | 0, _ => some []
  | k + 1, i =>
    (textSlice hex (i * 2) (i * 2 + 2)).bind fun pair =>
      (fromStrRadix pair).bind fun b => (slots hex k (i + 1)).map fun bs => b :: bs

def fromHex (hex : List UInt8) : Option BlobId :=
  if hex.length ≠ 64 then none else (slots hex 32 0).bind (array 32)

/-- `to_hex`. -/
def blobHex (b : BlobId) : List UInt8 := toHex b.toList

/-! ### Pairs -/

/-- The pair is read: two digits, or a plus sign and a digit. -/
def ReadPair (pair : List UInt8) : Prop :=
  ∃ x y, pair = [x, y] ∧ (isHexDigit x = true ∨ x = byte '+') ∧ isHexDigit y = true

theorem digitStep_eq_some_iff {n m : ℕ} {b : UInt8} : digitStep n b = some m ↔
    isHexDigit b = true ∧ m = n * 16 + hexVal b ∧ n * 16 + hexVal b ≤ 255 := by
  unfold digitStep
  split_ifs with hb
  · simp only [Option.bind_eq_some_iff, checkedAdd_eq_some_iff]
    unfold checkedMul
    constructor
    · rintro ⟨k, hk, hm, hle⟩
      split_ifs at hk
      cases hk
      exact ⟨hb, hm, hle⟩
    · rintro ⟨-, hm, hle⟩
      exact ⟨n * 16, if_pos (by omega), hm, hle⟩
  · exact ⟨nofun, fun h => absurd h.1 hb⟩

theorem radixDigits_one {y : UInt8} {n : ℕ} :
    radixDigits [y] = some n ↔ isHexDigit y = true ∧ n = hexVal y := by
  unfold radixDigits
  simp only [List.foldlM_cons, List.foldlM_nil, Option.bind_eq_bind, Option.bind_eq_some_iff,
    digitStep_eq_some_iff, Option.pure_def, Option.some.injEq]
  constructor
  · rintro ⟨m, ⟨hy, hm, -⟩, rfl⟩
    exact ⟨hy, by omega⟩
  · rintro ⟨hy, rfl⟩
    have hlt := hexVal_lt hy
    exact ⟨_, ⟨hy, by omega, by omega⟩, rfl⟩

theorem radixDigits_two {x y : UInt8} {n : ℕ} : radixDigits [x, y] = some n ↔
    isHexDigit x = true ∧ isHexDigit y = true ∧ n = 16 * hexVal x + hexVal y := by
  unfold radixDigits
  simp only [List.foldlM_cons, List.foldlM_nil, Option.bind_eq_bind, Option.bind_eq_some_iff,
    digitStep_eq_some_iff, Option.pure_def, Option.some.injEq]
  constructor
  · rintro ⟨m, ⟨hx, hm, -⟩, k, ⟨hy, hk, -⟩, rfl⟩
    exact ⟨hx, hy, by omega⟩
  · rintro ⟨hx, hy, rfl⟩
    have hltx := hexVal_lt hx
    have hlty := hexVal_lt hy
    exact ⟨_, ⟨hx, rfl, by omega⟩, _, ⟨hy, rfl, by omega⟩, by omega⟩

/-- **What the integer parser makes of two bytes.** -/
theorem fromStrRadix_pair {x y : UInt8} {b : UInt8} : fromStrRadix [x, y] = some b ↔
    isHexDigit y = true ∧ ((isHexDigit x = true ∧ b = UInt8.ofNat (16 * hexVal x + hexVal y)) ∨
      (x = byte '+' ∧ b = UInt8.ofNat (hexVal y))) := by
  have hplus : isHexDigit (byte '+') = false := by decide
  have heq : fromStrRadix [x, y] =
      (radixDigits (if x = byte '+' then [y] else [x, y])).map UInt8.ofNat := rfl
  rw [heq, Option.map_eq_some_iff]
  by_cases hx : x = byte '+'
  · subst hx
    rw [if_pos rfl, hplus]
    simp only [radixDigits_one]
    constructor
    · rintro ⟨n, ⟨hy, rfl⟩, rfl⟩
      exact ⟨hy, Or.inr ⟨trivial, rfl⟩⟩
    · rintro ⟨hy, ⟨hfalse, -⟩ | ⟨-, rfl⟩⟩
      · cases hfalse
      · exact ⟨_, ⟨hy, rfl⟩, rfl⟩
  · rw [if_neg hx]
    simp only [radixDigits_two]
    constructor
    · rintro ⟨n, ⟨hxd, hy, rfl⟩, rfl⟩
      exact ⟨hy, Or.inl ⟨hxd, rfl⟩⟩
    · rintro ⟨hy, ⟨hxd, rfl⟩ | ⟨hp, -⟩⟩
      · exact ⟨_, ⟨hxd, hy, rfl⟩, rfl⟩
      · exact absurd hp hx

/-- A pair is read exactly if it is two digits, or a plus sign and a digit. -/
theorem fromStrRadix_isSome_iff {pair : List UInt8} (hlen : pair.length = 2) :
    (∃ b, fromStrRadix pair = some b) ↔ ReadPair pair := by
  obtain ⟨x, y, rfl⟩ := List.length_eq_two.mp hlen
  simp only [fromStrRadix_pair]
  constructor
  · rintro ⟨b, hy, ⟨hx, -⟩ | ⟨hx, -⟩⟩
    · exact ⟨x, y, rfl, Or.inl hx, hy⟩
    · exact ⟨x, y, rfl, Or.inr hx, hy⟩
  · rintro ⟨x', y', heq, hx, hy⟩
    cases heq
    rcases hx with hx | hx
    · exact ⟨_, hy, Or.inl ⟨hx, rfl⟩⟩
    · exact ⟨_, hy, Or.inr ⟨hx, rfl⟩⟩

/-! ### Digits of a byte -/

/-- **A digit in lower case** is printed for its value. -/
theorem byte_digitChar_hexVal {x : UInt8} (hx : isHexDigit x = true) :
    byte (Nat.digitChar (hexVal x)) = toAsciiLowercase x := by
  rw [← UInt8.toNat_inj, toNat_byte_digitChar (hexVal_lt hx), hexVal_eq]
  rw [isHexDigit_iff] at hx
  have hupper : within (byte 'A') (byte 'Z') x = true ↔ 65 ≤ x.toNat ∧ x.toNat ≤ 90 := within_iff
  have hlt := x.toNat_lt
  unfold toAsciiLowercase
  by_cases hcase : within (byte 'A') (byte 'Z') x = true
  · rw [if_pos hcase, UInt8.toNat_add]
    rw [hupper] at hcase
    show _ = (x.toNat + 32) % 2 ^ 8
    split_ifs <;> omega
  · rw [if_neg hcase]
    rw [hupper] at hcase
    split_ifs <;> omega

/-- **A pair of digits is printed in lower case.** -/
theorem hexByte_pair {x y : UInt8} (hx : isHexDigit x = true) (hy : isHexDigit y = true) :
    hexByte (UInt8.ofNat (16 * hexVal x + hexVal y)) = [x, y].map toAsciiLowercase := by
  rw [hexByte_eq hx hy, byte_digitChar_hexVal hx, byte_digitChar_hexVal hy]
  rfl

/-- A printed byte is read back. -/
theorem fromStrRadix_hexByte (b : UInt8) : fromStrRadix (hexByte b) = some b := by
  have hlt := b.toNat_lt
  obtain ⟨hx, hvx⟩ := isHexDigit_digitChar (n := b.toNat / 16) (by omega)
  obtain ⟨hy, hvy⟩ := isHexDigit_digitChar (n := b.toNat % 16) (by omega)
  refine fromStrRadix_pair.mpr ⟨hy, Or.inl ⟨hx, ?_⟩⟩
  rw [hvx, hvy, ← UInt8.toNat_inj, UInt8.toNat_ofNat']
  omega

/-! ### The whole text -/

section Text

variable {s : List UInt8}

/-- The pairs of a text of 64 bytes. -/
theorem chunks_eq_map (hlen : s.length = 64) :
    chunks 2 s = (List.range' 0 32).map fun j => (s.drop (j * 2)).take 2 := by
  refine List.ext_getElem? fun i => ?_
  rw [getElem?_chunks (by omega), List.getElem?_map]
  by_cases hi : i < 32
  · rw [if_pos (by omega), List.getElem?_range' hi, Option.map_some, Nat.zero_add, Nat.one_mul]
  · rw [if_neg (by omega), List.getElem?_eq_none (by rw [List.length_range']; omega)]
    rfl

theorem length_of_mem_pairs (hlen : s.length = 64) {pair : List UInt8} (h : pair ∈ chunks 2 s) :
    pair.length = 2 := by
  rw [chunks_eq_map hlen] at h
  obtain ⟨j, hj, rfl⟩ := List.mem_map.mp h
  have hlt : j < 32 := by
    have := List.mem_range'_1.mp hj
    omega
  rw [List.length_take, List.length_drop]
  omega

theorem mem_of_mem_pairs {pair : List UInt8} (h : pair ∈ chunks 2 s) {c : UInt8} (hc : c ∈ pair) :
    c ∈ s := by
  rw [← flatten_chunks (by omega : 0 < 2) s]
  exact List.mem_flatten.mpr ⟨pair, h, hc⟩

/-- What the loop of `from_hex` reads. -/
theorem slots_eq_some_iff : ∀ {k i : ℕ} {l : List UInt8}, slots s k i = some l ↔
    List.Forall₂ (fun j b => ∃ pair, textSlice s (j * 2) (j * 2 + 2) = some pair ∧
      fromStrRadix pair = some b) (List.range' i k) l
  | 0, i, l => by
    rw [slots, List.range'_zero, List.forall₂_nil_left_iff, Option.some.injEq]
    exact eq_comm
  | k + 1, i, l => by
    rw [slots, List.range'_succ, List.forall₂_cons_left_iff]
    simp only [Option.bind_eq_some_iff, Option.map_eq_some_iff, slots_eq_some_iff]
    constructor
    · rintro ⟨pair, hpair, b, hb, bs, hbs, rfl⟩
      exact ⟨b, bs, ⟨pair, hpair, hb⟩, hbs, rfl⟩
    · rintro ⟨b, bs, ⟨pair, hpair, hb⟩, hbs, rfl⟩
      exact ⟨pair, hpair, b, hb, bs, hbs, rfl⟩

theorem ascii_of_readPair (h : ∀ pair ∈ chunks 2 s, ReadPair pair) : ∀ c ∈ s, c < 0x80 := by
  intro c hc
  rw [← flatten_chunks (by omega : 0 < 2) s] at hc
  obtain ⟨pair, hpair, hc⟩ := List.mem_flatten.mp hc
  have hdigit : ∀ {x : UInt8}, isHexDigit x = true → x < 0x80 := by
    intro x hx
    rw [isHexDigit_iff] at hx
    show x.toNat < 128
    omega
  obtain ⟨x, y, rfl, hx, hy⟩ := h pair hpair
  rcases List.mem_cons.mp hc with rfl | hc
  · rcases hx with hx | rfl
    · exact hdigit hx
    · decide
  · rw [List.mem_singleton.mp hc]
    exact hdigit hy

/-- What has been read is made of pairs that are. -/
theorem readPair_of_read {l : List UInt8} (hlen : s.length = 64)
    (h : List.Forall₂ (fun pair v => fromStrRadix pair = some v) (chunks 2 s) l) :
    ∀ pair ∈ chunks 2 s, ReadPair pair := by
  intro pair hpair
  obtain ⟨i, hi, rfl⟩ := List.getElem_of_mem hpair
  have hi' : i < l.length := h.length_eq ▸ hi
  exact (fromStrRadix_isSome_iff (length_of_mem_pairs hlen hpair)).mp
    ⟨_, (List.forall₂_iff_get.mp h).2 i hi hi'⟩

/-- **What `from_hex` reads**: 64 bytes, pair by pair. -/
theorem fromHex_eq_some_iff {b : BlobId} : fromHex s = some b ↔ s.length = 64 ∧
    List.Forall₂ (fun pair v => fromStrRadix pair = some v) (chunks 2 s) b.toList := by
  unfold fromHex
  by_cases hlen : s.length = 64
  · rw [if_neg (not_not_intro hlen), Option.bind_eq_some_iff]
    simp only [slots_eq_some_iff, array_eq_some_iff, exists_eq_right]
    refine Iff.trans ?_ (and_iff_right hlen).symm
    constructor
    · intro h
      rw [chunks_eq_map hlen, List.forall₂_map_left_iff]
      refine h.imp fun j v ⟨pair, hpair, hv⟩ => ?_
      have hslice := textSlice_eq_some hpair
      unfold slice at hslice
      split_ifs at hslice
      rw [Option.some.injEq, Nat.add_sub_cancel_left] at hslice
      rw [hslice]
      exact hv
    · intro h
      have hascii := ascii_of_readPair (readPair_of_read hlen h)
      rw [chunks_eq_map hlen, List.forall₂_map_left_iff] at h
      have hmem : ∀ j ∈ List.range' 0 32, textSlice s (j * 2) (j * 2 + 2) =
          some ((s.drop (j * 2)).take 2) := by
        intro j hj
        have hlt := List.mem_range'_1.mp hj
        rw [textSlice_of_ascii hascii (by omega) (by omega)]
        unfold slice
        rw [if_pos ⟨by omega, by omega⟩, Nat.add_sub_cancel_left]
      refine List.forall₂_iff_get.mpr ⟨h.length_eq, fun i hi hi' => ?_⟩
      exact ⟨_, hmem _ (List.get_mem _ ⟨i, hi⟩), (List.forall₂_iff_get.mp h).2 i hi hi'⟩
  · rw [if_pos hlen]
    exact ⟨nofun, fun h => absurd h.1 hlen⟩

/-- **Which texts are accepted.** -/
theorem fromHex_isSome_iff :
    (∃ b, fromHex s = some b) ↔ s.length = 64 ∧ ∀ pair ∈ chunks 2 s, ReadPair pair := by
  simp only [fromHex_eq_some_iff]
  constructor
  · rintro ⟨b, hlen, h⟩
    exact ⟨hlen, readPair_of_read hlen h⟩
  · rintro ⟨hlen, h⟩
    set l := (chunks 2 s).map fun pair => (fromStrRadix pair).getD 0 with hl
    have hcount : l.length = 32 := by
      rw [hl, List.length_map, chunks_eq_map hlen, List.length_map, List.length_range']
    refine ⟨⟨l.toArray, hcount⟩, hlen, ?_⟩
    show List.Forall₂ _ _ l
    rw [hl, List.forall₂_map_right_iff, List.forall₂_same]
    intro pair hpair
    obtain ⟨b, hb⟩ := (fromStrRadix_isSome_iff (length_of_mem_pairs hlen hpair)).mpr (h pair hpair)
    rw [hb]
    rfl

theorem chunks_blobHex (b : BlobId) : chunks 2 (blobHex b) = b.toList.map hexByte := by
  have hlen : ∀ pair ∈ b.toList.map hexByte, pair.length = 2 := by
    intro pair hpair
    obtain ⟨v, -, rfl⟩ := List.mem_map.mp hpair
    rfl
  have h := chunks_append (by omega : 0 < 2) [] hlen
  rw [List.append_nil, chunks_nil, List.append_nil] at h
  exact h

theorem length_blobHex (b : BlobId) : (blobHex b).length = 64 := by
  unfold blobHex
  rw [length_toHex, Vector.length_toList]

/-- **What is printed is read back.** -/
theorem fromHex_blobHex (b : BlobId) : fromHex (blobHex b) = some b := by
  refine fromHex_eq_some_iff.mpr ⟨length_blobHex b, ?_⟩
  rw [chunks_blobHex, List.forall₂_map_left_iff, List.forall₂_same]
  exact fun v _ => fromStrRadix_hexByte v

/-- What is read from digits is printed in lower case. -/
theorem blobHex_of_fromHex {b : BlobId} (h : fromHex s = some b)
    (hdigits : ∀ c ∈ s, isHexDigit c = true) : blobHex b = s.map toAsciiLowercase := by
  obtain ⟨hlen, hpairs⟩ := fromHex_eq_some_iff.mp h
  have hprinted : b.toList.map hexByte = (chunks 2 s).map (List.map toAsciiLowercase) := by
    refine List.ext_get (by rw [List.length_map, List.length_map, hpairs.length_eq]) fun i hi hi' => ?_
    rw [List.length_map] at hi hi'
    have hpair := (List.forall₂_iff_get.mp hpairs).2 i hi' hi
    have hmem : (chunks 2 s).get ⟨i, hi'⟩ ∈ chunks 2 s := List.get_mem _ _
    obtain ⟨x, y, hxy⟩ := List.length_eq_two.mp (length_of_mem_pairs hlen hmem)
    have hx := hdigits x (mem_of_mem_pairs hmem (by rw [hxy]; simp))
    have hy := hdigits y (mem_of_mem_pairs hmem (by rw [hxy]; simp))
    simp only [List.get_eq_getElem, List.getElem_map] at hpair hxy ⊢
    rw [hxy] at hpair ⊢
    obtain ⟨-, ⟨-, hb⟩ | ⟨hplus, -⟩⟩ := fromStrRadix_pair.mp hpair
    · rw [hb]
      exact hexByte_pair hx hy
    · rw [hplus] at hx
      exact absurd hx (by decide)
  calc blobHex b = (b.toList.map hexByte).flatten := rfl
    _ = ((chunks 2 s).map (List.map toAsciiLowercase)).flatten := by rw [hprinted]
    _ = s.map toAsciiLowercase := by rw [← List.map_flatten, flatten_chunks (by omega : 0 < 2)]

end Text

/-! ### When `from_hex` is exact -/

/-- Exactly 64 hexadecimal digits. -/
def IsHex64 (s : List UInt8) : Prop := s.length = 64 ∧ ∀ c ∈ s, isHexDigit c = true

/-- The text has a plus sign where its pairs may have one: 32 pairs of two digits, or of a plus sign and
a digit. -/
def Signed (s : List UInt8) : Prop :=
  s.length = 64 ∧ (∀ pair ∈ chunks 2 s, ReadPair pair) ∧ byte '+' ∈ s

/-- **When `from_hex` accepts exactly the texts of 64 digits**, reads what is printed in lower case, and
reads back what is printed: on all texts but those with plus signs in their pairs. -/
theorem fromHex_iff (s : List UInt8) :
    (((∃ b, fromHex s = some b) ↔ IsHex64 s) ∧
      (∀ b, fromHex s = some b → blobHex b = s.map toAsciiLowercase) ∧
      ∀ b, fromHex (blobHex b) = some b) ↔ ¬ Signed s := by
  have hplus : isHexDigit (byte '+') = false := by decide
  constructor
  · rintro ⟨h, -, -⟩ ⟨hlen, hpairs, hmem⟩
    have hhex := h.mp (fromHex_isSome_iff.mpr ⟨hlen, hpairs⟩)
    have hdigit := hhex.2 _ hmem
    rw [hplus] at hdigit
    cases hdigit
  · intro hnot
    have hdigits : ∀ b, fromHex s = some b → ∀ c ∈ s, isHexDigit c = true := by
      intro b hb c hc
      obtain ⟨hlen, hpairs⟩ := fromHex_isSome_iff.mp ⟨b, hb⟩
      have hnone : byte '+' ∉ s := fun hmem => hnot ⟨hlen, hpairs, hmem⟩
      rw [← flatten_chunks (by omega : 0 < 2) s] at hc
      obtain ⟨pair, hpair, hc⟩ := List.mem_flatten.mp hc
      obtain ⟨x, y, rfl, hx, hy⟩ := hpairs pair hpair
      rcases List.mem_cons.mp hc with rfl | hc
      · refine hx.resolve_right fun he => hnone ?_
        rw [← he]
        exact mem_of_mem_pairs hpair List.mem_cons_self
      · rw [List.mem_singleton.mp hc]
        exact hy
    refine ⟨⟨?_, ?_⟩, fun b hb => blobHex_of_fromHex hb (hdigits b hb), fromHex_blobHex⟩
    · rintro ⟨b, hb⟩
      exact ⟨(fromHex_isSome_iff.mp ⟨b, hb⟩).1, hdigits b hb⟩
    · rintro ⟨hlen, hall⟩
      refine fromHex_isSome_iff.mpr ⟨hlen, fun pair hpair => ?_⟩
      obtain ⟨x, y, rfl⟩ := List.length_eq_two.mp (length_of_mem_pairs hlen hpair)
      exact ⟨x, y, rfl, Or.inl (hall x (mem_of_mem_pairs hpair (by simp))),
        hall y (mem_of_mem_pairs hpair (by simp))⟩

/-- Thirty-two times a plus sign and a digit. -/
def plusText : List UInt8 := (List.replicate 32 (text "+f")).flatten

theorem plusText_accepted : (fromHex plusText).isSome = true ∧ ¬ IsHex64 plusText := by
  refine ⟨by decide, fun h => ?_⟩
  exact absurd (h.2 (byte '+') (by decide)) (by decide)

end CncContent.Workshop.Blob
