import CncContent.Lib.Bytes
import CncContent.Lib.Checks
import CncContent.Lib.Sextets

/-! # Base64

`base64_encode` and `base64_decode` of the source. The decoder reads groups of four characters; it takes
whatever `Decodable` describes. What the encoder writes is `Canonical`, and a text that is decoded is
what the encoder writes for the result exactly if it is canonical (`encode_decodeFrom_iff`). -/

namespace CncContent.Torrent.Base64

open CncContent.Lib.Bytes CncContent.Lib.Checks CncContent.Lib.Sextets

/-- What is wrong with a character. -/
inductive Base64Fault
  | unexpectedEnd
  | unexpectedCharacter (byte : UInt8)
deriving DecidableEq, Repr

inductive PemError
  | missingHeader
  | missingFooter
  | invalidBase64 (position : ℕ) (reason : Base64Fault)
deriving DecidableEq, Repr

def b64Alphabet : List UInt8 :=
  text "ABCDEFGHIJKLMNOPQRSTUVWXYZabcdefghijklmnopqrstuvwxyz0123456789+/"

/-! ### The encoder -/

/-- `push_b64_char`: the character of a value of six bits. -/
def b64Char (idx : UInt8) : List UInt8 := b64Alphabet[idx.toNat]?.toList

def pad : UInt8 := byte '='

def base64Encode : List UInt8 → List UInt8
  | a :: b :: c :: data =>
    b64Char (a >>> 2) ++ b64Char ((a &&& 0x03) <<< 4 ||| b >>> 4) ++
      b64Char ((b &&& 0x0f) <<< 2 ||| c >>> 6) ++ b64Char (c &&& 0x3f) ++ base64Encode data
  | [a, b] =>
    b64Char (a >>> 2) ++ b64Char ((a &&& 0x03) <<< 4 ||| b >>> 4) ++ b64Char ((b &&& 0x0f) <<< 2) ++
      [pad]
  | [a] => b64Char (a >>> 2) ++ b64Char ((a &&& 0x03) <<< 4) ++ [pad, pad]
  | [] => []

/-! ### The decoder -/

def b64Value (byte : UInt8) : Option UInt8 :=
  if within 65 90 byte then some (byte - 65)
  else if within 97 122 byte then some (byte - 97 + 26)
  else if within 48 57 byte then some (byte - 48 + 52)
  else if byte = 43 then some 62
  else if byte = 47 then some 63
  else none

def valueAt (position : ℕ) (byte : UInt8) : Except PemError UInt8 :=
  okOr (b64Value byte) (.invalidBase64 position (.unexpectedCharacter byte))

/-- `decode_b64_char` for the character that is there, if any. -/
def decodeB64Char (position : ℕ) (byte : Option UInt8) : Except PemError UInt8 := do
  let byte ← okOr byte (.invalidBase64 position .unexpectedEnd)
  valueAt position byte

/-- One round of the decoder: the characters from `position` on, at most four. -/
def decodeGroup (position : ℕ) (bytes : List UInt8) : Except PemError (List UInt8) := do
  let a ← decodeB64Char position bytes[0]?
  let b ← decodeB64Char (position + 1) bytes[1]?
  let cByte := bytes[2]?.getD pad
  let dByte := bytes[3]?.getD pad
  if cByte = pad then return [a <<< 2 ||| b >>> 4]
  let c ← valueAt (position + 2) cByte
  if dByte = pad then return [a <<< 2 ||| b >>> 4, b <<< 4 ||| c >>> 2]
  let d ← valueAt (position + 3) dByte
  return [a <<< 2 ||| b >>> 4, b <<< 4 ||| c >>> 2, c <<< 6 ||| d]

/-- The rounds from `position` on. -/
def decodeFrom (position : ℕ) : List UInt8 → Except PemError (List UInt8)
  | a :: b :: c :: d :: bytes => do
    let group ← decodeGroup position [a, b, c, d]
    let rest ← decodeFrom (position + 4) bytes
    return group ++ rest
  | [a, b, c] => decodeGroup position [a, b, c]
  | [a, b] => decodeGroup position [a, b]
  | [a] => decodeGroup position [a]
  | [] => .ok []

def base64Decode (b64 : List UInt8) : Except PemError (List UInt8) := decodeFrom 0 b64

example : base64Encode (text "fooba") = text "Zm9vYmE=" := by decide

/-! ### Texts -/

/-- Four characters that a round of the decoder reads; a missing one counts as padding. -/
def DecodableGroup (a b c d : UInt8) : Prop :=
  (b64Value a).isSome ∧ (b64Value b).isSome ∧
    (c ≠ pad → (b64Value c).isSome ∧ (d ≠ pad → (b64Value d).isSome))

instance {a b c d : UInt8} : Decidable (DecodableGroup a b c d) := inferInstanceAs (Decidable (_ ∧ _))

/-- Every round of the decoder finds what it reads. -/
def Decodable : List UInt8 → Prop
  | a :: b :: c :: d :: bytes => DecodableGroup a b c d ∧ Decodable bytes
  | [a, b, c] => DecodableGroup a b c pad
  | [a, b] => DecodableGroup a b pad pad
  | [_] => False
  | [] => True

/-- Four characters of the alphabet. -/
def FullGroup (a b c d : UInt8) : Prop :=
  (b64Value a).isSome ∧ (b64Value b).isSome ∧ (b64Value c).isSome ∧ (b64Value d).isSome

/-- A last group with padding, whose unused bits are zero. -/
def PaddedGroup (a b c d : UInt8) : Prop :=
  (b64Value a).isSome ∧ d = pad ∧
    ((c = pad ∧ ∃ v, b64Value b = some v ∧ v &&& 0x0f = 0) ∨
      ((b64Value b).isSome ∧ ∃ v, b64Value c = some v ∧ v &&& 0x03 = 0))

/-- Groups of four characters, padded in the last group alone. -/
def Canonical : List UInt8 → Prop
  | a :: b :: c :: d :: bytes =>
    (FullGroup a b c d ∧ Canonical bytes) ∨ (bytes = [] ∧ PaddedGroup a b c d)
  | [] => True
  | _ => False

/-! ### Characters -/

/-- The character of a value, and the value of a character. -/
theorem b64Value_iff {v ch : UInt8} : b64Value ch = some v ↔ Sextet v ∧ b64Char v = [ch] := by
  constructor
  · have hall : ∀ n < 256, (b64Value (UInt8.ofNat n)).all (fun v =>
        decide (Sextet v ∧ b64Char v = [UInt8.ofNat n])) = true := by
      decide +kernel
    have h := forall_byte (P := fun ch => (b64Value ch).all (fun v => decide (Sextet v ∧ b64Char v = [ch])) = true)
      hall ch
    exact fun hv => of_decide_eq_true ((Option.all_eq_true _ _).mp h v hv)
  · have hall : ∀ n < 256, Sextet (UInt8.ofNat n) →
        (b64Char (UInt8.ofNat n)).map b64Value = [some (UInt8.ofNat n)] := by
      decide +kernel
    rintro ⟨hv, hch⟩
    have h := forall_byte (P := fun v => Sextet v → (b64Char v).map b64Value = [some v]) hall v hv
    rw [hch] at h
    exact List.singleton_inj.mp h

theorem exists_b64Char {v : UInt8} (hv : Sextet v) : ∃ ch, b64Char v = [ch] ∧ b64Value ch = some v := by
  have hall : ∀ n < 256, Sextet (UInt8.ofNat n) → (b64Char (UInt8.ofNat n)).length = 1 := by
    decide +kernel
  have hlen := forall_byte (P := fun v => Sextet v → (b64Char v).length = 1) hall v hv
  obtain ⟨ch, hch⟩ := List.length_eq_one_iff.mp hlen
  exact ⟨ch, hch, b64Value_iff.mpr ⟨hv, hch⟩⟩

theorem b64Value_pad : b64Value pad = none := by decide

theorem ne_pad {ch v : UInt8} (h : b64Value ch = some v) : ch ≠ pad := by
  rintro rfl
  rw [b64Value_pad] at h
  cases h

/-! ### Groups -/

section Groups

variable {position : ℕ} {a b c d va vb vc vd : UInt8} {out : List UInt8}

theorem valueAt_eq_ok {byte v : UInt8} : valueAt position byte = .ok v ↔ b64Value byte = some v :=
  okOr_eq_ok

/-- **What a round reads**: two characters, and then none, one or two more. -/
theorem decodeGroup_eq_ok : decodeGroup position [a, b, c, d] = .ok out ↔
    ∃ va vb, b64Value a = some va ∧ b64Value b = some vb ∧
      ((c = pad ∧ out = [va <<< 2 ||| vb >>> 4]) ∨
        ∃ vc, b64Value c = some vc ∧
          ((d = pad ∧ out = [va <<< 2 ||| vb >>> 4, vb <<< 4 ||| vc >>> 2]) ∨
            ∃ vd, b64Value d = some vd ∧
              out = [va <<< 2 ||| vb >>> 4, vb <<< 4 ||| vc >>> 2, vc <<< 6 ||| vd])) := by
  have hlist : decodeGroup position [a, b, c, d] = (valueAt position a >>= fun va =>
      valueAt (position + 1) b >>= fun vb =>
      if c = pad then .ok [va <<< 2 ||| vb >>> 4]
      else valueAt (position + 2) c >>= fun vc =>
        if d = pad then .ok [va <<< 2 ||| vb >>> 4, vb <<< 4 ||| vc >>> 2]
        else valueAt (position + 3) d >>= fun vd =>
          .ok [va <<< 2 ||| vb >>> 4, vb <<< 4 ||| vc >>> 2, vc <<< 6 ||| vd]) := rfl
  rw [hlist]
  simp only [bind_eq_ok, valueAt_eq_ok]
  constructor
  · rintro ⟨va, hva, vb, hvb, h⟩
    refine ⟨va, vb, hva, hvb, ?_⟩
    by_cases hc : c = pad
    · rw [if_pos hc] at h
      exact Or.inl ⟨hc, (Except.ok.inj h).symm⟩
    rw [if_neg hc, bind_eq_ok] at h
    obtain ⟨vc, hvc, h⟩ := h
    refine Or.inr ⟨vc, valueAt_eq_ok.mp hvc, ?_⟩
    by_cases hd : d = pad
    · rw [if_pos hd] at h
      exact Or.inl ⟨hd, (Except.ok.inj h).symm⟩
    rw [if_neg hd, bind_eq_ok] at h
    obtain ⟨vd, hvd, h⟩ := h
    exact Or.inr ⟨vd, valueAt_eq_ok.mp hvd, (Except.ok.inj h).symm⟩
  · rintro ⟨va, vb, hva, hvb, h⟩
    refine ⟨va, hva, vb, hvb, ?_⟩
    rcases h with ⟨hc, rfl⟩ | ⟨vc, hvc, h⟩
    · rw [if_pos hc]
    rw [if_neg (ne_pad hvc), bind_eq_ok]
    refine ⟨vc, valueAt_eq_ok.mpr hvc, ?_⟩
    rcases h with ⟨hd, rfl⟩ | ⟨vd, hvd, rfl⟩
    · rw [if_pos hd]
    · rw [if_neg (ne_pad hvd), bind_eq_ok]
      exact ⟨vd, valueAt_eq_ok.mpr hvd, rfl⟩

/-- A round reads what `DecodableGroup` describes. -/
theorem exists_decodeGroup : (∃ out, decodeGroup position [a, b, c, d] = .ok out) ↔
    DecodableGroup a b c d := by
  unfold DecodableGroup
  simp only [decodeGroup_eq_ok, Option.isSome_iff_exists]
  constructor
  · rintro ⟨out, va, vb, hva, hvb, h⟩
    refine ⟨⟨va, hva⟩, ⟨vb, hvb⟩, fun hc => ?_⟩
    obtain ⟨vc, hvc, h⟩ := h.resolve_left fun h => hc h.1
    refine ⟨⟨vc, hvc⟩, fun hd => ?_⟩
    obtain ⟨vd, hvd, -⟩ := h.resolve_left fun h => hd h.1
    exact ⟨vd, hvd⟩
  · rintro ⟨⟨va, hva⟩, ⟨vb, hvb⟩, h⟩
    by_cases hc : c = pad
    · exact ⟨_, va, vb, hva, hvb, Or.inl ⟨hc, rfl⟩⟩
    obtain ⟨⟨vc, hvc⟩, h⟩ := h hc
    by_cases hd : d = pad
    · exact ⟨_, va, vb, hva, hvb, Or.inr ⟨vc, hvc, Or.inl ⟨hd, rfl⟩⟩⟩
    obtain ⟨vd, hvd⟩ := h hd
    exact ⟨_, va, vb, hva, hvb, Or.inr ⟨vc, hvc, Or.inr ⟨vd, hvd, rfl⟩⟩⟩

end Groups

/-! ### The rounds -/

theorem decodeFrom_cons_eq_ok {position : ℕ} {a b c d : UInt8} {bytes out : List UInt8} :
    decodeFrom position (a :: b :: c :: d :: bytes) = .ok out ↔
      ∃ group rest, decodeGroup position [a, b, c, d] = .ok group ∧
        decodeFrom (position + 4) bytes = .ok rest ∧ out = group ++ rest := by
  have hcons : decodeFrom position (a :: b :: c :: d :: bytes) =
      (decodeGroup position [a, b, c, d] >>= fun group =>
        decodeFrom (position + 4) bytes >>= fun rest => .ok (group ++ rest)) := rfl
  rw [hcons]
  simp only [bind_eq_ok, Except.ok.injEq]
  constructor
  · rintro ⟨group, hgroup, rest, hrest, rfl⟩
    exact ⟨group, rest, hgroup, hrest, rfl⟩
  · rintro ⟨group, rest, hgroup, hrest, rfl⟩
    exact ⟨group, hgroup, rest, hrest, rfl⟩

/-- **What is decoded** is what `Decodable` describes. -/
theorem exists_decodeFrom : ∀ {bytes : List UInt8} {position : ℕ},
    (∃ out, decodeFrom position bytes = .ok out) ↔ Decodable bytes
  | a :: b :: c :: d :: bytes, position => by
    have hgroup : (∃ out, decodeGroup position [a, b, c, d] = .ok out) ↔ DecodableGroup a b c d :=
      exists_decodeGroup
    have ih : (∃ out, decodeFrom (position + 4) bytes = .ok out) ↔ Decodable bytes := exists_decodeFrom
    simp only [decodeFrom_cons_eq_ok, Decodable, ← hgroup, ← ih]
    constructor
    · rintro ⟨out, group, rest, hg, hr, rfl⟩
      exact ⟨⟨group, hg⟩, rest, hr⟩
    · rintro ⟨⟨group, hg⟩, rest, hr⟩
      exact ⟨_, group, rest, hg, hr, rfl⟩
  | [a, b, c], _ => exists_decodeGroup (d := pad)
  | [a, b], _ => exists_decodeGroup (c := pad) (d := pad)
  | [a], position => by
    refine ⟨?_, nofun⟩
    rintro ⟨out, h⟩
    obtain ⟨_, -, h⟩ := bind_eq_ok.mp (show (_ >>= _) = _ from h)
    cases h
  | [], _ => ⟨fun _ => trivial, fun _ => ⟨[], rfl⟩⟩

/-! ### The encoder and the decoder -/

section Encode

variable (a b c : UInt8)

theorem encode_three (data : List UInt8) : ∃ p q r t,
    base64Encode (a :: b :: c :: data) = p :: q :: r :: t :: base64Encode data ∧
      b64Value p = some (a >>> 2) ∧ b64Value q = some ((a &&& 0x03) <<< 4 ||| b >>> 4) ∧
      b64Value r = some ((b &&& 0x0f) <<< 2 ||| c >>> 6) ∧ b64Value t = some (c &&& 0x3f) := by
  obtain ⟨p, hp, hvp⟩ := exists_b64Char (sextet_first (a := a))
  obtain ⟨q, hq, hvq⟩ := exists_b64Char (sextet_second (a := a) (b := b))
  obtain ⟨r, hr, hvr⟩ := exists_b64Char (sextet_third (b := b) (c := c))
  obtain ⟨t, ht, hvt⟩ := exists_b64Char (sextet_fourth (c := c))
  refine ⟨p, q, r, t, ?_, hvp, hvq, hvr, hvt⟩
  rw [base64Encode, hp, hq, hr, ht]
  rfl

theorem encode_two : ∃ p q r, base64Encode [a, b] = [p, q, r, pad] ∧
    b64Value p = some (a >>> 2) ∧ b64Value q = some ((a &&& 0x03) <<< 4 ||| b >>> 4) ∧
      b64Value r = some ((b &&& 0x0f) <<< 2) := by
  obtain ⟨p, hp, hvp⟩ := exists_b64Char (sextet_first (a := a))
  obtain ⟨q, hq, hvq⟩ := exists_b64Char (sextet_second (a := a) (b := b))
  obtain ⟨r, hr, hvr⟩ := exists_b64Char (sextet_thirdEnd (b := b))
  refine ⟨p, q, r, ?_, hvp, hvq, hvr⟩
  rw [base64Encode, hp, hq, hr]
  rfl

theorem encode_one : ∃ p q, base64Encode [a] = [p, q, pad, pad] ∧
    b64Value p = some (a >>> 2) ∧ b64Value q = some ((a &&& 0x03) <<< 4) := by
  obtain ⟨p, hp, hvp⟩ := exists_b64Char (sextet_first (a := a))
  obtain ⟨q, hq, hvq⟩ := exists_b64Char (sextet_secondEnd (a := a))
  refine ⟨p, q, ?_, hvp, hvq⟩
  rw [base64Encode, hp, hq]
  rfl

end Encode

/-- **What is encoded is decoded again.** -/
theorem decodeFrom_encode : ∀ (data : List UInt8) (position : ℕ),
    decodeFrom position (base64Encode data) = .ok data
  | a :: b :: c :: data, position => by
    obtain ⟨p, q, r, t, henc, hp, hq, hr, ht⟩ := encode_three a b c data
    have ih := decodeFrom_encode data (position + 4)
    rw [henc, decodeFrom_cons_eq_ok]
    refine ⟨[a, b, c], data, decodeGroup_eq_ok.mpr ⟨_, _, hp, hq, Or.inr ⟨_, hr, Or.inr ⟨_, ht, ?_⟩⟩⟩,
      ih, rfl⟩
    rw [firstByte_eq, secondByte_eq, thirdByte_eq]
  | [a, b], position => by
    obtain ⟨p, q, r, henc, hp, hq, hr⟩ := encode_two a b
    rw [henc, decodeFrom_cons_eq_ok]
    refine ⟨[a, b], [], decodeGroup_eq_ok.mpr ⟨_, _, hp, hq, Or.inr ⟨_, hr, Or.inl ⟨rfl, ?_⟩⟩⟩, rfl, rfl⟩
    rw [firstByte_eq, secondByteEnd_eq]
  | [a], position => by
    obtain ⟨p, q, henc, hp, hq⟩ := encode_one a
    rw [henc, decodeFrom_cons_eq_ok]
    refine ⟨[a], [], decodeGroup_eq_ok.mpr ⟨_, _, hp, hq, Or.inl ⟨rfl, ?_⟩⟩, rfl, rfl⟩
    rw [firstByteEnd_eq]
  | [], _ => rfl

theorem canonical_encode : ∀ data : List UInt8, Canonical (base64Encode data)
  | a :: b :: c :: data => by
    obtain ⟨p, q, r, t, henc, hp, hq, hr, ht⟩ := encode_three a b c data
    rw [henc]
    exact Or.inl ⟨⟨Option.isSome_of_eq_some hp, Option.isSome_of_eq_some hq,
      Option.isSome_of_eq_some hr, Option.isSome_of_eq_some ht⟩, canonical_encode data⟩
  | [a, b] => by
    obtain ⟨p, q, r, henc, hp, hq, hr⟩ := encode_two a b
    rw [henc]
    exact Or.inr ⟨rfl, Option.isSome_of_eq_some hp, rfl,
      Or.inr ⟨Option.isSome_of_eq_some hq, _, hr, thirdEnd_unused⟩⟩
  | [a] => by
    obtain ⟨p, q, henc, hp, hq⟩ := encode_one a
    rw [henc]
    exact Or.inr ⟨rfl, Option.isSome_of_eq_some hp, rfl, Or.inl ⟨rfl, _, hq, secondEnd_unused⟩⟩
  | [] => trivial

theorem not_isSome_pad : ¬ (b64Value pad).isSome := by decide

/-- A canonical text is what the encoder writes for what it decodes to. -/
theorem encode_of_canonical : ∀ {bytes out : List UInt8} {position : ℕ}, Canonical bytes →
    decodeFrom position bytes = .ok out → base64Encode out = bytes
  | a :: b :: c :: d :: bytes, out, position, hcanon, h => by
    obtain ⟨group, rest, hgroup, hrest, rfl⟩ := decodeFrom_cons_eq_ok.mp h
    obtain ⟨va, vb, hva, hvb, hgroup⟩ := decodeGroup_eq_ok.mp hgroup
    obtain ⟨hsa, hca⟩ := b64Value_iff.mp hva
    obtain ⟨hsb, hcb⟩ := b64Value_iff.mp hvb
    rcases hcanon with ⟨⟨-, -, hc, hd⟩, hcanon⟩ | ⟨rfl, -, rfl, hpadded⟩
    · obtain ⟨vc, hvc, hgroup⟩ := hgroup.resolve_left fun h => not_isSome_pad (h.1 ▸ hc)
      obtain ⟨vd, hvd, rfl⟩ := hgroup.resolve_left fun h => not_isSome_pad (h.1 ▸ hd)
      obtain ⟨hsc, hcc⟩ := b64Value_iff.mp hvc
      obtain ⟨hsd, hcd⟩ := b64Value_iff.mp hvd
      have ih := encode_of_canonical hcanon hrest
      show base64Encode (_ :: _ :: _ :: rest) = _
      rw [base64Encode, first_eq hsa hsb, second_eq hsb hsc, third_eq hsc hsd, fourth_eq hsd, hca, hcb,
        hcc, hcd, ih]
      rfl
    · obtain rfl := Except.ok.inj hrest
      rcases hpadded with ⟨rfl, v, hv, hunused⟩ | ⟨-, v, hv, hunused⟩
      · obtain rfl := Option.some.inj (hvb.symm.trans hv)
        obtain ⟨-, rfl⟩ := hgroup.resolve_right fun h => by
          obtain ⟨vc, hvc, -⟩ := h
          exact ne_pad hvc rfl
        show base64Encode [_] = _
        rw [base64Encode, first_eq hsa hsb, secondEnd_eq hsb hunused, hca, hcb]
        rfl
      · obtain ⟨vc, hvc, hgroup⟩ := hgroup.resolve_left fun h => ne_pad hv h.1
        obtain rfl := Option.some.inj (hvc.symm.trans hv)
        obtain ⟨hsc, hcc⟩ := b64Value_iff.mp hvc
        obtain ⟨-, rfl⟩ := hgroup.resolve_right fun h => by
          obtain ⟨vd, hvd, -⟩ := h
          exact ne_pad hvd rfl
        show base64Encode [_, _] = _
        rw [base64Encode, first_eq hsa hsb, second_eq hsb hsc, thirdEnd_eq hsc hunused, hca, hcb, hcc]
        rfl
  | [_, _, _], _, _, hcanon, _ => hcanon.elim
  | [_, _], _, _, hcanon, _ => hcanon.elim
  | [_], _, _, hcanon, _ => hcanon.elim
  | [], _, _, _, h => by
    obtain rfl := Except.ok.inj h
    rfl

/-- **A decoded text** is what the encoder writes for the result exactly if it is canonical. -/
theorem encode_decodeFrom_iff {bytes out : List UInt8} {position : ℕ}
    (h : decodeFrom position bytes = .ok out) : base64Encode out = bytes ↔ Canonical bytes :=
  ⟨fun he => he ▸ canonical_encode out, fun hcanon => encode_of_canonical hcanon h⟩

end CncContent.Torrent.Base64
