import CncContent.Lib.Checks
import CncContent.Lib.Decimal
import Mathlib.Data.List.Sort

/-! # The bencode codec

The model of `encode` and `decode`. The decoder passes a cursor over the data. Its recursion is on
the number of levels that may still be opened, `MAX_DECODE_DEPTH + 1` at the root, which the source
counts upwards as `depth`; the loops over items and entries are bounded by a number of rounds that
exceeds the number of bytes, of which every round reads at least one. -/

namespace CncContent.Bencode.Codec

open CncContent.Lib.Bounded CncContent.Lib.Bytes CncContent.Lib.Checks CncContent.Lib.Decimal

def maxDecodeDepth : ℕ := 64

def maxIntDigits : ℕ := 20

inductive BencodeValue
  | bytes (b : List UInt8)
  | int (n : Int64)
  | list (items : List BencodeValue)
  | dict (entries : List (List UInt8 × BencodeValue))

inductive DecodeError
  | unexpectedEof (position : ℕ)
  | invalidToken (byte : UInt8) (position : ℕ)
  | malformedInt (position : ℕ) (reason : String)
  | invalidStringLength (position : ℕ)
  | unsortedKey (position : ℕ)
  | tooDeep (limit position : ℕ)
  | trailingData (position trailingBytes : ℕ)
deriving DecidableEq, Repr

/-! ### Encoding -/

/-- `sort_by` on the keys, a stable sort. -/
def sortByKey {β : Type} (entries : List (List UInt8 × β)) : List (List UInt8 × β) :=
  entries.insertionSort fun e e' => keyLe e.1 e'.1

def encodeString (b : List UInt8) : List UInt8 := printNat b.length ++ byte ':' :: b

mutual

/-- The bytes `encode_into` appends. The values of a dictionary are encoded before the sort, which
looks at the keys only. -/
def encode : BencodeValue → List UInt8
  | .bytes b => encodeString b
  | .int n => byte 'i' :: (printInt n.toInt ++ [byte 'e'])
  | .list items => byte 'l' :: (encodeItems items ++ [byte 'e'])
  | .dict entries =>
    byte 'd' :: ((sortByKey (encodeValues entries)).flatMap (fun e => encodeString e.1 ++ e.2) ++
      [byte 'e'])

def encodeItems : List BencodeValue → List UInt8
  | [] => []
  | v :: vs => encode v ++ encodeItems vs

def encodeValues : List (List UInt8 × BencodeValue) → List (List UInt8 × List UInt8)
  | [] => []
  | (k, v) :: es => (k, encode v) :: encodeValues es

end

/-! ### Decoding -/

def findByte (data : List UInt8) (start : ℕ) (needle : UInt8) : Option ℕ :=
  if start ≤ data.length then
    ((data.drop start).findIdx? fun b => b == needle).map fun i => satAdd u64Max start i
  else none

/-- The first occurrence from `start` on. -/
theorem findByte_eq_some_iff {data : List UInt8} (hdata : data.length ≤ u64Max) {start i : ℕ}
    {c : UInt8} : findByte data start c = some i ↔
      start ≤ data.length ∧ ∃ l rest, data.drop start = l ++ c :: rest ∧ c ∉ l ∧
        i = start + l.length := by
  have hsat : ∀ l rest, data.drop start = l ++ c :: rest → start ≤ data.length →
      satAdd u64Max start l.length = start + l.length := by
    intro l rest hl hle
    have hlen := congrArg List.length hl
    rw [List.length_drop, List.length_append, List.length_cons] at hlen
    exact satAdd_of_le (by omega)
  unfold findByte
  constructor
  · intro h
    split_ifs at h with hle
    obtain ⟨k, hk, rfl⟩ := Option.map_eq_some_iff.mp h
    obtain ⟨hlt, hc, hnot⟩ := List.findIdx?_eq_some_iff_getElem.mp hk
    have hlen : ((data.drop start).take k).length = k := by
      rw [List.length_take]
      omega
    have hsplit : data.drop start = (data.drop start).take k ++ c :: (data.drop start).drop (k + 1) := by
      conv_lhs => rw [← List.take_append_drop k (data.drop start), List.drop_eq_getElem_cons hlt]
      rw [beq_iff_eq.mp hc]
    refine ⟨hle, _, _, hsplit, ?_, ?_⟩
    · intro hmem
      obtain ⟨j, hj, hget⟩ := List.mem_iff_getElem.mp hmem
      rw [List.getElem_take] at hget
      exact hnot j (by omega) (by rw [hget]; exact beq_self_eq_true c)
    · have := hsat _ _ hsplit hle
      rw [hlen] at this ⊢
      exact this
  · rintro ⟨hle, l, rest, hl, hc, rfl⟩
    rw [if_pos hle, hl, List.findIdx?_append]
    have hnone : l.findIdx? (fun b => b == c) = none := by
      rw [List.findIdx?_eq_none_iff]
      intro x hx
      rw [beq_eq_false_iff_ne]
      rintro rfl
      exact hc hx
    rw [hnone, List.findIdx?_cons, if_pos (beq_self_eq_true c)]
    show some (satAdd u64Max start (0 + l.length)) = _
    rw [Nat.zero_add, hsat l rest hl hle]

section Decode

variable (data : List UInt8)

/-- The value read, and the cursor after it. -/
abbrev Decoded := Except DecodeError (BencodeValue × ℕ)

def decodeInt (pos : ℕ) : Decoded := do
  let first ← okOr (checkedAdd u64Max pos 1) (.unexpectedEof pos)
  let stop ← okOr (findByte data first (byte 'e')) (.unexpectedEof first)
  let digits ← okOr (slice data first stop) (.unexpectedEof first)
  refuse digits.isEmpty (.malformedInt pos "empty integer")
  refuse (maxIntDigits < digits.length) (.malformedInt pos "integer too long")
  refuse (1 < digits.length && digits.head? == some (byte '0')) (.malformedInt pos "leading zero")
  refuse (digits == [byte '-', byte '0']) (.malformedInt pos "negative zero")
  refuse (digits == [byte '-']) (.malformedInt pos "bare minus sign")
  refuse (2 < digits.length && digits.head? == some (byte '-') && digits[1]? == some (byte '0'))
    (.malformedInt pos "leading zero after minus")
  refuse (!validUtf8 digits) (.malformedInt pos "non-ASCII digits")
  let n ← okOr (parseI64 digits) (.malformedInt pos "integer parse failed")
  let next ← okOr (checkedAdd u64Max stop 1) (.unexpectedEof stop)
  return (.int n, next)

def decodeBytes (pos : ℕ) : Decoded := do
  let colon ← okOr (findByte data pos (byte ':')) (.invalidStringLength pos)
  let lenDigits ← okOr (slice data pos colon) (.invalidStringLength pos)
  refuse (!validUtf8 lenDigits) (.invalidStringLength pos)
  let len ← okOr (parseNat u64Max lenDigits) (.invalidStringLength pos)
  let dataStart ← okOr (checkedAdd u64Max colon 1) (.unexpectedEof colon)
  let dataEnd ← okOr (checkedAdd u64Max dataStart len) (.unexpectedEof dataStart)
  let bytes ← okOr (slice data dataStart dataEnd) (.unexpectedEof dataStart)
  return (.bytes bytes, dataEnd)

/-- The loop of `decode_list`, over a decoder of items. -/
def decodeItems (item : ℕ → Decoded) : ℕ → ℕ → List BencodeValue → Decoded
  | 0, pos, _ => .error (.unexpectedEof pos)
  | rounds + 1, pos, items => do
    let next ← okOr data[pos]? (.unexpectedEof pos)
    if next = byte 'e' then
      let stop ← okOr (checkedAdd u64Max pos 1) (.unexpectedEof pos)
      return (.list items, stop)
    else
      let (value, pos') ← item pos
      decodeItems item rounds pos' (items ++ [value])

def decodeList (item : ℕ → Decoded) (pos : ℕ) : Decoded := do
  let first ← okOr (checkedAdd u64Max pos 1) (.unexpectedEof pos)
  decodeItems data item (data.length + 1) first []

/-- A key must be a byte string, greater than the key before it. -/
def decodeKey (item : ℕ → Decoded) (entries : List (List UInt8 × BencodeValue)) (pos : ℕ) :
    Except DecodeError (List UInt8 × ℕ) := do
  match ← item pos with
  | (.bytes key, pos') =>
    refuse (entries.getLast?.any fun last => keyLe key last.1) (.unsortedKey pos)
    return (key, pos')
  | _ => .error (.invalidToken (data[pos]?.getD 0) pos)

/-- The loop of `decode_dict`. -/
def decodeEntries (item : ℕ → Decoded) : ℕ → ℕ → List (List UInt8 × BencodeValue) → Decoded
  | 0, pos, _ => .error (.unexpectedEof pos)
  | rounds + 1, pos, entries => do
    let next ← okOr data[pos]? (.unexpectedEof pos)
    if next = byte 'e' then
      let stop ← okOr (checkedAdd u64Max pos 1) (.unexpectedEof pos)
      return (.dict entries, stop)
    else
      let (key, pos') ← decodeKey data item entries pos
      let (value, pos'') ← item pos'
      decodeEntries item rounds pos'' (entries ++ [(key, value)])

def decodeDict (item : ℕ → Decoded) (pos : ℕ) : Decoded := do
  let first ← okOr (checkedAdd u64Max pos 1) (.unexpectedEof pos)
  decodeEntries data item (data.length + 1) first []

/-- `decode_value` with `levels` levels left: `depth` is `MAX_DECODE_DEPTH + 1 - levels`. -/
def decodeValue : ℕ → ℕ → Decoded
  | 0, pos => .error (.tooDeep maxDecodeDepth pos)
  | levels + 1, pos => do
    let first ← okOr data[pos]? (.unexpectedEof pos)
    if first = byte 'i' then decodeInt data pos
    else if first = byte 'l' then decodeList data (decodeValue levels) pos
    else if first = byte 'd' then decodeDict data (decodeValue levels) pos
    else if isDigit first then decodeBytes data pos
    else .error (.invalidToken first pos)

def decode : Except DecodeError BencodeValue := do
  let (value, pos) ← decodeValue data (maxDecodeDepth + 1) 0
  refuse (pos < data.length) (.trailingData pos (data.length - pos))
  return value

end Decode

example : decode (List.map byte ['d', '1', ':', 'z', 'i', '2', 'e', '1', ':', 'a', 'i', '1', 'e', 'e'])
    = .error (.unsortedKey 7) := rfl

end CncContent.Bencode.Codec
