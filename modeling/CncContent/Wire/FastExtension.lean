import CncContent.Wire.Framing

/-! # Fast extension messages

The model of `FastMessage` with `encode` and `decode`. A message is its ID and a payload of the size
that its ID fixes (`payloadSize`). The decoder is given the ID and the payload of a frame; it reads as
many bytes as it needs and leaves what stands behind them, as the decoder of the other messages does.
So it accepts the payloads that are long enough, and the frame is the one of the message if the payload
is no longer (`decode_iff_frame`). -/

namespace CncContent.Wire.FastExtension

open CncContent.Lib.Bounded CncContent.Lib.Bytes CncContent.Lib.Checks
open CncContent.Wire.Message (beBytes32 readU32 decodeIndexBeginLength)
open CncContent.Wire.Framing (length_beBytes32 beBytes32_ofBe readU32_eq_ok_iff
  decodeIndexBeginLength_eq_ok_iff)

def msgSuggestPiece : UInt8 := 0x0D
def msgHaveAll : UInt8 := 0x0E
def msgHaveNone : UInt8 := 0x0F
def msgRejectRequest : UInt8 := 0x10
def msgAllowedFast : UInt8 := 0x11

inductive FastMessage
  | suggestPiece (pieceIndex : UInt32)
  | haveAll
  | haveNone
  | rejectRequest (index begin length : UInt32)
  | allowedFast (pieceIndex : UInt32)
deriving DecidableEq, Repr

inductive FastDecodeError
  | payloadTooShort (msgId : UInt8) (needed actual : ℕ)
  | notFastMessage (msgId : UInt8)
deriving DecidableEq, Repr

def FastMessage.messageId : FastMessage → UInt8
  | .suggestPiece _ => msgSuggestPiece
  | .haveAll => msgHaveAll
  | .haveNone => msgHaveNone
  | .rejectRequest _ _ _ => msgRejectRequest
  | .allowedFast _ => msgAllowedFast

def FastMessage.encode (m : FastMessage) : List UInt8 :=
  match m with
  | .suggestPiece pieceIndex | .allowedFast pieceIndex =>
    toBe 4 5 ++ m.messageId :: beBytes32 pieceIndex
  | .haveAll | .haveNone => toBe 4 1 ++ [m.messageId]
  | .rejectRequest index begin length =>
    toBe 4 13 ++ m.messageId :: (beBytes32 index ++ (beBytes32 begin ++ beBytes32 length))

/-- `read_u32_at`, which knows no message ID. -/
def readU32At (data : List UInt8) (offset : ℕ) : Except FastDecodeError UInt32 := do
  let bytes ← okOr (slice data offset (satAdd u64Max offset 4))
    (.payloadTooShort 0 (asU32 (satAdd u64Max offset 4)) (asU32 data.length))
  return UInt32.ofNat (ofBe bytes)

def readPieceIndex (payload : List UInt8) (msgId : UInt8) : Except FastDecodeError UInt32 := do
  refuse (payload.length < 4) (.payloadTooShort msgId 4 (asU32 payload.length))
  readU32At payload 0

/-- The branch of `MSG_REJECT_REQUEST`. -/
def readRequest (payload : List UInt8) (msgId : UInt8) :
    Except FastDecodeError (UInt32 × UInt32 × UInt32) := do
  refuse (payload.length < 12) (.payloadTooShort msgId 12 (asU32 payload.length))
  let index ← readU32At payload 0
  let begin ← readU32At payload 4
  let length ← readU32At payload 8
  return (index, begin, length)

def decode (msgId : UInt8) (payload : List UInt8) : Except FastDecodeError FastMessage :=
  if msgId = msgSuggestPiece then (readPieceIndex payload msgId).map .suggestPiece
  else if msgId = msgHaveAll then .ok .haveAll
  else if msgId = msgHaveNone then .ok .haveNone
  else if msgId = msgRejectRequest then
    (readRequest payload msgId).map fun t => .rejectRequest t.1 t.2.1 t.2.2
  else if msgId = msgAllowedFast then (readPieceIndex payload msgId).map .allowedFast
  else .error (.notFastMessage msgId)

/-! ### Payloads -/

/-- What follows the ID of a message. -/
def payload : FastMessage → List UInt8
  | .suggestPiece pieceIndex | .allowedFast pieceIndex => beBytes32 pieceIndex
  | .haveAll | .haveNone => []
  | .rejectRequest index begin length => beBytes32 index ++ (beBytes32 begin ++ beBytes32 length)

/-- The size of the payloads with the ID. -/
def payloadSize (id : UInt8) : Option ℕ :=
  if id = msgSuggestPiece ∨ id = msgAllowedFast then some 4
  else if id = msgHaveAll ∨ id = msgHaveNone then some 0
  else if id = msgRejectRequest then some 12
  else none

/-- The frame of an ID and a payload. -/
def frame (id : UInt8) (bytes : List UInt8) : List UInt8 :=
  toBe 4 (1 + bytes.length) ++ id :: bytes

theorem encode_eq (m : FastMessage) : m.encode = frame m.messageId (payload m) := by
  cases m <;> rfl

theorem payloadSize_messageId (m : FastMessage) :
    payloadSize m.messageId = some (payload m).length := by
  cases m <;> rfl

theorem frame_inj {id id' : UInt8} {bytes bytes' : List UInt8} :
    frame id bytes = frame id' bytes' ↔ id = id' ∧ bytes = bytes' := by
  constructor
  · intro h
    have hlen : (toBe 4 (1 + bytes.length)).length = (toBe 4 (1 + bytes'.length)).length := by
      rw [length_toBe, length_toBe]
    exact List.cons.inj (List.append_inj h hlen).2
  · rintro ⟨rfl, rfl⟩
    rfl

/-! ### Reading -/

theorem readU32At_eq_ok_iff {data : List UInt8} {offset : ℕ} {n : UInt32} :
    readU32At data offset = .ok n ↔ readU32 data offset = .ok n := by
  unfold readU32At readU32
  simp only [bind_eq_ok, okOr_eq_ok, pure_eq_ok]

/-- What a reader of numbers reads stands in front. -/
theorem readPieceIndex_eq_ok_iff {bytes : List UInt8} {id : UInt8} {n : UInt32} :
    readPieceIndex bytes id = .ok n ↔ beBytes32 n <+: bytes := by
  unfold readPieceIndex
  rw [bind_eq_ok]
  simp only [readU32At_eq_ok_iff, readU32_eq_ok_iff (Nat.zero_le 8), List.drop_zero]
  constructor
  · rintro ⟨-, -, rest, hrest⟩
    exact ⟨rest, hrest.symm⟩
  · rintro ⟨rest, rfl⟩
    refine ⟨(), refuse_eq_ok.mpr (decide_eq_false ?_), rest, rfl⟩
    rw [List.length_append, length_beBytes32]
    omega

theorem readRequest_eq_ok_iff {bytes : List UInt8} {id : UInt8} {t : UInt32 × UInt32 × UInt32} :
    readRequest bytes id = .ok t ↔
      beBytes32 t.1 ++ (beBytes32 t.2.1 ++ beBytes32 t.2.2) <+: bytes := by
  have hsame : readRequest bytes id = .ok t ↔ decodeIndexBeginLength id bytes = .ok t := by
    unfold readRequest decodeIndexBeginLength
    simp only [bind_eq_ok, readU32At_eq_ok_iff, pure_eq_ok, refuse_eq_ok]
  rw [hsame, decodeIndexBeginLength_eq_ok_iff]
  exact ⟨fun ⟨rest, h⟩ => ⟨rest, h.symm⟩, fun ⟨rest, h⟩ => ⟨rest, h.symm⟩⟩

/-- A number stands in front of every string that is long enough. -/
theorem exists_beBytes32_prefix (bytes : List UInt8) (h : 4 ≤ bytes.length) :
    ∃ n rest, bytes = beBytes32 n ++ rest :=
  ⟨UInt32.ofNat (ofBe (bytes.take 4)), bytes.drop 4, by
    rw [beBytes32_ofBe (by rw [List.length_take]; omega), List.take_append_drop]⟩

theorem readPieceIndex_eq_error_iff {bytes : List UInt8} {id : UInt8} {e : FastDecodeError} :
    readPieceIndex bytes id = .error e ↔
      bytes.length < 4 ∧ e = .payloadTooShort id 4 (asU32 bytes.length) := by
  rw [← @decide_eq_true_iff (bytes.length < 4)]
  refine refuse_bind_eq_error fun hlong => ?_
  obtain ⟨n, rest, hbytes⟩ :=
    exists_beBytes32_prefix bytes (Nat.le_of_not_lt (of_decide_eq_false hlong))
  exact ⟨n, readPieceIndex_eq_ok_iff.mpr ⟨rest, hbytes.symm⟩⟩

theorem readRequest_eq_error_iff {bytes : List UInt8} {id : UInt8} {e : FastDecodeError} :
    readRequest bytes id = .error e ↔
      bytes.length < 12 ∧ e = .payloadTooShort id 12 (asU32 bytes.length) := by
  rw [← @decide_eq_true_iff (bytes.length < 12)]
  refine refuse_bind_eq_error fun hlong => ?_
  have hlen : 12 ≤ bytes.length := Nat.le_of_not_lt (of_decide_eq_false hlong)
  obtain ⟨index, rest, hindex⟩ := exists_beBytes32_prefix bytes (by omega)
  rw [hindex, List.length_append, length_beBytes32] at hlen
  obtain ⟨begin, rest, rfl⟩ := exists_beBytes32_prefix rest (by omega)
  rw [List.length_append, length_beBytes32] at hlen
  obtain ⟨length, rest, rfl⟩ := exists_beBytes32_prefix rest (by omega)
  exact ⟨(index, begin, length), readRequest_eq_ok_iff.mpr ⟨rest, by simp [hindex]⟩⟩

/-! ### Decoding -/

/-- **The decoder accepts** what starts with the payload of the message. -/
theorem decode_eq_ok_iff {id : UInt8} {bytes : List UInt8} {m : FastMessage} :
    decode id bytes = .ok m ↔ m.messageId = id ∧ payload m <+: bytes := by
  constructor
  · intro h
    unfold decode at h
    split_ifs at h with h1 h2 h3 h4 h5
    · obtain ⟨n, hn, rfl⟩ := map_eq_ok.mp h
      exact ⟨h1.symm, readPieceIndex_eq_ok_iff.mp hn⟩
    · cases h
      exact ⟨h2.symm, List.nil_prefix⟩
    · cases h
      exact ⟨h3.symm, List.nil_prefix⟩
    · obtain ⟨t, ht, rfl⟩ := map_eq_ok.mp h
      exact ⟨h4.symm, readRequest_eq_ok_iff.mp ht⟩
    · obtain ⟨n, hn, rfl⟩ := map_eq_ok.mp h
      exact ⟨h5.symm, readPieceIndex_eq_ok_iff.mp hn⟩
  · rintro ⟨rfl, hprefix⟩
    cases m with
    | suggestPiece n => exact map_eq_ok.mpr ⟨n, readPieceIndex_eq_ok_iff.mpr hprefix, rfl⟩
    | haveAll => rfl
    | haveNone => rfl
    | rejectRequest index begin length =>
      exact map_eq_ok.mpr ⟨(index, begin, length), readRequest_eq_ok_iff.mpr hprefix, rfl⟩
    | allowedFast n => exact map_eq_ok.mpr ⟨n, readPieceIndex_eq_ok_iff.mpr hprefix, rfl⟩

/-- What the decoder refuses: an ID of another message, or a payload that is too short. -/
def Refused (id : UInt8) (bytes : List UInt8) (e : FastDecodeError) : Prop :=
  (payloadSize id = none ∧ e = .notFastMessage id) ∨
    ∃ n, payloadSize id = some n ∧ bytes.length < n ∧
      e = .payloadTooShort id n (asU32 bytes.length)

theorem refused_iff_of_size {id : UInt8} {bytes : List UInt8} {e : FastDecodeError} {n : ℕ}
    (h : payloadSize id = some n) : Refused id bytes e ↔
      bytes.length < n ∧ e = .payloadTooShort id n (asU32 bytes.length) := by
  unfold Refused
  rw [h]
  constructor
  · rintro (⟨hnone, -⟩ | ⟨n', hn', hrest⟩)
    · cases hnone
    · cases hn'
      exact hrest
  · exact fun hrest => Or.inr ⟨n, rfl, hrest⟩

theorem decode_eq_error_iff {id : UInt8} {bytes : List UInt8} {e : FastDecodeError} :
    decode id bytes = .error e ↔ Refused id bytes e := by
  unfold decode
  split_ifs with h1 h2 h3 h4 h5
  · subst h1
    rw [map_eq_error, readPieceIndex_eq_error_iff, refused_iff_of_size rfl]
  · subst h2
    rw [refused_iff_of_size rfl]
    exact ⟨nofun, fun h => absurd h.1 (Nat.not_lt_zero _)⟩
  · subst h3
    rw [refused_iff_of_size rfl]
    exact ⟨nofun, fun h => absurd h.1 (Nat.not_lt_zero _)⟩
  · subst h4
    rw [map_eq_error, readRequest_eq_error_iff, refused_iff_of_size rfl]
  · subst h5
    rw [map_eq_error, readPieceIndex_eq_error_iff, refused_iff_of_size rfl]
  · have hnone : payloadSize id = none := by
      rw [payloadSize, if_neg (not_or.mpr ⟨h1, h5⟩), if_neg (not_or.mpr ⟨h2, h3⟩), if_neg h4]
    unfold Refused
    rw [hnone]
    constructor
    · intro h
      cases h
      exact Or.inl ⟨rfl, rfl⟩
    · rintro (⟨-, rfl⟩ | ⟨n, hn, -⟩)
      · rfl
      · cases hn

/-- The message of a frame, for a payload that is long enough. -/
theorem encode_of_decode {id : UInt8} {bytes : List UInt8} {m : FastMessage}
    (h : decode id bytes = .ok m) : ∃ n, payloadSize id = some n ∧ n ≤ bytes.length ∧
      m.encode = frame id (bytes.take n) := by
  obtain ⟨rfl, hprefix⟩ := decode_eq_ok_iff.mp h
  refine ⟨(payload m).length, payloadSize_messageId m, hprefix.length_le, ?_⟩
  rw [encode_eq, List.prefix_iff_eq_take.mp hprefix, List.length_take,
    Nat.min_eq_left hprefix.length_le]

/-- **Messages and frames.** A message is decoded from its frame. A payload that is too short is
refused; of any other one as many bytes are read as its ID fixes, and the frame is the one of the
message exactly if there are no more. -/
theorem decode_iff_frame :
    (∀ m : FastMessage, ∃ id bytes, m.encode = frame id bytes ∧ decode id bytes = .ok m) ∧
    ∀ (id : UInt8) (bytes : List UInt8),
      (∀ e, decode id bytes = .error e ↔ Refused id bytes e) ∧
      (∀ m, decode id bytes = .ok m ↔ ∃ n, payloadSize id = some n ∧ n ≤ bytes.length ∧
        m.encode = frame id (bytes.take n)) ∧
      ∀ m : FastMessage, m.encode = frame id bytes ↔
        decode id bytes = .ok m ∧ payloadSize id = some bytes.length := by
  refine ⟨fun m => ⟨m.messageId, payload m, encode_eq m, ?_⟩, fun id bytes => ⟨fun e => ?_, ?_, ?_⟩⟩
  · exact decode_eq_ok_iff.mpr ⟨rfl, List.prefix_rfl⟩
  · exact decode_eq_error_iff
  · refine fun m => ⟨encode_of_decode, ?_⟩
    rintro ⟨n, -, -, henc⟩
    rw [encode_eq, frame_inj] at henc
    exact decode_eq_ok_iff.mpr ⟨henc.1, henc.2 ▸ List.take_prefix n bytes⟩
  · intro m
    constructor
    · intro henc
      rw [encode_eq, frame_inj] at henc
      obtain ⟨rfl, rfl⟩ := henc
      exact ⟨decode_eq_ok_iff.mpr ⟨rfl, List.prefix_rfl⟩, payloadSize_messageId m⟩
    · rintro ⟨hdec, hsize⟩
      obtain ⟨n, hn, -, henc⟩ := encode_of_decode hdec
      rw [hsize] at hn
      cases hn
      rw [henc, List.take_length]

/-- A frame of one byte too many. -/
theorem haveAll_with_payload : decode msgHaveAll [7] = .ok .haveAll ∧
    FastMessage.haveAll.encode ≠ frame msgHaveAll [7] := by decide

end CncContent.Wire.FastExtension
