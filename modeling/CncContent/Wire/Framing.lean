import CncContent.Wire.Message

/-! # Framing of peer wire messages

A message is its ID and its payload (`PeerMessage.payload`); the encoder puts their length in front
(`encodeMessage_eq`), and the payload readers accept exactly the payloads, those of fixed size also
with more bytes behind them (`decodePayload_eq_ok_iff`). Hence a message is decoded from its encoding
whatever follows, and never from less (`decodeMessage_encodeMessage`), and what is decoded is spelled
by the frame up to the bytes that were not read (`encode_of_decode`). -/

namespace CncContent.Wire.Framing

open CncContent.Lib.Bounded CncContent.Lib.Bytes CncContent.Lib.Checks CncContent.Wire.Message

/-! ### Numbers -/

theorem length_beBytes32 (n : UInt32) : (beBytes32 n).length = 4 := length_toBe 4 _

theorem ofBe_beBytes32 (n : UInt32) : UInt32.ofNat (ofBe (beBytes32 n)) = n := by
  unfold beBytes32
  rw [ofBe_toBe n.toNat_lt, UInt32.ofNat_toNat]

theorem beBytes32_ofBe {l : List UInt8} (h : l.length = 4) :
    beBytes32 (UInt32.ofNat (ofBe l)) = l := by
  have hlt := ofBe_lt l
  rw [h] at hlt
  unfold beBytes32
  rw [UInt32.toNat_ofNat_of_lt' hlt, ← h, toBe_ofBe]

theorem ofBe_beBytes16 (n : UInt16) : UInt16.ofNat (ofBe (beBytes16 n)) = n := by
  unfold beBytes16
  rw [ofBe_toBe n.toNat_lt, UInt16.ofNat_toNat]

theorem beBytes16_ofBe {l : List UInt8} (h : l.length = 2) :
    beBytes16 (UInt16.ofNat (ofBe l)) = l := by
  have hlt := ofBe_lt l
  rw [h] at hlt
  unfold beBytes16
  rw [UInt16.toNat_ofNat_of_lt' hlt, ← h, toBe_ofBe]

/-- What `read_u32` reads stands at the offset. -/
theorem readU32_eq_ok_iff {data : List UInt8} {offset : ℕ} {n : UInt32} (h : offset ≤ 8) :
    readU32 data offset = .ok n ↔ ∃ rest, data.drop offset = beBytes32 n ++ rest := by
  have hsat : satAdd u64Max offset 4 = offset + 4 :=
    satAdd_of_le (le_trans (Nat.add_le_add_right h 4) (by decide))
  unfold readU32
  rw [bind_eq_ok, hsat]
  constructor
  · rintro ⟨bytes, hbytes, hn⟩
    rw [okOr_eq_ok, slice_eq_some_iff] at hbytes
    obtain ⟨-, hlen, rest, hrest⟩ := hbytes
    cases hn
    exact ⟨rest, by rw [hrest, beBytes32_ofBe (by omega)]⟩
  · rintro ⟨rest, hrest⟩
    have hlen := congrArg List.length hrest
    rw [List.length_drop, List.length_append, length_beBytes32] at hlen
    refine ⟨beBytes32 n, okOr_eq_ok.mpr (slice_eq_some_iff.mpr ⟨by omega, ?_, rest, hrest⟩), ?_⟩
    · rw [length_beBytes32]
    · exact congrArg Except.ok (ofBe_beBytes32 n)

/-! ### Payload readers -/

theorem drop_beBytes32 (n : UInt32) (k : ℕ) (rest : List UInt8) :
    (beBytes32 n ++ rest).drop (4 + k) = rest.drop k := by
  rw [← List.drop_drop, List.drop_left' (length_beBytes32 n)]

theorem decodeIndexBeginLength_eq_ok_iff {id : UInt8} {payload : List UInt8}
    {index begin length : UInt32} :
    decodeIndexBeginLength id payload = .ok (index, begin, length) ↔
      ∃ rest, payload = (beBytes32 index ++ (beBytes32 begin ++ beBytes32 length)) ++ rest := by
  unfold decodeIndexBeginLength
  simp only [bind_eq_ok]
  constructor
  · rintro ⟨-, -, i, hi, b, hb, l, hl, hpure⟩
    cases hpure
    obtain ⟨r1, h1⟩ := (readU32_eq_ok_iff (by decide)).mp hi
    obtain ⟨r2, h2⟩ := (readU32_eq_ok_iff (by decide)).mp hb
    obtain ⟨r3, h3⟩ := (readU32_eq_ok_iff (by decide)).mp hl
    rw [List.drop_zero] at h1
    rw [h1, drop_beBytes32 index 0, List.drop_zero] at h2
    rw [h1, drop_beBytes32 index 4, h2, drop_beBytes32 begin 0, List.drop_zero] at h3
    exact ⟨r3, by rw [h1, h2, h3]; simp⟩
  · rintro ⟨rest, rfl⟩
    refine ⟨(), refuse_eq_ok.mpr (decide_eq_false ?_), index, ?_, begin, ?_, length, ?_, rfl⟩
    · rw [List.length_append, List.length_append, List.length_append, length_beBytes32,
        length_beBytes32, length_beBytes32]
      omega
    · exact (readU32_eq_ok_iff (by decide)).mpr
        ⟨beBytes32 begin ++ beBytes32 length ++ rest, by simp⟩
    · refine (readU32_eq_ok_iff (by decide)).mpr ⟨beBytes32 length ++ rest, ?_⟩
      rw [List.append_assoc, drop_beBytes32 index 0]
      simp
    · refine (readU32_eq_ok_iff (by decide)).mpr ⟨rest, ?_⟩
      rw [List.append_assoc, drop_beBytes32 index 4, List.append_assoc, drop_beBytes32 begin 0]
      simp

theorem decodeHave_eq_ok_iff {id : UInt8} {payload : List UInt8} {m : PeerMessage} :
    decodeHave id payload = .ok m ↔ ∃ n rest, payload = beBytes32 n ++ rest ∧ m = .have n := by
  unfold decodeHave
  rw [bind_eq_ok]
  constructor
  · rintro ⟨bytes, hbytes, hm⟩
    rw [okOr_eq_ok, slice_eq_some_iff] at hbytes
    obtain ⟨-, hlen, rest, hrest⟩ := hbytes
    cases hm
    exact ⟨_, rest, by rw [beBytes32_ofBe (by omega)]; exact hrest, rfl⟩
  · rintro ⟨n, rest, rfl, rfl⟩
    refine ⟨beBytes32 n, okOr_eq_ok.mpr (slice_eq_some_iff.mpr ⟨?_, ?_, rest, rfl⟩), ?_⟩
    · exact Nat.zero_le _
    · rw [length_beBytes32]
    · rw [ofBe_beBytes32]
      rfl

theorem decodePiece_eq_ok_iff {id : UInt8} {payload : List UInt8} {m : PeerMessage} :
    decodePiece id payload = .ok m ↔ ∃ index begin block,
      payload = beBytes32 index ++ (beBytes32 begin ++ block) ∧ m = .piece index begin block := by
  unfold decodePiece
  simp only [bind_eq_ok]
  constructor
  · rintro ⟨-, -, index, hi, begin, hb, hm⟩
    cases hm
    obtain ⟨r1, h1⟩ := (readU32_eq_ok_iff (by decide)).mp hi
    obtain ⟨r2, h2⟩ := (readU32_eq_ok_iff (by decide)).mp hb
    rw [List.drop_zero] at h1
    rw [h1, drop_beBytes32 index 0, List.drop_zero] at h2
    refine ⟨index, begin, r2, by rw [h1, h2], ?_⟩
    rw [h1, drop_beBytes32 index 4, h2, drop_beBytes32 begin 0, List.drop_zero]
  · rintro ⟨index, begin, block, rfl, rfl⟩
    refine ⟨(), refuse_eq_ok.mpr (decide_eq_false ?_), index, ?_, begin, ?_, ?_⟩
    · rw [List.length_append, List.length_append, length_beBytes32, length_beBytes32]
      omega
    · exact (readU32_eq_ok_iff (by decide)).mpr ⟨beBytes32 begin ++ block, rfl⟩
    · exact (readU32_eq_ok_iff (by decide)).mpr ⟨block, drop_beBytes32 index 0 _⟩
    · rw [drop_beBytes32 index 4, drop_beBytes32 begin 0, List.drop_zero]
      rfl

theorem decodePort_eq_ok_iff {id : UInt8} {payload : List UInt8} {m : PeerMessage} :
    decodePort id payload = .ok m ↔ ∃ n rest, payload = beBytes16 n ++ rest ∧ m = .port n := by
  unfold decodePort
  rw [bind_eq_ok]
  constructor
  · rintro ⟨⟨⟩, hlen, hm⟩
    have hlen : 2 ≤ payload.length :=
      Nat.not_lt.mp (of_decide_eq_false (refuse_eq_ok.mp hlen))
    cases hm
    refine ⟨_, payload.drop 2, ?_, rfl⟩
    rw [beBytes16_ofBe (by rw [List.length_take]; omega), List.take_append_drop]
  · rintro ⟨n, rest, rfl, rfl⟩
    have hlen : (beBytes16 n).length = 2 := length_toBe 2 _
    refine ⟨(), refuse_eq_ok.mpr (decide_eq_false ?_), ?_⟩
    · rw [List.length_append, hlen]
      omega
    · rw [List.take_left' hlen, ofBe_beBytes16]
      rfl

theorem decodeExtended_eq_ok_iff {id : UInt8} {payload : List UInt8} {m : PeerMessage} :
    decodeExtended id payload = .ok m ↔
      ∃ extId rest, payload = extId :: rest ∧ m = .extended extId rest := by
  unfold decodeExtended
  rw [bind_eq_ok]
  constructor
  · rintro ⟨extId, hhead, hm⟩
    obtain ⟨rest, rfl⟩ := List.head?_eq_some_iff.mp (okOr_eq_ok.mp hhead)
    cases hm
    exact ⟨extId, rest, rfl, rfl⟩
  · rintro ⟨extId, rest, rfl, rfl⟩
    exact ⟨extId, rfl, rfl⟩

/-! ### Payloads -/

/-- What follows the ID of a message. -/
def payload : PeerMessage → List UInt8
  | .have pieceIndex => beBytes32 pieceIndex
  | .bitfield data => data
  | .request index begin length | .cancel index begin length =>
    beBytes32 index ++ (beBytes32 begin ++ beBytes32 length)
  | .piece index begin block => beBytes32 index ++ (beBytes32 begin ++ block)
  | .port port => beBytes16 port
  | .extended extId payload => extId :: payload
  | _ => []

/-- What follows the length prefix of a message. -/
def body (m : PeerMessage) : List UInt8 :=
  match m.messageId with
  | none => []
  | some id => id :: payload m

/-- The length of the messages with the ID, if they all have one length. -/
def fixedLength (id : UInt8) : Option ℕ :=
  if id = msgBitfield ∨ id = msgPiece ∨ id = msgExtended then none
  else if id = msgHave then some 5
  else if id = msgRequest ∨ id = msgCancel then some 13
  else if id = msgPort then some 3
  else some 1

theorem length_body_of_fixed {m : PeerMessage} {id : UInt8} {n : ℕ} (hid : m.messageId = some id)
    (hn : fixedLength id = some n) : (body m).length = n := by
  cases m <;> cases hid <;> cases hn <;> rfl

/-- The bytes are the payload of the message, and more bytes only if its size is fixed. -/
def Spells (id : UInt8) (bytes : List UInt8) (m : PeerMessage) : Prop :=
  m.messageId = some id ∧ ∃ rest, bytes = payload m ++ rest ∧ (fixedLength id = none → rest = [])

/-- What the payload readers accept spells the message. -/
theorem spells_of_decodePayload {id : UInt8} {bytes : List UInt8} {m : PeerMessage}
    (h : decodePayload id bytes = .ok m) : Spells id bytes m := by
  unfold decodePayload at h
  by_cases h0 : id = msgChoke
  · rw [if_pos h0] at h
    cases h
    exact ⟨congrArg some h0.symm, bytes, rfl, by subst h0; nofun⟩
  rw [if_neg h0] at h
  by_cases h1 : id = msgUnchoke
  · rw [if_pos h1] at h
    cases h
    exact ⟨congrArg some h1.symm, bytes, rfl, by subst h1; nofun⟩
  rw [if_neg h1] at h
  by_cases h2 : id = msgInterested
  · rw [if_pos h2] at h
    cases h
    exact ⟨congrArg some h2.symm, bytes, rfl, by subst h2; nofun⟩
  rw [if_neg h2] at h
  by_cases h3 : id = msgNotInterested
  · rw [if_pos h3] at h
    cases h
    exact ⟨congrArg some h3.symm, bytes, rfl, by subst h3; nofun⟩
  rw [if_neg h3] at h
  by_cases h4 : id = msgHave
  · rw [if_pos h4] at h
    obtain ⟨n, rest, hbytes, rfl⟩ := decodeHave_eq_ok_iff.mp h
    exact ⟨congrArg some h4.symm, rest, hbytes, by subst h4; nofun⟩
  rw [if_neg h4] at h
  by_cases h5 : id = msgBitfield
  · rw [if_pos h5] at h
    cases h
    exact ⟨congrArg some h5.symm, [], (List.append_nil _).symm, fun _ => rfl⟩
  rw [if_neg h5] at h
  by_cases h6 : id = msgRequest
  · rw [if_pos h6] at h
    obtain ⟨⟨index, begin, length⟩, hdec, rfl⟩ := map_eq_ok.mp h
    obtain ⟨rest, hbytes⟩ := decodeIndexBeginLength_eq_ok_iff.mp hdec
    exact ⟨congrArg some h6.symm, rest, hbytes, by subst h6; nofun⟩
  rw [if_neg h6] at h
  by_cases h7 : id = msgPiece
  · rw [if_pos h7] at h
    obtain ⟨index, begin, block, hbytes, rfl⟩ := decodePiece_eq_ok_iff.mp h
    exact ⟨congrArg some h7.symm, [], hbytes.trans (List.append_nil _).symm, fun _ => rfl⟩
  rw [if_neg h7] at h
  by_cases h8 : id = msgCancel
  · rw [if_pos h8] at h
    obtain ⟨⟨index, begin, length⟩, hdec, rfl⟩ := map_eq_ok.mp h
    obtain ⟨rest, hbytes⟩ := decodeIndexBeginLength_eq_ok_iff.mp hdec
    exact ⟨congrArg some h8.symm, rest, hbytes, by subst h8; nofun⟩
  rw [if_neg h8] at h
  by_cases h9 : id = msgPort
  · rw [if_pos h9] at h
    obtain ⟨n, rest, hbytes, rfl⟩ := decodePort_eq_ok_iff.mp h
    exact ⟨congrArg some h9.symm, rest, hbytes, by subst h9; nofun⟩
  rw [if_neg h9] at h
  by_cases h20 : id = msgExtended
  · rw [if_pos h20] at h
    obtain ⟨extId, rest, hbytes, rfl⟩ := decodeExtended_eq_ok_iff.mp h
    exact ⟨congrArg some h20.symm, [], hbytes.trans (List.append_nil _).symm, fun _ => rfl⟩
  rw [if_neg h20] at h
  cases h

theorem decodePayload_request (bytes : List UInt8) : decodePayload msgRequest bytes =
    (decodeIndexBeginLength msgRequest bytes).map fun t => .request t.1 t.2.1 t.2.2 := rfl

theorem decodePayload_cancel (bytes : List UInt8) : decodePayload msgCancel bytes =
    (decodeIndexBeginLength msgCancel bytes).map fun t => .cancel t.1 t.2.1 t.2.2 := rfl

/-- **The payload readers** accept the payload of a message, and what spells nothing else. -/
theorem decodePayload_eq_ok_iff {id : UInt8} {bytes : List UInt8} {m : PeerMessage} :
    decodePayload id bytes = .ok m ↔ Spells id bytes m := by
  refine ⟨spells_of_decodePayload, ?_⟩
  rintro ⟨hid, rest, rfl, hrest⟩
  cases m with
  | keepAlive => cases hid
  | choke => cases hid; rfl
  | unchoke => cases hid; rfl
  | interested => cases hid; rfl
  | notInterested => cases hid; rfl
  | «have» n => cases hid; exact decodeHave_eq_ok_iff.mpr ⟨n, rest, rfl, rfl⟩
  | bitfield data => cases hid; rw [hrest rfl, List.append_nil]; rfl
  | request index begin length =>
    cases hid
    rw [decodePayload_request]
    exact map_eq_ok.mpr ⟨_, decodeIndexBeginLength_eq_ok_iff.mpr ⟨rest, rfl⟩, rfl⟩
  | piece index begin block =>
    cases hid
    rw [hrest rfl, List.append_nil]
    exact decodePiece_eq_ok_iff.mpr ⟨index, begin, block, rfl, rfl⟩
  | cancel index begin length =>
    cases hid
    rw [decodePayload_cancel]
    exact map_eq_ok.mpr ⟨_, decodeIndexBeginLength_eq_ok_iff.mpr ⟨rest, rfl⟩, rfl⟩
  | port n => cases hid; exact decodePort_eq_ok_iff.mpr ⟨n, rest, rfl, rfl⟩
  | extended extId data =>
    cases hid
    rw [hrest rfl, List.append_nil]
    exact decodeExtended_eq_ok_iff.mpr ⟨extId, data, rfl, rfl⟩

/-! ### Frames -/

/-- The length field of a short message is its length. -/
theorem lengthField_eq {fixed len : ℕ} (h : fixed + len ≤ maxMessageLength) :
    lengthField fixed len = toBe 4 (fixed + len) := by
  have hmax : fixed + len ≤ 16777216 := h
  unfold lengthField satAdd asU32 u32Max
  congr 1
  omega

/-- The encoding, if the length field can hold the length of the message. -/
theorem encodeMessage_eq {m : PeerMessage} (h : (body m).length ≤ maxMessageLength) :
    encodeMessage m = toBe 4 (body m).length ++ body m := by
  cases m with
  | bitfield data =>
    have hlen : (body (.bitfield data)).length = 1 + data.length := Nat.add_comm _ _
    rw [hlen] at h ⊢
    rw [← lengthField_eq h]
    rfl
  | piece index begin block =>
    have hlen : (body (.piece index begin block)).length = 9 + block.length := by
      show (beBytes32 index ++ (beBytes32 begin ++ block)).length + 1 = _
      rw [List.length_append, List.length_append, length_beBytes32, length_beBytes32]
      omega
    rw [hlen] at h ⊢
    rw [← lengthField_eq h]
    rfl
  | extended extId data =>
    have hlen : (body (.extended extId data)).length = 2 + data.length := by
      show data.length + 1 + 1 = 2 + data.length
      omega
    rw [hlen] at h ⊢
    rw [← lengthField_eq h]
    rfl
  | _ => rfl

/-- The encoding is never shorter than the message. -/
theorem length_encodeMessage (m : PeerMessage) :
    (encodeMessage m).length = lengthPrefixSize + (body m).length := by
  cases m with
  | bitfield data =>
    show (lengthField 1 data.length ++ msgBitfield :: data).length = 4 + (data.length + 1)
    unfold lengthField
    rw [List.length_append, length_toBe, List.length_cons]
  | piece index begin block =>
    show (lengthField 9 block.length ++ body (.piece index begin block)).length = _
    unfold lengthField
    rw [List.length_append, length_toBe]
    rfl
  | extended extId data =>
    show (lengthField 2 data.length ++ body (.extended extId data)).length = _
    unfold lengthField
    rw [List.length_append, length_toBe]
    rfl
  | _ => rfl

/-- A length prefix that is not there yet. -/
theorem decodeMessage_of_short {data : List UInt8} (h : data.length < lengthPrefixSize) :
    decodeMessage data = .error (.tooShort (asU32 lengthPrefixSize) (asU32 data.length)) := by
  have hslice : slice data 0 lengthPrefixSize = none := if_neg (by omega)
  unfold decodeMessage
  rw [hslice]
  rfl

section Decoding

variable {lenBytes rest : List UInt8} (h4 : lenBytes.length = lengthPrefixSize)

include h4

theorem decodeMessage_append : decodeMessage (lenBytes ++ rest) =
    if ofBe lenBytes = 0 then .ok .keepAlive
    else decodeBody (lenBytes ++ rest) (ofBe lenBytes) := by
  have hslice : slice (lenBytes ++ rest) 0 lengthPrefixSize = some lenBytes :=
    slice_eq_some_iff.mpr ⟨Nat.zero_le _, by rw [h4, Nat.zero_add], rest, rfl⟩
  unfold decodeMessage
  rw [hslice]
  rfl

omit h4 in
theorem satAdd_frame {n : ℕ} (hn : n ≤ maxMessageLength) :
    satAdd u64Max lengthPrefixSize n = lengthPrefixSize + n :=
  satAdd_of_le (le_trans (Nat.add_le_add_left hn _) (by decide))

/-- A frame that is not there yet. -/
theorem decodeBody_of_short {n : ℕ} (hn : n ≤ maxMessageLength) (hshort : rest.length < n) :
    decodeBody (lenBytes ++ rest) n =
      .error (.tooShort (asU32 (lengthPrefixSize + n)) (asU32 (lenBytes ++ rest).length)) := by
  have hlarge : decide (maxMessageLength < n) = false := decide_eq_false (by omega)
  have hlen : decide ((lenBytes ++ rest).length < lengthPrefixSize + n) = true :=
    decide_eq_true (by rw [List.length_append]; omega)
  unfold decodeBody
  dsimp only
  rw [satAdd_frame hn, hlarge, hlen]
  rfl

/-- A frame that is there is read. -/
theorem decodeBody_eq_ok_iff {n : ℕ} {m : PeerMessage} :
    decodeBody (lenBytes ++ rest) n = .ok m ↔ n ≤ maxMessageLength ∧
      ∃ id bytes tail, rest = id :: bytes ++ tail ∧ (id :: bytes).length = n ∧
        Spells id bytes m := by
  unfold decodeBody
  simp only [bind_eq_ok, refuse_eq_ok, decide_eq_false_iff_not, okOr_eq_ok]
  constructor
  · rintro ⟨-, hle, -, -, data, hslice, id, hid, hm⟩
    have hle : n ≤ maxMessageLength := Nat.not_lt.mp hle
    rw [satAdd_frame hle, slice_eq_some_iff] at hslice
    obtain ⟨-, hn, tail, htail⟩ := hslice
    obtain ⟨bytes, rfl⟩ := List.head?_eq_some_iff.mp hid
    rw [List.drop_left' h4] at htail
    exact ⟨hle, id, bytes, tail, htail, by omega, decodePayload_eq_ok_iff.mp hm⟩
  · rintro ⟨hle, id, bytes, tail, rfl, hlen, hspells⟩
    rw [satAdd_frame hle]
    refine ⟨(), Nat.not_lt.mpr hle, (), ?_, id :: bytes, ?_, id, rfl,
      decodePayload_eq_ok_iff.mpr hspells⟩
    · rw [List.length_append, List.length_append]
      omega
    · refine slice_eq_some_iff.mpr ⟨?_, by rw [hlen], tail, List.drop_left' h4⟩
      rw [List.length_append]
      omega

end Decoding

theorem spells_body {m : PeerMessage} {id : UInt8} (hid : m.messageId = some id) :
    Spells id (payload m) m :=
  ⟨hid, [], (List.append_nil _).symm, fun _ => rfl⟩

/-- **Framing**: a message is decoded from its encoding, whatever follows, and never from less. -/
theorem decodeMessage_encodeMessage (m : PeerMessage)
    (hm : (encodeMessage m).length ≤ lengthPrefixSize + maxMessageLength) :
    (∀ t, decodeMessage (encodeMessage m ++ t) = .ok m) ∧
      ∀ p, p <+: encodeMessage m → p ≠ encodeMessage m →
        ∃ needed actual, decodeMessage p = .error (.tooShort needed actual) := by
  have hmax : (body m).length ≤ maxMessageLength := by
    rw [length_encodeMessage] at hm
    omega
  have h4 : (toBe 4 (body m).length).length = lengthPrefixSize := length_toBe 4 _
  have hlen : ofBe (toBe 4 (body m).length) = (body m).length :=
    ofBe_toBe (lt_of_le_of_lt hmax (by decide))
  rw [encodeMessage_eq hmax]
  constructor
  · intro t
    rw [List.append_assoc, decodeMessage_append h4, hlen]
    cases hid : m.messageId with
    | none =>
      cases m <;> cases hid
      rfl
    | some id =>
      have hbody : body m = id :: payload m := by
        unfold body
        rw [hid]
      rw [if_neg (by rw [hbody]; exact Nat.succ_ne_zero _)]
      refine (decodeBody_eq_ok_iff h4).mpr ⟨hmax, id, payload m, t, ?_, ?_, spells_body hid⟩
      · rw [hbody]
      · rw [hbody]
  · rintro p ⟨q, hpq⟩ hne
    have hq : q ≠ [] := by
      rintro rfl
      exact hne ((List.append_nil p).symm.trans hpq)
    have hqlen := List.length_pos_iff.mpr hq
    have htotal := congrArg List.length hpq
    rw [List.length_append, List.length_append, h4] at htotal
    by_cases hp : p.length < lengthPrefixSize
    · exact ⟨_, _, decodeMessage_of_short hp⟩
    · -- the prefix is whole, so that the length of the message is known
      obtain ⟨rest, rfl⟩ : toBe 4 (body m).length <+: p :=
        List.prefix_of_prefix_length_le ⟨_, rfl⟩ ⟨q, hpq⟩ (by omega)
      rw [List.length_append, h4] at htotal
      rw [decodeMessage_append h4, hlen, if_neg (by omega)]
      exact ⟨_, _, decodeBody_of_short h4 hmax (by omega)⟩

theorem decodeMessage_encodeMessage_have :
    decodeMessage (encodeMessage (.have 42) ++ [0, 0]) = .ok (.have 42) :=
  (decodeMessage_encodeMessage (.have 42) (by decide)).1 [0, 0]

/-! ### What is decoded -/

/-- The length prefix of the bytes. -/
def declaredLength (b : List UInt8) : ℕ := ofBe (b.take lengthPrefixSize)

/-- The length of the part of the frame that is read: that of the messages with its ID. -/
def usedLength (b : List UInt8) : ℕ :=
  if declaredLength b = 0 then 0
  else (b[lengthPrefixSize]?.bind fixedLength).getD (declaredLength b)

/-- A frame that is decoded, part by part. -/
theorem decodeMessage_eq_ok {b : List UInt8} {m : PeerMessage} (h : decodeMessage b = .ok m) :
    ∃ lenBytes rest, b = lenBytes ++ rest ∧ lenBytes.length = lengthPrefixSize ∧
      ((ofBe lenBytes = 0 ∧ m = .keepAlive) ∨
        ofBe lenBytes ≠ 0 ∧ decodeBody (lenBytes ++ rest) (ofBe lenBytes) = .ok m) := by
  by_cases hshort : b.length < lengthPrefixSize
  · rw [decodeMessage_of_short hshort] at h
    cases h
  have h4 : (b.take lengthPrefixSize).length = lengthPrefixSize := by
    rw [List.length_take]
    omega
  refine ⟨b.take lengthPrefixSize, b.drop lengthPrefixSize, ?_, h4, ?_⟩
  · exact (List.take_append_drop _ _).symm
  · rw [← List.take_append_drop lengthPrefixSize b, decodeMessage_append h4] at h
    split_ifs at h with h0
    · cases h
      exact Or.inl ⟨h0, rfl⟩
    · exact Or.inr ⟨h0, h⟩

/-- **A decoded message is spelled by the part of its frame that is read.** -/
theorem encode_of_decode {b : List UInt8} {m : PeerMessage} (h : decodeMessage b = .ok m) :
    lengthPrefixSize + declaredLength b ≤ b.length ∧ usedLength b ≤ declaredLength b ∧
      encodeMessage m =
        toBe 4 (usedLength b) ++ (b.drop lengthPrefixSize).take (usedLength b) := by
  obtain ⟨lenBytes, rest, rfl, h4, hcase⟩ := decodeMessage_eq_ok h
  have hdeclared : declaredLength (lenBytes ++ rest) = ofBe lenBytes := by
    unfold declaredLength
    rw [List.take_left' h4]
  unfold usedLength
  rw [hdeclared, List.drop_left' h4, List.length_append, h4]
  rcases hcase with ⟨h0, rfl⟩ | ⟨hne, hbody⟩
  · rw [h0, if_pos rfl]
    exact ⟨by omega, le_rfl, rfl⟩
  obtain ⟨hmax, id, bytes, tail, rfl, hlen, hspells⟩ := (decodeBody_eq_ok_iff h4).mp hbody
  obtain ⟨hid, more, rfl, hmore⟩ := hspells
  have hget : (lenBytes ++ (id :: (payload m ++ more) ++ tail))[lengthPrefixSize]? = some id := by
    rw [List.getElem?_append_right (le_of_eq h4), h4, Nat.sub_self]
    rfl
  have hbody : body m = id :: payload m := by
    unfold body
    rw [hid]
  have hsplit : id :: (payload m ++ more) ++ tail = body m ++ (more ++ tail) := by
    rw [hbody, List.cons_append, List.cons_append, List.append_assoc]
  have hlen' : (body m).length + more.length = ofBe lenBytes := by
    rw [← hlen, hbody, List.length_cons, List.length_cons, List.length_append]
    omega
  have hused : ((some id).bind fixedLength).getD (ofBe lenBytes) = (body m).length := by
    rcases hfixed : fixedLength id with _ | n
    · rw [hmore hfixed, List.length_nil, Nat.add_zero] at hlen'
      rw [Option.bind_some, hfixed, hlen']
      rfl
    · rw [Option.bind_some, hfixed, length_body_of_fixed hid hfixed]
      rfl
  rw [hget, if_neg hne, hused, hsplit, List.take_left, List.length_append, List.length_append]
  exact ⟨by omega, by omega, encodeMessage_eq (by omega)⟩

/-- **Decoding** reads the part of a frame that its ID asks for, which is the whole frame unless
the message is of fixed size and the frame longer. -/
theorem decode_whole_iff {b : List UInt8} {m : PeerMessage} (h : decodeMessage b = .ok m) :
    (usedLength b ≤ declaredLength b ∧ encodeMessage m =
      toBe 4 (usedLength b) ++ (b.drop lengthPrefixSize).take (usedLength b)) ∧
    (encodeMessage m = b.take (lengthPrefixSize + declaredLength b) ↔
      declaredLength b = usedLength b) ∧
    ∀ b', decodeMessage b' = .ok m → declaredLength b = usedLength b →
      declaredLength b' = usedLength b' →
      b.take (lengthPrefixSize + declaredLength b) =
        b'.take (lengthPrefixSize + declaredLength b') := by
  have hiff : ∀ {b : List UInt8}, decodeMessage b = .ok m →
      (encodeMessage m = b.take (lengthPrefixSize + declaredLength b) ↔
        declaredLength b = usedLength b) := by
    intro b h
    obtain ⟨hlen, hle, hm⟩ := encode_of_decode h
    constructor
    · intro hwhole
      have hcount := congrArg List.length (hm.symm.trans hwhole)
      rw [List.length_append, length_toBe, List.length_take, List.length_drop,
        List.length_take] at hcount
      unfold lengthPrefixSize at *
      omega
    · intro heq
      have h4 : (b.take lengthPrefixSize).length = 4 := by
        rw [List.length_take]
        unfold lengthPrefixSize at *
        omega
      have hprefix : toBe 4 (declaredLength b) = b.take lengthPrefixSize := by
        unfold declaredLength
        rw [← h4, toBe_ofBe]
      rw [hm, ← heq, hprefix, List.take_add]
  obtain ⟨-, hle, hm⟩ := encode_of_decode h
  refine ⟨⟨hle, hm⟩, hiff h, fun b' h' heq heq' => ?_⟩
  exact ((hiff h).mpr heq).symm.trans ((hiff h').mpr heq')

/-- The frame of a piece with two bytes, in front of a keep-alive, and a request with two bytes too many. -/
def pieceFrame : List UInt8 := [0, 0, 0, 11, 7, 0, 0, 0, 1, 0, 0, 0, 2, 0xAA, 0xBB, 0, 0, 0, 0]

def longRequest : List UInt8 := [0, 0, 0, 15, 6, 0, 0, 0, 1, 0, 0, 0, 2, 0, 0, 0, 3, 9, 9]

theorem decode_whole_iff_frames :
    encodeMessage (.piece 1 2 [0xAA, 0xBB]) = pieceFrame.take (lengthPrefixSize + 11) ∧
      encodeMessage (.request 1 2 3) ≠ longRequest.take (lengthPrefixSize + 15) := by
  have hpiece : decodeMessage pieceFrame = .ok (.piece 1 2 [0xAA, 0xBB]) := by decide
  have hrequest : decodeMessage longRequest = .ok (.request 1 2 3) := by decide
  refine ⟨(decode_whole_iff hpiece).2.1.mpr (by decide), fun h => ?_⟩
  exact absurd ((decode_whole_iff hrequest).2.1.mp h) (by decide)

/-- A choke of two bytes. -/
theorem choke_with_payload : decodeMessage [0, 0, 0, 2, 0, 7] = .ok .choke ∧
    encodeMessage .choke ≠ [0, 0, 0, 2, 0, 7].take (4 + 2) ∧
    decodeMessage [0, 0, 0, 1, 0] = .ok .choke := by decide

end CncContent.Wire.Framing
