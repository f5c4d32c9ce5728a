import CncContent.Lib.Bounded
import CncContent.Lib.Bytes
import CncContent.Lib.Checks

/-! # Peer wire messages

The model of `PeerMessage`, `encode_message` and `decode_message`. A message is a big-endian length,
an ID and a payload; a keep-alive is a length of zero and nothing else. A payload reader is given the
ID and the bytes of the frame after it. -/

namespace CncContent.Wire.Message

open CncContent.Lib.Bounded CncContent.Lib.Bytes CncContent.Lib.Checks

/-! ### Constants -/

def lengthPrefixSize : ℕ := 4

def msgChoke : UInt8 := 0
def msgUnchoke : UInt8 := 1
def msgInterested : UInt8 := 2
def msgNotInterested : UInt8 := 3
def msgHave : UInt8 := 4
def msgBitfield : UInt8 := 5
def msgRequest : UInt8 := 6
def msgPiece : UInt8 := 7
def msgCancel : UInt8 := 8
def msgPort : UInt8 := 9
def msgExtended : UInt8 := 20

def maxMessageLength : ℕ := 16 * 1024 * 1024

/-! ### Messages -/

inductive PeerMessage
  | keepAlive
  | choke
  | unchoke
  | interested
  | notInterested
  | «have» (pieceIndex : UInt32)
  | bitfield (data : List UInt8)
  | request (index begin length : UInt32)
  | piece (index begin : UInt32) (block : List UInt8)
  | cancel (index begin length : UInt32)
  | port (port : UInt16)
  | extended (extId : UInt8) (payload : List UInt8)
deriving DecidableEq, Repr

inductive MessageError
  | tooShort (needed actual : ℕ)
  | tooLarge (length max : ℕ)
  | unknownId (msgId : UInt8)
  | invalidPayload (msgId : UInt8) (reason : String)
deriving DecidableEq, Repr

def PeerMessage.messageId : PeerMessage → Option UInt8
  | .keepAlive => none
  | .choke => some msgChoke
  | .unchoke => some msgUnchoke
  | .interested => some msgInterested
  | .notInterested => some msgNotInterested
  | .have _ => some msgHave
  | .bitfield _ => some msgBitfield
  | .request _ _ _ => some msgRequest
  | .piece _ _ _ => some msgPiece
  | .cancel _ _ _ => some msgCancel
  | .port _ => some msgPort
  | .extended _ _ => some msgExtended

/-! ### Encoding -/

/-- `to_be_bytes` of a `u32`. -/
def beBytes32 (n : UInt32) : List UInt8 := toBe 4 n.toNat

/-- `to_be_bytes` of a `u16`. -/
def beBytes16 (n : UInt16) : List UInt8 := toBe 2 n.toNat

def encodeIdOnly (id : UInt8) : List UInt8 := toBe 4 1 ++ [id]

def encodeIndexBeginLength (id : UInt8) (index begin length : UInt32) : List UInt8 :=
  toBe 4 13 ++ id :: (beBytes32 index ++ (beBytes32 begin ++ beBytes32 length))

/-- The length field of a message with a variable part: `fixed.saturating_add(len as u32)`. -/
def lengthField (fixed len : ℕ) : List UInt8 := toBe 4 (satAdd u32Max fixed (asU32 len))

def encodeMessage : PeerMessage → List UInt8
  | .keepAlive => [0, 0, 0, 0]
  | .choke => encodeIdOnly msgChoke
  | .unchoke => encodeIdOnly msgUnchoke
  | .interested => encodeIdOnly msgInterested
  | .notInterested => encodeIdOnly msgNotInterested
  | .have pieceIndex => toBe 4 5 ++ msgHave :: beBytes32 pieceIndex
  | .bitfield data => lengthField 1 data.length ++ msgBitfield :: data
  | .request index begin length => encodeIndexBeginLength msgRequest index begin length
  | .piece index begin block =>
    lengthField 9 block.length ++ msgPiece :: (beBytes32 index ++ (beBytes32 begin ++ block))
  | .cancel index begin length => encodeIndexBeginLength msgCancel index begin length
  | .port port => toBe 4 3 ++ msgPort :: beBytes16 port
  | .extended extId payload => lengthField 2 payload.length ++ msgExtended :: extId :: payload

/-! ### Decoding -/

def readU32 (data : List UInt8) (offset : ℕ) : Except MessageError UInt32 := do
  let bytes ← okOr (slice data offset (satAdd u64Max offset 4))
    (.tooShort (asU32 (satAdd u64Max offset 4)) (asU32 data.length))
  return UInt32.ofNat (ofBe bytes)

def decodeIndexBeginLength (msgId : UInt8) (payload : List UInt8) :
    Except MessageError (UInt32 × UInt32 × UInt32) := do
  refuse (payload.length < 12)
    (.invalidPayload msgId "requires 12-byte payload (index + begin + length)")
  let index ← readU32 payload 0
  let begin ← readU32 payload 4
  let length ← readU32 payload 8
  return (index, begin, length)

def decodeHave (msgId : UInt8) (payload : List UInt8) : Except MessageError PeerMessage := do
  let bytes ← okOr (slice payload 0 4)
    (.invalidPayload msgId "have message requires 4-byte piece index")
  return .have (UInt32.ofNat (ofBe bytes))

def decodePiece (msgId : UInt8) (payload : List UInt8) : Except MessageError PeerMessage := do
  refuse (payload.length < 8)
    (.invalidPayload msgId "piece message requires at least 8 bytes (index + begin)")
  let index ← readU32 payload 0
  let begin ← readU32 payload 4
  return .piece index begin (payload.drop 8)

def decodePort (msgId : UInt8) (payload : List UInt8) : Except MessageError PeerMessage := do
  refuse (payload.length < 2) (.invalidPayload msgId "port message requires 2-byte port")
  return .port (UInt16.ofNat (ofBe (payload.take 2)))

def decodeExtended (msgId : UInt8) (payload : List UInt8) : Except MessageError PeerMessage := do
  let extId ← okOr payload.head?
    (.invalidPayload msgId "extended message requires at least 1-byte extension ID")
  return .extended extId (payload.drop 1)

/-- The `match` on the message ID. -/
def decodePayload (msgId : UInt8) (payload : List UInt8) : Except MessageError PeerMessage :=
  if msgId = msgChoke then .ok .choke
  else if msgId = msgUnchoke then .ok .unchoke
  else if msgId = msgInterested then .ok .interested
  else if msgId = msgNotInterested then .ok .notInterested
  else if msgId = msgHave then decodeHave msgId payload
  else if msgId = msgBitfield then .ok (.bitfield payload)
  else if msgId = msgRequest then
    (decodeIndexBeginLength msgId payload).map fun t => .request t.1 t.2.1 t.2.2
  else if msgId = msgPiece then decodePiece msgId payload
  else if msgId = msgCancel then
    (decodeIndexBeginLength msgId payload).map fun t => .cancel t.1 t.2.1 t.2.2
  else if msgId = msgPort then decodePort msgId payload
  else if msgId = msgExtended then decodeExtended msgId payload
  else .error (.unknownId msgId)

/-- The part of `decode_message` after a length prefix that is not zero. -/
def decodeBody (data : List UInt8) (length : ℕ) : Except MessageError PeerMessage := do
  refuse (maxMessageLength < length) (.tooLarge length maxMessageLength)
  let totalLen := satAdd u64Max lengthPrefixSize length
  let tooShort := MessageError.tooShort (asU32 totalLen) (asU32 data.length)
  refuse (data.length < totalLen) tooShort
  let body ← okOr (slice data lengthPrefixSize totalLen) tooShort
  let msgId ← okOr body.head? (.tooShort 1 0)
  decodePayload msgId (body.drop 1)

def decodeMessage (data : List UInt8) : Except MessageError PeerMessage := do
  let lenBytes ← okOr (slice data 0 lengthPrefixSize)
    (.tooShort (asU32 lengthPrefixSize) (asU32 data.length))
  if ofBe lenBytes = 0 then .ok .keepAlive
  else decodeBody data (ofBe lenBytes)

example : decodeMessage (encodeMessage (.have 42) ++ [1, 2]) = .ok (.have 42) := by decide

end CncContent.Wire.Message
