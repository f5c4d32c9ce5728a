import CncContent.Bencode.Codec
import CncContent.Lib.Loop

/-! # Torrent creation

`create_torrent`, which reads a file, and `TorrentBuilder`, which is fed with its bytes. The SHA-1
function is a parameter; a hasher is the bytes that it was fed with. A file gives as many bytes to a
read as it likes, but at least one before its end. An operation returns nothing if it panics or does not
end: a read buffer of more than `isizeMax` bytes cannot be allocated, while memory is unbounded
otherwise. -/

namespace CncContent.Torrent.Create

open CncContent.Lib.Bounded CncContent.Lib.Bytes CncContent.Lib.Loop CncContent.Lib.Decimal

abbrev Text := List UInt8

inductive TorrentCreateError
  | emptyFile (path : Text)
deriving DecidableEq, Repr

structure TorrentMetadata where
  torrentData : List UInt8
  infoHash : Text
  pieceCount : ℕ
  fileSize : ℕ
deriving DecidableEq, Repr

/-! ### Bencode helpers -/

/-- What `bencode_string` appends. -/
def bencodeString (s : List UInt8) : List UInt8 := printNat s.length ++ byte ':' :: s

/-- What `bencode_int` appends. -/
def bencodeInt (n : Int64) : List UInt8 := byte 'i' :: (printInt n.toInt ++ [byte 'e'])

/-- A number `as i64`. -/
def asI64 (n : ℕ) : Int64 := Int64.ofNat n

def bencodeInfoDict (name : Text) (length pieceLength : ℕ) (pieces : List UInt8) : List UInt8 :=
  [byte 'd'] ++
    bencodeString (text "length") ++ bencodeInt (asI64 length) ++
    bencodeString (text "name") ++ bencodeString name ++
    bencodeString (text "piece length") ++ bencodeInt (asI64 pieceLength) ++
    bencodeString (text "pieces") ++ bencodeString pieces ++
    [byte 'e']

/-- The entry of the first tracker. -/
def announceBytes (trackers : List Text) : List UInt8 :=
  match trackers.head? with
  | some first => bencodeString (text "announce") ++ bencodeString first
  | none => []

/-- The entry of all trackers, if there are several. -/
def announceListBytes (trackers : List Text) : List UInt8 :=
  if 1 < trackers.length then
    bencodeString (text "announce-list") ++ [byte 'l'] ++
      trackers.flatMap (fun tracker => [byte 'l'] ++ bencodeString tracker ++ [byte 'e']) ++ [byte 'e']
  else []

/-- The entry of the web seeds. -/
def urlListBytes (webSeeds : List Text) : List UInt8 :=
  if webSeeds.isEmpty then []
  else bencodeString (text "url-list") ++
    if webSeeds.length = 1 then bencodeString (webSeeds.head?.getD [])
    else [byte 'l'] ++ webSeeds.flatMap bencodeString ++ [byte 'e']

def bencodeTorrent (infoDict : List UInt8) (trackers webSeeds : List Text) : List UInt8 :=
  [byte 'd'] ++ announceBytes trackers ++ announceListBytes trackers ++
    bencodeString (text "info") ++ infoDict ++ urlListBytes webSeeds ++ [byte 'e']

/-! ### From a file -/

/-- A file as it is read: the `file_name` of its path, if it has one, the path as a text, and the number
of bytes that its reads return as far as this is open. -/
structure SourceFile where
  fileName : Option Text
  display : Text
  content : List UInt8
  content_lt : content.length < 2 ^ 64
  readLen : ℕ → ℕ

section Sha1

variable (sha1 : List UInt8 → Vector UInt8 20)

/-- The metadata that both ways of creation end with. -/
def torrentMetadata (fileName : Text) (fileSize pieceLength : ℕ) (pieces : List UInt8)
    (pieceCount : ℕ) (trackers webSeeds : List Text) : TorrentMetadata :=
  let infoDict := bencodeInfoDict fileName fileSize pieceLength pieces
  { torrentData := bencodeTorrent infoDict trackers webSeeds
    infoHash := toHex (sha1 infoDict).toList
    pieceCount := pieceCount
    fileSize := fileSize }

namespace SourceFile

variable (f : SourceFile)

def name : Text := f.fileName.getD (text "content.zip")

/-- The number of bytes returned by a read into a buffer of `room` bytes. -/
def readCount (call room : ℕ) (rest : List UInt8) : ℕ :=
  if room = 0 ∨ rest.length = 0 then 0 else min (max 1 (f.readLen call)) (min room rest.length)

/-- The buffer filled so far, the rest of the file and the number of the next read. -/
structure Reading where
  buf : List UInt8
  rest : List UInt8
  call : ℕ

/-- A round of the loop that fills the buffer. -/
def readRound (pieceLength : ℕ) (s : Reading) : Option (Bool × Reading) :=
  if s.buf.length < pieceLength then
    let n := f.readCount s.call (pieceLength - s.buf.length) s.rest
    some (decide (n ≠ 0), ⟨s.buf ++ s.rest.take n, s.rest.drop n, s.call + 1⟩)
  else some (false, s)

/-- The hashes so far, with the rest of the file. -/
structure Hashing where
  pieces : List UInt8
  pieceCount : ℕ
  rest : List UInt8
  call : ℕ

/-- A round of the loop over the pieces. -/
def hashRound (pieceLength : ℕ) (s : Hashing) : Option (Bool × Hashing) := do
  let r ← loop (f.readRound pieceLength) (s.rest.length + 1) ⟨[], s.rest, s.call⟩
  if r.buf.isEmpty then return (false, { s with rest := r.rest, call := r.call })
  return (true, ⟨s.pieces ++ (sha1 r.buf).toList, s.pieceCount + 1, r.rest, r.call⟩)

end SourceFile

def createTorrent (f : SourceFile) (pieceLength : ℕ) (trackers webSeeds : List Text) :
    Option (Except TorrentCreateError TorrentMetadata) :=
  if f.content.length = 0 then some (.error (.emptyFile f.display))
  else if pieceLength = 0 ∨ isizeMax < pieceLength then none
  else do
    let s ← loop (f.hashRound sha1 pieceLength) (f.content.length + 1) ⟨[], 0, f.content, 0⟩
    return .ok (torrentMetadata sha1 f.name f.content.length pieceLength s.pieces s.pieceCount
      trackers webSeeds)

/-! ### From a stream -/

structure TorrentBuilder where
  fileName : Text
  pieceLength : ℕ
  pieces : List UInt8
  currentHasher : List UInt8
  currentPieceBytes : ℕ
  totalBytes : ℕ
  pieceCount : ℕ
deriving DecidableEq, Repr

namespace TorrentBuilder

def new (fileName : Text) (pieceLength : ℕ) : TorrentBuilder := ⟨fileName, pieceLength, [], [], 0, 0, 0⟩

/-- `hasher.finalize()` of the current piece. -/
def finishPiece (b : TorrentBuilder) : TorrentBuilder :=
  { b with
    pieces := b.pieces ++ (sha1 b.currentHasher).toList
    currentHasher := []
    pieceCount := b.pieceCount + 1 }

/-- The bytes fed to the current piece. -/
def feed (b : TorrentBuilder) (slice : List UInt8) : TorrentBuilder :=
  { b with
    currentHasher := b.currentHasher ++ slice
    currentPieceBytes := satAdd u64Max b.currentPieceBytes slice.length
    totalBytes := satAdd u64Max b.totalBytes slice.length }

/-- A complete piece is finished. -/
def endPiece (b : TorrentBuilder) : TorrentBuilder :=
  if b.pieceLength ≤ b.currentPieceBytes then { b.finishPiece sha1 with currentPieceBytes := 0 } else b

/-- How many bytes of the data go into the current piece. -/
def takeCount (b : TorrentBuilder) (data : List UInt8) : ℕ :=
  min (b.pieceLength - b.currentPieceBytes) data.length

/-- A round of the loop of `write`, with the data from `offset` on. -/
def writeRound (s : TorrentBuilder × List UInt8) : Option (Bool × (TorrentBuilder × List UInt8)) :=
  if s.2.isEmpty then some (false, s)
  else
    let take := s.1.takeCount s.2
    some (true, (s.1.feed (s.2.take take)).endPiece sha1, s.2.drop take)

def write (b : TorrentBuilder) (data : List UInt8) : Option TorrentBuilder :=
  (loop (writeRound sha1) (data.length + 1) (b, data)).map Prod.fst

def finalize (b : TorrentBuilder) (trackers webSeeds : List Text) :
    Except TorrentCreateError TorrentMetadata :=
  if b.totalBytes = 0 then .error (.emptyFile b.fileName)
  else
    let b := if 0 < b.currentPieceBytes then b.finishPiece sha1 else b
    .ok (torrentMetadata sha1 b.fileName b.totalBytes b.pieceLength b.pieces b.pieceCount
      trackers webSeeds)

end TorrentBuilder

/-- A builder that is fed with the writes, one after the other. -/
def buildTorrent (fileName : Text) (pieceLength : ℕ) (writes : List (List UInt8))
    (trackers webSeeds : List Text) : Option (Except TorrentCreateError TorrentMetadata) := do
  let b ← writes.foldlM (TorrentBuilder.write sha1) (.new fileName pieceLength)
  return b.finalize sha1 trackers webSeeds

end Sha1

end CncContent.Torrent.Create
