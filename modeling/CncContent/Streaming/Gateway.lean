import CncContent.Lib.Decimal
import CncContent.Streaming.Reader

/-! # The HTTP gateway

`GatewayAdapter` on a fully allocated file: a disk read returns all the bytes that it is asked for, or
fails. A request is answered in one step up to the read call of its reader, which then takes its own steps;
the notifier acts between any two of them. The metadata of a response are fixed before the read. -/

namespace CncContent.Streaming.Gateway

open CncContent.Lib.Bounded CncContent.Lib.Bytes CncContent.Lib.Decimal CncContent.Streaming.ByteRanges
open CncContent.Streaming.Reader CncContent.Streaming.Reader.StreamingReader

/-! ### Ranges -/

inductive RangeError
  | invalidSyntax (detail : List UInt8)
  | startBeyondEnd (start contentLength : ℕ)
  | startGreaterThanEnd (start stop : ℕ)
  | unsupportedUnit (unit : List UInt8)
deriving DecidableEq, Repr

inductive RangeRequest
  | bounded (start endInclusive : ℕ)
  | openEnded (start : ℕ)
  | suffix (length : ℕ)
deriving DecidableEq, Repr

/-- A resolved byte range. -/
structure ContentSlice where
  start : ℕ
  endExclusive : ℕ
  contentLength : ℕ
deriving DecidableEq, Repr

/-- The number of bytes; the subtraction saturates. -/
def ContentSlice.len (slice : ContentSlice) : ℕ := slice.endExclusive - slice.start

/-- A text in single quotes behind a label. -/
def quoted (label : String) (s : List UInt8) : List UInt8 :=
  text label ++ byte '\'' :: s ++ [byte '\'']

namespace RangeRequest

/-- What is behind the unit, with the white space at its ends stripped. -/
def parseRest (rest : List UInt8) : Except RangeError RangeRequest :=
  if byte ',' ∈ rest then .error (.invalidSyntax (text "multi-range not supported"))
  else if byte '-' ∉ rest then .error (.invalidSyntax (text "missing '-' separator"))
  else
    let left := rest.takeWhile (· ≠ byte '-')
    let right := (rest.dropWhile (· ≠ byte '-')).tail
    if left = [] then
      match parseNat u64Max right with
      | none => .error (.invalidSyntax (quoted "invalid suffix length: " right))
      | some length => .ok (.suffix length)
    else
      match parseNat u64Max left with
      | none => .error (.invalidSyntax (quoted "invalid start: " left))
      | some start =>
        if right = [] then .ok (.openEnded start)
        else
          match parseNat u64Max right with
          | none => .error (.invalidSyntax (quoted "invalid end: " right))
          | some stop =>
            if stop < start then .error (.startGreaterThanEnd start stop) else .ok (.bounded start stop)

def parse (header : List UInt8) : Except RangeError RangeRequest :=
  if text "bytes=" <+: header then parseRest (trim (header.drop (text "bytes=").length))
  else if byte '=' ∈ header then .error (.unsupportedUnit (header.takeWhile (· ≠ byte '=')))
  else .error (.invalidSyntax (text "missing 'bytes=' prefix"))

def resolve (contentLength : ℕ) : RangeRequest → Except RangeError ContentSlice
  | .bounded start endInclusive =>
    if contentLength ≤ start then .error (.startBeyondEnd start contentLength)
    else .ok ⟨start, min (satAdd u64Max endInclusive 1) contentLength, contentLength⟩
  | .openEnded start =>
    if contentLength ≤ start then .error (.startBeyondEnd start contentLength)
    else .ok ⟨start, contentLength, contentLength⟩
  | .suffix length => .ok ⟨contentLength - length, contentLength, contentLength⟩

end RangeRequest

/-! ### Responses -/

structure ResponseMeta where
  status : ℕ
  contentLength : ℕ
  contentRange : Option (List UInt8)
deriving DecidableEq, Repr

/-- The value of a `Content-Range` header. -/
def contentRangeText (first last total : ℕ) : List UInt8 :=
  text "bytes " ++ (printNat first ++ byte '-' :: (printNat last ++ byte '/' :: printNat total))

namespace ResponseMeta

def full (contentLength : ℕ) : ResponseMeta := ⟨200, contentLength, none⟩

def partialContent (slice : ContentSlice) : ResponseMeta :=
  ⟨206, slice.len, some (contentRangeText slice.start (slice.endExclusive - 1) slice.contentLength)⟩

end ResponseMeta

structure GatewayResponse where
  metadata : ResponseMeta
  body : List UInt8
deriving DecidableEq, Repr

/-- What a call of `serve_range` ends with. The reader's error stands for its text. -/
inductive Served
  | ok (response : GatewayResponse)
  | range (source : RangeError)
  | readerIo (position : ℕ) (detail : ReadError)
  | panicked
deriving DecidableEq, Repr

/-- `MAX_READ_SIZE`. -/
def maxReadSize : ℕ := 16 * 1024 * 1024

/-- The metadata of the response and the slice to read. -/
def plan (fileSize : ℕ) : Option (List UInt8) → Except RangeError (ResponseMeta × ContentSlice)
  | none => .ok (.full fileSize, ⟨0, min fileSize maxReadSize, fileSize⟩)
  | some header =>
    match RangeRequest.parse header with
    | .error e => .error e
    | .ok request =>
      match request.resolve fileSize with
      | .error e => .error e
      | .ok resolved =>
        .ok (.partialContent resolved,
          ⟨resolved.start, min (satAdd u64Max resolved.start maxReadSize) resolved.endExclusive,
            resolved.contentLength⟩)

/-! ### The adapter -/

/-- A call whose reader is reading. -/
structure Pending where
  header : Option (List UInt8)
  metadata : ResponseMeta
  slice : ContentSlice
deriving DecidableEq, Repr

/-- The adapter with the call that is going on. The map that the reader has looked at last and the call
that the last step has returned from are recorded. -/
structure GatewayAdapter where
  reader : StreamingReader
  pending : Option Pending
  seen : ByteRangeMap
  last : Option (Option (List UInt8) × Served)

inductive Action
  | serve (header : Option (List UInt8))
  | reader (a : Reader.Action)

/-- `read_len`. -/
def Pending.readLen (p : Pending) : ℕ := p.slice.len

/-- The response to a call whose reader has read; the buffer is truncated to the bytes read. -/
def Pending.finish (p : Pending) : Outcome (List UInt8) → Served
  | .ok bytes => .ok ⟨p.metadata, bytes⟩
  | .err e => .readerIo p.slice.start e
  | .overflow => .panicked

namespace GatewayAdapter

def new (reader : StreamingReader) : GatewayAdapter := ⟨reader, none, reader.rangeMap, none⟩

variable (s : GatewayAdapter)

/-- The call returns if its reader has. -/
def collect (reader : StreamingReader) (seen : ByteRangeMap) (p : Pending) : GatewayAdapter :=
  match reader.last with
  | some (.read _ _ result) => ⟨reader, none, seen, some (p.header, p.finish result)⟩
  | some (.seek ..) | none => ⟨reader, some p, seen, none⟩

def serveRange (header : Option (List UInt8)) : GatewayAdapter :=
  match plan s.reader.fileSize header with
  | .error e => { s with last := some (header, .range e) }
  | .ok (metadata, slice) =>
    let p : Pending := ⟨header, metadata, slice⟩
    let reader := s.reader.seek (.start slice.start)
    match reader.last with
    | some (.seek _ _ (.err e)) => { s with reader := reader, last := some (header, .readerIo slice.start e) }
    | some (.seek _ _ .overflow) => { s with reader := reader, last := some (header, .panicked) }
    | some (.seek _ _ (.ok _)) | some (.read ..) | none => collect (reader.read p.readLen) s.seen p

/-- The map that the reader has looked at last, after its next step. -/
def look : ByteRangeMap :=
  match s.reader.phase with
  | .check .. | .woken .. => s.reader.rangeMap
  | .idle | .wait .. | .disk .. => s.seen

/-- A disk read that does not fail, with the number of bytes that it is asked for. -/
def DiskRead (P : ℕ → ℕ → Prop) : Reader.Action → Prop
  | .advance _ (some count) =>
    match s.reader.phase with
    | .disk _ len => P len count
    | .idle | .check .. | .wait .. | .woken .. => False
  | .advance _ none | .read _ | .seek _ | .pieceCompleted _ | .markComplete | .cancel | .store _ => False

instance (P : ℕ → ℕ → Prop) [∀ len count, Decidable (P len count)] (a : Reader.Action) :
    Decidable (s.DiskRead P a) := by
  unfold DiskRead
  split
  · split <;> infer_instance
  all_goals infer_instance

/-- A step of the reader; the file is fully allocated. -/
def readerStep (a : Reader.Action) : Option GatewayAdapter :=
  if s.DiskRead (fun len count => count < len) a then none
  else
    match s.reader.step a with
    | none => none
    | some reader =>
      match s.pending with
      | none => some ⟨reader, none, s.look, none⟩
      | some p => some (collect reader s.look p)

/-- A call is made only if the reader is not in use. -/
def step : Action → Option GatewayAdapter
  | .serve header => if s.reader.phase = .idle then some (s.serveRange header) else none
  | .reader a => s.readerStep a

end GatewayAdapter

end CncContent.Streaming.Gateway
