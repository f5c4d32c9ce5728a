import CncContent.Streaming.ByteRanges

/-! # The streaming reader

`StreamingReader` on a fully allocated file, with the notifier of the download thread. A read takes
several steps: the check of the map, the wait on the condition variable, and the read from the disk; the
map is locked from a wake-up on until the reader has looked at it. The notifier acts, and the bytes on the
disk change, between any two steps. A read from the disk returns as many bytes as the system likes, but at
least one before the end of the file. -/

namespace CncContent.Streaming.Reader

open CncContent.Lib.Bounded CncContent.Streaming.ByteRanges

/-- Where to seek to: `n` is an unsigned number for the start and a signed one otherwise. -/
inductive SeekFrom
  | start (n : ℕ)
  | fromEnd (n : Int64)
  | current (n : Int64)
deriving DecidableEq, Repr

inductive ReadError
  | interrupted
  | timedOut
  | outOfBounds
  | io
deriving DecidableEq, Repr

/-- What a call ends with. An overflow is a panic. -/
inductive Outcome (α : Type)
  | ok (a : α)
  | err (e : ReadError)
  | overflow
deriving DecidableEq, Repr

/-- Where the read call is, with the length of its buffer. -/
inductive Phase
  | idle
  | check (bufLen neededLen : ℕ)
  | wait (bufLen neededLen : ℕ)
  | woken (bufLen neededLen : ℕ) (timedOut : Bool)
  | disk (bufLen len : ℕ)
deriving DecidableEq, Repr

/-- A call that has returned, with the position at which it was made. -/
inductive Returned
  | read (bufLen position : ℕ) (result : Outcome (List UInt8))
  | seek (pos : SeekFrom) (position : ℕ) (result : Outcome ℕ)
deriving DecidableEq, Repr

/-- The reader with the state that it shares with the notifier, and the bytes on the disk. The ranges
announced so far and the call that the last step has returned from are recorded. -/
structure StreamingReader where
  fileSize : ℕ
  position : ℕ
  rangeMap : ByteRangeMap
  cancelled : Bool
  phase : Phase
  content : ℕ → UInt8
  announced : List ByteRange
  last : Option Returned

inductive Action
  | read (bufLen : ℕ)
  | advance (timeUp : Bool) (diskRead : Option ℕ)
  | seek (pos : SeekFrom)
  | pieceCompleted (range : ByteRange)
  | markComplete
  | cancel
  | store (content : ℕ → UInt8)

/-! ### Seeking -/

/-- The negation of a signed number. -/
def neg (n : Int64) : Outcome Int64 := if n = Int64.minValue then .overflow else .ok (-n)

/-- `saturating_add` of a number that is not negative, `saturating_sub` of the negation otherwise. -/
def moveBy (base : ℕ) (n : Int64) : Outcome ℕ :=
  if 0 ≤ n then .ok (satAdd u64Max base n.toUInt64.toNat)
  else
    match neg n with
    | .ok m => .ok (base - m.toUInt64.toNat)
    | .err e => .err e
    | .overflow => .overflow

/-! ### Steps -/

namespace StreamingReader

/-- A partially downloaded file is opened, some ranges of which are available. -/
def newStreaming (fileSize : ℕ) (content : ℕ → UInt8) (mapSize : ℕ) (ranges : List ByteRange) :
    StreamingReader :=
  ⟨fileSize, 0, (ByteRangeMap.new mapSize).insertAll ranges, false, .idle, content, ranges, none⟩

/-- A fully downloaded file is opened. -/
def fromCompleteFile (fileSize : ℕ) (content : ℕ → UInt8) : StreamingReader :=
  ⟨fileSize, 0, .fullyAvailable fileSize, false, .idle, content, [⟨0, fileSize⟩], none⟩

variable (s : StreamingReader)

/-- The read goes on. -/
def goTo (phase : Phase) : StreamingReader := { s with phase := phase, last := none }

/-- The read returns without having moved. -/
def returnRead (bufLen : ℕ) (result : Outcome (List UInt8)) : StreamingReader :=
  { s with phase := .idle, last := some (.read bufLen s.position result) }

def newPos (pos : SeekFrom) : Outcome ℕ :=
  match pos with
  | .start n => .ok n
  | .fromEnd n => moveBy s.fileSize n
  | .current n => moveBy s.position n

def seek (pos : SeekFrom) : StreamingReader :=
  match s.newPos pos with
  | .ok n =>
    { s with
      position := min n s.fileSize
      last := some (.seek pos s.position (.ok (min n s.fileSize))) }
  | .err e => { s with last := some (.seek pos s.position (.err e)) }
  | .overflow => { s with last := some (.seek pos s.position .overflow) }

/-- `read`, and the start of `wait_and_read`. -/
def read (bufLen : ℕ) : StreamingReader :=
  if s.fileSize ≤ s.position then s.returnRead bufLen (.ok [])
  else
    let neededLen := min bufLen (s.fileSize - s.position)
    if neededLen = 0 then s.returnRead bufLen (.ok [])
    else s.goTo (.check bufLen neededLen)

/-- The fast path, if all is available. -/
def checkMap (bufLen neededLen : ℕ) : StreamingReader :=
  if s.rangeMap.hasRange s.position neededLen then s.goTo (.disk bufLen neededLen)
  else s.goTo (.wait bufLen neededLen)

/-- `wait_timeout_while`: the condition is looked at first, then the time. -/
def wakeUp (bufLen neededLen : ℕ) (timeUp : Bool) : StreamingReader :=
  if s.cancelled ∨ s.rangeMap.contiguousFrom s.position ≠ 0 then s.goTo (.woken bufLen neededLen false)
  else if timeUp then s.goTo (.woken bufLen neededLen true)
  else s.goTo (.wait bufLen neededLen)

/-- What follows the wait. -/
def afterWait (bufLen neededLen : ℕ) (timedOut : Bool) : StreamingReader :=
  if s.cancelled then s.returnRead bufLen (.err .interrupted)
  else if timedOut then s.returnRead bufLen (.err .timedOut)
  else s.goTo (.disk bufLen (min neededLen (s.rangeMap.contiguousFrom s.position)))

/-- The bytes that a read of the file into a buffer of `len` bytes returns. -/
def bytesRead (len count : ℕ) : List UInt8 :=
  let n := if len = 0 ∨ s.fileSize ≤ s.position then 0
    else min (max 1 count) (min len (s.fileSize - s.position))
  (List.range n).map fun i => s.content (s.position + i)

def readFromDisk (bufLen len : ℕ) (diskRead : Option ℕ) : StreamingReader :=
  if bufLen < len then s.returnRead bufLen (.err .outOfBounds)
  else
    match diskRead with
    | none => s.returnRead bufLen (.err .io)
    | some count =>
      let bytes := s.bytesRead len count
      match checkedAdd u64Max s.position bytes.length with
      | none => s.returnRead bufLen .overflow
      | some position => { s.returnRead bufLen (.ok bytes) with position := position }

/-- The next step of the read call. -/
def advance (timeUp : Bool) (diskRead : Option ℕ) : Option StreamingReader :=
  match s.phase with
  | .idle => none
  | .check bufLen neededLen => some (s.checkMap bufLen neededLen)
  | .wait bufLen neededLen => some (s.wakeUp bufLen neededLen timeUp)
  | .woken bufLen neededLen timedOut => some (s.afterWait bufLen neededLen timedOut)
  | .disk bufLen len => some (s.readFromDisk bufLen len diskRead)

/-- The reader holds the lock of the map. -/
def Locked : Prop :=
  match s.phase with
  | .woken .. => True
  | .idle | .check .. | .wait .. | .disk .. => False

instance : Decidable s.Locked := by unfold Locked; split <;> infer_instance

def insertRange (range : ByteRange) : StreamingReader :=
  { s with
    rangeMap := s.rangeMap.insert range
    announced := s.announced ++ [range]
    last := none }

def pieceCompleted (range : ByteRange) : Option StreamingReader :=
  if s.Locked then none else some (s.insertRange range)

def markComplete : Option StreamingReader := s.pieceCompleted ⟨0, s.rangeMap.fileSize⟩

def cancel : StreamingReader := { s with cancelled := true, last := none }

/-- A call is made only if no other one is going on. -/
def step : Action → Option StreamingReader
  | .read bufLen => if s.phase = .idle then some (s.read bufLen) else none
  | .advance timeUp diskRead => s.advance timeUp diskRead
  | .seek pos => if s.phase = .idle then some (s.seek pos) else none
  | .pieceCompleted range => s.pieceCompleted range
  | .markComplete => s.markComplete
  | .cancel => some s.cancel
  | .store content => some { s with content := content, last := none }

end StreamingReader

end CncContent.Streaming.Reader
