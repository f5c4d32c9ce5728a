import CncContent.Lib.Bounded
import CncContent.Lib.BinarySearch
import CncContent.Lib.Spans

/-! # Byte ranges and the map of available ranges

The model of `ByteRange` and `ByteRangeMap`: the list of the available ranges of a file, in which
`insert` merges the new range with every range it overlaps or touches (`retain` with a closure that
lets the merged range grow) and puts the result at the position a binary search finds. The field
`end` of the source is called `stop`. -/

namespace CncContent.Streaming.ByteRanges

open CncContent.Lib.Bounded CncContent.Lib.BinarySearch CncContent.Lib.Spans

/-! ### Ranges -/

/-- A half-open byte range. -/
structure ByteRange where
  start : ℕ
  stop : ℕ
deriving DecidableEq, Repr

namespace ByteRange

variable (r other : ByteRange)

/-- Number of bytes; the subtraction saturates. -/
def len : ℕ := r.stop - r.start

def isEmpty : Bool := decide (r.stop ≤ r.start)

def containsRange : Bool := decide (r.start ≤ other.start) && decide (other.stop ≤ r.stop)

/-- The two overlap or touch. -/
def mergeableWith : Bool := decide (r.start ≤ other.stop) && decide (other.start ≤ r.stop)

def merge : ByteRange := ⟨min r.start other.start, max r.stop other.stop⟩

/-- The byte `x` lies in the range. -/
def Has (x : ℕ) : Prop := r.start ≤ x ∧ x < r.stop

instance (x : ℕ) : Decidable (r.Has x) := by unfold Has; infer_instance

theorem eq_of_ends {r r' : ByteRange} (h : r.start = r'.start) (h' : r.stop = r'.stop) : r = r' := by
  cases r; cases r'; simp_all

end ByteRange

/-! ### The map -/

/-- The available ranges of a file. -/
structure ByteRangeMap where
  ranges : List ByteRange
  fileSize : ℕ
deriving DecidableEq, Repr

namespace ByteRangeMap

/-- No byte is available. -/
def new (fileSize : ℕ) : ByteRangeMap := ⟨[], fileSize⟩

/-- The whole file is available. -/
def fullyAvailable (fileSize : ℕ) : ByteRangeMap :=
  if 0 < fileSize then ⟨[⟨0, fileSize⟩], fileSize⟩ else new fileSize

variable (m : ByteRangeMap)

def isComplete : Bool :=
  match m.ranges with
  | [r] => decide (r.start = 0) && decide (m.fileSize ≤ r.stop)
  | _ => false

def availableBytes : ℕ := (m.ranges.map ByteRange.len).sum

def hasRange (start len : ℕ) : Bool :=
  if len = 0 then true
  else
    match checkedAdd u64Max start len with
    | none => false
    | some stop => m.ranges.any fun r => r.containsRange ⟨start, stop⟩

/-- The first range in list order that contains the offset: the loops of the queries return there. -/
def containing (offset : ℕ) : Option ByteRange :=
  m.ranges.find? fun r => decide (r.start ≤ offset) && decide (offset < r.stop)

def contiguousFrom (offset : ℕ) : ℕ :=
  match m.containing offset with
  | some r => r.stop - offset
  | none => 0

def firstGapFrom (offset : ℕ) : Option ℕ :=
  match m.containing offset with
  | some r => if m.fileSize ≤ r.stop then none else some r.stop
  | none => if m.fileSize ≤ offset then none else some offset

/-- The closure of `retain`, on what has been kept and the range merged so far. -/
def retainStep (acc : List ByteRange × ByteRange) (existing : ByteRange) :
    List ByteRange × ByteRange :=
  if existing.mergeableWith acc.2 then (acc.1, acc.2.merge existing)
  else (acc.1 ++ [existing], acc.2)

/-- What `retain` keeps, and the merged range. -/
def retainMerge (range : ByteRange) (ranges : List ByteRange) : List ByteRange × ByteRange :=
  ranges.foldl retainStep ([], range)

def insert (range : ByteRange) : ByteRangeMap :=
  if range.isEmpty then m
  else
    let (kept, merged) := retainMerge range m.ranges
    let pos := position (binarySearch (kept.map ByteRange.start) merged.start)
    { m with ranges := kept.take pos ++ merged :: kept.drop pos }

/-- The map after inserting the ranges one by one. -/
def insertAll (rs : List ByteRange) : ByteRangeMap := rs.foldl insert m

/-- The byte `x` is available. -/
def Available (x : ℕ) : Prop := Covers ByteRange.start ByteRange.stop m.ranges x

/-- The ranges are non-empty, strictly sorted, pairwise disjoint and non-adjacent. -/
def Normal : Prop := Canonical ByteRange.start ByteRange.stop m.ranges

end ByteRangeMap

end CncContent.Streaming.ByteRanges
