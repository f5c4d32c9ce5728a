import CncContent.Lib.Bounded
import CncContent.Lib.Loop
import Mathlib.Data.Finset.Basic
import Mathlib.Data.Fintype.Basic
import Mathlib.Logic.Function.Basic

/-! # The ARC piece cache

The model of `Inner` and of `PieceDataCache`, whose operations take the lock for their whole length.
A queue is a list with its front first. The loops are `Loop.loop`s, so an operation returns nothing
if one of its loops does not end within the bound given, or if it would panic. -/

namespace CncContent.Cache.PieceDataCache

open CncContent.Lib.Bounded CncContent.Lib.Loop

/-- A `u32`. -/
abbrev PieceIndex := Fin (2 ^ 32)

/-- A slice of bytes, which knows its length. -/
structure Bytes where
  len : ℕ
  get : Fin len → UInt8

/-- `pop_back`. -/
def popBack {α : Type} (l : List α) : Option (α × List α) := l.getLast?.map fun a => (a, l.dropLast)

structure Inner where
  t1 : List PieceIndex
  t2 : List PieceIndex
  b1 : List PieceIndex
  b2 : List PieceIndex
  b1Set : Finset PieceIndex
  b2Set : Finset PieceIndex
  entries : PieceIndex → Option Bytes
  currentBytes : ℕ
  maxBytes : ℕ
  ghostCap : ℕ
  p : ℕ
  hits : ℕ
  misses : ℕ
  evictions : ℕ
  ghostHitsB1 : ℕ
  ghostHitsB2 : ℕ

namespace Inner

/-- The ghost cap of a budget, for pieces of 256 KiB. -/
def ghostCapOf (maxBytes : ℕ) : ℕ := asU32 (max (maxBytes / (256 * 1024)) 16)

def new (maxBytes : ℕ) : Inner where
  t1 := []
  t2 := []
  b1 := []
  b2 := []
  b1Set := ∅
  b2Set := ∅
  entries := fun _ => none
  currentBytes := 0
  maxBytes := maxBytes
  ghostCap := ghostCapOf maxBytes
  p := 0
  hits := 0
  misses := 0
  evictions := 0
  ghostHitsB1 := 0
  ghostHitsB2 := 0

/-! ### Ghost lists -/

/-- A round of the loop that cuts a ghost list, here with its mirror, below the cap. -/
def trimGhost (cap : ℕ) (b : List PieceIndex × Finset PieceIndex) :
    Option (Bool × (List PieceIndex × Finset PieceIndex)) :=
  if cap ≤ asU32 b.1.length then
    match popBack b.1 with
    | some (old, rest) => some (true, rest, b.2.erase old)
    | none => some (true, b)
  else some (false, b)

def addToGhost (cap : ℕ) (b : List PieceIndex × Finset PieceIndex) (i : PieceIndex) :
    Option (List PieceIndex × Finset PieceIndex) :=
  (loop (trimGhost cap) (b.1.length + 1) b).map fun b => (i :: b.1, insert i b.2)

def removeFromGhost (b : List PieceIndex × Finset PieceIndex) (i : PieceIndex) :
    List PieceIndex × Finset PieceIndex := (b.1.erase i, b.2.erase i)

variable (s : Inner)

def addToGhostB1 (i : PieceIndex) : Option Inner :=
  (addToGhost s.ghostCap (s.b1, s.b1Set) i).map fun b => { s with b1 := b.1, b1Set := b.2 }

def addToGhostB2 (i : PieceIndex) : Option Inner :=
  (addToGhost s.ghostCap (s.b2, s.b2Set) i).map fun b => { s with b2 := b.1, b2Set := b.2 }

def removeFromGhostB1 (i : PieceIndex) : Inner :=
  { s with b1 := (removeFromGhost (s.b1, s.b1Set) i).1,
           b1Set := (removeFromGhost (s.b1, s.b1Set) i).2 }

def removeFromGhostB2 (i : PieceIndex) : Inner :=
  { s with b2 := (removeFromGhost (s.b2, s.b2Set) i).1,
           b2Set := (removeFromGhost (s.b2, s.b2Set) i).2 }

/-! ### Eviction -/

/-- `entries.remove`, with the byte count. -/
def removeEntry (i : PieceIndex) : Inner :=
  match s.entries i with
  | some data =>
    { s with entries := Function.update s.entries i none,
             currentBytes := s.currentBytes - data.len }
  | none => s

/-- `entries.insert`, with the byte count. -/
def insertEntry (i : PieceIndex) (data : Bytes) : Inner :=
  { s with entries := Function.update s.entries i (some data),
           currentBytes := satAdd u64Max s.currentBytes data.len }

def evictFromT1 : Option (Bool × Inner) :=
  match popBack s.t1 with
  | none => some (false, s)
  | some (evictedIdx, t1) =>
    let s' := { s with t1 := t1 }.removeEntry evictedIdx
    let s' := { s' with evictions := satAdd u64Max s'.evictions 1 }
    (s'.addToGhostB1 evictedIdx).map fun s' => (true, s')

def evictFromT2 : Option (Bool × Inner) :=
  match popBack s.t2 with
  | none => some (false, s)
  | some (evictedIdx, t2) =>
    let s' := { s with t2 := t2 }.removeEntry evictedIdx
    let s' := { s' with evictions := satAdd u64Max s'.evictions 1 }
    (s'.addToGhostB2 evictedIdx).map fun s' => (true, s')

def replace : Option (Bool × Inner) :=
  let takeT1 :=
    if s.t1.isEmpty then false
    else if s.t2.isEmpty then true
    else decide (s.p < asU32 s.t1.length)
  if takeT1 then s.evictFromT1 else s.evictFromT2

def evictAny : Option (Bool × Inner) :=
  if !s.t1.isEmpty || !s.t2.isEmpty then s.replace else some (false, s)

/-- The most evictions there can be. -/
def evictable : ℕ := s.t1.length + s.t2.length

/-- A round of the loop of `ensure_room`, which `replace` may leave. -/
def makeRoom (pieceBytes : ℕ) : Option (Bool × Inner) :=
  if s.maxBytes < satAdd u64Max s.currentBytes pieceBytes then s.replace else some (false, s)

def ensureRoom (pieceBytes : ℕ) : Option Inner :=
  loop (fun s => s.makeRoom pieceBytes) (s.evictable + 1) s

/-! ### The operations -/

def promoteToT2 (i : PieceIndex) : Inner :=
  if i ∈ s.t1 then { s with t1 := s.t1.erase i, t2 := i :: s.t2 }
  else if i ∈ s.t2 then { s with t2 := i :: s.t2.erase i }
  else s

/-- The new target after a ghost hit on B1. A zero divisor would be a panic. -/
def growTarget : Option ℕ :=
  let b1Len := asU32 (max s.b1.length 1)
  if b1Len = 0 then none
  else some (min (satAdd u32Max s.p (max 1 (asU32 s.b2.length / b1Len))) s.ghostCap)

/-- The new target after a ghost hit on B2. -/
def shrinkTarget : Option ℕ :=
  let b2Len := asU32 (max s.b2.length 1)
  if b2Len = 0 then none
  else some (s.p - max 1 (asU32 s.b1.length / b2Len))

def insert (i : PieceIndex) (data : Bytes) : Option Inner :=
  if s.maxBytes < data.len then some s
  else if (s.entries i).isSome then some (s.promoteToT2 i)
  else if i ∈ s.b1Set then
    s.growTarget.bind fun p =>
      let s' := { s with ghostHitsB1 := satAdd u64Max s.ghostHitsB1 1, p := p }
      ((s'.removeFromGhostB1 i).ensureRoom data.len).map fun s' =>
        { s'.insertEntry i data with t2 := i :: s'.t2 }
  else if i ∈ s.b2Set then
    s.shrinkTarget.bind fun p =>
      let s' := { s with ghostHitsB2 := satAdd u64Max s.ghostHitsB2 1, p := p }
      ((s'.removeFromGhostB2 i).ensureRoom data.len).map fun s' =>
        { s'.insertEntry i data with t2 := i :: s'.t2 }
  else
    (s.ensureRoom data.len).map fun s' => { s'.insertEntry i data with t1 := i :: s'.t1 }

def get (i : PieceIndex) : Option Bytes × Inner :=
  if (s.entries i).isSome then
    let s' := s.promoteToT2 i
    (s'.entries i, { s' with hits := satAdd u64Max s'.hits 1 })
  else (none, { s with misses := satAdd u64Max s.misses 1 })

def remove (i : PieceIndex) : Bool × Inner :=
  if (s.entries i).isSome then
    let s' := s.removeEntry i
    if i ∈ s'.t1 then (true, { s' with t1 := s'.t1.erase i })
    else if i ∈ s'.t2 then (true, { s' with t2 := s'.t2.erase i })
    else (true, s')
  else (false, (s.removeFromGhostB1 i).removeFromGhostB2 i)

def clear : Inner :=
  { s with entries := fun _ => none, t1 := [], t2 := [], b1 := [], b2 := [], b1Set := ∅,
           b2Set := ∅, currentBytes := 0, p := 0 }

/-- The new budget, cap and target of `set_max_bytes`, before anything is evicted. -/
def withBudget (newMax : ℕ) : Inner :=
  { s with maxBytes := newMax, ghostCap := ghostCapOf newMax, p := min s.p (ghostCapOf newMax) }

/-- A round of the loop of `set_max_bytes`. -/
def shrink : Option (Bool × Inner) :=
  if s.maxBytes < s.currentBytes then s.evictAny else some (false, s)

def setMaxBytes (newMax : ℕ) : Option Inner :=
  loop shrink (s.evictable + 1) (s.withBudget newMax)

end Inner

/-! ### The system -/

/-- A budget below 2^50. -/
abbrev Budget := Fin (2 ^ 50)

inductive Op
  | insert (i : PieceIndex) (data : Bytes)
  | get (i : PieceIndex)
  | remove (i : PieceIndex)
  | clear
  | setMaxBytes (newMax : Budget)

/-- The cache after the operation, if it returns. -/
def step (s : Inner) : Op → Option Inner
  | .insert i data => s.insert i data
  | .get i => some (s.get i).2
  | .remove i => some (s.remove i).2
  | .clear => some s.clear
  | .setMaxBytes newMax => s.setMaxBytes newMax

end CncContent.Cache.PieceDataCache
