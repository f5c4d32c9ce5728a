import CncContent.Storage.Backend
import CncContent.Lib.Bounded
import Mathlib.Data.List.Sort

/-! # Write coalescing

The model of `CoalescingStorage`: writes are collected in a buffer and drained to the inner storage,
sorted by offset, when the buffer reaches the threshold or on `flush`. An error of the inner storage
leaves the drain early, and the iterator of `drain(..)` then drops what it has not handed out, so
the buffer is empty after a drain in every case.

`logged` is an inner storage together with the list of the writes it has performed; a `Session`
records what the caller was told, and reads nothing of it. -/

namespace CncContent.Storage.Coalescing

open CncContent.Lib.Bounded CncContent.Lib.Overlay
open CncContent.Storage.Backend

structure BufferedWrite where
  offset : ℕ
  pieceIndex : ℕ
  data : List UInt8
deriving DecidableEq, Repr

structure CoalescingStorage (σ : Type) where
  inner : σ
  buffer : List BufferedWrite
  flushThreshold : ℕ
deriving DecidableEq

section Operations

variable {σ : Type} (S : PieceStorage σ)

def new (inner : σ) (flushThreshold : ℕ) : CoalescingStorage σ := ⟨inner, [], flushThreshold⟩

/-- `sort_by_key` on the offset, a stable sort. -/
def sortByOffset (ws : List BufferedWrite) : List BufferedWrite :=
  ws.insertionSort fun w w' => w.offset ≤ w'.offset

/-- The loop over `drain(..)`, with its early return. -/
def drain : σ → List BufferedWrite → Except StorageError Unit × σ
  | inner, [] => (.ok (), inner)
  | inner, w :: ws =>
    match S.writePiece inner w.pieceIndex w.offset w.data with
    | (.ok _, inner') => drain inner' ws
    | (.error e, inner') => (.error e, inner')

def flushBuffer (st : CoalescingStorage σ) : Except StorageError Unit × CoalescingStorage σ :=
  if st.buffer = [] then (.ok (), st)
  else
    match drain S st.inner (sortByOffset st.buffer) with
    | (.ok _, inner) => ((S.flush inner).1, { st with inner := (S.flush inner).2, buffer := [] })
    | (.error e, inner) => (.error e, { st with inner := inner, buffer := [] })

/-- The buffer, with the write just made, has reached the threshold. -/
def autoFlush (st : CoalescingStorage σ) (data : List UInt8) : Bool :=
  decide (0 < st.flushThreshold) && decide (st.flushThreshold ≤
    satAdd u64Max (st.buffer.map fun w => w.data.length).sum data.length)

def writePiece (st : CoalescingStorage σ) (pieceIndex offset : ℕ) (data : List UInt8) :
    Except StorageError Unit × CoalescingStorage σ :=
  let st' := { st with buffer := st.buffer ++ [⟨offset, pieceIndex, data⟩] }
  if autoFlush st data then flushBuffer S st' else (.ok (), st')

/-- **The wrapper is a storage itself.** Reads go to the inner storage. -/
def coalescing : PieceStorage (CoalescingStorage σ) where
  writePiece := writePiece S
  readPiece st offset len := S.readPiece st.inner offset len
  flush := flushBuffer S

end Operations

/-! ### What a caller sees -/

section Session

variable {σ : Type} (S : PieceStorage σ)

/-- The inner storage, with the list of the writes it has performed. -/
def logged : PieceStorage (σ × List BufferedWrite) where
  writePiece s i off data :=
    match S.writePiece s.1 i off data with
    | (.ok u, inner) => (.ok u, inner, s.2 ++ [⟨off, i, data⟩])
    | (.error e, inner) => (.error e, inner, s.2)
  readPiece s off len := S.readPiece s.1 off len
  flush s := ((S.flush s.1).1, (S.flush s.1).2, s.2)

/-- The storage, the writes that were answered with `Ok` and with `Err`, and whether the last call
was a `flush` that returned `Ok`. -/
structure Session (σ : Type) where
  storage : CoalescingStorage (σ × List BufferedWrite)
  accepted : List BufferedWrite
  rejected : List BufferedWrite
  flushed : Bool
deriving DecidableEq

/-- The writes the inner storage has performed. -/
def Session.delivered {σ : Type} (s : Session σ) : List BufferedWrite := s.storage.inner.2

def Session.start (inner : σ) (flushThreshold : ℕ) : Session σ :=
  ⟨new (inner, []) flushThreshold, [], [], false⟩

/-- A call. -/
inductive Op
  | writePiece (w : BufferedWrite)
  | flush
deriving DecidableEq

def Session.call (s : Session σ) : Op → Session σ
  | .writePiece w =>
    match (coalescing (logged S)).writePiece s.storage w.pieceIndex w.offset w.data with
    | (.ok _, st) => ⟨st, s.accepted ++ [w], s.rejected, false⟩
    | (.error _, st) => ⟨st, s.accepted, s.rejected ++ [w], false⟩
  | .flush =>
    match (coalescing (logged S)).flush s.storage with
    | (.ok _, st) => ⟨st, s.accepted, s.rejected, true⟩
    | (.error _, st) => ⟨st, s.accepted, s.rejected, false⟩

/-- A call is always possible. -/
def Session.step (s : Session σ) (op : Op) : Option (Session σ) := some (s.call S op)

/-- The writes a drain of `ws` does not deliver: those from the first one that fails on. -/
def undelivered : σ → List BufferedWrite → List BufferedWrite
  | _, [] => []
  | inner, w :: ws =>
    match S.writePiece inner w.pieceIndex w.offset w.data with
    | (.ok _, inner') => undelivered inner' ws
    | (.error _, _) => w :: ws

/-- **No accepted write is lost by the call**: if it drains the buffer, then every write it does not
deliver is the very write being made, which the caller is told about. -/
def KeepsAccepted (s : Session σ) : Op → Prop
  | .writePiece w => autoFlush s.storage w.data = true →
    (undelivered S s.storage.inner.1 (sortByOffset (s.storage.buffer ++ [w]))).Sublist [w]
  | .flush => undelivered S s.storage.inner.1 (sortByOffset s.storage.buffer) = []

instance decidableKeepsAccepted (s : Session σ) : ∀ op, Decidable (KeepsAccepted S s op)
  | .writePiece w => inferInstanceAs (Decidable (autoFlush s.storage w.data = true → _))
  | .flush => inferInstanceAs (Decidable (_ = []))

end Session

end CncContent.Storage.Coalescing
