import CncContent.Lib.Overlay

/-! # Piece storage

The trait `PieceStorage` over a state: what a backend does with a write, a read and a flush. Every
operation may fail, and the state may decide when. A backend is `Lawful` for a view of its bytes if
a successful write puts the data at its offset, a failed one touches no byte outside the range it
was asked to write, and a flush changes no byte. -/

namespace CncContent.Storage.Backend

open CncContent.Lib.Overlay

/-- An `io::Error`. -/
structure IoError where
  kind : String
  message : String
deriving DecidableEq, Repr

inductive StorageError
  | io (offset : ℕ) (source : IoError)
  | failed (reason : String)
deriving DecidableEq, Repr

/-- `Display` of an error. -/
def StorageError.display : StorageError → String
  | .io offset source =>
    let source := source.message
    s!"storage I/O error at offset {offset}: {source}"
  | .failed reason => s!"storage is in a failed state: {reason}"

/-- A backend over states `σ`. A read is given the length of the buffer and returns the bytes put
into it. -/
structure PieceStorage (σ : Type) where
  writePiece : σ → ℕ → ℕ → List UInt8 → Except StorageError Unit × σ
  readPiece : σ → ℕ → ℕ → Except StorageError (List UInt8)
  flush : σ → Except StorageError Unit × σ

/-- The backend stores bytes, as `view` shows them. -/
structure PieceStorage.Lawful {σ : Type} (S : PieceStorage σ) (view : σ → ℕ → UInt8) : Prop where
  write_ok : ∀ s i off data, (S.writePiece s i off data).1 = .ok () →
    view (S.writePiece s i off data).2 = overlay (view s) off data
  write_error : ∀ s i off data x, ¬ Within off data.length x →
    view (S.writePiece s i off data).2 x = view s x
  flush : ∀ s, view (S.flush s).2 = view s

/-! ### In memory -/

/-- `MemoryStorage`, without the lock: a buffer of fixed size. -/
def memoryStorage : PieceStorage (List UInt8) where
  writePiece buf _ offset data :=
    if offset + data.length ≤ buf.length then
      (.ok (), buf.take offset ++ data ++ buf.drop (offset + data.length))
    else
      (.error (.io offset ⟨"InvalidInput", "write extends past end of storage"⟩), buf)
  readPiece buf offset len :=
    if offset ≤ buf.length then .ok ((buf.drop offset).take len)
    else .error (.io offset ⟨"InvalidInput", "read past end of storage"⟩)
  flush buf := (.ok (), buf)

end CncContent.Storage.Backend
