import CncContent.Lib.Bounded
import CncContent.Lib.Checks
import Mathlib.Data.List.Basic

/-! # Metadata exchange

`MetadataExchange` of the source: the metadata of a torrent is received in blocks, in any order and
from any peer, and accepted if its SHA-1 is the info hash. SHA-1 is a parameter. An operation that
reports a result returns it next to the new state; a failed operation may have changed the state. -/

namespace CncContent.Metadata.Exchange

open CncContent.Lib.Bounded CncContent.Lib.Checks

def metadataBlockSize : ℕ := 16384

def maxMetadataSize : ℕ := 10 * 1024 * 1024

/-- A SHA-1 digest. -/
abbrev Digest := Vector UInt8 20

inductive BlockStatus
  | missing
  | pending
  | received
deriving DecidableEq, Repr

inductive MetadataError
  | tooLarge (size max : ℕ)
  | emptyMetadata
  | sizeMismatch (expected received : ℕ)
  | invalidBlock (index count : ℕ)
  | blockSizeMismatch (piece expected received : ℕ)
  | incomplete (received total : ℕ)
  | hashMismatch (expected actual : Digest)
deriving DecidableEq, Repr

structure MetadataExchange where
  infoHash : Digest
  metadataSize : Option ℕ
  blocks : List BlockStatus
  buffer : List UInt8
  verified : Bool
deriving DecidableEq, Repr

/-- `div_ceil` by the block size. -/
def blocksFor (size : ℕ) : ℕ := (size + metadataBlockSize - 1) / metadataBlockSize

/-- Copies the bytes to the offset, if the buffer has the range. -/
def copyInto (buffer : List UInt8) (offset : ℕ) (bytes : List UInt8) : List UInt8 :=
  if offset + bytes.length ≤ buffer.length then
    buffer.take offset ++ bytes ++ buffer.drop (offset + bytes.length)
  else buffer

namespace MetadataExchange

def new (infoHash : Digest) : MetadataExchange := ⟨infoHash, none, [], [], false⟩

variable (ex : MetadataExchange)

def setMetadataSize (size : ℕ) : Except MetadataError MetadataExchange := do
  refuse (maxMetadataSize < size) (.tooLarge size maxMetadataSize)
  refuse (size = 0) .emptyMetadata
  return { ex with
    metadataSize := some size
    blocks := List.replicate (blocksFor size) .missing
    buffer := List.replicate size 0 }

def markPending (piece : ℕ) : MetadataExchange :=
  { ex with blocks := ex.blocks.modify piece fun s => if s = .missing then .pending else s }

def handleReject (piece : ℕ) : MetadataExchange :=
  { ex with blocks := ex.blocks.modify piece fun s => if s = .pending then .missing else s }

/-! ### Receiving a block -/

def offset (piece : ℕ) : ℕ := satMul u64Max piece metadataBlockSize

/-- The size the block has to have. -/
def expectedLen (piece : ℕ) : ℕ := min metadataBlockSize (ex.metadataSize.getD 0 - offset piece)

/-- The checks of `receive_block`, once a size is known. -/
def checkBlock (piece totalSize : ℕ) (payload : List UInt8) : Except MetadataError Unit := do
  refuse (totalSize ≠ ex.metadataSize.getD 0) (.sizeMismatch (ex.metadataSize.getD 0) totalSize)
  refuse (ex.blocks.length ≤ piece) (.invalidBlock piece (asU32 ex.blocks.length))
  refuse (payload.length ≠ ex.expectedLen piece)
    (.blockSizeMismatch piece (ex.expectedLen piece) payload.length)

/-- The block is copied into the buffer and marked. -/
def storeBlock (piece : ℕ) (payload : List UInt8) : MetadataExchange :=
  { ex with
    buffer := copyInto ex.buffer (offset piece) payload
    blocks := ex.blocks.modify piece fun _ => .received }

/-- The size of the first message is adopted. -/
def adoptSize (totalSize : ℕ) : Except MetadataError MetadataExchange :=
  if ex.metadataSize.isNone then ex.setMetadataSize totalSize else .ok ex

def receiveBlock (piece totalSize : ℕ) (payload : List UInt8) :
    MetadataExchange × Except MetadataError Unit :=
  match ex.adoptSize totalSize with
  | .error e => (ex, .error e)
  | .ok ex =>
    match ex.checkBlock piece totalSize payload with
    | .error e => (ex, .error e)
    | .ok () => (ex.storeBlock piece payload, .ok ())

/-! ### Verification -/

def allBlocksReceived : Bool := !ex.blocks.isEmpty && ex.blocks.all (· = .received)

def isComplete : Bool := ex.verified

def receivedCount : ℕ := asU32 (ex.blocks.countP (· = .received))

variable (sha1 : List UInt8 → Digest)

def verify : MetadataExchange × Except MetadataError (List UInt8) :=
  if ex.allBlocksReceived = false then
    (ex, .error (.incomplete ex.receivedCount (asU32 ex.blocks.length)))
  else if sha1 ex.buffer ≠ ex.infoHash then
    ({ ex with blocks := ex.blocks.map fun _ => .missing },
      .error (.hashMismatch ex.infoHash (sha1 ex.buffer)))
  else ({ ex with verified := true }, .ok ex.buffer)

end MetadataExchange

/-! ### Calls -/

inductive Call
  | setMetadataSize (size : ℕ)
  | markPending (piece : ℕ)
  | receiveBlock (piece totalSize : ℕ) (payload : List UInt8)
  | handleReject (piece : ℕ)
  | verify
deriving DecidableEq, Repr

/-- The state after a call. -/
def MetadataExchange.apply (sha1 : List UInt8 → Digest) (ex : MetadataExchange) :
    Call → MetadataExchange
  | .setMetadataSize size =>
    match ex.setMetadataSize size with
    | .ok ex => ex
    | .error _ => ex
  | .markPending piece => ex.markPending piece
  | .receiveBlock piece totalSize payload => (ex.receiveBlock piece totalSize payload).1
  | .handleReject piece => ex.handleReject piece
  | .verify => (ex.verify sha1).1

namespace MetadataExchange

/-! ### What the operations do -/

variable {ex ex' : MetadataExchange}

/-- A size that is adopted. -/
def SizeOk (size : ℕ) : Prop := 0 < size ∧ size ≤ maxMetadataSize

instance (size : ℕ) : Decidable (SizeOk size) := inferInstanceAs (Decidable (_ ∧ _))

/-- The exchange with nothing received. -/
def sized (ex : MetadataExchange) (size : ℕ) : MetadataExchange :=
  { ex with
    metadataSize := some size
    blocks := List.replicate (blocksFor size) .missing
    buffer := List.replicate size 0 }

theorem setMetadataSize_of_sizeOk {size : ℕ} (h : SizeOk size) :
    ex.setMetadataSize size = .ok (ex.sized size) := by
  have hlarge : decide (maxMetadataSize < size) = false := decide_eq_false (by have := h.2; omega)
  have hzero : decide (size = 0) = false := decide_eq_false (by have := h.1; omega)
  unfold setMetadataSize
  rw [hlarge, hzero]
  rfl

theorem setMetadataSize_of_not {size : ℕ} (h : ¬ SizeOk size) :
    ∃ e, ex.setMetadataSize size = .error e := by
  unfold setMetadataSize
  by_cases hlarge : maxMetadataSize < size
  · rw [decide_eq_true hlarge]
    exact ⟨_, rfl⟩
  · have hzero : size = 0 := by
      by_contra hne
      exact h ⟨by omega, by omega⟩
    rw [decide_eq_false hlarge, decide_eq_true hzero]
    exact ⟨_, rfl⟩

theorem apply_setMetadataSize (sha1 : List UInt8 → Digest) (size : ℕ) :
    ex.apply sha1 (.setMetadataSize size) = if SizeOk size then ex.sized size else ex := by
  unfold apply
  dsimp only
  split_ifs with h
  · rw [setMetadataSize_of_sizeOk h]
  · obtain ⟨e, he⟩ : ∃ e, ex.setMetadataSize size = .error e := setMetadataSize_of_not h
    rw [he]

/-- The block and the size are those of the exchange. -/
structure Fits (ex : MetadataExchange) (piece totalSize : ℕ) (payload : List UInt8) : Prop where
  size : totalSize = ex.metadataSize.getD 0
  index : piece < ex.blocks.length
  length : payload.length = ex.expectedLen piece

theorem checkBlock_eq_ok_iff {piece totalSize : ℕ} {payload : List UInt8} :
    ex.checkBlock piece totalSize payload = .ok () ↔ ex.Fits piece totalSize payload := by
  unfold checkBlock
  simp only [bind_eq_ok, refuse_eq_ok, decide_eq_false_iff_not, not_not, Nat.not_le]
  constructor
  · rintro ⟨-, hsize, -, hindex, hlen⟩
    exact ⟨hsize, hindex, hlen⟩
  · rintro ⟨hsize, hindex, hlen⟩
    exact ⟨(), hsize, (), hindex, hlen⟩

/-- The exchange with the size of a message adopted, if it may be. -/
def adopted (ex : MetadataExchange) (totalSize : ℕ) : MetadataExchange :=
  if ex.metadataSize = none ∧ SizeOk totalSize then ex.sized totalSize else ex

theorem adopted_of_sized {n : ℕ} (h : ex.metadataSize = some n) (totalSize : ℕ) :
    ex.adopted totalSize = ex := by
  unfold adopted
  rw [if_neg]
  rw [h]
  exact fun hc => nomatch hc.1

theorem adoptSize_cases (ex : MetadataExchange) (totalSize : ℕ) :
    ex.adoptSize totalSize = .ok (ex.adopted totalSize) ∨
    (ex.adopted totalSize = ex ∧ ex.metadataSize = none ∧
      ∃ e, ex.adoptSize totalSize = .error e) := by
  cases hsize : ex.metadataSize with
  | some n =>
    left
    unfold adoptSize
    rw [adopted_of_sized hsize, hsize]
    rfl
  | none =>
    have hadopt : ex.adoptSize totalSize = ex.setMetadataSize totalSize := by
      unfold adoptSize
      rw [hsize]
      rfl
    unfold adopted
    rw [hadopt]
    by_cases hok : SizeOk totalSize
    · rw [if_pos ⟨hsize, hok⟩]
      exact Or.inl (setMetadataSize_of_sizeOk hok)
    · rw [if_neg fun hc => hok hc.2]
      exact Or.inr ⟨rfl, rfl, setMetadataSize_of_not hok⟩

/-- **Receiving a block**: once a size is known, it is stored exactly if it fits. -/
theorem receiveBlock_cases (ex : MetadataExchange) (piece totalSize : ℕ) (payload : List UInt8) :
    ((ex.adopted totalSize).Fits piece totalSize payload ∧
      ex.receiveBlock piece totalSize payload =
        ((ex.adopted totalSize).storeBlock piece payload, .ok ())) ∨
    (((ex.adopted totalSize).metadataSize = none ∨
        ¬ (ex.adopted totalSize).Fits piece totalSize payload) ∧
      ∃ e, ex.receiveBlock piece totalSize payload = (ex.adopted totalSize, .error e)) := by
  unfold receiveBlock
  rcases ex.adoptSize_cases totalSize with hadopt | ⟨hsame, hnone, e, hadopt⟩
  · rw [hadopt]
    dsimp only
    rcases hcheck : (ex.adopted totalSize).checkBlock piece totalSize payload with e | ⟨⟩
    · refine Or.inr ⟨Or.inr fun hfits => ?_, e, rfl⟩
      rw [checkBlock_eq_ok_iff.mpr hfits] at hcheck
      cases hcheck
    · exact Or.inl ⟨checkBlock_eq_ok_iff.mp hcheck, rfl⟩
  · rw [hadopt, hsame]
    exact Or.inr ⟨Or.inl hnone, e, rfl⟩

/-! ### What a failed call changes -/

/-- A refused block leaves nothing but the size of its message. -/
theorem receiveBlock_of_error {piece totalSize : ℕ} {payload : List UInt8} {e : MetadataError}
    (h : (ex.receiveBlock piece totalSize payload).2 = .error e) :
    (ex.receiveBlock piece totalSize payload).1 = ex.adopted totalSize := by
  rcases ex.receiveBlock_cases piece totalSize payload with ⟨-, hok⟩ | ⟨-, e', herror⟩
  · rw [hok] at h
    cases h
  · rw [herror]

theorem adopted_eq_self_iff {totalSize : ℕ} :
    ex.adopted totalSize = ex ↔ ¬ (ex.metadataSize = none ∧ SizeOk totalSize) := by
  unfold adopted
  split_ifs with h
  · refine ⟨fun hsame => ?_, fun hnot => absurd h hnot⟩
    have hsize : some totalSize = ex.metadataSize := congrArg metadataSize hsame
    rw [h.1] at hsize
    cases hsize
  · exact ⟨fun _ => h, fun _ => rfl⟩

/-- **A call that fails** leaves the exchange as it is, except that the first message of a size within the
limits fixes the size, also if its block is refused: the exchange is then the one with that size and
nothing received. -/
theorem receiveBlock_error (ex : MetadataExchange) (piece totalSize : ℕ) (payload : List UInt8)
    (e : MetadataError) (h : (ex.receiveBlock piece totalSize payload).2 = .error e) :
    (¬ (ex.metadataSize = none ∧ SizeOk totalSize) →
      (ex.receiveBlock piece totalSize payload).1 = ex) ∧
    (ex.metadataSize = none ∧ SizeOk totalSize →
      (ex.receiveBlock piece totalSize payload).1 = { ex with
        metadataSize := some totalSize
        blocks := List.replicate (blocksFor totalSize) .missing
        buffer := List.replicate totalSize 0 } ∧
      ex.setMetadataSize totalSize = .ok (ex.receiveBlock piece totalSize payload).1) := by
  rw [receiveBlock_of_error h]
  refine ⟨adopted_eq_self_iff.mpr, fun hfirst => ?_⟩
  have hadopted : ex.adopted totalSize = ex.sized totalSize := if_pos hfirst
  exact ⟨hadopted, hadopted ▸ setMetadataSize_of_sizeOk hfirst.2⟩

/-- A fresh exchange, and a block of the right size at an index that does not exist. -/
theorem receiveBlock_error_fresh :
    let ex := MetadataExchange.new (Vector.replicate 20 0)
    (ex.receiveBlock 5 1 [7]).1 = { ex with
      metadataSize := some 1
      blocks := List.replicate (blocksFor 1) .missing
      buffer := List.replicate 1 0 } :=
  ((receiveBlock_error (MetadataExchange.new (Vector.replicate 20 0)) 5 1 [7] (.invalidBlock 5 1)
    (by decide)).2 (by decide)).1

theorem refused_block_changes_size :
    let ex := MetadataExchange.new (Vector.replicate 20 0)
    (ex.receiveBlock 5 1 [7]).2 = .error (.invalidBlock 5 1) ∧
      (ex.receiveBlock 5 1 [7]).1.metadataSize = some 1 ∧ ex.metadataSize = none := by
  decide

end MetadataExchange

end CncContent.Metadata.Exchange
