import CncContent.Lib.Maps
import CncContent.Lib.Bounded
import CncContent.Storage.Backend

/-! # Tiered storage

`TieringStorage` over two backends of the same size, each of which holds bytes and reads short at its end
only. Every call of a backend may fail and then changes nothing; the faults that a call meets are given
with it. The records of the accesses are left out: nothing here reads them. -/

namespace CncContent.Storage.Tiering

open CncContent.Lib.Bounded CncContent.Lib.Maps CncContent.Lib.Overlay CncContent.Storage.Backend

inductive Tier
  | hot
  | cold
deriving DecidableEq, Repr

structure TieringStorage where
  hot : ℕ → UInt8
  cold : ℕ → UInt8
  pieceLength : ℕ
  size : ℕ
  tiers : Table ℕ Tier

/-- What the calls of the backends meet during a call of the storage. -/
structure Faults where
  hotRead : Option StorageError
  hotWrite : Option StorageError
  coldRead : Option StorageError
  coldWrite : Option StorageError
deriving DecidableEq, Repr

/-- A read of a backend. -/
def readBackend (size : ℕ) (content : ℕ → UInt8) (offset len : ℕ) : List UInt8 :=
  window content offset (min len (size - offset))

namespace TieringStorage

variable (s : TieringStorage)

def tierOf (pieceIndex : ℕ) : Option Tier := s.tiers.get? pieceIndex

def readHot (offset len : ℕ) : List UInt8 := readBackend s.size s.hot offset len

def readCold (offset len : ℕ) : List UInt8 := readBackend s.size s.cold offset len

def writeHot (offset : ℕ) (data : List UInt8) : TieringStorage :=
  { s with hot := overlay s.hot offset data }

def writeCold (offset : ℕ) (data : List UInt8) : TieringStorage :=
  { s with cold := overlay s.cold offset data }

def setTier (pieceIndex : ℕ) (tier : Tier) : TieringStorage :=
  { s with tiers := s.tiers.alter pieceIndex fun _ => tier }

def offsetToPiece (offset : ℕ) : Except StorageError ℕ :=
  if s.pieceLength = 0 then .error (.failed "piece_length is zero")
  else
    let idx := offset / s.pieceLength
    if u32Max < idx then
      .error (.failed s!"piece index {idx} exceeds u32::MAX at offset {offset}")
    else .ok idx

/-- Where a demotion takes the bytes of a piece. -/
def pieceOffset (pieceIndex : ℕ) : ℕ := satMul u64Max pieceIndex s.pieceLength

/-- A buffer for a piece that cannot be allocated is a panic. -/
def demote (pieceIndex : ℕ) (faults : Faults) : Option (Except StorageError Unit) × TieringStorage :=
  if s.tierOf pieceIndex = some .cold then (some (.ok ()), s)
  else if isizeMax < s.pieceLength then (none, s)
  else
    match faults.hotRead with
    | some e => (some (.error e), s)
    | none =>
      let data := s.readHot (s.pieceOffset pieceIndex) s.pieceLength
      match faults.coldWrite with
      | some e => (some (.error e), s)
      | none =>
        (some (.ok ()), (s.writeCold (s.pieceOffset pieceIndex) data).setTier pieceIndex .cold)

def writePiece (pieceIndex offset : ℕ) (data : List UInt8) (faults : Faults) :
    Except StorageError Unit × TieringStorage :=
  match faults.hotWrite with
  | some e => (.error e, s)
  | none => (.ok (), (s.writeHot offset data).setTier pieceIndex .hot)

/-- The promotion of what has been read from the cold tier; it may fail. -/
def promote (offset : ℕ) (data : List UInt8) (faults : Faults) : TieringStorage :=
  match faults.hotWrite with
  | some _ => s
  | none => s.writeHot offset data

def readPiece (offset len : ℕ) (faults : Faults) :
    Except StorageError (List UInt8) × TieringStorage :=
  match s.offsetToPiece offset with
  | .error e => (.error e, s)
  | .ok pieceIndex =>
    match s.tierOf pieceIndex with
    | some .cold =>
      match faults.coldRead with
      | some e => (.error e, s)
      | none =>
        let data := s.readCold offset len
        (.ok data, (s.promote offset data faults).setTier pieceIndex .hot)
    | some .hot | none =>
      match faults.hotRead with
      | some e => (.error e, s)
      | none => (.ok (s.readHot offset len), s)

/-- The position lies in the piece. -/
def InPiece (pieceIndex x : ℕ) : Prop :=
  pieceIndex * s.pieceLength ≤ x ∧ x < (pieceIndex + 1) * s.pieceLength

/-- The range lies in the piece and in the torrent. -/
def RangeIn (pieceIndex offset len : ℕ) : Prop :=
  pieceIndex * s.pieceLength ≤ offset ∧ offset + len ≤ (pieceIndex + 1) * s.pieceLength ∧
    offset + len ≤ s.size

instance (pieceIndex x : ℕ) : Decidable (s.InPiece pieceIndex x) := inferInstanceAs (Decidable (_ ∧ _))

instance (pieceIndex offset len : ℕ) : Decidable (s.RangeIn pieceIndex offset len) :=
  inferInstanceAs (Decidable (_ ∧ _ ∧ _))

/-! ### Pieces -/

section Pieces

variable {s} {i j x offset len : ℕ}

theorem tierOf_setTier {tier : Tier} :
    (s.setTier i tier).tierOf j = if j = i then some tier else s.tierOf j := Table.get?_alter

/-- A piece that is cold after another one has become hot was so before. -/
theorem cold_of_setHot (h : (s.setTier i .hot).tierOf j = some .cold) :
    j ≠ i ∧ s.tierOf j = some .cold := by
  rw [tierOf_setTier] at h
  by_cases hji : j = i
  · rw [if_pos hji] at h
    cases h
  · rw [if_neg hji] at h
    exact ⟨hji, h⟩

/-- Two pieces have no position in common. -/
theorem eq_of_inPiece (hi : s.InPiece i x) (hj : s.InPiece j x) : i = j := by
  have hij : i < j + 1 := Nat.lt_of_mul_lt_mul_right (Nat.lt_of_le_of_lt hi.1 hj.2)
  have hji : j < i + 1 := Nat.lt_of_mul_lt_mul_right (Nat.lt_of_le_of_lt hj.1 hi.2)
  omega

theorem inPiece_of_within (h : s.RangeIn i offset len) (hx : Within offset len x) : s.InPiece i x :=
  ⟨Nat.le_trans h.1 hx.1, Nat.lt_of_lt_of_le hx.2 h.2.1⟩

theorem offsetToPiece_eq (h : s.offsetToPiece offset = .ok i) : offset / s.pieceLength = i := by
  unfold offsetToPiece at h
  dsimp only at h
  split_ifs at h
  exact Except.ok.inj h

/-- A read starts in its piece. -/
theorem offsetToPiece_le (h : s.offsetToPiece offset = .ok i) : i * s.pieceLength ≤ offset := by
  rw [← offsetToPiece_eq h]
  exact Nat.div_mul_le_self offset s.pieceLength

/-- A demotion takes the bytes of the piece that lie in the torrent. -/
theorem within_readHot (hsize : s.size ≤ u64Max) (hx : s.InPiece i x) (hlt : x < s.size) :
    Within (s.pieceOffset i) (min s.pieceLength (s.size - s.pieceOffset i)) x := by
  have hle := hx.1
  have hup := hx.2
  have hoff : s.pieceOffset i = i * s.pieceLength := by
    unfold pieceOffset satMul
    omega
  rw [Nat.add_mul, Nat.one_mul] at hup
  rw [hoff]
  constructor <;> omega

/-- A read inside the torrent is not short. -/
theorem readBackend_of_rangeIn (h : s.RangeIn i offset len) (content : ℕ → UInt8) :
    readBackend s.size content offset len = window content offset len := by
  have hmin : min len (s.size - offset) = len := by
    have := h.2.2
    omega
  unfold readBackend
  rw [hmin]

end Pieces

end TieringStorage

end CncContent.Storage.Tiering
