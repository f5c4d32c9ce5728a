import CncContent.Lib.Bounded
import CncContent.Lib.Bytes

/-! # Torrent metadata

The part of the torrent metadata the coordinator uses. The pieces of a well-formed torrent divide
the file: each piece lies inside it (`piece_end_le`) and no two overlap (`pieces_disjoint`). -/

namespace CncContent.Torrent.Info

open CncContent.Lib.Bounded CncContent.Lib.Bytes

structure TorrentInfo where
  pieceLength : ℕ
  pieceHashes : List UInt8
  fileSize : ℕ
deriving DecidableEq, Repr

namespace TorrentInfo

variable (info : TorrentInfo)

def pieceCount : ℕ := asU32 (info.pieceHashes.length / 20)

def pieceHash (index : ℕ) : Option (List UInt8) := do
  let start ← checkedMul u64Max index 20
  let stop ← checkedAdd u64Max start 20
  slice info.pieceHashes start stop

def pieceOffset (index : ℕ) : ℕ := satMul u64Max index info.pieceLength

def pieceSize (index : ℕ) : ℕ :=
  asU32 (min (info.fileSize - info.pieceOffset index) info.pieceLength)

/-- The piece length is positive and there are as many pieces as the file needs, so that the last
one may be shorter. -/
structure WellFormed : Prop where
  pieceLength : 0 < info.pieceLength
  fileSize : info.fileSize ≤ u64Max
  pieceCount : info.pieceCount = (info.fileSize + info.pieceLength - 1) / info.pieceLength

/-- Every piece hash is the digest of one byte string only, which has the size of the piece. For a
hash function without collisions this says that the hashes were computed from the pieces. -/
def Genuine (sha1 : List UInt8 → List UInt8) : Prop :=
  ∀ i < info.pieceCount, ∃ d : List UInt8, d.length = info.pieceSize i ∧
    info.pieceHash i = some (sha1 d) ∧ ∀ d', sha1 d' = sha1 d → d' = d

variable {info}

/-- Every piece has a hash. -/
theorem exists_pieceHash {i : ℕ} (hi : i < info.pieceCount) : ∃ hash, info.pieceHash i = some hash := by
  have hlt : i < u32Max + 1 := hi.trans (asU32_lt _)
  have hle : i < info.pieceHashes.length / 20 := hi.trans_le (asU32_le _)
  have hmax : u32Max * 20 + 20 ≤ u64Max := by decide
  unfold pieceHash checkedMul checkedAdd slice
  rw [if_pos (by omega), Option.bind_eq_bind, Option.bind_some, if_pos (by omega), Option.bind_some,
    if_pos (by omega)]
  exact ⟨_, rfl⟩

/-- A piece starts inside the file. -/
theorem pieceOffset_eq (h : info.WellFormed) {i : ℕ} (hi : i < info.pieceCount) :
    info.pieceOffset i = i * info.pieceLength ∧ i * info.pieceLength < info.fileSize := by
  have hpos := h.pieceLength
  have hsize := h.fileSize
  rw [h.pieceCount, Nat.lt_iff_add_one_le, Nat.le_div_iff_mul_le hpos, Nat.add_mul] at hi
  have hlt : i * info.pieceLength < info.fileSize := by omega
  unfold pieceOffset satMul
  exact ⟨by omega, hlt⟩

theorem pieceSize_le (info : TorrentInfo) (i : ℕ) : info.pieceSize i ≤ info.pieceLength :=
  le_trans (asU32_le _) (min_le_right _ _)

/-- **Each piece lies inside the file.** -/
theorem piece_end_le (h : info.WellFormed) {i : ℕ} (hi : i < info.pieceCount) :
    info.pieceOffset i + info.pieceSize i ≤ info.fileSize := by
  obtain ⟨hoff, hlt⟩ := pieceOffset_eq h hi
  have hsize : info.pieceSize i ≤ info.fileSize - info.pieceOffset i :=
    le_trans (asU32_le _) (min_le_left _ _)
  omega

/-- **No two pieces overlap.** -/
theorem pieces_disjoint (h : info.WellFormed) {i j : ℕ} (hi : i < info.pieceCount)
    (hj : j < info.pieceCount) (hne : i ≠ j) :
    info.pieceOffset i + info.pieceSize i ≤ info.pieceOffset j ∨
      info.pieceOffset j + info.pieceSize j ≤ info.pieceOffset i := by
  rw [(pieceOffset_eq h hi).1, (pieceOffset_eq h hj).1]
  have hsi := pieceSize_le info i
  have hsj := pieceSize_le info j
  rcases Nat.lt_or_gt_of_ne hne with hlt | hlt
  · have hmul := Nat.mul_le_mul_right info.pieceLength (Nat.succ_le_of_lt hlt)
    rw [Nat.succ_mul] at hmul
    omega
  · have hmul := Nat.mul_le_mul_right info.pieceLength (Nat.succ_le_of_lt hlt)
    rw [Nat.succ_mul] at hmul
    omega

end TorrentInfo

end CncContent.Torrent.Info
