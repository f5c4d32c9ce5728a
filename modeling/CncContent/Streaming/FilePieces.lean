import CncContent.Lib.Bounded
import Mathlib.Data.List.Sort

/-! # The pieces of a file

`PieceMapping` and `BufferPolicy::head_tail_priority_pieces` of the source. The pieces that a range of
bytes touches are those from the piece of its first byte to the piece of its last one (`touches_iff`). An
empty range touches none, but the source has no empty range of pieces, and takes the first byte as the
last one too. So an empty file has a piece, or, behind the end of the last piece, a range of pieces whose
length underflows (`priority_iff`). -/

namespace CncContent.Streaming.FilePieces

open CncContent.Lib.Bounded

structure PieceMapping where
  fileOffsetInTorrent : ℕ
  pieceSize : ℕ
  totalPieces : ℕ
  fileSize : ℕ
deriving DecidableEq, Repr

/-- The fields that `head_tail_priority_pieces` reads. -/
structure BufferPolicy where
  headPieces : ℕ
  tailPieces : ℕ
deriving DecidableEq, Repr

/-- The difference, if it is not negative. -/
def checkedSub (a b : ℕ) : Option ℕ := if b ≤ a then some (a - b) else none

def checkedDiv (a b : ℕ) : Option ℕ := if b = 0 then none else some (a / b)

namespace PieceMapping

variable (m : PieceMapping)

/-- The first and the last piece; nothing is a panic. -/
def piecesForRange (offset len : ℕ) : Option (ℕ × ℕ) := do
  let torrentStart ← checkedAdd u64Max m.fileOffsetInTorrent offset
  let torrentEnd ← checkedAdd u64Max torrentStart (len - 1)
  let firstPiece := asU32 (← checkedDiv torrentStart m.pieceSize)
  let lastPiece := min (asU32 (← checkedDiv torrentEnd m.pieceSize)) (← checkedSub m.totalPieces 1)
  return (firstPiece, lastPiece)

def allFilePieces : Option (ℕ × ℕ) := m.piecesForRange 0 m.fileSize

end PieceMapping

/-- A piece is added, if it is not there. -/
def pushNew (pieces : List ℕ) (p : ℕ) : List ℕ := if pieces.contains p then pieces else pieces ++ [p]

/-- The sums and differences of the loops lie between the first and the last piece. -/
def BufferPolicy.headTailPriorityPieces (policy : BufferPolicy) (m : PieceMapping) :
    Option (List ℕ) := do
  let (first, last) ← m.allFilePieces
  let total ← checkedAdd u32Max (← checkedSub last first) 1
  let pieces := (List.range (min policy.headPieces total)).map fun i => first + i
  return (List.range (min policy.tailPieces total)).foldl (fun pieces i => pushNew pieces (last - i))
    pieces

/-! ### Pieces and bytes -/

/-- The piece has a byte of the range from `s` to before `e`. -/
def Touches (pieceSize s e p : ℕ) : Prop := ∃ x < e, s ≤ x ∧ x / pieceSize = p

instance (pieceSize s e p : ℕ) : Decidable (Touches pieceSize s e p) :=
  inferInstanceAs (Decidable (∃ x < e, _))

/-- **The pieces of a range that is not empty** are those between its ends. -/
theorem touches_iff {pieceSize s e p : ℕ} (hsize : 0 < pieceSize) (h : s < e) :
    Touches pieceSize s e p ↔ s / pieceSize ≤ p ∧ p ≤ (e - 1) / pieceSize := by
  constructor
  · rintro ⟨x, hx, hs, rfl⟩
    exact ⟨Nat.div_le_div_right hs, Nat.div_le_div_right (by omega)⟩
  · rintro ⟨hfirst, hlast⟩
    -- the first byte of the piece, or the first byte of the range if that comes later
    refine ⟨max s (p * pieceSize), ?_, le_max_left _ _, ?_⟩
    · have hle : p * pieceSize ≤ e - 1 := (Nat.le_div_iff_mul_le hsize).mp hlast
      omega
    · rcases Nat.le_total s (p * pieceSize) with hs | hs
      · rw [max_eq_right hs, Nat.mul_div_cancel _ hsize]
      · rw [max_eq_left hs]
        exact le_antisymm hfirst ((Nat.le_div_iff_mul_le hsize).mpr hs)

/-- The pieces of the file, in order. -/
def PieceMapping.touched (m : PieceMapping) : List ℕ := (List.range m.totalPieces).filter fun p =>
  Touches m.pieceSize m.fileOffsetInTorrent (m.fileOffsetInTorrent + m.fileSize) p

/-- A file within a torrent of the given length. -/
structure InTorrent (length : ℕ) (m : PieceMapping) : Prop where
  length_le : length ≤ u64Max
  totalPieces_le : m.totalPieces ≤ u32Max
  fits : m.fileOffsetInTorrent + m.fileSize ≤ length
  pieceSize_pos : 0 < m.pieceSize
  totalPieces_eq : m.totalPieces = (length + m.pieceSize - 1) / m.pieceSize
  totalPieces_pos : 0 < m.totalPieces

namespace InTorrent

variable {length : ℕ} {m : PieceMapping}

/-- A byte of the torrent is in one of its pieces. -/
theorem div_lt (h : InTorrent length m) {x : ℕ} (hx : x < length) : x / m.pieceSize < m.totalPieces := by
  have hpos := h.pieceSize_pos
  rw [h.totalPieces_eq, Nat.div_lt_iff_lt_mul hpos]
  have hmod := Nat.div_add_mod (length + m.pieceSize - 1) m.pieceSize
  have hlt := Nat.mod_lt (length + m.pieceSize - 1) hpos
  rw [Nat.mul_comm]
  omega

/-- The end of the torrent is at most behind the last piece. -/
theorem div_le (h : InTorrent length m) {x : ℕ} (hx : x ≤ length) :
    x / m.pieceSize ≤ m.totalPieces := by
  have hpos := h.pieceSize_pos
  rw [h.totalPieces_eq]
  exact Nat.div_le_div_right (by omega)

/-- **What `pieces_for_range` computes** for a range within the file. -/
theorem piecesForRange_eq (h : InTorrent length m) {offset len : ℕ} (hend : offset + len ≤ m.fileSize) :
    m.piecesForRange offset len = some ((m.fileOffsetInTorrent + offset) / m.pieceSize,
      min ((m.fileOffsetInTorrent + offset + (len - 1)) / m.pieceSize) (m.totalPieces - 1)) := by
  have hlen := h.length_le
  have hfits := h.fits
  have htotal := h.totalPieces_le
  have hu32 : u32Max = 2 ^ 32 - 1 := rfl
  have hfirst := h.div_le (x := m.fileOffsetInTorrent + offset) (by omega)
  have hlast := h.div_le (x := m.fileOffsetInTorrent + offset + (len - 1)) (by omega)
  have hdiv : ∀ a, checkedDiv a m.pieceSize = some (a / m.pieceSize) :=
    fun _ => if_neg h.pieceSize_pos.ne'
  have hsub : checkedSub m.totalPieces 1 = some (m.totalPieces - 1) := if_pos h.totalPieces_pos
  unfold PieceMapping.piecesForRange
  rw [checkedAdd_of_le (by omega), Option.bind_eq_bind, Option.bind_some,
    checkedAdd_of_le (by omega), Option.bind_some, hdiv, hdiv, hsub]
  show some (asU32 _, min (asU32 _) _) = _
  rw [asU32_of_lt (by omega), asU32_of_lt (by omega)]

/-- **`pieces_for_range` is exact** for a range that is not empty. -/
theorem piecesForRange_spec (h : InTorrent length m) {offset len : ℕ} (hlen : 0 < len)
    (hend : offset + len ≤ m.fileSize) : ∃ first last, m.piecesForRange offset len = some (first, last) ∧
      ∀ p, first ≤ p ∧ p ≤ last ↔ Touches m.pieceSize (m.fileOffsetInTorrent + offset)
        (m.fileOffsetInTorrent + offset + len) p := by
  refine ⟨_, _, h.piecesForRange_eq hend, fun p => ?_⟩
  have hfits := h.fits
  have hlast := h.div_lt (x := m.fileOffsetInTorrent + offset + (len - 1)) (by omega)
  have hbyte : m.fileOffsetInTorrent + offset + len - 1 = m.fileOffsetInTorrent + offset + (len - 1) := by
    omega
  rw [touches_iff h.pieceSize_pos (by omega), hbyte, Nat.min_eq_left (by omega)]

/-- The pieces of the file, from the piece of its first byte on. -/
theorem allFilePieces_eq (h : InTorrent length m) : m.allFilePieces =
    some (m.fileOffsetInTorrent / m.pieceSize,
      min ((m.fileOffsetInTorrent + (m.fileSize - 1)) / m.pieceSize) (m.totalPieces - 1)) := by
  have hwhole : m.piecesForRange 0 m.fileSize = _ := h.piecesForRange_eq (by omega)
  rwa [Nat.add_zero] at hwhole

/-- **The pieces of a file that is not empty** are consecutive. -/
theorem touched_eq (h : InTorrent length m) (hsize : 0 < m.fileSize) : m.touched =
    List.range' (m.fileOffsetInTorrent / m.pieceSize)
      ((m.fileOffsetInTorrent + m.fileSize - 1) / m.pieceSize + 1 -
        m.fileOffsetInTorrent / m.pieceSize) := by
  have hfits := h.fits
  have hlast := h.div_lt (x := m.fileOffsetInTorrent + m.fileSize - 1) (by omega)
  have hle : m.fileOffsetInTorrent / m.pieceSize ≤
      (m.fileOffsetInTorrent + m.fileSize - 1) / m.pieceSize := Nat.div_le_div_right (by omega)
  refine List.Pairwise.eq_of_mem_iff (r := (· < ·)) (List.pairwise_lt_range.filter _)
    (List.pairwise_lt_range' _) fun p => ?_
  unfold PieceMapping.touched
  rw [List.mem_filter, List.mem_range, decide_eq_true_eq, touches_iff h.pieceSize_pos (by omega),
    List.mem_range'_1]
  omega

/-- An empty file has no pieces. -/
theorem touched_eq_nil (hsize : m.fileSize = 0) : m.touched = [] := by
  refine List.filter_eq_nil_iff.mpr fun p _ => ?_
  rw [hsize, decide_eq_true_eq]
  rintro ⟨x, hx, hs, -⟩
  omega

end InTorrent

/-! ### The head and the tail -/

theorem nodup_pushNew {pieces : List ℕ} (h : pieces.Nodup) (p : ℕ) : (pushNew pieces p).Nodup := by
  unfold pushNew
  split_ifs with hp
  · exact h
  · have hnot : p ∉ pieces := fun hmem => hp (List.contains_iff_mem.mpr hmem)
    exact List.nodup_append_comm.mpr (List.nodup_cons.mpr ⟨hnot, h⟩)

theorem mem_pushNew {pieces : List ℕ} {p q : ℕ} : q ∈ pushNew pieces p ↔ q ∈ pieces ∨ q = p := by
  unfold pushNew
  split_ifs with hp
  · refine ⟨Or.inl, fun h => h.elim id ?_⟩
    rintro rfl
    exact List.contains_iff_mem.mp hp
  · rw [List.mem_append, List.mem_singleton]

/-- **The loop over the tail** adds what is not there yet. -/
theorem foldl_pushNew (g : ℕ → ℕ) : ∀ (is : List ℕ) {pieces : List ℕ}, pieces.Nodup →
    (is.foldl (fun pieces i => pushNew pieces (g i)) pieces).Nodup ∧
      ∀ q, q ∈ is.foldl (fun pieces i => pushNew pieces (g i)) pieces ↔ q ∈ pieces ∨ ∃ i ∈ is, g i = q
  | [], pieces, h => ⟨h, fun q => by simp⟩
  | i :: is, pieces, h => by
    obtain ⟨hnodup, hmem⟩ := foldl_pushNew g is (nodup_pushNew h (g i))
    refine ⟨hnodup, fun q => ?_⟩
    rw [List.foldl_cons, hmem, mem_pushNew, or_assoc]
    simp only [List.mem_cons, exists_eq_or_imp]
    refine or_congr_right (or_congr_left eq_comm)

theorem mem_take_range' {a n k p : ℕ} :
    p ∈ (List.range' a n).take k ↔ a ≤ p ∧ p < a + min k n := by
  rcases Nat.le_total k n with h | h
  · rw [List.take_range'_of_length_ge h, List.mem_range'_1, Nat.min_eq_left h]
  · rw [List.take_range'_of_length_le h, List.mem_range'_1, Nat.min_eq_right h]

theorem mem_drop_range' {a n k p : ℕ} :
    p ∈ (List.range' a n).drop k ↔ a + k ≤ p ∧ p < a + k + (n - k) := by
  rw [List.drop_range', Nat.mul_one, List.mem_range'_1]

/-- **What the policy returns** for a range of pieces. -/
theorem headTail_spec (policy : BufferPolicy) {m : PieceMapping} {first last : ℕ}
    (hrange : m.allFilePieces = some (first, last)) (hle : first ≤ last) (hlast : last < u32Max) :
    ∃ pieces, policy.headTailPriorityPieces m = some pieces ∧ pieces.Nodup ∧
      ∀ p, p ∈ pieces ↔
        p ∈ (List.range' first (last + 1 - first)).take policy.headPieces ∨
        p ∈ (List.range' first (last + 1 - first)).drop (last + 1 - first - policy.tailPieces) := by
  have hsub : checkedSub last first = some (last - first) := if_pos hle
  set heads := (List.range (min policy.headPieces (last - first + 1))).map fun i => first + i with hheads
  have hnodup : heads.Nodup := List.nodup_range.map fun a b h => by
    have h : first + a = first + b := h
    omega
  obtain ⟨hfold, hmem⟩ := foldl_pushNew (fun i => last - i)
    (List.range (min policy.tailPieces (last - first + 1))) hnodup
  refine ⟨_, ?_, hfold, fun p => ?_⟩
  · unfold BufferPolicy.headTailPriorityPieces
    rw [hrange, Option.bind_eq_bind, Option.bind_some]
    dsimp only
    rw [hsub, Option.bind_eq_bind, Option.bind_some, checkedAdd_of_le (by omega)]
    rfl
  · rw [hmem, mem_take_range', mem_drop_range', hheads, List.mem_map]
    refine or_congr ⟨?_, fun hp => ?_⟩ ⟨?_, fun hp => ?_⟩
    · rintro ⟨i, hi, rfl⟩
      rw [List.mem_range] at hi
      omega
    · exact ⟨p - first, List.mem_range.mpr (by omega), by omega⟩
    · rintro ⟨i, hi, rfl⟩
      rw [List.mem_range] at hi
      omega
    · exact ⟨last - p, List.mem_range.mpr (by omega), by omega⟩

/-- The first pieces and the last pieces of the file are returned, each once, and every range of the file
that is not empty has exactly the pieces it touches. -/
def Exact (policy : BufferPolicy) (m : PieceMapping) : Prop :=
  (∃ pieces, policy.headTailPriorityPieces m = some pieces ∧ pieces.Nodup ∧
    ∀ p, p ∈ pieces ↔ p ∈ m.touched.take policy.headPieces ∨
      p ∈ m.touched.drop (m.touched.length - policy.tailPieces)) ∧
  ∀ offset len, 0 < len → offset + len ≤ m.fileSize →
    ∃ first last, m.piecesForRange offset len = some (first, last) ∧
      ∀ p, first ≤ p ∧ p ≤ last ↔ Touches m.pieceSize (m.fileOffsetInTorrent + offset)
        (m.fileOffsetInTorrent + offset + len) p

section Exact

variable {length : ℕ} {m : PieceMapping} {policy : BufferPolicy}

theorem exact_of_pos (h : InTorrent length m) (hsize : 0 < m.fileSize) : Exact policy m := by
  refine ⟨?_, fun offset len hlen hend => h.piecesForRange_spec hlen hend⟩
  have hfits := h.fits
  have htotal := h.totalPieces_le
  have hlast := h.div_lt (x := m.fileOffsetInTorrent + m.fileSize - 1) (by omega)
  have hle : m.fileOffsetInTorrent / m.pieceSize ≤
      (m.fileOffsetInTorrent + m.fileSize - 1) / m.pieceSize := Nat.div_le_div_right (by omega)
  have hrange : m.allFilePieces = some (m.fileOffsetInTorrent / m.pieceSize,
      (m.fileOffsetInTorrent + m.fileSize - 1) / m.pieceSize) := by
    have hbyte : m.fileOffsetInTorrent + (m.fileSize - 1) = m.fileOffsetInTorrent + m.fileSize - 1 := by
      omega
    rw [h.allFilePieces_eq, hbyte, Nat.min_eq_left (by omega)]
  rw [h.touched_eq hsize, List.length_range']
  exact headTail_spec policy hrange hle (by omega)

/-- The piece of an empty file. -/
theorem exact_iff_of_lt (h : InTorrent length m) (hsize : m.fileSize = 0)
    (hlt : m.fileOffsetInTorrent / m.pieceSize < m.totalPieces) :
    Exact policy m ↔ policy.headPieces = 0 ∧ policy.tailPieces = 0 := by
  have htotal := h.totalPieces_le
  have hrange : m.allFilePieces = some (m.fileOffsetInTorrent / m.pieceSize,
      m.fileOffsetInTorrent / m.pieceSize) := by
    rw [h.allFilePieces_eq, hsize, Nat.zero_sub, Nat.add_zero, Nat.min_eq_left (by omega)]
  obtain ⟨pieces, hpieces, hnodup, hmem⟩ := headTail_spec policy hrange le_rfl (by omega)
  have hnil : m.touched = [] := InTorrent.touched_eq_nil hsize
  unfold Exact
  rw [hnil]
  constructor
  · rintro ⟨⟨pieces', hpieces', -, hmem'⟩, -⟩
    have hsame : pieces = pieces' := Option.some.inj (hpieces.symm.trans hpieces')
    have hnot : ∀ p, p ∉ pieces := fun p hp => by
      rw [hsame, hmem'] at hp
      simp at hp
    have hfirst := hnot (m.fileOffsetInTorrent / m.pieceSize)
    rw [hmem, mem_take_range', mem_drop_range'] at hfirst
    omega
  · rintro ⟨hhead, htail⟩
    refine ⟨⟨pieces, hpieces, hnodup, fun p => ?_⟩, fun offset len hlen hend => by omega⟩
    rw [hmem, mem_take_range', mem_drop_range', hhead, htail]
    simp only [List.take_nil, List.drop_nil, List.not_mem_nil, or_false, iff_false]
    omega

/-- **When head and tail are exact**, whatever the alignment: if the file is not empty, or if it is
empty, lies in a piece, and nothing is asked for. -/
theorem priority_iff (policy : BufferPolicy) (h : InTorrent length m) :
    Exact policy m ↔ 0 < m.fileSize ∨ ((policy.headPieces = 0 ∧ policy.tailPieces = 0) ∧
      m.fileOffsetInTorrent / m.pieceSize < m.totalPieces) := by
  rcases Nat.eq_zero_or_pos m.fileSize with hsize | hsize
  · rw [hsize, lt_self_iff_false, false_or]
    rcases Nat.lt_or_ge (m.fileOffsetInTorrent / m.pieceSize) m.totalPieces with hlt | hge
    · rw [exact_iff_of_lt h hsize hlt]
      exact (and_iff_left hlt).symm
    · refine ⟨fun hexact => ?_, fun hc => absurd hc.2 (Nat.not_lt.mpr hge)⟩
      have hpos := h.totalPieces_pos
      -- the last piece is before the first one
      have hnone : policy.headTailPriorityPieces m = none := by
        unfold BufferPolicy.headTailPriorityPieces
        rw [h.allFilePieces_eq, hsize, Nat.zero_sub, Nat.add_zero, Nat.min_eq_right (by omega),
          Option.bind_eq_bind, Option.bind_some]
        dsimp only
        rw [checkedSub, if_neg (by omega)]
        rfl
      obtain ⟨⟨pieces, hpieces, -⟩, -⟩ := hexact
      rw [hnone] at hpieces
      cases hpieces
  · exact ⟨fun _ => Or.inl hsize, fun _ => exact_of_pos h hsize⟩

/-- A file of three bytes in the middle of a torrent of ten. -/
theorem priority_iff_three_bytes : Exact ⟨1, 1⟩ ⟨3, 4, 3, 3⟩ ↔ 0 < 3 ∨ ((1 = 0 ∧ 1 = 0) ∧ 3 / 4 < 3) := by
  have hin : InTorrent 10 ⟨3, 4, 3, 3⟩ :=
    ⟨by decide, by decide, by decide, by decide, by decide, by decide⟩
  exact priority_iff ⟨1, 1⟩ hin

/-- An empty file at the end of a torrent of eight bytes. -/
theorem empty_file_underflows : InTorrent 8 ⟨8, 4, 2, 0⟩ ∧
    BufferPolicy.headTailPriorityPieces ⟨1, 1⟩ ⟨8, 4, 2, 0⟩ = none :=
  ⟨⟨by decide, by decide, by decide, by decide, by decide, by decide⟩, by decide⟩

end Exact

end CncContent.Streaming.FilePieces
