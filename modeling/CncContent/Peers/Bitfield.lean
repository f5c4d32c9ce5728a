import CncContent.Lib.BitRows
import CncContent.Lib.Bounded

/-! # Bitfields of peers

`PeerBitfield` of the source: which pieces a peer has, a bit for each, packed as on the wire. The last
byte may have spare bits, which `from_wire` takes as they come. Queries by index do not see them and no
call changes them, but the number of pieces is counted over all bits and only cut to the piece count
(`countHave_eq`), so that the counts are right exactly if the spare bits are clear (`counts_iff`). -/

namespace CncContent.Peers.Bitfield

open CncContent.Lib.BitRows CncContent.Lib.Bounded

/-- The sum saturates, so that the last seven piece counts get a byte too few. -/
def bytesNeeded (pieceCount : ℕ) : ℕ := satAdd u32Max pieceCount 7 / 8

/-- A row of bits of the length that every constructor gives it. -/
structure PeerBitfield where
  bytes : List UInt8
  pieceCount : ℕ
  pieceCount_le : pieceCount ≤ u32Max
  length_bytes : bytes.length = bytesNeeded pieceCount
deriving DecidableEq

/-- The last byte loses its lowest bits. -/
def clearSpare (bytes : List UInt8) (spare : ℕ) : List UInt8 :=
  if 0 < spare then bytes.modify (bytes.length - 1) fun last => last &&& 0xFF <<< UInt8.ofNat spare
  else bytes

theorem length_clearSpare (bytes : List UInt8) (spare : ℕ) :
    (clearSpare bytes spare).length = bytes.length := by
  unfold clearSpare
  split_ifs
  · exact List.length_modify _ _ _
  · rfl

namespace PeerBitfield

def newEmpty (pieceCount : ℕ) (h : pieceCount ≤ u32Max) : PeerBitfield :=
  ⟨List.replicate (bytesNeeded pieceCount) 0, pieceCount, h, List.length_replicate⟩

def newFull (pieceCount : ℕ) (h : pieceCount ≤ u32Max) : PeerBitfield :=
  let byteCount := bytesNeeded pieceCount
  let spare := satMul u64Max byteCount 8 - pieceCount
  ⟨clearSpare (List.replicate byteCount 0xFF) spare, pieceCount, h,
    (length_clearSpare _ _).trans List.length_replicate⟩

def fromWire (pieceCount : ℕ) (h : pieceCount ≤ u32Max) (wireBytes : List UInt8) :
    Option PeerBitfield :=
  if hlen : wireBytes.length = bytesNeeded pieceCount then some ⟨wireBytes, pieceCount, h, hlen⟩
  else none

variable (f : PeerBitfield)

def hasPiece (index : ℕ) : Bool :=
  if f.pieceCount ≤ index then false else bitAt f.bytes index

def setPiece (index : ℕ) : PeerBitfield :=
  if f.pieceCount ≤ index then f
  else { f with
    bytes := orBit f.bytes index
    length_bytes := (length_orBit index).trans f.length_bytes }

def clearPiece (index : ℕ) : PeerBitfield :=
  if f.pieceCount ≤ index then f
  else { f with
    bytes := andNotBit f.bytes index
    length_bytes := (length_andNotBit index).trans f.length_bytes }

/-- The sum of 32-bit values, which does not overflow (`totalOnes_le`). -/
def totalOnes : ℕ := (f.bytes.map countOnes).sum

def countHave : ℕ := min f.totalOnes f.pieceCount

def isComplete : Bool := f.countHave == f.pieceCount

def isEmpty : Bool := f.bytes.all fun b => b == 0

end PeerBitfield

/-! ### Calls -/

inductive Call
  | setPiece (index : ℕ)
  | clearPiece (index : ℕ)
deriving DecidableEq, Repr

namespace PeerBitfield

def apply (f : PeerBitfield) : Call → PeerBitfield
  | .setPiece index => f.setPiece index
  | .clearPiece index => f.clearPiece index

def perform (f : PeerBitfield) (calls : List Call) : PeerBitfield := calls.foldl apply f

/-- The spare bits are clear. -/
def SpareClear (f : PeerBitfield) : Prop := ∀ i, f.pieceCount ≤ i → bitAt f.bytes i = false

/-- The number of pieces by index. -/
def held (f : PeerBitfield) : ℕ := (List.range f.pieceCount).countP fun i => f.hasPiece i

/-- The queries over all pieces agree with the queries by index. -/
structure Counts (f : PeerBitfield) : Prop where
  countHave : f.countHave = f.held
  isComplete : f.isComplete = true ↔ ∀ i < f.pieceCount, f.hasPiece i = true
  isEmpty : f.isEmpty = true ↔ ∀ i < f.pieceCount, f.hasPiece i = false

variable {f : PeerBitfield}

theorem hasPiece_of_lt {i : ℕ} (h : i < f.pieceCount) : f.hasPiece i = bitAt f.bytes i :=
  if_neg (Nat.not_le.mpr h)

theorem hasPiece_of_le {i : ℕ} (h : f.pieceCount ≤ i) : f.hasPiece i = false := if_pos h

/-! ### One index -/

/-- **Setting a piece** sets that piece and no other. -/
theorem hasPiece_setPiece (i j : ℕ) : (f.setPiece i).hasPiece j =
    (f.hasPiece j || decide (j = i ∧ i < f.pieceCount ∧ i / 8 < f.bytes.length)) := by
  unfold setPiece
  split_ifs with hi
  · have hnot : ¬ (j = i ∧ i < f.pieceCount ∧ i / 8 < f.bytes.length) := fun h => by omega
    rw [decide_eq_false hnot, Bool.or_false]
  · unfold hasPiece
    dsimp only
    split_ifs with hj
    · have hnot : ¬ (j = i ∧ i < f.pieceCount ∧ i / 8 < f.bytes.length) := fun h => by omega
      rw [decide_eq_false hnot, Bool.or_false]
    · rw [bitAt_orBit]
      congr 1
      rw [decide_eq_decide]
      omega

/-- **Clearing a piece** clears that piece and no other. -/
theorem hasPiece_clearPiece (i j : ℕ) :
    (f.clearPiece i).hasPiece j = (f.hasPiece j && decide (j ≠ i)) := by
  unfold clearPiece
  split_ifs with hi
  · by_cases hj : j = i
    · rw [hj, hasPiece_of_le hi]
      rfl
    · rw [decide_eq_true hj, Bool.and_true]
  · unfold hasPiece
    dsimp only
    split_ifs with hj
    · rfl
    · exact bitAt_andNotBit i j

/-! ### All pieces -/

/-- The spare bits that are set. -/
def spareOnes (f : PeerBitfield) : ℕ :=
  (List.range' f.pieceCount (8 * f.bytes.length - f.pieceCount)).countP (bitAt f.bytes)

theorem held_eq : f.held = (List.range f.pieceCount).countP (bitAt f.bytes) :=
  List.countP_congr fun i hi => by rw [hasPiece_of_lt (List.mem_range.mp hi)]

theorem held_le : f.held ≤ f.pieceCount := by
  have hle : f.held ≤ (List.range f.pieceCount).length := List.countP_le_length
  rwa [List.length_range] at hle

/-- The sum that `count_have` computes is a 32-bit value. -/
theorem totalOnes_le : f.totalOnes ≤ u32Max := by
  have hle : f.totalOnes ≤ (List.range (8 * f.bytes.length)).length := by
    unfold totalOnes
    rw [sum_countOnes]
    exact List.countP_le_length
  have hlen := f.length_bytes
  unfold bytesNeeded satAdd at hlen
  rw [List.length_range] at hle
  omega

/-- **What `count_have` counts**: the spare bits as well. -/
theorem countHave_eq : f.countHave = min (f.held + f.spareOnes) f.pieceCount := by
  unfold countHave totalOnes spareOnes
  rw [sum_countOnes_split f.pieceCount, held_eq]

theorem spareOnes_eq_zero_iff : f.spareOnes = 0 ↔ f.SpareClear := by
  unfold spareOnes SpareClear
  rw [List.countP_eq_zero]
  constructor
  · intro h i hi
    rcases Nat.lt_or_ge i (8 * f.bytes.length) with hlt | hge
    · exact Bool.eq_false_iff.mpr (h i (List.mem_range'_1.mpr ⟨hi, by omega⟩))
    · exact bitAt_of_le hge
  · intro h i hi
    rw [h i (List.mem_range'_1.mp hi).1]
    exact Bool.false_ne_true

theorem SpareClear.counts (h : f.SpareClear) : f.Counts := by
  have hcount : f.countHave = f.held := by
    rw [countHave_eq, spareOnes_eq_zero_iff.mpr h, Nat.add_zero, Nat.min_eq_left held_le]
  refine ⟨hcount, ?_, ?_⟩
  · have hfull := List.countP_eq_length (p := fun i => f.hasPiece i) (l := List.range f.pieceCount)
    rw [List.length_range] at hfull
    unfold isComplete
    rw [beq_iff_eq, hcount]
    exact hfull.trans (by simp only [List.mem_range])
  · unfold isEmpty
    rw [all_eq_zero_iff]
    constructor
    · exact fun hall i hi => (hasPiece_of_lt hi).trans (hall i)
    · intro hall i
      rcases Nat.lt_or_ge i f.pieceCount with hi | hi
      · exact (hasPiece_of_lt hi).symm.trans (hall i hi)
      · exact h i hi

/-! ### Runs -/

theorem SpareClear.apply (h : f.SpareClear) (call : Call) : (f.apply call).SpareClear := by
  cases call with
  | setPiece i =>
    show (f.setPiece i).SpareClear
    unfold setPiece
    split_ifs with hi
    · exact h
    · intro j hj
      have hj : f.pieceCount ≤ j := hj
      have hne : ¬ (j = i ∧ i / 8 < f.bytes.length) := fun hc => by omega
      rw [bitAt_orBit, h j hj, decide_eq_false hne]
      rfl
  | clearPiece i =>
    show (f.clearPiece i).SpareClear
    unfold clearPiece
    split_ifs
    · exact h
    · intro j hj
      rw [bitAt_andNotBit, h j hj]
      rfl

theorem SpareClear.perform (h : f.SpareClear) (calls : List Call) : (f.perform calls).SpareClear := by
  induction calls generalizing f with
  | nil => exact h
  | cons call calls ih => exact ih (h.apply call)

/-- A bit behind the pieces shows that there are pieces. -/
theorem pieceCount_pos (h : ¬ f.SpareClear) : 0 < f.pieceCount := by
  by_contra hzero
  refine h fun i _ => bitAt_of_le ?_
  have hlen := f.length_bytes
  rw [Nat.eq_zero_of_not_pos hzero] at hlen
  rw [hlen]
  exact Nat.zero_le i

/-- With a spare bit set, the number is wrong as soon as a piece is missing. -/
theorem not_counts_of_missing (h : ¬ f.SpareClear) {i : ℕ} (hi : i < f.pieceCount)
    (hmissing : f.hasPiece i = false) : ¬ f.Counts := by
  intro hcounts
  have hspare : f.spareOnes ≠ 0 := fun hzero => h (spareOnes_eq_zero_iff.mp hzero)
  have hlt : f.held ≠ f.pieceCount := by
    intro hall
    have hfull := List.countP_eq_length (p := fun i => f.hasPiece i) (l := List.range f.pieceCount)
    rw [List.length_range] at hfull
    rw [hfull.mp hall i (List.mem_range.mpr hi)] at hmissing
    cases hmissing
  have hle := f.held_le
  have hcount := hcounts.countHave
  rw [countHave_eq] at hcount
  omega

/-- Clearing a piece does not clear the spare bits. -/
theorem not_spareClear_clearPiece (h : ¬ f.SpareClear) {i : ℕ} (hi : i < f.pieceCount) :
    ¬ (f.clearPiece i).SpareClear := by
  have hclear : f.clearPiece i = { f with
      bytes := andNotBit f.bytes i
      length_bytes := (length_andNotBit i).trans f.length_bytes } := if_neg (Nat.not_le.mpr hi)
  rw [hclear]
  refine fun hspare => h fun j hj => ?_
  have hbit := hspare j hj
  have hne : j ≠ i := fun he => by omega
  rw [bitAt_andNotBit, decide_eq_true hne, Bool.and_true] at hbit
  exact hbit

/-- **When the counts are right**: through every sequence of calls, if the spare bits are clear, and
otherwise not. A call changes no other index in any case. -/
theorem counts_iff (f : PeerBitfield) :
    ((∀ calls, (f.perform calls).Counts) ∧
      ∀ calls i j, j ≠ i → ((f.perform calls).setPiece i).hasPiece j = (f.perform calls).hasPiece j ∧
        ((f.perform calls).clearPiece i).hasPiece j = (f.perform calls).hasPiece j) ↔
    f.SpareClear := by
  constructor
  · rintro ⟨hcounts, -⟩
    by_contra h
    have hpos := pieceCount_pos h
    have hmissing : (f.clearPiece 0).hasPiece 0 = false := by
      rw [hasPiece_clearPiece]
      exact Bool.and_false _
    have hcount : (f.clearPiece 0).pieceCount = f.pieceCount := by
      unfold clearPiece
      split_ifs <;> rfl
    exact not_counts_of_missing (not_spareClear_clearPiece h hpos) (hcount ▸ hpos) hmissing
      (hcounts [.clearPiece 0])
  · intro h
    refine ⟨fun calls => (h.perform calls).counts, fun calls i j hne => ⟨?_, ?_⟩⟩
    · rw [hasPiece_setPiece, decide_eq_false fun hc => hne hc.1, Bool.or_false]
    · rw [hasPiece_clearPiece, decide_eq_true hne, Bool.and_true]

/-! ### The constructors -/

/-- Every bitfield is one that `from_wire` makes. -/
theorem fromWire_bytes (f : PeerBitfield) : fromWire f.pieceCount f.pieceCount_le f.bytes = some f :=
  dif_pos f.length_bytes

theorem spareClear_newEmpty (n : ℕ) (h : n ≤ u32Max) : (newEmpty n h).SpareClear := by
  have hzero : (List.replicate (bytesNeeded n) (0 : UInt8)).all (fun b => b == 0) = true := by
    rw [List.all_eq_true]
    intro b hb
    rw [List.eq_of_mem_replicate hb]
    rfl
  exact fun i _ => all_eq_zero_iff.mp hzero i

/-- The lowest bits of the last byte are cleared. -/
theorem testBit_shifted : ∀ spare < 8, ∀ k < spare,
    ((0xFF : UInt8) &&& 0xFF <<< UInt8.ofNat spare).toNat.testBit k = false := by decide

theorem spareClear_newFull (n : ℕ) (h : n ≤ u32Max) : (newFull n h).SpareClear := by
  have hbytes : 8 * bytesNeeded n ≤ n + 7 := by
    unfold bytesNeeded satAdd
    omega
  have hsat : satMul u64Max (bytesNeeded n) 8 = bytesNeeded n * 8 :=
    Nat.min_eq_left (by have : u64Max = 2 ^ 64 - 1 := rfl; have : u32Max = 2 ^ 32 - 1 := rfl; omega)
  intro i hi
  have hi : n ≤ i := hi
  show bitAt (clearSpare (List.replicate (bytesNeeded n) 0xFF) _) i = false
  rw [hsat]
  rcases Nat.lt_or_ge i (8 * bytesNeeded n) with hlt | hge
  · have hlast : i / 8 = (List.replicate (bytesNeeded n) (0xFF : UInt8)).length - 1 := by
      rw [List.length_replicate]
      omega
    unfold clearSpare
    have hget : (List.replicate (bytesNeeded n) (0xFF : UInt8))[i / 8]? = some 0xFF := by
      rw [List.getElem?_replicate, if_pos (by omega)]
    rw [if_pos (by omega), ← hlast, bitAt_modify, if_pos rfl, hget, Option.any_some]
    exact testBit_shifted _ (by omega) _ (by omega)
  · exact bitAt_of_le (by rw [length_clearSpare, List.length_replicate]; exact hge)

/-- The second of two pieces, and all spare bits. -/
theorem spare_bits_counted : ∃ f, fromWire 2 (by decide) [0x7F] = some f ∧ f.countHave = 2 ∧
    f.held = 1 ∧ f.isComplete = true ∧ f.hasPiece 0 = false :=
  ⟨⟨[0x7F], 2, by decide, by decide⟩, by decide⟩

end PeerBitfield

end CncContent.Peers.Bitfield
