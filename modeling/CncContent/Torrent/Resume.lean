import CncContent.Lib.Bytes
import CncContent.Lib.Bounded
import CncContent.Lib.Checks
import CncContent.Torrent.PieceMap

/-! # The resume file

The checkpoint of a download: a header and a packed bit for every piece. What has been saved is
loaded again (`load_save`), and a checkpoint taken from a piece map has the bits of pieces that were
done only (`isDone_snapshot`). A piece out of range can be marked if its bit is one of those that fill
the last byte (`isDone_iff_marked_iff`). -/

namespace CncContent.Torrent.Resume

open CncContent.Lib.Bounded CncContent.Lib.Bytes CncContent.Lib.Checks
open CncContent.Torrent.PieceMap

/-- `MAGIC`. -/
def magicBytes : List UInt8 := ['P', '2', 'P', 'R'].map byte

def version : UInt8 := 0x01

def headerSize : ℕ := 17

inductive ResumeError
  | io
  | invalidMagic (found : List UInt8)
  | unsupportedVersion (version : UInt8)
  | truncated (expectedBytes actualBytes : ℕ)
  | pieceCountMismatch (expected found : ℕ)
  | fileSizeMismatch (expected found : ℕ)
deriving DecidableEq, Repr

def packedByteCount (pieceCount : ℕ) : ℕ := satAdd u64Max pieceCount 7 / 8

structure ResumeState where
  pieceCount : ℕ
  fileSize : ℕ
  bitfield : List UInt8
deriving DecidableEq, Repr

namespace ResumeState

def new (pieceCount fileSize : ℕ) : ResumeState :=
  ⟨pieceCount, fileSize, List.replicate (packedByteCount pieceCount) 0⟩

variable (st : ResumeState)

def markDone (pieceIndex : ℕ) : ResumeState := { st with bitfield := setBit st.bitfield pieceIndex }

def isDone (pieceIndex : ℕ) : Bool := getBit st.bitfield pieceIndex

def toVerifiedPieces : List Bool := (List.range st.pieceCount).map st.isDone

/-- One round of the loop of `from_piece_map`, which reads one cell of the map. -/
def snapshot (m : SharedPieceMap) (i : ℕ) : ResumeState :=
  if m.get i = .done then st.markDone i else st

def validate (expectedPieceCount expectedFileSize : ℕ) : Except ResumeError Unit :=
  if st.pieceCount ≠ expectedPieceCount then
    .error (.pieceCountMismatch expectedPieceCount st.pieceCount)
  else if st.fileSize ≠ expectedFileSize then
    .error (.fileSizeMismatch expectedFileSize st.fileSize)
  else .ok ()

/-- The bytes `save` writes. -/
def save : List UInt8 :=
  magicBytes ++ version :: (toLe 4 st.pieceCount ++ toLe 8 st.fileSize ++ st.bitfield)

/-- `load`, from the bytes of the file. -/
def load (data : List UInt8) : Except ResumeError ResumeState := do
  let truncated := ResumeError.truncated headerSize data.length
  refuse (data.length < headerSize) truncated
  let magic ← okOr (slice data 0 4) truncated
  refuse (magic ≠ magicBytes) (.invalidMagic magic)
  let v ← okOr data[4]? truncated
  refuse (v ≠ version) (.unsupportedVersion v)
  let pcBytes ← okOr (slice data 5 9) truncated
  let fsBytes ← okOr (slice data 9 17) truncated
  let expected := packedByteCount (ofLe pcBytes)
  let bits := data.drop headerSize
  refuse (bits.length < expected) (.truncated (satAdd u64Max headerSize expected) data.length)
  return ⟨ofLe pcBytes, ofLe fsBytes, bits.take expected⟩

/-- The counts fit their fields and there is a bit for every piece. -/
structure Valid : Prop where
  pieceCount : st.pieceCount ≤ u32Max
  fileSize : st.fileSize ≤ u64Max
  bitfield : st.bitfield.length = packedByteCount st.pieceCount

variable {st}

/-- **What has been saved is loaded.** -/
theorem load_save (h : st.Valid) : load st.save = .ok st := by
  obtain ⟨hpc, hfs, hbits⟩ := h
  have hcount : ofLe (toLe 4 st.pieceCount) = st.pieceCount :=
    ofLe_toLe (by unfold u32Max at hpc; omega)
  have hsize : ofLe (toLe 8 st.fileSize) = st.fileSize :=
    ofLe_toLe (by unfold u64Max at hfs; omega)
  set pc := toLe 4 st.pieceCount with hpcBytes
  set fs := toLe 8 st.fileSize with hfsBytes
  have h4 : pc.length = 4 := length_toLe 4 st.pieceCount
  have h8 : fs.length = 8 := length_toLe 8 st.fileSize
  have hsave : st.save = magicBytes ++ version :: (pc ++ fs ++ st.bitfield) := rfl
  clear_value pc fs
  have hlen : st.save.length = headerSize + st.bitfield.length := by
    rw [hsave, List.length_append, List.length_cons, List.length_append, List.length_append, h4, h8]
    show 4 + (4 + 8 + _ + 1) = 17 + _
    omega
  have hmagic : slice st.save 0 4 = some magicBytes := slice_append [] magicBytes _
  have hversion : st.save[4]? = some version := rfl
  have hpcSlice : slice st.save 5 9 = some pc := by
    have hs := slice_append (magicBytes ++ [version]) pc (fs ++ st.bitfield)
    rw [h4] at hs
    rw [← hs, hsave]
    simp [magicBytes]
  have hfsSlice : slice st.save 9 17 = some fs := by
    have hs := slice_append (magicBytes ++ version :: pc) fs st.bitfield
    rw [h8, List.length_append, List.length_cons, h4] at hs
    rw [← hs, hsave]
    simp [magicBytes]
  have hdrop : st.save.drop headerSize = st.bitfield := by
    have hl : headerSize = (magicBytes ++ version :: (pc ++ fs)).length := by
      rw [List.length_append, List.length_cons, List.length_append, h4, h8]
      rfl
    have hsplit : st.save = (magicBytes ++ version :: (pc ++ fs)) ++ st.bitfield := by
      rw [hsave]
      simp
    rw [hl, hsplit, List.drop_left]
  unfold load
  simp only [bind_eq_ok, okOr_eq_ok, refuse_eq_ok, decide_eq_false_iff_not]
  refine ⟨(), by omega, magicBytes, hmagic, (), by simp, version, hversion, (), by simp, pc, hpcSlice,
    fs, hfsSlice, (), ?_, ?_⟩
  · rw [hdrop, hcount, hbits]
    exact lt_irrefl _
  · rw [hdrop, hcount, hsize, ← hbits, List.take_length]
    rfl

/-! ### The bits -/

/-- **The bit of a piece.** A `markDone` out of bounds does nothing. -/
theorem isDone_markDone (st : ResumeState) (i j : ℕ) : (st.markDone i).isDone j =
    (st.isDone j || decide (j = i ∧ i / 8 < st.bitfield.length)) :=
  getBit_setBit st.bitfield i j

theorem isDone_new (pieceCount fileSize i : ℕ) : (new pieceCount fileSize).isDone i = false := by
  unfold isDone new getBit
  rw [List.getElem?_replicate]
  split_ifs
  · show (((0 : UInt8) >>> UInt8.ofNat (i % 8)) &&& 1 == 1) = false
    rw [UInt8.zero_shiftRight]
    rfl
  · rfl

theorem valid_new {pieceCount fileSize : ℕ} (hpc : pieceCount ≤ u32Max) (hfs : fileSize ≤ u64Max) :
    (new pieceCount fileSize).Valid :=
  ⟨hpc, hfs, List.length_replicate⟩

theorem Valid.markDone (h : st.Valid) (i : ℕ) : (st.markDone i).Valid :=
  ⟨h.pieceCount, h.fileSize, (length_setBit st.bitfield i).trans h.bitfield⟩

theorem Valid.snapshot (h : st.Valid) (m : SharedPieceMap) (i : ℕ) : (st.snapshot m i).Valid := by
  unfold ResumeState.snapshot
  split_ifs
  · exact h.markDone i
  · exact h

/-- A round of the snapshot sets the bit of its piece only if that is done. -/
theorem isDone_snapshot {m : SharedPieceMap} {i j : ℕ} (h : (st.snapshot m i).isDone j = true) :
    st.isDone j = true ∨ m.get j = .done := by
  unfold ResumeState.snapshot at h
  split_ifs at h with hdone
  · rw [isDone_markDone, Bool.or_eq_true, decide_eq_true_iff] at h
    rcases h with h | ⟨rfl, -⟩
    · exact Or.inl h
    · exact Or.inr hdone
  · exact Or.inl h

/-! ### What was marked -/

/-- The state after the calls of `mark_done`. -/
def markAll (marks : List ℕ) : ResumeState := marks.foldl markDone st

theorem markAll_spec (marks : List ℕ) : ∀ {st : ResumeState}, st.Valid → (st.markAll marks).Valid ∧
    (st.markAll marks).pieceCount = st.pieceCount ∧ (st.markAll marks).fileSize = st.fileSize ∧
    ∀ i, (st.markAll marks).isDone i = true ↔
      st.isDone i = true ∨ (i ∈ marks ∧ i / 8 < packedByteCount st.pieceCount) := by
  induction marks with
  | nil => exact fun h => ⟨h, rfl, rfl, fun i => by simp [markAll]⟩
  | cons m marks ih =>
    intro st h
    obtain ⟨hvalid, hpc, hfs, hdone⟩ := ih (h.markDone m)
    refine ⟨hvalid, hpc, hfs, fun i => ?_⟩
    rw [show st.markAll (m :: marks) = (st.markDone m).markAll marks from rfl, hdone i,
      isDone_markDone, Bool.or_eq_true, decide_eq_true_iff, h.bitfield, List.mem_cons]
    show _ ∨ (i ∈ marks ∧ i / 8 < packedByteCount st.pieceCount) ↔ _
    constructor
    · rintro ((hi | ⟨rfl, hlt⟩) | ⟨hi, hlt⟩)
      · exact Or.inl hi
      · exact Or.inr ⟨Or.inl rfl, hlt⟩
      · exact Or.inr ⟨Or.inr hi, hlt⟩
    · rintro (hi | ⟨rfl | hi, hlt⟩)
      · exact Or.inl (Or.inl hi)
      · exact Or.inl (Or.inr ⟨rfl, hlt⟩)
      · exact Or.inr ⟨hi, hlt⟩

/-- **What `load` accepts**: the magic, the version, and a bit for every piece of the header. -/
theorem load_ok {data : List UInt8} (h : load data = .ok st) :
    slice data 0 4 = some magicBytes ∧ data[4]? = some version ∧
      (∃ count, slice data 5 9 = some count ∧ st.pieceCount = ofLe count) ∧
      headerSize + (st.pieceCount + 7) / 8 ≤ data.length := by
  unfold load at h
  simp only [bind_eq_ok, okOr_eq_ok, refuse_eq_ok, decide_eq_false_iff_not] at h
  obtain ⟨-, hlen, magic, hmagic, -, hm, v, hv, -, hver, pc, hpc, fs, hfs, -, hbits, hst⟩ := h
  cases hst
  have hlt := ofLe_lt pc
  have hpcLen : pc.length = 4 := by
    obtain ⟨-, hb, -⟩ := slice_eq_some_iff.mp hpc
    omega
  have hcount : packedByteCount (ofLe pc) = (ofLe pc + 7) / 8 := by
    unfold packedByteCount
    rw [satAdd_of_le]
    rw [hpcLen] at hlt
    unfold u64Max
    omega
  rw [hcount, List.length_drop] at hbits
  refine ⟨hmagic.trans (congrArg some (not_not.mp hm)), hv.trans (congrArg some (not_not.mp hver)),
    ⟨pc, hpc, rfl⟩, ?_⟩
  show headerSize + (ofLe pc + 7) / 8 ≤ data.length
  omega

/-- **When the bits are those of the pieces that were marked.** What is saved is loaded and what is
loaded is well formed, in any case. A piece is done exactly if it is in range and was marked, if no
number was marked that is out of range and still has a bit in the last byte. -/
theorem isDone_iff_marked_iff (pieceCount : Fin (2 ^ 32)) (fileSize : Fin (2 ^ 64))
    (marks : List (Fin (2 ^ 32))) :
    ((∃ loaded, load ((new pieceCount fileSize).markAll (marks.map Fin.val)).save = .ok loaded ∧
        loaded.pieceCount = pieceCount ∧ loaded.fileSize = fileSize ∧ loaded.toVerifiedPieces =
          ((new pieceCount fileSize).markAll (marks.map Fin.val)).toVerifiedPieces) ∧
      (∀ data st, load data = .ok st → slice data 0 4 = some magicBytes ∧
        data[4]? = some version ∧ (∃ count, slice data 5 9 = some count ∧ st.pieceCount = ofLe count) ∧
        headerSize + (st.pieceCount + 7) / 8 ≤ data.length) ∧
      ∀ i : Fin (2 ^ 32), ((new pieceCount fileSize).markAll (marks.map Fin.val)).isDone i = true ↔
        i < pieceCount ∧ i ∈ marks) ↔
    ∀ i ∈ marks, i < pieceCount ∨ 8 * ((pieceCount.val + 7) / 8) ≤ i.val := by
  have hnew : (new pieceCount fileSize).Valid :=
    valid_new (Nat.le_of_lt_succ pieceCount.isLt) (Nat.le_of_lt_succ fileSize.isLt)
  obtain ⟨hvalid, hpc, hfs, hdone⟩ := markAll_spec (marks.map Fin.val) hnew
  have hbytes : packedByteCount pieceCount = (pieceCount.val + 7) / 8 := by
    unfold packedByteCount
    rw [satAdd_of_le]
    have := pieceCount.isLt
    unfold u64Max
    omega
  have hbit : ∀ i : Fin (2 ^ 32),
      ((new pieceCount fileSize).markAll (marks.map Fin.val)).isDone i = true ↔
        i ∈ marks ∧ i.val / 8 < (pieceCount.val + 7) / 8 := by
    intro i
    have hmem : i.val ∈ marks.map Fin.val ↔ i ∈ marks := by
      rw [List.mem_map]
      exact ⟨fun ⟨j, hj, hji⟩ => Fin.ext hji ▸ hj, fun hi => ⟨i, hi, rfl⟩⟩
    rw [hdone i.val, isDone_new, ← hbytes, hmem]
    exact ⟨fun h => h.resolve_left Bool.false_ne_true, Or.inr⟩
  constructor
  · rintro ⟨-, -, h⟩ i hi
    by_cases hlt : i.val / 8 < (pieceCount.val + 7) / 8
    · exact Or.inl ((h i).mp ((hbit i).mpr ⟨hi, hlt⟩)).1
    · right
      omega
  · intro h
    refine ⟨⟨_, load_save hvalid, hpc, hfs, rfl⟩, fun data st => load_ok, fun i => ?_⟩
    rw [hbit i]
    constructor
    · rintro ⟨hi, hlt⟩
      exact ⟨(h i hi).resolve_right (by omega), hi⟩
    · rintro ⟨hlt, hi⟩
      refine ⟨hi, ?_⟩
      have : i.val < pieceCount.val := hlt
      omega

/-- Piece 5 of 4 is marked, and is done. -/
theorem marked_out_of_range : ¬ ∀ i : Fin (2 ^ 32), ((new 4 100).markAll [5]).isDone i = true ↔
    i < 4 ∧ i ∈ [(5 : Fin (2 ^ 32))] := by
  intro h
  have hdone : ((new 4 100).markAll [5]).isDone (5 : Fin (2 ^ 32)) = true := by decide
  exact absurd ((h 5).mp hdone).1 (by decide)

end ResumeState

end CncContent.Torrent.Resume
