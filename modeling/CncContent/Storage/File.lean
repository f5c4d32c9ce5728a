import CncContent.Lib.Bytes
import CncContent.Storage.Backend

/-! # File storage

The default backend. The state is the contents of the output file, with what its next writes and
flushes will meet: an error may come after any number of bytes. Opening either keeps an existing
file of the right size, if the caller asks to resume, or replaces it by zeros (`openFile_ok`). -/

namespace CncContent.Storage.File

open CncContent.Lib.Bytes CncContent.Lib.Overlay CncContent.Storage.Backend

/-- An error after so many bytes have been written. -/
abbrev Fault := Option (ℕ × IoError)

structure FileStorage where
  bytes : List UInt8
  /-- What the next operations meet; after these all succeed. -/
  faults : List Fault
deriving DecidableEq, Repr

/-- `seek` and `write`: a write beyond the end fills the gap with zeros. -/
def writeAt (bytes : List UInt8) (offset : ℕ) (data : List UInt8) : List UInt8 :=
  if data = [] then bytes
  else (bytes ++ List.replicate (offset - bytes.length) 0).take offset ++
    (data ++ bytes.drop (offset + data.length))

def fileStorage : PieceStorage FileStorage where
  writePiece f _ offset data :=
    match f.faults.head?.join with
    | some (n, e) => (.error (.io offset e), ⟨writeAt f.bytes offset (data.take n), f.faults.tail⟩)
    | none => (.ok (), ⟨writeAt f.bytes offset data, f.faults.tail⟩)
  readPiece f offset len := .ok ((f.bytes.drop offset).take len)
  flush f :=
    match f.faults.head?.join with
    | some (_, e) => (.error (.io 0 e), ⟨f.bytes, f.faults.tail⟩)
    | none => (.ok (), ⟨f.bytes, f.faults.tail⟩)

/-- The bytes of a file, followed by zeros. -/
def contents (bytes : List UInt8) (x : ℕ) : UInt8 := bytes[x]?.getD 0

def view (f : FileStorage) : ℕ → UInt8 := contents f.bytes

theorem contents_writeAt (bytes : List UInt8) (offset : ℕ) (data : List UInt8) :
    contents (writeAt bytes offset data) = overlay (contents bytes) offset data := by
  funext x
  unfold writeAt
  split_ifs with hdata
  · subst hdata
    exact (overlay_of_not_within fun h => Nat.not_lt_of_le h.1 h.2).symm
  · have hlen : ((bytes ++ List.replicate (offset - bytes.length) 0).take offset).length = offset := by
      rw [List.length_take, List.length_append, List.length_replicate]
      omega
    unfold contents overlay
    by_cases hx : offset ≤ x
    · rw [if_pos hx, List.getElem?_append_right (by omega), hlen]
      by_cases hin : x - offset < data.length
      · rw [List.getElem?_append_left hin, List.getElem?_eq_getElem hin]
        rfl
      · rw [List.getElem?_append_right (by omega), List.getElem?_eq_none (by omega : _ ≤ x - offset),
          List.getElem?_drop]
        show bytes[_]?.getD 0 = bytes[x]?.getD 0
        congr 2
        omega
    · rw [if_neg hx, List.getElem?_append_left (by omega), List.getElem?_take_of_lt (by omega),
        List.getElem?_append]
      split_ifs with hb
      · rfl
      · dsimp only
        rw [List.getElem?_replicate, List.getElem?_eq_none (Nat.le_of_not_lt hb)]
        split_ifs
        · rfl
        · rfl

/-- A write inside the file keeps its length. -/
theorem length_writeAt_of_le {bytes : List UInt8} {offset : ℕ} {data : List UInt8}
    (h : offset + data.length ≤ bytes.length) :
    (writeAt bytes offset data).length = bytes.length := by
  unfold writeAt
  split_ifs
  · rfl
  · rw [List.length_append, List.length_take, List.length_append, List.length_append,
      List.length_drop, List.length_replicate]
    omega

theorem bytes_flush (f : FileStorage) : (fileStorage.flush f).2.bytes = f.bytes := by
  unfold fileStorage
  dsimp only
  rcases f.faults.head?.join with _ | ⟨n, e⟩
  · rfl
  · rfl

/-- **The file is a lawful backend.** -/
theorem fileStorage_lawful : fileStorage.Lawful view where
  write_ok f i offset data h := by
    unfold fileStorage at h ⊢
    dsimp only at h ⊢
    rcases hf : f.faults.head?.join with _ | ⟨n, e⟩
    · rw [hf] at h
      exact contents_writeAt f.bytes offset data
    · rw [hf] at h
      cases h
  write_error f i offset data x hx := by
    unfold fileStorage
    dsimp only
    rcases hf : f.faults.head?.join with _ | ⟨n, e⟩
    · show contents (writeAt f.bytes offset data) x = _
      rw [contents_writeAt, overlay_of_not_within hx]
      rfl
    · show contents (writeAt f.bytes offset (data.take n)) x = _
      rw [contents_writeAt, overlay_of_not_within]
      · rfl
      · rintro ⟨hle, hlt⟩
        rw [List.length_take] at hlt
        exact hx ⟨hle, by omega⟩
  flush f := congrArg contents (bytes_flush f)

theorem length_writePiece (f : FileStorage) (i : ℕ) {offset : ℕ} {data : List UInt8}
    (h : offset + data.length ≤ f.bytes.length) :
    (fileStorage.writePiece f i offset data).2.bytes.length = f.bytes.length := by
  unfold fileStorage
  dsimp only
  rcases f.faults.head?.join with _ | ⟨n, e⟩
  · exact length_writeAt_of_le h
  · refine length_writeAt_of_le (le_trans (Nat.add_le_add_left ?_ _) h)
    rw [List.length_take]
    exact min_le_right _ _

/-- A range of the file as its contents show it. -/
theorem slice_eq_window {bytes : List UInt8} {a n : ℕ} (h : a + n ≤ bytes.length) :
    slice bytes a (a + n) = some (window (contents bytes) a n) := by
  rw [slice_eq_some_iff, length_window]
  refine ⟨by omega, rfl, bytes.drop (a + n), ?_⟩
  have hsplit := (List.take_append_drop n (bytes.drop a)).symm
  rw [List.drop_drop] at hsplit
  refine hsplit.trans (congrArg (· ++ _) ?_)
  refine List.ext_getElem (by rw [length_window]; simp; omega) fun k hk _ => ?_
  rw [List.length_take, List.length_drop] at hk
  rw [List.getElem_take, List.getElem_drop, getElem_window]
  unfold contents
  rw [List.getElem?_eq_getElem (by omega)]
  rfl

/-! ### Opening -/

/-- The errors of the calls that open the file. -/
structure OpenFaults where
  createDir : Option IoError
  metadata : Option IoError
  openFile : Option IoError
  setLen : Option IoError
deriving DecidableEq, Repr

/-- The existing file, if it is to be reused and its length can be read. -/
def reusable (existing : Option (List UInt8)) (fileSize : ℕ) (resuming : Bool)
    (metadata : Option IoError) : Option (List UInt8) :=
  if resuming && metadata.isNone then existing.filter fun bytes => bytes.length == fileSize else none

/-- **A file is reused** if the caller asks to resume and it is there with the right length. -/
theorem reusable_eq_some_iff {existing : Option (List UInt8)} {fileSize : ℕ} {resuming : Bool}
    {metadata : Option IoError} {bytes : List UInt8} :
    reusable existing fileSize resuming metadata = some bytes ↔
      resuming = true ∧ metadata = none ∧ existing = some bytes ∧ bytes.length = fileSize := by
  unfold reusable
  split_ifs with h
  · rw [Bool.and_eq_true, Option.isNone_iff_eq_none] at h
    rw [Option.filter_eq_some_iff, beq_iff_eq]
    exact ⟨fun he => ⟨h.1, h.2, he⟩, fun he => he.2.2⟩
  · rw [Bool.and_eq_true, Option.isNone_iff_eq_none] at h
    exact ⟨nofun, fun he => absurd ⟨he.1, he.2.1⟩ h⟩

/-- `FileStorage::open` on the file that is there, if any: the storage, and the file afterwards. -/
def openFile (existing : Option (List UInt8)) (fileSize : ℕ) (resuming : Bool) (faults : OpenFaults)
    (later : List Fault) : Except StorageError FileStorage × Option (List UInt8) :=
  match faults.createDir, faults.openFile, reusable existing fileSize resuming faults.metadata with
  | some e, _, _ => (.error (.io 0 e), existing)
  | none, some e, _ => (.error (.io 0 e), existing)
  | none, none, some bytes => (.ok ⟨bytes, later⟩, existing)
  | none, none, none =>
    -- the file has been truncated before its length is set
    match faults.setLen with
    | some e => (.error (.io 0 e), some [])
    | none => (.ok ⟨List.replicate fileSize 0, later⟩, some (List.replicate fileSize 0))

/-- **An opened file** is the existing one, if that is reusable, and else filled with zeros. -/
theorem openFile_ok {existing : Option (List UInt8)} {fileSize : ℕ} {resuming : Bool}
    {faults : OpenFaults} {later : List Fault} {f : FileStorage}
    (h : (openFile existing fileSize resuming faults later).1 = .ok f) :
    f.bytes = (reusable existing fileSize resuming faults.metadata).getD
        (List.replicate fileSize 0) ∧
      (openFile existing fileSize resuming faults later).2 = some f.bytes := by
  unfold openFile at h ⊢
  rcases hc : faults.createDir with _ | e
  · rcases ho : faults.openFile with _ | e
    · rcases hr : reusable existing fileSize resuming faults.metadata with _ | bytes
      · rcases hs : faults.setLen with _ | e
        · rw [hc, ho, hr, hs] at h
          cases h
          exact ⟨rfl, rfl⟩
        · rw [hc, ho, hr, hs] at h
          cases h
      · rw [hc, ho, hr] at h
        cases h
        exact ⟨rfl, (reusable_eq_some_iff.mp hr).2.2.1⟩
    · rw [hc, ho] at h
      cases h
  · rw [hc] at h
    cases h

/-- A file that can be reused stays as it is, even if opening it fails. -/
theorem openFile_reusable {existing : Option (List UInt8)} {fileSize : ℕ} {resuming : Bool}
    {faults : OpenFaults} {later : List Fault} {bytes : List UInt8}
    (h : reusable existing fileSize resuming faults.metadata = some bytes) :
    (openFile existing fileSize resuming faults later).2 = existing := by
  unfold openFile
  rw [h]
  rcases faults.createDir with _ | e
  · rcases faults.openFile with _ | e
    · rfl
    · rfl
  · rfl

end CncContent.Storage.File
