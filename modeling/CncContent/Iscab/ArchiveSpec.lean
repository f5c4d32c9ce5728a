import CncContent.Iscab.Archive
import Mathlib.Data.Nat.Basic

/-! # What opening a header returns

All reads of `open` lie in the header and no sum overflows, on either platform: a saturated offset lies behind
every header, as the true one does. So the catalog is that of the first descriptors that lie in the header
(`openHeader_of_accepted`). The room reserved before is that of the declared counts, whatever the header can
hold: the call is right exactly for headers whose counts fit (`open_right_iff`). -/

namespace CncContent.Iscab.ArchiveSpec

open CncContent.Lib.Bounded CncContent.Lib.Bytes CncContent.Iscab.Archive

/-! ### What is in a header -/

section Fields

variable (data : List UInt8)

/-- The number of `n` bytes at the offset. -/
def le (n offset : ℕ) : ℕ := ofLe ((data.drop offset).take n)

def majorOf : ℕ := le data 4 4 / 2 ^ 12 % 2 ^ 4

def cabDescOf : ℕ := le data 4 0x0C

def fileTableOf : ℕ := cabDescOf data + le data 4 (cabDescOf data)

def directoryCountOf : ℕ := le data 4 (cabDescOf data + 0x0C)

def fileCountOf : ℕ := le data 4 (cabDescOf data + 0x1C)

def fileTable2Of : ℕ := cabDescOf data + le data 4 (cabDescOf data + 0x20)

/-- A header of a known version with a cab descriptor. -/
structure Accepted : Prop where
  length : 20 ≤ data.length
  signature : le data 4 0 = signature
  major : majorOf data = 5 ∨ majorOf data = 6
  cabDesc : cabDescOf data + 0x24 ≤ data.length

/-- The number of entries of a table that lie in the header. -/
def fitting (offset size : ℕ) : ℕ := (data.length - offset) / size

theorem lt_fitting_iff (offset i : ℕ) {size : ℕ} (hsize : 0 < size) :
    i < fitting data offset size ↔ offset + i * size + size ≤ data.length := by
  have hsucc : (i + 1) * size = i * size + size := Nat.succ_mul i size
  have hpos : 0 < (i + 1) * size := Nat.mul_pos (Nat.succ_pos i) hsize
  unfold fitting
  rw [Nat.lt_iff_add_one_le, Nat.le_div_iff_mul_le hsize]
  omega

/-- The name that the entry at the offset points to. -/
def nameAt (offset : ℕ) : List UInt8 := readCstring data (fileTableOf data + le data 4 offset)

/-- The directories whose entries lie in the header. -/
def directories : List (List UInt8) :=
  (List.range (min (directoryCountOf data) (fitting data (fileTableOf data) 4))).map fun i =>
    nameAt data (fileTableOf data + i * 4)

/-- The file that the descriptor at the offset describes, in the layout of the version. -/
def entryAt (base : ℕ) : FileEntry :=
  let name := nameAt data base
  let dir := ((directories data)[le data 4 (base + 0x04)]?).getD []
  let volume := le data 2 (base + if majorOf data < 6 then 0x2E else 0x36)
  { fullPath := pathOf dir name
    name := name
    flags := le data 2 (base + 0x08)
    expandedSize := if majorOf data < 6 then le data 4 (base + 0x0A) else le data 8 (base + 0x0A)
    compressedSize := if majorOf data < 6 then le data 4 (base + 0x0E) else le data 8 (base + 0x12)
    dataOffset := le data 4 (base + if majorOf data < 6 then 0x26 else 0x2E)
    volume := if volume = 0 then 1 else volume }

/-- The files of the first descriptors, as many as are declared and lie in the header. -/
def catalog : List FileEntry :=
  (List.range (min (fileCountOf data) (fitting data (fileTable2Of data) (fdSize (majorOf data))))).map fun i =>
    entryAt data (fileTable2Of data + i * fdSize (majorOf data))

end Fields

/-! ### Reading -/

section Reading

variable {p : Platform} {data : List UInt8}

theorem isizeMax_lt (p : Platform) : p.isizeMax < p.usizeMax := by
  unfold Platform.isizeMax
  rcases p.width with h | h
  · rw [h]
    decide
  · rw [h]
    decide

theorem le_usizeMax (hlen : data.length ≤ p.isizeMax) {n : ℕ} (h : n ≤ data.length) : n ≤ p.usizeMax :=
  Nat.le_trans h (Nat.le_trans hlen (Nat.le_of_lt (isizeMax_lt p)))

theorem plus_of_le (hlen : data.length ≤ p.isizeMax) {a b : ℕ} (h : a + b ≤ data.length) :
    plus p a b = .ok (a + b) := by
  unfold plus
  rw [checkedAdd_of_le (le_usizeMax hlen h)]

/-- A read in the header. -/
theorem readLe_of_le (hlen : data.length ≤ p.isizeMax) {n offset : ℕ} (label : String)
    (h : offset + n ≤ data.length) : readLe p data n label offset = .ok (le data n offset) := by
  have hslice : slice data offset (offset + n) = some ((data.drop offset).take n) := by
    unfold slice
    rw [if_pos ⟨Nat.le_add_right _ _, h⟩, Nat.add_sub_cancel_left]
  have hlength : ((data.drop offset).take n).length = n := by
    rw [List.length_take, List.length_drop]
    omega
  unfold readLe
  rw [satAdd_of_le (le_usizeMax hlen h), hslice]
  dsimp only
  rw [if_pos hlength]
  rfl

/-- A sum and a read behind it, in the header. -/
theorem plus_bind_readLe (hlen : data.length ≤ p.isizeMax) {n base k : ℕ} (label : String)
    (h : base + k + n ≤ data.length) :
    (plus p base k).bind (readLe p data n label) = .ok (le data n (base + k)) := by
  rw [plus_of_le hlen (Nat.le_trans (Nat.le_add_right _ n) h)]
  exact readLe_of_le hlen label h

theorem readCstring_of_length_le {offset : ℕ} (h : data.length ≤ offset) : readCstring data offset = [] := by
  unfold readCstring
  rw [List.drop_of_length_le h]
  rfl

/-- A saturated offset lies behind the header, as the true one does. -/
theorem readCstring_satAdd (hlen : data.length ≤ p.isizeMax) (a b c : ℕ) :
    readCstring data (satAdd p.usizeMax (satAdd p.usizeMax a b) c) = readCstring data (a + b + c) := by
  have hmax := isizeMax_lt p
  have hsat : satAdd p.usizeMax (satAdd p.usizeMax a b) c = min (a + b + c) p.usizeMax := satAdd_min _ _ _
  rw [hsat]
  by_cases h : a + b + c ≤ p.usizeMax
  · rw [Nat.min_eq_left h]
  · rw [Nat.min_eq_right (by omega), readCstring_of_length_le (by omega), readCstring_of_length_le (by omega)]

/-- **The loop over a table** reads the entries that lie in the header, and stops at the first that does not. -/
theorem readTable_eq (hlen : data.length ≤ p.isizeMax) {α : Type} {a b size : ℕ} (hsize : 0 < size)
    {entry : ℕ → Except Stop α} {f : ℕ → α}
    (hentry : ∀ base, base + size ≤ data.length → entry base = .ok (f base)) : ∀ (n i : ℕ),
    readTable p data (satAdd p.usizeMax a b) size entry n i =
      .ok ((List.range' i (min n (fitting data (a + b) size - i))).map fun j => f (a + b + j * size))
  | 0, i => by
    rw [Nat.zero_min]
    rfl
  | n + 1, i => by
    have hmax := isizeMax_lt p
    have hbase : satAdd p.usizeMax (satAdd p.usizeMax a b) (satMul p.usizeMax i size) =
        min (a + b + i * size) p.usizeMax := by
      unfold satAdd satMul
      omega
    have hfit := lt_fitting_iff data (a + b) i hsize
    unfold readTable
    dsimp only
    rw [hbase]
    by_cases hin : a + b + i * size + size ≤ data.length
    · have hle : a + b + i * size ≤ p.usizeMax := by omega
      have hcount : min (n + 1) (fitting data (a + b) size - i) =
          min n (fitting data (a + b) size - (i + 1)) + 1 := by
        have := hfit.mpr hin
        omega
      rw [Nat.min_eq_left hle, checkedAdd_of_le (by omega)]
      dsimp only
      rw [if_neg (Nat.not_lt.mpr hin), hentry _ hin, readTable_eq hlen hsize hentry n (i + 1), hcount,
        List.range'_succ]
      rfl
    · have hcount : min (n + 1) (fitting data (a + b) size - i) = 0 := by
        have := mt hfit.mp hin
        omega
      rw [hcount]
      unfold checkedAdd
      split_ifs with hsum
      · dsimp only
        rw [if_pos (by omega)]
        rfl
      · rfl

/-! ### The steps of the call -/

/-- What the header says about its tables. -/
def tablesOf (p : Platform) (data : List UInt8) : Tables where
  major := majorOf data
  fileTableOffset := satAdd p.usizeMax (cabDescOf data) (le data 4 (cabDescOf data))
  directoryCount := directoryCountOf data
  fileCount := fileCountOf data
  fileTableOffset2 := satAdd p.usizeMax (cabDescOf data) (le data 4 (cabDescOf data + 0x20))

theorem bind_ok {ε α β : Type} (a : α) (f : α → Except ε β) : (Except.ok a >>= f) = f a := rfl

theorem readTables_of_accepted (hlen : data.length ≤ p.isizeMax) (h : Accepted data) :
    readTables p data = .ok (tablesOf p data) := by
  obtain ⟨hlength, hsignature, hmajor, hdesc⟩ := h
  have hknown : ¬ (majorOf data ≠ 5 ∧ majorOf data ≠ 6) := by omega
  have hread : ∀ {offset : ℕ}, offset + 4 ≤ data.length → readU32 p data offset = .ok (le data 4 offset) :=
    fun h => readLe_of_le hlen _ h
  have hplus : ∀ {k : ℕ}, cabDescOf data + k + 4 ≤ data.length →
      (plus p (cabDescOf data) k).bind (readU32 p data) = .ok (le data 4 (cabDescOf data + k)) :=
    fun h => plus_bind_readLe hlen _ h
  unfold readTables
  rw [if_neg (Nat.not_lt.mpr hlength), hread (by omega)]
  show (if le data 4 0 ≠ signature then _ else _) = _
  rw [if_neg (not_not.mpr hsignature), hread (by omega)]
  show (if majorOf data ≠ 5 ∧ majorOf data ≠ 6 then _ else _) = _
  rw [if_neg hknown, hread (by omega), show le data 4 0x0C = cabDescOf data from rfl,
    bind_ok, checkedAdd_of_le (le_usizeMax hlen hdesc)]
  dsimp only
  rw [if_neg (Nat.not_lt.mpr hdesc), hread (by omega), hplus (by omega), hplus (by omega), hplus (by omega)]
  rfl

/-- A header that is not accepted is refused with an error. -/
theorem readTables_of_not_accepted (hlen : data.length ≤ p.isizeMax) (h : ¬ Accepted data) :
    ∃ e, readTables p data = .error (.error e) := by
  have hread : ∀ {offset : ℕ}, offset + 4 ≤ data.length → readU32 p data offset = .ok (le data 4 offset) :=
    fun h => readLe_of_le hlen _ h
  unfold readTables
  by_cases hlength : data.length < 20
  · rw [if_pos hlength]
    exact ⟨_, rfl⟩
  rw [if_neg hlength, hread (by omega)]
  show ∃ e, (if le data 4 0 ≠ signature then _ else _) = _
  by_cases hsignature : le data 4 0 = signature
  swap
  · rw [if_pos hsignature]
    exact ⟨_, rfl⟩
  rw [if_neg (not_not.mpr hsignature), hread (by omega)]
  show ∃ e, (if majorOf data ≠ 5 ∧ majorOf data ≠ 6 then _ else _) = _
  by_cases hmajor : majorOf data = 5 ∨ majorOf data = 6
  swap
  · rw [if_pos (not_or.mp hmajor)]
    exact ⟨_, rfl⟩
  have hknown : ¬ (majorOf data ≠ 5 ∧ majorOf data ≠ 6) := by omega
  rw [if_neg hknown, hread (by omega), show le data 4 0x0C = cabDescOf data from rfl]
  dsimp only [bind, Except.bind]
  cases hadd : checkedAdd p.usizeMax (cabDescOf data) 0x24 with
  | none => exact ⟨_, rfl⟩
  | some stop =>
    obtain ⟨rfl, -⟩ := checkedAdd_eq_some_iff.mp hadd
    have hdesc : data.length < cabDescOf data + 0x24 := by
      by_contra hdesc
      exact h ⟨Nat.not_lt.mp hlength, hsignature, hmajor, Nat.not_lt.mp hdesc⟩
    dsimp only
    rw [if_pos hdesc]
    exact ⟨_, rfl⟩

theorem nameAt_eq (hlen : data.length ≤ p.isizeMax) (offset : ℕ) :
    readCstring data (satAdd p.usizeMax (tablesOf p data).fileTableOffset (le data 4 offset)) =
      nameAt data offset :=
  readCstring_satAdd hlen _ _ _

theorem readDirectories_eq (hlen : data.length ≤ p.isizeMax) :
    readDirectories p data (tablesOf p data) = .ok (directories data) := by
  unfold readDirectories directories
  rw [List.range_eq_range', ← Nat.sub_zero (fitting data (fileTableOf data) 4)]
  refine readTable_eq hlen (by decide) (fun base hbase => ?_) _ 0
  unfold readDirectory readU32
  rw [readLe_of_le hlen _ hbase, ← nameAt_eq hlen]
  rfl

/-- The fields of the layout lie in the descriptor. -/
theorem readLayout_eq (hlen : data.length ≤ p.isizeMax) {base : ℕ}
    (hbase : base + fdSize (majorOf data) ≤ data.length) :
    readLayout p data (tablesOf p data) base =
      .ok ((entryAt data base).expandedSize, (entryAt data base).compressedSize, (entryAt data base).dataOffset,
        base + if majorOf data < 6 then 0x2E else 0x36) := by
  have hread : ∀ {n k : ℕ} (label : String), base + k + n ≤ data.length →
      (plus p base k).bind (readLe p data n label) = .ok (le data n (base + k)) :=
    fun label h => plus_bind_readLe hlen label h
  unfold fdSize at hbase
  unfold readLayout entryAt
  dsimp only
  by_cases hmajor : majorOf data < 6
  · have hmajor' : (tablesOf p data).major < 6 := hmajor
    rw [if_pos hmajor] at hbase
    replace hbase : base + 0x33 ≤ data.length := hbase
    simp only [if_pos hmajor, if_pos hmajor']
    unfold readU32
    rw [hread _ (by omega), hread _ (by omega), hread _ (by omega), plus_of_le hlen (by omega)]
    rfl
  · have hmajor' : ¬ (tablesOf p data).major < 6 := hmajor
    rw [if_neg hmajor] at hbase
    replace hbase : base + 0x39 ≤ data.length := hbase
    simp only [if_neg hmajor, if_neg hmajor']
    unfold readU32 readU64
    rw [hread _ (by omega), hread _ (by omega), hread _ (by omega), plus_of_le hlen (by omega)]
    rfl

theorem readVolume_eq (hlen : data.length ≤ p.isizeMax) {offset : ℕ} (h : offset + 2 ≤ data.length) :
    readVolume p data offset = .ok (le data 2 offset) := by
  unfold readVolume
  rw [checkedAdd_of_le (le_usizeMax hlen h)]
  dsimp only
  rw [if_pos h]
  exact readLe_of_le hlen _ h

/-- **A descriptor in the header** is read without a stop. -/
theorem readEntry_eq (hlen : data.length ≤ p.isizeMax) {base : ℕ}
    (hbase : base + fdSize (majorOf data) ≤ data.length) :
    readEntry p data (tablesOf p data) (directories data) base = .ok (entryAt data base) := by
  have hsize : 0x33 ≤ fdSize (majorOf data) := by
    unfold fdSize
    split_ifs <;> decide
  have hvolume : base + (if majorOf data < 6 then 0x2E else 0x36) + 2 ≤ data.length := by
    unfold fdSize at hbase
    split_ifs at hbase ⊢
    · exact Nat.le_trans (by unfold fdSizeV5; omega) hbase
    · exact Nat.le_trans (by unfold fdSizeV6; omega) hbase
  unfold readEntry readU32 readU16
  rw [readLe_of_le hlen _ (by omega), plus_bind_readLe hlen _ (by omega), plus_bind_readLe hlen _ (by omega),
    readLayout_eq hlen hbase]
  show (readVolume p data _ >>= _) = _
  rw [readVolume_eq hlen hvolume]
  show Except.ok _ = _
  rw [nameAt_eq hlen]
  rfl

theorem readEntries_eq (hlen : data.length ≤ p.isizeMax) :
    readEntries p data (tablesOf p data) (directories data) = .ok (catalog data) := by
  have hsize : 0 < fdSize (majorOf data) := by
    unfold fdSize
    split_ifs <;> decide
  unfold readEntries catalog
  rw [List.range_eq_range', ← Nat.sub_zero (fitting data (fileTable2Of data) (fdSize (majorOf data)))]
  exact readTable_eq hlen hsize (fun base hbase => readEntry_eq hlen hbase) _ 0

/-- **A header that is not accepted** is refused before anything is reserved. -/
theorem openHeader_of_not_accepted (hlen : data.length ≤ p.isizeMax) (h : ¬ Accepted data) :
    ∃ e, openHeader p data = ⟨.error (.error e), 0, 0⟩ := by
  obtain ⟨e, he⟩ := readTables_of_not_accepted hlen h
  unfold openHeader
  rw [he]
  exact ⟨e, rfl⟩

/-- **A header that is accepted** gives its catalog, behind two reservations for what it declares. -/
theorem openHeader_of_accepted (hlen : data.length ≤ p.isizeMax) (h : Accepted data) :
    openHeader p data =
      if p.isizeMax < directoryCountOf data * p.stringSize then ⟨.error .capacityOverflow, 0, 0⟩
      else if p.isizeMax < fileCountOf data * p.entrySize then
        ⟨.error .capacityOverflow, directoryCountOf data, 0⟩
      else ⟨.ok (catalog data), directoryCountOf data, fileCountOf data⟩ := by
  unfold openHeader
  rw [readTables_of_accepted hlen h]
  dsimp only
  rw [readDirectories_eq hlen]
  by_cases hdirectories : p.isizeMax < directoryCountOf data * p.stringSize
  · rw [if_pos hdirectories, show withCapacity p p.stringSize (tablesOf p data).directoryCount =
      .error .capacityOverflow from if_pos hdirectories]
  rw [if_neg hdirectories, show withCapacity p p.stringSize (tablesOf p data).directoryCount = .ok () from
    if_neg hdirectories]
  dsimp only
  by_cases hfiles : p.isizeMax < fileCountOf data * p.entrySize
  · rw [if_pos hfiles, show withCapacity p p.entrySize (tablesOf p data).fileCount =
      .error .capacityOverflow from if_pos hfiles]
    rfl
  rw [if_neg hfiles, show withCapacity p p.entrySize (tablesOf p data).fileCount = .ok () from if_neg hfiles]
  dsimp only
  rw [readEntries_eq hlen]
  rfl

end Reading

/-! ### The call -/

/-- The call ends with a catalog or an error, has reserved room for no more entries than the header can hold, and
the catalog is that of the header. -/
structure Right (p : Platform) (data : List UInt8) : Prop where
  returns : (∃ entries, (openHeader p data).result = .ok entries) ∨
    ∃ e, (openHeader p data).result = .error (.error e)
  directoryRoom : (openHeader p data).directoryRoom ≤ data.length / 4
  fileRoom : (openHeader p data).fileRoom ≤ data.length / fdSize (majorOf data)
  catalog : ∀ entries, (openHeader p data).result = .ok entries → entries = catalog data

/-- The header is refused for its signature, version or size, or its counts are of no more entries than it can
hold, for which there can be an allocation. -/
def CountsFit (p : Platform) (data : List UInt8) : Prop :=
  Accepted data →
    (directoryCountOf data ≤ data.length / 4 ∧ directoryCountOf data * p.stringSize ≤ p.isizeMax) ∧
      fileCountOf data ≤ data.length / fdSize (majorOf data) ∧ fileCountOf data * p.entrySize ≤ p.isizeMax

/-- **Opening a header** is right exactly if its counts fit. -/
theorem open_right_iff (p : Platform) {data : List UInt8} (hlen : data.length ≤ p.isizeMax) :
    Right p data ↔ CountsFit p data := by
  by_cases h : Accepted data
  swap
  · obtain ⟨e, he⟩ := openHeader_of_not_accepted hlen h
    refine iff_of_true ⟨Or.inr ⟨e, ?_⟩, ?_, ?_, ?_⟩ fun hacc => absurd hacc h
    all_goals rw [he]
    · exact Nat.zero_le _
    · exact Nat.zero_le _
    · nofun
  have hopen := openHeader_of_accepted hlen h
  by_cases hdirectories : p.isizeMax < directoryCountOf data * p.stringSize
  · rw [if_pos hdirectories] at hopen
    refine iff_of_false (fun hright => ?_) fun hfit => Nat.not_lt.mpr (hfit h).1.2 hdirectories
    obtain ⟨_, hok⟩ | ⟨_, herr⟩ := hright.returns
    · rw [hopen] at hok
      cases hok
    · rw [hopen] at herr
      cases herr
  rw [if_neg hdirectories] at hopen
  by_cases hfiles : p.isizeMax < fileCountOf data * p.entrySize
  · rw [if_pos hfiles] at hopen
    refine iff_of_false (fun hright => ?_) fun hfit => Nat.not_lt.mpr (hfit h).2.2 hfiles
    obtain ⟨_, hok⟩ | ⟨_, herr⟩ := hright.returns
    · rw [hopen] at hok
      cases hok
    · rw [hopen] at herr
      cases herr
  rw [if_neg hfiles] at hopen
  constructor
  · intro hright
    have hdir := hright.directoryRoom
    have hfile := hright.fileRoom
    rw [hopen] at hdir hfile
    exact fun _ => ⟨⟨hdir, Nat.not_lt.mp hdirectories⟩, hfile, Nat.not_lt.mp hfiles⟩
  · intro hfit
    refine ⟨Or.inl ⟨catalog data, ?_⟩, ?_, ?_, fun entries hentries => ?_⟩
    · rw [hopen]
    · rw [hopen]
      exact (hfit h).1.1
    · rw [hopen]
      exact (hfit h).2.1
    · rw [hopen] at hentries
      cases hentries
      rfl

/-- A header of version 5 with a cab descriptor behind the main header, and the tables at its end. -/
def header (directoryCount fileCount : List UInt8) : List UInt8 :=
  [0x49, 0x53, 0x63, 0x28, 0x00, 0x50, 0x00, 0x00, 0, 0, 0, 0, 0x14, 0, 0, 0, 0, 0, 0, 0] ++
    [0x24, 0, 0, 0, 0, 0, 0, 0, 0, 0, 0, 0] ++ directoryCount ++ [0, 0, 0, 0, 0, 0, 0, 0, 0, 0, 0, 0] ++
    fileCount ++ [0x24, 0, 0, 0]

/-- A platform with 64 bits. -/
def platform64 : Platform := ⟨u64Max, 24, 80, Or.inr rfl⟩

/-- A directory, a file in it, and the names of both. -/
def oneFileHeader : List UInt8 :=
  (header [1, 0, 0, 0] [1, 0, 0, 0]).take 52 ++ [0x28, 0, 0, 0] ++ [55, 0, 0, 0] ++
    [60, 0, 0, 0, 0, 0, 0, 0, 0, 0, 3, 0, 0, 0, 3, 0, 0, 0] ++ List.replicate 20 0 ++ [0, 2, 0, 0] ++
    List.replicate 4 0 ++ [1, 0] ++ List.replicate 3 0 ++ text "data" ++ [0] ++ text "a.txt" ++ [0]

theorem open_right_one_file : Right platform64 oneFileHeader ∧
    catalog oneFileHeader = [⟨text "data/a.txt", text "a.txt", 0, 3, 3, 512, 1⟩] :=
  ⟨(open_right_iff platform64 (by decide +kernel)).mpr fun _ => by decide +kernel, by decide +kernel⟩

/-- A header of 56 bytes makes the call reserve room for 4294967295 directories. -/
theorem room_for_declared_directories :
    ¬ Right platform64 (header [0xFF, 0xFF, 0xFF, 0xFF] [0, 0, 0, 0]) := by
  intro h
  have hroom := h.directoryRoom
  have haccepted : Accepted (header [0xFF, 0xFF, 0xFF, 0xFF] [0, 0, 0, 0]) :=
    ⟨by decide, by decide, by decide, by decide⟩
  rw [openHeader_of_accepted (by decide) haccepted, if_neg (by decide), if_neg (by decide)] at hroom
  revert hroom
  decide

end CncContent.Iscab.ArchiveSpec
