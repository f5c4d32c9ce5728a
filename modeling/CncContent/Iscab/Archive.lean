import CncContent.Lib.Bounded
import CncContent.Lib.Decimal

/-! # The header of an InstallShield archive

`IscabArchive::open` of the source, on the bytes of the header file and for a platform with 32-bit or 64-bit
`usize`. The two tables are read by loops that end at the first entry that does not lie in the header; room for
their entries is reserved before. -/

namespace CncContent.Iscab.Archive

open CncContent.Lib.Bounded CncContent.Lib.Bytes CncContent.Lib.Decimal

/-- The width of `usize`, and the sizes of the elements of the two vectors. -/
structure Platform where
  usizeMax : ℕ
  stringSize : ℕ
  entrySize : ℕ
  width : usizeMax = u32Max ∨ usizeMax = u64Max

/-- The largest size of an allocation. -/
def Platform.isizeMax (p : Platform) : ℕ := p.usizeMax / 2

def signature : ℕ := 0x28635349

def fdSizeV5 : ℕ := 0x33

def fdSizeV6 : ℕ := 0x39

def maxCstringLen : ℕ := 4096

inductive IscabError
  | badSignature (actual : ℕ)
  | unsupportedVersion (major : ℕ)
  | corrupt (detail : List UInt8)
deriving DecidableEq, Repr

/-- What ends the call early: an error, a sum that overflows, or a reservation that no allocation can have. -/
inductive Stop
  | error (e : IscabError)
  | overflow
  | capacityOverflow
deriving DecidableEq, Repr

structure FileEntry where
  fullPath : List UInt8
  name : List UInt8
  flags : ℕ
  expandedSize : ℕ
  compressedSize : ℕ
  dataOffset : ℕ
  volume : ℕ
deriving DecidableEq, Repr

/-- What the fields of the header say about the tables. -/
structure Tables where
  major : ℕ
  fileTableOffset : ℕ
  directoryCount : ℕ
  fileCount : ℕ
  fileTableOffset2 : ℕ
deriving DecidableEq, Repr

/-- The size of a file descriptor. -/
def fdSize (major : ℕ) : ℕ := if major < 6 then fdSizeV5 else fdSizeV6

def corrupt (detail : String) : Stop := .error (.corrupt (text detail))

section Reading

variable (p : Platform) (data : List UInt8)

/-- `+`. -/
def plus (a b : ℕ) : Except Stop ℕ :=
  match checkedAdd p.usizeMax a b with
  | some sum => .ok sum
  | none => .error .overflow

/-- The number of `n` bytes at the offset. -/
def readLe (n : ℕ) (label : String) (offset : ℕ) : Except Stop ℕ :=
  match slice data offset (satAdd p.usizeMax offset n) with
  | some bytes => if bytes.length = n then .ok (ofLe bytes) else .error outOfBounds
  | none => .error outOfBounds
where
  outOfBounds : Stop :=
    .error (.corrupt (text label ++ text " read at offset " ++ printNat offset ++ text " out of bounds"))

def readU16 (offset : ℕ) : Except Stop ℕ := readLe p data 2 "u16" offset

def readU32 (offset : ℕ) : Except Stop ℕ := readLe p data 4 "u32" offset

def readU64 (offset : ℕ) : Except Stop ℕ := readLe p data 8 "u64" offset

/-- The bytes up to the first NUL, of at most `maxCstringLen`. -/
def readCstring (offset : ℕ) : List UInt8 :=
  fromUtf8Lossy (((data.drop offset).take maxCstringLen).takeWhile (· ≠ 0))

/-- `with_capacity`. -/
def withCapacity (size count : ℕ) : Except Stop Unit :=
  if p.isizeMax < count * size then .error .capacityOverflow else .ok ()

/-- The loop over the entries of a table, from the entry `i` on. -/
def readTable {α : Type} (offset size : ℕ) (entry : ℕ → Except Stop α) : ℕ → ℕ → Except Stop (List α)
  | 0, _ => .ok []
  | n + 1, i =>
    let base := satAdd p.usizeMax offset (satMul p.usizeMax i size)
    match checkedAdd p.usizeMax base size with
    | none => .ok []
    | some stop =>
      if data.length < stop then .ok []
      else do
        let first ← entry base
        let rest ← readTable offset size entry n (i + 1)
        .ok (first :: rest)

/-! ### The steps of `open` -/

/-- The main header and the cab descriptor. -/
def readTables : Except Stop Tables := do
  if data.length < 20 then .error (corrupt "header file too small (< 20 bytes)")
  else
    let actual ← readU32 p data 0
    if actual ≠ signature then .error (.error (.badSignature actual))
    else
      let version ← readU32 p data 4
      let major := version / 2 ^ 12 % 2 ^ 4
      if major ≠ 5 ∧ major ≠ 6 then .error (.error (.unsupportedVersion major))
      else
        let cabDescOffset ← readU32 p data 0x0C
        match checkedAdd p.usizeMax cabDescOffset 0x24 with
        | none => .error (corrupt "cab descriptor offset overflow")
        | some cabDescEnd =>
          if data.length < cabDescEnd then .error (corrupt "cab descriptor offset out of bounds")
          else
            let fileTable ← readU32 p data cabDescOffset
            let directoryCount ← (plus p cabDescOffset 0x0C).bind (readU32 p data)
            let fileCount ← (plus p cabDescOffset 0x1C).bind (readU32 p data)
            let fileTable2 ← (plus p cabDescOffset 0x20).bind (readU32 p data)
            .ok ⟨major, satAdd p.usizeMax cabDescOffset fileTable, directoryCount, fileCount,
              satAdd p.usizeMax cabDescOffset fileTable2⟩

/-- A directory entry. -/
def readDirectory (t : Tables) (ptrOffset : ℕ) : Except Stop (List UInt8) := do
  let name ← readU32 p data ptrOffset
  .ok (readCstring data (satAdd p.usizeMax t.fileTableOffset name))

def readDirectories (t : Tables) : Except Stop (List (List UInt8)) :=
  readTable p data t.fileTableOffset 4 (readDirectory p data t) t.directoryCount 0

/-- The sizes, the data offset and the offset of the volume, in the layout of the version. -/
def readLayout (t : Tables) (base : ℕ) : Except Stop (ℕ × ℕ × ℕ × ℕ) :=
  if t.major < 6 then do
    let expandedSize ← (plus p base 0x0A).bind (readU32 p data)
    let compressedSize ← (plus p base 0x0E).bind (readU32 p data)
    let dataOffset ← (plus p base 0x26).bind (readU32 p data)
    let volumeOffset ← plus p base 0x2E
    .ok (expandedSize, compressedSize, dataOffset, volumeOffset)
  else do
    let expandedSize ← (plus p base 0x0A).bind (readU64 p data)
    let compressedSize ← (plus p base 0x12).bind (readU64 p data)
    let dataOffset ← (plus p base 0x2E).bind (readU32 p data)
    let volumeOffset ← plus p base 0x36
    .ok (expandedSize, compressedSize, dataOffset, volumeOffset)

/-- The number of the volume, 1 if it lies outside. -/
def readVolume (volumeOffset : ℕ) : Except Stop ℕ :=
  match checkedAdd p.usizeMax volumeOffset 2 with
  | some stop => if stop ≤ data.length then readU16 p data volumeOffset else .ok 1
  | none => .ok 1

/-- The name behind the directory. -/
def pathOf (dir name : List UInt8) : List UInt8 := if dir = [] then name else dir ++ byte '/' :: name

/-- A file descriptor. -/
def readEntry (t : Tables) (directories : List (List UInt8)) (base : ℕ) : Except Stop FileEntry := do
  let nameOffset ← readU32 p data base
  let dirIndex ← (plus p base 0x04).bind (readU32 p data)
  let flags ← (plus p base 0x08).bind (readU16 p data)
  let (expandedSize, compressedSize, dataOffset, volumeOffset) ← readLayout p data t base
  let volume ← readVolume p data volumeOffset
  let name := readCstring data (satAdd p.usizeMax t.fileTableOffset nameOffset)
  let dir := (directories[dirIndex]?).getD []
  .ok ⟨pathOf dir name, name, flags, expandedSize, compressedSize, dataOffset, if volume = 0 then 1 else volume⟩

def readEntries (t : Tables) (directories : List (List UInt8)) : Except Stop (List FileEntry) :=
  readTable p data t.fileTableOffset2 (fdSize t.major) (readEntry p data t directories) t.fileCount 0

/-- What the call ends with, and for how many directories and files it has reserved room. -/
structure Opened where
  result : Except Stop (List FileEntry)
  directoryRoom : ℕ
  fileRoom : ℕ
deriving DecidableEq

/-- `open`. -/
def openHeader : Opened :=
  match readTables p data with
  | .error e => ⟨.error e, 0, 0⟩
  | .ok t =>
    match withCapacity p p.stringSize t.directoryCount with
    | .error e => ⟨.error e, 0, 0⟩
    | .ok _ =>
      match readDirectories p data t with
      | .error e => ⟨.error e, t.directoryCount, 0⟩
      | .ok directories =>
        match withCapacity p p.entrySize t.fileCount with
        | .error e => ⟨.error e, t.directoryCount, 0⟩
        | .ok _ => ⟨readEntries p data t directories, t.directoryCount, t.fileCount⟩

end Reading

end CncContent.Iscab.Archive
