import CncContent.Iscab.ArchiveSpec
import CncContent.Lib.Checks
import CncContent.Lib.FirstMatch
import CncContent.Workshop.Package

/-! # Extraction from an InstallShield archive

`IscabArchive::extract` of the source: the first entry whose full path or bare name is the one asked for is
read from its cabinet volume and decompressed. The decoder is a parameter. A stream that is longer than
declared is an error, one that is shorter is not (`extract_full_iff`); and a file of the root directory is
hidden by an earlier one with that bare name (`find_own_iff`). -/

namespace CncContent.Iscab.Extract

open CncContent.Lib.Bounded CncContent.Lib.Bytes CncContent.Lib.Checks CncContent.Lib.Decimal
open CncContent.Lib.FirstMatch
open CncContent.Iscab.Archive
open CncContent.Workshop.Package (toAsciiLowercase)

def flagCompressed : ℕ := 0x04

def maxIscabEntrySize : ℕ := 512 * 1024 * 1024

/-- The errors of an extraction. -/
inductive ExtractError
  | io (source : List UInt8)
  | fileNotFound (name : List UInt8)
  | decompress (detail : List UInt8)
  | missingVolume (volume : ℕ)
  | corrupt (detail : List UInt8)
deriving DecidableEq, Repr

/-- A cabinet volume, with the errors that its use ends with. -/
structure VolumeFile where
  contents : List UInt8
  openError : Option (List UInt8)
  seekError : Option (List UInt8)
  readError : Option (List UInt8)
deriving DecidableEq, Repr

/-- What a decoder makes of its input: some bytes, and then perhaps an error. -/
structure Decoded where
  output : List UInt8
  error : Option (List UInt8)
deriving DecidableEq, Repr

section Extraction

variable (decode : List UInt8 → Decoded)

/-- An operation that may fail. -/
def check (error : Option (List UInt8)) : Except ExtractError Unit :=
  match error with
  | some e => .error (.io e)
  | none => .ok ()

/-- A size of the header that exceeds the limit. -/
def checkSize (label : String) (size : ℕ) : Except ExtractError Unit :=
  if maxIscabEntrySize < size then
    .error (.corrupt (text "entry " ++ text label ++ byte ' ' :: (printNat size ++
      text " exceeds limit " ++ printNat maxIscabEntrySize)))
  else .ok ()

/-- The decoder stops at one byte more than expected; an error behind that is not seen. -/
def decompressZlib (data : List UInt8) (expectedSize : ℕ) : Except ExtractError (List UInt8) :=
  let cap := satAdd u64Max expectedSize 1
  let out := (decode data).output.take cap
  match if (decode data).output.length < cap then (decode data).error else none with
  | some e => .error (.decompress e)
  | none =>
    if expectedSize < out.length then
      .error (.corrupt (text "decompressed size " ++ printNat out.length ++
        text " exceeds declared expanded_size " ++ printNat expectedSize))
    else .ok out

/-- The entry is compressed. -/
def Compressed (entry : FileEntry) : Prop := entry.flags &&& flagCompressed ≠ 0

instance (entry : FileEntry) : Decidable (Compressed entry) := by unfold Compressed; infer_instance

/-- `read_exact` at the offset; nothing is read for an empty buffer. -/
def readExact (file : VolumeFile) (offset n : ℕ) : Except ExtractError (List UInt8) :=
  if n = 0 then .ok []
  else do
    check file.readError
    let raw := (file.contents.drop offset).take n
    if raw.length < n then .error (.io (text "failed to fill whole buffer")) else .ok raw

/-- The bytes of the entry in its volume. -/
def readRaw (entry : FileEntry) (volumes : List (ℕ × VolumeFile)) : Except ExtractError (List UInt8) :=
  match volumes.find? (fun v => v.1 == entry.volume) with
  | none => .error (.missingVolume entry.volume)
  | some (_, file) => do
    check file.openError
    check file.seekError
    checkSize "expanded_size" entry.expandedSize
    checkSize "compressed_size" entry.compressedSize
    let readSize := if Compressed entry then entry.compressedSize else entry.expandedSize
    readExact file entry.dataOffset readSize

/-- The part of `extract` behind the search. -/
def extractEntry (entry : FileEntry) (volumes : List (ℕ × VolumeFile)) :
    Except ExtractError (List UInt8) := do
  let raw ← readRaw entry volumes
  if Compressed entry then decompressZlib decode raw entry.expandedSize else .ok raw

def lower (s : List UInt8) : List UInt8 := s.map toAsciiLowercase

/-- The full path or the bare name is the one asked for. -/
def named (name : List UInt8) (e : FileEntry) : Bool :=
  lower e.fullPath == lower name || lower e.name == lower name

def fileNames (entries : List FileEntry) : List (List UInt8) := entries.map FileEntry.fullPath

def findEntry (entries : List FileEntry) (name : List UInt8) : Option FileEntry :=
  entries.find? (named name)

def extract (entries : List FileEntry) (name : List UInt8) (volumes : List (ℕ × VolumeFile)) :
    Except ExtractError (List UInt8) :=
  match findEntry entries name with
  | none => .error (.fileNotFound name)
  | some entry => extractEntry decode entry volumes

end Extraction

/-! ### Lengths -/

/-- The output ends without an error before the expected size. -/
def Decoded.EndsShort (d : Decoded) (expectedSize : ℕ) : Prop :=
  d.error = none ∧ d.output.length < expectedSize

instance (d : Decoded) (expectedSize : ℕ) : Decidable (d.EndsShort expectedSize) := by
  unfold Decoded.EndsShort
  infer_instance

/-- **What decompression returns**: an output that ends without an error and is not too long. -/
theorem decompressZlib_eq_ok_iff {decode : List UInt8 → Decoded} {data out : List UInt8}
    {expectedSize : ℕ} (hsize : expectedSize < u64Max) :
    decompressZlib decode data expectedSize = .ok out ↔
      (decode data).error = none ∧ (decode data).output = out ∧ out.length ≤ expectedSize := by
  have hcap : satAdd u64Max expectedSize 1 = expectedSize + 1 := satAdd_of_le hsize
  unfold decompressZlib
  rw [hcap]
  dsimp only
  rcases Nat.lt_or_ge (decode data).output.length (expectedSize + 1) with hlt | hge
  · rw [if_pos hlt, List.take_of_length_le hlt.le]
    cases (decode data).error with
    | some e => exact iff_of_false nofun fun h => by cases h.1
    | none =>
      dsimp only
      rw [if_neg (by omega), Except.ok.injEq]
      exact ⟨fun h => ⟨rfl, h, by rw [← h]; omega⟩, fun h => h.2.1⟩
  · have hlen : ((decode data).output.take (expectedSize + 1)).length = expectedSize + 1 := by
      rw [List.length_take, Nat.min_eq_left hge]
    rw [if_neg (Nat.not_lt.mpr hge)]
    dsimp only
    rw [hlen, if_pos (Nat.lt_succ_self _)]
    refine iff_of_false nofun ?_
    rintro ⟨-, rfl, hle⟩
    omega

theorem length_of_readExact {file : VolumeFile} {offset n : ℕ} {raw : List UInt8}
    (h : readExact file offset n = .ok raw) : raw.length = n := by
  unfold readExact at h
  split_ifs at h with hzero
  · cases h
    exact hzero.symm
  · obtain ⟨-, -, h⟩ := bind_eq_ok.mp h
    dsimp only at h
    split_ifs at h with hlt
    cases h
    have hle : ((file.contents.drop offset).take n).length ≤ n := List.length_take_le _ _
    omega

/-- What is read has the size that the kind of the entry asks for, which is in the limits. -/
theorem length_of_readRaw {entry : FileEntry} {volumes : List (ℕ × VolumeFile)} {raw : List UInt8}
    (h : readRaw entry volumes = .ok raw) : entry.expandedSize ≤ maxIscabEntrySize ∧
      raw.length = if Compressed entry then entry.compressedSize else entry.expandedSize := by
  unfold readRaw at h
  split at h
  · cases h
  · obtain ⟨-, -, h⟩ := bind_eq_ok.mp h
    obtain ⟨-, -, h⟩ := bind_eq_ok.mp h
    obtain ⟨_, hexpanded, h⟩ := bind_eq_ok.mp h
    obtain ⟨-, -, h⟩ := bind_eq_ok.mp h
    refine ⟨?_, length_of_readExact h⟩
    unfold checkSize at hexpanded
    split_ifs at hexpanded with hlimit
    exact Nat.not_lt.mp hlimit

/-- **An extraction has the declared size** exactly if the entry is stored or its stream does not end
short. -/
theorem extractEntry_full_iff (decode : List UInt8 → Decoded) (entry : FileEntry)
    (volumes : List (ℕ × VolumeFile)) :
    (∀ out, extractEntry decode entry volumes = .ok out → out.length = entry.expandedSize) ↔
      (Compressed entry → ∀ raw, readRaw entry volumes = .ok raw →
        ¬ (decode raw).EndsShort entry.expandedSize) := by
  unfold extractEntry
  constructor
  · intro h hcompressed raw hraw hshort
    obtain ⟨herror, hlt⟩ := hshort
    have hsize : entry.expandedSize < u64Max :=
      lt_of_le_of_lt (length_of_readRaw hraw).1 (by decide)
    have hout := h (decode raw).output <| bind_eq_ok.mpr ⟨raw, hraw, by
      rw [if_pos hcompressed]
      exact (decompressZlib_eq_ok_iff hsize).mpr ⟨herror, rfl, hlt.le⟩⟩
    omega
  · intro h out hout
    obtain ⟨raw, hraw, hout⟩ := bind_eq_ok.mp hout
    obtain ⟨hexpanded, hlen⟩ := length_of_readRaw hraw
    split_ifs at hout hlen with hcompressed
    · have hsize : entry.expandedSize < u64Max := lt_of_le_of_lt hexpanded (by decide)
      obtain ⟨herror, rfl, hle⟩ := (decompressZlib_eq_ok_iff hsize).mp hout
      have hnot := h hcompressed raw hraw
      by_contra hne
      exact hnot ⟨herror, by omega⟩
    · cases hout
      exact hlen

/-- **The extractions of the declared size**, for the entry that is found. -/
theorem extract_full_iff (decode : List UInt8 → Decoded) (entries : List FileEntry)
    (name : List UInt8) (volumes : List (ℕ × VolumeFile)) :
    (∀ entry out, findEntry entries name = some entry → extract decode entries name volumes = .ok out →
      out.length = entry.expandedSize) ↔
    ∀ entry raw, findEntry entries name = some entry → Compressed entry →
      readRaw entry volumes = .ok raw → ¬ (decode raw).EndsShort entry.expandedSize := by
  unfold extract
  cases findEntry entries name with
  | none => exact iff_of_true nofun nofun
  | some entry =>
    have hfull := extractEntry_full_iff decode entry volumes
    constructor
    · rintro h entry' raw he hcompressed hraw
      cases he
      exact hfull.mp (fun out hout => h entry out rfl hout) hcompressed raw hraw
    · rintro h entry' out he hout
      cases he
      exact hfull.mpr (fun hcompressed raw hraw => h entry raw rfl hcompressed hraw) out hout

/-! ### An archive -/

/-- A file descriptor of version 5 for the name at offset 13. -/
def descriptor (dirIndex flags expandedSize compressedSize dataOffset : UInt8) : List UInt8 :=
  [13, 0, 0, 0, dirIndex, 0, 0, 0, flags, 0, expandedSize, 0, 0, 0, compressedSize, 0, 0, 0] ++
    List.replicate 20 0 ++ [dataOffset, 0, 0, 0, 0, 0, 0, 0, 1, 0, 0, 0, 0]

/-- A header with a file in a directory and a file of the same name in none. -/
def twoReadmes : List UInt8 :=
  [0x49, 0x53, 0x63, 0x28, 0x00, 0x50, 0x00, 0x00, 0, 0, 0, 0, 20, 0, 0, 0, 0, 0, 0, 0] ++
    [36, 0, 0, 0, 0, 0, 0, 0, 0, 0, 0, 0, 2, 0, 0, 0, 0, 0, 0, 0, 0, 0, 0, 0, 0, 0, 0, 0, 2, 0, 0, 0] ++
    [56, 0, 0, 0, 8, 0, 0, 0, 12, 0, 0, 0] ++ (text "docs" ++ [0]) ++ (text "readme" ++ [0]) ++
    descriptor 0 4 4 11 0 ++ descriptor 1 0 3 3 11

def docsReadme : FileEntry := ⟨text "docs/readme", text "readme", 4, 4, 11, 0, 1⟩

def rootReadme : FileEntry := ⟨text "readme", text "readme", 0, 3, 3, 11, 1⟩

/-- The zlib stream of three bytes. -/
def abcStream : List UInt8 := [0x78, 0x9C, 0x4B, 0x4C, 0x4A, 0x06, 0x00, 0x02, 0x4D, 0x01, 0x27]

def abcDecoder (raw : List UInt8) : Decoded :=
  if raw = abcStream then ⟨text "abc", none⟩ else ⟨[], some (text "corrupt deflate stream")⟩

def volume1 : VolumeFile := ⟨abcStream ++ text "xyz", none, none, none⟩

/-- The stream of an entry that is declared with four bytes ends after three, which are returned. -/
theorem docsReadme_short :
    (openHeader ArchiveSpec.platform64 twoReadmes).result = .ok [docsReadme, rootReadme] ∧
      findEntry [docsReadme, rootReadme] (text "docs/readme") = some docsReadme ∧
      extract abcDecoder [docsReadme, rootReadme] (text "docs/readme") [(1, volume1)] =
        .ok (text "abc") ∧
      (text "abc").length ≠ docsReadme.expandedSize := by
  decide +kernel

/-! ### Names -/

/-- **Every listed path finds its own entry** exactly if no full path is the bare name of an earlier
entry. -/
theorem find_own_iff (entries : List FileEntry)
    (hdistinct : entries.Pairwise fun a b => lower a.fullPath ≠ lower b.fullPath) :
    (∀ e ∈ entries, findEntry entries e.fullPath = some e ∧ ∀ decode volumes,
      extract decode entries e.fullPath volumes = extractEntry decode e volumes) ↔
      entries.Pairwise fun a b => lower a.name ≠ lower b.fullPath := by
  have hnd : entries.Nodup := hdistinct.imp fun hab he => hab (congrArg (lower ∘ FileEntry.fullPath) he)
  have hrefl : ∀ e : FileEntry, named e.fullPath e = true := fun e => by
    rw [named, beq_self_eq_true, Bool.true_or]
  have hiff := forall_find?_eq_some_iff (m := fun a b => named b.fullPath a) hrefl hnd
  have hpairs : (entries.Pairwise fun a b => ¬ named b.fullPath a) ↔
      entries.Pairwise fun a b => lower a.name ≠ lower b.fullPath := by
    constructor
    · refine fun h => h.imp fun hab he => hab ?_
      rw [named, he, beq_self_eq_true, Bool.or_true]
    · refine fun h => (hdistinct.and h).imp fun hab hnamed => ?_
      rw [named, Bool.or_eq_true, beq_iff_eq, beq_iff_eq] at hnamed
      exact hnamed.elim hab.1 hab.2
  rw [← hpairs, ← hiff]
  constructor
  · exact fun h e he => (h e he).1
  · refine fun h e he => ⟨h e he, fun decode volumes => ?_⟩
    have hfind : findEntry entries e.fullPath = some e := h e he
    unfold extract
    rw [hfind]

/-- The file in the directory behind the one in none. -/
theorem find_own_iff_root_first :
    ([rootReadme, docsReadme].Pairwise fun a b => lower a.fullPath ≠ lower b.fullPath) ∧
      ((∀ e ∈ [rootReadme, docsReadme], findEntry [rootReadme, docsReadme] e.fullPath = some e ∧
        ∀ decode volumes, extract decode [rootReadme, docsReadme] e.fullPath volumes =
          extractEntry decode e volumes) ↔
        [rootReadme, docsReadme].Pairwise fun a b => lower a.name ≠ lower b.fullPath) :=
  ⟨by decide, find_own_iff _ (by decide)⟩

/-- The path of a file of the root directory finds the file of that name in the directory before it. -/
theorem rootReadme_hidden :
    (openHeader ArchiveSpec.platform64 twoReadmes).result = .ok [docsReadme, rootReadme] ∧
      ([docsReadme, rootReadme].Pairwise fun a b => lower a.fullPath ≠ lower b.fullPath) ∧
      text "readme" ∈ fileNames [docsReadme, rootReadme] ∧
      findEntry [docsReadme, rootReadme] (text "readme") = some docsReadme ∧
      extract abcDecoder [docsReadme, rootReadme] (text "readme") [(1, volume1)] = .ok (text "abc") ∧
      extractEntry abcDecoder rootReadme [(1, volume1)] = .ok (text "xyz") := by
  decide +kernel

end CncContent.Iscab.Extract
