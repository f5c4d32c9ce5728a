import CncContent.Lib.Bytes
import CncContent.Lib.Dealing
import CncContent.Lib.Keyed

/-! # Incremental verification

`verify_installed_content` and `verify_incremental` of the source, over a hash function `blake3` and a
disk. The scratch of the hasher is used for one file after the other, but what is hashed does not depend
on what it was used for (`hashFile_snd`). So the slots of an incremental verification check every file
once and report together what the full verification reports (`sweep`). -/

namespace CncContent.Verify.Incremental

open CncContent.Lib.Bytes CncContent.Lib.Dealing CncContent.Lib.Keyed

/-- What the reads of a file give, one after the other: `none` is an error. A file ends with an empty
read, and behind the last one. -/
abbrev Reads := List (Option (List UInt8))

/-- The file at a path under the content root, or `none` if it cannot be opened. -/
abbrev Disk := List UInt8 → Option Reads

structure FileDigest where
  blake3 : List UInt8
deriving DecidableEq

/-- A map in the order of its paths. -/
structure InstalledContentManifest where
  files : List (List UInt8 × FileDigest)
  increasing : Increasing (fun f => keyOf f.1) files

/-! ### Hashing -/

/-- The read buffer, and what the hasher has absorbed. -/
structure Blake3Scratch where
  buffer : List UInt8
  hasher : List UInt8

namespace Blake3Scratch

def new : Blake3Scratch := ⟨List.replicate 65536 0, []⟩

/-- The bytes that are read stand in front of what was in the buffer. -/
def fill (s : Blake3Scratch) (bytes : List UInt8) : Blake3Scratch :=
  { s with buffer := bytes ++ s.buffer.drop bytes.length }

def update (s : Blake3Scratch) (n : ℕ) : Blake3Scratch :=
  { s with hasher := s.hasher ++ s.buffer.take n }

/-- The loop of `hash_file`, and whether it ends without an error. -/
def readAll : Reads → Blake3Scratch → Blake3Scratch × Bool
  | [], s => (s, true)
  | none :: _, s => (s, false)
  | some bytes :: reads, s =>
    if bytes.length = 0 then (s.fill bytes, true)
    else readAll reads ((s.fill bytes).update bytes.length)

variable (blake3 : List UInt8 → List UInt8) (disk : Disk)

def hashFile (s : Blake3Scratch) (path : List UInt8) : Blake3Scratch × Option (List UInt8) :=
  let s := { s with hasher := [] }
  match disk path with
  | none => (s, none)
  | some reads =>
    match readAll reads s with
    | (s, true) => (s, some (toHex (blake3 s.hasher)))
    | (s, false) => (s, none)

end Blake3Scratch

/-! ### Verification -/

variable (blake3 : List UInt8 → List UInt8) (disk : Disk)

/-- One round of the loop: the path is kept if the file does not have the digest. -/
def checkFile (acc : Blake3Scratch × List (List UInt8)) (f : List UInt8 × FileDigest) :
    Blake3Scratch × List (List UInt8) :=
  let (scratch, actual) := acc.1.hashFile blake3 disk f.1
  (scratch, if actual = some f.2.blake3 then acc.2 else acc.2 ++ [f.1])

def verifySequential (manifest : InstalledContentManifest) : List (List UInt8) :=
  (manifest.files.foldl (checkFile blake3 disk) (.new, [])).2

/-- Each file has a scratch of its own; `collect` keeps the order. -/
def verifyParallel (manifest : InstalledContentManifest) : List (List UInt8) :=
  manifest.files.filterMap fun f =>
    if (Blake3Scratch.new.hashFile blake3 disk f.1).2 = some f.2.blake3 then none else some f.1

/-- With the feature `fast-verify`, or without it. -/
def verifyInstalledContent (fastVerify : Bool) (manifest : InstalledContentManifest) :
    List (List UInt8) :=
  if fastVerify then verifyParallel blake3 disk manifest else verifySequential blake3 disk manifest

@[ext] structure IncrementalVerifyResult where
  checked : List (List UInt8)
  failures : List (List UInt8)
  totalFiles : ℕ
  slot : ℕ
  numSlots : ℕ
deriving DecidableEq

/-- The path of every file of the slot is pushed to `checked`. With no slots at all the remainder
panics. -/
def verifyIncremental (manifest : InstalledContentManifest) (slot numSlots : ℕ) :
    IncrementalVerifyResult :=
  let slotEntries :=
    (manifest.files.zipIdx.filter fun e => e.2 % numSlots = slot % numSlots).map Prod.fst
  { checked := slotEntries.map Prod.fst
    failures := (slotEntries.foldl (checkFile blake3 disk) (.new, [])).2
    totalFiles := manifest.files.length
    slot := slot % numSlots
    numSlots }

/-! ### What is hashed -/

/-- The bytes of a file that can be read to its end. -/
def contents : Reads → Option (List UInt8)
  | [] => some []
  | none :: _ => none
  | some bytes :: reads => if bytes.length = 0 then some [] else (contents reads).map (bytes ++ ·)

/-- The digest of a file on the disk. -/
def digestOf (path : List UInt8) : Option (List UInt8) :=
  (disk path).bind fun reads => (contents reads).map fun bytes => toHex (blake3 bytes)

/-- The files that do not have their digest. -/
def fails (f : List UInt8 × FileDigest) : Bool := digestOf blake3 disk f.1 ≠ some f.2.blake3

section Proofs

variable {blake3 : List UInt8 → List UInt8} {disk : Disk}

/-- What the hasher has absorbed when the loop ends without an error. -/
def absorbed (r : Blake3Scratch × Bool) : Option (List UInt8) := if r.2 then some r.1.hasher else none

theorem absorbed_readAll : ∀ (reads : Reads) (s : Blake3Scratch),
    absorbed (Blake3Scratch.readAll reads s) = (contents reads).map (s.hasher ++ ·)
  | [], s => by simp [Blake3Scratch.readAll, contents, absorbed]
  | none :: _, s => rfl
  | some bytes :: reads, s => by
    by_cases hend : bytes.length = 0
    · simp [Blake3Scratch.readAll, contents, absorbed, hend, Blake3Scratch.fill]
    · have hupdate : ((s.fill bytes).update bytes.length).hasher = s.hasher ++ bytes := by
        show s.hasher ++ (bytes ++ s.buffer.drop bytes.length).take bytes.length = _
        rw [List.take_left]
      rw [Blake3Scratch.readAll, contents, if_neg hend, if_neg hend, absorbed_readAll reads, hupdate,
        Option.map_map]
      exact congrArg (Option.map · (contents reads)) (funext fun rest => List.append_assoc _ _ _)

/-- **What a file is hashed to** does not depend on the scratch. -/
theorem hashFile_snd (s : Blake3Scratch) (path : List UInt8) :
    (s.hashFile blake3 disk path).2 = digestOf blake3 disk path := by
  unfold Blake3Scratch.hashFile digestOf
  dsimp only
  cases disk path with
  | none => rfl
  | some reads =>
    have hcontents : contents reads = absorbed (Blake3Scratch.readAll reads { s with hasher := [] }) := by
      rw [absorbed_readAll]
      exact Option.map_id'.symm
    rw [Option.bind_some, hcontents]
    dsimp only
    rcases Blake3Scratch.readAll reads { s with hasher := [] } with ⟨s', _ | _⟩
    · rfl
    · rfl

/-! ### What is reported -/

theorem checkFile_snd (acc : Blake3Scratch × List (List UInt8)) (f : List UInt8 × FileDigest) :
    (checkFile blake3 disk acc f).2 = acc.2 ++ if fails blake3 disk f then [f.1] else [] := by
  have hactual := @hashFile_snd blake3 disk acc.1 f.1
  show (if (acc.1.hashFile blake3 disk f.1).2 = some f.2.blake3 then acc.2 else acc.2 ++ [f.1]) = _
  rw [hactual, fails]
  by_cases hsame : digestOf blake3 disk f.1 = some f.2.blake3
  · simp [hsame]
  · simp [hsame]

theorem foldl_checkFile : ∀ (files : List (List UInt8 × FileDigest)) (acc : Blake3Scratch × List (List UInt8)),
    (files.foldl (checkFile blake3 disk) acc).2 = acc.2 ++ (files.filter (fails blake3 disk)).map Prod.fst
  | [], acc => (List.append_nil _).symm
  | f :: files, acc => by
    rw [List.foldl_cons, foldl_checkFile files, checkFile_snd, List.append_assoc]
    by_cases hf : fails blake3 disk f = true
    · rw [if_pos hf, List.filter_cons_of_pos hf]
      rfl
    · rw [if_neg hf, List.filter_cons_of_neg hf]
      rfl

/-- **The full verification** reports the files that fail, in order, with the feature or without it. -/
theorem verifyInstalledContent_eq (fastVerify : Bool) (manifest : InstalledContentManifest) :
    verifyInstalledContent blake3 disk fastVerify manifest =
      (manifest.files.filter (fails blake3 disk)).map Prod.fst := by
  cases fastVerify with
  | false => exact (foldl_checkFile manifest.files _).trans (List.nil_append _)
  | true =>
    show verifyParallel blake3 disk manifest = _
    rw [← List.filterMap_eq_map, List.filterMap_filter]
    refine List.filterMap_congr fun f _ => ?_
    rw [hashFile_snd, fails]
    by_cases hsame : digestOf blake3 disk f.1 = some f.2.blake3
    · simp [hsame]
    · simp [hsame]

/-- A slot is one of the hands that the files are dealt to. -/
theorem verifyIncremental_eq (manifest : InstalledContentManifest) (slot numSlots : ℕ) :
    verifyIncremental blake3 disk manifest slot numSlots =
      { checked := (dealt numSlots (slot % numSlots) manifest.files).map Prod.fst
        failures := ((dealt numSlots (slot % numSlots) manifest.files).filter (fails blake3 disk)).map Prod.fst
        totalFiles := manifest.files.length
        slot := slot % numSlots
        numSlots } := by
  have hfailures := @foldl_checkFile blake3 disk
    (dealt numSlots (slot % numSlots) manifest.files) (.new, [])
  ext1
  · rfl
  · exact hfailures.trans (List.nil_append _)
  · rfl
  · rfl
  · rfl

/-- All slots together have every file once. -/
theorem flatMap_slots_perm (manifest : InstalledContentManifest) {numSlots : ℕ} (h : 1 ≤ numSlots) :
    ((List.range numSlots).flatMap fun slot =>
      dealt numSlots (slot % numSlots) manifest.files).Perm manifest.files := by
  have hslots : (List.range numSlots).flatMap (fun slot =>
      dealt numSlots (slot % numSlots) manifest.files) =
        (List.range numSlots).flatMap fun slot => dealt numSlots slot manifest.files :=
    List.flatMap_congr fun slot hslot => by rw [Nat.mod_eq_of_lt (List.mem_range.mp hslot)]
  rw [hslots]
  exact flatMap_dealt_perm h

/-- The paths of a manifest are different. -/
theorem nodup_paths (manifest : InstalledContentManifest) : (manifest.files.map Prod.fst).Nodup :=
  manifest.increasing.nodup_map fun _ => rfl

end Proofs

/-- **A sweep over all slots** checks every file of the manifest once and no other one. The failures of a
slot are among the files that it checks, and those of all slots are what the full verification reports.
Slots that are congruent are the same. -/
theorem sweep (manifest : InstalledContentManifest) (numSlots : ℕ) (h : 1 ≤ numSlots) :
    (∀ path ∈ manifest.files.map Prod.fst, ((List.range numSlots).flatMap fun slot =>
      (verifyIncremental blake3 disk manifest slot numSlots).checked).count path = 1) ∧
    (∀ slot, (verifyIncremental blake3 disk manifest slot numSlots).checked.Sublist
      (manifest.files.map Prod.fst)) ∧
    (∀ slot, (verifyIncremental blake3 disk manifest slot numSlots).failures.Sublist
      (verifyIncremental blake3 disk manifest slot numSlots).checked) ∧
    (∀ fastVerify, ((List.range numSlots).flatMap fun slot =>
      (verifyIncremental blake3 disk manifest slot numSlots).failures).Perm
        (verifyInstalledContent blake3 disk fastVerify manifest)) ∧
    ∀ slot slot', slot % numSlots = slot' % numSlots →
      verifyIncremental blake3 disk manifest slot numSlots =
        verifyIncremental blake3 disk manifest slot' numSlots := by
  have hdealt := flatMap_slots_perm manifest h
  simp only [verifyIncremental_eq]
  refine ⟨fun path hpath => ?_, fun slot => ?_, fun slot => ?_, fun fastVerify => ?_, ?_⟩
  · have hperm := hdealt.map Prod.fst
    rw [List.map_flatMap] at hperm
    rw [hperm.count_eq]
    exact List.count_eq_one_of_mem (nodup_paths manifest) hpath
  · exact (dealt_sublist (slot % numSlots)).map Prod.fst
  · exact List.filter_sublist.map Prod.fst
  · have hperm := (hdealt.filter (fails blake3 disk)).map Prod.fst
    rw [List.filter_flatMap, List.map_flatMap] at hperm
    rwa [verifyInstalledContent_eq]
  · intro slot slot' hslot
    rw [hslot]

/-- A disk with a file that is read to its end and one that is not. -/
def brokenDisk : Disk := fun path =>
  if path = text "a" then some [some [0]] else if path = text "b" then some [some [1], none] else none

def twoFiles : InstalledContentManifest :=
  ⟨[(text "a", ⟨text "00"⟩), (text "b", ⟨text "01"⟩)], List.pairwise_pair.mpr (by decide)⟩

theorem sweep_twoFiles : ((List.range 3).flatMap fun slot =>
    (verifyIncremental id brokenDisk twoFiles slot 3).failures).Perm [text "b"] := by
  have hfull : verifyInstalledContent id brokenDisk true twoFiles = [text "b"] := by decide +kernel
  exact hfull ▸ (sweep id brokenDisk twoFiles 3 (by decide)).2.2.2.1 true

end CncContent.Verify.Incremental
