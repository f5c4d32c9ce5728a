import CncContent.Install.Executor
import Mathlib.Algebra.BigOperators.Group.List.Basic
import Mathlib.Algebra.Group.Prod

/-! # What the executor does, as scripts

The source tree does not change, so an action does the same whatever becomes of its calls: it follows a script
that is fixed when it starts. `Scripted deletes files wr m` is such a script for a computation `m`, with
the files that it writes and removes (`files`) and the number of files and bytes that it reports (`wr`, of its
value). The
rules follow the computation step by step (`bindAccess`, `bindParents`, `bindWrite`, `bindReported`, …); the
functions of the executor follow their own recursion. -/

namespace CncContent.Install.Script

open CncContent.Lib.Attempts CncContent.Lib.Bytes CncContent.Lib.Checks
open CncContent.Lib.FileScripts CncContent.Lib.FileTree
open CncContent.Install.Executor

abbrev Faults := ℕ → Option (Fault ExecutorError)

abbrev FileCommand := Command Text UInt8 InstallProgress ExecutorError

/-! ### Reports of files -/

/-- The files and bytes that an event counts. -/
def reported : InstallProgress → ℕ × ℕ
  | .fileWritten _ bytes => (1, bytes)
  | _ => (0, 0)

/-- The files and bytes of a log. -/
def tally (log : List InstallProgress) : ℕ × ℕ := (log.map reported).sum

theorem tally_append (l l' : List InstallProgress) : tally (l ++ l') = tally l + tally l' := by
  unfold tally
  rw [List.map_append, List.sum_append]

/-- The files and bytes that a script reports. -/
def written (script : List FileCommand) : ℕ × ℕ := tally (script.flatMap events)

theorem written_append (cs ds : List FileCommand) : written (cs ++ ds) = written cs + written ds := by
  unfold written
  rw [List.flatMap_append, tally_append]

theorem written_cons (c : FileCommand) (cs : List FileCommand) :
    written (c :: cs) = tally (events c) + written cs := by
  unfold written
  rw [List.flatMap_cons, tally_append]

/-! ### Scripts of computations -/

/-- The computation follows a script and ends with a result that is known. Only one that deletes removes
files. -/
structure Scripted {α : Type} (deletes : Bool) (files : List Path) (wr : α → ℕ × ℕ)
    (m : Faults → Installing α) where
  script : List FileCommand
  result : Except ExecutorError α
  follows : ∀ faults, m faults = (do runScript refusedBy faults script; orReturn result)
  targets_subset : targets script ⊆ {p | p ∈ files}
  made_subset : allMade script ⊆ {q | ∃ p ∈ files, Above q p}
  complete : ∀ a, result = .ok a → {p | p ∈ files} ⊆ targets script
  counted : ∀ a, result = .ok a → written script = wr a
  keeps : deletes = false → ∀ p, .remove p ∉ script

/-- A computation that reports no file. -/
def silent {α : Type} : α → ℕ × ℕ := fun _ => 0

namespace Scripted

variable {α β : Type} {d : Bool} {files : List Path} {wr : α → ℕ × ℕ}

def pure (a : α) (h : wr a = 0) : Scripted d [] wr fun _ => Pure.pure a where
  script := []
  result := .ok a
  follows := fun _ => rfl
  targets_subset := fun _ ⟨_, hc, _⟩ => absurd hc List.not_mem_nil
  made_subset := fun _ ⟨_, hc, _⟩ => absurd hc List.not_mem_nil
  complete := fun _ _ _ hp => absurd hp List.not_mem_nil
  counted := fun b hb => by
    cases hb
    exact h.symm
  keeps := fun _ _ => List.not_mem_nil

def failed (e : ExecutorError) : Scripted d files wr fun _ => fail e where
  script := []
  result := .error e
  follows := fun _ => rfl
  targets_subset := fun _ ⟨_, hc, _⟩ => absurd hc List.not_mem_nil
  made_subset := fun _ ⟨_, hc, _⟩ => absurd hc List.not_mem_nil
  complete := nofun
  counted := nofun
  keeps := fun _ _ => List.not_mem_nil

/-- A command, and then what follows it. -/
def step {m : Faults → Installing α} (c : FileCommand) (new : List Path) (htarget : target c = {p | p ∈ new})
    (hmade : made c ⊆ {q | ∃ p ∈ new ++ files, Above q p}) (hevents : tally (events c) = 0)
    (hkeeps : d = false → ∀ p, c ≠ .remove p) (s : Scripted d files wr m) :
    Scripted d (new ++ files) wr fun faults => do perform refusedBy faults c; m faults where
  script := c :: s.script
  result := s.result
  follows := fun faults => by
    rw [s.follows faults]
    exact (bind_assoc _ _ _).symm
  targets_subset := by
    rw [targets_cons, htarget]
    exact fun p hp => List.mem_append.mpr (hp.imp_right (@s.targets_subset p))
  made_subset := by
    rw [allMade_cons]
    rintro q (hq | hq)
    · exact hmade hq
    · obtain ⟨p, hp, habove⟩ := s.made_subset hq
      exact ⟨p, List.mem_append_right new hp, habove⟩
  complete := fun a ha p hp => by
    rw [targets_cons, htarget]
    exact (List.mem_append.mp hp).imp_right (@s.complete a ha p)
  counted := fun a ha => by rw [written_cons, hevents, zero_add, s.counted a ha]
  keeps := fun hd p hp => by
    rcases List.mem_cons.mp hp with hp | hp
    · exact hkeeps hd p hp.symm
    · exact s.keeps hd p hp

def bindAccess {m : Faults → Installing α} (s : Scripted d files wr m) :
    Scripted d files wr fun faults => (do access faults; m faults) :=
  s.step .access [] (Set.ext fun _ => ⟨False.elim, nofun⟩) (fun _ => False.elim) rfl (fun _ => nofun)

/-- The directories are made for a file that is written later. -/
def bindParents {m : Faults → Installing α} {dst : Path} (hdst : dst ∈ files) (s : Scripted d files wr m) :
    Scripted d files wr fun faults => (do createParentDirAll faults dst; m faults) :=
  s.step (.parents dst) [] (Set.ext fun _ => ⟨False.elim, nofun⟩) (fun _ hq => ⟨dst, hdst, hq⟩) rfl (fun _ => nofun)

def bindWrite {m : Faults → Installing α} (dst : Path) (data : List UInt8) (s : Scripted d files wr m) :
    Scripted d (dst :: files) wr fun faults => (do writeFile faults dst data; m faults) :=
  s.step (.write dst data) [dst] (Set.ext fun _ => List.mem_singleton.symm) (fun _ => False.elim) rfl (fun _ => nofun)

def bindRemove {m : Faults → Installing α} (path : Path) (s : Scripted true files wr m) :
    Scripted true (path :: files) wr fun faults => (do removeIfExists faults path; m faults) :=
  s.step (.remove path) [path] (Set.ext fun _ => List.mem_singleton.symm) (fun _ => False.elim) rfl nofun

/-- A value that is there already, or an error. -/
def bindExcept {x : Except ExecutorError β} {m : Faults → β → Installing α}
    (s : ∀ b, x = .ok b → Scripted d files wr fun faults => m faults b) :
    Scripted d files wr fun faults => (do let b ← orReturn x; m faults b) :=
  match x, s with
  | .ok b, s => s b rfl
  | .error e, _ => failed e

def ofFun {m m' : Faults → Installing α} (h : ∀ faults, m' faults = m faults) (s : Scripted d files wr m) :
    Scripted d files wr m' :=
  { s with follows := fun faults => (h faults).trans (s.follows faults) }

theorem bindExcept_of_ok {x : Except ExecutorError β} {m : Faults → β → Installing α}
    {s : ∀ b, x = .ok b → Scripted d files wr fun faults => m faults b} {b : β} (h : x = .ok b) :
    (bindExcept s).script = (s b h).script := by
  subst h
  rfl

theorem bindExcept_of_error {x : Except ExecutorError β} {m : Faults → β → Installing α}
    {s : ∀ b, x = .ok b → Scripted d files wr fun faults => m faults b} {e : ExecutorError} (h : x = .error e) :
    (bindExcept s).script = [] := by
  subst h
  rfl

/-- Two computations that go on with the same script from every value. -/
theorem bindExcept_congr {x : Except ExecutorError β} {m m' : Faults → β → Installing α}
    {s : ∀ b, x = .ok b → Scripted d files wr fun faults => m faults b}
    {s' : ∀ b, x = .ok b → Scripted d files wr fun faults => m' faults b}
    (h : ∀ b hb, (s b hb).script = (s' b hb).script ∧ (s b hb).result = (s' b hb).result) :
    (bindExcept s).script = (bindExcept s').script ∧ (bindExcept s).result = (bindExcept s').result := by
  cases x with
  | error e => exact ⟨rfl, rfl⟩
  | ok b => exact h b rfl

/-- A file that has to be there. -/
def ifSome {m : Faults → Installing α} {n : FileNode} {e : ExecutorError} (s : Scripted d files wr m) :
    Scripted d files wr fun faults => if n.isNone then fail e else m faults :=
  match n with
  | none => failed e
  | some _ => s

/-- A computation that reports no file, and then what follows it. -/
def bind {first : List Path} {m : Faults → Installing β} {k : Faults → β → Installing α}
    (s : Scripted d first silent m) (rest : ∀ b, s.result = .ok b → Scripted d files wr fun faults => k faults b) :
    Scripted d (first ++ files) wr fun faults => (do let b ← m faults; k faults b) :=
  match hs : s.result with
  | .ok b =>
    { script := s.script ++ (rest b hs).script
      result := (rest b hs).result
      follows := fun faults => by
        rw [s.follows faults, hs, runScript_append, bind_assoc, bind_assoc]
        refine bind_congr fun _ => ?_
        exact (rest b hs).follows faults
      targets_subset := by
        rw [targets_append]
        exact fun p hp => List.mem_append.mpr (hp.imp (@s.targets_subset p) (@(rest b hs).targets_subset p))
      made_subset := by
        rw [allMade_append]
        rintro q (hq | hq)
        · obtain ⟨p, hp, habove⟩ := s.made_subset hq
          exact ⟨p, List.mem_append_left _ hp, habove⟩
        · obtain ⟨p, hp, habove⟩ := (rest b hs).made_subset hq
          exact ⟨p, List.mem_append_right _ hp, habove⟩
      complete := fun a ha p hp => by
        rw [targets_append]
        exact (List.mem_append.mp hp).imp (@s.complete b hs p) (@(rest b hs).complete a ha p)
      counted := fun a ha => by
        rw [written_append, s.counted b hs, (rest b hs).counted a ha]
        exact zero_add _
      keeps := fun hd p hp => (List.mem_append.mp hp).elim (s.keeps hd p) ((rest b hs).keeps hd p) }
  | .error e =>
    { script := s.script
      result := .error e
      follows := fun faults => by
        rw [s.follows faults, hs]
        exact bind_assoc _ _ _
      targets_subset := fun p hp => List.mem_append_left _ (s.targets_subset hp)
      made_subset := fun q hq =>
        let ⟨p, hp, habove⟩ := s.made_subset hq
        ⟨p, List.mem_append_left _ hp, habove⟩
      complete := nofun
      counted := nofun
      keeps := s.keeps }

/-- The report of a file, and the counts behind it. -/
def reportFile {m : Faults → Installing (ℕ × ℕ)} (dst : Path) (bytes : ℕ) (s : Scripted d files id m) :
    Scripted d files id fun faults => (do
      onProgress faults (.fileWritten dst bytes)
      let (filesWritten, totalBytes) ← m faults
      Pure.pure (filesWritten + 1, totalBytes + bytes)) where
  script := .report (.fileWritten dst bytes) :: s.script
  result := s.result.map fun counts => (counts.1 + 1, counts.2 + bytes)
  follows := fun faults => by
    have hrest : (do let (filesWritten, totalBytes) ← m faults
                     Pure.pure (filesWritten + 1, totalBytes + bytes)) =
        (do runScript refusedBy faults s.script
            orReturn (s.result.map fun counts => (counts.1 + 1, counts.2 + bytes))) := by
      rw [s.follows faults, bind_assoc]
      refine bind_congr fun _ => ?_
      rcases s.result with e | counts <;> rfl
    exact (congrArg (fun k => onProgress faults (.fileWritten dst bytes) >>= fun _ => k) hrest).trans
      (bind_assoc _ _ _).symm
  targets_subset := by
    rw [targets_cons]
    exact fun p hp => s.targets_subset (hp.resolve_left id)
  made_subset := by
    rw [allMade_cons]
    exact fun p hp => s.made_subset (hp.resolve_left id)
  complete := fun a ha p hp => by
    rw [targets_cons]
    obtain ⟨counts, hc, -⟩ := map_eq_ok.mp ha
    exact Or.inr (s.complete counts hc hp)
  counted := fun a ha => by
    obtain ⟨counts, hc, rfl⟩ := map_eq_ok.mp ha
    rw [written_cons, s.counted counts hc]
    exact Prod.ext (Nat.add_comm _ _) (Nat.add_comm _ _)
  keeps := fun hd p hp => (List.mem_cons.mp hp).elim nofun (s.keeps hd p)

def ifElse {c : Prop} [Decidable c] {m m' : Faults → Installing α} (s : Scripted d files wr m)
    (s' : Scripted d files wr m') : Scripted d files wr fun faults => if c then m faults else m' faults :=
  if h : c then ofFun (fun _ => if_pos h) s else ofFun (fun _ => if_neg h) s'

/-- The same files, listed in another way. -/
def ofMem {files' : List Path} {m : Faults → Installing α} (h : ∀ p, p ∈ files' ↔ p ∈ files)
    (s : Scripted d files' wr m) : Scripted d files wr m where
  script := s.script
  result := s.result
  follows := s.follows
  targets_subset := fun _ hp => (h _).mp (s.targets_subset hp)
  made_subset := fun _ hq =>
    let ⟨p, hp, habove⟩ := s.made_subset hq
    ⟨p, (h p).mp hp, habove⟩
  complete := fun a ha p hp => s.complete a ha ((h p).mpr hp)
  counted := s.counted
  keeps := s.keeps

end Scripted

/-! ### The functions of the executor -/

section Functions

variable (crates : Crates)

/-- The place of a file below the content root, if it has one. -/
def place (toPath : Text) : Option Path := (crates.joinContent toPath).toOption

/-- The files that the entries are written to. -/
def filesOf (entries : List FileMapping) : List Path :=
  entries.flatMap fun m => (place crates m.toPath).toList

/-- The files that the byte ranges are written to. -/
def rawFilesOf (entries : List RawExtractEntry) : List Path :=
  entries.flatMap fun e => (place crates e.toPath).toList

variable {crates}

theorem mem_place_of_ok {toPath : Text} {dst p : Path} (h : boundedPath crates.joinContent toPath = .ok dst) :
    p ∈ [dst] ↔ p ∈ (place crates toPath).toList := by
  have hj := mapError_eq_ok.mp h
  unfold place
  rw [hj]
  exact Iff.rfl

theorem mem_filesOf_cons {m : FileMapping} {entries : List FileMapping} {dst p : Path}
    (h : boundedPath crates.joinContent m.toPath = .ok dst) :
    p ∈ dst :: filesOf crates entries ↔ p ∈ filesOf crates (m :: entries) := by
  unfold filesOf
  rw [List.flatMap_cons, List.mem_append, ← mem_place_of_ok h, List.mem_singleton, List.mem_cons]

open Scripted

def valueScript {α : Type} (x : Except ExecutorError α) : Scripted false [] silent fun _ => orReturn x :=
  match x with
  | .ok a => Scripted.pure a rfl
  | .error e => failed e

def openFileScript (n : FileNode) : Scripted false [] silent fun faults => openFile faults n :=
  bindAccess (valueScript (contents n))

def readEntryScript (reader : Reader) (missing : Text → ExecutorError) (name : Text) :
    Scripted false [] silent fun faults => readEntry faults reader missing name :=
  bindAccess (valueScript (entryOf reader missing name))

theorem id_zero : id ((0, 0) : ℕ × ℕ) = 0 := rfl

def extractEntriesScript {fetch : Faults → Text → Installing (List UInt8)}
    (hf : ∀ name, Scripted false [] silent fun faults => fetch faults name) : ∀ entries : List FileMapping,
      Scripted false (filesOf crates entries) id fun faults => extractEntries crates faults (fetch faults) entries
  | [] => Scripted.pure (0, 0) id_zero
  | mapping :: entries =>
    (hf mapping.fromPath).bind fun data _ => bindExcept fun dst hdst =>
      ofMem (fun _ => mem_filesOf_cons hdst) <| bindParents List.mem_cons_self <| bindWrite dst data <|
        reportFile dst data.length (extractEntriesScript hf entries)

/-- An archive of which only the opened one is known. -/
def extractFromArchiveScript (openArchive : List UInt8 → Except Text Reader) (absent : ExecutorError)
    (missing : Text → ExecutorError) (archive : FileNode) (entries : List FileMapping) :
    Scripted false (filesOf crates entries) id fun faults =>
      extractFromArchive crates faults openArchive absent missing archive entries :=
  ifSome <| (openFileScript archive).bind fun _ _ => bindAccess <| bindExcept fun reader _ =>
    extractEntriesScript (readEntryScript reader missing) entries

def extractMixFromIsoScript (isoPath : Path) (iso : FileNode) (isoMixPath : Text)
    (entries : List FileMapping) (archiveName : Text) :
    Scripted false (filesOf crates entries) id fun faults =>
      extractMixFromIso crates faults isoPath iso isoMixPath entries archiveName :=
  ifSome <| (openFileScript iso).bind fun _ _ => bindAccess <| bindExcept fun _ _ =>
    bindAccess <| bindExcept fun _ _ => bindAccess <| bindExcept fun reader _ =>
      extractEntriesScript (readEntryScript reader _) entries

def extractFromIscabScript (platform : Iscab.Archive.Platform) (source : Tree Text UInt8) (header : Text)
    (volumes : List (ℕ × Text)) (entries : List FileMapping) :
    Scripted false (filesOf crates entries) id fun faults =>
      extractFromIscab crates faults platform source header volumes entries :=
  bindExcept fun _ _ => bindAccess <| bindExcept fun archive _ => bindExcept fun files _ =>
    extractEntriesScript (fun name => bindAccess (valueScript (iscabEntry crates archive files name))) entries

def extractFromBagIdxScript (source : Tree Text UInt8) (idxPath bagPath : Text)
    (entries : List FileMapping) :
    Scripted false (filesOf crates entries) id fun faults =>
      extractFromBagIdx crates faults source idxPath bagPath entries :=
  bindExcept fun idx _ => (openFileScript (node source idx)).bind fun _ _ => bindExcept fun _ _ =>
    bindExcept fun bag _ => (openFileScript (node source bag)).bind fun bagData _ =>
      extractEntriesScript (fun _ => bindExcept fun entry _ =>
        bindAccess (valueScript (readRange bagData entry.offset entry.size))) entries

def extractRawEntryScript (source : Tree Text UInt8) (entry : RawExtractEntry) :
    Scripted false (place crates entry.toPath).toList silent fun faults =>
      extractRawEntry crates faults source entry :=
  bindExcept fun src _ => ifSome <| (openFileScript (node source src)).bind fun _ _ =>
    bindAccess <| bindExcept fun buf _ => bindExcept fun dst hdst =>
      ofMem (fun _ => mem_place_of_ok hdst) <| bindParents List.mem_cons_self <| bindWrite dst buf <|
        Scripted.pure entry.length rfl

def extractRawScript (source : Tree Text UInt8) : ∀ entries : List RawExtractEntry,
    Scripted false (rawFilesOf crates entries) id fun faults => extractRaw crates faults source entries
  | [] => Scripted.pure (0, 0) id_zero
  | entry :: entries => (extractRawEntryScript source entry).bind fun bytes _ => bindExcept fun dst _ =>
      reportFile dst bytes (extractRawScript source entries)

def copyFilesScript (source : Tree Text UInt8) : ∀ files : List FileMapping,
    Scripted false (filesOf crates files) id fun faults => copyFiles crates faults source files
  | [] => Scripted.pure (0, 0) id_zero
  | _ :: files => bindExcept fun src _ => bindExcept fun dst hdst =>
      ofMem (fun _ => mem_filesOf_cons hdst) <| bindParents List.mem_cons_self <|
        (openFileScript (node source src)).bind fun data _ => bindWrite dst data <|
          reportFile dst data.length (copyFilesScript source files)

theorem mem_twice {p dst : Path} : p ∈ [dst, dst] ↔ p ∈ [dst] := by
  rw [List.mem_cons, List.mem_singleton, or_self]

def extractZipFileScript (zip : FileNode) (zipRel entryName toPath : Text) :
    Scripted false (place crates toPath).toList silent fun faults =>
      extractZipFile crates faults zip zipRel entryName toPath :=
  (openFileScript zip).bind fun _ _ => bindAccess <| bindExcept fun _ _ => bindExcept fun _ _ =>
    bindAccess <| bindExcept fun entry _ => bindExcept fun dst hdst =>
      ofMem (fun _ => mem_twice.trans (mem_place_of_ok hdst)) <| bindParents List.mem_cons_self <|
        bindWrite dst [] <| bindWrite dst entry.delivered <| bindExcept fun bytes _ =>
          Scripted.pure (dst, bytes) rfl

theorem extractZipEntry_cons (faults : Faults) (source : Tree Text UInt8) (parts : List Text)
    (toPath : Text) (splitAt : ℕ) (rest : List ℕ) (e : ExecutorError) :
    (do let extracted ← extractZipEntry crates faults source parts toPath (splitAt :: rest)
        orReturn (okOr extracted e)) =
      (do let zip ← orReturn (boundedPath crates.joinSource (joinSlash (parts.take splitAt)))
          if isFile (node source zip) ∧ splitAt < parts.length then
            extractZipFile crates faults (node source zip) (joinSlash (parts.take splitAt))
              (joinSlash (parts.drop splitAt)) toPath
          else do
            let extracted ← extractZipEntry crates faults source parts toPath rest
            orReturn (okOr extracted e)) := by
  rw [extractZipEntry, bind_assoc]
  refine bind_congr fun zip => ?_
  split_ifs
  · rw [bind_assoc]
    exact bind_pure _
  · rfl

/-- The loop, and the error if it finds no archive. -/
def extractZipEntryScript (source : Tree Text UInt8) (parts : List Text) (toPath : Text)
    (e : ExecutorError) : ∀ splits : List ℕ,
      Scripted false (place crates toPath).toList silent fun faults => (do
        let extracted ← extractZipEntry crates faults source parts toPath splits
        orReturn (okOr extracted e))
  | [] => failed e
  | splitAt :: rest =>
    ofFun (fun faults => extractZipEntry_cons faults source parts toPath splitAt rest e) <|
      bindExcept fun _ _ => ifElse (extractZipFileScript _ _ _ _)
        (extractZipEntryScript source parts toPath e rest)

def extractZipMappingScript (source : Tree Text UInt8) (mapping : FileMapping) :
    Scripted false (place crates mapping.toPath).toList silent fun faults =>
      extractZipMapping crates faults source mapping :=
  bindExcept fun src _ => ifElse
    (bindExcept fun dst hdst => ofMem (fun _ => mem_place_of_ok hdst) <|
      bindParents List.mem_cons_self <| (openFileScript (node source src)).bind fun data _ =>
        bindWrite dst data <| Scripted.pure (dst, data.length) rfl)
    (extractZipEntryScript source _ mapping.toPath _ _)

def extractFromZipScript (source : Tree Text UInt8) : ∀ entries : List FileMapping,
    Scripted false (filesOf crates entries) id fun faults => extractFromZip crates faults source entries
  | [] => Scripted.pure (0, 0) id_zero
  | mapping :: entries => (extractZipMappingScript source mapping).bind fun written _ =>
      reportFile written.1 written.2 (extractFromZipScript source entries)

end Functions

end CncContent.Install.Script
