import CncContent.Iscab.Extract
import CncContent.Lib.FileScripts

/-! # The install executor

`execute_recipe` of the source with its extraction helpers: the actions of a recipe one after the other, from
a source tree that nothing changes into a content tree. The readers of the archive formats and the joining of
paths to the two roots are parameters. Every call on a file may break off as `faults` says; the error that
ends the run leaves the content tree as it is. -/

namespace CncContent.Install.Executor

open CncContent.Lib.Attempts CncContent.Lib.Bytes CncContent.Lib.Checks CncContent.Lib.Decimal
open CncContent.Lib.FileScripts CncContent.Lib.FileTree
open CncContent.Iscab.Extract (Decoded VolumeFile lower)

/-- A text: a name, or a path as it is written. -/
abbrev Text := List UInt8

/-- A path below one of the roots. -/
abbrev Path := List Text

/-! ### Recipes -/

structure FileMapping where
  fromPath : Text
  toPath : Text
deriving DecidableEq, Repr

structure RawExtractEntry where
  source : Text
  offset : ℕ
  length : ℕ
  toPath : Text
deriving DecidableEq, Repr

inductive InstallAction
  | copy (files : List FileMapping)
  | extractMix (sourceMix : Text) (entries : List FileMapping)
  | extractIscab (header : Text) (volumes : List (ℕ × Text)) (entries : List FileMapping)
  | extractRaw (entries : List RawExtractEntry)
  | extractZip (entries : List FileMapping)
  | extractMixFromContent (contentMix : Text) (entries : List FileMapping)
  | delete (path : Text)
  | extractBig (sourceBig : Text) (entries : List FileMapping)
  | extractMeg (sourceMeg : Text) (entries : List FileMapping)
  | extractBagIdx (sourceIdx sourceBag : Text) (entries : List FileMapping)
  | extractIso (sourceIso : Text) (entries : List FileMapping)
  | extractMixFromIso (sourceIso isoMixPath : Text) (entries : List FileMapping)
deriving DecidableEq

/-! ### Events and errors -/

inductive InstallProgress
  | actionStarted (index total : ℕ) (description : Text)
  | fileWritten (path : Path) (bytes : ℕ)
  | completed (filesWritten totalBytes : ℕ)
deriving DecidableEq, Repr

inductive IoError
  | refused (reason : Refusal)
  | invalidInput
  | unexpectedEof
  | invalidData (detail : Text)
  | os (code : ℕ)
deriving DecidableEq, Repr

inductive IscabFailure
  | io (source : IoError)
  | opening (source : Iscab.Archive.IscabError)
  | extracting (source : Iscab.Extract.ExtractError)
deriving DecidableEq, Repr

/-- The errors of the source, and the panics that `IscabArchive::open` can end with. -/
inductive ExecutorError
  | io (source : IoError)
  | mixNotFound (path : Path)
  | mixEntryNotFound (archive entry : Text)
  | iscab (source : IscabFailure)
  | zipError (detail : Text)
  | sourceFileNotFound (path : Path)
  | isoNotFound (path : Path)
  | isoEntryNotFound (archive entry : Text)
  | pathTraversal (path detail : Text)
  | panicked
deriving DecidableEq, Repr

/-! ### The parameters -/

/-- An open archive: the entry of a name, if it has one. -/
abbrev Reader := Text → Except Text (Option (List UInt8))

structure IsoReader where
  read : Reader
  openEntry : Reader

structure IdxEntry where
  offset : ℕ
  size : ℕ
deriving DecidableEq, Repr

/-- The bytes that the stream of an entry delivers, and the error it may end with. -/
structure ZipStream where
  delivered : List UInt8
  error : Option IoError
deriving DecidableEq, Repr

structure ZipReader where
  indexForName : Text → Option ℕ
  names : List (Option Text)
  byIndex : ℕ → Except Text ZipStream

/-- The crates that the executor uses. -/
structure Crates where
  joinSource : Text → Except Text Path
  joinContent : Text → Except Text Path
  openMix : List UInt8 → Except Text Reader
  openBig : List UInt8 → Except Text Reader
  openMeg : List UInt8 → Except Text Reader
  openIso : List UInt8 → Except Text IsoReader
  parseIdx : List UInt8 → Except Text (Text → Option IdxEntry)
  openZip : List UInt8 → Except Text ZipReader
  inflate : List UInt8 → Decoded

abbrev FileNode := Option (Node UInt8)

abbrev ContentWorld := World Text UInt8 InstallProgress

abbrev Installing (α : Type) := Attempt ContentWorld ExecutorError α

def refusedBy (reason : Refusal) : ExecutorError := .io (.refused reason)

/-! ### Calls -/

section Calls

variable (faults : ℕ → Option (Fault ExecutorError))

/-- A call that reads. -/
def access : Installing Unit := perform refusedBy faults .access

def createParentDirAll (dst : Path) : Installing Unit := perform refusedBy faults (.parents dst)

def writeFile (dst : Path) (data : List UInt8) : Installing Unit := perform refusedBy faults (.write dst data)

/-- `exists` and then `remove_file`. -/
def removeIfExists (target : Path) : Installing Unit := perform refusedBy faults (.remove target)

/-- `on_progress`. -/
def onProgress (event : InstallProgress) : Installing Unit := perform refusedBy faults (.report event)

/-- What is in a file that has been opened. -/
def contents : FileNode → Except ExecutorError (List UInt8)
  | some (.file data) => .ok data
  | some .dir => .error (refusedBy .isADirectory)
  | none => .error (refusedBy .notFound)

def openFile (n : FileNode) : Installing (List UInt8) := do
  access faults
  orReturn (contents n)

/-- The error of a format as an `io::Error`. -/
def invalidData {α : Type} (r : Except Text α) : Except ExecutorError α := r.mapError fun e => .io (.invalidData e)

def boundedPath (join : Text → Except Text Path) (subpath : Text) : Except ExecutorError Path :=
  (join subpath).mapError fun detail => .pathTraversal subpath detail

/-- `seek` and `read_exact`. -/
def readRange (data : List UInt8) (offset length : ℕ) : Except ExecutorError (List UInt8) :=
  if 2 ^ 63 ≤ offset then .error (.io .invalidInput)
  else if ((data.drop offset).take length).length < length then .error (.io .unexpectedEof)
  else .ok ((data.drop offset).take length)

end Calls

section Extraction

variable (crates : Crates) (faults : ℕ → Option (Fault ExecutorError))

/-! ### Archives with named entries -/

/-- The loop over the entries of an archive: how many files have been written, with how many bytes. -/
def extractEntries (fetch : Text → Installing (List UInt8)) : List FileMapping → Installing (ℕ × ℕ)
  | [] => pure (0, 0)
  | mapping :: entries => do
    let data ← fetch mapping.fromPath
    let dst ← orReturn (boundedPath crates.joinContent mapping.toPath)
    createParentDirAll faults dst
    writeFile faults dst data
    onProgress faults (.fileWritten dst data.length)
    let (filesWritten, totalBytes) ← extractEntries fetch entries
    pure (filesWritten + 1, totalBytes + data.length)

/-- An entry that is not there is an error. -/
def entryOf (reader : Reader) (missing : Text → ExecutorError) (name : Text) :
    Except ExecutorError (List UInt8) := do
  let data ← invalidData (reader name)
  okOr data (missing name)

def readEntry (reader : Reader) (missing : Text → ExecutorError) (name : Text) : Installing (List UInt8) := do
  access faults
  orReturn (entryOf reader missing name)

/-- An archive that is a file of its own: it is opened if it exists, and its entries are extracted. -/
def extractFromArchive (openArchive : List UInt8 → Except Text Reader) (absent : ExecutorError)
    (missing : Text → ExecutorError) (archive : FileNode) (entries : List FileMapping) :
    Installing (ℕ × ℕ) :=
  if archive.isNone then fail absent
  else do
    let file ← openFile faults archive
    access faults
    let reader ← orReturn (invalidData (openArchive file))
    extractEntries crates faults (readEntry faults reader missing) entries

def extractFromMix (mixPath : Path) (mix : FileNode) (entries : List FileMapping) (archiveName : Text) :
    Installing (ℕ × ℕ) :=
  extractFromArchive crates faults crates.openMix (.mixNotFound mixPath) (.mixEntryNotFound archiveName) mix
    entries

/-- `{format} entry '{name}' not found in {archive_name}`. -/
def entryNotFound (format : String) (archiveName name : Text) : ExecutorError :=
  .zipError (text format ++ text " entry '" ++ name ++ text "' not found in " ++ archiveName)

def extractFromBig (bigPath : Path) (big : FileNode) (entries : List FileMapping) (archiveName : Text) :
    Installing (ℕ × ℕ) :=
  extractFromArchive crates faults crates.openBig (.sourceFileNotFound bigPath)
    (entryNotFound "BIG" archiveName) big entries

def extractFromMeg (megPath : Path) (meg : FileNode) (entries : List FileMapping) (archiveName : Text) :
    Installing (ℕ × ℕ) :=
  extractFromArchive crates faults crates.openMeg (.sourceFileNotFound megPath)
    (entryNotFound "MEG" archiveName) meg entries

def extractFromIso (isoPath : Path) (iso : FileNode) (entries : List FileMapping) (archiveName : Text) :
    Installing (ℕ × ℕ) :=
  extractFromArchive crates faults (fun file => (crates.openIso file).map IsoReader.read)
    (.isoNotFound isoPath) (.isoEntryNotFound archiveName) iso entries

/-- The MIX archive is an entry of the ISO image. -/
def extractMixFromIso (isoPath : Path) (iso : FileNode) (isoMixPath : Text) (entries : List FileMapping)
    (archiveName : Text) : Installing (ℕ × ℕ) :=
  if iso.isNone then fail (.isoNotFound isoPath)
  else do
    let file ← openFile faults iso
    access faults
    let image ← orReturn (invalidData (crates.openIso file))
    access faults
    let entry ← orReturn (entryOf image.openEntry (.isoEntryNotFound archiveName) isoMixPath)
    access faults
    let reader ← orReturn (invalidData (crates.openMix entry))
    extractEntries crates faults
      (readEntry faults reader (.mixEntryNotFound (archiveName ++ byte ':' :: isoMixPath))) entries

/-! ### Archives with several files -/

variable (platform : Iscab.Archive.Platform) (source : Tree Text UInt8)

/-- `IscabArchive::open`. -/
def openIscab (header : FileNode) : Except ExecutorError (List Iscab.Archive.FileEntry) :=
  match contents header with
  | .ok data =>
    match (Iscab.Archive.openHeader platform data).result with
    | .ok entries => .ok entries
    | .error (.error e) => .error (.iscab (.opening e))
    | .error _ => .error .panicked
  | .error (.io e) => .error (.iscab (.io e))
  | .error e => .error e

/-- What reading a cabinet volume ends with. -/
def volumeFile : FileNode → VolumeFile
  | some (.file data) => ⟨data, none, none, none⟩
  | some .dir => ⟨[], none, none, some (text "Is a directory (os error 21)")⟩
  | none => ⟨[], some (text "No such file or directory (os error 2)"), none, none⟩

/-- All paths of volumes are joined before the first entry is read. -/
def joinVolumes : List (ℕ × Text) → Except ExecutorError (List (ℕ × VolumeFile))
  | [] => .ok []
  | (index, name) :: volumes => do
    let path ← boundedPath crates.joinSource name
    let rest ← joinVolumes volumes
    .ok ((index, volumeFile (node source path)) :: rest)

/-- `IscabArchive::extract`. -/
def iscabEntry (archive : List Iscab.Archive.FileEntry) (volumes : List (ℕ × VolumeFile)) (name : Text) :
    Except ExecutorError (List UInt8) :=
  (Iscab.Extract.extract crates.inflate archive name volumes).mapError fun e => .iscab (.extracting e)

def extractFromIscab (header : Text) (volumes : List (ℕ × Text)) (entries : List FileMapping) :
    Installing (ℕ × ℕ) := do
  let hdr ← orReturn (boundedPath crates.joinSource header)
  access faults
  let archive ← orReturn (openIscab platform (node source hdr))
  let volumeFiles ← orReturn (joinVolumes crates source volumes)
  let fetch (name : Text) : Installing (List UInt8) := do
    access faults
    orReturn (iscabEntry crates archive volumeFiles name)
  extractEntries crates faults fetch entries

/-- The place of an entry in the bag. -/
def bagEntry (index : Text → Option IdxEntry) (idxPath name : Text) : Except ExecutorError IdxEntry :=
  okOr (index name) (entryNotFound "BAG/IDX" idxPath name)

def extractFromBagIdx (idxPath bagPath : Text) (entries : List FileMapping) : Installing (ℕ × ℕ) := do
  let idx ← orReturn (boundedPath crates.joinSource idxPath)
  let idxData ← openFile faults (node source idx)
  let index ← orReturn (invalidData (crates.parseIdx idxData))
  let bag ← orReturn (boundedPath crates.joinSource bagPath)
  let bagData ← openFile faults (node source bag)
  let fetch (name : Text) : Installing (List UInt8) := do
    let entry ← orReturn (bagEntry index idxPath name)
    access faults
    orReturn (readRange bagData entry.offset entry.size)
  extractEntries crates faults fetch entries

/-! ### Byte ranges and copies -/

def extractRawEntry (entry : RawExtractEntry) : Installing ℕ := do
  let src ← orReturn (boundedPath crates.joinSource entry.source)
  if (node source src).isNone then fail (.sourceFileNotFound src)
  else do
    let file ← openFile faults (node source src)
    access faults
    let buf ← orReturn (readRange file entry.offset entry.length)
    let dst ← orReturn (boundedPath crates.joinContent entry.toPath)
    createParentDirAll faults dst
    writeFile faults dst buf
    pure entry.length

def extractRaw : List RawExtractEntry → Installing (ℕ × ℕ)
  | [] => pure (0, 0)
  | entry :: entries => do
    let bytes ← extractRawEntry crates faults source entry
    let dst ← orReturn (boundedPath crates.joinContent entry.toPath)
    onProgress faults (.fileWritten dst bytes)
    let (filesWritten, totalBytes) ← extractRaw entries
    pure (filesWritten + 1, totalBytes + bytes)

/-- `fs::copy` opens the file behind the making of the directories. -/
def copyFiles : List FileMapping → Installing (ℕ × ℕ)
  | [] => pure (0, 0)
  | mapping :: files => do
    let src ← orReturn (boundedPath crates.joinSource mapping.fromPath)
    let dst ← orReturn (boundedPath crates.joinContent mapping.toPath)
    createParentDirAll faults dst
    let data ← openFile faults (node source src)
    writeFile faults dst data
    onProgress faults (.fileWritten dst data.length)
    let (filesWritten, totalBytes) ← copyFiles files
    pure (filesWritten + 1, totalBytes + data.length)

/-! ### ZIP archives -/

def joinSlash (parts : List Text) : Text := [byte '/'].intercalate parts

/-- The index of the exact name, or else of the first name that is the same in lower case. -/
def zipIndex (archive : ZipReader) (entryName : Text) : Option ℕ :=
  (archive.indexForName entryName).or
    (archive.names.findIdx? fun n => n.any fun n => lower n == lower entryName)

def zipNotFound (entryName zipRel : Text) : ExecutorError :=
  .zipError (text "entry '" ++ entryName ++ text "' not found in " ++ zipRel)

def zipDetail {α : Type} (r : Except Text α) : Except ExecutorError α := r.mapError .zipError

/-- What `io::copy` returns once it has written what the stream delivers. -/
def copied (entry : ZipStream) : Except ExecutorError ℕ :=
  match entry.error with
  | some e => .error (.io e)
  | none => .ok entry.delivered.length

/-- The part of `extract_zip_entry` behind the finding of the archive. -/
def extractZipFile (zip : FileNode) (zipRel entryName toPath : Text) : Installing (Path × ℕ) := do
  let file ← openFile faults zip
  access faults
  let archive ← orReturn (zipDetail (crates.openZip file))
  let index ← orReturn (okOr (zipIndex archive entryName) (zipNotFound entryName zipRel))
  access faults
  let entry ← orReturn (zipDetail (archive.byIndex index))
  let dst ← orReturn (boundedPath crates.joinContent toPath)
  createParentDirAll faults dst
  -- `create_file`, and then `io::copy`.
  writeFile faults dst []
  writeFile faults dst entry.delivered
  let bytes ← orReturn (copied entry)
  pure (dst, bytes)

/-- The loop of `extract_zip_entry`: the first of the paths that is a file, and has something behind it. -/
def extractZipEntry (parts : List Text) (toPath : Text) : List ℕ → Installing (Option (Path × ℕ))
  | [] => pure none
  | splitAt :: rest => do
    let zipRel := joinSlash (parts.take splitAt)
    let zip ← orReturn (boundedPath crates.joinSource zipRel)
    if isFile (node source zip) ∧ splitAt < parts.length then do
      let written ← extractZipFile crates faults (node source zip) zipRel (joinSlash (parts.drop splitAt)) toPath
      pure (some written)
    else extractZipEntry parts toPath rest

/-- A mapping of an `ExtractZip` action: a loose file, or an entry of an archive on the way. -/
def extractZipMapping (mapping : FileMapping) : Installing (Path × ℕ) := do
  let src ← orReturn (boundedPath crates.joinSource mapping.fromPath)
  if (node source src).isSome then do
    let dst ← orReturn (boundedPath crates.joinContent mapping.toPath)
    createParentDirAll faults dst
    let data ← openFile faults (node source src)
    writeFile faults dst data
    pure (dst, data.length)
  else do
    let parts := mapping.fromPath.splitOn (byte '/')
    let extracted ← extractZipEntry crates faults source parts mapping.toPath (List.range' 1 parts.length)
    orReturn (okOr extracted (.sourceFileNotFound src))

def extractFromZip : List FileMapping → Installing (ℕ × ℕ)
  | [] => pure (0, 0)
  | mapping :: entries => do
    let (dst, bytes) ← extractZipMapping crates faults source mapping
    onProgress faults (.fileWritten dst bytes)
    let (filesWritten, totalBytes) ← extractFromZip entries
    pure (filesWritten + 1, totalBytes + bytes)

/-! ### The recipe -/

/-- `Extracting {} entry/entries from `. -/
def extracting (entries : List FileMapping) : Text :=
  text "Extracting " ++ printNat entries.length ++ text " entry/entries from "

def describeAction : InstallAction → Text
  | .copy files => text "Copying " ++ printNat files.length ++ text " file(s)"
  | .extractMix sourceMix entries => extracting entries ++ sourceMix
  | .extractMixFromContent contentMix entries => extracting entries ++ contentMix ++ text " (content)"
  | .extractIscab header _ entries => extracting entries ++ text "InstallShield " ++ header
  | .extractRaw entries => text "Extracting " ++ printNat entries.length ++ text " raw byte range(s)"
  | .extractZip entries => extracting entries ++ text "ZIP"
  | .delete path => text "Deleting " ++ path
  | .extractBig sourceBig entries => extracting entries ++ text "BIG " ++ sourceBig
  | .extractMeg sourceMeg entries => extracting entries ++ text "MEG " ++ sourceMeg
  | .extractBagIdx sourceIdx _ entries => extracting entries ++ text "BAG/IDX " ++ sourceIdx
  | .extractIso sourceIso entries => extracting entries ++ text "ISO " ++ sourceIso
  | .extractMixFromIso sourceIso isoMixPath entries =>
    extracting entries ++ text "MIX " ++ isoMixPath ++ text " in ISO " ++ sourceIso

def executeAction : InstallAction → Installing (ℕ × ℕ)
  | .copy files => copyFiles crates faults source files
  | .extractMix sourceMix entries => do
    let mix ← orReturn (boundedPath crates.joinSource sourceMix)
    extractFromMix crates faults mix (node source mix) entries sourceMix
  | .extractMixFromContent contentMix entries => do
    let mix ← orReturn (boundedPath crates.joinContent contentMix)
    let archive ← gets fun w => node w.tree mix
    extractFromMix crates faults mix archive entries contentMix
  | .extractIscab header volumes entries =>
    extractFromIscab crates faults platform source header volumes entries
  | .extractRaw entries => extractRaw crates faults source entries
  | .extractZip entries => extractFromZip crates faults source entries
  | .delete path => do
    let target ← orReturn (boundedPath crates.joinContent path)
    removeIfExists faults target
    pure (0, 0)
  | .extractBig sourceBig entries => do
    let big ← orReturn (boundedPath crates.joinSource sourceBig)
    extractFromBig crates faults big (node source big) entries sourceBig
  | .extractMeg sourceMeg entries => do
    let meg ← orReturn (boundedPath crates.joinSource sourceMeg)
    extractFromMeg crates faults meg (node source meg) entries sourceMeg
  | .extractBagIdx sourceIdx sourceBag entries =>
    extractFromBagIdx crates faults source sourceIdx sourceBag entries
  | .extractIso sourceIso entries => do
    let iso ← orReturn (boundedPath crates.joinSource sourceIso)
    extractFromIso crates faults iso (node source iso) entries sourceIso
  | .extractMixFromIso sourceIso isoMixPath entries => do
    let iso ← orReturn (boundedPath crates.joinSource sourceIso)
    extractMixFromIso crates faults iso (node source iso) isoMixPath entries sourceIso

/-- The loop over the actions from number `index` on, with the counts so far. -/
def executeActions (total : ℕ) : ℕ → ℕ × ℕ → List InstallAction → Installing (ℕ × ℕ)
  | _, counts, [] => pure counts
  | index, (filesWritten, totalBytes), action :: actions => do
    onProgress faults (.actionStarted index total (describeAction action))
    let (written, bytes) ← executeAction crates faults platform source action
    executeActions total (index + 1) (filesWritten + written, totalBytes + bytes) actions

/-- `PathBoundary::try_new` and `try_new_create` for the two roots: a path as it is displayed, and why it is
not taken. -/
structure Roots where
  sourceRoot : Text
  contentRoot : Text
  sourceRefused : Option Text
  contentRefused : Option Text
deriving DecidableEq, Repr

def checkRoot (label : String) (path : Text) : Option Text → Except ExecutorError Unit
  | some e => .error (.pathTraversal path (text "invalid " ++ text label ++ text " root: " ++ e))
  | none => .ok ()

def executeRecipe (roots : Roots) (actions : List InstallAction) : Installing Unit := do
  orReturn (checkRoot "source" roots.sourceRoot roots.sourceRefused)
  orReturn (checkRoot "content" roots.contentRoot roots.contentRefused)
  let (filesWritten, totalBytes) ←
    executeActions crates faults platform source actions.length 0 (0, 0) actions
  onProgress faults (.completed filesWritten totalBytes)

end Extraction

end CncContent.Install.Executor
