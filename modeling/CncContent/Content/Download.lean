import CncContent.Downloads.Extraction
import CncContent.Install.Executor
import CncContent.Verify.Generation

/-! # The download of a package

`download_package` of the source and the functions below it, without the feature `torrent`: the mirrors are put
together, the archive is fetched and compared with its hash, and what it holds is extracted into the content
tree; then the manifest is written and the archive removed. The network is a parameter, as are the hashes, the
reader of ZIP archives and the joining of paths; every call on a file may break off as `faults` says. -/

namespace CncContent.Content.Download

open CncContent.Lib.Attempts CncContent.Lib.Bounded CncContent.Lib.Bytes CncContent.Lib.Checks
open CncContent.Lib.Decimal CncContent.Lib.FileScripts CncContent.Lib.FileTree
open CncContent.Content.Packages CncContent.Verify.Generation
open CncContent.Downloads.Extraction (maxEntryUncompressed maxTotalUncompressed maxZipEntries)
open CncContent.Install.Executor (IoError Path FileNode ZipStream)

inductive DownloadProgress
  | fetchingMirrors (url : Text)
  | tryingMirror (index total : ℕ) (url : Text)
  | downloading (bytes : ℕ) (total : Option ℕ)
  | verifying
  | verifyingSkipped
  | extracting (entry : Text) (index total : ℕ)
  | complete (files : ℕ)
deriving DecidableEq, Repr

inductive DownloadError
  | noUrls
  | notFreeware (game : Text)
  | allMirrorsFailed (count : ℕ) (lastError : Text)
  | sha1Mismatch (expected actual : Text)
  | io (source : IoError)
  | zip (detail : Text)
  | noDefinition (id : DownloadId)
deriving DecidableEq, Repr

abbrev DownloadWorld := World Text UInt8 DownloadProgress

abbrev Fetching (α : Type) := Attempt DownloadWorld DownloadError α

abbrev Faults := ℕ → Option (Fault DownloadError)

def refusedBy (reason : Refusal) : DownloadError := .io (.refused reason)

/-! ### The parameters -/

/-- A server's answer: the bytes that the reads of its body return one after the other, and the error that may
end them. -/
structure Response where
  contentLength : Option ℕ
  chunks : List (List UInt8)
  broken : Option Text
deriving DecidableEq, Repr

/-- A temporary file of a transport, beside the one that it fetches. -/
inductive Scratch
  | seg (i : ℕ)
  | tmp (i : ℕ)
deriving DecidableEq, Repr

/-- The file that is fetched has been written, and the same bytes hashed; or the transport has failed and perhaps
left something there. -/
inductive Fetched
  | whole (data : List UInt8)
  | failed (left : Option (List UInt8)) (error : Text)
deriving DecidableEq, Repr

/-- What a transport has reported and done, and the temporary files that it could not remove. -/
structure Transfer where
  reports : List (ℕ × Option ℕ)
  scratch : List (Scratch × List UInt8)
  fetched : Fetched
deriving DecidableEq, Repr

structure ZipEntry where
  name : Text
  size : ℕ
  stream : ZipStream
deriving DecidableEq, Repr

/-- The network answers by the number of calls that have been made. The texts are those of the errors. -/
structure Network where
  get : ℕ → Text → Except Text Response
  segmentedDownload : ℕ → List Text → ℕ → Transfer
  parallelDownload : ℕ → List Text → ℕ → Transfer
  fetchMirrorList : ℕ → Text → Option (List Text)

structure Crates where
  sha1 : List UInt8 → List UInt8
  blake3 : List UInt8 → List UInt8
  boundary : Option Text
  joinContent : Text → Except Text Path
  openZip : List UInt8 → Except Text (List (Except Text ZipEntry))
  toToml : ContentManifest → Option (List UInt8)
  fromToml : List UInt8 → Option ContentManifest
  describe : DownloadError → Text

/-- The tables, the compiled mirrors, what the environment says, and the joining of the static paths. -/
structure Setting where
  tables : Tables
  compiledMirrors : DownloadId → List Text
  mirrorListUrlOverride : Option Text
  fastVerify : Bool
  place : Text → Path

/-- `file_stem`: the name up to its last dot, if it does not start with that one. -/
def fileStem (name : Text) : Text :=
  let stem := ((name.reverse.dropWhile fun c => c ≠ byte '.').drop 1).reverse
  if stem = [] then name else stem

def withExtension (path : Path) (extension : Text) : Path :=
  match path.getLast? with
  | some name => path.dropLast ++ [fileStem name ++ [byte '.'] ++ extension]
  | none => path

def Scratch.extension : Scratch → Text
  | .seg i => text "seg." ++ printNat i
  | .tmp i => text "tmp." ++ printNat i

def Scratch.path (s : Scratch) (dest : Path) : Path := withExtension dest s.extension

def zipPath : Path := [text ".download.zip.tmp"]

def manifestPath : Path := [text "content-manifest.toml"]

/-! ### Calls -/

section Calls

variable (faults : Faults)

def access : Fetching Unit := perform refusedBy faults .access

def createParentDirAll (dst : Path) : Fetching Unit := perform refusedBy faults (.parents dst)

def writeFile (dst : Path) (data : List UInt8) : Fetching Unit := perform refusedBy faults (.write dst data)

def removeFile (target : Path) : Fetching Unit := perform refusedBy faults (.remove target)

/-- `on_progress`. -/
def onProgress (event : DownloadProgress) : Fetching Unit := perform refusedBy faults (.report event)

/-- `let _ =` on the result of a call. -/
def ignore (m : Fetching Unit) : Fetching Unit := do
  let _ ← attempt m
  pure ()

end Calls

/-! ### Mirrors -/

/-- What is not there yet, one after the other. -/
def addNew {α : Type} [DecidableEq α] (urls more : List α) : List α :=
  more.foldl (fun urls u => if u ∈ urls then urls else urls ++ [u]) urls

def resolveDownloadUrls (mirrorUrls : Option (List Text)) (directUrls : List Text) : List Text :=
  addNew (mirrorUrls.getD []) directUrls

def resolveMirrors (compiledMirrors runtimeMirrors directUrls : List Text) : List Text :=
  let urls := addNew compiledMirrors runtimeMirrors
  resolveDownloadUrls (if urls = [] then none else some urls) directUrls

/-! ### One URL -/

def maxPreallocSize : ℕ := 2 * 1024 * 1024 * 1024

def megabyte : ℕ := 1024 * 1024

/-- A report whenever another megabyte is complete. -/
def reports (contentLength : Option ℕ) : ℕ → ℕ → List (List UInt8) → List (ℕ × Option ℕ)
  | _, _, [] => []
  | total, lastReportedMb, c :: cs =>
    let total := total + c.length
    let currentMb := total / megabyte
    if lastReportedMb < currentMb then (total, contentLength) :: reports contentLength total currentMb cs
    else reports contentLength total lastReportedMb cs

/-- The length that the file is given before the first byte is written. -/
def prealloc (sizeHint : ℕ) (contentLength : Option ℕ) : ℕ :=
  match contentLength with
  | none => 0
  | some len => min len (if 0 < sizeHint then satMul u64Max sizeHint 2 else maxPreallocSize)

/-- `try_download`: the file is as long as what has been written only if all has been read. -/
def tryDownload (sizeHint : ℕ) : Except Text Response → Transfer
  | .error e => ⟨[], [], .failed none e⟩
  | .ok r =>
    let contentLength := r.contentLength.or (if 0 < sizeHint then some sizeHint else none)
    let data := r.chunks.flatten
    let seen := reports contentLength 0 0 r.chunks
    match r.broken with
    | none => ⟨seen ++ [(data.length, contentLength)], [], .whole data⟩
    | some e =>
      ⟨seen, [], .failed (some (data ++ List.replicate (prealloc sizeHint contentLength - data.length) 0)) e⟩

section Pipeline

variable (network : Network) (crates : Crates) (setting : Setting) (faults : Faults)

/-! ### Fetching -/

/-- `{total_urls} mirrors — segmented parallel download`. -/
def manyMirrors (total : ℕ) : Text :=
  printNat total ++ text " mirrors " ++ [0xE2, 0x80, 0x94] ++ text " segmented parallel download"

/-- The transport that the number of URLs and the known size ask for. -/
def transport (time : ℕ) (urls : List Text) (sizeHint : ℕ) : Transfer :=
  match urls with
  | [url] => tryDownload sizeHint (network.get time url)
  | _ =>
    if 0 < sizeHint then network.segmentedDownload time urls sizeHint
    else network.parallelDownload time urls sizeHint

/-- The file that is fetched gets its contents last. -/
def receive (dest : Path) (transfer : Transfer) : Fetching (Except Text Text) := do
  forEach (fun r => onProgress faults (.downloading r.1 r.2)) transfer.reports
  forEach (fun s => ignore (writeFile faults (s.1.path dest) s.2)) transfer.scratch
  match transfer.fetched with
  | .whole data =>
    let written ← attempt (writeFile faults dest data)
    pure (match written with
      | .ok _ => .ok (toHex (crates.sha1 data))
      | .error e => .error (crates.describe e))
  | .failed none e => pure (.error e)
  | .failed (some data) e =>
    ignore (writeFile faults dest data)
    pure (.error e)

def checkSha1 (actual : Text) (expected : Option Text) (file : Path) : Fetching Unit :=
  match expected with
  | none => onProgress faults .verifyingSkipped
  | some expectedHash => do
    onProgress faults .verifying
    if actual ≠ expectedHash then do
      ignore (removeFile faults file)
      fail (.sha1Mismatch expectedHash actual)
    else pure ()

def downloadToFile (urls : List Text) (dest : Path) (sizeHint : ℕ) (expectedSha1 : Option Text) :
    Fetching Unit :=
  if urls = [] then fail .noUrls
  else do
    onProgress faults (.tryingMirror 0 urls.length
      (if urls.length = 1 then urls.head?.getD [] else manyMirrors urls.length))
    let transfer ← gets fun w => transport network w.clock urls sizeHint
    let result ← receive crates faults dest transfer
    match result with
    | .ok fusedSha1 => checkSha1 faults fusedSha1 expectedSha1 dest
    | .error lastError => do
      ignore (removeFile faults dest)
      fail (.allMirrorsFailed urls.length lastError)

/-! ### Extracting -/

/-- The errors of the checks. -/
def ofExtraction : Downloads.Extraction.DownloadError → DownloadError
  | .io => .io .unexpectedEof
  | .zip detail => .zip detail

/-- What `io::copy` returns once it has written what the stream delivers. -/
def copied (entry : ZipStream) : Except DownloadError Unit :=
  match entry.error with
  | some e => .error (.io e)
  | none => .ok ()

def entryPath (name : Text) : Except DownloadError Path :=
  (crates.joinContent name).mapError fun e => ofExtraction (Downloads.Extraction.blockedPath name e)

/-- The part of the loop behind the checks. -/
def writeEntry (dst : Path) (entry : ZipEntry) : Fetching Unit := do
  createParentDirAll faults dst
  -- `create_file`, and then `io::copy`.
  writeFile faults dst []
  writeFile faults dst entry.stream.delivered
  orReturn (copied entry.stream)

/-- The loop over the entries from number `i` on. -/
def extractEntries (total : ℕ) : ℕ → List (Except Text ZipEntry) → ℕ → ℕ → Fetching ℕ
  | _, [], files, _ => pure files
  | i, slot :: slots, files, totalUncompressed => do
    let entry ← orReturn (slot.mapError .zip)
    if entry.name.getLast? = some (byte '/') then extractEntries total (i + 1) slots files totalUncompressed
    else if maxEntryUncompressed < entry.size then
      fail (ofExtraction (Downloads.Extraction.entryTooLarge entry.name entry.size))
    else if maxTotalUncompressed < satAdd u64Max totalUncompressed entry.size then
      fail (ofExtraction Downloads.Extraction.totalTooLarge)
    else do
      onProgress faults (.extracting entry.name i total)
      let dst ← orReturn (entryPath crates entry.name)
      writeEntry faults dst entry
      extractEntries total (i + 1) slots (files + 1) (satAdd u64Max totalUncompressed entry.size)

/-- What is in a file that has been opened. -/
def contents : FileNode → Except DownloadError (List UInt8)
  | some (.file data) => .ok data
  | some .dir => .error (refusedBy .isADirectory)
  | none => .error (refusedBy .notFound)

/-- What follows once the archive has been opened. -/
def extractSlots (slots : List (Except Text ZipEntry)) : Fetching ℕ :=
  if maxZipEntries < slots.length then
    fail (ofExtraction (Downloads.Extraction.tooManyEntries slots.length))
  else
    match crates.boundary with
    | some e => fail (ofExtraction (Downloads.Extraction.noBoundary e))
    | none => extractEntries crates faults slots.length 0 slots 0 0

def extractZip (path : Path) : Fetching ℕ := do
  access faults
  let file ← gets fun w => node w.tree path
  let data ← orReturn (contents file)
  let slots ← orReturn ((crates.openZip data).mapError .zip)
  extractSlots crates faults slots

/-! ### The package -/

/-- What a read of the file returns before its end; a directory cannot be read. -/
def readsOf : FileNode → Option (List (Option (List UInt8)))
  | some (.file data) => some [some data]
  | some .dir => some [none]
  | none => none

/-- The length in the metadata; that of a directory is not modelled. -/
def lengthOf : FileNode → Option ℕ
  | some (.file data) => some data.length
  | some .dir => some 0
  | none => none

/-- The content tree as the verification sees it. -/
def snapshotOf (place : Text → Path) (t : Tree Text UInt8) : Snapshot where
  present := fun path => (node t (place path)).isSome
  disk := fun path => readsOf (node t (place path))
  length := fun path => lengthOf (node t (place path))

def generated (package : DownloadPackage) (t : Tree Text UInt8) : Except ManifestError ContentManifest :=
  generateManifest crates.blake3 (snapshotOf setting.place t) setting.tables setting.fastVerify package.game.slug
    (text "v1") package.provides

def saveManifest (m : ContentManifest) : Fetching Unit :=
  match crates.toToml m with
  | none => pure ()
  | some toml => ignore (writeFile faults manifestPath toml)

/-- Whatever fails, nothing is written then. -/
def writeContentManifest (package : DownloadPackage) : Fetching Unit := do
  let manifest ← gets fun w => generated crates setting package w.tree
  match manifest with
  | .error _ => pure ()
  | .ok m => saveManifest crates faults m

/-- The compiled mirrors, and those of the mirror list; a list that cannot be fetched is empty. -/
def resolvePackageMirrors (package : DownloadPackage) : Fetching (List Text × List Text) := do
  let compiled := setting.compiledMirrors package.id
  match setting.mirrorListUrlOverride.or package.mirrorListUrl with
  | none => pure (compiled, [])
  | some url => do
    onProgress faults (.fetchingMirrors url)
    let runtime ← gets fun w => network.fetchMirrorList w.clock url
    pure (compiled, runtime.getD [])

def downloadPackage (package : DownloadPackage) : Fetching Unit := do
  -- `create_dir_all(content_root)`.
  access faults
  let mirrors ← resolvePackageMirrors network setting faults package
  let urls := resolveMirrors mirrors.1 mirrors.2 package.directUrls
  downloadToFile network crates faults urls zipPath package.sizeHint package.sha1
  let files ← extractZip crates faults zipPath
  writeContentManifest crates setting faults package
  ignore (removeFile faults zipPath)
  onProgress faults (.complete files)

end Pipeline

end CncContent.Content.Download
