import CncContent.Lib.Checks
import CncContent.Lib.Decimal

/-! # Workshop packages

`build_package`, `read_manifest` and `validate_package` of the source. SHA-256, the ZIP archive
(`Zip`) and JSON (`Json`) are parameters; errors from outside are their texts. A file is read to its
end at once, where the source hashes what it reads in pieces. -/

namespace CncContent.Workshop.Package

open CncContent.Lib.Bytes CncContent.Lib.Checks CncContent.Lib.Decimal

/-- `MAX_ASSET_PATH_LEN`. -/
def maxAssetPathLen : ℕ := 256

/-- `MAX_MANIFEST_SIZE`. -/
def maxManifestSize : ℕ := 1048576

/-- `WINDOWS_RESERVED_NAMES`. -/
def windowsReservedNames : List String :=
  ["CON", "PRN", "AUX", "NUL", "COM0", "COM1", "COM2", "COM3", "COM4", "COM5", "COM6", "COM7",
    "COM8", "COM9", "LPT0", "LPT1", "LPT2", "LPT3", "LPT4", "LPT5", "LPT6", "LPT7", "LPT8", "LPT9"]

inductive PackageError
  | zipWrite (message : List UInt8)
  | zipRead (message : List UInt8)
  | manifestMissing (message : List UInt8)
  | manifestParse (message : List UInt8)
  | manifestSerialize (message : List UInt8)
  | fileMissing (path message : List UInt8)
  | pathTraversal (path detail : List UInt8)
deriving DecidableEq, Repr

/-! ### Paths -/

/-- `u8::to_ascii_lowercase`. -/
def toAsciiLowercase (b : UInt8) : UInt8 := if within (byte 'A') (byte 'Z') b then b + 32 else b

/-- `str::eq_ignore_ascii_case`. -/
def eqIgnoreAsciiCase (a b : List UInt8) : Bool :=
  a.map toAsciiLowercase == b.map toAsciiLowercase

/-- `u8::is_ascii_alphabetic`. -/
def isAsciiAlphabetic (b : UInt8) : Bool :=
  within (byte 'a') (byte 'z') b || within (byte 'A') (byte 'Z') b

/-- The path starts with the letter of a drive. -/
def hasDriveLetter : List UInt8 → Bool
  | first :: second :: _ => second == byte ':' && isAsciiAlphabetic first
  | _ => false

/-- The name of a device, whatever its extension. -/
def isReserved (component : List UInt8) : Bool :=
  let stem := component.takeWhile (· != byte '.')
  windowsReservedNames.any fun r => eqIgnoreAsciiCase (text r) stem

def validateComponent (path component : List UInt8) : Except PackageError Unit := do
  refuse (component = text "..") (.pathTraversal path (text "parent traversal (..)"))
  refuse (isReserved component)
    (.pathTraversal path (text "Windows reserved device name: " ++ component))

def validateAssetPath (path : List UInt8) : Except PackageError Unit := do
  refuse (path = []) (.pathTraversal path (text "empty path"))
  refuse (maxAssetPathLen < path.length) (.pathTraversal path
    (text "path length " ++ printNat path.length ++ text " exceeds limit " ++
      printNat maxAssetPathLen))
  refuse (path.contains 0) (.pathTraversal path (text "contains null byte"))
  refuse (path.contains (byte '\\')) (.pathTraversal path (text "contains backslash"))
  refuse (path.head? = some (byte '/')) (.pathTraversal path (text "absolute path"))
  refuse (hasDriveLetter path) (.pathTraversal path (text "Windows drive letter"))
  (path.splitOn (byte '/')).forM (validateComponent path)

/-! ### Manifests -/

structure FileEntry where
  path : List UInt8
  sha256 : List UInt8
  size : ℕ
deriving DecidableEq, Repr

structure MetaDependency where
  package : List UInt8
  versionReq : List UInt8
  optional : Bool
deriving DecidableEq, Repr

structure PackageMeta where
  name : List UInt8
  publisher : List UInt8
  version : List UInt8
  license : List UInt8
  engineVersion : Option (List UInt8)
  description : Option (List UInt8)
  files : List FileEntry
  dependencies : List MetaDependency
deriving DecidableEq, Repr

structure PackageSpec where
  name : List UInt8
  publisher : List UInt8
  version : List UInt8
  license : List UInt8
  description : Option (List UInt8)
  engineVersion : Option (List UInt8)
  dependencies : List MetaDependency
deriving DecidableEq, Repr

/-- `serde_json` at the type of manifests. -/
structure Json where
  toStringPretty : PackageMeta → Except (List UInt8) (List UInt8)
  fromStr : List UInt8 → Except (List UInt8) PackageMeta

/-! ### Archives -/

/-- A file in an archive: its declared size, and what reading it to its end returns. -/
structure ZipFile where
  size : ℕ
  readToEnd : Except (List UInt8) (List UInt8)

/-- The functions of `zip` that are used. -/
structure Zip where
  ZipWriter : Type
  new : ZipWriter
  startFile : ZipWriter → List UInt8 → Except (List UInt8) ZipWriter
  writeAll : ZipWriter → List UInt8 → Except (List UInt8) ZipWriter
  finish : ZipWriter → Except (List UInt8) (List UInt8)
  ZipArchive : Type
  openArchive : List UInt8 → Except (List UInt8) ZipArchive
  byName : ZipArchive → List UInt8 → Except (List UInt8) ZipFile

/-- `Read::read_to_string`. -/
def ZipFile.readToString (f : ZipFile) : Except (List UInt8) (List UInt8) := do
  let content ← f.readToEnd
  refuse (!validUtf8 content) (text "stream did not contain valid UTF-8")
  pure content

variable (sha256 : List UInt8 → Vector UInt8 32) (json : Json) (zip : Zip)

/-! ### Building -/

structure BuiltPackage where
  archive : List UInt8
  blobId : Vector UInt8 32
  manifest : PackageMeta
deriving DecidableEq

def fileEntry (file : List UInt8 × List UInt8) : FileEntry where
  path := file.1
  sha256 := toHex (sha256 file.2).toList
  size := file.2.length

/-- The manifest of a package. -/
def packageMeta (spec : PackageSpec) (files : List (List UInt8 × List UInt8)) : PackageMeta where
  name := spec.name
  publisher := spec.publisher
  version := spec.version
  license := spec.license
  engineVersion := spec.engineVersion
  description := spec.description
  files := files.map (fileEntry sha256)
  dependencies := spec.dependencies

/-- The name of an asset in the archive. -/
def assetName (path : List UInt8) : List UInt8 := text "assets/" ++ path

/-- `start_file` and `write_all`. -/
def writeFile (w : zip.ZipWriter) (file : List UInt8 × List UInt8) :
    Except PackageError zip.ZipWriter := do
  let w ← (zip.startFile w file.1).mapError .zipWrite
  (zip.writeAll w file.2).mapError .zipWrite

def buildPackage (spec : PackageSpec) (files : List (List UInt8 × List UInt8)) :
    Except PackageError BuiltPackage := do
  files.forM fun file => validateAssetPath file.1
  let manifest := packageMeta sha256 spec files
  let manifestJson ← (json.toStringPretty manifest).mapError .manifestSerialize
  let w ← writeFile zip zip.new (text "manifest.json", manifestJson)
  let w ← files.foldlM (fun w file => writeFile zip w (assetName file.1, file.2)) w
  let archive ← (zip.finish w).mapError .zipWrite
  pure ⟨archive, sha256 archive, manifest⟩

/-! ### Reading -/

def readManifest (archive : List UInt8) : Except PackageError PackageMeta := do
  let a ← (zip.openArchive archive).mapError .zipRead
  let manifestFile ← (zip.byName a (text "manifest.json")).mapError .manifestMissing
  refuse (maxManifestSize < manifestFile.size) (.manifestParse
    (text "manifest.json is " ++ printNat manifestFile.size ++ text " bytes (max " ++
      printNat maxManifestSize ++ text ")"))
  let content ← manifestFile.readToString.mapError .manifestParse
  refuse (maxManifestSize < content.length) (.manifestParse
    (text "manifest.json decompressed to " ++ printNat content.length ++ text " bytes (max " ++
      printNat maxManifestSize ++ text ")"))
  let manifest ← (json.fromStr content).mapError .manifestParse
  manifest.files.forM fun entry => validateAssetPath entry.path
  pure manifest

structure ValidationMismatch where
  path : List UInt8
  expected : List UInt8
  actual : List UInt8
deriving DecidableEq, Repr

structure ValidationResult where
  filesChecked : ℕ
  mismatches : List ValidationMismatch
deriving DecidableEq, Repr

def ValidationResult.isValid (r : ValidationResult) : Bool := r.mismatches.isEmpty

/-- The loop over the files of the manifest. -/
def checkFiles (a : zip.ZipArchive) :
    List FileEntry → Except PackageError (List ValidationMismatch)
  | [] => pure []
  | entry :: entries => do
    let file ← (zip.byName a (assetName entry.path)).mapError (.fileMissing entry.path)
    let content ← file.readToEnd.mapError .zipRead
    let actual := toHex (sha256 content).toList
    let rest ← checkFiles a entries
    pure (if actual = entry.sha256 then rest else ⟨entry.path, entry.sha256, actual⟩ :: rest)

def validatePackage (archive : List UInt8) : Except PackageError ValidationResult := do
  let manifest ← readManifest json zip archive
  let a ← (zip.openArchive archive).mapError .zipRead
  let mismatches ← checkFiles sha256 zip a manifest.files
  pure ⟨manifest.files.length, mismatches⟩

end CncContent.Workshop.Package
