import CncContent.Lib.Bytes

/-! # Games and their content packages

The definitions of `lib.rs` and the lookups of `query.rs`. The tables of packages and downloads are parameters;
`present` says which files exist below the content root. -/

namespace CncContent.Content.Packages

open CncContent.Lib.Bytes

abbrev Text := List UInt8

inductive GameId
  | redAlert
  | tiberianDawn
  | dune2
  | dune2000
  | tiberianSun
  | redAlert2
  | generals
deriving DecidableEq, Repr

namespace GameId

def slug : GameId → Text
  | .redAlert => text "ra"
  | .tiberianDawn => text "td"
  | .dune2 => text "dune2"
  | .dune2000 => text "dune2000"
  | .tiberianSun => text "ts"
  | .redAlert2 => text "ra2"
  | .generals => text "generals"

def title : GameId → Text
  | .redAlert => text "Command & Conquer: Red Alert"
  | .tiberianDawn => text "Command & Conquer: Tiberian Dawn"
  | .dune2 => text "Dune II: The Building of a Dynasty"
  | .dune2000 => text "Dune 2000"
  | .tiberianSun => text "Command & Conquer: Tiberian Sun"
  | .redAlert2 => text "Command & Conquer: Red Alert 2"
  | .generals => text "Command & Conquer: Generals"

def isFreeware : GameId → Bool
  | .redAlert | .tiberianDawn | .tiberianSun => true
  | _ => false

end GameId

inductive PackageId
  | raBase | raAftermathBase | raCncDesert | raMusic | raMoviesAllied | raMoviesSoviet | raMusicCounterstrike
  | raMusicAftermath | tdBase | tdCovertOps | tdMusic | tdMoviesGdi | tdMoviesNod | dune2Base | dune2000Base
  | tsBase | tsFirestorm | tsMusic | tsMovies | ra2Base | ra2YurisRevenge | ra2Music | ra2Movies | genBase
  | genZeroHour
deriving DecidableEq, Repr

inductive DownloadId
  | raQuickInstall | raBaseFiles | raAftermath | raCncDesert | raMusic | raMoviesAllied | raMoviesSoviet
  | raMusicCounterstrike | raMusicAftermath | raFullDiscs | raFullSet | tdBaseFiles | tdMusic | tdMoviesGdi
  | tdMoviesNod | tdCovertOps | tdGdiIso | tdNodIso | tsBaseFiles | tsQuickInstall | tsExpand | tsGdiIso
  | tsNodIso | tsFirestormIso | tsMusic | tsMovies
deriving DecidableEq, Repr

structure ContentPackage where
  id : PackageId
  game : GameId
  required : Bool
  testFiles : List Text
  download : Option DownloadId
deriving DecidableEq, Repr

structure DownloadPackage where
  id : DownloadId
  game : GameId
  mirrorListUrl : Option Text
  directUrls : List Text
  sha1 : Option Text
  infoHash : Option Text
  provides : List PackageId
  sizeHint : ℕ
deriving DecidableEq, Repr

/-- The tables `ALL_PACKAGES` and `all_downloads`. -/
structure Tables where
  packages : List ContentPackage
  downloads : List DownloadPackage

namespace Tables

variable (tables : Tables)

def package (id : PackageId) : Option ContentPackage := tables.packages.find? fun p => p.id = id

def download (id : DownloadId) : Option DownloadPackage := tables.downloads.find? fun d => d.id = id

/-- All test files of the package exist. -/
def isInstalled (present : Text → Bool) (p : ContentPackage) : Bool := p.testFiles.all present

def missingPackages (present : Text → Bool) (game : GameId) : List ContentPackage :=
  tables.packages.filter fun p => p.game = game ∧ ¬ isInstalled present p

def missingRequiredPackages (present : Text → Bool) (game : GameId) : List ContentPackage :=
  tables.packages.filter fun p => p.game = game ∧ p.required ∧ ¬ isInstalled present p

def isContentComplete (present : Text → Bool) (game : GameId) : Bool :=
  (tables.missingRequiredPackages present game).isEmpty

end Tables

end CncContent.Content.Packages
