import CncContent.Workshop.Resource

/-! # The dependency resolver

`resolve` of the source pins each dependency to an entry of a registry, and `is_consistent_with`
compares a lock file with a list of dependencies. Parsing and matching of versions are a parameter
(`Semver`), and so is the registry. Errors from outside are their texts. -/

namespace CncContent.Workshop.Resolver

open CncContent.Lib.Bytes CncContent.Lib.Checks CncContent.Workshop.Resource

/-- The functions of `semver` that are used. -/
structure Semver where
  VersionReq : Type
  Version : Type
  parseVersionReq : List UInt8 → Except (List UInt8) VersionReq
  parseVersion : List UInt8 → Except (List UInt8) Version
  reqMatches : VersionReq → Version → Bool

/-- Where a dependency is fetched from. -/
inductive DependencySource
  | workshop
  | path
  | git
  | url
deriving DecidableEq, Repr

structure DependencySpec where
  package : ResourceId
  versionReq : List UInt8
  source : DependencySource
deriving DecidableEq

structure RegistryDep where
  name : List UInt8
  publisher : List UInt8
  req : List UInt8
  optional : Bool
deriving DecidableEq, Repr

structure RegistryEntry where
  name : List UInt8
  vers : List UInt8
  publisher : List UInt8
  deps : List RegistryDep
  cksum : List UInt8
  yanked : Bool
deriving DecidableEq, Repr

/-- `format!("{publisher}/{name}")`. -/
def slashed (publisher name : List UInt8) : List UInt8 := publisher ++ byte '/' :: name

def RegistryEntry.fullName (e : RegistryEntry) : List UInt8 := slashed e.publisher e.name

/-- `RegistryReader`: all versions of a package, the oldest first. -/
structure RegistryReader where
  versions : ResourceId → Except (List UInt8) (List RegistryEntry)

structure LockMetadata where
  icLockVersion : ℕ
  generatedBy : List UInt8
  generatedAt : List UInt8
  indexCommit : List UInt8
  indexUrl : List UInt8
deriving DecidableEq, Repr

structure ResolvedPackage where
  name : List UInt8
  version : List UInt8
  source : List UInt8
  checksum : List UInt8
  dependencies : List (List UInt8)
deriving DecidableEq, Repr

structure LockFile where
  metadata : LockMetadata
  package : List ResolvedPackage
deriving DecidableEq, Repr

structure ResolveConfig where
  registryUrl : List UInt8
  indexCommit : List UInt8
  indexUrl : List UInt8
  generatedAt : List UInt8

inductive ResolutionError
  | packageNotFound (package : List UInt8)
  | noMatchingVersion (package requirement : List UInt8) (available : List (List UInt8))
  | invalidVersionReq (requirement reason : List UInt8)
  | registryError (message : List UInt8)
deriving DecidableEq, Repr

inductive ConsistencyCheck
  | consistent
  | inconsistent (added removed : List (List UInt8)) (changed : List (List UInt8 × List UInt8))
deriving DecidableEq, Repr

variable (semver : Semver)

/-! ### The consistency check -/

namespace LockFile

variable (lock : LockFile)

def lockedVersion (name : List UInt8) : Option ResolvedPackage :=
  lock.package.find? fun p => p.name == name

/-- The dependency is not in the lock file. -/
def isAdded (dep : DependencySpec) : Bool :=
  !(lock.package.map ResolvedPackage.name).contains dep.package.toText

/-- The locked version no longer satisfies the requirement. What does not parse is not compared. -/
def isChanged (dep : DependencySpec) : Bool :=
  match lock.lockedVersion dep.package.toText with
  | none => false
  | some locked =>
    match semver.parseVersionReq dep.versionReq, semver.parseVersion locked.version with
    | .ok req, .ok ver => !semver.reqMatches req ver
    | _, _ => false

def isConsistentWith (manifestDeps : List DependencySpec) : ConsistencyCheck :=
  let manifestNames := manifestDeps.map fun d => d.package.toText
  let added := (manifestDeps.filter lock.isAdded).map fun d => d.package.toText
  let changed := (manifestDeps.filter (lock.isChanged semver)).map fun d =>
    (d.package.toText, d.versionReq)
  let removed := (lock.package.map ResolvedPackage.name).filter fun n => !manifestNames.contains n
  if added = [] ∧ removed = [] ∧ changed = [] then .consistent
  else .inconsistent added removed changed

end LockFile

/-! ### The resolver -/

variable (registry : RegistryReader) (config : ResolveConfig)

/-- The version parses and matches. -/
def satisfies (req : semver.VersionReq) (e : RegistryEntry) : Bool :=
  match semver.parseVersion e.vers with
  | .ok ver => semver.reqMatches req ver
  | .error _ => false

/-- The package that is pushed for an entry. -/
def pin (entry : RegistryEntry) : ResolvedPackage where
  name := entry.fullName
  version := entry.vers
  source := text "workshop+" ++ config.registryUrl
  checksum := entry.cksum
  dependencies := entry.deps.map fun d => slashed d.publisher d.name

/-- One dependency from the workshop. -/
def resolveSpec (spec : DependencySpec) : Except ResolutionError ResolvedPackage := do
  let entries ← (registry.versions spec.package).mapError .registryError
  refuse (entries = []) (.packageNotFound spec.package.toText)
  let req ← (semver.parseVersionReq spec.versionReq).mapError (.invalidVersionReq spec.versionReq)
  let entry ← okOr ((entries.reverse.filter fun e => !e.yanked).find? (satisfies semver req))
    (.noMatchingVersion spec.package.toText spec.versionReq (entries.map RegistryEntry.vers))
  pure (pin config entry)

/-- The loop over the dependencies, which skips those from elsewhere. -/
def resolveSpecs : List DependencySpec → Except ResolutionError (List ResolvedPackage)
  | [] => pure []
  | spec :: specs =>
    if spec.source = .workshop then do
      let resolved ← resolveSpec semver registry config spec
      let rest ← resolveSpecs specs
      pure (resolved :: rest)
    else resolveSpecs specs

def resolve (deps : List DependencySpec) : Except ResolutionError LockFile := do
  let package ← resolveSpecs semver registry config deps
  pure ⟨⟨1, text "workshop-resolver 0.1.0-alpha.0", config.generatedAt, config.indexCommit,
    config.indexUrl⟩, package⟩

end CncContent.Workshop.Resolver
