import CncContent.Workshop.Resolver

/-! # The check of a lock file

What `is_consistent_with` compares (`consistent_iff`), and when a passed check says that the lock file
represents the dependencies with compatible versions (`represents_iff`): a requirement or a version
that does not parse is not compared at all. -/

namespace CncContent.Workshop.LockCheck

open CncContent.Lib.Bytes CncContent.Workshop.Resource CncContent.Workshop.Resolver

variable (semver : Semver)

/-- Both parse, and they match. -/
def Compatible (requirement version : List UInt8) : Prop :=
  ∃ req ver, semver.parseVersionReq requirement = .ok req ∧
    semver.parseVersion version = .ok ver ∧ semver.reqMatches req ver = true

/-- Both parse, and they do not match. -/
def Mismatch (requirement version : List UInt8) : Prop :=
  ∃ req ver, semver.parseVersionReq requirement = .ok req ∧
    semver.parseVersion version = .ok ver ∧ semver.reqMatches req ver = false

/-- Every dependency is in the lock file with a compatible version, and nothing else is. -/
structure Represents (lock : LockFile) (deps : List DependencySpec) : Prop where
  locked : ∀ d ∈ deps, ∃ p ∈ lock.package, p.name = d.package.toText ∧
    Compatible semver d.versionReq p.version
  named : ∀ p ∈ lock.package, ∃ d ∈ deps, d.package.toText = p.name

/-- A difference that the check reports. -/
inductive Outdated (lock : LockFile) (deps : List DependencySpec) : Prop
  | added {d : DependencySpec} (hd : d ∈ deps)
      (hnone : ∀ p ∈ lock.package, p.name ≠ d.package.toText)
  | removed {p : ResolvedPackage} (hp : p ∈ lock.package)
      (hnone : ∀ d ∈ deps, d.package.toText ≠ p.name)
  | changed {d : DependencySpec} {p : ResolvedPackage} (hd : d ∈ deps)
      (hp : lock.lockedVersion d.package.toText = some p)
      (hmismatch : Mismatch semver d.versionReq p.version)

/-- The requirement parses, and so does the version that it is compared with; or another entry of
the package is compatible. -/
def Legible (lock : LockFile) (d : DependencySpec) : Prop :=
  (∃ req p ver, semver.parseVersionReq d.versionReq = .ok req ∧
      lock.lockedVersion d.package.toText = some p ∧ semver.parseVersion p.version = .ok ver) ∨
    ∃ p ∈ lock.package, p.name = d.package.toText ∧ Compatible semver d.versionReq p.version

/-! ### The check -/

variable {semver} {lock : LockFile} {deps : List DependencySpec} {d : DependencySpec}

theorem lockedVersion_eq_none_iff {name : List UInt8} :
    lock.lockedVersion name = none ↔ ∀ p ∈ lock.package, p.name ≠ name := by
  unfold LockFile.lockedVersion
  rw [List.find?_eq_none]
  exact forall₂_congr fun p _ => not_congr beq_iff_eq

theorem mem_of_lockedVersion {name : List UInt8} {p : ResolvedPackage}
    (h : lock.lockedVersion name = some p) : p ∈ lock.package ∧ p.name = name := by
  unfold LockFile.lockedVersion at h
  have hname := List.find?_some h
  exact ⟨List.mem_of_find?_eq_some h, eq_of_beq hname⟩

theorem isAdded_iff : lock.isAdded d = true ↔ ∀ p ∈ lock.package, p.name ≠ d.package.toText := by
  unfold LockFile.isAdded
  rw [Bool.not_eq_true', ← Bool.not_eq_true, List.contains_iff_mem, List.mem_map, not_exists]
  exact forall_congr' fun p => not_and

theorem isChanged_iff : lock.isChanged semver d = true ↔
    ∃ p, lock.lockedVersion d.package.toText = some p ∧ Mismatch semver d.versionReq p.version := by
  unfold LockFile.isChanged Mismatch
  rcases lock.lockedVersion d.package.toText with _ | p
  · exact ⟨nofun, nofun⟩
  simp only [Option.some.injEq, exists_eq_left']
  rcases hreq : semver.parseVersionReq d.versionReq with e | req
  · exact ⟨nofun, nofun⟩
  rcases hver : semver.parseVersion p.version with e | ver
  · exact ⟨nofun, nofun⟩
  constructor
  · intro h
    exact ⟨req, ver, rfl, rfl, by simpa using h⟩
  · rintro ⟨_, _, hr, hv, h⟩
    cases hr
    cases hv
    simpa using h

/-- **What the check says**: that there is no difference. -/
theorem consistent_iff :
    lock.isConsistentWith semver deps = .consistent ↔ ¬ Outdated semver lock deps := by
  have hsplit : lock.isConsistentWith semver deps = .consistent ↔
      (∀ d ∈ deps, ¬ lock.isAdded d = true) ∧
        (∀ p ∈ lock.package, ∃ d ∈ deps, d.package.toText = p.name) ∧
          ∀ d ∈ deps, ¬ lock.isChanged semver d = true := by
    unfold LockFile.isConsistentWith
    simp only [List.map_eq_nil_iff, List.filter_eq_nil_iff, List.forall_mem_map]
    split_ifs with h
    · simpa using h
    · simpa using h
  rw [hsplit]
  constructor
  · rintro ⟨hadded, hremoved, hchanged⟩ (⟨hd, hnone⟩ | ⟨hp, hnone⟩ | ⟨hd, hp, hmismatch⟩)
    · exact hadded _ hd (isAdded_iff.mpr hnone)
    · obtain ⟨d, hd, hname⟩ := hremoved _ hp
      exact hnone d hd hname
    · exact hchanged _ hd (isChanged_iff.mpr ⟨_, hp, hmismatch⟩)
  · intro h
    refine ⟨fun d hd hadded => h (.added hd (isAdded_iff.mp hadded)), fun p hp => ?_,
      fun d hd hchanged => ?_⟩
    · by_contra hnone
      push Not at hnone
      exact h (.removed hp hnone)
    · obtain ⟨p, hp, hmismatch⟩ := isChanged_iff.mp hchanged
      exact h (.changed hd hp hmismatch)

/-- What is in the lock file without a difference. -/
theorem exists_lockedVersion (h : ¬ Outdated semver lock deps) (hd : d ∈ deps) :
    ∃ p, lock.lockedVersion d.package.toText = some p ∧
      ¬ Mismatch semver d.versionReq p.version := by
  rcases hp : lock.lockedVersion d.package.toText with _ | p
  · exact absurd (.added hd (lockedVersion_eq_none_iff.mp hp)) h
  · exact ⟨p, rfl, fun hmismatch => h (.changed hd hp hmismatch)⟩

/-- Where the check reports nothing, a dependency is legible exactly if it is locked. -/
theorem legible_iff (h : ¬ Outdated semver lock deps) (hd : d ∈ deps) :
    Legible semver lock d ↔ ∃ p ∈ lock.package, p.name = d.package.toText ∧
      Compatible semver d.versionReq p.version := by
  refine ⟨?_, Or.inr⟩
  rintro (⟨req, p, ver, hreq, hp, hver⟩ | hlocked)
  · obtain ⟨hmem, hname⟩ := mem_of_lockedVersion hp
    refine ⟨p, hmem, hname, req, ver, hreq, hver, ?_⟩
    by_contra hmatch
    exact h (.changed hd hp ⟨req, ver, hreq, hver, Bool.eq_false_of_not_eq_true hmatch⟩)
  · exact hlocked

/-- **When a passed check can be relied on**: exactly if it reports a difference, or no dependency
escapes the comparison. -/
theorem represents_iff (semver : Semver) (lock : LockFile) (deps : List DependencySpec) :
    (lock.isConsistentWith semver deps = .consistent → Represents semver lock deps) ↔
      Outdated semver lock deps ∨ ∀ d ∈ deps, Legible semver lock d := by
  rw [consistent_iff]
  by_cases h : Outdated semver lock deps
  · exact iff_of_true (fun hnot => absurd h hnot) (Or.inl h)
  · constructor
    · intro hrep
      exact Or.inr fun d hd => (legible_iff h hd).mpr ((hrep h).locked d hd)
    · rintro (hout | hlegible) -
      · exact absurd hout h
      · refine ⟨fun d hd => (legible_iff h hd).mp (hlegible d hd), fun p hp => ?_⟩
        by_contra hnone
        push Not at hnone
        exact h (.removed hp hnone)

/-! ### One package -/

/-- Requirements such as `^1` and versions such as `1.2.0`, with single digits. -/
def caretSemver : Semver where
  VersionReq := UInt8
  Version := UInt8 × UInt8 × UInt8
  parseVersionReq
    | [caret, major] =>
      if caret = byte '^' ∧ within (byte '1') (byte '9') major then .ok major
      else .error (text "unexpected character")
    | _ => .error (text "unexpected character")
  parseVersion
    | [major, dot, minor, dot', patch] =>
      if dot = byte '.' ∧ dot' = byte '.' ∧ [major, minor, patch].all (within (byte '0') (byte '9'))
      then .ok (major, minor, patch)
      else .error (text "unexpected character")
    | _ => .error (text "unexpected character")
  reqMatches req ver := req == ver.1

def music : ResourceId := ⟨text "bob", text "music", by decide +kernel, by decide +kernel⟩

/-- A dependency on the package. -/
def musicDep (versionReq : String) (source : DependencySource) : DependencySpec :=
  ⟨music, text versionReq, source⟩

/-- An entry of the package. -/
def musicEntry (vers : String) : RegistryEntry where
  name := text "music"
  vers := text vers
  publisher := text "bob"
  deps := []
  cksum := text "sha256:abc"
  yanked := false

def testConfig : ResolveConfig where
  registryUrl := text "https://workshop.test"
  indexCommit := text "abc123"
  indexUrl := text "https://index.test"
  generatedAt := text "2026-04-11T00:00:00Z"

/-- The lock file with these packages. -/
def testLock (package : List ResolvedPackage) : LockFile where
  metadata := ⟨1, text "workshop-resolver 0.1.0-alpha.0", testConfig.generatedAt,
    testConfig.indexCommit, testConfig.indexUrl⟩
  package := package

/-- **A check passes unread**: a requirement that does not parse is compatible with every version. -/
theorem unparsed_requirement_passes :
    (testLock [pin testConfig (musicEntry "1.0.0")]).isConsistentWith caretSemver
        [musicDep "not-semver!!!" .workshop] = .consistent ∧
      ¬ Represents caretSemver (testLock [pin testConfig (musicEntry "1.0.0")])
        [musicDep "not-semver!!!" .workshop] := by
  refine ⟨by decide +kernel, fun h => ?_⟩
  obtain ⟨p, -, -, req, -, hreq, -⟩ := h.locked _ List.mem_cons_self
  have hfails : (caretSemver.parseVersionReq
      (musicDep "not-semver!!!" .workshop).versionReq).isOk = false := by decide +kernel
  rw [hreq] at hfails
  cases hfails

end CncContent.Workshop.LockCheck
