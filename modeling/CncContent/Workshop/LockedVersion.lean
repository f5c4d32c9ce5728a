import CncContent.Workshop.Resolution
import Mathlib.Data.Prod.Lex

/-! # Which version is locked

The entries of a package are in the order in which they were published, and the search starts at the
last one. So a dependency is locked to what was published last, which has the greatest version only if
no greater one was published before it (`locked_version`). -/

namespace CncContent.Workshop.LockedVersion

open CncContent.Lib.Bytes CncContent.Lib.Checks CncContent.Workshop.Resource
open CncContent.Workshop.Resolver CncContent.Workshop.LockCheck CncContent.Workshop.Resolution

variable (semver : Semver) [LinearOrder semver.Version] (registry : RegistryReader)
  (config : ResolveConfig)

/-- None of the eligible entries has a greater version than the entry. -/
def Unexceeded (spec : DependencySpec) (e : RegistryEntry) (entries : List RegistryEntry) : Prop :=
  ∃ ver, semver.parseVersion e.vers = .ok ver ∧ ∀ e' ∈ entries, Eligible semver spec e' →
    ∀ ver', semver.parseVersion e'.vers = .ok ver' → ver' ≤ ver

/-- The entry has the greatest version of the eligible ones. -/
def Greatest (spec : DependencySpec) (e : RegistryEntry) (entries : List RegistryEntry) : Prop :=
  e ∈ entries ∧ Eligible semver spec e ∧ Unexceeded semver spec e entries

/-- The package is the eligible entry that was published last. Its version is the greatest exactly if
none that was published before it is greater. -/
def LockedTo (spec : DependencySpec) (p : ResolvedPackage) : Prop :=
  ∃ older e newer, registry.versions spec.package = .ok (older ++ e :: newer) ∧ p = pin config e ∧
    Eligible semver spec e ∧ (∀ e' ∈ newer, ¬ Eligible semver spec e') ∧
    (Greatest semver spec e (older ++ e :: newer) ↔ Unexceeded semver spec e older)

omit [LinearOrder semver.Version] in
/-- There are versions of the package and the requirement parses, but no entry is eligible. -/
def NoMatch (spec : DependencySpec) (entries : List RegistryEntry) : Prop :=
  registry.versions spec.package = .ok entries ∧ entries ≠ [] ∧
    (∃ req, semver.parseVersionReq spec.versionReq = .ok req) ∧
    ∀ e ∈ entries, ¬ Eligible semver spec e

variable {semver registry config} {spec : DependencySpec}

theorem greatest_iff {e : RegistryEntry} {older newer : List RegistryEntry}
    (he : Eligible semver spec e) (hnewer : ∀ e' ∈ newer, ¬ Eligible semver spec e') :
    Greatest semver spec e (older ++ e :: newer) ↔ Unexceeded semver spec e older := by
  constructor
  · rintro ⟨-, -, ver, hver, hle⟩
    exact ⟨ver, hver, fun e' he' => hle e' (List.mem_append_left _ he')⟩
  · rintro ⟨ver, hver, hle⟩
    refine ⟨by simp, he, ver, hver, fun e' he' heligible ver' hver' => ?_⟩
    rcases List.mem_append.mp he' with hold | hrest
    · exact hle e' hold heligible ver' hver'
    · rcases List.mem_cons.mp hrest with rfl | hnew
      · rw [hver] at hver'
        cases hver'
        exact le_rfl
      · exact absurd heligible (hnewer e' hnew)

theorem lockedTo_of_newest {p : ResolvedPackage}
    (h : ∃ e, Newest semver registry spec e ∧ p = pin config e) :
    LockedTo semver registry config spec p := by
  obtain ⟨e, ⟨he, older, newer, hversions, hnewer⟩, hp⟩ := h
  exact ⟨older, e, newer, hversions, hp, he, hnewer, greatest_iff he hnewer⟩

/-! ### Failures -/

omit [LinearOrder semver.Version]

/-- **When a dependency matches no version.** -/
theorem resolveSpec_noMatch_iff {package requirement : List UInt8} {available : List (List UInt8)} :
    resolveSpec semver registry config spec =
        .error (.noMatchingVersion package requirement available) ↔
      ∃ entries, NoMatch semver registry spec entries ∧ package = spec.package.toText ∧
        requirement = spec.versionReq ∧ available = entries.map RegistryEntry.vers := by
  unfold resolveSpec
  simp only [bind_eq_error, mapError_eq_error, refuse_eq_error, okOr_eq_error, mapError_eq_ok,
    refuse_eq_ok, okOr_eq_ok]
  constructor
  · rintro (⟨_, -, h⟩ | ⟨entries, hentries, h⟩)
    · cases h
    rcases h with ⟨-, h⟩ | ⟨_, hne, h⟩
    · cases h
    rcases h with ⟨_, -, h⟩ | ⟨req, hreq, h⟩
    · cases h
    rcases h with ⟨hnone, h⟩ | ⟨_, -, h⟩
    · cases h
      exact ⟨entries, ⟨hentries, of_decide_eq_false hne, ⟨req, hreq⟩,
        (search_eq_none_iff hreq).mp hnone⟩, rfl, rfl, rfl⟩
    · cases h
  · rintro ⟨entries, ⟨hentries, hne, ⟨req, hreq⟩, hnone⟩, rfl, rfl, rfl⟩
    exact Or.inr ⟨entries, hentries, Or.inr ⟨(), decide_eq_false hne, Or.inr ⟨req, hreq,
      Or.inl ⟨(search_eq_none_iff hreq).mpr hnone, rfl⟩⟩⟩⟩

/-- The resolver fails at the first dependency that fails. -/
theorem resolveSpecs_eq_error_iff {err : ResolutionError} : ∀ {deps : List DependencySpec},
    resolveSpecs semver registry config deps = .error err ↔
      ∃ before w after, workshopDeps deps = before ++ w :: after ∧
        (∀ w' ∈ before, ∃ e, Newest semver registry w' e) ∧
        resolveSpec semver registry config w = .error err := by
  intro deps
  induction deps with
  | nil =>
    refine ⟨(fun h => by cases h), ?_⟩
    rintro ⟨before, w, after, h, -⟩
    exact absurd h.symm (List.append_ne_nil_of_right_ne_nil _ (List.cons_ne_nil _ _))
  | cons spec specs ih =>
    rw [resolveSpecs]
    unfold workshopDeps
    by_cases hsource : spec.source = .workshop
    · rw [if_pos hsource, List.filter_cons_of_pos (by simpa using hsource), bind_eq_error]
      constructor
      · rintro (h | ⟨p, hp, h⟩)
        · exact ⟨[], spec, _, rfl, List.forall_mem_nil _, h⟩
        · rcases bind_eq_error.mp h with h | ⟨_, -, h⟩
          · obtain ⟨before, w, after, hws, hbefore, hw⟩ := ih.mp h
            obtain ⟨e, he, -⟩ := resolveSpec_eq_ok_iff.mp hp
            refine ⟨spec :: before, w, after, congrArg (spec :: ·) hws, ?_, hw⟩
            exact List.forall_mem_cons.mpr ⟨⟨e, he⟩, hbefore⟩
          · cases h
      · rintro ⟨before, w, after, hws, hbefore, hw⟩
        rcases before with _ | ⟨b, before⟩
        · cases hws
          exact Or.inl hw
        · obtain ⟨rfl, hrest⟩ := List.cons.inj hws
          obtain ⟨⟨e, he⟩, hbefore⟩ := List.forall_mem_cons.mp hbefore
          refine Or.inr ⟨pin config e, resolveSpec_eq_ok_iff.mpr ⟨e, he, rfl⟩, ?_⟩
          exact bind_eq_error.mpr (Or.inl (ih.mpr ⟨before, w, after, hrest, hbefore, hw⟩))
    · rw [if_neg hsource, List.filter_cons_of_neg (by simpa using hsource)]
      exact ih

/-! ### What is locked -/

/-- **What a dependency is locked to**: the eligible entry that was published last, whose version is
the greatest exactly if none published before it is greater. The resolver reports that no version
matches exactly if the first dependency that has no eligible entry has entries and a requirement that
parses. -/
theorem locked_version (semver : Semver) [LinearOrder semver.Version] (registry : RegistryReader)
    (config : ResolveConfig) (deps : List DependencySpec) :
    (∀ lock, resolve semver registry config deps = .ok lock →
      List.Forall₂ (LockedTo semver registry config) (workshopDeps deps) lock.package) ∧
    ∀ package requirement available,
      resolve semver registry config deps =
          .error (.noMatchingVersion package requirement available) ↔
        ∃ before w after entries, workshopDeps deps = before ++ w :: after ∧
          (∀ w' ∈ before, ∃ e, Newest semver registry w' e) ∧ NoMatch semver registry w entries ∧
          package = w.package.toText ∧ requirement = w.versionReq ∧
          available = entries.map RegistryEntry.vers := by
  refine ⟨fun lock h => (resolve_ok h).imp fun _ _ hp => lockedTo_of_newest hp,
    fun package requirement available => ?_⟩
  unfold resolve
  rw [bind_eq_error, resolveSpecs_eq_error_iff]
  constructor
  · rintro (⟨before, w, after, hws, hbefore, hw⟩ | ⟨_, -, h⟩)
    · obtain ⟨entries, hno, hp, hr, ha⟩ := resolveSpec_noMatch_iff.mp hw
      exact ⟨before, w, after, entries, hws, hbefore, hno, hp, hr, ha⟩
    · cases h
  · rintro ⟨before, w, after, entries, hws, hbefore, hno, hp, hr, ha⟩
    exact Or.inl ⟨before, w, after, hws, hbefore,
      resolveSpec_noMatch_iff.mpr ⟨entries, hno, hp, hr, ha⟩⟩

/-! ### A patch release -/

/-- Major, minor and patch number, in this order. -/
instance : LinearOrder caretSemver.Version :=
  LinearOrder.lift' (fun v : UInt8 × UInt8 × UInt8 =>
      toLex (v.1.toNat, toLex (v.2.1.toNat, v.2.2.toNat))) fun v v' h => by
    obtain ⟨hmajor, h⟩ := Prod.ext_iff.mp (toLex.injective h)
    obtain ⟨hminor, hpatch⟩ := Prod.ext_iff.mp (toLex.injective h)
    exact Prod.ext (UInt8.toNat_inj.mp hmajor)
      (Prod.ext (UInt8.toNat_inj.mp hminor) (UInt8.toNat_inj.mp hpatch))

/-- A patch of an older release, published after a newer one. -/
def patched : List RegistryEntry := [musicEntry "1.3.0", musicEntry "1.2.5"]

def patchedRegistry : RegistryReader where
  versions id := .ok (if id = music then patched else [])

/-- **The patch is locked**, although the registry has a greater version that is eligible. -/
theorem patch_is_locked :
    resolve caretSemver patchedRegistry testConfig [musicDep "^1" .workshop] =
        .ok (testLock [pin testConfig (musicEntry "1.2.5")]) ∧
      ¬ ∃ e, (pin testConfig (musicEntry "1.2.5")).version = e.vers ∧
        Greatest caretSemver (musicDep "^1" .workshop) e patched := by
  refine ⟨by decide +kernel, ?_⟩
  rintro ⟨e, hvers, -, -, ver, hver, hle⟩
  have h := hle (musicEntry "1.3.0") (by decide +kernel) ⟨rfl, byte '1', _, rfl, rfl, rfl⟩ _ rfl
  rw [← hvers] at hver
  cases hver
  exact absurd h (by decide +kernel)

end CncContent.Workshop.LockedVersion
