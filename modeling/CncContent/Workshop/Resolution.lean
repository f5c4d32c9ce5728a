import CncContent.Workshop.LockCheck
import Mathlib.Data.List.Forall2

/-! # What a lock file is resolved to

`resolve` pins the dependencies from the workshop, in their order, each to the newest entry that it
admits (`resolve_ok`). The lock file passes the check against the same list exactly if these entries
account for all dependencies (`resolved_consistent_iff`). -/

namespace CncContent.Workshop.Resolution

open CncContent.Lib.Bytes CncContent.Lib.Checks CncContent.Workshop.Resource
open CncContent.Workshop.Resolver CncContent.Workshop.LockCheck

variable (semver : Semver) (registry : RegistryReader)

/-- An entry that a dependency may be pinned to. -/
def Eligible (spec : DependencySpec) (e : RegistryEntry) : Prop :=
  e.yanked = false ∧ Compatible semver spec.versionReq e.vers

/-- The newest of the eligible entries in the registry. -/
def Newest (spec : DependencySpec) (e : RegistryEntry) : Prop :=
  Eligible semver spec e ∧ ∃ older newer,
    registry.versions spec.package = .ok (older ++ e :: newer) ∧
      ∀ e' ∈ newer, ¬ Eligible semver spec e'

/-- The dependencies that are resolved. -/
def workshopDeps (deps : List DependencySpec) : List DependencySpec :=
  deps.filter fun d => d.source = .workshop

/-- The first resolved dependency whose newest entry has the name, and that entry. -/
def FirstNamed (deps : List DependencySpec) (name : List UInt8) (e : RegistryEntry) : Prop :=
  ∃ before w after, workshopDeps deps = before ++ w :: after ∧ Newest semver registry w e ∧
    e.fullName = name ∧ ∀ w' ∈ before, ∀ e', Newest semver registry w' e' → e'.fullName ≠ name

/-- The newest entries account for the dependencies. -/
structure Accounts (deps : List DependencySpec) : Prop where
  named : ∀ w ∈ workshopDeps deps, ∀ e, Newest semver registry w e →
    ∃ d ∈ deps, d.package.toText = e.fullName
  held : ∀ d ∈ deps, ∃ e, FirstNamed semver registry deps d.package.toText e ∧
    ¬ Mismatch semver d.versionReq e.vers

variable {semver registry} {config : ResolveConfig} {deps : List DependencySpec} {lock : LockFile}

/-- The newest entry is determined. -/
theorem Newest.unique {spec : DependencySpec} {e e' : RegistryEntry}
    (h : Newest semver registry spec e) (h' : Newest semver registry spec e') : e = e' := by
  obtain ⟨he, older, newer, hv, hnewer⟩ := h
  obtain ⟨he', older', newer', hv', hnewer'⟩ := h'
  have heq : older ++ e :: newer = older' ++ e' :: newer' := by
    rw [hv] at hv'
    exact Except.ok.inj hv'
  rcases List.append_eq_append_iff.mp heq with ⟨l, -, hl⟩ | ⟨l, -, hl⟩
  · rcases List.cons_eq_append_iff.mp hl with ⟨-, hcons⟩ | ⟨l', -, hl'⟩
    · cases hcons
      rfl
    · exact absurd he' (hnewer e' (hl' ▸ by simp))
  · rcases List.cons_eq_append_iff.mp hl with ⟨-, hcons⟩ | ⟨l', -, hl'⟩
    · cases hcons
      rfl
    · exact absurd he (hnewer' e (hl' ▸ by simp))

theorem satisfies_iff {requirement : List UInt8} {req : semver.VersionReq} {e : RegistryEntry}
    (h : semver.parseVersionReq requirement = .ok req) :
    satisfies semver req e = true ↔ Compatible semver requirement e.vers := by
  unfold satisfies Compatible
  rcases hver : semver.parseVersion e.vers with _ | ver
  · exact ⟨nofun, fun ⟨_, _, _, hv, _⟩ => nomatch hv⟩
  constructor
  · exact fun hmatch => ⟨req, ver, h, rfl, hmatch⟩
  · rintro ⟨_, _, hr, hv, hmatch⟩
    rw [h] at hr
    cases hr
    cases hv
    exact hmatch

/-- An entry that the search admits. -/
theorem eligible_iff {spec : DependencySpec} {req : semver.VersionReq} {e : RegistryEntry}
    (h : semver.parseVersionReq spec.versionReq = .ok req) :
    e.yanked = false ∧ satisfies semver req e = true ↔ Eligible semver spec e := by
  rw [satisfies_iff h]
  rfl

/-- **What the search finds**: the last eligible entry. -/
theorem search_eq_some_iff {spec : DependencySpec} {req : semver.VersionReq}
    {entries : List RegistryEntry} {e : RegistryEntry}
    (h : semver.parseVersionReq spec.versionReq = .ok req) :
    (entries.reverse.filter fun e => !e.yanked).find? (satisfies semver req) = some e ↔
      Eligible semver spec e ∧ ∃ older newer, entries = older ++ e :: newer ∧
        ∀ e' ∈ newer, ¬ Eligible semver spec e' := by
  rw [List.find?_filter, List.find?_eq_some_iff_append]
  simp only [Bool.not_eq_true', decide_eq_true_iff, decide_eq_false_iff_not, eligible_iff h]
  refine and_congr_right fun _ => ?_
  constructor
  · rintro ⟨newer, older, hsplit, hnewer⟩
    refine ⟨older.reverse, newer.reverse, ?_, fun e' he' => hnewer e' (List.mem_reverse.mp he')⟩
    rw [← List.reverse_reverse entries, hsplit]
    simp
  · rintro ⟨older, newer, rfl, hnewer⟩
    exact ⟨newer.reverse, older.reverse, by simp, fun e' he' => hnewer e' (List.mem_reverse.mp he')⟩

theorem search_eq_none_iff {spec : DependencySpec} {req : semver.VersionReq}
    {entries : List RegistryEntry} (h : semver.parseVersionReq spec.versionReq = .ok req) :
    (entries.reverse.filter fun e => !e.yanked).find? (satisfies semver req) = none ↔
      ∀ e ∈ entries, ¬ Eligible semver spec e := by
  rw [List.find?_filter, List.find?_eq_none]
  simp only [Bool.not_eq_true', decide_eq_true_iff, eligible_iff h, List.mem_reverse]

/-- A dependency is pinned to its newest entry. -/
theorem resolveSpec_eq_ok_iff {spec : DependencySpec} {p : ResolvedPackage} :
    resolveSpec semver registry config spec = .ok p ↔
      ∃ e, Newest semver registry spec e ∧ p = pin config e := by
  unfold resolveSpec
  constructor
  · intro h
    obtain ⟨entries, hentries, h⟩ := bind_eq_ok.mp h
    obtain ⟨_, -, h⟩ := bind_eq_ok.mp h
    obtain ⟨req, hreq, h⟩ := bind_eq_ok.mp h
    obtain ⟨e, he, h⟩ := bind_eq_ok.mp h
    obtain ⟨heligible, older, newer, hsplit, hnewer⟩ :=
      (search_eq_some_iff (mapError_eq_ok.mp hreq)).mp (okOr_eq_ok.mp he)
    cases h
    exact ⟨e, ⟨heligible, older, newer, hsplit ▸ mapError_eq_ok.mp hentries, hnewer⟩, rfl⟩
  · rintro ⟨e, ⟨heligible, older, newer, hversions, hnewer⟩, rfl⟩
    obtain ⟨-, req, -, hreq, -⟩ := id heligible
    have hne : older ++ e :: newer ≠ [] := by simp
    refine bind_eq_ok.mpr ⟨_, mapError_eq_ok.mpr hversions, bind_eq_ok.mpr
      ⟨(), refuse_eq_ok.mpr (decide_eq_false hne), bind_eq_ok.mpr
        ⟨req, mapError_eq_ok.mpr hreq, bind_eq_ok.mpr ⟨e, okOr_eq_ok.mpr ?_, rfl⟩⟩⟩⟩
    exact (search_eq_some_iff hreq).mpr ⟨heligible, older, newer, rfl, hnewer⟩

theorem resolveSpecs_ok : ∀ {deps : List DependencySpec} {package : List ResolvedPackage},
    resolveSpecs semver registry config deps = .ok package →
      List.Forall₂ (fun w p => ∃ e, Newest semver registry w e ∧ p = pin config e)
        (workshopDeps deps) package := by
  intro deps
  induction deps with
  | nil =>
    intro package h
    cases h
    exact .nil
  | cons spec specs ih =>
    intro package h
    rw [resolveSpecs] at h
    unfold workshopDeps
    by_cases hsource : spec.source = .workshop
    · rw [if_pos hsource] at h
      obtain ⟨p, hp, h⟩ := bind_eq_ok.mp h
      obtain ⟨rest, hrest, h⟩ := bind_eq_ok.mp h
      cases h
      rw [List.filter_cons_of_pos (by simpa using hsource)]
      exact .cons (resolveSpec_eq_ok_iff.mp hp) (ih hrest)
    · rw [if_neg hsource] at h
      rw [List.filter_cons_of_neg (by simpa using hsource)]
      exact ih h

/-- **What a lock file is resolved to**: the dependencies from the workshop, in their order, each
pinned to its newest entry. -/
theorem resolve_ok (h : resolve semver registry config deps = .ok lock) :
    List.Forall₂ (fun w p => ∃ e, Newest semver registry w e ∧ p = pin config e)
      (workshopDeps deps) lock.package := by
  unfold resolve at h
  obtain ⟨package, hpackage, h⟩ := bind_eq_ok.mp h
  cases h
  exact resolveSpecs_ok hpackage

/-- The locked package of a name is the newest entry of the first dependency that has it. -/
theorem lockedVersion_iff {ws : List DependencySpec} {package : List ResolvedPackage}
    (h : List.Forall₂ (fun w p => ∃ e, Newest semver registry w e ∧ p = pin config e) ws package)
    {name : List UInt8} {p : ResolvedPackage} :
    package.find? (fun p => p.name == name) = some p ↔
      ∃ before w after e, ws = before ++ w :: after ∧ Newest semver registry w e ∧
        e.fullName = name ∧ p = pin config e ∧
          ∀ w' ∈ before, ∀ e', Newest semver registry w' e' → e'.fullName ≠ name := by
  induction h with
  | nil =>
    refine ⟨nofun, ?_⟩
    rintro ⟨before, w, after, e, hws, -⟩
    exact absurd hws.symm (List.append_ne_nil_of_right_ne_nil _ (List.cons_ne_nil _ _))
  | @cons w₀ p₀ ws package hw _ ih =>
    obtain ⟨e₀, hnewest, rfl⟩ := hw
    by_cases hname : e₀.fullName = name
    · rw [List.find?_cons_of_pos (by simpa [pin] using hname)]
      constructor
      · intro hp
        exact ⟨[], w₀, ws, e₀, rfl, hnewest, hname, (Option.some.inj hp).symm, nofun⟩
      · rintro ⟨before, w, after, e, hws, hw, -, rfl, hbefore⟩
        rcases before with _ | ⟨b, before⟩
        · cases hws
          rw [hw.unique hnewest]
        · cases hws
          exact absurd hname (hbefore _ List.mem_cons_self e₀ hnewest)
    · rw [List.find?_cons_of_neg (by simpa [pin] using hname), ih]
      constructor
      · rintro ⟨before, w, after, e, rfl, hw, hen, rfl, hbefore⟩
        refine ⟨w₀ :: before, w, after, e, rfl, hw, hen, rfl, fun w' hw' e' he' => ?_⟩
        rcases List.mem_cons.mp hw' with rfl | hw'
        · rwa [he'.unique hnewest]
        · exact hbefore w' hw' e' he'
      · rintro ⟨before, w, after, e, hws, hw, hen, rfl, hbefore⟩
        rcases before with _ | ⟨b, before⟩
        · cases hws
          exact absurd (hw.unique hnewest ▸ hen) hname
        · cases hws
          exact ⟨before, w, after, e, rfl, hw, hen, rfl,
            fun w' hw' => hbefore w' (List.mem_cons_of_mem _ hw')⟩

theorem exists_of_mem_left {α β : Type} {R : α → β → Prop} {l : List α} {l' : List β}
    (h : List.Forall₂ R l l') {a : α} (ha : a ∈ l) : ∃ b ∈ l', R a b := by
  induction h with
  | nil => cases ha
  | cons hab _ ih =>
    rcases List.mem_cons.mp ha with rfl | ha
    · exact ⟨_, List.mem_cons_self, hab⟩
    · obtain ⟨b, hb, hr⟩ := ih ha
      exact ⟨b, List.mem_cons_of_mem _ hb, hr⟩

/-- Every answer of the registry is about the package it was asked for. -/
def Answers (registry : RegistryReader) : Prop :=
  ∀ id entries, registry.versions id = .ok entries → ∀ e ∈ entries, e.fullName = id.toText

theorem Newest.fullName {spec : DependencySpec} {e : RegistryEntry} (hans : Answers registry)
    (h : Newest semver registry spec e) : e.fullName = spec.package.toText := by
  obtain ⟨-, older, newer, hv, -⟩ := h
  exact hans spec.package _ hv e (by simp)

/-- With such a registry: every dependency has to come from the workshop itself, or share its package
with one that does, and the newest entry of the first of these must not miss the requirement. -/
theorem accounts_iff (hans : Answers registry)
    (hall : ∀ w ∈ workshopDeps deps, ∃ e, Newest semver registry w e) :
    Accounts semver registry deps ↔ ∀ d ∈ deps, ∃ before w after e,
      workshopDeps deps = before ++ w :: after ∧ w.package = d.package ∧
        (∀ w' ∈ before, w'.package ≠ d.package) ∧ Newest semver registry w e ∧
          ¬ Mismatch semver d.versionReq e.vers := by
  constructor
  · rintro ⟨-, hheld⟩ d hd
    obtain ⟨e, ⟨before, w, after, hws, hw, hname, hbefore⟩, hno⟩ := hheld d hd
    refine ⟨before, w, after, e, hws, ?_, fun w' hw' heq => ?_, hw, hno⟩
    · exact toText_injective ((hw.fullName hans).symm.trans hname)
    · obtain ⟨e', he'⟩ := hall w' (hws ▸ List.mem_append_left _ hw')
      exact hbefore w' hw' e' he' (heq ▸ he'.fullName hans)
  · intro h
    refine ⟨fun w hw e he => ?_, fun d hd => ?_⟩
    · exact ⟨w, List.mem_of_mem_filter hw, (he.fullName hans).symm⟩
    · obtain ⟨before, w, after, e, hws, hpackage, hbefore, hw, hno⟩ := h d hd
      refine ⟨e, ⟨before, w, after, hws, hw, ?_, fun w' hw' e' he' hname => ?_⟩, hno⟩
      · rw [hw.fullName hans, hpackage]
      · exact hbefore w' hw' (toText_injective ((he'.fullName hans).symm.trans hname))

/-- **When a resolved lock file passes the check** against the list it was resolved from. -/
theorem resolved_consistent_iff (semver : Semver) (registry : RegistryReader)
    (config : ResolveConfig) (deps : List DependencySpec) (lock : LockFile)
    (h : resolve semver registry config deps = .ok lock) :
    lock.isConsistentWith semver deps = .consistent ↔ Accounts semver registry deps := by
  have hpinned := resolve_ok h
  rw [consistent_iff]
  constructor
  · intro hnot
    refine ⟨fun w hw e he => ?_, fun d hd => ?_⟩
    · obtain ⟨p, hp, e', he', rfl⟩ := exists_of_mem_left hpinned hw
      rw [he.unique he']
      by_contra hnone
      push Not at hnone
      exact hnot (.removed hp hnone)
    · obtain ⟨p, hp, hmismatch⟩ := exists_lockedVersion hnot hd
      obtain ⟨before, w, after, e, hws, hw, hname, rfl, hbefore⟩ := (lockedVersion_iff hpinned).mp hp
      exact ⟨e, ⟨before, w, after, hws, hw, hname, hbefore⟩, hmismatch⟩
  · rintro ⟨hnamed, hheld⟩ (⟨hd, hnone⟩ | ⟨hp, hnone⟩ | ⟨hd, hp, hmismatch⟩)
    · obtain ⟨e, ⟨before, w, after, hws, hw, hname, hbefore⟩, -⟩ := hheld _ hd
      have hp := (lockedVersion_iff hpinned).mpr
        ⟨before, w, after, e, hws, hw, hname, rfl, hbefore⟩
      obtain ⟨hmem, hpname⟩ := mem_of_lockedVersion hp
      exact hnone _ hmem hpname
    · obtain ⟨w, hw, e, he, rfl⟩ := exists_of_mem_left hpinned.flip hp
      obtain ⟨d, hd, hname⟩ := hnamed w hw e he
      exact hnone d hd hname
    · obtain ⟨e, ⟨before, w, after, hws, hw, hname, hbefore⟩, hno⟩ := hheld _ hd
      have hp' := (lockedVersion_iff hpinned).mpr
        ⟨before, w, after, e, hws, hw, hname, rfl, hbefore⟩
      unfold LockFile.lockedVersion at hp
      rw [hp'] at hp
      cases hp
      exact hno hmismatch

/-! ### One package -/

/-- Two releases of the package, and nothing else. -/
def musicRegistry : RegistryReader where
  versions id := .ok (if id = music then [musicEntry "1.0.0", musicEntry "1.2.0"] else [])

theorem resolved_consistent_iff_music :
    (testLock [pin testConfig (musicEntry "1.2.0")]).isConsistentWith caretSemver
        [musicDep "^1" .workshop] = .consistent ∧
      Accounts caretSemver musicRegistry [musicDep "^1" .workshop] := by
  have hconsistent : (testLock [pin testConfig (musicEntry "1.2.0")]).isConsistentWith caretSemver
      [musicDep "^1" .workshop] = .consistent := by decide +kernel
  exact ⟨hconsistent, (resolved_consistent_iff caretSemver musicRegistry testConfig
    [musicDep "^1" .workshop] (testLock [pin testConfig (musicEntry "1.2.0")])
    (by decide +kernel)).mp hconsistent⟩

/-- **A resolved lock file fails the check**: a dependency on a local path is not resolved, and is
then reported as added. -/
theorem local_dependency_fails :
    resolve caretSemver musicRegistry testConfig [musicDep "^1" .path] = .ok (testLock []) ∧
      (testLock []).isConsistentWith caretSemver [musicDep "^1" .path] =
        .inconsistent [text "bob/music"] [] [] := by
  decide +kernel

end CncContent.Workshop.Resolution
