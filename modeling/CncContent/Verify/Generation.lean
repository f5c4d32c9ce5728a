import CncContent.Content.Packages
import CncContent.Lib.Checks
import CncContent.Verify.Incremental

/-! # The manifest of what is installed

`generate_manifest` of the source, with the feature `fast-verify` and without it: the digests of the test files
that exist. A verification against it, at any later time, reports the files that are no longer as they were
(`verify_reports_changes`). -/

namespace CncContent.Verify.Generation

open CncContent.Lib.Bytes CncContent.Lib.Checks CncContent.Lib.Keyed
open CncContent.Content.Packages CncContent.Verify.Incremental

/-- What is below the content root: which paths exist, what their files read as, and the lengths that their
metadata give. -/
structure Snapshot where
  present : Text → Bool
  disk : Disk
  length : Text → Option ℕ

inductive ManifestError
  | noPackage (id : PackageId)
  | io
deriving DecidableEq, Repr

/-- The digest of a file and its length. -/
structure SizedDigest where
  digest : FileDigest
  size : ℕ
deriving DecidableEq

/-- A `BTreeMap` of files. -/
structure FileMap where
  entries : List (Text × SizedDigest)
  increasing : Increasing (fun f => keyOf f.1) entries

namespace FileMap

def empty : FileMap := ⟨[], List.Pairwise.nil⟩

def insert (files : FileMap) (path : Text) (d : SizedDigest) : FileMap :=
  ⟨upsert (fun f => keyOf f.1) (path, d) files.entries, files.increasing.upsert⟩

def paths (files : FileMap) : List Text := files.entries.map Prod.fst

end FileMap

structure ContentManifest where
  version : ℕ
  game : Text
  contentVersion : Text
  files : FileMap

/-- What a verification reads of the manifest. -/
def ContentManifest.installed (m : ContentManifest) : InstalledContentManifest where
  files := m.files.entries.map fun f => (f.1, f.2.digest)
  increasing := by
    unfold Increasing
    rw [List.pairwise_map]
    exact m.files.increasing

def contentManifestVersion : ℕ := 2

section Generation

variable (blake3 : List UInt8 → List UInt8) (snapshot : Snapshot) (tables : Tables)

/-- The test files of the packages that exist. -/
def collectPaths : List PackageId → Except ManifestError (List Text)
  | [] => .ok []
  | id :: ids => do
    let pkg ← okOr (tables.package id) (.noPackage id)
    let rest ← collectPaths ids
    .ok (pkg.testFiles.filter snapshot.present ++ rest)

/-- The digest of a file that can be read, and its length. -/
def digestFile (s : Blake3Scratch) (path : Text) : Blake3Scratch × Except ManifestError SizedDigest :=
  let (s, hex) := s.hashFile blake3 snapshot.disk path
  (s, do
    let hex ← okOr hex .io
    let size ← okOr (snapshot.length path) .io
    .ok ⟨⟨hex⟩, size⟩)

/-- The loop without the feature: one scratch for all files. -/
def generateManifestSequential : List Text → Blake3Scratch → FileMap → Except ManifestError FileMap
  | [], _, files => .ok files
  | path :: paths, s, files =>
    match digestFile blake3 snapshot s path with
    | (_, .error e) => .error e
    | (s, .ok d) => generateManifestSequential paths s (files.insert path d)

/-- The loop over the results. -/
def insertResults : List (Text × Except ManifestError SizedDigest) → FileMap → Except ManifestError FileMap
  | [], files => .ok files
  | (_, .error e) :: _, _ => .error e
  | (path, .ok d) :: results, files => insertResults results (files.insert path d)

/-- With the feature every file has a scratch of its own, and all are hashed before the first is inserted. -/
def generateManifestParallel (paths : List Text) : Except ManifestError FileMap :=
  insertResults (paths.map fun path => (path, (digestFile blake3 snapshot .new path).2)) .empty

def generateManifest (fastVerify : Bool) (game contentVersion : Text) (ids : List PackageId) :
    Except ManifestError ContentManifest := do
  let paths ← collectPaths snapshot tables ids
  let files ← if fastVerify then generateManifestParallel blake3 snapshot paths
    else generateManifestSequential blake3 snapshot paths .new .empty
  .ok ⟨contentManifestVersion, game, contentVersion, files⟩

end Generation

variable {blake3 : List UInt8 → List UInt8} {snapshot : Snapshot} {tables : Tables}

/-! ### Both loops -/

/-- What a file is entered with. -/
def recorded (blake3 : List UInt8 → List UInt8) (snapshot : Snapshot) (path : Text) :
    Except ManifestError SizedDigest := do
  let hex ← okOr (digestOf blake3 snapshot.disk path) .io
  let size ← okOr (snapshot.length path) .io
  .ok ⟨⟨hex⟩, size⟩

theorem digestFile_snd (s : Blake3Scratch) (path : Text) :
    (digestFile blake3 snapshot s path).2 = recorded blake3 snapshot path := by
  unfold digestFile recorded
  rw [← hashFile_snd s path]

/-- Every file is entered with what the loop has found. -/
def enterAll (blake3 : List UInt8 → List UInt8) (snapshot : Snapshot) (paths : List Text) (files : FileMap) :
    Except ManifestError FileMap :=
  insertResults (paths.map fun path => (path, recorded blake3 snapshot path)) files

theorem generateManifestSequential_eq : ∀ (paths : List Text) (s : Blake3Scratch) (files : FileMap),
    generateManifestSequential blake3 snapshot paths s files = enterAll blake3 snapshot paths files
  | [], _, _ => rfl
  | path :: paths, s, files => by
    have hpath := @digestFile_snd blake3 snapshot s path
    unfold generateManifestSequential enterAll
    rw [List.map_cons, ← hpath]
    rcases digestFile blake3 snapshot s path with ⟨s', e | d⟩
    · rfl
    · exact generateManifestSequential_eq paths s' _

theorem generateManifestParallel_eq (paths : List Text) :
    generateManifestParallel blake3 snapshot paths = enterAll blake3 snapshot paths .empty := by
  unfold generateManifestParallel enterAll
  simp only [digestFile_snd]

/-- **Both loops enter the same.** -/
theorem generateManifest_eq (fastVerify : Bool) (game contentVersion : Text) (ids : List PackageId) :
    generateManifest blake3 snapshot tables fastVerify game contentVersion ids = (do
      let paths ← collectPaths snapshot tables ids
      let files ← enterAll blake3 snapshot paths .empty
      .ok ⟨contentManifestVersion, game, contentVersion, files⟩) := by
  unfold generateManifest
  simp only [generateManifestSequential_eq, generateManifestParallel_eq, ite_self]

/-! ### What is entered -/

theorem mem_insert {files : FileMap} {path path' : Text} {d d' : SizedDigest} :
    (path', d') ∈ (files.insert path d).entries ↔
      (path', d') = (path, d) ∨ (path', d') ∈ files.entries ∧ path' ≠ path := by
  unfold FileMap.insert
  rw [mem_upsert files.increasing]
  refine or_congr_right (and_congr_right fun _ => not_congr ?_)
  exact keyOf_injective.eq_iff

/-- **The entries**: what has been found for each path, and what was there for the others. -/
theorem mem_enterAll : ∀ {paths : List Text} {files out : FileMap},
    enterAll blake3 snapshot paths files = .ok out → ∀ {path : Text} {d : SizedDigest},
      ((path, d) ∈ out.entries ↔
        (path ∈ paths ∧ recorded blake3 snapshot path = .ok d) ∨ ((path, d) ∈ files.entries ∧ path ∉ paths))
  | [], files, out, h, path, d => by
    cases h
    simp only [List.not_mem_nil, false_and, false_or, not_false_eq_true, and_true]
  | p :: paths, files, out, h, path, d => by
    unfold enterAll at h
    rw [List.map_cons] at h
    rcases hp : recorded blake3 snapshot p with e | dp
    · rw [hp] at h
      cases h
    · rw [hp] at h
      rw [@mem_enterAll paths _ _ h, mem_insert, List.mem_cons, Prod.mk.injEq]
      by_cases hpath : path = p
      · subst hpath
        rw [hp, Except.ok.injEq]
        tauto
      · simp only [hpath, false_and, false_or, ne_eq, not_false_eq_true, and_true]

/-- The test files of a package that exist. -/
def Covers (tables : Tables) (snapshot : Snapshot) (ids : List PackageId) (path : Text) : Prop :=
  ∃ id ∈ ids, ∃ pkg, tables.package id = some pkg ∧ path ∈ pkg.testFiles ∧ snapshot.present path = true

theorem mem_collectPaths : ∀ {ids : List PackageId} {paths : List Text},
    collectPaths snapshot tables ids = .ok paths → ∀ {path : Text},
      (path ∈ paths ↔ Covers tables snapshot ids path)
  | [], paths, h, path => by
    cases h
    exact ⟨nofun, fun ⟨_, hid, _⟩ => absurd hid List.not_mem_nil⟩
  | id :: ids, paths, h, path => by
    obtain ⟨pkg, hpkg, h⟩ := bind_eq_ok.mp h
    obtain ⟨rest, hrest, h⟩ := bind_eq_ok.mp h
    cases h
    have hpkg := okOr_eq_ok.mp hpkg
    rw [List.mem_append, List.mem_filter, mem_collectPaths hrest]
    constructor
    · rintro (⟨hmem, hpresent⟩ | ⟨id', hid', hcovers⟩)
      · exact ⟨id, List.mem_cons_self, pkg, hpkg, hmem, hpresent⟩
      · exact ⟨id', List.mem_cons_of_mem _ hid', hcovers⟩
    · rintro ⟨id', hid', pkg', hpkg', hmem, hpresent⟩
      rcases List.mem_cons.mp hid' with rfl | hid'
      · rw [hpkg, Option.some.injEq] at hpkg'
        subst hpkg'
        exact Or.inl ⟨hmem, hpresent⟩
      · exact Or.inr ⟨id', hid', pkg', hpkg', hmem, hpresent⟩

/-- **What a manifest lists**: the test files that exist, with their digests and lengths. -/
theorem mem_generateManifest {fastVerify : Bool} {game contentVersion : Text} {ids : List PackageId}
    {m : ContentManifest}
    (h : generateManifest blake3 snapshot tables fastVerify game contentVersion ids = .ok m) {path : Text}
    {d : SizedDigest} :
    (path, d) ∈ m.files.entries ↔ Covers tables snapshot ids path ∧ recorded blake3 snapshot path = .ok d := by
  rw [generateManifest_eq] at h
  obtain ⟨paths, hpaths, h⟩ := bind_eq_ok.mp h
  obtain ⟨files, hfiles, h⟩ := bind_eq_ok.mp h
  cases h
  rw [mem_enterAll hfiles, mem_collectPaths hpaths]
  exact or_iff_left fun h => List.not_mem_nil h.1

/-! ### What the manifest depends on -/

/-- Two snapshots with the same test files. -/
def AgreeOn (tables : Tables) (ids : List PackageId) (s s' : Snapshot) : Prop :=
  ∀ id ∈ ids, ∀ pkg, tables.package id = some pkg → ∀ f ∈ pkg.testFiles,
    s.present f = s'.present f ∧ s.disk f = s'.disk f ∧ s.length f = s'.length f

theorem collectPaths_congr {s s' : Snapshot} : ∀ {ids : List PackageId}, AgreeOn tables ids s s' →
    collectPaths s tables ids = collectPaths s' tables ids
  | [], _ => rfl
  | id :: ids, h => by
    unfold collectPaths
    rcases hid : tables.package id with _ | pkg
    · rfl
    · have hfilter : pkg.testFiles.filter s.present = pkg.testFiles.filter s'.present :=
        List.filter_congr fun f hf => (h id List.mem_cons_self pkg hid f hf).1
      rw [collectPaths_congr fun i hi => h i (List.mem_cons_of_mem _ hi)]
      change (collectPaths s' tables ids >>= fun rest => .ok (pkg.testFiles.filter s.present ++ rest)) = _
      rw [hfilter]
      rfl

theorem recorded_congr {s s' : Snapshot} {path : Text} (hdisk : s.disk path = s'.disk path)
    (hlength : s.length path = s'.length path) : recorded blake3 s path = recorded blake3 s' path := by
  unfold recorded digestOf
  rw [hdisk, hlength]

/-- **The manifest depends on the test files only.** -/
theorem generateManifest_congr {s s' : Snapshot} {fastVerify : Bool} {game contentVersion : Text}
    {ids : List PackageId} (h : AgreeOn tables ids s s') :
    generateManifest blake3 s tables fastVerify game contentVersion ids =
      generateManifest blake3 s' tables fastVerify game contentVersion ids := by
  rw [generateManifest_eq, generateManifest_eq, collectPaths_congr h]
  rcases hpaths : collectPaths s' tables ids with e | paths
  · rfl
  have henter : enterAll blake3 s paths .empty = enterAll blake3 s' paths .empty := by
    unfold enterAll
    refine congrArg (insertResults · FileMap.empty) (List.map_congr_left fun path hpath => ?_)
    obtain ⟨id, hid, pkg, hpkg, hf, -⟩ := (mem_collectPaths hpaths).mp hpath
    obtain ⟨-, hdisk, hlength⟩ := h id hid pkg hpkg path hf
    rw [recorded_congr hdisk hlength]
  change (enterAll blake3 s paths .empty >>= fun files => _) = _
  rw [henter]
  rfl

/-- A manifest is made only if every file that it has to list can be read. -/
theorem recorded_of_covers {fastVerify : Bool} {game contentVersion : Text} {ids : List PackageId}
    {m : ContentManifest}
    (h : generateManifest blake3 snapshot tables fastVerify game contentVersion ids = .ok m) {path : Text}
    (hpath : Covers tables snapshot ids path) : ∃ d, recorded blake3 snapshot path = .ok d := by
  rw [generateManifest_eq] at h
  obtain ⟨paths, hpaths, h⟩ := bind_eq_ok.mp h
  obtain ⟨files, hfiles, -⟩ := bind_eq_ok.mp h
  have hall : ∀ {paths : List Text} {files out : FileMap}, enterAll blake3 snapshot paths files = .ok out →
      ∀ path ∈ paths, ∃ d, recorded blake3 snapshot path = .ok d := by
    intro paths
    induction paths with
    | nil => exact fun _ _ hmem => absurd hmem List.not_mem_nil
    | cons p paths ih =>
      intro files out hout path hmem
      unfold enterAll at hout
      rw [List.map_cons] at hout
      rcases hp : recorded blake3 snapshot p with e | dp
      · rw [hp] at hout
        cases hout
      · rw [hp] at hout
        rcases List.mem_cons.mp hmem with rfl | hmem
        · exact ⟨dp, hp⟩
        · exact ih hout path hmem
  exact hall hfiles path ((mem_collectPaths hpaths).mpr hpath)

theorem recorded_eq_ok {path : Text} {d : SizedDigest} (h : recorded blake3 snapshot path = .ok d) :
    digestOf blake3 snapshot.disk path = some d.digest.blake3 ∧ snapshot.length path = some d.size := by
  obtain ⟨hex, hhex, h⟩ := bind_eq_ok.mp h
  obtain ⟨size, hsize, h⟩ := bind_eq_ok.mp h
  cases h
  exact ⟨okOr_eq_ok.mp hhex, okOr_eq_ok.mp hsize⟩

/-- **A verification reports what has changed.** Against a manifest, at any later time and with either feature, the
verification reports of the files that it lists those whose digest is no longer the same, or that cannot be read,
in the order of their paths; and it lists every test file that existed, once. -/
theorem verify_reports_changes {fastVerify : Bool} {game contentVersion : Text} {ids : List PackageId}
    {m : ContentManifest}
    (h : generateManifest blake3 snapshot tables fastVerify game contentVersion ids = .ok m) (later : Disk)
    (fastVerify' : Bool) :
    (∀ path, path ∈ m.files.paths ↔ Covers tables snapshot ids path) ∧ m.files.paths.Nodup ∧
      verifyInstalledContent blake3 later fastVerify' m.installed =
        m.files.paths.filter fun path => digestOf blake3 later path ≠ digestOf blake3 snapshot.disk path := by
  refine ⟨fun path => ?_, m.files.increasing.nodup_map fun _ => rfl, ?_⟩
  · constructor
    · intro hpath
      obtain ⟨⟨path, d⟩, hmem, rfl⟩ := List.mem_map.mp hpath
      exact ((mem_generateManifest h).mp hmem).1
    · intro hpath
      obtain ⟨d, hd⟩ := recorded_of_covers h hpath
      exact List.mem_map.mpr ⟨(path, d), (mem_generateManifest h).mpr ⟨hpath, hd⟩, rfl⟩
  · rw [verifyInstalledContent_eq]
    unfold ContentManifest.installed FileMap.paths
    rw [List.filter_map, List.filter_map, List.map_map]
    refine congrArg (List.map Prod.fst) (List.filter_congr fun f hf => ?_)
    obtain ⟨hdigest, -⟩ := recorded_eq_ok ((mem_generateManifest h).mp hf).2
    show fails blake3 later (f.1, f.2.digest) = _
    unfold fails
    rw [Function.comp_apply, hdigest]

end CncContent.Verify.Generation
