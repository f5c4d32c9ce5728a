import CncContent.Content.Installation

/-! # Sessions

`ContentSession` of the source, and `download_missing`: which packages are missing, the downloads that bring
them, and the verification against the manifest. Without the feature `torrent`, `download_and_install` is
`download_package`.

A session changes a path only as the archive of a download that it asks for does, which has the hash in the
tables if there is one (`leaves_ensurePackages`). If the archives hold the files by which a package is recognised,
then `ensure_required` makes the content complete, and a second call does nothing (`ensureRequired_completes`). -/

namespace CncContent.Content.Session

open CncContent.Lib.Attempts CncContent.Lib.Bytes CncContent.Lib.Checks
open CncContent.Lib.FileScripts CncContent.Lib.FileTree
open CncContent.Content.Packages CncContent.Content.Download CncContent.Content.Integrity
open CncContent.Content.Installation CncContent.Verify.Generation
open CncContent.Install.Executor (Path FileNode)

/-- The errors of `io::Error::other` carry the id that has no definition. -/
inductive SessionError
  | download (source : DownloadError)
  | noPackage (id : PackageId)
  | noDownload (id : DownloadId)
  | notFreeware (game : Text)
deriving DecidableEq, Repr

abbrev Ensuring (α : Type) := Attempt DownloadWorld SessionError α

section Session

variable (network : Network) (crates : Crates) (setting : Setting) (faults : Faults)

/-- The test files that exist. -/
def present (t : Tree Text UInt8) : Text → Bool := (snapshotOf setting.place t).present

def downloadAndInstall (package : DownloadPackage) : Fetching Unit :=
  downloadPackage network crates setting faults package

/-- The loop over the packages. -/
def ensureEach : List PackageId → Ensuring Unit
  | [] => pure ()
  | id :: ids => do
    let pkg ← orReturn (okOr (setting.tables.package id) (.noPackage id))
    let installed ← gets fun w => Tables.isInstalled (present setting w.tree) pkg
    if installed then ensureEach ids
    else
      match pkg.download with
      | none => ensureEach ids
      | some dl => do
        let package ← orReturn (okOr (setting.tables.download dl) (.noDownload dl))
        mapFailure .download (downloadAndInstall network crates setting faults package)
        ensureEach ids

def ensurePackages (game : GameId) (packages : List PackageId) : Ensuring Unit :=
  if game.isFreeware then ensureEach network crates setting faults packages
  else fail (.notFreeware game.title)

def ensureRequired (game : GameId) : Ensuring Unit := do
  let missing ← gets fun w =>
    (setting.tables.missingRequiredPackages (present setting w.tree) game).map ContentPackage.id
  ensurePackages network crates setting faults game missing

def ensureAll (game : GameId) : Ensuring Unit := do
  let missing ← gets fun w =>
    (setting.tables.missingPackages (present setting w.tree) game).map ContentPackage.id
  ensurePackages network crates setting faults game missing

/-- The downloads of `download_missing`, one after the other. -/
def missingDownloads : GameId → List DownloadId
  | .redAlert => [.raQuickInstall]
  | .tiberianDawn => [.tdBaseFiles]
  | .tiberianSun => [.tsGdiIso, .tsFirestormIso]
  | _ => []

def downloadEach : List DownloadId → Fetching Unit
  | [] => pure ()
  | dl :: dls => do
    let package ← orReturn (okOr (setting.tables.download dl) (.noDefinition dl))
    downloadAndInstall network crates setting faults package
    downloadEach dls

def downloadMissing (game : GameId) : Fetching Unit :=
  if game.isFreeware then do
    let complete ← gets fun w => setting.tables.isContentComplete (present setting w.tree) game
    if complete then pure () else downloadEach network crates setting faults (missingDownloads game)
  else fail (.notFreeware game.title)

/-- Without a manifest that can be read there is nothing to verify. -/
def verify (t : Tree Text UInt8) : List Text :=
  match node t manifestPath with
  | some (.file toml) =>
    match crates.fromToml toml with
    | some manifest =>
      Verify.Incremental.verifyInstalledContent crates.blake3 (snapshotOf setting.place t).disk setting.fastVerify
        manifest.installed
    | none => []
  | _ => []

end Session

variable {network : Network} {crates : Crates} {setting : Setting} {faults : Faults}

/-! ### What a session changes -/

/-- The downloads of the packages. -/
def requested (tables : Tables) (ids : List PackageId) : List DownloadId :=
  ids.filterMap fun id => (tables.package id).bind ContentPackage.download

/-- What an archive of one of the downloads leaves: with the hash that the download has in the tables, if it has
one. -/
def FromDownloads (crates : Crates) (tables : Tables) (dls : List DownloadId) (p : Path) (n : FileNode) : Prop :=
  ∃ dl ∈ dls, ∃ package, tables.download dl = some package ∧ FromPackage crates package p n

theorem FromDownloads.mono {tables : Tables} {dls dls' : List DownloadId} (h : ∀ dl ∈ dls, dl ∈ dls') {p : Path}
    {n : FileNode} : FromDownloads crates tables dls p n → FromDownloads crates tables dls' p n := by
  rintro ⟨dl, hdl, package, hpackage, hn⟩
  exact ⟨dl, h dl hdl, package, hpackage, hn⟩

theorem leaves_downloadAndInstall {dl : DownloadId} {dls : List DownloadId} {package : DownloadPackage}
    (hdl : dl ∈ dls) (h : setting.tables.download dl = some package) :
    Leaves (Within workFiles (FromDownloads crates setting.tables dls))
      (downloadAndInstall network crates setting faults package) := fun w =>
  (leaves_downloadPackage w).mono (le_refl _) fun _ _ hn => ⟨dl, hdl, package, h, hn⟩

theorem leaves_ensureEach : ∀ ids : List PackageId,
    Leaves (Within workFiles (FromDownloads crates setting.tables (requested setting.tables ids)))
      (ensureEach network crates setting faults ids)
  | [] => Leaves.pure Within.refl ()
  | id :: ids => by
    have hrest : Leaves
        (Within workFiles (FromDownloads crates setting.tables (requested setting.tables (id :: ids))))
        (ensureEach network crates setting faults ids) := fun w =>
      (leaves_ensureEach ids w).mono (le_refl _) fun _ _ => FromDownloads.mono fun _ hdl => by
        rw [requested, List.mem_filterMap] at hdl ⊢
        exact hdl.imp fun _ h => ⟨List.mem_cons_of_mem id h.1, h.2⟩
    unfold ensureEach
    refine leaves_orReturn_bind Within.refl fun pkg hpkg => ?_
    refine (Leaves.gets Within.refl _).bind Within.trans fun installed => ?_
    split_ifs
    · exact hrest
    · rcases hdl : pkg.download with _ | dl
      · exact hrest
      · have hmem : dl ∈ requested setting.tables (id :: ids) :=
          List.mem_filterMap.mpr ⟨id, List.mem_cons_self, by rw [okOr_eq_ok.mp hpkg]; exact hdl⟩
        refine leaves_orReturn_bind Within.refl fun package hpackage => ?_
        refine Leaves.bind Within.trans (Leaves.mapFailure ?_ _) fun _ => hrest
        exact leaves_downloadAndInstall hmem (okOr_eq_ok.mp hpackage)

theorem leaves_ensurePackages (game : GameId) (packages : List PackageId) :
    Leaves (Within workFiles (FromDownloads crates setting.tables (requested setting.tables packages)))
      (ensurePackages network crates setting faults game packages) := by
  unfold ensurePackages
  split_ifs
  · exact leaves_ensureEach packages
  · exact Leaves.fail Within.refl _

theorem leaves_downloadEach : ∀ dls : List DownloadId,
    Leaves (Within workFiles (FromDownloads crates setting.tables dls))
      (downloadEach network crates setting faults dls)
  | [] => Leaves.pure Within.refl ()
  | dl :: dls => by
    unfold downloadEach
    refine leaves_orReturn_bind Within.refl fun package hpackage => ?_
    refine (leaves_downloadAndInstall List.mem_cons_self (okOr_eq_ok.mp hpackage)).bind Within.trans fun _ w => ?_
    exact (leaves_downloadEach dls w).mono (le_refl _) fun _ _ =>
        FromDownloads.mono fun _ => List.mem_cons_of_mem dl

/-- `download_missing` changes no more. -/
theorem leaves_downloadMissing (game : GameId) :
    Leaves (Within workFiles (FromDownloads crates setting.tables (missingDownloads game)))
      (downloadMissing network crates setting faults game) := by
  unfold downloadMissing
  split_ifs
  · refine (Leaves.gets Within.refl _).bind Within.trans fun complete => ?_
    split_ifs
    · exact Leaves.pure Within.refl ()
    · exact leaves_downloadEach _
  · exact Leaves.fail Within.refl _

/-- **A session changes only what the tables vouch for.** Whatever the network delivers and whichever calls fail,
apart from the work files a path is as before, or it is what an archive of a download of one of the packages leaves
there: a file of an entry, as far as it has been written, or a directory above one. If the tables have a hash of the
download, it is the hash of the archive; if they have none, any archive may have come. -/
theorem session_integrity (network : Network) (crates : Crates) (setting : Setting) (faults : Faults) (game : GameId)
    (packages : List PackageId) (w : DownloadWorld) (p : Path) :
    let w' := (ensurePackages network crates setting faults game packages w).2
    w'.tree p = w.tree p ∨ p ∈ workFiles ∨ ∃ dl ∈ requested setting.tables packages, ∃ package,
      setting.tables.download dl = some package ∧ ∃ z,
        (∀ hash ∈ package.sha1, toHex (crates.sha1 z) = hash) ∧ FromArchive crates z p (w'.tree p) :=
  leaves_ensurePackages game packages w p

/-! ### What is there afterwards -/

theorem FromDownloads.ne_none {tables : Tables} {dls : List DownloadId} {p : Path} {n : FileNode}
    (h : FromDownloads crates tables dls p n) : n ≠ none := by
  obtain ⟨_, -, _, -, _, -, _, -, _, _, -, -, ⟨-, _, rfl⟩ | ⟨-, rfl⟩⟩ := h <;> exact nofun

theorem node_isSome_of_within {w w' : DownloadWorld} {p : Path} {dls : List DownloadId}
    (h : Within workFiles (FromDownloads crates setting.tables dls) w w') (hp : p ∉ workFiles)
    (hnode : (node w.tree p).isSome = true) : (node w'.tree p).isSome = true := by
  rcases eq_or_ne p [] with rfl | hne
  · exact rfl
  rw [node_of_ne_nil hne] at hnode ⊢
  rcases h p with heq | hmem | hn
  · rwa [heq]
  · exact absurd hmem hp
  · exact Option.isSome_iff_ne_none.mpr hn.ne_none

/-- The package has a download, and every archive that this one accepts has its test files: those with its hash, or
all if it has none. -/
def Supplied (crates : Crates) (setting : Setting) (pkg : ContentPackage) : Prop :=
  ∃ dl package, pkg.download = some dl ∧ setting.tables.download dl = some package ∧
    ∀ f ∈ pkg.testFiles, setting.place f ∉ workFiles ∧
      ∀ z slots, (∀ hash ∈ package.sha1, toHex (crates.sha1 z) = hash) → crates.openZip z = .ok slots →
        ∃ entry, lastEntry crates (setting.place f) (fileEntries slots) = some entry

theorem isInstalled_iff {t : Tree Text UInt8} {pkg : ContentPackage} :
    Tables.isInstalled (present setting t) pkg = true ↔
      ∀ f ∈ pkg.testFiles, (node t (setting.place f)).isSome = true := List.all_eq_true

theorem isInstalled_of_download {dl : DownloadId} {package : DownloadPackage} {pkg : ContentPackage}
    {w w' : DownloadWorld} (hsup : Supplied crates setting pkg) (hdl : pkg.download = some dl)
    (hpackage : setting.tables.download dl = some package)
    (h : downloadAndInstall network crates setting faults package w = (.ok (), w')) :
    Tables.isInstalled (present setting w'.tree) pkg = true := by
  obtain ⟨dl', package', hdl', hpackage', hfiles⟩ := hsup
  rw [hdl, Option.some.injEq] at hdl'
  subst hdl'
  rw [hpackage, Option.some.injEq] at hpackage'
  subst hpackage'
  obtain ⟨z, slots, hhash, hslots, hinstalled⟩ := downloadPackage_installs h
  rw [isInstalled_iff]
  intro f hf
  obtain ⟨hwork, harchive⟩ := hfiles f hf
  obtain ⟨entry, hentry⟩ := harchive z slots hhash hslots
  have hfile := hinstalled.written (setting.place f) entry (fun h => hwork (Or.inl (Or.inl h)))
    (fun h => hwork (Or.inr h)) hentry
  rcases eq_or_ne (setting.place f) [] with hnil | hne
  · rw [hnil]
    rfl
  · rw [node_of_ne_nil hne, hfile]
    rfl

/-- What is installed stays so. -/
theorem isInstalled_of_within {pkg : ContentPackage} {w w' : DownloadWorld} {dls : List DownloadId}
    (hsup : Supplied crates setting pkg) (h : Within workFiles (FromDownloads crates setting.tables dls) w w')
    (hw : Tables.isInstalled (present setting w.tree) pkg = true) :
    Tables.isInstalled (present setting w'.tree) pkg = true := by
  obtain ⟨_, _, -, -, hfiles⟩ := hsup
  rw [isInstalled_iff] at hw ⊢
  exact fun f hf => node_isSome_of_within h (hfiles f hf).1 (hw f hf)

/-- One round of a loop that succeeds: the package is installed when the rest begins. -/
theorem ensureEach_cons_eq_ok {id : PackageId} {ids : List PackageId} {w w' : DownloadWorld}
    (h : ensureEach network crates setting faults (id :: ids) w = (.ok (), w')) :
    ∃ pkg v, setting.tables.package id = some pkg ∧
      ensureEach network crates setting faults ids v = (.ok (), w') ∧
        (Supplied crates setting pkg → Tables.isInstalled (present setting v.tree) pkg = true) := by
  unfold ensureEach at h
  rcases hpkg : setting.tables.package id with _ | pkg <;> rw [hpkg] at h
  · cases h
  change (if Tables.isInstalled (present setting w.tree) pkg then _ else _ : Ensuring Unit) w = _ at h
  split_ifs at h with hinstalled
  · exact ⟨pkg, w, rfl, h, fun _ => hinstalled⟩
  rcases hdl : pkg.download with _ | dl <;> rw [hdl] at h
  · refine ⟨pkg, w, rfl, h, fun hsup => ?_⟩
    obtain ⟨dl, -, hsome, -⟩ := hsup
    rw [hdl] at hsome
    cases hsome
  · rcases hpackage : setting.tables.download dl with _ | package <;> simp only [hpackage] at h
    · cases h
    change (mapFailure .download (downloadAndInstall network crates setting faults package) >>= fun _ =>
      ensureEach network crates setting faults ids) w = _ at h
    obtain ⟨⟨⟩, v, hdownload, h⟩ := bind_eq_ok_iff.mp h
    exact ⟨pkg, v, rfl, h, fun hsup => isInstalled_of_download hsup hdl hpackage (mapFailure_of_ok hdownload)⟩

/-- Every package of a loop that succeeds is installed afterwards. -/
theorem ensureEach_installs : ∀ {ids : List PackageId} {w w' : DownloadWorld},
    ensureEach network crates setting faults ids w = (.ok (), w') → ∀ id ∈ ids, ∀ pkg,
      setting.tables.package id = some pkg → Supplied crates setting pkg →
        Tables.isInstalled (present setting w'.tree) pkg = true
  | [], _, _, _, _, hid, _, _, _ => absurd hid List.not_mem_nil
  | i :: ids, w, w', h, id, hid, pkg, hpkg, hsup => by
    obtain ⟨q, v, hq, hrest, hinstalled⟩ := ensureEach_cons_eq_ok h
    rcases List.mem_cons.mp hid with rfl | hid
    · obtain rfl : q = pkg := Option.some.inj (hq.symm.trans hpkg)
      have hwithin := @leaves_ensureEach network crates setting faults ids v
      rw [hrest] at hwithin
      exact isInstalled_of_within hsup hwithin (hinstalled hsup)
    · exact ensureEach_installs hrest id hid pkg hpkg hsup

/-! ### A session that succeeds -/

theorem missingRequiredPackages_eq_nil_iff {tables : Tables} {exist : Text → Bool} {game : GameId} :
    tables.missingRequiredPackages exist game = [] ↔
      ∀ p ∈ tables.packages, p.game = game → p.required = true → Tables.isInstalled exist p = true := by
  unfold Tables.missingRequiredPackages
  rw [List.filter_eq_nil_iff]
  refine forall₂_congr fun p _ => ?_
  simp only [decide_eq_true_eq, not_and, not_not]

theorem ensureRequired_eq (game : GameId) (w : DownloadWorld) :
    ensureRequired network crates setting faults game w = ensurePackages network crates setting faults game
      ((setting.tables.missingRequiredPackages (present setting w.tree) game).map ContentPackage.id) w := rfl

theorem ensurePackages_of_ok {game : GameId} {packages : List PackageId} {w w' : DownloadWorld}
    (h : ensurePackages network crates setting faults game packages w = (.ok (), w')) :
    game.isFreeware = true ∧ ensureEach network crates setting faults packages w = (.ok (), w') := by
  unfold ensurePackages at h
  split_ifs at h with hgame
  · exact ⟨hgame, h⟩
  · cases h

/-- **What `ensure_required` is for.** If every required package of the game is found under its id, and has a
download that accepts only archives with its test files, then a session that succeeds, whatever happened on the way,
has made the content complete; and a second call makes no call to the network or to a file. -/
theorem ensureRequired_completes {game : GameId} {w w' : DownloadWorld}
    (hsup : ∀ p ∈ setting.tables.packages, p.game = game → p.required = true →
      setting.tables.package p.id = some p ∧ Supplied crates setting p)
    (h : ensureRequired network crates setting faults game w = (.ok (), w')) :
    setting.tables.isContentComplete (present setting w'.tree) game = true ∧
      ∀ network' faults', ensureRequired network' crates setting faults' game w' = (.ok (), w') := by
  rw [ensureRequired_eq] at h
  obtain ⟨hgame, heach⟩ := ensurePackages_of_ok h
  have hnone : setting.tables.missingRequiredPackages (present setting w'.tree) game = [] := by
    rw [missingRequiredPackages_eq_nil_iff]
    intro p hp hpgame hrequired
    obtain ⟨hid, hp'⟩ := hsup p hp hpgame hrequired
    by_cases hinstalled : Tables.isInstalled (present setting w.tree) p = true
    · have hwithin := @leaves_ensureEach network crates setting faults
        ((setting.tables.missingRequiredPackages (present setting w.tree) game).map ContentPackage.id) w
      rw [heach] at hwithin
      exact isInstalled_of_within hp' hwithin hinstalled
    · refine ensureEach_installs heach p.id (List.mem_map_of_mem (List.mem_filter.mpr ⟨hp, ?_⟩)) p hid hp'
      exact decide_eq_true ⟨hpgame, hrequired, hinstalled⟩
  refine ⟨by unfold Tables.isContentComplete; rw [hnone]; rfl, fun network' faults' => ?_⟩
  rw [ensureRequired_eq, hnone]
  unfold ensurePackages
  rw [if_pos hgame]
  rfl

/-! ### Verification -/

/-- The test files of the package are none of the files that a download works with. -/
def Apart (setting : Setting) (package : DownloadPackage) : Prop :=
  ∀ id ∈ package.provides, ∀ pkg, setting.tables.package id = some pkg →
    ∀ f ∈ pkg.testFiles, setting.place f ∉ workFiles

theorem snapshotOf_agree {package : DownloadPackage} (h : Apart setting package) {t t' : Tree Text UInt8}
    (ht : ∀ p ∉ workFiles, t' p = t p) :
    AgreeOn setting.tables package.provides (snapshotOf setting.place t') (snapshotOf setting.place t) := by
  intro id hid pkg hpkg f hf
  have hnode : node t' (setting.place f) = node t (setting.place f) := by
    rcases eq_or_ne (setting.place f) [] with hnil | hne
    · rw [hnil]
      rfl
    · rw [node_of_ne_nil hne, node_of_ne_nil hne, ht _ (h id hid pkg hpkg f hf)]
  unfold snapshotOf
  dsimp only
  rw [hnode]
  exact ⟨rfl, rfl, rfl⟩

/-- The manifest is written unless a directory is in its place. -/
theorem writeContentManifest_noFaults {package : DownloadPackage} {m : ContentManifest} {toml : List UInt8}
    {u t : DownloadWorld} (hgen : generated crates setting package u.tree = .ok m)
    (htoml : crates.toToml m = some toml) (hdir : t.tree manifestPath ≠ some .dir)
    (h : writeContentManifest crates setting noFaults package u = (.ok (), t)) :
    t.tree manifestPath = some (.file toml) := by
  unfold writeContentManifest at h
  rw [gets_bind, hgen] at h
  change saveManifest crates noFaults m u = _ at h
  unfold saveManifest at h
  rw [htoml] at h
  obtain ⟨_, v, hwrite, h⟩ := bind_eq_ok_iff.mp h
  cases h
  rw [show t = (writeFile noFaults manifestPath toml u).2 from (Prod.ext_iff.mp hwrite).2.symm] at hdir ⊢
  by_cases hu : node u.tree manifestPath = some .dir
  · have hexec : exec refusedBy (.write manifestPath toml : Command Text UInt8 DownloadProgress DownloadError) u.tree =
        .error (refusedBy .isADirectory) := by
      change (write manifestPath toml u.tree).mapError refusedBy = _
      unfold write
      rw [if_pos (isDir_iff.mpr hu)]
      rfl
    unfold writeFile at hdir
    rw [perform_of_error (spared_noFaults _ _) hexec] at hdir
    exact absurd hu hdir
  · have hexec : exec refusedBy (.write manifestPath toml : Command Text UInt8 DownloadProgress DownloadError) u.tree =
        .ok (put manifestPath (some (.file toml)) u.tree) :=
      mapError_eq_ok.mpr (write_eq_ok_iff.mpr ⟨hu, rfl, rfl⟩)
    unfold writeFile
    rw [perform_of_ok (spared_noFaults _ _) hexec]
    exact put_self manifestPath (some (.file toml)) u.tree

/-- **What a session verifies.** Behind a download that meets no fault, at any later time, a verification reports of the
test files of its packages those that were there and are no longer the same, in the order of their paths. -/
theorem verify_after_download {package : DownloadPackage} {m : ContentManifest} {w w' : DownloadWorld}
    (hround : ∃ toml, crates.toToml m = some toml ∧ crates.fromToml toml = some m)
    (hapart : Apart setting package)
    (h : downloadAndInstall network crates setting noFaults package w = (.ok (), w'))
    (hgen : generated crates setting package w'.tree = .ok m) (hdir : w'.tree manifestPath ≠ some .dir)
    (later : Tree Text UInt8) (hlater : later manifestPath = w'.tree manifestPath) :
    (∀ path, path ∈ m.files.paths ↔
      Covers setting.tables (snapshotOf setting.place w'.tree) package.provides path) ∧
    verify crates setting later = m.files.paths.filter fun path =>
      Verify.Incremental.digestOf crates.blake3 (snapshotOf setting.place later).disk path ≠
        Verify.Incremental.digestOf crates.blake3 (snapshotOf setting.place w'.tree).disk path := by
  obtain ⟨toml, htoml, hfrom⟩ := hround
  obtain ⟨urls, w₁, v, files, u, t, s, -, -, hmanifest, hremove, hreport⟩ := downloadPackage_eq_ok h
  have hman : manifestPath ≠ zipPath := by decide
  have htail : ∀ p ≠ zipPath, w'.tree p = t.tree p := fun p hp => by
    rw [(onProgress_eq_ok hreport).1, ignore_removeFile_kept hp hremove]
  have htree : ∀ p ∉ workFiles, u.tree p = w'.tree p := fun p hp => by
    rw [htail p fun h => hp (Or.inl (Or.inl h)), writeContentManifest_kept (fun h => hp (Or.inr h)) hmanifest]
  have hgen' : generated crates setting package u.tree = .ok m :=
    (generateManifest_congr (snapshotOf_agree hapart htree)).trans hgen
  have hdir' : t.tree manifestPath ≠ some .dir := by rwa [← htail manifestPath hman]
  have hwritten : later manifestPath = some (.file toml) := by
    rw [hlater, htail manifestPath hman, writeContentManifest_noFaults hgen' htoml hdir' hmanifest]
  obtain ⟨hpaths, -, -⟩ := verify_reports_changes hgen (snapshotOf setting.place later).disk setting.fastVerify
  refine ⟨hpaths, ?_⟩
  unfold verify
  rw [show node later manifestPath = later manifestPath from rfl, hwritten]
  dsimp only
  rw [hfrom]
  exact (verify_reports_changes hgen _ _).2.2

/-! ### A sample -/

/-- A ZIP archive with one file, `a.mix`, of the bytes `data`. -/
def sampleArchive : List UInt8 :=
  [80, 75, 3, 4, 20, 0, 0, 0, 0, 0, 0, 0, 33, 0, 99, 243, 243, 173, 4, 0, 0, 0, 4, 0, 0, 0, 5, 0, 0, 0, 97, 46,
    109, 105, 120, 100, 97, 116, 97, 80, 75, 1, 2, 20, 0, 20, 0, 0, 0, 0, 0, 0, 0, 33, 0, 99, 243, 243, 173, 4,
    0, 0, 0, 4, 0, 0, 0, 5, 0, 0, 0, 0, 0, 0, 0, 0, 0, 0, 0, 128, 1, 0, 0, 0, 0, 97, 46, 109, 105, 120, 80, 75,
    5, 6, 0, 0, 0, 0, 1, 0, 1, 0, 51, 0, 0, 0, 39, 0, 0, 0, 0, 0]

/-- The hashes of the archive, of the file, and of the file when it has been tampered with. -/
def sampleSha1 : List UInt8 :=
  [14, 195, 139, 84, 207, 172, 169, 15, 139, 8, 184, 123, 14, 165, 45, 105, 27, 103, 73, 196]

def sampleBlake3 : List UInt8 :=
  [40, 162, 73, 194, 228, 211, 169, 43, 192, 161, 110, 216, 241, 181, 207, 131, 202, 32, 65, 94, 225, 46, 80,
    43, 9, 102, 36, 144, 43, 188, 151, 189]

def tamperedBlake3 : List UInt8 :=
  [203, 153, 101, 151, 2, 221, 166, 48, 22, 184, 172, 148, 111, 170, 38, 133, 182, 176, 152, 192, 117, 50, 246,
    199, 217, 208, 99, 45, 147, 171, 199, 57]

/-- The manifest, and its text. -/
def sampleManifest : ContentManifest :=
  ⟨2, text "ra", text "v1", FileMap.empty.insert (text "a.mix") ⟨⟨toHex sampleBlake3⟩, 4⟩⟩

def sampleToml : List UInt8 :=
  text "version = 2\ngame = \"ra\"\ncontent_version = \"v1\"\n\n[files.\"a.mix\"]\nblake3 = \"" ++
    toHex sampleBlake3 ++ text "\"\nsize = 4\n"

/-- The hashes and the texts of the sample are the real ones. -/
def sampleCrates : Crates where
  sha1 := fun z => if z = sampleArchive then sampleSha1 else List.replicate 20 0
  blake3 := fun data =>
    if data = text "data" then sampleBlake3 else if data = text "date" then tamperedBlake3 else List.replicate 32 0
  boundary := none
  joinContent := fun name => .ok [name]
  openZip := fun z =>
    if z = sampleArchive then .ok [.ok ⟨text "a.mix", 4, ⟨text "data", none⟩⟩]
    else .error (text "invalid Zip archive: Could not find EOCD")
  toToml := fun m => if m.files.entries = sampleManifest.files.entries then some sampleToml else none
  fromToml := fun toml => if toml = sampleToml then some sampleManifest else none
  describe := fun _ => text "download failed"

/-- Every server has the archive. -/
def sampleNetwork : Network where
  get := fun _ _ => .ok ⟨some 112, [sampleArchive.take 60, sampleArchive.drop 60], none⟩
  segmentedDownload := fun _ _ _ => ⟨[], [], .failed none (text "no mirror")⟩
  parallelDownload := fun _ _ _ => ⟨[], [], .failed none (text "no mirror")⟩
  fetchMirrorList := fun _ _ => none

def sampleDownload : DownloadPackage :=
  ⟨.raBaseFiles, .redAlert, none, [text "https://example.org/a.zip"], some (toHex sampleSha1), none, [.raBase], 112⟩

def sampleSetting : Setting :=
  ⟨⟨[⟨.raBase, .redAlert, true, [text "a.mix"], some .raBaseFiles⟩], [sampleDownload]⟩, fun _ => [], none, false,
    fun path => [path]⟩

def emptyWorld : DownloadWorld := ⟨fun _ => none, 0, []⟩

theorem sample_not_workFile : [text "a.mix"] ∉ workFiles := by
  rintro ((h | ⟨s, h⟩) | h)
  · exact absurd h (by decide)
  · have hpath : s.path zipPath = [text ".download.zip." ++ s.extension] := rfl
    rw [hpath, List.singleton_inj] at h
    have hhead : (text "a.mix").head? = some (byte '.') := congrArg List.head? h
    exact absurd hhead (by decide)
  · exact absurd h (by decide)

theorem sample_supplied : ∀ p ∈ sampleSetting.tables.packages, p.game = .redAlert → p.required = true →
    sampleSetting.tables.package p.id = some p ∧ Supplied sampleCrates sampleSetting p := by
  intro p hp _ _
  rw [List.mem_singleton.mp hp]
  refine ⟨rfl, .raBaseFiles, sampleDownload, rfl, rfl, fun f hf => ?_⟩
  rw [List.mem_singleton.mp hf]
  refine ⟨sample_not_workFile, fun z slots _ hslots => ?_⟩
  change (if z = sampleArchive then _ else _) = Except.ok slots at hslots
  split_ifs at hslots
  cases hslots
  exact ⟨_, rfl⟩

theorem sample_apart : Apart sampleSetting sampleDownload := by
  intro id hid pkg hpkg f hf
  rw [List.mem_singleton.mp hid] at hpkg
  cases hpkg
  rw [List.mem_singleton.mp hf]
  exact sample_not_workFile

theorem ensureRequired_completes_sample :
    let w' := (ensureRequired sampleNetwork sampleCrates sampleSetting noFaults .redAlert emptyWorld).2
    sampleSetting.tables.isContentComplete (present sampleSetting w'.tree) .redAlert = true :=
  (@ensureRequired_completes _ _ _ noFaults _ _ _ sample_supplied (Prod.ext rfl rfl)).1

/-- The file is tampered with behind the download. -/
def tampered (t : Tree Text UInt8) : Tree Text UInt8 := put [text "a.mix"] (some (.file (text "date"))) t

theorem verify_after_download_sample :
    let w' := (downloadAndInstall sampleNetwork sampleCrates sampleSetting noFaults sampleDownload emptyWorld).2
    verify sampleCrates sampleSetting (tampered w'.tree) = [text "a.mix"] := by
  have hrun : downloadAndInstall sampleNetwork sampleCrates sampleSetting noFaults sampleDownload emptyWorld =
      (.ok (), (downloadAndInstall sampleNetwork sampleCrates sampleSetting noFaults sampleDownload emptyWorld).2) :=
    Prod.ext rfl rfl
  have hround : sampleCrates.toToml sampleManifest = some sampleToml ∧
      sampleCrates.fromToml sampleToml = some sampleManifest := by simp [sampleCrates]
  exact (verify_after_download ⟨sampleToml, hround⟩ sample_apart hrun (m := sampleManifest) rfl (by decide)
    (tampered _) rfl).2.trans (by decide +kernel)

end CncContent.Content.Session
