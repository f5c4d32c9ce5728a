import CncContent.Content.Download

/-! # What a download leaves in the content tree

Whatever the network delivers and whichever calls fail, a file changes only if it is an entry of an archive with
the hash of the package (`leaves_downloadPackage`): nothing of an archive that does not have it reaches the
content tree. -/

namespace CncContent.Content.Integrity

open CncContent.Lib.Attempts CncContent.Lib.Bytes CncContent.Lib.Checks
open CncContent.Lib.FileScripts CncContent.Lib.FileTree
open CncContent.Content.Packages CncContent.Content.Download CncContent.Verify.Generation
open CncContent.Install.Executor (Path FileNode)

/-- The trees differ at the paths of `A`, and where there is now what `C` allows. -/
def Within (A : Set Path) (C : Path → FileNode → Prop) (w w' : DownloadWorld) : Prop :=
  ∀ p, w'.tree p = w.tree p ∨ p ∈ A ∨ C p (w'.tree p)

variable {A : Set Path} {C : Path → FileNode → Prop}

theorem Within.refl (w : DownloadWorld) : Within A C w w := fun _ => Or.inl rfl

theorem Within.trans (w v u : DownloadWorld) (h : Within A C w v) (h' : Within A C v u) : Within A C w u := by
  intro p
  rcases h' p with hp | hp
  · rw [hp]
    exact h p
  · exact Or.inr hp

theorem Within.mono {A' : Set Path} {C' : Path → FileNode → Prop} {w w' : DownloadWorld} (h : Within A C w w')
    (hA : A ⊆ A') (hC : ∀ p n, C p n → C' p n) : Within A' C' w w' :=
  fun p => (h p).imp_right (Or.imp (@hA p) (hC p _))

theorem within_of_tree_eq {w w' : DownloadWorld} (h : w'.tree = w.tree) : Within A C w w' :=
  fun p => Or.inl (by rw [h])

/-! ### Calls -/

variable {faults : Faults}

theorem leaves_access : Leaves (Within A C) (access faults) := by
  intro w
  refine within_of_tree_eq ?_
  rcases @perform_tree _ _ _ _ _ refusedBy faults .access w with h | ⟨n, h⟩ | h
  · exact h
  · exact h
  · exact (Except.ok.inj h).symm

theorem leaves_onProgress (event : DownloadProgress) : Leaves (Within A C) (onProgress faults event) := by
  intro w
  refine within_of_tree_eq ?_
  rcases @perform_tree _ _ _ _ _ refusedBy faults (.report event) w with h | ⟨n, h⟩ | h
  · exact h
  · exact h
  · exact (Except.ok.inj h).symm

theorem leaves_ignore {m : Fetching Unit} (h : Leaves (Within A C) m) : Leaves (Within A C) (ignore m) :=
  h.attempt.bind Within.trans fun _ => Leaves.pure Within.refl ()

theorem leaves_removeFile {target : Path} (htarget : target ∈ A) :
    Leaves (Within A C) (removeFile faults target) := by
  intro w p
  rcases @perform_tree _ _ _ _ _ refusedBy faults (.remove target) w with h | ⟨n, h⟩ | h
  · exact Or.inl (congrFun h p)
  · exact Or.inl (congrFun h p)
  · obtain ⟨-, ht⟩ := remove_eq_ok_iff.mp (mapError_eq_ok.mp h)
    by_cases hp : p = target
    · exact Or.inr (Or.inl (hp ▸ htarget))
    · exact Or.inl ((congrFun ht p).trans (put_of_ne hp))

/-- A file that is written holds a part of the contents afterwards, or all of them. -/
theorem leaves_writeFile {dst : Path} {data : List UInt8}
    (h : dst ∈ A ∨ ∀ k, C dst (some (.file (data.take k)))) : Leaves (Within A C) (writeFile faults dst data) := by
  intro w p
  have hput : ∀ {t : Tree Text UInt8} {k : ℕ}, t = put dst (some (.file (data.take k))) w.tree →
      t p = w.tree p ∨ p ∈ A ∨ C p (t p) := by
    rintro t k rfl
    by_cases hp : p = dst
    · subst hp
      refine Or.inr (h.imp_right fun h => ?_)
      rw [put_self]
      exact h k
    · exact Or.inl (put_of_ne hp)
  rcases @perform_tree _ _ _ _ _ refusedBy faults (.write dst data) w with ht | ⟨n, ht⟩ | ht
  · exact Or.inl (congrFun ht p)
  · unfold wreck at ht
    dsimp only at ht
    split at ht
    · exact hput ht
    · exact Or.inl (congrFun ht p)
  · obtain ⟨-, -, ht⟩ := write_eq_ok_iff.mp (mapError_eq_ok.mp ht)
    have hwhole : put dst (some (.file data)) w.tree = put dst (some (.file (data.take data.length))) w.tree := by
      rw [List.take_length]
    exact hput (ht.trans hwhole)

theorem leaves_createParentDirAll {dst : Path} (h : ∀ p, Above p dst → C p (some .dir)) :
    Leaves (Within A C) (createParentDirAll faults dst) := by
  intro w p
  have hmake : ∀ {t : Tree Text UInt8} {n : ℕ}, t = makeFirst n dst w.tree →
      t p = w.tree p ∨ p ∈ A ∨ C p (t p) := by
    rintro t n rfl
    by_cases hp : Above p dst ∧ p.length ≤ n
    · refine Or.inr (Or.inr ?_)
      rw [show makeFirst n dst w.tree p = some .dir from if_pos hp]
      exact h p hp.1
    · exact Or.inl (if_neg hp)
  rcases @perform_tree _ _ _ _ _ refusedBy faults (.parents dst) w with ht | ⟨n, ht⟩ | ht
  · exact Or.inl (congrFun ht p)
  · unfold wreck at ht
    dsimp only at ht
    split_ifs at ht
    · exact Or.inl (congrFun ht p)
    · exact hmake ht
  · exact hmake (makeParents_eq_ok_iff.mp (mapError_eq_ok.mp ht)).2

/-! ### The archive -/

/-- The file that is fetched, and the temporary files of the transports. -/
def temporary (dest : Path) : Set Path := {p | p = dest ∨ ∃ s : Scratch, p = s.path dest}

section Fetching

variable {crates : Crates} {network : Network} {dest : Path}

theorem leaves_receive (hdest : temporary dest ⊆ A) (transfer : Transfer) :
    Leaves (Within A C) (receive crates faults dest transfer) := by
  have hwrite : ∀ data, Leaves (Within A C) (writeFile faults dest data) := fun data =>
    leaves_writeFile (Or.inl (hdest (Or.inl rfl)))
  unfold receive
  refine (Leaves.forEach Within.refl Within.trans (fun r => leaves_onProgress _) _).bind Within.trans fun _ => ?_
  refine (Leaves.forEach Within.refl Within.trans (fun s => ?_) _).bind Within.trans fun _ => ?_
  · exact leaves_ignore (leaves_writeFile (Or.inl (hdest (Or.inr ⟨s.1, rfl⟩))))
  rcases transfer.fetched with data | ⟨_ | data, e⟩
  · exact (hwrite data).attempt.bind Within.trans fun _ => Leaves.pure Within.refl _
  · exact Leaves.pure Within.refl _
  · exact (leaves_ignore (hwrite data)).bind Within.trans fun _ => Leaves.pure Within.refl _

theorem leaves_checkSha1 {actual : Text} {expected : Option Text} {file : Path} (hfile : file ∈ A) :
    Leaves (Within A C) (checkSha1 faults actual expected file) := by
  unfold checkSha1
  split
  · exact leaves_onProgress _
  · refine (leaves_onProgress _).bind Within.trans fun _ => ?_
    split_ifs
    · exact (leaves_ignore (leaves_removeFile hfile)).bind Within.trans fun _ => Leaves.fail Within.refl _
    · exact Leaves.pure Within.refl ()

/-- Fetching touches the file only, and the temporary ones. -/
theorem leaves_downloadToFile (urls : List Text) (hdest : temporary dest ⊆ A) (sizeHint : ℕ)
    (expectedSha1 : Option Text) :
    Leaves (Within A C) (downloadToFile network crates faults urls dest sizeHint expectedSha1) := by
  have hmem : dest ∈ A := hdest (Or.inl rfl)
  unfold downloadToFile
  by_cases hurls : urls = []
  · rw [if_pos hurls]
    exact Leaves.fail Within.refl _
  · rw [if_neg hurls]
    refine (leaves_onProgress _).bind Within.trans fun _ => ?_
    refine (Leaves.gets Within.refl _).bind Within.trans fun transfer => ?_
    refine (leaves_receive hdest transfer).bind Within.trans fun result => ?_
    rcases result with lastError | fusedSha1
    · exact (leaves_ignore (leaves_removeFile hmem)).bind Within.trans fun _ => Leaves.fail Within.refl _
    · exact leaves_checkSha1 hmem

/-! ### A file that has been fetched -/

theorem access_eq_ok {w w' : DownloadWorld} (h : access faults w = (.ok (), w')) : w'.tree = w.tree :=
  (Except.ok.inj (perform_eq_ok h).1).symm

theorem onProgress_eq_ok {event : DownloadProgress} {w w' : DownloadWorld}
    (h : onProgress faults event w = (.ok (), w')) : w'.tree = w.tree ∧ w'.log = w.log ++ [event] :=
  ⟨(Except.ok.inj (perform_eq_ok h).1).symm, (perform_eq_ok h).2⟩

theorem writeFile_eq_ok {dst : Path} {data : List UInt8} {w w' : DownloadWorld}
    (h : writeFile faults dst data w = (.ok (), w')) : w'.tree = put dst (some (.file data)) w.tree :=
  (write_eq_ok_iff.mp (mapError_eq_ok.mp (perform_eq_ok h).1)).2.2

/-- The hash that comes with the file is that of its contents. -/
theorem receive_eq_ok {transfer : Transfer} {hash : Text} {w w' : DownloadWorld}
    (h : receive crates faults dest transfer w = (.ok (.ok hash), w')) :
    ∃ data, w'.tree dest = some (.file data) ∧ toHex (crates.sha1 data) = hash := by
  unfold receive at h
  obtain ⟨_, _, -, h⟩ := bind_eq_ok_iff.mp h
  obtain ⟨_, w₁, -, h⟩ := bind_eq_ok_iff.mp h
  rcases hfetched : transfer.fetched with data | ⟨_ | data, e⟩ <;> rw [hfetched] at h
  · obtain ⟨written, w₂, hwritten, h⟩ := bind_eq_ok_iff.mp h
    rcases hw : writeFile faults dest data w₁ with ⟨e | ⟨⟩, w₃⟩
    · unfold attempt at hwritten
      rw [hw] at hwritten
      cases hwritten
      cases h
    · unfold attempt at hwritten
      rw [hw] at hwritten
      cases hwritten
      cases h
      exact ⟨data, by rw [writeFile_eq_ok hw, put_self], rfl⟩
  · cases h
  · obtain ⟨_, _, -, h⟩ := bind_eq_ok_iff.mp h
    cases h

theorem checkSha1_eq_ok {actual : Text} {expected : Option Text} {file : Path} {w w' : DownloadWorld}
    (h : checkSha1 faults actual expected file w = (.ok (), w')) :
    w'.tree = w.tree ∧ ∀ hash ∈ expected, actual = hash := by
  unfold checkSha1 at h
  rcases expected with _ | hash
  · exact ⟨(onProgress_eq_ok h).1, nofun⟩
  · obtain ⟨⟨⟩, w₁, hreport, h⟩ := bind_eq_ok_iff.mp h
    split_ifs at h with hne
    · obtain ⟨_, _, -, h⟩ := bind_eq_ok_iff.mp h
      cases h
    · cases h
      refine ⟨(onProgress_eq_ok hreport).1, fun hash' hmem => ?_⟩
      rw [← Option.mem_some.mp hmem]
      exact not_not.mp hne

/-- **What has been fetched** has the hash that is expected. -/
theorem downloadToFile_eq_ok {urls : List Text} {sizeHint : ℕ} {expectedSha1 : Option Text} {w w' : DownloadWorld}
    (h : downloadToFile network crates faults urls dest sizeHint expectedSha1 w = (.ok (), w')) :
    ∃ data, w'.tree dest = some (.file data) ∧ ∀ hash ∈ expectedSha1, toHex (crates.sha1 data) = hash := by
  unfold downloadToFile at h
  by_cases hurls : urls = []
  · rw [if_pos hurls] at h
    cases h
  · rw [if_neg hurls] at h
    obtain ⟨_, _, -, h⟩ := bind_eq_ok_iff.mp h
    obtain ⟨transfer, _, -, h⟩ := bind_eq_ok_iff.mp h
    obtain ⟨result, w₁, hreceive, h⟩ := bind_eq_ok_iff.mp h
    rcases result with lastError | fusedSha1
    · obtain ⟨_, _, -, h⟩ := bind_eq_ok_iff.mp h
      cases h
    · obtain ⟨data, hdata, rfl⟩ := receive_eq_ok hreceive
      obtain ⟨htree, hhash⟩ := checkSha1_eq_ok h
      exact ⟨data, by rw [htree, hdata], hhash⟩

end Fetching

/-! ### The entries -/

section Extracting

variable {crates : Crates}

/-- What an entry of the archive leaves at a path: its file, as far as it has been written, or a directory above
it. -/
def FromEntry (crates : Crates) (slots : List (Except Text ZipEntry)) (p : Path) (n : FileNode) : Prop :=
  ∃ entry dst, .ok entry ∈ slots ∧ crates.joinContent entry.name = .ok dst ∧
    ((p = dst ∧ ∃ k, n = some (.file (entry.stream.delivered.take k))) ∨ (Above p dst ∧ n = some .dir))

theorem entryPath_eq_ok {name : Text} {dst : Path} (h : entryPath crates name = .ok dst) :
    crates.joinContent name = .ok dst := mapError_eq_ok.mp h

theorem leaves_writeEntry {slots : List (Except Text ZipEntry)} {entry : ZipEntry} {dst : Path}
    (hentry : .ok entry ∈ slots) (hdst : crates.joinContent entry.name = .ok dst) :
    Leaves (Within ∅ (FromEntry crates slots)) (writeEntry faults dst entry) := by
  have hfile : ∀ k, FromEntry crates slots dst (some (.file (entry.stream.delivered.take k))) := fun k =>
    ⟨entry, dst, hentry, hdst, Or.inl ⟨rfl, k, rfl⟩⟩
  unfold writeEntry
  refine (leaves_createParentDirAll fun p hp => ?_).bind Within.trans fun _ => ?_
  · exact ⟨entry, dst, hentry, hdst, Or.inr ⟨hp, rfl⟩⟩
  refine (leaves_writeFile (Or.inr fun k => ?_)).bind Within.trans fun _ => ?_
  · rw [List.take_nil]
    exact hfile 0
  exact (leaves_writeFile (Or.inr hfile)).bind Within.trans fun _ => Leaves.orReturn Within.refl _

theorem leaves_extractEntries {all : List (Except Text ZipEntry)} {total : ℕ} :
    ∀ {slots : List (Except Text ZipEntry)} {i files totalUncompressed : ℕ}, slots ⊆ all →
      Leaves (Within ∅ (FromEntry crates all)) (extractEntries crates faults total i slots files totalUncompressed)
  | [], _, _, _, _ => Leaves.pure Within.refl _
  | slot :: slots, i, files, totalUncompressed, hsub => by
    obtain ⟨hslot, hslots⟩ := List.cons_subset.mp hsub
    unfold extractEntries
    rcases slot with e | entry
    · exact Leaves.fail Within.refl _
    change Leaves _ (if _ then _ else _)
    split_ifs
    · exact leaves_extractEntries hslots
    · exact Leaves.fail Within.refl _
    · exact Leaves.fail Within.refl _
    · refine (leaves_onProgress _).bind Within.trans fun _ => ?_
      rcases hdst : entryPath crates entry.name with e | dst
      · exact Leaves.fail Within.refl _
      · change Leaves _ (writeEntry faults dst entry >>= fun _ => _)
        exact (leaves_writeEntry hslot (entryPath_eq_ok hdst)).bind Within.trans fun _ =>
          leaves_extractEntries hslots

theorem leaves_extractSlots (slots : List (Except Text ZipEntry)) :
    Leaves (Within ∅ (FromEntry crates slots)) (extractSlots crates faults slots) := by
  unfold extractSlots
  split_ifs
  · exact Leaves.fail Within.refl _
  · rcases crates.boundary with _ | e
    · exact leaves_extractEntries (List.Subset.refl slots)
    · exact Leaves.fail Within.refl _

/-- What is left by an archive with these contents. -/
def FromArchive (crates : Crates) (z : List UInt8) (p : Path) (n : FileNode) : Prop :=
  ∃ slots, crates.openZip z = .ok slots ∧ FromEntry crates slots p n

theorem extractZip_within (path : Path) (w : DownloadWorld) :
    Within ∅ (fun p n => ∃ z, node w.tree path = some (.file z) ∧ FromArchive crates z p n) w
      (extractZip crates faults path w).2 := by
  unfold extractZip
  refine leaves_bind_at Within.trans (leaves_access w) fun _ v hv => ?_
  rw [gets_bind, access_eq_ok hv]
  rcases hfile : node w.tree path with _ | z | _
  · exact Within.refl v
  · change Within _ _ v ((orReturn ((crates.openZip z).mapError .zip) >>= extractSlots crates faults) v).2
    rcases hslots : crates.openZip z with e | slots
    · exact Within.refl v
    · exact (leaves_extractSlots slots v).mono (le_refl _) fun p n hn => ⟨z, rfl, slots, hslots, hn⟩
  · exact Within.refl v

end Extracting

/-! ### The package -/

section Package

variable {network : Network} {crates : Crates} {setting : Setting} {package : DownloadPackage}

/-- The archive and the manifest, and the temporary files of the transports. -/
def workFiles : Set Path := temporary zipPath ∪ {manifestPath}

theorem leaves_resolvePackageMirrors :
    Leaves (Within A C) (resolvePackageMirrors network setting faults package) := by
  unfold resolvePackageMirrors
  split
  · exact Leaves.pure Within.refl _
  · refine (leaves_onProgress _).bind Within.trans fun _ => ?_
    exact (Leaves.gets Within.refl _).bind Within.trans fun _ => Leaves.pure Within.refl _

theorem leaves_writeContentManifest (h : manifestPath ∈ A) :
    Leaves (Within A C) (writeContentManifest crates setting faults package) := by
  unfold writeContentManifest
  refine (Leaves.gets Within.refl _).bind Within.trans fun manifest => ?_
  rcases manifest with e | m
  · exact Leaves.pure Within.refl ()
  · change Leaves _ (saveManifest crates faults m)
    unfold saveManifest
    split
    · exact Leaves.pure Within.refl ()
    · exact leaves_ignore (leaves_writeFile (Or.inl h))

/-- What an archive with the hash of the package leaves. -/
def FromPackage (crates : Crates) (package : DownloadPackage) (p : Path) (n : FileNode) : Prop :=
  ∃ z, (∀ hash ∈ package.sha1, toHex (crates.sha1 z) = hash) ∧ FromArchive crates z p n

/-- **Only what has the hash of the package reaches the content.** Whatever the network delivers and whichever
calls fail, apart from its own work files a download changes a path only as an archive with the hash of the package
does: a file of an entry, as far as it has been written, or a directory above one. -/
theorem leaves_downloadPackage :
    Leaves (Within workFiles (FromPackage crates package))
      (downloadPackage network crates setting faults package) := by
  have htemp : temporary zipPath ⊆ workFiles := Set.subset_union_left
  unfold downloadPackage
  refine leaves_access.bind Within.trans fun _ => ?_
  refine leaves_resolvePackageMirrors.bind Within.trans fun mirrors => ?_
  intro w
  refine leaves_bind_at Within.trans (leaves_downloadToFile _ htemp _ _ w) fun _ v hv => ?_
  obtain ⟨data, hdata, hhash⟩ := downloadToFile_eq_ok hv
  refine leaves_bind_at Within.trans ?_ fun files u _ => ?_
  · refine (extractZip_within zipPath v).mono (Set.empty_subset _) ?_
    rintro p n ⟨z, hz, hn⟩
    rw [show node v.tree zipPath = v.tree zipPath from rfl, hdata] at hz
    cases hz
    exact ⟨data, hhash, hn⟩
  · refine ((leaves_writeContentManifest (Or.inr rfl)).bind Within.trans fun _ => ?_) u
    refine (leaves_ignore (leaves_removeFile (htemp (Or.inl rfl)))).bind Within.trans fun _ => ?_
    exact leaves_onProgress _

end Package

end CncContent.Content.Integrity
