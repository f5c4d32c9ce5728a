import CncContent.Content.Integrity

/-! # What a download that succeeds has installed

A download that returns without an error has fetched an archive with the hash of the package, and every file of
the archive is in the content tree with all its contents, the last one of those with the same path
(`downloadPackage_installs`). -/

namespace CncContent.Content.Installation

open CncContent.Lib.Attempts CncContent.Lib.Bounded CncContent.Lib.Bytes CncContent.Lib.Checks
open CncContent.Lib.FileScripts CncContent.Lib.FileTree
open CncContent.Content.Packages CncContent.Content.Download CncContent.Content.Integrity
open CncContent.Downloads.Extraction (maxEntryUncompressed maxTotalUncompressed maxZipEntries)
open CncContent.Install.Executor (Path FileNode)

/-- The entries that are not directories. -/
def fileEntries : List (Except Text ZipEntry) → List ZipEntry
  | [] => []
  | .error _ :: slots => fileEntries slots
  | .ok entry :: slots =>
    if entry.name.getLast? = some (byte '/') then fileEntries slots else entry :: fileEntries slots

/-- The last entry with the path. -/
def lastEntry (crates : Crates) (p : Path) : List ZipEntry → Option ZipEntry
  | [] => none
  | entry :: entries =>
    (lastEntry crates p entries).or (if crates.joinContent entry.name = .ok p then some entry else none)

/-- Every entry has been read, and the files are there with all their contents. -/
structure Extracted (crates : Crates) (slots : List (Except Text ZipEntry)) (w w' : DownloadWorld) : Prop where
  readable : ∀ slot ∈ slots, ∃ entry, slot = .ok entry
  whole : ∀ entry ∈ fileEntries slots, entry.stream.error = none ∧ ∃ dst, crates.joinContent entry.name = .ok dst
  written : ∀ p entry, lastEntry crates p (fileEntries slots) = some entry →
    w'.tree p = some (.file entry.stream.delivered)
  kept : ∀ p contents, lastEntry crates p (fileEntries slots) = none → w.tree p = some (.file contents) →
    w'.tree p = some (.file contents)

/-- The sizes that the files declare. -/
def declared (slots : List (Except Text ZipEntry)) : ℕ := ((fileEntries slots).map ZipEntry.size).sum

variable {faults : Faults} {crates : Crates}

/-! ### One entry -/

theorem createParentDirAll_eq_ok {dst : Path} {w w' : DownloadWorld}
    (h : createParentDirAll faults dst w = (.ok (), w')) :
    ¬ Blocked w.tree dst ∧ w'.tree = makeFirst dst.length dst w.tree :=
  makeParents_eq_ok_iff.mp (mapError_eq_ok.mp (perform_eq_ok h).1)

/-- A file is not made a directory. -/
theorem createParentDirAll_kept {dst p : Path} {contents : List UInt8} {w w' : DownloadWorld}
    (h : createParentDirAll faults dst w = (.ok (), w')) (hp : w.tree p = some (.file contents)) :
    w'.tree p = some (.file contents) := by
  obtain ⟨hblocked, htree⟩ := createParentDirAll_eq_ok h
  rw [htree, makeFirst_of_not_above, hp]
  intro habove
  exact hblocked (blocked_iff.mpr ⟨p, habove, by rw [hp]; rfl⟩)

theorem writeEntry_eq_ok {dst : Path} {entry : ZipEntry} {w w' : DownloadWorld}
    (h : writeEntry faults dst entry w = (.ok (), w')) :
    entry.stream.error = none ∧ w'.tree dst = some (.file entry.stream.delivered) ∧
      ∀ p contents, p ≠ dst → w.tree p = some (.file contents) → w'.tree p = some (.file contents) := by
  unfold writeEntry at h
  obtain ⟨⟨⟩, v, hparents, h⟩ := bind_eq_ok_iff.mp h
  obtain ⟨⟨⟩, u, hcreate, h⟩ := bind_eq_ok_iff.mp h
  obtain ⟨⟨⟩, t, hcopy, h⟩ := bind_eq_ok_iff.mp h
  have htree : ∀ p, p ≠ dst → t.tree p = v.tree p := fun p hp => by
    rw [writeFile_eq_ok hcopy, put_of_ne hp, writeFile_eq_ok hcreate, put_of_ne hp]
  rcases herror : entry.stream.error with _ | e
  · rw [copied, herror] at h
    cases h
    refine ⟨rfl, by rw [writeFile_eq_ok hcopy, put_self], fun p contents hne hp => ?_⟩
    rw [htree p hne]
    exact createParentDirAll_kept hparents hp
  · rw [copied, herror] at h
    cases h

/-! ### All entries -/

/-- Where no entry of the rest has the path, it is the file of this one. -/
theorem Extracted.cons {entry : ZipEntry} {slots : List (Except Text ZipEntry)} {dst : Path}
    {w v u w' : DownloadWorld} (hname : entry.name.getLast? ≠ some (byte '/'))
    (hdst : crates.joinContent entry.name = .ok dst) (hv : v.tree = w.tree)
    (hentry : writeEntry faults dst entry v = (.ok (), u)) (h : Extracted crates slots u w') :
    Extracted crates (.ok entry :: slots) w w' := by
  obtain ⟨herror, hfile, hkept⟩ := writeEntry_eq_ok hentry
  have hfiles : fileEntries (.ok entry :: slots) = entry :: fileEntries slots := if_neg hname
  constructor
  · intro slot hslot
    rcases List.mem_cons.mp hslot with rfl | hslot
    · exact ⟨entry, rfl⟩
    · exact h.readable slot hslot
  · intro e he
    rw [hfiles] at he
    rcases List.mem_cons.mp he with rfl | he
    · exact ⟨herror, dst, hdst⟩
    · exact h.whole e he
  · intro p e he
    rw [hfiles, lastEntry, Option.or_eq_some_iff] at he
    rcases he with he | ⟨hnone, he⟩
    · exact h.written p e he
    · rw [Option.ite_none_right_eq_some, hdst, Except.ok.injEq] at he
      obtain ⟨rfl, he⟩ := he
      cases he
      exact h.kept dst _ hnone hfile
  · intro p contents hnone hp
    rw [hfiles, lastEntry, Option.or_eq_none_iff] at hnone
    refine h.kept p contents hnone.1 (hkept p contents ?_ (by rw [hv, hp]))
    rintro rfl
    rw [if_pos hdst] at hnone
    cases hnone.2

/-- A directory is passed over. -/
theorem Extracted.skip {entry : ZipEntry} {slots : List (Except Text ZipEntry)} {w w' : DownloadWorld}
    (hname : entry.name.getLast? = some (byte '/')) (h : Extracted crates slots w w') :
    Extracted crates (.ok entry :: slots) w w' := by
  have hfiles : fileEntries (.ok entry :: slots) = fileEntries slots := if_pos hname
  constructor
  · intro slot hslot
    rcases List.mem_cons.mp hslot with rfl | hslot
    · exact ⟨entry, rfl⟩
    · exact h.readable slot hslot
  · rw [hfiles]
    exact h.whole
  · rw [hfiles]
    exact h.written
  · rw [hfiles]
    exact h.kept

/-- A sum within the limit has not been cut off. -/
theorem satAdd_of_le_max {a b : ℕ} (h : satAdd u64Max a b ≤ maxTotalUncompressed) :
    satAdd u64Max a b = a + b := by
  unfold satAdd at h ⊢
  unfold maxTotalUncompressed at h
  unfold u64Max at h ⊢
  omega

/-- **What the loop has done** when it succeeds: all files are there, as many as it returns, and their declared
sizes are within the limit. -/
theorem extractEntries_eq_ok {total : ℕ} : ∀ {slots : List (Except Text ZipEntry)} {i files sum n : ℕ}
    {w w' : DownloadWorld}, extractEntries crates faults total i slots files sum w = (.ok n, w') →
      sum ≤ maxTotalUncompressed →
        Extracted crates slots w w' ∧ n = files + (fileEntries slots).length ∧
          sum + declared slots ≤ maxTotalUncompressed
  | [], _, _, _, _, _, _, h, hsum => by
    cases h
    exact ⟨⟨nofun, nofun, nofun, fun _ _ _ hp => hp⟩, rfl, hsum⟩
  | .error _ :: _, _, _, _, _, _, _, h, _ => by cases h
  | .ok entry :: slots, i, files, sum, n, w, w', h, hsum => by
    change (if _ then _ else _ : Fetching ℕ) w = _ at h
    split_ifs at h with hname hentry hall
    · obtain ⟨hslots, hn, hle⟩ := extractEntries_eq_ok h hsum
      have hfiles : fileEntries (.ok entry :: slots) = fileEntries slots := if_pos hname
      unfold declared
      rw [hfiles]
      exact ⟨hslots.skip hname, hn, hle⟩
    · cases h
    · cases h
    · obtain ⟨⟨⟩, v, hreport, h⟩ := bind_eq_ok_iff.mp h
      rcases hdst : entryPath crates entry.name with e | dst
      · rw [hdst] at h
        cases h
      rw [hdst] at h
      change (writeEntry faults dst entry >>= fun _ => _) v = _ at h
      obtain ⟨⟨⟩, u, hwrite, h⟩ := bind_eq_ok_iff.mp h
      rw [not_lt] at hall
      have hsat : satAdd u64Max sum entry.size = sum + entry.size := satAdd_of_le_max hall
      rw [hsat] at h hall
      obtain ⟨hslots, hn, hle⟩ := extractEntries_eq_ok h hall
      have hfiles : fileEntries (.ok entry :: slots) = entry :: fileEntries slots := if_neg hname
      refine ⟨hslots.cons hname (entryPath_eq_ok hdst) (onProgress_eq_ok hreport).1 hwrite, ?_, ?_⟩
      · rw [hfiles, hn, List.length_cons]
        omega
      · unfold declared at hle ⊢
        rw [hfiles, List.map_cons, List.sum_cons]
        omega

theorem extractZip_eq_ok {path : Path} {n : ℕ} {w w' : DownloadWorld}
    (h : extractZip crates faults path w = (.ok n, w')) :
    ∃ z slots, node w.tree path = some (.file z) ∧ crates.openZip z = .ok slots ∧
      slots.length ≤ maxZipEntries ∧ n = (fileEntries slots).length ∧ declared slots ≤ maxTotalUncompressed ∧
      ∃ v, v.tree = w.tree ∧ Extracted crates slots v w' := by
  unfold extractZip at h
  obtain ⟨⟨⟩, v, haccess, h⟩ := bind_eq_ok_iff.mp h
  rw [gets_bind, access_eq_ok haccess] at h
  rcases hfile : node w.tree path with _ | z | _ <;> rw [hfile] at h
  · cases h
  · change (orReturn ((crates.openZip z).mapError .zip) >>= extractSlots crates faults) v = _ at h
    rcases hslots : crates.openZip z with e | slots <;> rw [hslots] at h
    · cases h
    · change extractSlots crates faults slots v = _ at h
      unfold extractSlots at h
      split_ifs at h with hlen
      · cases h
      · rcases hboundary : crates.boundary with _ | e <;> rw [hboundary] at h
        · obtain ⟨hslots', hn, hle⟩ := extractEntries_eq_ok h (Nat.zero_le _)
          rw [Nat.zero_add] at hn hle
          exact ⟨z, slots, rfl, hslots, not_lt.mp hlen, hn, hle, v, access_eq_ok haccess, hslots'⟩
        · cases h
  · cases h

/-! ### The package -/

/-- What is in the content tree once an archive has been installed: all of its files, and no more than the limits
allow. -/
structure Installed (crates : Crates) (slots : List (Except Text ZipEntry)) (w : DownloadWorld) : Prop where
  readable : ∀ slot ∈ slots, ∃ entry, slot = .ok entry
  whole : ∀ entry ∈ fileEntries slots, entry.stream.error = none ∧ ∃ dst, crates.joinContent entry.name = .ok dst
  written : ∀ p entry, p ≠ zipPath → p ≠ manifestPath → lastEntry crates p (fileEntries slots) = some entry →
    w.tree p = some (.file entry.stream.delivered)
  count : slots.length ≤ maxZipEntries
  total : declared slots ≤ maxTotalUncompressed
  reported : w.log.getLast? = some (.complete (fileEntries slots).length)

variable {network : Network} {setting : Setting} {package : DownloadPackage}

/-- The steps of a download that succeeds. -/
theorem downloadPackage_eq_ok {w w' : DownloadWorld}
    (h : downloadPackage network crates setting faults package w = (.ok (), w')) :
    ∃ urls w₁ v files u t s,
      downloadToFile network crates faults urls zipPath package.sizeHint package.sha1 w₁ = (.ok (), v) ∧
        extractZip crates faults zipPath v = (.ok files, u) ∧
        writeContentManifest crates setting faults package u = (.ok (), t) ∧
        ignore (removeFile faults zipPath) t = (.ok (), s) ∧ onProgress faults (.complete files) s = (.ok (), w') := by
  unfold downloadPackage at h
  obtain ⟨_, _, -, h⟩ := bind_eq_ok_iff.mp h
  obtain ⟨_, w₁, -, h⟩ := bind_eq_ok_iff.mp h
  obtain ⟨⟨⟩, v, hfetch, h⟩ := bind_eq_ok_iff.mp h
  obtain ⟨files, u, hextract, h⟩ := bind_eq_ok_iff.mp h
  obtain ⟨⟨⟩, t, hmanifest, h⟩ := bind_eq_ok_iff.mp h
  obtain ⟨⟨⟩, s, hremove, h⟩ := bind_eq_ok_iff.mp h
  exact ⟨_, w₁, v, files, u, t, s, hfetch, hextract, hmanifest, hremove, h⟩

/-- The removal of the archive leaves everything else as it is. -/
theorem ignore_removeFile_kept {p : Path} {t s : DownloadWorld} (hp : p ≠ zipPath)
    (h : ignore (removeFile faults zipPath) t = (.ok (), s)) : s.tree p = t.tree p := by
  have hs := leaves_ignore (@leaves_removeFile {zipPath} (fun _ _ => False) faults zipPath rfl) t p
  rw [h] at hs
  exact hs.resolve_right (not_or.mpr ⟨hp, id⟩)

/-- So does the manifest. -/
theorem writeContentManifest_kept {p : Path} {u t : DownloadWorld} (hp : p ≠ manifestPath)
    (h : writeContentManifest crates setting faults package u = (.ok (), t)) : t.tree p = u.tree p := by
  have ht := @leaves_writeContentManifest {manifestPath} (fun _ _ => False) faults crates setting package rfl u p
  rw [h] at ht
  exact ht.resolve_right (not_or.mpr ⟨hp, id⟩)

/-- **A download that succeeds has installed the archive**, and the archive has the hash of the package. -/
theorem downloadPackage_installs {w w' : DownloadWorld}
    (h : downloadPackage network crates setting faults package w = (.ok (), w')) :
    ∃ z slots, (∀ hash ∈ package.sha1, toHex (crates.sha1 z) = hash) ∧ crates.openZip z = .ok slots ∧
      Installed crates slots w' := by
  obtain ⟨urls, w₁, v, files, u, t, s, hfetch, hextract, hmanifest, hremove, hreport⟩ := downloadPackage_eq_ok h
  obtain ⟨data, hdata, hhash⟩ := downloadToFile_eq_ok hfetch
  obtain ⟨z, slots, hz, hslots, hcount, hn, htotal, v', -, hextracted⟩ := extractZip_eq_ok hextract
  rw [show node v.tree zipPath = v.tree zipPath from rfl, hdata] at hz
  cases hz
  obtain ⟨htree, hlog⟩ := onProgress_eq_ok hreport
  refine ⟨data, slots, hhash, hslots, hextracted.readable, hextracted.whole, ?_, hcount, htotal, ?_⟩
  · intro p entry hzip hman hentry
    rw [htree, ignore_removeFile_kept hzip hremove, writeContentManifest_kept hman hmanifest,
      hextracted.written p entry hentry]
  · rw [hlog, List.getLast?_concat, hn]

end CncContent.Content.Installation
