import CncContent.Merkle.Build
import CncContent.Workshop.Package
import Mathlib.Data.List.Nodup

/-! # What is built can be read

A package that was built can be read back and is valid exactly if its manifest is not larger than
`read_manifest` allows (`round_trip_iff`), provided that the archive and the JSON can be read back:
`Zip.RoundTrips` and `Json.RoundTrips`. -/

namespace CncContent.Workshop.PackageRoundTrip

open CncContent.Lib.Bytes CncContent.Lib.Checks CncContent.Merkle.Build
open CncContent.Workshop.Package

/-- A file is added to an archive. -/
def addFile (zip : Zip) (w : zip.ZipWriter) (file : List UInt8 × List UInt8) :
    Except (List UInt8) zip.ZipWriter := do
  let w ← zip.startFile w file.1
  zip.writeAll w file.2

/-- An archive takes no two files of one name, and every file can be read from it. -/
structure ZipRoundTrips (zip : Zip) : Prop where
  distinct : ∀ (files : List (List UInt8 × List UInt8)) w,
    files.foldlM (addFile zip) zip.new = .ok w → (files.map Prod.fst).Nodup
  reads : ∀ (files : List (List UInt8 × List UInt8)) w archive,
    files.foldlM (addFile zip) zip.new = .ok w →
    zip.finish w = .ok archive → (files.map Prod.fst).Nodup →
      ∃ a, zip.openArchive archive = .ok a ∧
        ∀ file ∈ files, zip.byName a file.1 = .ok ⟨file.2.length, .ok file.2⟩

/-- What is printed is UTF-8, and parses to what was printed. -/
structure JsonRoundTrips (json : Json) : Prop where
  valid : ∀ manifest s, json.toStringPretty manifest = .ok s → validUtf8 s = true
  reads : ∀ manifest s, json.toStringPretty manifest = .ok s → json.fromStr s = .ok manifest

variable {sha256 : List UInt8 → Vector UInt8 32} {json : Json} {zip : Zip} {spec : PackageSpec}
  {files : List (List UInt8 × List UInt8)} {built : BuiltPackage}

/-! ### What is written -/

/-- The files of the archive. -/
def archived (manifestJson : List UInt8) (files : List (List UInt8 × List UInt8)) :
    List (List UInt8 × List UInt8) :=
  (text "manifest.json", manifestJson) :: files.map fun file => (assetName file.1, file.2)

theorem writeFile_eq_ok {w w' : zip.ZipWriter} {file : List UInt8 × List UInt8} :
    writeFile zip w file = .ok w' ↔ addFile zip w file = .ok w' := by
  unfold writeFile addFile
  rw [bind_eq_ok, bind_eq_ok]
  exact exists_congr fun _ => and_congr mapError_eq_ok mapError_eq_ok

theorem writeFiles_eq_ok : ∀ {files : List (List UInt8 × List UInt8)} {w w' : zip.ZipWriter},
    files.foldlM (fun w file => writeFile zip w (assetName file.1, file.2)) w = .ok w' ↔
      (files.map fun file => (assetName file.1, file.2)).foldlM (addFile zip) w = .ok w'
  | [], w, w' => by
    rw [List.map_nil, List.foldlM_nil, List.foldlM_nil]
    exact ⟨fun h => by cases h; rfl, fun h => by cases h; rfl⟩
  | file :: files, w, w' => by
    rw [List.map_cons, List.foldlM_cons, List.foldlM_cons, bind_eq_ok, bind_eq_ok]
    exact exists_congr fun _ => and_congr writeFile_eq_ok writeFiles_eq_ok

/-- **What `build_package` has done** when it succeeds. -/
theorem buildPackage_ok (h : buildPackage sha256 json zip spec files = .ok built) :
    built.manifest = packageMeta sha256 spec files ∧
      (∀ file ∈ files, validateAssetPath file.1 = .ok ()) ∧
        ∃ manifestJson w, json.toStringPretty built.manifest = .ok manifestJson ∧
          (archived manifestJson files).foldlM (addFile zip) zip.new = .ok w ∧
            zip.finish w = .ok built.archive := by
  unfold buildPackage at h
  obtain ⟨_, hpaths, h⟩ := bind_eq_ok.mp h
  obtain ⟨manifestJson, hjson, h⟩ := bind_eq_ok.mp h
  obtain ⟨w₁, hfirst, h⟩ := bind_eq_ok.mp h
  obtain ⟨w, hfiles, h⟩ := bind_eq_ok.mp h
  obtain ⟨archive, hfinish, h⟩ := bind_eq_ok.mp h
  cases h
  refine ⟨rfl, forM_eq_ok.mp hpaths, manifestJson, w, mapError_eq_ok.mp hjson, ?_,
    mapError_eq_ok.mp hfinish⟩
  unfold archived
  rw [List.foldlM_cons, bind_eq_ok]
  exact ⟨w₁, writeFile_eq_ok.mp hfirst, writeFiles_eq_ok.mp hfiles⟩

/-! ### What is read -/

variable {archive manifestJson : List UInt8} {manifest : PackageMeta} {a : zip.ZipArchive}

/-- A manifest that is too large is refused. -/
theorem readManifest_of_lt (json : Json) (hopen : zip.openArchive archive = .ok a)
    (hfile : zip.byName a (text "manifest.json") = .ok ⟨manifestJson.length, .ok manifestJson⟩)
    (hlt : maxManifestSize < manifestJson.length) :
    ∃ message, readManifest json zip archive = .error (.manifestParse message) := by
  unfold readManifest
  simp only [hopen, Except.mapError, bind, Except.bind, hfile, refuse, decide_eq_true hlt, if_true]
  exact ⟨_, rfl⟩

/-- One that is not is read back. -/
theorem readManifest_of_le (hjson : JsonRoundTrips json) (hopen : zip.openArchive archive = .ok a)
    (hfile : zip.byName a (text "manifest.json") = .ok ⟨manifestJson.length, .ok manifestJson⟩)
    (hprint : json.toStringPretty manifest = .ok manifestJson)
    (hpaths : ∀ entry ∈ manifest.files, validateAssetPath entry.path = .ok ())
    (hle : manifestJson.length ≤ maxManifestSize) :
    readManifest json zip archive = .ok manifest := by
  have hsize : decide (maxManifestSize < manifestJson.length) = false :=
    decide_eq_false (not_lt.mpr hle)
  have hread : (⟨manifestJson.length, .ok manifestJson⟩ : ZipFile).readToString =
      .ok manifestJson := by
    refine bind_eq_ok.mpr ⟨_, rfl, bind_eq_ok.mpr ⟨(), refuse_eq_ok.mpr ?_, rfl⟩⟩
    rw [hjson.valid _ _ hprint, Bool.not_true]
  refine bind_eq_ok.mpr ⟨a, mapError_eq_ok.mpr hopen, bind_eq_ok.mpr ⟨_, mapError_eq_ok.mpr hfile, ?_⟩⟩
  refine bind_eq_ok.mpr ⟨(), refuse_eq_ok.mpr hsize, bind_eq_ok.mpr ⟨_, mapError_eq_ok.mpr hread, ?_⟩⟩
  refine bind_eq_ok.mpr ⟨(), refuse_eq_ok.mpr hsize, ?_⟩
  refine bind_eq_ok.mpr ⟨manifest, mapError_eq_ok.mpr (hjson.reads _ _ hprint), ?_⟩
  exact bind_eq_ok.mpr ⟨(), forM_eq_ok.mpr hpaths, rfl⟩

/-- The files that were packed have their checksums. -/
theorem checkFiles_packed : ∀ {files : List (List UInt8 × List UInt8)},
    (∀ file ∈ files, zip.byName a (assetName file.1) = .ok ⟨file.2.length, .ok file.2⟩) →
      checkFiles sha256 zip a (files.map (fileEntry sha256)) = .ok []
  | [], _ => rfl
  | file :: files, h => by
    obtain ⟨hfile, hfiles⟩ := List.forall_mem_cons.mp h
    rw [List.map_cons, checkFiles]
    refine bind_eq_ok.mpr ⟨_, mapError_eq_ok.mpr hfile, bind_eq_ok.mpr ⟨file.2, rfl, ?_⟩⟩
    have hsame : toHex (sha256 file.2).toList = (fileEntry sha256 file).sha256 := rfl
    refine bind_eq_ok.mpr ⟨[], checkFiles_packed hfiles, ?_⟩
    rw [if_pos hsame]
    rfl

/-- **What can be read of a built package**: the JSON of its manifest, and its files. -/
theorem built_reads (hzip : ZipRoundTrips zip)
    (hbuild : buildPackage sha256 json zip spec files = .ok built) :
    ∃ manifestJson a, json.toStringPretty built.manifest = .ok manifestJson ∧
      zip.openArchive built.archive = .ok a ∧
        zip.byName a (text "manifest.json") = .ok ⟨manifestJson.length, .ok manifestJson⟩ ∧
          ∀ file ∈ files, zip.byName a (assetName file.1) = .ok ⟨file.2.length, .ok file.2⟩ := by
  obtain ⟨-, -, manifestJson, w, hprint, hwrite, hfinish⟩ := buildPackage_ok hbuild
  obtain ⟨a, hopen, hreads⟩ :=
    hzip.reads _ w built.archive hwrite hfinish (hzip.distinct _ w hwrite)
  refine ⟨manifestJson, a, hprint, hopen, hreads _ List.mem_cons_self, fun file hmem => ?_⟩
  exact hreads (assetName file.1, file.2) (List.mem_cons_of_mem _ (List.mem_map_of_mem hmem))

/-- A package whose manifest and files can be read is valid. -/
theorem validatePackage_packed (hread : readManifest json zip archive = .ok manifest)
    (hopen : zip.openArchive archive = .ok a) (hmanifest : manifest = packageMeta sha256 spec files)
    (hfiles : ∀ file ∈ files, zip.byName a (assetName file.1) = .ok ⟨file.2.length, .ok file.2⟩) :
    validatePackage sha256 json zip archive = .ok ⟨files.length, []⟩ := by
  have hcheck : checkFiles sha256 zip a manifest.files = .ok [] := by
    rw [hmanifest]
    exact checkFiles_packed hfiles
  have hlength : manifest.files.length = files.length := by
    rw [hmanifest]
    exact List.length_map _
  refine bind_eq_ok.mpr ⟨manifest, hread, bind_eq_ok.mpr ⟨a, mapError_eq_ok.mpr hopen, ?_⟩⟩
  refine bind_eq_ok.mpr ⟨[], hcheck, ?_⟩
  rw [hlength]
  rfl

/-- **When what is built can be read**: exactly if its manifest is not too large to be read. -/
theorem round_trip_iff (sha256 : List UInt8 → Vector UInt8 32) (json : Json) (zip : Zip)
    (spec : PackageSpec) (files : List (List UInt8 × List UInt8)) (built : BuiltPackage)
    (hjson : JsonRoundTrips json) (hzip : ZipRoundTrips zip)
    (hbuild : buildPackage sha256 json zip spec files = .ok built) :
    (readManifest json zip built.archive = .ok built.manifest ∧
        ∃ r, validatePackage sha256 json zip built.archive = .ok r ∧ r.isValid = true ∧
          r.filesChecked = files.length) ↔
      ∀ manifestJson, json.toStringPretty (packageMeta sha256 spec files) = .ok manifestJson →
        manifestJson.length ≤ maxManifestSize := by
  obtain ⟨hmanifest, hpaths, -⟩ := buildPackage_ok hbuild
  obtain ⟨manifestJson, a, hprint, hopen, hfile, hfiles⟩ := built_reads hzip hbuild
  rw [← hmanifest]
  constructor
  · rintro ⟨hread, -⟩ s hs
    rw [hprint] at hs
    cases hs
    by_contra hlt
    obtain ⟨message, herror⟩ := readManifest_of_lt json hopen hfile (not_le.mp hlt)
    rw [hread] at herror
    cases herror
  · intro hle
    have hentries : ∀ entry ∈ built.manifest.files, validateAssetPath entry.path = .ok () := by
      rw [hmanifest]
      exact List.forall_mem_map.mpr hpaths
    have hread := readManifest_of_le hjson hopen hfile hprint hentries (hle _ hprint)
    exact ⟨hread, _, validatePackage_packed hread hopen hmanifest hfiles, rfl, rfl⟩

/-! ### A simple archive -/

/-- Byte strings one after another: two bytes for every byte, and two zeros at the end of each. -/
def pack : List (List UInt8) → List UInt8
  | [] => []
  | s :: rest => s.flatMap (fun b => [1, b]) ++ 0 :: 0 :: pack rest

/-- The byte strings, behind what has been read of the first. -/
def unpack (read : List UInt8) : List UInt8 → List (List UInt8)
  | tag :: b :: rest => if tag = 1 then unpack (read ++ [b]) rest else read :: unpack [] rest
  | _ => []

/-- A list of names and contents, taken two by two. -/
def pairUp : List (List UInt8) → List (List UInt8 × List UInt8)
  | name :: content :: rest => (name, content) :: pairUp rest
  | _ => []

/-- An archive that is not compressed; the last file that was started comes first. -/
abbrev boxZip : Zip where
  ZipWriter := List (List UInt8 × List UInt8)
  new := []
  startFile w name :=
    if name ∈ w.map Prod.fst then
      .error (text "invalid Zip archive: Duplicate filename: " ++ name)
    else .ok ((name, []) :: w)
  writeAll
    | [], _ => .error (text "No file has been started")
    | (name, content) :: w, data => .ok ((name, content ++ data) :: w)
  finish w := .ok (pack (w.reverse.flatMap fun file => [file.1, file.2]))
  ZipArchive := List (List UInt8 × List UInt8)
  openArchive archive := .ok (pairUp (unpack [] archive))
  byName a name :=
    match a.find? fun file => file.1 == name with
    | some file => .ok ⟨file.2.length, .ok file.2⟩
    | none => .error (text "specified file not found in archive")

theorem unpack_string : ∀ (s read rest : List UInt8),
    unpack read (s.flatMap (fun b => [1, b]) ++ 0 :: 0 :: rest) = (read ++ s) :: unpack [] rest
  | [], read, rest => by
    rw [List.append_nil]
    rfl
  | b :: s, read, rest => by
    have hstep : unpack read ((b :: s).flatMap (fun b => [1, b]) ++ 0 :: 0 :: rest) =
        unpack (read ++ [b]) (s.flatMap (fun b => [1, b]) ++ 0 :: 0 :: rest) := rfl
    rw [hstep, unpack_string s, List.append_assoc]
    rfl

theorem unpack_pack : ∀ l : List (List UInt8), unpack [] (pack l) = l
  | [] => rfl
  | s :: l => by rw [pack, unpack_string, unpack_pack l, List.nil_append]

theorem pairUp_flatMap : ∀ files : List (List UInt8 × List UInt8),
    pairUp (files.flatMap fun file => [file.1, file.2]) = files
  | [] => rfl
  | file :: files => congrArg (file :: ·) (pairUp_flatMap files)

/-- What is in the archive after some files, and that their names differ. -/
theorem foldlM_boxZip : ∀ {files w w' : List (List UInt8 × List UInt8)},
    files.foldlM (addFile boxZip) w = .ok w' → (w.map Prod.fst).Nodup →
      w' = files.reverse ++ w ∧ (w'.map Prod.fst).Nodup
  | [], w, w', h, hw => by
    cases h
    exact ⟨rfl, hw⟩
  | file :: files, w, w', h, hw => by
    rw [List.foldlM_cons] at h
    obtain ⟨w₁, hadd, h⟩ := bind_eq_ok.mp h
    obtain ⟨w₀, hstart, hwrite⟩ := bind_eq_ok.mp hadd
    by_cases hmem : file.1 ∈ w.map Prod.fst
    · have herror : boxZip.startFile w file.1 =
          .error (text "invalid Zip archive: Duplicate filename: " ++ file.1) := if_pos hmem
      rw [herror] at hstart
      cases hstart
    · have hok : boxZip.startFile w file.1 = .ok ((file.1, []) :: w) := if_neg hmem
      rw [hok] at hstart
      cases hstart
      cases hwrite
      obtain ⟨rfl, hnodup⟩ := foldlM_boxZip h (List.nodup_cons.mpr ⟨hmem, hw⟩)
      refine ⟨?_, hnodup⟩
      rw [List.reverse_cons, List.append_assoc]
      rfl

theorem boxZip_byName : ∀ {a : List (List UInt8 × List UInt8)}, (a.map Prod.fst).Nodup →
    ∀ file ∈ a, boxZip.byName a file.1 = .ok ⟨file.2.length, .ok file.2⟩ := by
  intro a hnodup file hfile
  have hfind : a.find? (fun f => f.1 == file.1) = some file := by
    obtain ⟨f, hf⟩ : ∃ f, a.find? (fun f => f.1 == file.1) = some f :=
      Option.isSome_iff_exists.mp (List.find?_isSome.mpr ⟨file, hfile, beq_self_eq_true file.1⟩)
    have hname := List.find?_some hf
    rw [hf, List.inj_on_of_nodup_map hnodup (List.mem_of_find?_eq_some hf) hfile (eq_of_beq hname)]
  have hby : boxZip.byName a file.1 = match a.find? fun f => f.1 == file.1 with
      | some f => .ok ⟨f.2.length, .ok f.2⟩
      | none => .error (text "specified file not found in archive") := rfl
  rw [hby, hfind]

theorem boxZip_roundTrips : ZipRoundTrips boxZip where
  distinct files w h := by
    obtain ⟨rfl, hnodup⟩ := foldlM_boxZip h List.nodup_nil
    rw [List.append_nil, List.map_reverse, List.nodup_reverse] at hnodup
    exact hnodup
  reads files w archive h hfinish hnodup := by
    obtain ⟨rfl, -⟩ := foldlM_boxZip h List.nodup_nil
    cases hfinish
    refine ⟨_, rfl, ?_⟩
    rw [unpack_pack, pairUp_flatMap, List.append_nil, List.reverse_reverse]
    exact boxZip_byName hnodup

/-! ### Two packages -/

/-- JSON for one manifest, and no other. -/
def jsonOf (manifest : PackageMeta) (s : List UInt8) : Json where
  toStringPretty m := if m = manifest then .ok s else .error (text "another manifest")
  fromStr s' := if s' = s then .ok manifest else .error (text "another text")

theorem jsonOf_toStringPretty (manifest : PackageMeta) (s : List UInt8) :
    (jsonOf manifest s).toStringPretty manifest = .ok s := by
  unfold jsonOf
  exact if_pos rfl

theorem jsonOf_roundTrips {manifest : PackageMeta} {s : List UInt8} (h : validUtf8 s = true) :
    JsonRoundTrips (jsonOf manifest s) where
  valid m s' hs := by
    unfold jsonOf at hs
    dsimp only at hs
    split_ifs at hs
    cases hs
    exact h
  reads m s' hs := by
    unfold jsonOf at hs ⊢
    dsimp only at hs ⊢
    split_ifs at hs with hm
    cases hs
    rw [if_pos rfl, hm]

/-- SHA-256 of the empty file and of the archives of the two packages. -/
def sha256Of (data : List UInt8) : Digest :=
  if data = [] then emptyHash
  else if data.length = 670 then
    #v[0xEC, 0x15, 0x83, 0x77, 0x30, 0x40, 0xD8, 0x2E, 0x44, 0x8F, 0x65, 0x87, 0x7B, 0x16, 0xE7, 0x85,
      0x25, 0x8A, 0x9C, 0xFD, 0x1A, 0x93, 0xF4, 0xC4, 0x17, 0xBD, 0x4E, 0x4E, 0x8B, 0xC9, 0x6B, 0xB0]
  else
    #v[0xA8, 0xE6, 0x63, 0xBC, 0x12, 0x6F, 0x91, 0xBD, 0xC7, 0xA7, 0xD4, 0x71, 0xE6, 0x8E, 0x4F, 0xAD,
      0x61, 0x10, 0xC6, 0xEF, 0xD0, 0x39, 0x51, 0x7C, 0x52, 0xA0, 0xE3, 0xD9, 0x3B, 0x36, 0x4D, 0xDD]

/-- `test_spec`, with any description. -/
def testSpec (description : List UInt8) : PackageSpec where
  name := text "test-mod"
  publisher := text "alice"
  version := text "1.0.0"
  license := text "MIT"
  description := some description
  engineVersion := none
  dependencies := []

/-- The JSON of the manifest, with the JSON of its files. -/
def testJson (description files : List UInt8) : List UInt8 :=
  text "\x7b\n  \"name\": \"test-mod\",\n  \"publisher\": \"alice\",\n  \"version\": \"1.0.0\",\n" ++
    (text "  \"license\": \"MIT\",\n  \"description\": \"" ++ (description ++
      (text "\",\n  \"files\": [" ++ (files ++ text "],\n  \"dependencies\": []\n\x7d"))))

/-- The JSON of an empty file. -/
def testFileJson : List UInt8 :=
  text "\n    \x7b\n      \"path\": \"test.txt\",\n" ++
    (text "      \"sha256\": \"" ++ (toHex emptyHash.toList ++
      text "\",\n      \"size\": 0\n    \x7d\n  "))

theorem validUtf8_testJson {description files : List UInt8} (hd : ∀ b ∈ description, b < 0x80)
    (hf : ∀ b ∈ files, b < 0x80) : validUtf8 (testJson description files) = true := by
  refine validUtf8_of_ascii ?_
  unfold testJson
  simp only [List.forall_mem_append]
  exact ⟨ascii_of_all (by decide +kernel), ascii_of_all (by decide +kernel), hd, ascii_of_all (by decide +kernel), hf,
    ascii_of_all (by decide +kernel)⟩

/-- JSON for a package with one file, which is empty. -/
def smallJson : Json :=
  jsonOf (packageMeta sha256Of (testSpec (text "A test package")) [(text "test.txt", [])])
    (testJson (text "A test package") testFileJson)

theorem smallJson_roundTrips : JsonRoundTrips smallJson :=
  jsonOf_roundTrips (validUtf8_testJson (ascii_of_all (by decide +kernel)) (ascii_of_all (by decide +kernel)))

theorem round_trip_iff_small : ∃ built,
    buildPackage sha256Of smallJson boxZip (testSpec (text "A test package"))
        [(text "test.txt", [])] = .ok built ∧
      readManifest smallJson boxZip built.archive = .ok built.manifest ∧
        ∃ r, validatePackage sha256Of smallJson boxZip built.archive = .ok r ∧ r.isValid = true ∧
          r.filesChecked = 1 := by
  have hok : (buildPackage sha256Of smallJson boxZip (testSpec (text "A test package"))
      [(text "test.txt", [])]).isOk = true := by decide +kernel
  rcases hbuild : buildPackage sha256Of smallJson boxZip (testSpec (text "A test package"))
      [(text "test.txt", [])] with e | built
  · rw [hbuild] at hok
    cases hok
  · refine ⟨built, rfl, (round_trip_iff sha256Of smallJson boxZip (testSpec (text "A test package"))
      [(text "test.txt", [])] built smallJson_roundTrips boxZip_roundTrips hbuild).mpr ?_⟩
    intro manifestJson hprint
    have hsmall : smallJson.toStringPretty (packageMeta sha256Of (testSpec (text "A test package"))
        [(text "test.txt", [])]) = .ok (testJson (text "A test package") testFileJson) :=
      jsonOf_toStringPretty _ _
    rw [hsmall] at hprint
    cases hprint
    decide +kernel

/-- A package without files is the manifest alone. -/
theorem buildPackage_boxZip {s : List UInt8}
    (hprint : json.toStringPretty (packageMeta sha256 spec []) = .ok s) :
    buildPackage sha256 json boxZip spec [] = .ok ⟨pack [text "manifest.json", s],
      sha256 (pack [text "manifest.json", s]), packageMeta sha256 spec []⟩ := by
  refine bind_eq_ok.mpr ⟨(), rfl, bind_eq_ok.mpr ⟨s, mapError_eq_ok.mpr hprint, ?_⟩⟩
  exact bind_eq_ok.mpr ⟨[(text "manifest.json", s)], writeFile_eq_ok.mpr rfl, rfl⟩

/-- A description of more than a mebibyte. -/
def largeDescription : List UInt8 := List.replicate (maxManifestSize + 1) (byte 'a')

/-- JSON for a package with that description and no files. -/
def largeJson : Json :=
  jsonOf (packageMeta sha256Of (testSpec largeDescription) []) (testJson largeDescription [])

theorem lt_length_largeJson : maxManifestSize < (testJson largeDescription []).length := by
  have hlength : largeDescription.length = maxManifestSize + 1 := List.length_replicate
  unfold testJson
  simp only [List.length_append, hlength]
  omega

/-- **A package that cannot be read** is built without an error: its manifest is too large. -/
theorem large_manifest_refused : ∃ built message,
    buildPackage sha256Of largeJson boxZip (testSpec largeDescription) [] = .ok built ∧
      readManifest largeJson boxZip built.archive = .error (.manifestParse message) := by
  have hprint : largeJson.toStringPretty (packageMeta sha256Of (testSpec largeDescription) []) =
      .ok (testJson largeDescription []) := jsonOf_toStringPretty _ _
  have hbuild := buildPackage_boxZip hprint
  obtain ⟨manifestJson, a, hjson, hopen, hfile, -⟩ := built_reads boxZip_roundTrips hbuild
  rw [hprint] at hjson
  cases hjson
  obtain ⟨message, herror⟩ := readManifest_of_lt largeJson hopen hfile lt_length_largeJson
  exact ⟨_, message, hbuild, herror⟩

end CncContent.Workshop.PackageRoundTrip
