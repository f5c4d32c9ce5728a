import CncContent.Lib.Bounded
import CncContent.Lib.PrefixFree
import CncContent.Manifest.Group

/-! # The signed bytes of a manifest

`canonical_bytes` of the source: the fields of fixed size one after the other, then the number of the
entries and the entries, whose paths stand behind their length. As long as the counts fit into 32 bits,
the bytes determine all fields but the signature, and they do not depend on the order in which the
entries were added (`canonicalBytes_law`). -/

namespace CncContent.Manifest.CanonicalBytes

open CncContent.Lib.Bounded CncContent.Lib.Bytes CncContent.Lib.PrefixFree CncContent.Manifest.Group

/-- A length `as u32`, little-endian. -/
def countBytes (n : ℕ) : List UInt8 := toLe 4 (asU32 n)

/-- A path behind its length. -/
def pathBytes (path : List UInt8) : List UInt8 := countBytes path.length ++ path

def infoHashBytes : Option (Vector UInt8 20) → List UInt8
  | some h => 1 :: h.toList
  | none => [0]

def entryBytes (entry : ContentEntry) : List UInt8 :=
  pathBytes entry.path ++ (entry.contentHash.toList ++
    (toLe 8 entry.fileSize.toNat ++ infoHashBytes entry.infoHash))

def canonicalBytes (m : GroupManifest) : List UInt8 :=
  toLe 8 m.version.toNat ++ (m.networkId.toList ++ (toLe 8 m.createdAt.toNat ++
    (countBytes m.entries.length ++ m.entries.flatMap entryBytes)))

/-! ### The fields -/

theorem prefixFree_countBytes : PrefixFreeOn {n | n < 2 ^ 32} countBytes := by
  refine prefixFreeOn_of_length (fun _ _ => length_toLe 4 _) fun m hm n hn h => ?_
  have hlt : ∀ n, asU32 n < 256 ^ 4 := asU32_lt
  have hnumber := congrArg ofLe h
  unfold countBytes at hnumber
  rw [ofLe_toLe (hlt m), ofLe_toLe (hlt n)] at hnumber
  rwa [asU32_of_lt hm, asU32_of_lt hn] at hnumber

theorem prefixFree_pathBytes : PrefixFreeOn {path | path.length < 2 ^ 32} pathBytes :=
  prefixFreeOn_counted prefixFree_countBytes

theorem prefixFree_uint64 : PrefixFreeOn Set.univ fun n : UInt64 => toLe 8 n.toNat := by
  refine prefixFreeOn_of_length (fun _ _ => length_toLe 8 _) fun a _ b _ h => ?_
  have hnumber := congrArg ofLe h
  rw [ofLe_toLe a.toNat_lt, ofLe_toLe b.toNat_lt] at hnumber
  exact UInt64.toNat_inj.mp hnumber

theorem prefixFree_infoHashBytes :
    PrefixFreeOn {o : Option (Vector UInt8 20) | ∀ h ∈ o, h ∈ Set.univ} infoHashBytes :=
  prefixFreeOn_option rfl (fun _ => rfl) (by decide) (prefixFreeOn_vector 20)

/-- **An entry** is read off the bytes that start with it. -/
theorem prefixFree_entryBytes : PrefixFreeOn {e | e.path.length < 2 ^ 32} entryBytes := by
  intro a ha b hb x y h
  unfold entryBytes at h
  simp only [List.append_assoc] at h
  obtain ⟨hpath, h⟩ := prefixFree_pathBytes ha hb h
  obtain ⟨hhash, h⟩ := prefixFreeOn_vector 32 trivial trivial h
  obtain ⟨hsize, h⟩ := prefixFree_uint64 trivial trivial h
  obtain ⟨hinfo, h⟩ := prefixFree_infoHashBytes (fun _ _ => trivial) (fun _ _ => trivial) h
  exact ⟨ContentEntry.ext hpath hhash hsize hinfo, h⟩

/-- The lengths that fit into 32 bits. -/
structure Small (m : GroupManifest) : Prop where
  count : m.entries.length < 2 ^ 32
  paths : ∀ e ∈ m.entries, e.path.length < 2 ^ 32

theorem canonicalBytes_inj {m m' : GroupManifest} (hm : Small m) (hm' : Small m')
    (h : canonicalBytes m = canonicalBytes m') :
    m.version = m'.version ∧ m.networkId = m'.networkId ∧ m.createdAt = m'.createdAt ∧
      m.entries = m'.entries := by
  obtain ⟨hversion, h⟩ := prefixFree_uint64 trivial trivial h
  obtain ⟨hnetwork, h⟩ := prefixFreeOn_vector 32 trivial trivial h
  obtain ⟨hcreated, h⟩ := prefixFree_uint64 trivial trivial h
  obtain ⟨hcount, h⟩ := prefixFree_countBytes hm.count hm'.count h
  rw [← List.append_nil (m.entries.flatMap entryBytes),
    ← List.append_nil (m'.entries.flatMap entryBytes)] at h
  obtain ⟨hentries, -⟩ := prefixFreeOn_flatMap prefixFree_entryBytes m'.entries.length
    ⟨hcount, hm.paths⟩ ⟨rfl, hm'.paths⟩ h
  exact ⟨hversion, hnetwork, hcreated, hentries⟩

theorem foldl_addEntry : ∀ (entries : List ContentEntry) (b : ManifestBuilder),
    entries.foldl ManifestBuilder.addEntry b = { b with entries := b.entries ++ entries }
  | [], b => by rw [List.foldl_nil, List.append_nil]
  | e :: entries, b => by
    rw [List.foldl_cons, foldl_addEntry entries, ManifestBuilder.addEntry, List.append_assoc]
    rfl

/-- **The signed bytes** determine what was built, whatever the builders, and the order of the calls of
`add_entry` does not change them. -/
theorem canonicalBytes_law :
    (∀ (b b' : ManifestBuilder) (m m' : GroupManifest), b.build = .ok m → b'.build = .ok m' →
      Small m → Small m' →
      canonicalBytes m = canonicalBytes m' →
        m.version = m'.version ∧ m.networkId = m'.networkId ∧ m.createdAt = m'.createdAt ∧
          m.entries = m'.entries) ∧
    ∀ (b : ManifestBuilder) (entries entries' : List ContentEntry), entries.Perm entries' →
      (entries.foldl ManifestBuilder.addEntry b).build.map canonicalBytes =
        (entries'.foldl ManifestBuilder.addEntry b).build.map canonicalBytes := by
  refine ⟨fun _ _ _ _ _ _ => canonicalBytes_inj, fun b entries entries' h => ?_⟩
  rw [foldl_addEntry, foldl_addEntry, build_perm b (h.append_left b.entries)]

/-- A map and a movie. -/
def smallMap : ContentEntry :=
  ⟨text "maps/a.mix", Vector.replicate 32 0xAA, 100, none, by decide +kernel⟩

def smallMovie : ContentEntry :=
  ⟨text "movies/b.vqa", Vector.replicate 32 0xBB, 200, some (Vector.replicate 20 0xCC), by
    decide +kernel⟩

/-- A builder of version 1. -/
def firstVersion : ManifestBuilder := (GroupManifest.builder (Vector.replicate 32 0)).setVersion 1

theorem canonicalBytes_law_two_entries : ∃ m m',
    ([smallMap, smallMovie].foldl ManifestBuilder.addEntry firstVersion).build = .ok m ∧
    ([smallMovie, smallMap].foldl ManifestBuilder.addEntry firstVersion).build = .ok m' ∧
    canonicalBytes m = canonicalBytes m' ∧ m.entries = m'.entries := by
  obtain ⟨hinj, horder⟩ := canonicalBytes_law
  have hm : ∃ m, ([smallMap, smallMovie].foldl ManifestBuilder.addEntry firstVersion).build = .ok m ∧
      Small m := ⟨_, rfl, by decide +kernel, by decide +kernel⟩
  have hm' : ∃ m, ([smallMovie, smallMap].foldl ManifestBuilder.addEntry firstVersion).build = .ok m ∧
      Small m := ⟨_, rfl, by decide +kernel, by decide +kernel⟩
  obtain ⟨m, hbuild, hsmall⟩ := hm
  obtain ⟨m', hbuild', hsmall'⟩ := hm'
  have hbytes := horder firstVersion _ _ (List.Perm.swap smallMovie smallMap [])
  rw [hbuild, hbuild'] at hbytes
  have hsame := Except.ok.inj hbytes
  exact ⟨m, m', hbuild, hbuild', hsame, (hinj _ _ m m' hbuild hbuild' hsmall hsmall' hsame).2.2.2⟩

end CncContent.Manifest.CanonicalBytes
