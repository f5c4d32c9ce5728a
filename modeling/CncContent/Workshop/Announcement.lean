import CncContent.Workshop.Resource

/-! # Version announcements

`VersionAnnouncement` of the source and the bytes that are signed. These determine all fields but the
signature, so that a signature can never be moved to another announcement
(`canonicalBytes_eq_iff`). -/

namespace CncContent.Workshop.Announcement

open CncContent.Lib.Bytes CncContent.Lib.PrefixFree CncContent.Workshop.Resource

/-- An Ed25519 public key. -/
abbrev PublisherId := Vector UInt8 32

/-- A SHA-256 content hash. -/
abbrev BlobId := Vector UInt8 32

abbrev Signature := Vector UInt8 64

/-- `Display` of a publisher: the first eight bytes. -/
def publisherText (publisher : PublisherId) : List UInt8 :=
  text "pub:" ++ toHex (publisher.toList.take 8)

structure VersionAnnouncement where
  publisherId : PublisherId
  resource : ResourceId
  version : ResourceVersion
  blobId : BlobId
  infoHash : Option (Vector UInt8 20)
  sequence : UInt64
  timestamp : UInt64
  signature : Signature
deriving DecidableEq

/-- A slug behind its length. -/
def slugBytes (slug : List UInt8) : List UInt8 := UInt8.ofNat slug.length :: slug

def versionBytes (version : ResourceVersion) : List UInt8 :=
  toBe 4 version.major.toNat ++ toBe 4 version.minor.toNat ++ toBe 4 version.patch.toNat

def infoHashBytes : Option (Vector UInt8 20) → List UInt8
  | some hash => 0x01 :: hash.toList
  | none => [0x00]

def VersionAnnouncement.canonicalBytes (a : VersionAnnouncement) : List UInt8 :=
  a.publisherId.toList ++ (slugBytes a.resource.publisher ++ (slugBytes a.resource.name ++
    (versionBytes a.version ++ (a.blobId.toList ++ (infoHashBytes a.infoHash ++
      (toBe 8 a.sequence.toNat ++ toBe 8 a.timestamp.toNat))))))

/-! ### The fields -/

/-- Slugs are short enough for a length of one byte. -/
theorem prefixFree_slugBytes : PrefixFreeOn {l : List UInt8 | l.length ≤ maxSlugLen} slugBytes := by
  have hcount : PrefixFreeOn {n | n ≤ maxSlugLen} fun n => [UInt8.ofNat n] := by
    refine prefixFreeOn_of_length (n := 1) (fun _ _ => rfl) fun m hm n hn h => ?_
    have hbyte := congrArg UInt8.toNat (List.head_eq_of_cons_eq h)
    rw [UInt8.toNat_ofNat', UInt8.toNat_ofNat'] at hbyte
    change m ≤ 64 at hm
    change n ≤ 64 at hn
    omega
  exact prefixFreeOn_counted hcount

theorem toBe_uint32_inj {a b : UInt32} (h : toBe 4 a.toNat = toBe 4 b.toNat) : a = b :=
  UInt32.toNat_inj.mp (toBe_injOn 4 a.toNat_lt b.toNat_lt h)

theorem prefixFree_versionBytes : PrefixFreeOn Set.univ versionBytes := by
  refine prefixFreeOn_of_length (n := 12) (fun v _ => ?_) fun v _ w _ h => ?_
  · unfold versionBytes
    rw [List.length_append, List.length_append, length_toBe, length_toBe, length_toBe]
  · unfold versionBytes at h
    obtain ⟨hleft, hpatch⟩ := List.append_inj h (by simp [length_toBe])
    obtain ⟨hmajor, hminor⟩ := List.append_inj hleft (by simp [length_toBe])
    exact ResourceVersion.ext (toBe_uint32_inj hmajor) (toBe_uint32_inj hminor)
      (toBe_uint32_inj hpatch)

theorem prefixFree_infoHashBytes : PrefixFreeOn Set.univ infoHashBytes := by
  have h : PrefixFreeOn {o | ∀ hash ∈ o, hash ∈ Set.univ} infoHashBytes :=
    prefixFreeOn_option rfl (fun _ => rfl) (by decide) (prefixFreeOn_vector 20)
  exact fun a _ b _ x y hxy => h (fun _ _ => trivial) (fun _ _ => trivial) hxy

theorem prefixFree_uint64 : PrefixFreeOn Set.univ fun n : UInt64 => toBe 8 n.toNat :=
  prefixFreeOn_of_length (fun _ _ => length_toBe _ _) fun a _ b _ h =>
    UInt64.toNat_inj.mp (toBe_injOn 8 a.toNat_lt b.toNat_lt h)

/-! ### The announcement -/

/-- **The signed bytes determine everything but the signature.** -/
theorem canonicalBytes_eq_iff (a b : VersionAnnouncement) :
    a.canonicalBytes = b.canonicalBytes ↔
      a.publisherId = b.publisherId ∧ a.resource = b.resource ∧ a.version = b.version ∧
      a.blobId = b.blobId ∧ a.infoHash = b.infoHash ∧ a.sequence = b.sequence ∧
      a.timestamp = b.timestamp := by
  constructor
  · intro h
    have hslug : ∀ {slug field}, validateSlug slug field = .ok () →
        slug ∈ {l : List UInt8 | l.length ≤ maxSlugLen} := fun h => (slug_of_valid h).1
    obtain ⟨hpublisher, h⟩ := prefixFreeOn_vector 32 trivial trivial h
    obtain ⟨hrp, h⟩ := prefixFree_slugBytes (hslug a.resource.publisher_valid)
      (hslug b.resource.publisher_valid) h
    obtain ⟨hrn, h⟩ := prefixFree_slugBytes (hslug a.resource.name_valid)
      (hslug b.resource.name_valid) h
    obtain ⟨hversion, h⟩ := prefixFree_versionBytes trivial trivial h
    obtain ⟨hblob, h⟩ := prefixFreeOn_vector 32 trivial trivial h
    obtain ⟨hinfo, h⟩ := prefixFree_infoHashBytes trivial trivial h
    obtain ⟨hsequence, h⟩ := prefixFree_uint64 trivial trivial h
    rw [← List.append_nil (toBe 8 a.timestamp.toNat),
      ← List.append_nil (toBe 8 b.timestamp.toNat)] at h
    obtain ⟨htimestamp, -⟩ := prefixFree_uint64 trivial trivial h
    exact ⟨hpublisher, ResourceId.ext hrp hrn, hversion, hblob, hinfo, hsequence, htimestamp⟩
  · rintro ⟨h1, h2, h3, h4, h5, h6, h7⟩
    unfold VersionAnnouncement.canonicalBytes
    rw [h1, h2, h3, h4, h5, h6, h7]

end CncContent.Workshop.Announcement
