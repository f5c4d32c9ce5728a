import CncContent.Lib.SemVer
import CncContent.Workshop.Blob
import CncContent.Workshop.Resolver
import Mathlib.Data.List.TakeWhile

/-! # Manifests of registry entries

`to_package_manifest` of the source turns an entry of the registry index into a manifest. The version
is read leniently, and a dependency whose identifier is not valid is left out: the manifest is true to
the entry exactly if neither happens (`faithful_iff`). -/

namespace CncContent.Workshop.Registry

open CncContent.Lib.Bytes CncContent.Lib.Checks CncContent.Lib.Decimal CncContent.Lib.SemVer
open CncContent.Workshop.Announcement (BlobId)
open CncContent.Workshop.Blob CncContent.Workshop.Resource CncContent.Workshop.Resolver

inductive RegistryError
  | invalidPackageName (name reason : List UInt8)
  | invalidVersion (version : List UInt8)
  | invalidChecksum (checksum : List UInt8)
deriving DecidableEq, Repr

structure Dependency where
  id : ResourceId
  versionReq : List UInt8
  optional : Bool
deriving DecidableEq

inductive Channel
  | dev
  | beta
  | release
deriving DecidableEq, Repr

structure PackageManifest where
  id : ResourceId
  version : ResourceVersion
  blobId : BlobId
  size : UInt64
  infoHash : Option (Vector UInt8 20)
  webSeeds : List (List UInt8)
  downloadUrls : List (List UInt8)
  dependencies : List Dependency
  channel : Channel
  categories : List (List UInt8)
deriving DecidableEq

def PackageManifest.new (id : ResourceId) (version : ResourceVersion) (blobId : BlobId)
    (size : UInt64) : PackageManifest where
  id := id
  version := version
  blobId := blobId
  size := size
  infoHash := none
  webSeeds := []
  downloadUrls := []
  dependencies := []
  channel := .release
  categories := []

def PackageManifest.withDependencies (m : PackageManifest) (deps : List Dependency) :
    PackageManifest :=
  { m with dependencies := deps }

/-- `Display` of an error. -/
def errorText : WorkshopError → List UInt8
  | .invalidIdentifier field value reason =>
    text "invalid " ++ text field ++ text ": \"" ++ value ++ text "\" " ++ [0xE2, 0x80, 0x94] ++
      text " " ++ text reason
  | .publisherRevoked publisher reason =>
    text "publisher " ++ publisher ++ text " is revoked: " ++ text reason
  | .futureTimestamp timestamp driftSecs maxDriftSecs =>
    text "announcement timestamp " ++ printNat timestamp ++ text " is " ++ printNat driftSecs ++
      text "s ahead of local time (max " ++ printNat maxDriftSecs ++ text "s)"
  | .invalidSignature publisher resource =>
    text "invalid signature on announcement from " ++ publisher ++ text " for " ++ resource
  | .staleAnnouncement resource received known =>
    text "stale announcement for " ++ resource ++ text ": sequence " ++ printNat received ++
      text " " ++ [0xE2, 0x89, 0xA4] ++ text " known " ++ printNat known
  | .sequenceJumpTooLarge resource oldSeq newSeq maxJump =>
    text "suspicious sequence jump for " ++ resource ++ text ": " ++ printNat oldSeq ++ text " " ++
      [0xE2, 0x86, 0x92] ++ text " " ++ printNat newSeq ++ text " (max jump " ++
      printNat maxJump ++ text ")"
  | .rateLimitExceeded publisher count windowSecs maxCount =>
    text "rate limit exceeded for " ++ publisher ++ text ": " ++ printNat count ++
      text " announcements in " ++ printNat windowSecs ++ text "s (max " ++ printNat maxCount ++
      text ")"

/-! ### The conversion -/

/-- `splitn`: at most as many pieces, the last of which may contain the separator. -/
def splitn (sep : UInt8) : ℕ → List UInt8 → List (List UInt8)
  | 0, _ => []
  | 1, s => [s]
  | n + 2, s =>
    match s.dropWhile (· ≠ sep) with
    | [] => [s]
    | _ :: rest => s.takeWhile (· ≠ sep) :: splitn sep (n + 1) rest

/-- `parse` to a `u32`. -/
def parseU32 (s : List UInt8) : Option UInt32 := (parseNat (2 ^ 32 - 1) s).map UInt32.ofNat

/-- What is behind a hyphen or a third dot is not read. -/
def parseResourceVersion (versionStr : List UInt8) : Except RegistryError ResourceVersion := do
  let parts := splitn (byte '.') 4 versionStr
  let majorStr ← okOr parts[0]? (.invalidVersion versionStr)
  let minorStr ← okOr parts[1]? (.invalidVersion versionStr)
  let patchAndPre ← okOr parts[2]? (.invalidVersion versionStr)
  let major ← okOr (parseU32 majorStr) (.invalidVersion versionStr)
  let minor ← okOr (parseU32 minorStr) (.invalidVersion versionStr)
  let patchStr := patchAndPre.takeWhile (· ≠ byte '-')
  let patch ← okOr (parseU32 patchStr) (.invalidVersion versionStr)
  pure ⟨major, minor, patch⟩

/-- The dependency of the manifest, if the identifier is valid. -/
def toDependency (d : RegistryDep) : Option Dependency :=
  (ResourceId.new d.publisher d.name).toOption.map fun id => ⟨id, d.req, d.optional⟩

/-- The checksum without its prefix. -/
def hashHex (cksum : List UInt8) : List UInt8 :=
  if text "sha256:" <+: cksum then cksum.drop 7 else cksum

def toPackageManifest (e : RegistryEntry) : Except RegistryError PackageManifest := do
  let id ← (ResourceId.new e.publisher e.name).mapError fun err =>
    .invalidPackageName e.fullName (errorText err)
  let version ← parseResourceVersion e.vers
  let blobId ← okOr (fromHex (hashHex e.cksum)) (.invalidChecksum e.cksum)
  let deps := e.deps.filterMap toDependency
  pure ((PackageManifest.new id version blobId 0).withDependencies deps)

/-! ### Pieces -/

theorem takeWhile_sep {sep : UInt8} {a rest : List UInt8} (ha : sep ∉ a) :
    (a ++ sep :: rest).takeWhile (· ≠ sep) = a :=
  takeWhile_append_stop (fun b hb => decide_eq_true (ne_of_mem_of_not_mem hb ha))
    fun b hb => by cases hb; simp

theorem splitn_append_cons {sep : UInt8} {n : ℕ} {a rest : List UInt8} (ha : sep ∉ a) :
    splitn sep (n + 2) (a ++ sep :: rest) = a :: splitn sep (n + 1) rest := by
  have hdrop : (a ++ sep :: rest).dropWhile (· ≠ sep) = sep :: rest := by
    have h := List.takeWhile_append_dropWhile (p := (· ≠ sep)) (l := a ++ sep :: rest)
    rw [takeWhile_sep ha] at h
    exact List.append_cancel_left h
  rw [splitn, hdrop, takeWhile_sep ha]

theorem splitn_of_notMem {sep : UInt8} {n : ℕ} {s : List UInt8} (h : sep ∉ s) :
    splitn sep (n + 1) s = [s] := by
  cases n with
  | zero => rfl
  | succ n =>
    have hdrop : s.dropWhile (· ≠ sep) = [] :=
      List.dropWhile_eq_nil_iff.mpr fun b hb => decide_eq_true (ne_of_mem_of_not_mem hb h)
    rw [splitn, hdrop]

/-- The first piece ends at the first separator. -/
theorem splitn_head (sep : UInt8) (n : ℕ) (s : List UInt8) :
    (splitn sep (n + 2) s)[0]? = some (s.takeWhile (· ≠ sep)) := by
  by_cases h : sep ∈ s
  · obtain ⟨a, rest, rfl, ha⟩ := List.eq_append_cons_of_mem h
    rw [splitn_append_cons ha, takeWhile_sep ha]
    rfl
  · rw [splitn_of_notMem h, List.takeWhile_eq_self_iff.mpr fun b hb =>
      decide_eq_true (ne_of_mem_of_not_mem hb h)]
    rfl

/-! ### Versions -/

theorem parseU32_eq_some_iff {s : List UInt8} {n : UInt32} : parseU32 s = some n ↔
    isNumeral (stripPlus s) = true ∧ value (stripPlus s) = n.toNat := by
  unfold parseU32
  simp only [Option.map_eq_some_iff, parseNat_eq_some_iff]
  have hlt := n.toNat_lt
  constructor
  · rintro ⟨k, ⟨hnum, hval, hle⟩, rfl⟩
    refine ⟨hnum, ?_⟩
    rw [hval, UInt32.toNat_ofNat']
    omega
  · rintro ⟨hnum, hval⟩
    exact ⟨n.toNat, ⟨hnum, hval, by omega⟩, UInt32.ofNat_toNat⟩

/-- Where the text of a number ends. -/
def isEnd (b : UInt8) : Bool := b == byte '.' || b == byte '-'

theorem not_isEnd_of_parseU32 {s : List UInt8} {n : UInt32} (h : parseU32 s = some n) :
    ∀ b ∈ s, isEnd b = false := by
  obtain ⟨hnum, -⟩ := parseU32_eq_some_iff.mp h
  have hdigit : ∀ b, isDigit b = true → isEnd b = false := by
    intro b hb
    unfold isEnd
    rw [Bool.or_eq_false_iff, beq_eq_false_iff_ne, beq_eq_false_iff_ne]
    constructor <;> rintro rfl <;> exact absurd hb (by decide)
  intro b hb
  rcases s with _ | ⟨c, s⟩
  · cases hb
  · have hstrip : stripPlus (c :: s) = if c = byte '+' then s else c :: s := rfl
    rw [hstrip] at hnum
    split_ifs at hnum with hplus
    · rcases List.mem_cons.mp hb with rfl | hb
      · rw [hplus]
        decide
      · exact hdigit b ((isNumeral_iff.mp hnum).2 b hb)
    · exact hdigit b ((isNumeral_iff.mp hnum).2 b hb)

theorem dot_notMem_of_parseU32 {s : List UInt8} {n : UInt32} (h : parseU32 s = some n) :
    byte '.' ∉ s := fun hmem =>
  absurd (not_isEnd_of_parseU32 h _ hmem) (by decide)

/-- Three parts between dots, the third up to a hyphen or another dot, and what is behind it. -/
structure Parts (vers a b c tail : List UInt8) : Prop where
  eq : vers = a ++ byte '.' :: (b ++ byte '.' :: (c ++ tail))
  stop : ∀ d ∈ tail.head?, isEnd d = true

/-- **What is read as a version.** -/
theorem parseResourceVersion_eq_ok_iff {vers : List UInt8} {v : ResourceVersion} :
    parseResourceVersion vers = .ok v ↔ ∃ a b c tail, Parts vers a b c tail ∧
      parseU32 a = some v.major ∧ parseU32 b = some v.minor ∧ parseU32 c = some v.patch := by
  have htake : ∀ r : List UInt8, (r.takeWhile (· ≠ byte '.')).takeWhile (· ≠ byte '-') =
      r.takeWhile fun b => !isEnd b := by
    intro r
    rw [List.takeWhile_takeWhile]
    congr 1
    funext b
    rw [Bool.eq_iff_iff]
    simp [isEnd, and_comm]
  unfold parseResourceVersion
  simp only [bind_eq_ok, okOr_eq_ok]
  constructor
  · rintro ⟨a, ha, b, hb, pp, hpp, major, hmajor, minor, hminor, patch, hpatch, hv⟩
    cases hv
    by_cases h₁ : byte '.' ∈ vers
    · obtain ⟨a', r, rfl, ha'⟩ := List.eq_append_cons_of_mem h₁
      rw [splitn_append_cons ha'] at ha hb hpp
      cases ha
      by_cases h₂ : byte '.' ∈ r
      · obtain ⟨b', r', rfl, hb'⟩ := List.eq_append_cons_of_mem h₂
        simp only [List.getElem?_cons_succ] at hb hpp
        rw [splitn_append_cons hb'] at hb hpp
        cases hb
        rw [List.getElem?_cons_succ, splitn_head] at hpp
        cases hpp
        rw [htake] at hpatch
        refine ⟨a, b, _, r'.dropWhile fun b => !isEnd b, ⟨?_, ?_⟩, hmajor, hminor, hpatch⟩
        · rw [List.takeWhile_append_dropWhile]
        · intro d hd
          have hnot := List.head?_dropWhile_not (fun b => !isEnd b) r'
          rw [Option.mem_def.mp hd] at hnot
          simpa using hnot
      · simp only [List.getElem?_cons_succ] at hb
        rw [splitn_of_notMem h₂] at hb hpp
        cases hpp
    · rw [splitn_of_notMem h₁] at hb
      cases hb
  · rintro ⟨a, b, c, tail, ⟨rfl, hstop⟩, ha, hb, hc⟩
    have hparts : splitn (byte '.') 4 (a ++ byte '.' :: (b ++ byte '.' :: (c ++ tail))) =
        a :: b :: splitn (byte '.') 2 (c ++ tail) := by
      rw [splitn_append_cons (dot_notMem_of_parseU32 ha),
        splitn_append_cons (dot_notMem_of_parseU32 hb)]
    rw [hparts]
    refine ⟨a, rfl, b, rfl, _, splitn_head _ 0 _, _, ha, _, hb, _, ?_, rfl⟩
    rw [htake, takeWhile_append_stop]
    · exact hc
    · exact fun d hd => by rw [not_isEnd_of_parseU32 hc d hd]; rfl
    · exact fun d hd => by rw [hstop d hd]; rfl

/-! ### The manifest -/

/-- The dependency of the manifest says what the entry says. -/
def Represents (dep : Dependency) (d : RegistryDep) : Prop :=
  ResourceId.new d.publisher d.name = .ok dep.id ∧ dep.versionReq = d.req ∧ dep.optional = d.optional

/-- The identifier is valid. -/
def Named (publisher name : List UInt8) : Prop := ∃ id, ResourceId.new publisher name = .ok id

theorem toDependency_eq_some_iff {d : RegistryDep} {dep : Dependency} :
    toDependency d = some dep ↔ Represents dep d := by
  unfold toDependency Represents
  rcases ResourceId.new d.publisher d.name with e | id
  · exact ⟨nofun, fun h => by cases h.1⟩
  · constructor
    · intro h
      cases h
      exact ⟨rfl, rfl, rfl⟩
    · rintro ⟨hid, hreq, hoptional⟩
      cases hid
      rw [← hreq, ← hoptional]
      rfl

/-- **No dependency is left out** exactly if all identifiers are valid. -/
theorem represents_filterMap_iff {deps : List RegistryDep} :
    List.Forall₂ Represents (deps.filterMap toDependency) deps ↔
      ∀ d ∈ deps, Named d.publisher d.name := by
  induction deps with
  | nil => exact ⟨fun _ => List.forall_mem_nil _, fun _ => .nil⟩
  | cons d deps ih =>
    rw [List.forall_mem_cons]
    rcases hd : toDependency d with _ | dep
    · rw [List.filterMap_cons_none hd]
      constructor
      · intro h
        have hle := List.length_filterMap_le toDependency deps
        have hlen := h.length_eq
        rw [List.length_cons] at hlen
        omega
      · rintro ⟨⟨id, hid⟩, -⟩
        have hsome : toDependency d = some ⟨id, d.req, d.optional⟩ :=
          toDependency_eq_some_iff.mpr ⟨hid, rfl, rfl⟩
        rw [hd] at hsome
        cases hsome
    · have hrep := toDependency_eq_some_iff.mp hd
      rw [List.filterMap_cons_some hd, List.forall₂_cons, ih]
      exact ⟨fun h => ⟨⟨dep.id, hrep.1⟩, h.2⟩, fun h => ⟨hrep, h.2⟩⟩

theorem toPackageManifest_eq_ok_iff {e : RegistryEntry} {m : PackageManifest} :
    toPackageManifest e = .ok m ↔ ∃ id version blobId,
      ResourceId.new e.publisher e.name = .ok id ∧ parseResourceVersion e.vers = .ok version ∧
      fromHex (hashHex e.cksum) = some blobId ∧
      m = (PackageManifest.new id version blobId 0).withDependencies
        (e.deps.filterMap toDependency) := by
  unfold toPackageManifest
  simp only [bind_eq_ok, mapError_eq_ok, okOr_eq_ok]
  constructor
  · rintro ⟨id, hid, version, hversion, blobId, hblob, h⟩
    cases h
    exact ⟨id, version, blobId, hid, hversion, hblob, rfl⟩
  · rintro ⟨id, version, blobId, hid, hversion, hblob, rfl⟩
    exact ⟨id, hid, version, hversion, blobId, hblob, rfl⟩

/-! ### When the manifest is true to the entry -/

/-- The numbers are written as in a semantic version, and so is what is behind them. -/
def Canonical (a b c tail : List UInt8) : Prop :=
  isNumericIdentifier a = true ∧ isNumericIdentifier b = true ∧ isNumericIdentifier c = true ∧
    Suffix tail

/-- Its package, its version and its checksum are accepted; but a dependency has no valid identifier,
or a number of the version has a plus sign or a leading zero, or what is left unread is not the suffix
of a semantic version. -/
def Mangled (e : RegistryEntry) : Prop :=
  Named e.publisher e.name ∧ (fromHex (hashHex e.cksum)).isSome = true ∧
    ∃ a b c tail, Parts e.vers a b c tail ∧ (∀ s ∈ [a, b, c], (parseU32 s).isSome = true) ∧
      ((∃ d ∈ e.deps, ¬ Named d.publisher d.name) ∨ ¬ Canonical a b c tail)

/-- The value of a number that is written without a plus sign. -/
theorem value_of_parseU32 {s : List UInt8} {n : UInt32} (hs : isNumericIdentifier s = true)
    (h : parseU32 s = some n) : value s = n.toNat := by
  have hnum := (Bool.and_eq_true_iff.mp hs).1
  have hval := (parseU32_eq_some_iff.mp h).2
  rwa [stripPlus_of_isNumeral hnum] at hval

/-- A semantic version is read as what it is. -/
theorem version_of_canonical {vers a b c tail : List UInt8} {v : ResourceVersion}
    (hparts : Parts vers a b c tail) (ha : parseU32 a = some v.major) (hb : parseU32 b = some v.minor)
    (hc : parseU32 c = some v.patch) (h : Canonical a b c tail) :
    Version vers v.major.toNat v.minor.toNat v.patch.toNat := by
  obtain ⟨ha', hb', hc', htail⟩ := h
  rw [hparts.eq, ← value_of_parseU32 ha' ha, ← value_of_parseU32 hb' hb, ← value_of_parseU32 hc' hc]
  exact .mk ha' hb' hc' htail

/-- What is read is a semantic version only if it is written as one. -/
theorem canonical_of_version {vers a b c tail : List UInt8} {i j k : UInt32} {x y z : ℕ}
    (hparts : Parts vers a b c tail) (ha : parseU32 a = some i) (hb : parseU32 b = some j)
    (hc : parseU32 c = some k) (h : Version vers x y z) : Canonical a b c tail := by
  rw [hparts.eq] at h
  refine version_parts (dot_notMem_of_parseU32 ha) (dot_notMem_of_parseU32 hb)
    (parseU32_eq_some_iff.mp hc).1 (fun d hd => ?_) h
  have hend := hparts.stop d hd
  by_contra hdigit
  rw [Bool.not_eq_false] at hdigit
  unfold isEnd at hend
  rcases Bool.or_eq_true_iff.mp hend with heq | heq <;> rw [beq_iff_eq.mp heq] at hdigit <;>
    exact absurd hdigit (by decide)

/-- **When a manifest is true to its entry**: the dependencies are those of the entry, in their order,
and the version is that of a semantic version. -/
theorem faithful_iff (e : RegistryEntry) :
    (∀ m, toPackageManifest e = .ok m → List.Forall₂ Represents m.dependencies e.deps ∧
      Version e.vers m.version.major.toNat m.version.minor.toNat m.version.patch.toNat) ↔
    ¬ Mangled e := by
  constructor
  · rintro h ⟨⟨id, hid⟩, hblob, a, b, c, tail, hparts, hread, hbad⟩
    obtain ⟨blobId, hblob⟩ := Option.isSome_iff_exists.mp hblob
    obtain ⟨major, hmajor⟩ := Option.isSome_iff_exists.mp (hread a (by simp))
    obtain ⟨minor, hminor⟩ := Option.isSome_iff_exists.mp (hread b (by simp))
    obtain ⟨patch, hpatch⟩ := Option.isSome_iff_exists.mp (hread c (by simp))
    obtain ⟨hdeps, hversion⟩ := h _ (toPackageManifest_eq_ok_iff.mpr ⟨id, ⟨major, minor, patch⟩, blobId,
      hid, parseResourceVersion_eq_ok_iff.mpr ⟨a, b, c, tail, hparts, hmajor, hminor, hpatch⟩, hblob,
      rfl⟩)
    rcases hbad with ⟨d, hd, hnot⟩ | hnot
    · exact hnot (represents_filterMap_iff.mp hdeps d hd)
    · exact hnot (canonical_of_version hparts hmajor hminor hpatch hversion)
  · intro h m hm
    obtain ⟨id, v, blobId, hid, hversion, hblob, rfl⟩ := toPackageManifest_eq_ok_iff.mp hm
    obtain ⟨a, b, c, tail, hparts, hmajor, hminor, hpatch⟩ :=
      parseResourceVersion_eq_ok_iff.mp hversion
    have hread : ∀ s ∈ [a, b, c], (parseU32 s).isSome = true := by
      intro s hs
      simp only [List.mem_cons, List.not_mem_nil, or_false] at hs
      rcases hs with rfl | rfl | rfl <;> simp [*]
    have hfine : ¬ ((∃ d ∈ e.deps, ¬ Named d.publisher d.name) ∨ ¬ Canonical a b c tail) := fun hbad =>
      h ⟨⟨id, hid⟩, by rw [hblob]; rfl, a, b, c, tail, hparts, hread, hbad⟩
    push Not at hfine
    exact ⟨represents_filterMap_iff.mpr hfine.1,
      version_of_canonical hparts hmajor hminor hpatch hfine.2⟩

/-! ### An entry that is mangled -/

/-- An entry with one dependency, whose name is not a slug. -/
def mangledEntry : RegistryEntry where
  name := text "sprites"
  vers := text "1.2.3"
  publisher := text "alice"
  deps := [⟨text "Base_Palette", text "bob", text "^1.0", false⟩]
  cksum := text "sha256:" ++ List.replicate 64 (byte '0')
  yanked := false

/-- **The dependency is dropped**, and no error is reported. -/
theorem dependency_dropped : ∃ m, toPackageManifest mangledEntry = .ok m ∧
    ¬ List.Forall₂ Represents m.dependencies mangledEntry.deps := by
  refine ⟨_, toPackageManifest_eq_ok_iff.mpr ⟨⟨text "alice", text "sprites", ?_, ?_⟩, ⟨1, 2, 3⟩,
    Vector.replicate 32 0, ?_, ?_, ?_, rfl⟩, fun h => ?_⟩
  case refine_6 =>
    have hnone : mangledEntry.deps.filterMap toDependency = [] := by decide +kernel
    have hlen := h.length_eq
    change (mangledEntry.deps.filterMap toDependency).length = 1 at hlen
    rw [hnone] at hlen
    cases hlen
  all_goals decide +kernel

end CncContent.Workshop.Registry
