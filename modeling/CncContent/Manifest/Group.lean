import CncContent.Lib.Bytes
import CncContent.Lib.Checks
import CncContent.Lib.Keyed
import Mathlib.Data.List.Infix

/-! # Group manifests

`ContentEntry`, `ManifestBuilder` and `GroupManifest` of the source. An entry can only be built with a
path that passes `validate_path`, a manifest only with entries increasing by path. The order in which
the entries were added does not matter (`build_perm`). -/

namespace CncContent.Manifest.Group

open CncContent.Lib.Bytes CncContent.Lib.Checks CncContent.Lib.Keyed

abbrev NetworkId := Vector UInt8 32

inductive ManifestError
  | emptyPath
  | invalidPath (path : List UInt8) (reason : String)
  | duplicatePath (path : List UInt8)
  | zeroVersion
deriving DecidableEq, Repr

def validatePath (path : List UInt8) : Except ManifestError Unit := do
  refuse (path = []) .emptyPath
  refuse (path.contains (byte '\\'))
    (.invalidPath path "backslashes are not allowed (use forward slashes)")
  refuse (path.head? = some (byte '/'))
    (.invalidPath path "absolute paths are not allowed (no leading slash)")
  refuse ([byte '.', byte '.'] <:+: path)
    (.invalidPath path "parent traversal (`..`) is not allowed")
  refuse (path.contains 0) (.invalidPath path "null bytes are not allowed")

@[ext]
structure ContentEntry where
  path : List UInt8
  contentHash : Vector UInt8 32
  fileSize : UInt64
  infoHash : Option (Vector UInt8 20)
  path_valid : validatePath path = .ok ()
deriving DecidableEq

namespace ContentEntry

def new (path : List UInt8) (contentHash : Vector UInt8 32) (fileSize : UInt64) :
    Except ManifestError ContentEntry :=
  match h : validatePath path with
  | .error e => .error e
  | .ok () => .ok ⟨path, contentHash, fileSize, none, h⟩

def withInfoHash (entry : ContentEntry) (infoHash : Vector UInt8 20) : ContentEntry :=
  { entry with infoHash := some infoHash }

/-- The path as the order of paths sees it. -/
def key (entry : ContentEntry) : List ℕ := keyOf entry.path

theorem key_inj {e e' : ContentEntry} : e.key = e'.key ↔ e.path = e'.path := keyOf_injective.eq_iff

end ContentEntry

structure ManifestBuilder where
  networkId : NetworkId
  version : UInt64
  createdAt : UInt64
  entries : List ContentEntry

/-- The entries are increasing by path, and the version is not the reserved one. -/
@[ext]
structure GroupManifest where
  version : UInt64
  networkId : NetworkId
  createdAt : UInt64
  entries : List ContentEntry
  signature : List UInt8
  signerId : List UInt8
  version_ne : version ≠ 0
  increasing : Increasing ContentEntry.key entries

namespace GroupManifest

def builder (networkId : NetworkId) : ManifestBuilder := ⟨networkId, 0, 0, []⟩

def setSignature (m : GroupManifest) (signature signerId : List UInt8) : GroupManifest :=
  { m with signature, signerId }

end GroupManifest

/-- `sort_by` with the comparison of paths. -/
def sortByPath (entries : List ContentEntry) : List ContentEntry :=
  entries.insertionSort fun a b => keyLe a.path b.path

/-- The path of the first two neighbours that share it. -/
def adjacentDuplicate : List ContentEntry → Option (List UInt8)
  | a :: b :: entries => if a.path = b.path then some a.path else adjacentDuplicate (b :: entries)
  | _ => none

/-! ### Sorting -/

instance : Std.Total fun a b : ContentEntry => keyLe a.path b.path := ⟨fun _ _ => keyLe_total _ _⟩

instance : IsTrans ContentEntry fun a b => keyLe a.path b.path := ⟨fun _ _ _ => keyLe_trans⟩

theorem isChain_of_adjacentDuplicate : ∀ {entries : List ContentEntry},
    adjacentDuplicate entries = none → entries.IsChain fun a b => a.key ≠ b.key
  | [], _ => List.IsChain.nil
  | [_], _ => List.IsChain.singleton _
  | a :: b :: entries, h => by
    unfold adjacentDuplicate at h
    split_ifs at h with hpath
    exact List.isChain_cons_cons.mpr
      ⟨fun hkey => hpath (ContentEntry.key_inj.mp hkey), isChain_of_adjacentDuplicate h⟩

/-- **Without adjacent duplicates there are none at all.** -/
theorem increasing_sortByPath {entries : List ContentEntry}
    (h : adjacentDuplicate (sortByPath entries) = none) :
    Increasing ContentEntry.key (sortByPath entries) :=
  increasing_of_isChain (List.pairwise_insertionSort _ _) (isChain_of_adjacentDuplicate h)

namespace ManifestBuilder

def setVersion (b : ManifestBuilder) (v : UInt64) : ManifestBuilder := { b with version := v }

def setCreatedAt (b : ManifestBuilder) (ts : UInt64) : ManifestBuilder := { b with createdAt := ts }

def addEntry (b : ManifestBuilder) (entry : ContentEntry) : ManifestBuilder :=
  { b with entries := b.entries ++ [entry] }

def build (b : ManifestBuilder) : Except ManifestError GroupManifest :=
  if hversion : b.version = 0 then .error .zeroVersion
  else
    match hduplicate : adjacentDuplicate (sortByPath b.entries) with
    | some path => .error (.duplicatePath path)
    | none => .ok
      { version := b.version
        networkId := b.networkId
        createdAt := b.createdAt
        entries := sortByPath b.entries
        signature := []
        signerId := []
        version_ne := hversion
        increasing := increasing_sortByPath hduplicate }

end ManifestBuilder

/-! ### The order of the entries -/

variable {entries entries' : List ContentEntry}

theorem paths_sortByPath (h : entries.Perm entries') :
    (sortByPath entries).map (·.path) = (sortByPath entries').map (·.path) := by
  have hperm : (sortByPath entries).Perm (sortByPath entries') :=
    (List.perm_insertionSort _ _).trans (h.trans (List.perm_insertionSort _ _).symm)
  refine (hperm.map _).eq_of_pairwise (fun p q _ _ => keyLe_antisymm) ?_ ?_
  · exact List.pairwise_map.mpr (List.pairwise_insertionSort _ _)
  · exact List.pairwise_map.mpr (List.pairwise_insertionSort _ _)

theorem adjacentDuplicate_congr : ∀ {entries entries' : List ContentEntry},
    entries.map (·.path) = entries'.map (·.path) →
      adjacentDuplicate entries = adjacentDuplicate entries'
  | [], [], _ => rfl
  | [_], [_], _ => rfl
  | [_], _ :: _ :: _, h => by cases (List.cons.inj h).2
  | _ :: _ :: _, [_], h => by cases (List.cons.inj h).2
  | a :: b :: entries, a' :: b' :: entries', h => by
    obtain ⟨ha, htail⟩ := List.cons.inj h
    obtain ⟨hb, -⟩ := List.cons.inj htail
    dsimp only at ha hb
    unfold adjacentDuplicate
    rw [ha, hb, adjacentDuplicate_congr htail]

/-- **What is built** does not depend on the order in which the entries were added. -/
theorem build_perm (b : ManifestBuilder) (h : entries.Perm entries') :
    { b with entries := entries }.build = { b with entries := entries' }.build := by
  have hduplicate := adjacentDuplicate_congr (paths_sortByPath h)
  unfold ManifestBuilder.build
  dsimp only
  split
  · rfl
  · split
    · rename_i path hpath
      split
      · rename_i path' hpath'
        rw [hpath, hpath'] at hduplicate
        rw [Option.some.inj hduplicate]
      · rename_i hnone
        rw [hpath, hnone] at hduplicate
        cases hduplicate
    · rename_i hnone
      split
      · rename_i path' hpath'
        rw [hnone, hpath'] at hduplicate
        cases hduplicate
      · rename_i hnone'
        have hsame : sortByPath entries = sortByPath entries' :=
          (increasing_sortByPath hnone).eq_of_perm (increasing_sortByPath hnone')
            ((List.perm_insertionSort _ _).trans (h.trans (List.perm_insertionSort _ _).symm))
        exact congrArg Except.ok (GroupManifest.ext rfl rfl rfl hsame rfl rfl)

end CncContent.Manifest.Group
