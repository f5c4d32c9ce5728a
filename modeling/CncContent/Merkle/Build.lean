import CncContent.Lib.Bounded
import CncContent.Lib.HashTree

/-! # The sub-piece Merkle tree

`MerkleTree` of the source: the SHA-256 digests of the 256 KiB chunks of a piece, level by level up
to the root, the search for corrupt leaves, and inclusion proofs with their check. SHA-256 is a
parameter. -/

namespace CncContent.Merkle.Build

open CncContent.Lib.Bounded CncContent.Lib.HashTree

/-- `LEAF_SIZE`. -/
def leafSize : ℕ := 256 * 1024

/-- A SHA-256 digest. -/
abbrev Digest := Vector UInt8 32

/-- `EMPTY_HASH`, the SHA-256 digest of no bytes. -/
def emptyHash : Digest :=
  #v[0xe3, 0xb0, 0xc4, 0x42, 0x98, 0xfc, 0x1c, 0x14, 0x9a, 0xfb, 0xf4, 0xc8, 0x99, 0x6f, 0xb9, 0x24,
    0x27, 0xae, 0x41, 0xe4, 0x64, 0x9b, 0x93, 0x4c, 0xa4, 0x95, 0x99, 0x1b, 0x78, 0x52, 0xb8, 0x55]

structure MerkleTree where
  /-- The digests level by level, those of the leaves first. -/
  levels : List (List Digest)
  leafCount : ℕ
deriving DecidableEq, Repr

/-- `ProofNode` of the source. -/
abbrev ProofNode := CncContent.Lib.HashTree.ProofNode Digest

/-- The chunks the first loop of `build` hashes. -/
def leafChunks (data : List UInt8) : List (List UInt8) :=
  if data = [] then [] else data.take leafSize :: leafChunks (data.drop leafSize)
termination_by data.length
decreasing_by
  rename_i h
  have hpos := List.length_pos_iff.mpr h
  rw [List.length_drop, leafSize]
  omega

variable (sha256 : List UInt8 → Digest)

/-- What `combine_hashes` hashes. -/
def concat (left right : Digest) : List UInt8 := left.toList ++ right.toList

def combineHashes (left right : Digest) : Digest := sha256 (concat left right)

namespace MerkleTree

def build (data : List UInt8) : MerkleTree where
  levels :=
    let leafHashes := (leafChunks data).map sha256
    leafHashes :: levelsAbove (combineHashes sha256) leafHashes
  leafCount := if data = [] then 0 else satAdd u64Max data.length (leafSize - 1) / leafSize

variable (t : MerkleTree)

def rootHash : Digest := (topOf t.levels).getD emptyHash

/-- `leaf_hash`. -/
def leafHash (i : ℕ) : Option Digest := t.levels.head?.bind fun leaves => leaves[i]?

/-- `verify_leaf`. -/
def verifyLeaf (i : ℕ) (leafData : List UInt8) : Bool :=
  match t.leafHash i with
  | none => false
  | some expected => sha256 leafData == expected

/-- The loop of `find_corrupt_leaves`, over the chunks that it cuts the data into. -/
def corruptAmong : ℕ → List (List UInt8) → List ℕ
  | _, [] => []
  | idx, chunk :: chunks =>
    if idx < t.leafCount then
      (if t.verifyLeaf sha256 idx chunk then [] else [idx]) ++ corruptAmong (idx + 1) chunks
    else []

/-- `find_corrupt_leaves`. -/
def findCorruptLeaves (data : List UInt8) : List ℕ := t.corruptAmong sha256 0 (leafChunks data)

/-- `proof`. -/
def proof (i : ℕ) : Option (List ProofNode) :=
  if t.leafCount ≤ i then none else some (siblings t.levels i)

def verifyProof (leafData : List UInt8) (proof : List ProofNode) : Bool :=
  let current := proof.foldl (fun current node =>
    if node.isLeft then combineHashes sha256 node.hash current
    else combineHashes sha256 current node.hash) (sha256 leafData)
  current == t.rootHash

end MerkleTree

end CncContent.Merkle.Build
