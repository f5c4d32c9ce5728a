import CncContent.Merkle.Build

/-! # What a Merkle proof shows

An accepted proof is meant to show that some data is a chunk of the piece. Leaves and inner nodes are
hashed alike, so that it may also show that the data is the two digests hashed for an inner node, or
that it lies below a chunk that consists of two digests (`Forged`). If no two of the byte strings
that are hashed collide, a proof is sound exactly if it is none of these (`verifyProof_sound_iff`). -/

namespace CncContent.Merkle.Soundness

open CncContent.Lib.HashTree CncContent.Merkle.Build

variable (sha256 : List UInt8 → Digest)

theorem concat_inj {a b c d : Digest} (h : concat a b = concat c d) : a = c ∧ b = d := by
  obtain ⟨hl, hr⟩ := List.append_inj h (by rw [Vector.length_toList, Vector.length_toList])
  exact ⟨Vector.toList_inj.mp hl, Vector.toList_inj.mp hr⟩

theorem length_concat (a b : Digest) : (concat a b).length = 64 := by
  unfold concat
  rw [List.length_append, Vector.length_toList, Vector.length_toList]

/-! ### The tree of a piece -/

/-- The tree over the chunks of the piece; no data has no tree. -/
def pieceTree (data : List UInt8) : Option (LeafTree (List UInt8)) :=
  let leaves := (leafChunks data).map LeafTree.leaf
  topOf (leaves :: levelsAbove .node leaves)

/-- The byte strings that are hashed when the tree is built and the proof verified. -/
def hashedStrings (data leafData : List UInt8) (proof : List ProofNode) : List (List UInt8) :=
  [] :: (match pieceTree data with
    | some t => t.preimages sha256 concat
    | none => []) ++ climbed sha256 concat leafData proof

/-- No two of the byte strings have the same digest. -/
def CollisionFree (strings : List (List UInt8)) : Prop :=
  ∀ x ∈ strings, ∀ y ∈ strings, sha256 x = sha256 y → x = y

theorem leafChunks_nil : leafChunks [] = [] := by
  rw [leafChunks, if_pos rfl]

theorem pieceTree_nil : pieceTree [] = none := by
  unfold pieceTree
  rw [leafChunks_nil]
  dsimp only [List.map_nil]
  rw [levelsAbove, if_neg (by simp)]
  rfl

/-- **The tree of a piece** has its chunks as leaves. -/
theorem pieceTree_of_ne_nil {data : List UInt8} (h : data ≠ []) :
    ∃ t, pieceTree data = some t ∧ t.leaves = leafChunks data := by
  have hne : (leafChunks data).map LeafTree.leaf ≠ [] := by
    rw [leafChunks, if_neg h]
    simp
  obtain ⟨t, htop, hleaves⟩ := exists_top hne
  refine ⟨t, htop, hleaves.trans ?_⟩
  induction leafChunks data with
  | nil => rfl
  | cons c cs ih => simpa [LeafTree.leaves] using ih

/-- The root hash is the digest of the tree. -/
theorem rootHash_build (data : List UInt8) : (MerkleTree.build sha256 data).rootHash =
    ((pieceTree data).map fun t => sha256 (t.pre sha256 concat)).getD emptyHash := by
  have hnode : ∀ a b : LeafTree (List UInt8), sha256 ((LeafTree.node a b).pre sha256 concat) =
      combineHashes sha256 (sha256 (a.pre sha256 concat)) (sha256 (b.pre sha256 concat)) :=
    fun _ _ => rfl
  have hlevels := map_levelsAbove (g := fun t : LeafTree (List UInt8) => sha256 (t.pre sha256 concat))
    hnode ((leafChunks data).map LeafTree.leaf)
  have htop := topOf_map (g := fun t => sha256 (t.pre sha256 concat))
    ((leafChunks data).map LeafTree.leaf :: levelsAbove .node ((leafChunks data).map LeafTree.leaf))
  rw [List.map_cons, hlevels, List.map_map] at htop
  exact congrArg (Option.getD · emptyHash) htop

/-- The digest `verify_proof` computes. -/
theorem verifyProof_eq_true_iff (t : MerkleTree) (leafData : List UInt8) (proof : List ProofNode) :
    t.verifyProof sha256 leafData proof = true ↔
      sha256 (climb sha256 concat leafData proof) = t.rootHash := by
  have hfold : ∀ b, (proof.foldl (fun current node =>
      if node.isLeft then combineHashes sha256 node.hash current
      else combineHashes sha256 current node.hash) (sha256 b)) =
        sha256 (climb sha256 concat b proof) := by
    induction proof with
    | nil => exact fun _ => rfl
    | cons n proof ih =>
      intro b
      have hparent : sha256 (parent sha256 concat b n) =
          if n.isLeft then combineHashes sha256 n.hash (sha256 b)
          else combineHashes sha256 (sha256 b) n.hash := by
        unfold parent
        split_ifs <;> rfl
      rw [List.foldl_cons, ← hparent]
      exact ih _
  unfold MerkleTree.verifyProof
  rw [hfold, beq_iff_eq]

/-! ### Proofs that show something else -/

/-- **The proof shows something else** than that the data is a chunk of the piece. -/
inductive Forged (data leafData : List UInt8) (proof : List ProofNode) : Prop
  /-- The data is what is hashed for the inner node the proof leads to. -/
  | inner {t l r : LeafTree (List UInt8)} (ht : pieceTree data = some t)
    (h : Leads sha256 concat t proof (.node l r))
    (hleaf : leafData = concat (sha256 (l.pre sha256 concat)) (sha256 (r.pre sha256 concat)))
  /-- The end of the proof leads to a chunk, and the rest of it from the data to that chunk. -/
  | below {t : LeafTree (List UInt8)} {lower upper : List ProofNode} {chunk : List UInt8}
    (ht : pieceTree data = some t) (h : Leads sha256 concat t upper (.leaf chunk))
    (hproof : proof = lower ++ upper) (hne : lower ≠ [])
    (hchunk : chunk = climb sha256 concat leafData lower)
  /-- There is no data at all. -/
  | empty (hdata : data = []) (hleaf : leafData = []) (hproof : proof = [])

variable {sha256} {data leafData : List UInt8} {proof : List ProofNode}

/-- Such proofs are accepted. -/
theorem Forged.accepted (hempty : sha256 [] = emptyHash) (h : Forged sha256 data leafData proof) :
    (MerkleTree.build sha256 data).verifyProof sha256 leafData proof = true := by
  rw [verifyProof_eq_true_iff, rootHash_build]
  cases h with
  | inner ht h hleaf =>
    rw [ht, hleaf]
    exact congrArg sha256 h.climb_pre
  | below ht h hproof hne hchunk =>
    rw [ht, hproof, climb_append, ← hchunk]
    exact congrArg sha256 h.climb_pre
  | empty hdata hleaf hproof =>
    rw [hdata, hleaf, hproof, pieceTree_nil]
    exact hempty

/-- What is hashed above something is never empty. -/
theorem eq_nil_of_climb_eq_nil (h : climb sha256 concat leafData proof = []) : proof = [] := by
  rcases List.eq_nil_or_concat proof with rfl | ⟨rest, n, rfl⟩
  · rfl
  · rw [List.concat_eq_append, climb_append] at h
    have hlen := congrArg List.length h
    change (parent sha256 concat _ n).length = 0 at hlen
    unfold parent at hlen
    split_ifs at hlen
    · rw [length_concat] at hlen
      cases hlen
    · rw [length_concat] at hlen
      cases hlen

theorem preimages_subset_hashedStrings (leafData : List UInt8) (proof : List ProofNode)
    {t : LeafTree (List UInt8)} (ht : pieceTree data = some t) :
    t.preimages sha256 concat ⊆ hashedStrings sha256 data leafData proof := by
  intro x hx
  unfold hashedStrings
  rw [ht]
  exact List.mem_append_left _ (List.mem_cons_of_mem _ hx)

/-- **What an accepted proof shows**: the data is a chunk, or the proof shows something else. -/
theorem mem_or_forged (hempty : sha256 [] = emptyHash)
    (hfree : CollisionFree sha256 (hashedStrings sha256 data leafData proof))
    (h : (MerkleTree.build sha256 data).verifyProof sha256 leafData proof = true) :
    leafData ∈ leafChunks data ∨ Forged sha256 data leafData proof := by
  rw [verifyProof_eq_true_iff, rootHash_build] at h
  have hclimbed : climbed sha256 concat leafData proof ⊆ hashedStrings sha256 data leafData proof :=
    List.subset_append_right _ _
  have hlast : climb sha256 concat leafData proof ∈ hashedStrings sha256 data leafData proof :=
    hclimbed (climb_mem_climbed sha256 concat proof leafData)
  by_cases hdata : data = []
  · subst hdata
    rw [pieceTree_nil] at h
    have hnil : climb sha256 concat leafData proof = [] :=
      hfree _ hlast [] List.mem_cons_self (h.trans hempty.symm)
    obtain rfl := eq_nil_of_climb_eq_nil hnil
    exact Or.inr (.empty rfl hnil rfl)
  · obtain ⟨t, ht, hleaves⟩ := pieceTree_of_ne_nil hdata
    rw [ht] at h
    have htree : t.preimages sha256 concat ⊆ hashedStrings sha256 data leafData proof :=
      preimages_subset_hashedStrings leafData proof ht
    rcases opens_or_below (fun _ _ _ _ => concat_inj) hfree leafData proof htree hclimbed h with
      ⟨s, hs, hpre⟩ | ⟨lower, upper, c, hproof, hne, hc, hcl⟩
    · cases s with
      | leaf c =>
        left
        rw [← hleaves, ← hpre]
        exact hs.leaf_mem
      | node l r => exact Or.inr (.inner ht hs hpre.symm)
    · exact Or.inr (.below ht hc hproof hne hcl.symm)

/-- **When a proof is sound**, if nothing that is hashed collides: an accepted proof shows that the
data is a chunk of the piece exactly if it is one or the proof is not forged. -/
theorem verifyProof_sound_iff (sha256 : List UInt8 → Digest) (data leafData : List UInt8)
    (proof : List ProofNode) (hempty : sha256 [] = emptyHash)
    (hfree : CollisionFree sha256 (hashedStrings sha256 data leafData proof)) :
    ((MerkleTree.build sha256 data).verifyProof sha256 leafData proof = true →
        leafData ∈ leafChunks data) ↔
      leafData ∈ leafChunks data ∨ ¬ Forged sha256 data leafData proof := by
  constructor
  · intro h
    by_cases hforged : Forged sha256 data leafData proof
    · exact Or.inl (h (hforged.accepted hempty))
    · exact Or.inr hforged
  · rintro (hmem | hnot) hverify
    · exact hmem
    · exact (mem_or_forged hempty hfree hverify).resolve_right hnot

/-! ### Two chunks -/

/-- A chunk of zeros and a zero byte more. -/
def twoChunks : List UInt8 := List.replicate (leafSize + 1) 0

/-- The SHA-256 digest of the chunk of zeros. -/
def zerosHash : Digest :=
  #v[0x8a, 0x39, 0xd2, 0xab, 0xd3, 0x99, 0x9a, 0xb7, 0x3c, 0x34, 0xdb, 0x24, 0x76, 0x84, 0x9c, 0xdd,
    0xf3, 0x03, 0xce, 0x38, 0x9b, 0x35, 0x82, 0x68, 0x50, 0xf9, 0xa7, 0x00, 0x58, 0x9b, 0x4a, 0x90]

/-- The SHA-256 digest of a zero byte. -/
def zeroHash : Digest :=
  #v[0x6e, 0x34, 0x0b, 0x9c, 0xff, 0xb3, 0x7a, 0x98, 0x9c, 0xa5, 0x44, 0xe6, 0xbb, 0x78, 0x0a, 0x2c,
    0x78, 0x90, 0x1d, 0x3f, 0xb3, 0x37, 0x38, 0x76, 0x85, 0x11, 0xa3, 0x06, 0x17, 0xaf, 0xa0, 0x1d]

/-- The SHA-256 digest of these two digests. -/
def pairHash : Digest :=
  #v[0x4f, 0x75, 0x55, 0x07, 0x54, 0x79, 0x7c, 0x53, 0xe7, 0x63, 0x3c, 0x00, 0x5d, 0x8c, 0x55, 0x7e,
    0x4a, 0x43, 0x62, 0x2c, 0xb0, 0x6b, 0x19, 0x48, 0xc6, 0xe2, 0x71, 0xbc, 0xc1, 0x75, 0x77, 0xdd]

/-- SHA-256 of the byte strings that are hashed for the two chunks, the only ones that are needed. -/
def sha256Of (data : List UInt8) : Digest :=
  if data.length = leafSize then zerosHash
  else if data = [0] then zeroHash
  else if data = concat zerosHash zeroHash then pairHash
  else emptyHash

theorem sha256Of_zeros : sha256Of (List.replicate leafSize 0) = zerosHash :=
  if_pos List.length_replicate

theorem leafChunks_twoChunks : leafChunks twoChunks = [List.replicate leafSize 0, [0]] := by
  have hne : twoChunks ≠ [] := nofun
  have htake : twoChunks.take leafSize = List.replicate leafSize 0 := by
    unfold twoChunks
    rw [List.take_replicate, Nat.min_eq_left (Nat.le_succ _)]
  have hdrop : twoChunks.drop leafSize = [0] := by
    unfold twoChunks
    rw [List.drop_replicate, Nat.add_sub_cancel_left]
    rfl
  rw [leafChunks, if_neg hne, htake, hdrop, leafChunks, if_neg (by simp)]
  have hrest : ([0] : List UInt8).drop leafSize = [] := List.drop_of_length_le (by decide)
  rw [hrest, leafChunks_nil, List.take_of_length_le (by decide)]

theorem pieceTree_twoChunks :
    pieceTree twoChunks = some (.node (.leaf (List.replicate leafSize 0)) (.leaf [0])) := by
  unfold pieceTree
  rw [leafChunks_twoChunks]
  dsimp only [List.map_cons, List.map_nil]
  rw [levelsAbove, if_pos (by simp), levelsAbove, if_neg (by simp [combineLevel])]
  rfl

/-- The byte strings that are hashed for the two chunks. -/
def pairStrings : List (List UInt8) :=
  [[], concat zerosHash zeroHash, List.replicate leafSize 0, [0]]

theorem hashedStrings_twoChunks (leafData : List UInt8) (proof : List ProofNode) :
    hashedStrings sha256Of twoChunks leafData proof =
      pairStrings ++ climbed sha256Of concat leafData proof := by
  unfold hashedStrings
  rw [pieceTree_twoChunks]
  simp only [LeafTree.preimages, LeafTree.pre, sha256Of_zeros]
  rfl

theorem sha256Of_concat : sha256Of (concat zerosHash zeroHash) = pairHash := by
  unfold sha256Of
  rw [length_concat, if_neg (by decide), if_neg (by decide), if_pos rfl]

theorem sha256Of_zero : sha256Of [0] = zeroHash := by
  unfold sha256Of
  rw [if_neg (by decide), if_pos rfl]

theorem pre_two_leaves (a b : List UInt8) :
    (LeafTree.node (.leaf a) (.leaf b)).pre sha256Of concat = concat (sha256Of a) (sha256Of b) := rfl

theorem rootHash_twoChunks : (MerkleTree.build sha256Of twoChunks).rootHash = pairHash := by
  rw [rootHash_build, pieceTree_twoChunks, Option.map_some, Option.getD_some, pre_two_leaves,
    sha256Of_zeros, sha256Of_zero, sha256Of_concat]

theorem collisionFree_pairStrings {strings : List (List UInt8)} (h : strings ⊆ pairStrings) :
    CollisionFree sha256Of strings := by
  have hnil : sha256Of [] = emptyHash := rfl
  intro x hx y hy hxy
  have hx' := h hx
  have hy' := h hy
  simp only [pairStrings, List.mem_cons, List.not_mem_nil, or_false] at hx' hy'
  rcases hx' with rfl | rfl | rfl | rfl <;> rcases hy' with rfl | rfl | rfl | rfl <;>
    first
      | rfl
      | (simp only [hnil, sha256Of_zero, sha256Of_concat, sha256Of_zeros] at hxy
         exact absurd hxy (by decide))

/-- The second chunk with its proof. -/
theorem verifyProof_sound_iff_second_chunk :
    (MerkleTree.build sha256Of twoChunks).verifyProof sha256Of [0] [⟨zerosHash, true⟩] = true ∧
      ([0] ∈ leafChunks twoChunks ∨ ¬ Forged sha256Of twoChunks [0] [⟨zerosHash, true⟩]) := by
  have hmem : [0] ∈ leafChunks twoChunks := by
    rw [leafChunks_twoChunks]
    exact List.mem_cons_of_mem _ List.mem_cons_self
  have hfree : CollisionFree sha256Of
      (hashedStrings sha256Of twoChunks [0] [⟨zerosHash, true⟩]) := by
    rw [hashedStrings_twoChunks]
    exact collisionFree_pairStrings (List.append_subset.mpr ⟨List.Subset.refl _, by decide⟩)
  refine ⟨?_, (verifyProof_sound_iff sha256Of twoChunks [0] [⟨zerosHash, true⟩] rfl hfree).mp
    fun _ => hmem⟩
  rw [verifyProof_eq_true_iff, rootHash_twoChunks]
  exact sha256Of_concat

/-- **An inner node is accepted as data**: the 64 bytes hashed for the root of two chunks pass with an
empty proof. -/
theorem inner_node_accepted :
    sha256Of [] = emptyHash ∧
    CollisionFree sha256Of (hashedStrings sha256Of twoChunks (concat zerosHash zeroHash) []) ∧
    (MerkleTree.build sha256Of twoChunks).verifyProof sha256Of (concat zerosHash zeroHash) [] =
      true ∧
    concat zerosHash zeroHash ∉ leafChunks twoChunks := by
  refine ⟨rfl, ?_, ?_, ?_⟩
  · rw [hashedStrings_twoChunks]
    refine collisionFree_pairStrings (List.append_subset.mpr ⟨List.Subset.refl _, ?_⟩)
    exact List.cons_subset.mpr ⟨by simp [pairStrings], List.nil_subset _⟩
  · rw [verifyProof_eq_true_iff, rootHash_twoChunks]
    exact sha256Of_concat
  · rw [leafChunks_twoChunks]
    intro hmem
    have hlen : (concat zerosHash zeroHash).length = leafSize ∨
        (concat zerosHash zeroHash).length = 1 := by
      rcases List.mem_cons.mp hmem with h | h
      · left
        rw [h]
        exact List.length_replicate
      · right
        rw [List.mem_singleton.mp h]
        rfl
    rw [length_concat] at hlen
    exact absurd hlen (by decide)

end CncContent.Merkle.Soundness
