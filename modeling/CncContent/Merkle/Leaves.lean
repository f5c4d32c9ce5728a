import CncContent.Merkle.Soundness
import CncContent.Lib.Chunks

/-! # The leaves of a Merkle tree

The proof of a leaf is accepted with the leaf's data, for every number of leaves (`proof_complete`).
The corrupt leaves that are found are those, among the leaves that the data reaches, where the data
differs (`find_corrupt_leaves`). Data that ends at the end of a leaf is searched no further, and
what stands behind the last leaf is not looked at. -/

namespace CncContent.Merkle.Leaves

open CncContent.Lib.Bounded CncContent.Lib.Chunks CncContent.Lib.HashTree
open CncContent.Merkle.Build CncContent.Merkle.Soundness

/-! ### Leaves -/

/-- The data of a leaf. -/
def chunkAt (data : List UInt8) (i : ℕ) : List UInt8 := (data.drop (i * leafSize)).take leafSize

theorem leafSize_pos : 0 < leafSize := by decide

theorem leafChunks_eq_chunks (data : List UInt8) : leafChunks data = chunks leafSize data := by
  rw [leafChunks]
  split_ifs with h
  · rw [h]
    rfl
  · rw [chunks_of_ne_nil leafSize_pos h, leafChunks_eq_chunks (data.drop leafSize)]
termination_by data.length
decreasing_by
  have hpos := List.length_pos_iff.mpr h
  rw [List.length_drop, leafSize]
  omega

theorem getElem?_leafChunks (data : List UInt8) (i : ℕ) :
    (leafChunks data)[i]? = if i * leafSize < data.length then some (chunkAt data i) else none := by
  rw [leafChunks_eq_chunks, getElem?_chunks leafSize_pos]
  rfl

theorem chunkAt_mem {data : List UInt8} {i : ℕ} (h : i * leafSize < data.length) :
    chunkAt data i ∈ leafChunks data :=
  List.mem_of_getElem? ((getElem?_leafChunks data i).trans (if_pos h))

theorem length_chunkAt (data : List UInt8) (i : ℕ) :
    (chunkAt data i).length = min leafSize (data.length - i * leafSize) := by
  unfold chunkAt
  rw [List.length_take, List.length_drop]

section Tree

variable {sha256 : List UInt8 → Digest} {data d : List UInt8}

theorem leafCount_of_ne_nil (h : data ≠ []) : (MerkleTree.build sha256 data).leafCount =
    satAdd u64Max data.length (leafSize - 1) / leafSize := by
  unfold MerkleTree.build
  exact if_neg h

/-- The leaf count does not exceed the leaves that the data has. -/
theorem lt_of_lt_leafCount {i : ℕ} (h : i < (MerkleTree.build sha256 data).leafCount) :
    i * leafSize < data.length := by
  by_cases hnil : data = []
  · subst hnil
    exact absurd h (Nat.not_lt_zero i)
  · rw [leafCount_of_ne_nil hnil, Nat.lt_div_iff_mul_lt leafSize_pos] at h
    have hle : satAdd u64Max data.length (leafSize - 1) ≤ data.length + (leafSize - 1) :=
      Nat.min_le_left _ _
    have := leafSize_pos
    omega

/-- **The leaf count** of a slice, which is not larger than an allocation. -/
theorem lt_leafCount_iff (hlen : data.length ≤ isizeMax) {i : ℕ} :
    i < (MerkleTree.build sha256 data).leafCount ↔ i * leafSize < data.length := by
  refine ⟨lt_of_lt_leafCount, fun h => ?_⟩
  have hne : data ≠ [] := by
    rintro rfl
    exact Nat.not_lt_zero _ h
  have hsat : satAdd u64Max data.length (leafSize - 1) = data.length + (leafSize - 1) := by
    refine satAdd_of_le ?_
    unfold isizeMax at hlen
    unfold u64Max leafSize
    omega
  rw [leafCount_of_ne_nil hne, hsat, Nat.lt_div_iff_mul_lt leafSize_pos]
  omega

theorem leafHash_build {i : ℕ} (h : i * leafSize < data.length) :
    (MerkleTree.build sha256 data).leafHash i = some (sha256 (chunkAt data i)) := by
  show ((leafChunks data).map sha256)[i]? = _
  rw [List.getElem?_map, getElem?_leafChunks, if_pos h]
  rfl

end Tree

/-! ### Proofs of leaves -/

/-- **Completeness**: every leaf has a proof, and the proof is accepted with the leaf's data. -/
theorem proof_complete (sha256 : List UInt8 → Digest) (data : List UInt8) (i : ℕ)
    (h : i < (MerkleTree.build sha256 data).leafCount) :
    ∃ p, (MerkleTree.build sha256 data).proof i = some p ∧
      (MerkleTree.build sha256 data).verifyProof sha256 (chunkAt data i) p = true := by
  have hlt := lt_of_lt_leafCount h
  refine ⟨_, if_neg (Nat.not_le.mpr h), ?_⟩
  have hleaf : ((leafChunks data).map sha256)[i]? = some (sha256 (chunkAt data i)) :=
    leafHash_build hlt
  have hroot : (MerkleTree.build sha256 data).rootHash =
      follow (combineHashes sha256) (sha256 (chunkAt data i))
        (siblings (MerkleTree.build sha256 data).levels i) := by
    have htop := follow_siblings (f := combineHashes sha256) hleaf
    exact congrArg (Option.getD · emptyHash) htop
  unfold MerkleTree.verifyProof
  rw [hroot]
  exact beq_self_eq_true _

theorem length_twoChunks : twoChunks.length = leafSize + 1 := List.length_replicate

theorem leafCount_twoChunks : (MerkleTree.build sha256Of twoChunks).leafCount = 2 := by
  have hpos : 0 < twoChunks.length := by
    rw [length_twoChunks]
    exact Nat.succ_pos _
  rw [leafCount_of_ne_nil (List.ne_nil_of_length_pos hpos), length_twoChunks]
  decide

theorem proof_complete_second_chunk : ∃ p, (MerkleTree.build sha256Of twoChunks).proof 1 = some p ∧
    (MerkleTree.build sha256Of twoChunks).verifyProof sha256Of (chunkAt twoChunks 1) p = true :=
  proof_complete sha256Of twoChunks 1 (by rw [leafCount_twoChunks]; decide)

/-! ### Data that agrees on the leaves both have -/

/-- The two agree on every leaf that both have. -/
def AgreeOnLeaves (data d : List UInt8) : Prop :=
  ∀ i, i * leafSize < data.length → i * leafSize < d.length → chunkAt d i = chunkAt data i

section Agree

variable {data d : List UInt8}

theorem AgreeOnLeaves.symm (h : AgreeOnLeaves data d) : AgreeOnLeaves d data :=
  fun i hd hdata => (h i hdata hd).symm

/-- A byte stands in the leaf it belongs to. -/
theorem getElem?_chunkAt (data : List UInt8) (j : ℕ) :
    (chunkAt data (j / leafSize))[j % leafSize]? = data[j]? := by
  unfold chunkAt
  rw [List.getElem?_take, if_pos (Nat.mod_lt j leafSize_pos), List.getElem?_drop,
    Nat.div_add_mod' j leafSize]

/-- **The shorter is the beginning of the longer**, and ends with a leaf unless they are equal. -/
theorem AgreeOnLeaves.eq_take (h : AgreeOnLeaves data d) (hle : d.length ≤ data.length) :
    d = data.take d.length ∧ (leafSize ∣ d.length ∨ d.length = data.length) := by
  constructor
  · refine List.ext_getElem? fun j => ?_
    rw [List.getElem?_take]
    split_ifs with hj
    · have hdiv : j / leafSize * leafSize < d.length := lt_of_le_of_lt (Nat.div_mul_le_self _ _) hj
      rw [← getElem?_chunkAt d j, ← getElem?_chunkAt data j, h _ (lt_of_lt_of_le hdiv hle) hdiv]
    · exact List.getElem?_eq_none (Nat.le_of_not_lt hj)
  · by_cases hdvd : leafSize ∣ d.length
    · exact Or.inl hdvd
    · right
      have hmod : 0 < d.length % leafSize :=
        Nat.pos_of_ne_zero fun h0 => hdvd (Nat.dvd_of_mod_eq_zero h0)
      have hsum := Nat.div_add_mod' d.length leafSize
      have hmodlt := Nat.mod_lt d.length leafSize_pos
      have hlast := congrArg List.length (h (d.length / leafSize) (by omega) (by omega))
      rw [length_chunkAt, length_chunkAt] at hlast
      omega

theorem agreeOnLeaves_take (data : List UInt8) (k : ℕ) :
    AgreeOnLeaves data (data.take (k * leafSize)) := by
  intro i _ hi
  rw [List.length_take] at hi
  have hik : (i + 1) * leafSize ≤ k * leafSize :=
    Nat.mul_le_mul_right _ (Nat.lt_of_mul_lt_mul_right (lt_of_lt_of_le hi (Nat.min_le_left _ _)))
  rw [Nat.succ_mul] at hik
  unfold chunkAt
  rw [List.drop_take, List.take_take, Nat.min_eq_left (by omega)]

theorem agreeOnLeaves_append (hdvd : leafSize ∣ data.length) (rest : List UInt8) :
    AgreeOnLeaves data (data ++ rest) := by
  intro i hi _
  obtain ⟨m, hm⟩ := hdvd
  rw [hm, Nat.mul_comm leafSize] at hi
  have him : (i + 1) * leafSize ≤ m * leafSize :=
    Nat.mul_le_mul_right _ (Nat.lt_of_mul_lt_mul_right hi)
  rw [Nat.succ_mul, Nat.mul_comm m, ← hm] at him
  unfold chunkAt
  rw [List.drop_append_of_le_length (by omega), List.take_append_of_le_length]
  rw [List.length_drop]
  omega

/-- **What agrees on the leaves**: the data cut after some leaf, or, if it ends with a leaf, the data
with more behind it. -/
theorem agreeOnLeaves_iff (data d : List UInt8) : AgreeOnLeaves data d ↔
    (∃ k, d = data.take (k * leafSize)) ∨ (leafSize ∣ data.length ∧ data <+: d) := by
  constructor
  · intro h
    rcases Nat.le_total d.length data.length with hle | hle
    · left
      obtain ⟨htake, hdvd | heq⟩ := h.eq_take hle
      · obtain ⟨k, hk⟩ := hdvd
        exact ⟨k, by rw [Nat.mul_comm, ← hk]; exact htake⟩
      · have hall : data.length ≤ data.length * leafSize :=
          Nat.le_mul_of_pos_right _ leafSize_pos
        rw [heq, List.take_length] at htake
        exact ⟨data.length, by rw [List.take_of_length_le hall]; exact htake⟩
    · obtain ⟨htake, hdvd | heq⟩ := h.symm.eq_take hle
      · exact Or.inr ⟨hdvd, by rw [htake]; exact List.take_prefix _ _⟩
      · have hall : data.length ≤ data.length * leafSize :=
          Nat.le_mul_of_pos_right _ leafSize_pos
        rw [heq, List.take_length] at htake
        exact Or.inl ⟨data.length, by rw [List.take_of_length_le hall]; exact htake.symm⟩
  · rintro (⟨k, rfl⟩ | ⟨hdvd, rest, rfl⟩)
    · exact agreeOnLeaves_take data k
    · exact agreeOnLeaves_append hdvd rest

end Agree

/-! ### Corrupt leaves -/

section Corrupt

variable {sha256 : List UInt8 → Digest} {data d : List UInt8}

theorem mem_corruptAmong {t : MerkleTree} : ∀ {chunks : List (List UInt8)} {idx i : ℕ},
    i ∈ t.corruptAmong sha256 idx chunks ↔ idx ≤ i ∧ i < t.leafCount ∧
      ∃ chunk, chunks[i - idx]? = some chunk ∧ t.verifyLeaf sha256 i chunk = false
  | [], idx, i => by simp [MerkleTree.corruptAmong]
  | chunk :: chunks, idx, i => by
    unfold MerkleTree.corruptAmong
    split_ifs with hidx hok
    · rw [List.nil_append, mem_corruptAmong]
      rcases Nat.lt_trichotomy i idx with hlt | rfl | hgt
      · exact ⟨fun h => absurd h.1 (by omega), fun h => absurd h.1 (by omega)⟩
      · refine ⟨fun h => absurd h.1 (by omega), ?_⟩
        rintro ⟨-, -, c, hc, hbad⟩
        rw [Nat.sub_self] at hc
        cases hc
        rw [hok] at hbad
        cases hbad
      · rw [show i - idx = i - (idx + 1) + 1 by omega, List.getElem?_cons_succ]
        exact and_congr_left fun _ => ⟨fun h => by omega, fun h => by omega⟩
    · rw [List.singleton_append, List.mem_cons, mem_corruptAmong]
      rcases Nat.lt_trichotomy i idx with hlt | rfl | hgt
      · refine ⟨fun h => ?_, fun h => absurd h.1 (by omega)⟩
        exact h.elim (fun he => absurd he (by omega)) fun h => absurd h.1 (by omega)
      · refine ⟨fun _ => ⟨le_rfl, hidx, chunk, ?_, Bool.eq_false_iff.mpr hok⟩, fun _ => Or.inl rfl⟩
        rw [Nat.sub_self]
        rfl
      · rw [show i - idx = i - (idx + 1) + 1 by omega, List.getElem?_cons_succ]
        refine ⟨fun h => ?_, fun h => Or.inr ⟨hgt, h.2⟩⟩
        exact ⟨hgt.le, (h.resolve_left (by omega)).2⟩
    · exact ⟨fun h => (by cases h), fun h => absurd h.2.1 (by omega)⟩

theorem corruptAmong_increasing {t : MerkleTree} : ∀ (chunks : List (List UInt8)) (idx : ℕ),
    (t.corruptAmong sha256 idx chunks).Pairwise (· < ·)
  | [], _ => List.Pairwise.nil
  | chunk :: chunks, idx => by
    have ih := corruptAmong_increasing (t := t) chunks (idx + 1)
    unfold MerkleTree.corruptAmong
    split_ifs
    · exact ih
    · exact List.pairwise_cons.mpr ⟨fun i hi => (mem_corruptAmong.mp hi).1, ih⟩
    · exact List.Pairwise.nil

/-- **Which leaves are found**: those that the data reaches and where it differs. -/
theorem mem_findCorruptLeaves (hfree : CollisionFree sha256 (leafChunks data ++ leafChunks d)) {i : ℕ} :
    i ∈ (MerkleTree.build sha256 data).findCorruptLeaves sha256 d ↔
      i < (MerkleTree.build sha256 data).leafCount ∧ i * leafSize < d.length ∧
        chunkAt d i ≠ chunkAt data i := by
  unfold MerkleTree.findCorruptLeaves
  rw [mem_corruptAmong, Nat.sub_zero, getElem?_leafChunks]
  refine ⟨?_, ?_⟩
  · rintro ⟨-, hlt, chunk, hchunk, hbad⟩
    split_ifs at hchunk with hreach
    cases hchunk
    refine ⟨hlt, hreach, fun heq => ?_⟩
    unfold MerkleTree.verifyLeaf at hbad
    rw [leafHash_build (lt_of_lt_leafCount hlt), heq] at hbad
    exact absurd (beq_self_eq_true _) (Bool.eq_false_iff.mp hbad)
  · rintro ⟨hlt, hreach, hne⟩
    have hdata := lt_of_lt_leafCount hlt
    refine ⟨Nat.zero_le i, hlt, chunkAt d i, if_pos hreach, ?_⟩
    unfold MerkleTree.verifyLeaf
    rw [leafHash_build hdata]
    refine Bool.eq_false_iff.mpr fun h => hne ?_
    exact hfree _ (List.mem_append_right _ (chunkAt_mem hreach)) _
      (List.mem_append_left _ (chunkAt_mem hdata)) (beq_iff_eq.mp h)

/-- Nothing is found if the data agrees on the leaves. -/
theorem findCorruptLeaves_eq_nil_iff (hlen : data.length ≤ isizeMax)
    (hfree : CollisionFree sha256 (leafChunks data ++ leafChunks d)) :
    (MerkleTree.build sha256 data).findCorruptLeaves sha256 d = [] ↔ AgreeOnLeaves data d := by
  rw [List.eq_nil_iff_forall_not_mem]
  refine forall_congr' fun i => ?_
  rw [mem_findCorruptLeaves hfree, lt_leafCount_iff hlen]
  constructor
  · intro h h1 h2
    by_contra hne
    exact h ⟨h1, h2, hne⟩
  · rintro h ⟨h1, h2, hne⟩
    exact hne (h h1 h2)

end Corrupt

/-- **What `find_corrupt_leaves` finds**, if no two leaves collide: the leaves that the data reaches
and where it differs from the original, in increasing order. It finds none if the data is the original
cut after some leaf, or the original with more behind its last leaf, if that is a whole one. -/
theorem find_corrupt_leaves (sha256 : List UInt8 → Digest) (data d : List UInt8)
    (hlen : data.length ≤ isizeMax)
    (hfree : CollisionFree sha256 (leafChunks data ++ leafChunks d)) :
    ((MerkleTree.build sha256 data).findCorruptLeaves sha256 d).Pairwise (· < ·) ∧
    (∀ i, i ∈ (MerkleTree.build sha256 data).findCorruptLeaves sha256 d ↔
      i * leafSize < data.length ∧ i * leafSize < d.length ∧ chunkAt d i ≠ chunkAt data i) ∧
    ((MerkleTree.build sha256 data).findCorruptLeaves sha256 d = [] ↔
      (∃ k, d = data.take (k * leafSize)) ∨ (leafSize ∣ data.length ∧ data <+: d)) := by
  refine ⟨corruptAmong_increasing _ 0, fun i => ?_, ?_⟩
  · rw [mem_findCorruptLeaves hfree, lt_leafCount_iff hlen]
  · rw [findCorruptLeaves_eq_nil_iff hlen hfree, agreeOnLeaves_iff]

theorem leafChunks_zero : leafChunks [0] = [[0]] := by
  rw [leafChunks_eq_chunks, chunks_of_length_le leafSize_pos (List.cons_ne_nil _ _) (by decide)]

theorem length_twoChunks_le : twoChunks.length ≤ isizeMax := by
  rw [length_twoChunks]
  decide

/-- The second chunk in the place of the first. -/
theorem find_corrupt_leaves_first :
    0 ∈ (MerkleTree.build sha256Of twoChunks).findCorruptLeaves sha256Of [0] := by
  have hfree : CollisionFree sha256Of (leafChunks twoChunks ++ leafChunks [0]) := by
    rw [leafChunks_twoChunks, leafChunks_zero]
    exact collisionFree_pairStrings (by simp [pairStrings])
  have hpos : 0 * leafSize < twoChunks.length := by
    rw [length_twoChunks]
    decide
  have hfirst := getElem?_leafChunks twoChunks 0
  rw [if_pos hpos, leafChunks_twoChunks, List.getElem?_cons_zero] at hfirst
  refine ((find_corrupt_leaves sha256Of twoChunks [0] length_twoChunks_le hfree).2.1 0).mpr
    ⟨hpos, by decide, fun h => ?_⟩
  have hlen := congrArg List.length h
  rw [← Option.some.inj hfirst, List.length_replicate] at hlen
  exact absurd hlen (by decide)

/-- **The second chunk is missing, and nothing is found.** -/
theorem missing_leaf_not_found :
    CollisionFree sha256Of (leafChunks twoChunks ++ leafChunks (twoChunks.take leafSize)) ∧
    (MerkleTree.build sha256Of twoChunks).findCorruptLeaves sha256Of (twoChunks.take leafSize) = [] ∧
    twoChunks.take leafSize ≠ twoChunks := by
  have htake : twoChunks.take leafSize = List.replicate leafSize 0 := by
    unfold twoChunks
    rw [List.take_replicate, Nat.min_eq_left (Nat.le_succ _)]
  have hchunks : leafChunks (twoChunks.take leafSize) = [List.replicate leafSize 0] := by
    rw [htake, leafChunks_eq_chunks, chunks_of_length_le leafSize_pos]
    · exact List.ne_nil_of_length_pos (by rw [List.length_replicate]; exact leafSize_pos)
    · exact List.length_replicate.le
  have hfree : CollisionFree sha256Of
      (leafChunks twoChunks ++ leafChunks (twoChunks.take leafSize)) := by
    rw [leafChunks_twoChunks, hchunks]
    exact collisionFree_pairStrings (by simp [pairStrings])
  refine ⟨hfree, (findCorruptLeaves_eq_nil_iff length_twoChunks_le hfree).mpr ?_, fun h => ?_⟩
  · have hagree := agreeOnLeaves_take twoChunks 1
    rwa [Nat.one_mul] at hagree
  · have hlen := congrArg List.length h
    rw [List.length_take, length_twoChunks] at hlen
    omega

end CncContent.Merkle.Leaves
