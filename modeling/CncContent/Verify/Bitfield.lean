import CncContent.Lib.BitBlocks
import Mathlib.Data.Finset.Card

/-! # The verification bitfield

`VerifyBitfield` of the source: 16 lanes of four words, and the number of files it is about. A lane is a
`u64x4` of the crate `wide`, which is not part of the source: its conversions from and to arrays keep the
words and their order, and its operators `&`, `|` and `!` act on each word by itself (`zipLanes`). No bit
behind this number is set, which is part of the structure, since the complement in `and_not` would
otherwise bring such bits forth. The abstract side is a set of indices; whatever is built by `new`, `set`,
`and`, `or` and `and_not` is such a set with its length (`refines`). -/

namespace CncContent.Verify.Bitfield

open CncContent.Lib.BitBlocks

def maxFiles : ℕ := 16 * 256

abbrev Lane := Vector (BitVec 64) 4

abbrev Lanes := Vector Lane 16

def laneBit (lane : Lane) : ℕ → Bool := blockBit 64 BitVec.getLsbD lane.toList

def bitAt (lanes : Lanes) : ℕ → Bool := blockBit 256 laneBit lanes.toList

def zeroLanes : Lanes := Vector.replicate 16 (Vector.replicate 4 0)

/-- The part of `set` that changes the lanes. -/
def setBit (lanes : Lanes) (index : ℕ) : Lanes :=
  let lane := index / 256
  let bitInLane := index % 256
  let word := bitInLane / 64
  let bit := bitInLane % 64
  match lanes[lane]? with
  | none => lanes
  | some arr =>
    match arr[word]? with
    | none => lanes
    | some w => lanes.setIfInBounds lane (arr.setIfInBounds word (w ||| 1 <<< bit))

/-- An operation on the words, lane by lane. -/
def zipLanes (op : BitVec 64 → BitVec 64 → BitVec 64) (a b : Lanes) : Lanes :=
  Vector.zipWith (Vector.zipWith op) a b

/-! ### Bits -/

theorem bitAt_zeroLanes (i : ℕ) : bitAt zeroLanes i = false := by
  refine blockBit_eq_false fun lane hlane => blockBit_eq_false fun w hw => ?_
  rw [zeroLanes, Vector.mem_toList_iff, Vector.mem_replicate] at hlane
  rw [hlane.2, Vector.mem_toList_iff, Vector.mem_replicate] at hw
  rw [hw.2]
  exact BitVec.getLsbD_zero

theorem bitAt_zipLanes {op : BitVec 64 → BitVec 64 → BitVec 64} {f : Bool → Bool → Bool}
    (hf : f false false = false)
    (hop : ∀ x y k, k < 64 → (op x y).getLsbD k = f (x.getLsbD k) (y.getLsbD k)) (a b : Lanes) (i : ℕ) :
    bitAt (zipLanes op a b) i = f (bitAt a i) (bitAt b i) := by
  have hlane : ∀ (x y : Lane) (k : ℕ), k < 256 →
      laneBit (Vector.zipWith op x y) k = f (laneBit x k) (laneBit y k) := fun x y k _ => by
    unfold laneBit
    rw [Vector.toList_zipWith]
    exact blockBit_zipWith (by decide) hf hop (by simp) k
  unfold bitAt zipLanes
  rw [Vector.toList_zipWith]
  exact blockBit_zipWith (by decide) hf hlane (by simp) i

/-- **One bit is set.** -/
theorem bitAt_setBit {lanes : Lanes} {i : ℕ} (h : i < maxFiles) (j : ℕ) :
    bitAt (setBit lanes i) j = (bitAt lanes j || decide (j = i)) := by
  have hlane : i / 256 < 16 := Nat.div_lt_of_lt_mul h
  have hword : i % 256 / 64 < 4 := Nat.div_lt_of_lt_mul (Nat.mod_lt i (by decide))
  have hset : setBit lanes i = lanes.setIfInBounds (i / 256)
      (lanes[i / 256].setIfInBounds (i % 256 / 64)
        (lanes[i / 256][i % 256 / 64] ||| 1 <<< (i % 256 % 64))) := by
    unfold setBit
    dsimp only
    rw [Vector.getElem?_eq_getElem hlane]
    dsimp only
    rw [Vector.getElem?_eq_getElem hword]
  have hbit : ∀ (w : BitVec 64) (k : ℕ), (w ||| 1 <<< (i % 256 % 64)).getLsbD k =
      (w.getLsbD k || decide (k = i % 256 % 64)) := fun w k => by
    have hlt : i % 256 % 64 < 64 := Nat.mod_lt _ (by decide)
    rw [BitVec.getLsbD_or]
    exact congrArg _ (getLsbD_one_shiftLeft hlt k)
  have hlanebit : ∀ k, laneBit (lanes[i / 256].setIfInBounds (i % 256 / 64)
      (lanes[i / 256][i % 256 / 64] ||| 1 <<< (i % 256 % 64))) k =
        (laneBit lanes[i / 256] k || decide (k = i % 256)) := fun k => by
    unfold laneBit
    rw [Vector.toList_setIfInBounds]
    exact blockBit_set (by rw [Vector.getElem?_toList, Vector.getElem?_eq_getElem hword]) (hbit _) k
  rw [hset]
  unfold bitAt
  rw [Vector.toList_setIfInBounds]
  exact blockBit_set (by rw [Vector.getElem?_toList, Vector.getElem?_eq_getElem hlane]) hlanebit j

/-! ### The bitfield -/

/-- No bit is set behind the files. -/
structure VerifyBitfield where
  lanes : Lanes
  len : ℕ
  len_le : len ≤ maxFiles
  clear : ∀ i, len ≤ i → bitAt lanes i = false

/-- The loop over a word: the lowest one is taken and cleared until there is none. -/
def wordIndices (len base : ℕ) (w : BitVec 64) : List ℕ :=
  if _h : w = 0 then []
  else
    let index := base + w.ctz.toNat
    let rest := wordIndices len base (w &&& (w - 1))
    if index < len then index :: rest else rest
termination_by w.toNat
decreasing_by exact toNat_clearLowest_lt _h

namespace VerifyBitfield

/-- The assertion fails for more files. -/
def new (fileCount : ℕ) : Option VerifyBitfield :=
  if h : fileCount ≤ maxFiles then some ⟨zeroLanes, fileCount, h, fun i _ => bitAt_zeroLanes i⟩
  else none

def set (b : VerifyBitfield) (index : ℕ) : VerifyBitfield :=
  if h : b.len ≤ index then b
  else
    { b with
      lanes := setBit b.lanes index
      clear := fun i hi => by
        have hlt := Nat.lt_of_not_le h
        rw [bitAt_setBit (hlt.trans_le b.len_le), b.clear i hi]
        exact decide_eq_false (Nat.ne_of_gt (hlt.trans_le hi)) }

def get (b : VerifyBitfield) (index : ℕ) : Bool :=
  if b.len ≤ index then false
  else
    match b.lanes[index / 256]? with
    | none => false
    | some arr =>
      arr[index % 256 / 64]?.any fun w : BitVec 64 => decide (w &&& (1 <<< (index % 256 % 64)) ≠ 0)

def countOnes (b : VerifyBitfield) : ℕ :=
  (b.lanes.toList.map fun lane => (lane.toList.map fun w => w.cpop.toNat).sum).sum

/-- `none` if the subtraction underflows. -/
def countFailures (b : VerifyBitfield) : Option ℕ :=
  if b.countOnes ≤ b.len then some (b.len - b.countOnes) else none

/-- What `and`, `or` and `and_not` have in common; `new` does not fail for the larger length. -/
def combine (op : BitVec 64 → BitVec 64 → BitVec 64) {f : Bool → Bool → Bool} (hf : f false false = false)
    (hop : ∀ x y k, k < 64 → (op x y).getLsbD k = f (x.getLsbD k) (y.getLsbD k))
    (b other : VerifyBitfield) : VerifyBitfield where
  lanes := zipLanes op b.lanes other.lanes
  len := max b.len other.len
  len_le := max_le b.len_le other.len_le
  clear := fun i hi => by
    rw [bitAt_zipLanes hf hop, b.clear i ((le_max_left _ _).trans hi),
      other.clear i ((le_max_right _ _).trans hi), hf]

def and (b other : VerifyBitfield) : VerifyBitfield :=
  combine (f := (· && ·)) (· &&& ·) rfl (fun _ _ _ _ => BitVec.getLsbD_and) b other

def or (b other : VerifyBitfield) : VerifyBitfield :=
  combine (f := (· || ·)) (· ||| ·) rfl (fun _ _ _ _ => BitVec.getLsbD_or) b other

theorem getLsbD_andNot (x y : BitVec 64) (k : ℕ) (hk : k < 64) :
    (x &&& ~~~y).getLsbD k = (x.getLsbD k && !y.getLsbD k) := by
  rw [BitVec.getLsbD_and, BitVec.getLsbD_not, decide_eq_true hk, Bool.true_and]

def andNot (b other : VerifyBitfield) : VerifyBitfield :=
  combine (f := fun x y => x && !y) (fun x y => x &&& ~~~y) rfl getLsbD_andNot b other

def setIndices (b : VerifyBitfield) : List ℕ :=
  b.lanes.toList.zipIdx.flatMap fun lane => lane.1.toList.zipIdx.flatMap fun word =>
    wordIndices b.len (lane.2 * 256 + word.2 * 64) word.1

/-! ### What is read off the bits -/

variable (b : VerifyBitfield)

theorem get_eq (i : ℕ) : b.get i = bitAt b.lanes i := by
  unfold get
  split_ifs with hlen
  · exact (b.clear i hlen).symm
  · unfold bitAt blockBit
    rw [Vector.getElem?_toList]
    cases b.lanes[i / 256]? with
    | none => rfl
    | some arr =>
      show _ = laneBit arr (i % 256)
      unfold laneBit blockBit
      rw [Vector.getElem?_toList]
      refine congrArg (Option.any · _) (funext fun w => ?_)
      rw [← Bool.decide_coe (w.getLsbD (i % 256 % 64)), decide_eq_decide]
      exact and_one_shiftLeft_ne_zero w (Nat.mod_lt _ (by decide))

theorem wordIndices_eq (len base : ℕ) (w : BitVec 64) :
    wordIndices len base w = ((scan w).map (base + ·)).filter (· < len) := by
  fun_induction wordIndices len base w with
  | case1 => rw [scan]; rfl
  | case2 w h index rest hlt ih =>
    rw [scan, dif_neg h, List.map_cons, List.filter_cons, if_pos (by exact decide_eq_true hlt)]
    exact congrArg (index :: ·) ih
  | case3 w h index rest hlt ih =>
    rw [scan, dif_neg h, List.map_cons, List.filter_cons,
      if_neg fun hdec => hlt (of_decide_eq_true hdec)]
    exact ih

/-- **The indices that are listed** are the places of the ones. -/
theorem setIndices_eq : b.setIndices = (List.range maxFiles).filter (bitAt b.lanes) := by
  have hword : ∀ (w : BitVec 64) (base : ℕ),
      (scan w).map (base + ·) = ((List.range 64).filter w.getLsbD).map (base + ·) := fun w base => by
    rw [scan_eq]
  have hlane : ∀ (lane : Lane) (base : ℕ),
      lane.toList.zipIdx.flatMap (fun word => (scan word.1).map (base + word.2 * 64 + ·)) =
        ((List.range 256).filter (laneBit lane)).map (base + ·) := fun lane base => by
    rw [flatMap_ones (by decide) hword lane.toList 0 base, Vector.length_toList, Nat.zero_mul, Nat.add_zero]
    rfl
  have hrow : b.lanes.toList.zipIdx.flatMap (fun lane => lane.1.toList.zipIdx.flatMap fun word =>
      (scan word.1).map (0 + lane.2 * 256 + word.2 * 64 + ·)) =
        (List.range maxFiles).filter (bitAt b.lanes) := by
    rw [flatMap_ones (by decide) hlane b.lanes.toList 0 0, Vector.length_toList]
    simp [bitAt, maxFiles]
  have hlen : (b.setIndices) = (b.lanes.toList.zipIdx.flatMap fun lane => lane.1.toList.zipIdx.flatMap
      fun word => (scan word.1).map (0 + lane.2 * 256 + word.2 * 64 + ·)).filter (· < b.len) := by
    unfold setIndices
    simp only [wordIndices_eq, List.filter_flatMap, Nat.zero_add]
  rw [hlen, hrow, List.filter_eq_self]
  intro i hi
  refine decide_eq_true (Nat.lt_of_not_le fun hle => ?_)
  rw [List.mem_filter, b.clear i hle] at hi
  exact Bool.false_ne_true hi.2

theorem countOnes_eq : b.countOnes = (List.range maxFiles).countP (bitAt b.lanes) := by
  have hlane : ∀ lane : Lane, (lane.toList.map fun w => w.cpop.toNat).sum =
      (List.range 256).countP (laneBit lane) := fun lane => by
    rw [sum_counts (by decide) cpop_eq lane.toList, Vector.length_toList]
    rfl
  unfold countOnes
  rw [sum_counts (by decide) hlane b.lanes.toList, Vector.length_toList]
  rfl

end VerifyBitfield

/-! ### Sets of indices -/

/-- How a bitfield is built. -/
inductive Term
  | new (fileCount : ℕ)
  | set (t : Term) (index : ℕ)
  | and (t u : Term)
  | or (t u : Term)
  | andNot (t u : Term)

namespace Term

/-- `none` if an assertion fails. -/
def eval : Term → Option VerifyBitfield
  | new fileCount => VerifyBitfield.new fileCount
  | set t index => t.eval.map (·.set index)
  | and t u => t.eval.bind fun b => u.eval.map fun c => b.and c
  | or t u => t.eval.bind fun b => u.eval.map fun c => b.or c
  | andNot t u => t.eval.bind fun b => u.eval.map fun c => b.andNot c

/-- The number of files, as it ought to be. -/
def len : Term → ℕ
  | new fileCount => fileCount
  | set t _ => t.len
  | and t u | or t u | andNot t u => max t.len u.len

/-- The set of indices, as it ought to be. -/
def indices : Term → Finset ℕ
  | new _ => ∅
  | set t index => if index < t.len then insert index t.indices else t.indices
  | and t u => t.indices ∩ u.indices
  | or t u => t.indices ∪ u.indices
  | andNot t u => t.indices \ u.indices

/-- No bitfield is for more files than there is room for. -/
def Fits : Term → Prop
  | new fileCount => fileCount ≤ maxFiles
  | set t _ => t.Fits
  | and t u | or t u | andNot t u => t.Fits ∧ u.Fits

/-- The bitfield is the set with its length. -/
structure Denotes (t : Term) (b : VerifyBitfield) : Prop where
  len : b.len = t.len
  bits : ∀ i, bitAt b.lanes i = decide (i ∈ t.indices)

variable {t u : Term} {b c : VerifyBitfield}

theorem Denotes.set (h : Denotes t b) (i : ℕ) : Denotes (t.set i) (b.set i) := by
  unfold VerifyBitfield.set
  split_ifs with hlen
  · have hout : ¬ i < t.len := h.len ▸ Nat.not_lt.mpr hlen
    refine ⟨h.len, fun j => ?_⟩
    rw [indices, if_neg hout]
    exact h.bits j
  · have hin : i < t.len := h.len ▸ Nat.lt_of_not_le hlen
    refine ⟨h.len, fun j => ?_⟩
    show bitAt (setBit b.lanes i) j = _
    rw [bitAt_setBit ((Nat.lt_of_not_le hlen).trans_le b.len_le), h.bits, indices, if_pos hin]
    rw [Bool.eq_iff_iff]
    simp [or_comm]

/-- Bitfields combined bit by bit are sets combined element by element. -/
theorem Denotes.combine {op : BitVec 64 → BitVec 64 → BitVec 64} {f : Bool → Bool → Bool}
    (hf : f false false = false)
    (hop : ∀ x y k, k < 64 → (op x y).getLsbD k = f (x.getLsbD k) (y.getLsbD k)) {v : Term}
    (h : Denotes t b) (h' : Denotes u c) (hlen : max t.len u.len = v.len)
    (hmem : ∀ i, f (decide (i ∈ t.indices)) (decide (i ∈ u.indices)) = decide (i ∈ v.indices)) :
    Denotes v (VerifyBitfield.combine op hf hop b c) := by
  refine ⟨(congrArg₂ max h.len h'.len).trans hlen, fun i => ?_⟩
  show bitAt (zipLanes op b.lanes c.lanes) i = _
  rw [bitAt_zipLanes hf hop, h.bits, h'.bits, hmem]

theorem Denotes.and (h : Denotes t b) (h' : Denotes u c) : Denotes (t.and u) (b.and c) :=
  h.combine _ _ h' rfl fun i => by simp [indices]

theorem Denotes.or (h : Denotes t b) (h' : Denotes u c) : Denotes (t.or u) (b.or c) :=
  h.combine _ _ h' rfl fun i => by simp [indices]

theorem Denotes.andNot (h : Denotes t b) (h' : Denotes u c) : Denotes (t.andNot u) (b.andNot c) :=
  h.combine _ _ h' rfl fun i => by simp [indices]

/-- Both operands are there if the result is. -/
theorem exists_of_eval_bind {f : VerifyBitfield → VerifyBitfield → VerifyBitfield}
    (h : (t.eval.bind fun c => u.eval.map fun d => f c d) = some b) :
    ∃ c d, t.eval = some c ∧ u.eval = some d ∧ f c d = b := by
  obtain ⟨c, hc, h⟩ := Option.bind_eq_some_iff.mp h
  obtain ⟨d, hd, h⟩ := Option.map_eq_some_iff.mp h
  exact ⟨c, d, hc, hd, h⟩

/-- **What is built** is the set that it ought to be. -/
theorem denotes_of_eval : ∀ {t : Term} {b : VerifyBitfield}, t.eval = some b → Denotes t b
  | new fileCount, b, h => by
    unfold eval VerifyBitfield.new at h
    split_ifs at h with hfit
    cases h
    exact ⟨rfl, fun i => bitAt_zeroLanes i⟩
  | set t i, b, h => by
    obtain ⟨c, hc, rfl⟩ := Option.map_eq_some_iff.mp h
    exact (denotes_of_eval hc).set i
  | and t u, b, h => by
    obtain ⟨c, d, hc, hd, rfl⟩ := exists_of_eval_bind h
    exact (denotes_of_eval hc).and (denotes_of_eval hd)
  | or t u, b, h => by
    obtain ⟨c, d, hc, hd, rfl⟩ := exists_of_eval_bind h
    exact (denotes_of_eval hc).or (denotes_of_eval hd)
  | andNot t u, b, h => by
    obtain ⟨c, d, hc, hd, rfl⟩ := exists_of_eval_bind h
    exact (denotes_of_eval hc).andNot (denotes_of_eval hd)

theorem isSome_eval_iff : ∀ t : Term, t.eval.isSome = true ↔ t.Fits
  | new fileCount => by
    unfold eval VerifyBitfield.new Fits
    split_ifs with h <;> simp [h]
  | set t i => by
    rw [eval, Option.isSome_map]
    exact isSome_eval_iff t
  | and t u | or t u | andNot t u => by
    rw [Fits, ← isSome_eval_iff t, ← isSome_eval_iff u, eval]
    cases t.eval <;> simp

/-- The indices are those of files. -/
theorem lt_len_of_mem : ∀ {t : Term} {i : ℕ}, i ∈ t.indices → i < t.len
  | new _, i, h => absurd h (Finset.notMem_empty i)
  | set t j, i, h => by
    unfold indices at h
    split_ifs at h with hj
    · rcases Finset.mem_insert.mp h with rfl | h
      · exact hj
      · exact lt_len_of_mem (t := t) h
    · exact lt_len_of_mem (t := t) h
  | and t u, i, h => lt_max_of_lt_left (lt_len_of_mem (Finset.mem_inter.mp h).1)
  | or t u, i, h => (Finset.mem_union.mp h).elim (fun h => lt_max_of_lt_left (lt_len_of_mem h))
      fun h => lt_max_of_lt_right (lt_len_of_mem h)
  | andNot t u, i, h => lt_max_of_lt_left (lt_len_of_mem (Finset.mem_sdiff.mp h).1)

/-- The set is read off the bits. -/
theorem Denotes.indices_eq (h : Denotes t b) :
    t.indices = ((List.range maxFiles).filter (bitAt b.lanes)).toFinset := by
  ext i
  rw [List.mem_toFinset, List.mem_filter, List.mem_range, h.bits, decide_eq_true_iff]
  refine ⟨fun hi => ⟨?_, hi⟩, And.right⟩
  exact (lt_len_of_mem hi).trans_le (h.len ▸ b.len_le)

theorem Denotes.countOnes_eq_card (h : Denotes t b) : b.countOnes = t.indices.card := by
  have hnodup : ((List.range maxFiles).filter (bitAt b.lanes)).Nodup := List.nodup_range.filter _
  rw [h.indices_eq, List.toFinset_card_of_nodup hnodup, b.countOnes_eq, List.countP_eq_length_filter]

/-- There are no more ones than files. -/
theorem card_le (t : Term) : t.indices.card ≤ t.len := by
  have hsub : t.indices ⊆ Finset.range t.len := fun i hi => Finset.mem_range.mpr (lt_len_of_mem hi)
  exact (Finset.card_le_card hsub).trans_eq (Finset.card_range _)

/-- **A bitfield is a set of indices.** Whatever is built, with bitfields of whatever lengths, has the
larger length and the bits of the set, is counted and listed as the set, and has as many failures as the
set leaves out. It can be built if no bitfield is for too many files. -/
theorem refines (t : Term) : (t.eval.isSome = true ↔ t.Fits) ∧ ∀ b, t.eval = some b →
    b.len = t.len ∧ (∀ i ∈ t.indices, i < t.len) ∧ (∀ i, b.get i = decide (i ∈ t.indices)) ∧
      b.countOnes = t.indices.card ∧ b.setIndices.Pairwise (· < ·) ∧
      (∀ i, i ∈ b.setIndices ↔ i ∈ t.indices) ∧
      t.indices.card ≤ t.len ∧ b.countFailures = some (t.len - t.indices.card) := by
  refine ⟨isSome_eval_iff t, fun b hb => ?_⟩
  have h := denotes_of_eval hb
  refine ⟨h.len, fun i => lt_len_of_mem, fun i => ?_, h.countOnes_eq_card, ?_, fun i => ?_, card_le t, ?_⟩
  · rw [b.get_eq, h.bits]
  · rw [b.setIndices_eq]
    exact List.pairwise_lt_range.sublist List.filter_sublist
  · rw [b.setIndices_eq, h.indices_eq, List.mem_toFinset]
  · rw [VerifyBitfield.countFailures, h.countOnes_eq_card, h.len, if_pos (card_le t)]

/-- Two of 400 files, without those of 2 files. -/
def sample : Term := .andNot (.set (.set (.set (.new 400) 3) 300) 400) (.set (.new 2) 1)

theorem refines_sample : sample.eval.bind VerifyBitfield.countFailures = some 398 := by
  have hfits : sample.Fits := ⟨show 400 ≤ maxFiles by decide, show 2 ≤ maxFiles by decide⟩
  obtain ⟨b, hb⟩ := Option.isSome_iff_exists.mp ((refines sample).1.mpr hfits)
  have hcard : sample.len - sample.indices.card = 398 := by decide +kernel
  rw [hb, Option.bind_some, ← hcard]
  exact ((refines sample).2 b hb).2.2.2.2.2.2.2

end Term

end CncContent.Verify.Bitfield
