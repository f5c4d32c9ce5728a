import Mathlib.Algebra.GroupWithZero.Nat
import Mathlib.Data.List.Count
import Mathlib.Tactic.SplitIfs

/-! # Rows of bits in blocks

A word with its lowest bit cleared has all its other ones (`getLsbD_clearLowest`), so that a loop that
takes the lowest one and clears it finds all of them in increasing order (`scan_eq`).

A row is cut into blocks of `s` bits, which may be words or rows of words themselves. Rows are combined
bit by bit where their blocks are (`blockBit_zipWith`). The ones of the row are found in the blocks one
after the other (`flatMap_ones`), and their number is the sum of the numbers for the blocks
(`sum_counts`). -/

namespace CncContent.Lib.BitBlocks

/-! ### Words -/

section Words

variable {n : ℕ}

def clearLowest (w : BitVec n) : BitVec n := w &&& (w - 1)

theorem toNat_sub_one {w : BitVec n} (h : w ≠ 0) : (w - 1).toNat = w.toNat - 1 := by
  have hpos : 0 < w.toNat := Nat.pos_of_ne_zero fun hzero => h (BitVec.eq_of_toNat_eq hzero)
  have hlt := w.isLt
  have hone : (1 : BitVec n).toNat = 1 := by
    show 1 % 2 ^ n = 1
    exact Nat.mod_eq_of_lt (by omega)
  rw [BitVec.toNat_sub_of_le (by rw [BitVec.le_def, hone]; exact hpos), hone]

theorem toNat_clearLowest_lt {w : BitVec n} (h : w ≠ 0) : (clearLowest w).toNat < w.toNat := by
  have hpos : 0 < w.toNat := Nat.pos_of_ne_zero fun hzero => h (BitVec.eq_of_toNat_eq hzero)
  rw [clearLowest, BitVec.toNat_and, toNat_sub_one h]
  exact Nat.lt_of_le_of_lt Nat.and_le_right (by omega)

/-- A number whose lowest one is at `t`. -/
theorem eq_of_lowest {x t : ℕ} (ht : x.testBit t = true) (hlow : ∀ j < t, x.testBit j = false) :
    x = 2 ^ (t + 1) * (x / 2 ^ (t + 1)) + 2 ^ t := by
  have hmod : x % 2 ^ (t + 1) = 2 ^ t := by
    refine Nat.eq_of_testBit_eq fun j => ?_
    rw [Nat.testBit_mod_two_pow, Nat.testBit_two_pow]
    rcases Nat.lt_trichotomy j t with hj | rfl | hj
    · simp [hlow j hj, Nat.ne_of_gt hj]
    · simp [ht]
    · simp [Nat.ne_of_lt hj, Nat.not_lt.mpr hj]
  rw [← hmod, Nat.div_add_mod]

theorem testBit_and_sub_one {x t : ℕ} (ht : x.testBit t = true) (hlow : ∀ j < t, x.testBit j = false)
    (j : ℕ) : (x &&& (x - 1)).testBit j = (x.testBit j && decide (j ≠ t)) := by
  have hx := eq_of_lowest ht hlow
  have hpow : 2 ^ t < 2 ^ (t + 1) := Nat.pow_lt_pow_right (by decide) (Nat.lt_succ_self t)
  have hpos : 0 < 2 ^ t := Nat.two_pow_pos t
  have hpred : x - 1 = 2 ^ (t + 1) * (x / 2 ^ (t + 1)) + (2 ^ t - 1) := by omega
  rw [Nat.testBit_and]
  rcases Nat.lt_trichotomy j t with hj | rfl | hj
  · rw [hlow j hj, Bool.false_and, Bool.false_and]
  · rw [hpred, Nat.testBit_two_pow_mul_add _ (by omega), if_pos (Nat.lt_succ_self j),
      Nat.testBit_two_pow_sub_one]
    simp
  · have hsame : (x - 1).testBit j = x.testBit j := by
      conv_rhs => rw [hx]
      rw [hpred, Nat.testBit_two_pow_mul_add _ (by omega), Nat.testBit_two_pow_mul_add _ hpow,
        if_neg (by omega), if_neg (by omega)]
    rw [hsame, Bool.and_self, decide_eq_true (Nat.ne_of_gt hj), Bool.and_true]

/-- **The lowest one is cleared**, and no other one. -/
theorem getLsbD_clearLowest {w : BitVec n} (h : w ≠ 0) (j : ℕ) :
    (clearLowest w).getLsbD j = (w.getLsbD j && decide (j ≠ w.ctz.toNat)) := by
  have hand : (clearLowest w).toNat = w.toNat &&& (w.toNat - 1) := by
    rw [clearLowest, BitVec.toNat_and, toNat_sub_one h]
  rw [BitVec.getLsbD, hand]
  exact testBit_and_sub_one (BitVec.getLsbD_true_ctz_of_ne_zero h)
    (fun j hj => BitVec.getLsbD_false_of_lt_ctz hj) j

/-- A word is masked to look at one bit. -/
theorem and_one_shiftLeft_ne_zero (w : BitVec n) {k : ℕ} (hk : k < n) :
    w &&& 1#n <<< k ≠ 0 ↔ w.getLsbD k = true := by
  have hone : (BitVec.twoPow n k).getLsbD k = true := by
    rw [BitVec.getLsbD_twoPow, decide_eq_true hk, decide_eq_true rfl]
    rfl
  have hne : BitVec.twoPow n k ≠ 0 := fun hzero => by
    rw [hzero] at hone
    exact Bool.false_ne_true (BitVec.getLsbD_zero.symm.trans hone)
  show w &&& BitVec.twoPow n k ≠ 0 ↔ _
  rw [BitVec.and_twoPow]
  cases w.getLsbD k with
  | false => exact iff_of_false (fun h => h rfl) Bool.false_ne_true
  | true => exact iff_of_true hne rfl

theorem getLsbD_one_shiftLeft {k : ℕ} (hk : k < n) (j : ℕ) :
    (1#n <<< k).getLsbD j = decide (j = k) := by
  show (BitVec.twoPow n k).getLsbD j = _
  rw [BitVec.getLsbD_twoPow, decide_eq_true hk, Bool.true_and, decide_eq_decide]
  exact eq_comm

/-- The places of the ones, from the lowest on. -/
def scan (w : BitVec n) : List ℕ :=
  if _h : w = 0 then [] else w.ctz.toNat :: scan (clearLowest w)
termination_by w.toNat
decreasing_by exact toNat_clearLowest_lt _h

theorem mem_scan {w : BitVec n} {i : ℕ} : i ∈ scan w ↔ w.getLsbD i = true := by
  fun_induction scan w with
  | case1 => simp
  | case2 w h ih =>
    rw [List.mem_cons, ih, getLsbD_clearLowest h, Bool.and_eq_true, decide_eq_true_iff]
    constructor
    · rintro (rfl | ⟨hi, -⟩)
      · exact BitVec.getLsbD_true_ctz_of_ne_zero h
      · exact hi
    · intro hi
      by_cases heq : i = w.ctz.toNat
      · exact Or.inl heq
      · exact Or.inr ⟨hi, heq⟩

theorem pairwise_scan (w : BitVec n) : (scan w).Pairwise (· < ·) := by
  fun_induction scan w with
  | case1 => exact List.Pairwise.nil
  | case2 w h ih =>
    refine List.pairwise_cons.mpr ⟨fun i hi => ?_, ih⟩
    rw [mem_scan, getLsbD_clearLowest h, Bool.and_eq_true, decide_eq_true_iff] at hi
    refine Nat.lt_of_le_of_ne (Nat.le_of_not_lt fun hlt => ?_) (Ne.symm hi.2)
    rw [BitVec.getLsbD_false_of_lt_ctz hlt] at hi
    exact Bool.false_ne_true hi.1

/-- **The scan finds the ones** in increasing order. -/
theorem scan_eq (w : BitVec n) : scan w = (List.range n).filter w.getLsbD := by
  have hrange : ((List.range n).filter w.getLsbD).Pairwise (· < ·) :=
    List.pairwise_lt_range.sublist List.filter_sublist
  refine List.Perm.eq_of_pairwise (fun a b _ _ hab hba => absurd hba (Nat.lt_asymm hab))
    (pairwise_scan w) hrange ?_
  refine (List.perm_ext_iff_of_nodup ((pairwise_scan w).imp fun h => Nat.ne_of_lt h)
    (hrange.imp fun h => Nat.ne_of_lt h)).mpr fun i => ?_
  rw [mem_scan, List.mem_filter, List.mem_range]
  exact ⟨fun hi => ⟨BitVec.lt_of_getLsbD hi, hi⟩, And.right⟩

theorem cpop_eq (w : BitVec n) : w.cpop.toNat = (List.range n).countP w.getLsbD := by
  have hcount : ∀ k, w.cpopNatRec k 0 = (List.range k).countP w.getLsbD := by
    intro k
    induction k with
    | zero => rfl
    | succ k ih =>
      rw [BitVec.cpopNatRec_succ, BitVec.cpopNatRec_add, ih, List.range_succ, List.countP_append,
        List.countP_singleton]
      cases w.getLsbD k <;> simp
  rw [BitVec.toNat_cpop, hcount]

end Words

/-! ### Blocks -/

section Blocks

variable {α : Type*} (s : ℕ) (bit : α → ℕ → Bool)

/-- Bit `i` of the row; behind its end there is none. -/
def blockBit (l : List α) (i : ℕ) : Bool := l[i / s]?.any fun a => bit a (i % s)

variable {s bit}

theorem blockBit_cons_of_lt {a : α} {l : List α} {i : ℕ} (h : i < s) :
    blockBit s bit (a :: l) i = bit a i := by
  rw [blockBit, Nat.div_eq_of_lt h, Nat.mod_eq_of_lt h]
  rfl

theorem blockBit_cons_add {a : α} {l : List α} (hs : 0 < s) (i : ℕ) :
    blockBit s bit (a :: l) (s + i) = blockBit s bit l i := by
  rw [blockBit, Nat.add_div_left i hs, Nat.add_mod_left]
  rfl

theorem blockBit_eq_false {l : List α} {i : ℕ} (h : ∀ a ∈ l, bit a (i % s) = false) :
    blockBit s bit l i = false := by
  unfold blockBit
  cases ha : l[i / s]? with
  | none => rfl
  | some a => exact h a (List.mem_of_getElem? ha)

theorem blockBit_of_getElem? {l : List α} {a : α} {i : ℕ} (h : l[i / s]? = some a) :
    blockBit s bit l i = bit a (i % s) := by
  rw [blockBit, h, Option.any_some]

/-- One bit of one block is set. -/
theorem blockBit_set {l : List α} {a b : α} {i : ℕ} (ha : l[i / s]? = some a)
    (hb : ∀ k, bit b k = (bit a k || decide (k = i % s))) (j : ℕ) :
    blockBit s bit (l.set (i / s) b) j = (blockBit s bit l j || decide (j = i)) := by
  by_cases hj : j / s = i / s
  · have hset : (l.set (i / s) b)[j / s]? = some b := by
      rw [hj, List.getElem?_set_self (List.getElem?_eq_some_iff.mp ha).1]
    rw [blockBit_of_getElem? hset, blockBit_of_getElem? (hj ▸ ha), hb]
    congr 1
    rw [decide_eq_decide]
    constructor
    · intro hmod
      rw [← Nat.div_add_mod j s, hj, hmod, Nat.div_add_mod]
    · rintro rfl
      rfl
  · have hne : j ≠ i := fun heq => hj (heq ▸ rfl)
    rw [decide_eq_false hne, Bool.or_false, blockBit, List.getElem?_set_ne (Ne.symm hj)]
    rfl

/-- Two rows of one length are combined bit by bit. -/
theorem blockBit_zipWith {op : α → α → α} {f : Bool → Bool → Bool} (hs : 0 < s) (hf : f false false = false)
    (hop : ∀ a b k, k < s → bit (op a b) k = f (bit a k) (bit b k)) {l m : List α}
    (hlen : l.length = m.length) (i : ℕ) :
    blockBit s bit (List.zipWith op l m) i = f (blockBit s bit l i) (blockBit s bit m i) := by
  unfold blockBit
  rw [List.getElem?_zipWith]
  rcases Nat.lt_or_ge (i / s) l.length with hi | hi
  · rw [List.getElem?_eq_getElem hi, List.getElem?_eq_getElem (hlen ▸ hi)]
    exact hop _ _ _ (Nat.mod_lt i hs)
  · rw [List.getElem?_eq_none hi, List.getElem?_eq_none (hlen ▸ hi)]
    exact hf.symm

theorem filter_range_blockBit {a : α} {l : List α} (hs : 0 < s) :
    (List.range (s * (l.length + 1))).filter (blockBit s bit (a :: l)) =
      (List.range s).filter (bit a) ++
        ((List.range (s * l.length)).filter (blockBit s bit l)).map (s + ·) := by
  have hfirst : (List.range s).filter (blockBit s bit (a :: l)) = (List.range s).filter (bit a) :=
    List.filter_congr fun i hi => blockBit_cons_of_lt (List.mem_range.mp hi)
  have hrest : blockBit s bit (a :: l) ∘ (s + ·) = blockBit s bit l :=
    funext fun i => blockBit_cons_add hs i
  rw [Nat.mul_add, Nat.mul_one, Nat.add_comm, List.range_add, List.filter_append, List.filter_map, hrest,
    hfirst]

/-- **The ones of the row** are those of its blocks, one block after the other. -/
theorem flatMap_ones (hs : 0 < s) {f : α → ℕ → List ℕ}
    (hf : ∀ a base, f a base = ((List.range s).filter (bit a)).map (base + ·)) :
    ∀ (l : List α) (k base : ℕ), (l.zipIdx k).flatMap (fun e => f e.1 (base + e.2 * s)) =
      ((List.range (s * l.length)).filter (blockBit s bit l)).map (base + k * s + ·)
  | [], k, base => by simp
  | a :: l, k, base => by
    rw [List.zipIdx_cons, List.flatMap_cons, flatMap_ones hs hf l (k + 1) base, List.length_cons,
      filter_range_blockBit hs, List.map_append, hf, List.map_map]
    congr 2
    funext i
    show base + (k + 1) * s + i = base + k * s + (s + i)
    rw [Nat.add_mul, Nat.one_mul]
    omega

/-- **The ones are counted** block by block. -/
theorem sum_counts (hs : 0 < s) {count : α → ℕ} (hcount : ∀ a, count a = (List.range s).countP (bit a)) :
    ∀ l : List α, (l.map count).sum = (List.range (s * l.length)).countP (blockBit s bit l)
  | [] => by simp
  | a :: l => by
    rw [List.map_cons, List.sum_cons, sum_counts hs hcount l, hcount, List.length_cons,
      List.countP_eq_length_filter (l := List.range (s * (l.length + 1))), filter_range_blockBit hs,
      List.length_append, List.length_map, List.countP_eq_length_filter, List.countP_eq_length_filter]

end Blocks

end CncContent.Lib.BitBlocks
