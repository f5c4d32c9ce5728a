import Mathlib.Data.List.Basic
import Mathlib.Data.Nat.Basic
import Mathlib.Order.Basic

/-! # Chunks

`chunks n l` cuts a list into blocks of `n` elements, of which the last may be shorter. The blocks make
up the list (`flatten_chunks`), so the blocks determine it (`eq_of_chunks`), and are not longer than `n`
(`length_of_mem_chunks`). A list that begins with whole blocks has these as its first chunks
(`chunks_append`). -/

namespace CncContent.Lib.Chunks

variable {α : Type*} {n : ℕ}

/-- The blocks, at most `k` of them. -/
def chunksUpTo (n : ℕ) : ℕ → List α → List (List α)
  | 0, _ => []
  | _ + 1, [] => []
  | k + 1, a :: l => (a :: l).take n :: chunksUpTo n k ((a :: l).drop n)

def chunks (n : ℕ) (l : List α) : List (List α) := chunksUpTo n l.length l

theorem length_drop_cons_le (hn : 0 < n) (a : α) (l : List α) :
    ((a :: l).drop n).length ≤ l.length := by
  rw [List.length_drop, List.length_cons]
  omega

theorem chunksUpTo_nil (k : ℕ) : chunksUpTo n k ([] : List α) = [] := by
  cases k <;> rfl

/-- Any bound that is not too small will do. -/
theorem chunksUpTo_congr (hn : 0 < n) : ∀ {k k' : ℕ} {l : List α}, l.length ≤ k → l.length ≤ k' →
    chunksUpTo n k l = chunksUpTo n k' l
  | k, k', [], _, _ => (chunksUpTo_nil k).trans (chunksUpTo_nil k').symm
  | k + 1, k' + 1, a :: l, h, h' => by
    have hlen := length_drop_cons_le hn a l
    have ih := chunksUpTo_congr hn (Nat.le_trans hlen (Nat.le_of_succ_le_succ h))
      (Nat.le_trans hlen (Nat.le_of_succ_le_succ h'))
    exact congrArg _ ih

theorem chunks_nil : chunks n ([] : List α) = [] := rfl

/-- The first block. -/
theorem chunks_of_ne_nil (hn : 0 < n) {l : List α} (hl : l ≠ []) :
    chunks n l = l.take n :: chunks n (l.drop n) := by
  obtain ⟨a, l, rfl⟩ := List.exists_cons_of_ne_nil hl
  exact congrArg _ (chunksUpTo_congr hn (length_drop_cons_le hn a l) (Nat.le_refl _))

/-- **The blocks make up the list.** -/
theorem flatten_chunks (hn : 0 < n) (l : List α) : (chunks n l).flatten = l := by
  induction hm : l.length using Nat.strong_induction_on generalizing l with
  | _ m ih =>
    rcases l with _ | ⟨a, l⟩
    · rfl
    · have hlen := length_drop_cons_le hn a l
      have hlt : ((a :: l).drop n).length < m := by
        rw [← hm]
        exact Nat.lt_succ_of_le hlen
      have hrest := ih _ hlt _ rfl
      rw [chunks_of_ne_nil hn (List.cons_ne_nil a l), List.flatten_cons, hrest, List.take_append_drop]

theorem length_of_mem_chunksUpTo : ∀ {k : ℕ} {l b : List α}, b ∈ chunksUpTo n k l → b.length ≤ n
  | k + 1, a :: l, b, h => by
    rcases List.mem_cons.mp h with rfl | h
    · exact List.length_take_le _ _
    · exact length_of_mem_chunksUpTo h

theorem length_of_mem_chunks {l b : List α} (h : b ∈ chunks n l) : b.length ≤ n :=
  length_of_mem_chunksUpTo h

/-- What fits into a block is one block. -/
theorem chunks_of_length_le (hn : 0 < n) {l : List α} (hl : l ≠ []) (h : l.length ≤ n) :
    chunks n l = [l] := by
  rw [chunks_of_ne_nil hn hl, List.take_of_length_le h, List.drop_of_length_le h, chunks_nil]

/-- **Whole blocks at the beginning** are chunks. -/
theorem chunks_append (hn : 0 < n) : ∀ {blocks : List (List α)} (l : List α),
    (∀ b ∈ blocks, b.length = n) → chunks n (blocks.flatten ++ l) = blocks ++ chunks n l
  | [], _, _ => rfl
  | b :: blocks, l, h => by
    obtain ⟨hb, hblocks⟩ := List.forall_mem_cons.mp h
    have hne : b ++ (blocks.flatten ++ l) ≠ [] := by
      rintro he
      have hlen := congrArg List.length (List.append_eq_nil_iff.mp he).1
      rw [hb] at hlen
      exact absurd hlen (Nat.pos_iff_ne_zero.mp hn)
    rw [List.flatten_cons, List.append_assoc, chunks_of_ne_nil hn hne, List.take_left' hb,
      List.drop_left' hb, chunks_append hn l hblocks]
    rfl

/-- **The block at a place**, if the list is that long. -/
theorem getElem?_chunks (hn : 0 < n) : ∀ (i : ℕ) (l : List α),
    (chunks n l)[i]? = if i * n < l.length then some ((l.drop (i * n)).take n) else none
  | i, [] => (if_neg (Nat.not_lt_zero (i * n))).symm
  | 0, a :: l => by
    rw [chunks_of_ne_nil hn (List.cons_ne_nil a l), Nat.zero_mul]
    exact (if_pos (Nat.succ_pos l.length)).symm
  | i + 1, a :: l => by
    have hlt : i * n < ((a :: l).drop n).length ↔ (i + 1) * n < (a :: l).length := by
      rw [List.length_drop, Nat.succ_mul]
      omega
    rw [chunks_of_ne_nil hn (List.cons_ne_nil a l), List.getElem?_cons_succ, getElem?_chunks hn i,
      if_congr hlt rfl rfl, List.drop_drop, Nat.succ_mul, Nat.add_comm n]

/-- **The number of the blocks**: the length of the list, divided and rounded up. -/
theorem length_chunks (hn : 0 < n) (l : List α) : (chunks n l).length = (l.length + n - 1) / n := by
  refine eq_of_forall_ge_iff fun i => ?_
  have hblock : (chunks n l).length ≤ i ↔ l.length ≤ i * n := by
    rw [← List.getElem?_eq_none_iff, getElem?_chunks hn i l]
    by_cases hlt : i * n < l.length
    · rw [if_pos hlt]
      exact ⟨nofun, fun h => absurd hlt (Nat.not_lt.mpr h)⟩
    · rw [if_neg hlt]
      exact ⟨fun _ => Nat.not_lt.mp hlt, fun _ => rfl⟩
  have hdiv : (l.length + n - 1) / n ≤ i ↔ l.length ≤ i * n := by
    rw [← Nat.lt_succ_iff, Nat.div_lt_iff_lt_mul hn, Nat.succ_mul]
    omega
  exact hblock.trans hdiv.symm

/-- **Two lists are equal if their blocks are.** -/
theorem eq_of_chunks (hn : 0 < n) {l m : List α} (h : ∀ i : ℕ, (chunks n l)[i]? = (chunks n m)[i]?) : l = m := by
  rw [← flatten_chunks hn l, ← flatten_chunks hn m, List.ext_getElem? h]

end CncContent.Lib.Chunks
