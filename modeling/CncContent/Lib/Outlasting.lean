import Mathlib.Data.List.MinMax
import Mathlib.Data.List.Perm.Basic

/-! # Lists that lose their least elements

`outlasting key k l` counts the elements of a list whose key is at least `k`. A list of more than `n`
elements that loses one with the least key still has `n` elements that outlast it
(`le_outlasting_of_least`), and for every other key as many as it had, or `n` (`min_le_outlasting_of_least`).
`minIdx` is the place of the first element with the least key, and `swapRemove` takes an element out and
puts the last one in its place. -/

namespace CncContent.Lib.Outlasting

variable {α κ : Type*} [LinearOrder κ] {key : α → κ}

/-- How many elements have a key of at least `k`. -/
def outlasting (key : α → κ) (k : κ) (l : List α) : ℕ := l.countP fun a => k ≤ key a

theorem outlasting_eq_length {k : κ} {l : List α} (h : ∀ a ∈ l, k ≤ key a) :
    outlasting key k l = l.length :=
  List.countP_eq_length.mpr fun a ha => decide_eq_true (h a ha)

theorem outlasting_cons {k : κ} {a : α} {l : List α} :
    outlasting key k (a :: l) = outlasting key k l + if k ≤ key a then 1 else 0 := by
  unfold outlasting
  rw [List.countP_cons]
  simp only [decide_eq_true_eq]

theorem outlasting_le_append (k : κ) (l l' : List α) :
    outlasting key k l ≤ outlasting key k (l ++ l') := by
  unfold outlasting
  rw [List.countP_append]
  exact Nat.le_add_right _ _

/-- Elements below `k` do not count. -/
theorem outlasting_filter {k : κ} {l : List α} {p : α → Bool} (h : ∀ a ∈ l, k ≤ key a → p a = true) :
    outlasting key k (l.filter p) = outlasting key k l := by
  unfold outlasting
  rw [List.countP_filter]
  refine List.countP_congr fun a ha => ?_
  rw [Bool.and_eq_true, decide_eq_true_eq]
  exact ⟨And.left, fun hk => ⟨hk, h a ha hk⟩⟩

section Least

variable {n : ℕ} {l rest : List α} {v : α}

/-- **What has been lost** is outlasted by `n` of the rest. -/
theorem le_outlasting_of_least (hperm : l.Perm (v :: rest)) (hleast : ∀ a ∈ l, key v ≤ key a)
    (hlen : n < l.length) : n ≤ outlasting key (key v) rest := by
  rw [outlasting_eq_length fun a ha => hleast a (hperm.mem_iff.mpr (List.mem_cons_of_mem v ha))]
  rw [hperm.length_eq, List.length_cons] at hlen
  exact Nat.le_of_lt_succ hlen

/-- **A loss of the least element** leaves as many that outlast `k` as there were, or `n`. -/
theorem min_le_outlasting_of_least (hperm : l.Perm (v :: rest)) (hleast : ∀ a ∈ l, key v ≤ key a)
    (hlen : n < l.length) (k : κ) : min n (outlasting key k l) ≤ outlasting key k rest := by
  have hsame : outlasting key k l = outlasting key k (v :: rest) := hperm.countP_eq _
  rw [hsame, outlasting_cons]
  by_cases hk : k ≤ key v
  · have hrest : ∀ a ∈ rest, k ≤ key a := fun a ha =>
      hk.trans (hleast a (hperm.mem_iff.mpr (List.mem_cons_of_mem v ha)))
    rw [hperm.length_eq, List.length_cons] at hlen
    rw [outlasting_eq_length hrest]
    omega
  · rw [if_neg hk]
    exact Nat.min_le_right _ _

end Least

/-! ### Taking out the least element -/

/-- `min_by_key` on the elements with their places: the place of the first of the least ones. -/
def minIdx (key : α → κ) (l : List α) : Option ℕ :=
  (l.zipIdx.argmin fun c => key c.1).map Prod.snd

theorem minIdx_eq_none {l : List α} : minIdx key l = none ↔ l = [] := by
  unfold minIdx
  rw [Option.map_eq_none_iff, List.argmin_eq_none, List.zipIdx_eq_nil_iff]

theorem minIdx_spec {l : List α} {i : ℕ} (h : minIdx key l = some i) :
    ∃ v, l[i]? = some v ∧ ∀ a ∈ l, key v ≤ key a := by
  obtain ⟨⟨v, j⟩, hmin, rfl⟩ := Option.map_eq_some_iff.mp h
  have hmem : (v, j) ∈ l.zipIdx := List.argmin_mem hmin
  refine ⟨v, List.mem_zipIdx_iff_getElem?.mp hmem, fun a ha => ?_⟩
  obtain ⟨k, hk⟩ := List.mem_iff_getElem?.mp ha
  have hmem' : (a, k) ∈ l.zipIdx := List.mem_zipIdx_iff_getElem?.mpr hk
  exact List.le_of_mem_argmin (f := fun c : α × ℕ => key c.1) hmem' hmin

/-- `swap_remove`. -/
def swapRemove (l : List α) (i : ℕ) : List α :=
  match l.getLast? with
  | some last => (l.set i last).dropLast
  | none => []

omit [LinearOrder κ] in
theorem perm_swapRemove {l : List α} {i : ℕ} {v : α} (h : l[i]? = some v) :
    l.Perm (v :: swapRemove l i) := by
  rcases List.eq_nil_or_concat l with rfl | ⟨init, last, rfl⟩
  · cases h
  · rw [List.concat_eq_append] at h ⊢
    obtain ⟨hlt, rfl⟩ := List.getElem?_eq_some_iff.mp h
    unfold swapRemove
    rw [List.getLast?_append_of_ne_nil _ (List.cons_ne_nil _ _), List.getLast?_singleton]
    dsimp only
    rcases Nat.lt_or_ge i init.length with hi | hi
    · rw [List.set_append_left _ _ hi, List.dropLast_concat, List.getElem_append_left hi]
      refine (List.perm_append_singleton _ _).trans ?_
      have hset := List.set_perm_cons_eraseIdx hi last
      have hget := List.getElem_cons_eraseIdx_perm hi
      exact ((hget.symm.cons last).trans (List.Perm.swap _ _ _)).trans (hset.symm.cons _)
    · rw [List.length_append, List.length_singleton] at hlt
      obtain rfl : i = init.length := by omega
      rw [List.set_append_right _ _ (Nat.le_refl _), Nat.sub_self, List.set_cons_zero,
        List.dropLast_concat, List.getElem_append_right (Nat.le_refl _)]
      simp only [Nat.sub_self, List.getElem_cons_zero]
      exact List.perm_append_singleton _ _

end CncContent.Lib.Outlasting
