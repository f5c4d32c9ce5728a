import Mathlib.Data.List.Sort

/-! # The first elements of a list

`firstBy r n l` are the `n` first elements of a list in the order `r`, or all of them, and elements that
`r` does not tell apart stay in the order of the list. The first of all comes before every element
(`rel_of_head?_insertionSort`); the order of the list is seen where elements tie
(`insertionSort_perm_iff`, `pairwise_last_iff`). A list that is cut before it is filtered may lack elements
(`shortlist_complete_iff`). A number with a quotient and a remainder ranks by the quotient first
(`mul_add_lt_mul_add_iff`). -/

namespace CncContent.Lib.Ranking

variable {α β : Type*} (r : α → α → Prop) [DecidableRel r]

def firstBy (n : ℕ) (l : List α) : List α := (l.insertionSort r).take n

variable {r} {n : ℕ} {l : List α}

theorem length_firstBy : (firstBy r n l).length = min n l.length := by
  unfold firstBy
  rw [List.length_take, List.length_insertionSort]

theorem mem_of_mem_firstBy {a : α} (h : a ∈ firstBy r n l) : a ∈ l :=
  (List.mem_insertionSort r).mp (List.mem_of_mem_take h)

theorem nodup_map_firstBy {f : α → β} (h : (l.map f).Nodup) : ((firstBy r n l).map f).Nodup :=
  (((List.perm_insertionSort r l).map f).nodup_iff.mpr h).sublist ((List.take_sublist _ _).map f)

theorem take_firstBy {k : ℕ} (h : l.length ≤ k) : (firstBy r k l).take n = firstBy r n l := by
  unfold firstBy
  rw [List.take_of_length_le ((List.length_insertionSort r l).trans_le h)]

theorem mem_firstBy_iff (h : l.length ≤ n) {a : α} : a ∈ firstBy r n l ↔ a ∈ l := by
  unfold firstBy
  rw [List.take_of_length_le ((List.length_insertionSort r l).trans_le h), List.mem_insertionSort]

theorem head?_insertionSort_eq_none_iff : (l.insertionSort r).head? = none ↔ l = [] := by
  rw [List.head?_eq_none_iff, ← List.length_eq_zero_iff, List.length_insertionSort,
    List.length_eq_zero_iff]

variable [Std.Total r] [IsTrans α r]

theorem pairwise_firstBy : (firstBy r n l).Pairwise r :=
  (List.pairwise_insertionSort r l).sublist (List.take_sublist _ _)

/-- **What is left out** does not come before what is returned. -/
theorem rel_of_not_mem_firstBy {a b : α} (ha : a ∈ firstBy r n l) (hb : b ∈ l)
    (hnot : b ∉ firstBy r n l) : r a b := by
  have hsorted := List.pairwise_insertionSort r l
  rw [← List.take_append_drop n (l.insertionSort r), List.pairwise_append] at hsorted
  have hmem := (List.mem_insertionSort r).mpr hb
  rw [← List.take_append_drop n (l.insertionSort r), List.mem_append] at hmem
  exact hsorted.2.2 a ha b (hmem.resolve_left hnot)

/-- **The first of all** comes before every element. -/
theorem rel_of_head?_insertionSort {a : α} (h : (l.insertionSort r).head? = some a) :
    a ∈ l ∧ ∀ b ∈ l, r a b := by
  obtain ⟨rest, hrest⟩ := List.head?_eq_some_iff.mp h
  have hsorted := List.pairwise_insertionSort r l
  rw [hrest, List.pairwise_cons] at hsorted
  have hmem : ∀ b, b ∈ l ↔ b = a ∨ b ∈ rest := fun b => by
    rw [← List.mem_insertionSort r, hrest, List.mem_cons]
  refine ⟨(hmem a).mpr (Or.inl rfl), fun b hb => ?_⟩
  rcases (hmem b).mp hb with rfl | hb
  · exact refl_of r b
  · exact hsorted.1 b hb

/-! ### Ties -/

omit [Std.Total r] [IsTrans α r] in
/-- Two elements have one order in a list without repetition. -/
theorem not_sublist_swap {a b : α} : ∀ {l : List α}, l.Nodup → [a, b].Sublist l → ¬ [b, a].Sublist l
  | [], _, h, _ => by cases h
  | c :: l, hnd, hab, hba => by
    obtain ⟨hnot, hl⟩ := List.nodup_cons.mp hnd
    rcases hab with _ | ⟨_, hab⟩ | ⟨_, hb⟩
    · rcases hba with _ | ⟨_, hba⟩ | ⟨_, ha⟩
      · exact not_sublist_swap hl hab hba
      · exact hnot (hab.subset (List.mem_cons_of_mem _ List.mem_cons_self))
    · rcases hba with _ | ⟨_, hba⟩ | ⟨_, ha⟩
      · exact hnot (hba.subset (List.mem_cons_of_mem _ List.mem_cons_self))
      · exact hnot (List.singleton_sublist.mp hb)

/-- **The order of the list does not matter** to its sort exactly if no two of its elements tie. -/
theorem insertionSort_perm_iff (hnd : l.Nodup) :
    (∀ l' : List α, l'.Perm l → l'.insertionSort r = l.insertionSort r) ↔
      ∀ a ∈ l, ∀ b ∈ l, r a b → r b a → a = b := by
  constructor
  · intro h a ha b hb hab hba
    by_contra hne
    classical
    have hmem : b ∈ l.erase a := (List.mem_erase_of_ne (Ne.symm hne)).mpr hb
    have hperm : (a :: b :: (l.erase a).erase b).Perm l :=
      ((List.perm_cons_erase hmem).symm.cons a).trans (List.perm_cons_erase ha).symm
    have hfirst := List.pair_sublist_insertionSort hab
      (List.sublist_append_left [a, b] ((l.erase a).erase b))
    have hsecond := List.pair_sublist_insertionSort hba
      (List.sublist_append_left [b, a] ((l.erase a).erase b))
    refine not_sublist_swap ((List.perm_insertionSort r l).nodup_iff.mpr hnd) (a := a) (b := b) ?_ ?_
    · exact h _ hperm ▸ hfirst
    · exact h _ ((List.Perm.swap a b _).trans hperm) ▸ hsecond
  · intro h l' hperm
    refine List.Perm.eq_of_pairwise (fun a b ha hb => ?_) (List.pairwise_insertionSort r l')
      (List.pairwise_insertionSort r l) ?_
    · exact h a (hperm.mem_iff.mp ((List.mem_insertionSort r).mp ha)) b
        ((List.mem_insertionSort r).mp hb)
    · exact (List.perm_insertionSort r l').trans (hperm.trans (List.perm_insertionSort r l).symm)

omit [Std.Total r] [IsTrans α r] in
/-- **Elements that tie** are left in the order of the list. -/
theorem filter_insertionSort {p : α → Bool} (h : ∀ a b, p a = true → p b = true → r a b) :
    (l.insertionSort r).filter p = l.filter p := by
  have htie : (l.filter p).Pairwise r := by
    refine List.pairwise_of_forall_mem_list fun a ha b hb => ?_
    exact h a b (List.of_mem_filter ha) (List.of_mem_filter hb)
  have hsub := (List.sublist_insertionSort htie List.filter_sublist).filter p
  simp only [List.filter_filter, Bool.and_self] at hsub
  exact (hsub.eq_of_length ((List.perm_insertionSort r l).filter p).length_eq.symm).symm

/-- **A class that is to come last** does so exactly if none of its elements ties with a later one that
is not in the class. -/
theorem pairwise_last_iff {p : α → Prop} (hp : ∀ a b, p a → ¬ p b → r b a) :
    (l.insertionSort r).Pairwise (fun a b => p a → p b) ↔
      ∀ a b, [a, b].Sublist l → p a → ¬ p b → ¬ r a b := by
  classical
  constructor
  · intro hlast a b hab ha hb hr
    exact hb (List.pairwise_pair.mp (hlast.sublist (List.pair_sublist_insertionSort hr hab)) ha)
  · intro h
    refine List.pairwise_iff_forall_sublist.mpr fun {a b} hab ha => by_contra fun hb => ?_
    have hr := List.pairwise_pair.mp ((List.pairwise_insertionSort r l).sublist hab)
    have htie : ∀ c d, (decide (c = a ∨ c = b)) = true → (decide (d = a ∨ d = b)) = true → r c d := by
      intro c d hc hd
      rcases of_decide_eq_true hc with rfl | rfl <;> rcases of_decide_eq_true hd with rfl | rfl
      · exact refl_of r _
      · exact hr
      · exact hp _ _ ha hb
      · exact refl_of r _
    have hpair := hab.filter fun c => decide (c = a ∨ c = b)
    rw [filter_insertionSort htie] at hpair
    have hpair' : [a, b].Sublist (l.filter fun c => decide (c = a ∨ c = b)) := by simpa using hpair
    exact h a b (hpair'.trans List.filter_sublist) ha hb hr

/-! ### A cut before a filter -/

/-- The first `n` elements with the property, looked for among the first `m` of the list. -/
def shortlist (p : α → Bool) (m n : ℕ) (l : List α) : List α := ((l.take m).filter p).take n

section Shortlist

omit [DecidableRel r] [Std.Total r] [IsTrans α r]

variable {p : α → Bool} {m : ℕ}

theorem shortlist_sublist : (shortlist p m n l).Sublist l :=
  (List.take_sublist _ _).trans (List.filter_sublist.trans (List.take_sublist _ _))

theorem of_mem_shortlist {a : α} (h : a ∈ shortlist p m n l) : p a = true :=
  List.of_mem_filter (List.mem_of_mem_take h)

theorem length_shortlist : (shortlist p m n l).length = min n ((l.take m).countP p) := by
  rw [shortlist, List.length_take, List.countP_eq_length_filter]

/-- What is not in the shortlist is behind what is. -/
theorem rel_of_not_mem_shortlist (hl : l.Pairwise r) {a b : α} (ha : a ∈ shortlist p m n l)
    (hb : b ∈ l) (hp : p b = true) (hnot : b ∉ shortlist p m n l) : r a b := by
  have hfilter : ((l.take m).filter p).Pairwise r :=
    hl.sublist (List.filter_sublist.trans (List.take_sublist _ _))
  rw [← List.take_append_drop m l, List.mem_append] at hb
  rw [← List.take_append_drop m l, List.pairwise_append] at hl
  rcases hb with hb | hb
  · have hmem : b ∈ (l.take m).filter p := List.mem_filter.mpr ⟨hb, hp⟩
    rw [← List.take_append_drop n ((l.take m).filter p)] at hfilter hmem
    rw [List.pairwise_append] at hfilter
    exact hfilter.2.2 a ha b ((List.mem_append.mp hmem).resolve_left hnot)
  · exact hl.2.2 a (List.mem_of_mem_filter (List.mem_of_mem_take ha)) b hb

/-- **A shortlist that is too short** has all the elements with the property exactly if none of them is
behind the first cut. -/
theorem shortlist_complete_iff (hnd : l.Nodup) :
    ((shortlist p m n l).length < n → ∀ b ∈ l, p b = true → b ∈ shortlist p m n l) ↔
      n ≤ (l.take m).countP p ∨ ∀ b ∈ l.drop m, p b = false := by
  rw [length_shortlist]
  constructor
  · intro h
    refine or_iff_not_imp_left.mpr fun hshort b hb => ?_
    by_contra hp
    rw [Bool.not_eq_false] at hp
    have hmem := h (by omega) b (List.mem_of_mem_drop hb) hp
    have htake : b ∈ l.take m := List.mem_of_mem_filter (List.mem_of_mem_take hmem)
    rw [← List.take_append_drop m l, List.nodup_append] at hnd
    exact hnd.2.2 b htake b hb rfl
  · rintro (hle | hnone) hshort b hb hp
    · omega
    · rw [← List.take_append_drop m l, List.mem_append] at hb
      have hmem : b ∈ (l.take m).filter p := by
        refine List.mem_filter.mpr ⟨hb.resolve_right fun hdrop => ?_, hp⟩
        rw [hnone b hdrop] at hp
        cases hp
      rw [List.countP_eq_length_filter] at hshort
      rwa [shortlist, List.take_of_length_le (by omega)]

end Shortlist

/-! ### Two keys in one number -/

/-- **Two keys in one number** are compared one after the other. -/
theorem mul_add_lt_mul_add_iff {m a b c d : ℕ} (hb : b < m) (hd : d < m) :
    a * m + b < c * m + d ↔ a < c ∨ a = c ∧ b < d := by
  rcases lt_trichotomy a c with h | rfl | h
  · have hmul : (a + 1) * m ≤ c * m := Nat.mul_le_mul_right m h
    rw [Nat.add_mul] at hmul
    exact iff_of_true (by omega) (Or.inl h)
  · omega
  · have hmul : (c + 1) * m ≤ a * m := Nat.mul_le_mul_right m h
    rw [Nat.add_mul] at hmul
    exact iff_of_false (by omega) (by omega)

end CncContent.Lib.Ranking
