import Mathlib.Data.List.Nodup

/-! # Recency

The uses of the elements of a collection are listed with the latest first. Of two elements the one
whose last use stands first in that list has been `UsedLater`. A list of elements is `ByRecency` if
every element has been used later than all that follow it. The last element of such a list is the
least recently used (`ByRecency.last`), and moving an element to the front when it is used keeps the
order (`ByRecency.use`). -/

namespace CncContent.Lib.Recency

variable {α : Type*} [DecidableEq α] {uses l : List α} {a p q : α}

/-- The last use of `p` is later than that of `q`. -/
def UsedLater (uses : List α) (p q : α) : Prop := uses.idxOf p < uses.idxOf q

instance : Decidable (UsedLater uses p q) := inferInstanceAs (Decidable (_ < _))

/-- Every element has been used later than those that follow it. -/
def ByRecency (uses l : List α) : Prop := l.Pairwise (UsedLater uses)

instance : Decidable (ByRecency uses l) := inferInstanceAs (Decidable (List.Pairwise _ _))

theorem usedLater_cons : UsedLater (a :: uses) p q ↔ q ≠ a ∧ (p = a ∨ UsedLater uses p q) := by
  unfold UsedLater
  rw [List.idxOf_cons, List.idxOf_cons, cond_eq_ite, cond_eq_ite]
  by_cases hq : a = q
  · subst hq
    simp
  · have hne : q ≠ a := Ne.symm hq
    by_cases hp : a = p
    · subst hp
      simp [hq, hne]
    · have hpa : p ≠ a := Ne.symm hp
      simp [hq, hp, hne, hpa]

theorem ByRecency.sublist {l' : List α} (h : ByRecency uses l) (hs : l'.Sublist l) :
    ByRecency uses l' := List.Pairwise.sublist hs h

/-- What is used is the most recently used. -/
theorem ByRecency.use (h : ByRecency uses l) (ha : a ∉ l) : ByRecency (a :: uses) (a :: l) := by
  have hne : ∀ q ∈ l, q ≠ a := fun q hq he => ha (he ▸ hq)
  refine List.pairwise_cons.mpr ⟨fun q hq => usedLater_cons.mpr ⟨hne q hq, Or.inl rfl⟩, ?_⟩
  refine List.Pairwise.imp_of_mem ?_ h
  exact fun _ hq hpq => usedLater_cons.mpr ⟨hne _ hq, Or.inr hpq⟩

/-- The last element is the least recently used. -/
theorem ByRecency.last (h : ByRecency uses (l ++ [a])) (hp : p ∈ l) : UsedLater uses p a :=
  (List.pairwise_append.mp h).2.2 p hp a (List.mem_singleton_self a)

end CncContent.Lib.Recency
