import Mathlib.Data.List.Basic
import Mathlib.Data.List.Pairwise
import Mathlib.Tactic.SplitIfs

/-! # Order of arrival

Elements come to a queue and leave it. `stamp` records when each element came, that is, the number of
the step by which it got in, and `InOrder` says that the queue is in the order of arrival. The order is
kept when elements leave (`InOrder.sublist`) and when a new one comes to the end (`InOrder.concat`). -/

namespace CncContent.Lib.Arrivals

variable {κ : Type*} [DecidableEq κ]

/-- The times of arrival after step `n`: who was not there before has come by this step. -/
def stamp (n : ℕ) (before : List κ) (since : κ → ℕ) (p : κ) : ℕ := if p ∈ before then since p else n

/-- In the order of arrival, all of them before step `n`. -/
structure InOrder (n : ℕ) (since : κ → ℕ) (l : List κ) : Prop where
  sorted : l.Pairwise fun p q => since p < since q
  before : ∀ p ∈ l, since p < n

variable {n : ℕ} {since : κ → ℕ} {l l' : List κ}

theorem stamp_of_mem {p : κ} (h : p ∈ l) : stamp n l since p = since p := if_pos h

theorem stamp_of_notMem {p : κ} (h : p ∉ l) : stamp n l since p = n := if_neg h

omit [DecidableEq κ] in
theorem inOrder_nil : InOrder n since [] := ⟨List.Pairwise.nil, nofun⟩

omit [DecidableEq κ] in
/-- Nobody is in the queue twice. -/
theorem InOrder.nodup (h : InOrder n since l) : l.Nodup := by
  refine h.sorted.imp fun {p q} hlt he => ?_
  rw [he] at hlt
  exact Nat.lt_irrefl _ hlt

/-- **Leaving**: those who stay are in order. -/
theorem InOrder.sublist (h : InOrder n since l) (hsub : l'.Sublist l) :
    InOrder (n + 1) (stamp n l since) l' := by
  have hkeep : ∀ p ∈ l', stamp n l since p = since p := fun p hp => stamp_of_mem (hsub.subset hp)
  refine ⟨(h.sorted.sublist hsub).imp_of_mem fun hp hq hlt => ?_, fun p hp => ?_⟩
  · rw [hkeep _ hp, hkeep _ hq]
    exact hlt
  · rw [hkeep p hp]
    exact Nat.lt_succ_of_lt (h.before p (hsub.subset hp))

/-- **Coming**: the new one is the last. -/
theorem InOrder.concat (h : InOrder n since l) {p : κ} (hp : p ∉ l) :
    InOrder (n + 1) (stamp n l since) (l ++ [p]) := by
  have hold := h.sublist (List.Sublist.refl l)
  refine ⟨List.pairwise_append.mpr ⟨hold.sorted, List.pairwise_singleton _ _, ?_⟩, fun q hq => ?_⟩
  · intro q hq p' hp'
    rw [List.mem_singleton.mp hp', stamp_of_mem hq, stamp_of_notMem hp]
    exact h.before q hq
  · rcases List.mem_append.mp hq with hq | hq
    · exact hold.before q hq
    · rw [List.mem_singleton.mp hq, stamp_of_notMem hp]
      exact Nat.lt_succ_self n

omit [DecidableEq κ] in
/-- **The first** has come before all others. -/
theorem InOrder.head {p : κ} (h : InOrder n since (p :: l)) : ∀ q ∈ l, since p < since q :=
  (List.pairwise_cons.mp h.sorted).1

end CncContent.Lib.Arrivals
