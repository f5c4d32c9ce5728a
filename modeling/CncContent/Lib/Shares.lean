import Mathlib.Algebra.BigOperators.Group.List.Basic
import Mathlib.Algebra.GroupWithZero.Nat
import Mathlib.Algebra.Order.BigOperators.Group.List
import Mathlib.Algebra.Order.Group.Nat
import Mathlib.Data.List.Forall2

/-! # Shares of a counter

Several parties add to one counter. What each has added is its share; the shares are a list of numbers along
the list of the parties. When one party takes a step, its share changes alone (`forall₂_set`, `sum_set_add`).
Shares within bounds add up to no more than the bounds (`sum_le_of_bounded`), and to just that if all are full
(`sum_eq_of_full`). -/

namespace CncContent.Lib.Shares

variable {α : Type*} {R : α → ℕ → Prop} {parties : List α} {shares : List ℕ} {bound : α → ℕ}

/-- A party and its share are replaced. -/
theorem forall₂_set (h : List.Forall₂ R parties shares) {a : α} {n : ℕ} (hR : R a n) (i : ℕ) :
    List.Forall₂ R (parties.set i a) (shares.set i n) := by
  induction h generalizing i with
  | nil => exact .nil
  | cons hhead htail ih =>
    cases i with
    | zero => exact .cons hR htail
    | succ i => exact .cons hhead (ih i)

/-- The share of a party. -/
theorem exists_share (h : List.Forall₂ R parties shares) {i : ℕ} {a : α} (ha : parties[i]? = some a) :
    ∃ n, shares[i]? = some n ∧ R a n := by
  induction h generalizing i with
  | nil => cases ha
  | cons hhead htail ih =>
    cases i with
    | zero =>
      cases ha
      exact ⟨_, rfl, hhead⟩
    | succ i => exact ih ha

/-- **One share changes**, and the sum with it. -/
theorem sum_set_add {i m : ℕ} (h : shares[i]? = some m) (n : ℕ) :
    (shares.set i n).sum + m = shares.sum + n := by
  induction shares generalizing i with
  | nil => cases h
  | cons k shares ih =>
    cases i with
    | zero =>
      cases h
      rw [List.set_cons_zero, List.sum_cons, List.sum_cons]
      omega
    | succ i =>
      have hrest := ih h
      rw [List.set_cons_succ, List.sum_cons, List.sum_cons]
      omega

theorem sum_le_of_bounded (h : List.Forall₂ R parties shares) (hle : ∀ a n, R a n → n ≤ bound a) :
    shares.sum ≤ (parties.map bound).sum := by
  refine List.Forall₂.sum_le_sum (List.forall₂_map_right_iff.mpr ?_)
  exact List.Forall₂.flip (h.imp hle)

theorem sum_eq_of_full (h : List.Forall₂ R parties shares)
    (hfull : ∀ a ∈ parties, ∀ n, R a n → n = bound a) : shares.sum = (parties.map bound).sum := by
  induction h with
  | nil => rfl
  | cons hhead htail ih =>
    rw [List.forall_mem_cons] at hfull
    rw [List.map_cons, List.sum_cons, List.sum_cons, hfull.1 _ hhead, ih hfull.2]

end CncContent.Lib.Shares
