import Mathlib.Data.List.Nodup

/-! # Lists dealt out in turn

The elements of a list are dealt out to `n` hands in turn, the one at the index `i` to the hand
`i % n`. Every element goes to one hand (`flatMap_dealt_perm`), in the order of the list. -/

namespace CncContent.Lib.Dealing

variable {α : Type*}

/-- What the hand `s` of `n` gets. -/
def dealt (n s : ℕ) (l : List α) : List α :=
  (l.zipIdx.filter fun e => e.2 % n = s).map Prod.fst

variable {l : List α} {n : ℕ}

theorem dealt_sublist (s : ℕ) : (dealt n s l).Sublist l := by
  have hsub := (List.filter_sublist (l := l.zipIdx) (p := fun e => e.2 % n = s)).map Prod.fst
  rwa [List.zipIdx_map_fst] at hsub

/-- The classes of a list are the list. -/
theorem flatMap_filter_perm {f : α → ℕ} : ∀ n : ℕ,
    ((List.range n).flatMap fun s => l.filter fun a => f a = s).Perm (l.filter fun a => f a < n)
  | 0 => by simp
  | n + 1 => by
    have hbelow : (l.filter fun a => f a < n + 1).filter (fun a => f a < n) = l.filter fun a => f a < n := by
      rw [List.filter_filter]
      exact List.filter_congr fun a _ => by simp; omega
    have hlast : (l.filter fun a => f a < n + 1).filter (fun a => !decide (f a < n)) =
        l.filter fun a => f a = n := by
      rw [List.filter_filter]
      exact List.filter_congr fun a _ => by rw [Bool.eq_iff_iff]; simp; omega
    have hsplit := List.filter_append_perm (fun a => decide (f a < n)) (l.filter fun a => f a < n + 1)
    rw [hbelow, hlast] at hsplit
    rw [List.range_succ, List.flatMap_append, List.flatMap_singleton]
    exact ((flatMap_filter_perm n).append_right _).trans hsplit

/-- **Every element goes to one hand.** -/
theorem flatMap_dealt_perm (hn : 0 < n) : ((List.range n).flatMap fun s => dealt n s l).Perm l := by
  have hall : (l.zipIdx.filter fun e => e.2 % n < n) = l.zipIdx :=
    List.filter_eq_self.mpr fun e _ => decide_eq_true (Nat.mod_lt _ hn)
  have hperm := (flatMap_filter_perm (l := l.zipIdx) (f := fun e => e.2 % n) n).map Prod.fst
  rw [hall, List.zipIdx_map_fst, List.map_flatMap] at hperm
  exact hperm

end CncContent.Lib.Dealing
