import Mathlib.Data.List.Infix

/-! # Substrings

`findSub needle l` is the place at which `needle` first occurs in `l`. It occurs first behind a given
part if it does not occur earlier; this is so if that part lacks the first element of the needle
(`findSub_of_head`), and if the part lacks the needle and ends in an element that the needle lacks
(`findSub_of_last`). -/

namespace CncContent.Lib.Substrings

variable {α : Type*} [DecidableEq α] {needle p s : List α}

def findSub (needle : List α) : List α → Option ℕ
  | [] => if needle <+: [] then some 0 else none
  | a :: l => if needle <+: a :: l then some 0 else (findSub needle l).map (· + 1)

theorem findSub_of_starts {l : List α} (h : needle <+: l) : findSub needle l = some 0 := by
  cases l with
  | nil => exact if_pos h
  | cons a l => exact if_pos h

/-- **The first occurrence** is where no earlier place has one. -/
theorem findSub_append : ∀ {p : List α}, (∀ i < p.length, ¬ needle <+: (p ++ (needle ++ s)).drop i) →
    findSub needle (p ++ (needle ++ s)) = some p.length
  | [], _ => findSub_of_starts (List.prefix_append needle s)
  | a :: p, h => by
    have hnot : ¬ needle <+: a :: (p ++ (needle ++ s)) := h 0 (Nat.succ_pos _)
    have ih := findSub_append fun i hi => h (i + 1) (Nat.succ_lt_succ hi)
    show (if needle <+: a :: (p ++ (needle ++ s)) then some 0
      else (findSub needle (p ++ (needle ++ s))).map (· + 1)) = _
    rw [if_neg hnot, ih]
    rfl

theorem findSub_of_head {c : α} {n : List α} (hc : c ∉ p) :
    findSub (c :: n) (p ++ (c :: n ++ s)) = some p.length := by
  refine findSub_append fun i hi hocc => hc ?_
  rw [List.drop_append_of_le_length hi.le, List.drop_eq_getElem_cons hi] at hocc
  rw [(List.cons_prefix_cons.mp hocc).1]
  exact List.getElem_mem hi

/-- An occurrence that starts in the part ends in it, or goes through its last element. -/
theorem findSub_of_last {c : α} {q : List α} (hc : c ∉ needle) (hnot : ¬ needle <:+: q ++ [c]) :
    findSub needle (q ++ [c] ++ (needle ++ s)) = some (q ++ [c]).length := by
  refine findSub_append fun i hi hocc => ?_
  rw [List.drop_append_of_le_length hi.le] at hocc
  rcases List.prefix_or_prefix_of_prefix hocc (List.prefix_append _ _) with h | h
  · exact hnot (h.isInfix.trans (List.drop_suffix i _).isInfix)
  · refine hc (h.subset ?_)
    rw [List.length_append, List.length_singleton] at hi
    rw [List.drop_append_of_le_length (Nat.le_of_lt_succ hi)]
    exact List.mem_append_right _ (List.mem_singleton_self c)

end CncContent.Lib.Substrings
