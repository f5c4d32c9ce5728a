import Mathlib.Data.List.Induction

/-! # Milestones

A word whose letters are waited for one after the other, while a list of events is read: an event that
is not the letter waited for changes nothing. The number of letters that have come is the length of the
longest beginning of the word that can be picked from the events in their order
(`le_reached_iff`). -/

namespace CncContent.Lib.Milestones

variable {α : Type} [DecidableEq α]

/-- The number of letters that have come, after one more event. -/
def advance (w : List α) (n : ℕ) (a : α) : ℕ := if w[n]? = some a then n + 1 else n

/-- The number of letters that have come after the events. -/
def reached (w events : List α) : ℕ := events.foldl (advance w) 0

@[simp] theorem reached_nil (w : List α) : reached w [] = 0 := rfl

theorem reached_concat (w events : List α) (a : α) :
    reached w (events ++ [a]) = advance w (reached w events) a := by
  unfold reached
  rw [List.foldl_append, List.foldl_cons, List.foldl_nil]

omit [DecidableEq α] in
/-- What can be picked from a list with one more element at its end. -/
theorem concat_sublist_concat_iff (l events : List α) (x a : α) :
    (l ++ [x]).Sublist (events ++ [a]) ↔
      (l ++ [x]).Sublist events ∨ x = a ∧ l.Sublist events := by
  rw [← List.reverse_sublist, List.reverse_append, List.reverse_append, List.reverse_singleton,
    List.reverse_singleton, List.singleton_append, List.singleton_append, List.sublist_cons_iff]
  refine or_congr ?_ ?_
  · rw [← List.reverse_concat, List.reverse_sublist]
  · constructor
    · rintro ⟨r, hr, hsub⟩
      rw [List.cons.injEq] at hr
      rw [← hr.2, List.reverse_sublist] at hsub
      exact ⟨hr.1, hsub⟩
    · rintro ⟨rfl, hsub⟩
      exact ⟨_, rfl, List.reverse_sublist.mpr hsub⟩

/-- One more letter has come exactly if it had come before, or if it is the event and the ones before
it had come. -/
theorem lt_advance_iff (w : List α) (m n : ℕ) (a : α) :
    n < advance w m a ↔ n < m ∨ w[n]? = some a ∧ n ≤ m := by
  unfold advance
  split_ifs with h
  · constructor
    · intro hn
      rcases Nat.lt_or_eq_of_le (Nat.lt_succ_iff.mp hn) with hlt | rfl
      · exact Or.inl hlt
      · exact Or.inr ⟨h, Nat.le_refl _⟩
    · rintro (hn | ⟨-, hn⟩) <;> omega
  · constructor
    · exact Or.inl
    · rintro (hn | ⟨ha, hn⟩)
      · exact hn
      · rcases Nat.lt_or_eq_of_le hn with hlt | rfl
        · exact hlt
        · exact absurd ha h

/-- **As many letters have come as can be picked from the events.** -/
theorem le_reached_iff (w events : List α) {n : ℕ} (hn : n ≤ w.length) :
    n ≤ reached w events ↔ (w.take n).Sublist events := by
  induction events using List.reverseRecOn generalizing n with
  | nil => rw [reached_nil, List.sublist_nil, List.take_eq_nil_iff, Nat.le_zero]; grind
  | append_singleton events a ih =>
    cases n with
    | zero => exact ⟨fun _ => List.nil_sublist _, fun _ => Nat.zero_le _⟩
    | succ n =>
      have hget : w[n]? = some w[n] := List.getElem?_eq_getElem hn
      rw [Nat.succ_le_iff, reached_concat, lt_advance_iff, hget, Option.some.injEq, ← Nat.succ_le_iff,
        ih hn, ih (Nat.le_of_succ_le hn), List.take_succ_eq_append_getElem hn, concat_sublist_concat_iff]

theorem reached_le_length (w events : List α) : reached w events ≤ w.length := by
  induction events using List.reverseRecOn with
  | nil => exact Nat.zero_le _
  | append_singleton events a ih =>
    rw [reached_concat, advance]
    split_ifs with h
    · exact (List.getElem?_eq_some_iff.mp h).1
    · exact ih

theorem reached_eq_iff (w events : List α) {n : ℕ} (hn : n < w.length) :
    reached w events = n ↔ (w.take n).Sublist events ∧ ¬ (w.take (n + 1)).Sublist events := by
  rw [← le_reached_iff w events (Nat.le_of_lt hn), ← le_reached_iff w events (Nat.succ_le_of_lt hn)]
  omega

/-- All letters have come. -/
theorem reached_eq_length_iff (w events : List α) :
    reached w events = w.length ↔ w.Sublist events := by
  have hle := reached_le_length w events
  have hiff := le_reached_iff w events (Nat.le_refl w.length)
  rw [List.take_length] at hiff
  rw [← hiff]
  omega

end CncContent.Lib.Milestones
