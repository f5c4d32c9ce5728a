import Mathlib.Data.List.MinMax

/-! # The last of the greatest

`maxByKey key l` is the element with the greatest key, and of several such elements the last one: what
stands before it has no greater key, and what stands after it a smaller one (`maxByKey_split`). -/

namespace CncContent.Lib.Greatest

variable {α β : Type*} [LinearOrder β] {key : α → β}

def maxByKey (key : α → β) (l : List α) : Option α := l.reverse.argmax key

theorem maxByKey_eq_none {l : List α} : maxByKey key l = none ↔ l = [] := by
  rw [maxByKey, List.argmax_eq_none, List.reverse_eq_nil_iff]

theorem maxByKey_cons (x : α) (l : List α) :
    maxByKey key (x :: l) =
      match maxByKey key l with
      | none => some x
      | some a => if key a < key x then some x else some a := by
  rw [maxByKey, List.reverse_cons, List.argmax_concat, maxByKey]
  rcases List.argmax key l.reverse with _ | a <;> rfl

/-- **The place of the greatest element.** -/
theorem maxByKey_split {a : α} : ∀ {l : List α}, maxByKey key l = some a →
    ∃ l₁ l₂, l = l₁ ++ a :: l₂ ∧ (∀ b ∈ l₁, key b ≤ key a) ∧ ∀ b ∈ l₂, key b < key a
  | x :: l, h => by
    rw [maxByKey_cons] at h
    rcases hl : maxByKey key l with _ | c
    · rw [hl] at h
      cases h
      exact ⟨[], l, rfl, nofun, maxByKey_eq_none.mp hl ▸ nofun⟩
    · rw [hl] at h
      dsimp only at h
      obtain ⟨l₁, l₂, rfl, hl₁, hl₂⟩ := maxByKey_split hl
      split_ifs at h with hlt
      · cases h
        refine ⟨[], _, rfl, nofun, fun b hb => ?_⟩
        rcases List.mem_append.mp hb with hb | hb
        · exact (hl₁ b hb).trans_lt hlt
        · rcases List.mem_cons.mp hb with rfl | hb
          · exact hlt
          · exact (hl₂ b hb).trans hlt
      · cases h
        exact ⟨x :: l₁, l₂, rfl, List.forall_mem_cons.mpr ⟨not_lt.mp hlt, hl₁⟩, hl₂⟩

end CncContent.Lib.Greatest
