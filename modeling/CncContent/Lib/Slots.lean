import Mathlib.Logic.Function.Basic

/-! # Slots

The calls that run at the same time, each in a slot of its own. `Any` says that some slot holds an element
with a property, `All` that every element has it; the rules say what becomes of both when one slot changes
or all elements do. -/

namespace CncContent.Lib.Slots

variable {ι α β : Type*} [DecidableEq ι]

/-- Some element has the property. -/
def Any (P : α → Prop) (slots : ι → Option α) : Prop := ∃ i a, slots i = some a ∧ P a

/-- Every element has the property. -/
def All (P : α → Prop) (slots : ι → Option α) : Prop := ∀ i a, slots i = some a → P a

variable {P Q : α → Prop} {slots : ι → Option α} {i : ι} {o : Option α}

omit [DecidableEq ι] in
theorem any_map {f : β → α} {slots : ι → Option β} :
    Any P (fun i => (slots i).map f) ↔ Any (fun b => P (f b)) slots := by
  constructor
  · rintro ⟨i, a, ha, hP⟩
    obtain ⟨b, hb, rfl⟩ := Option.map_eq_some_iff.mp ha
    exact ⟨i, b, hb, hP⟩
  · rintro ⟨i, b, hb, hP⟩
    exact ⟨i, f b, congrArg (Option.map f) hb, hP⟩

omit [DecidableEq ι] in
theorem All.map {f : α → β} {R : β → Prop} (h : All P slots) (hf : ∀ a, P a → R (f a)) :
    All R fun i => (slots i).map f := by
  intro i b hb
  obtain ⟨a, ha, rfl⟩ := Option.map_eq_some_iff.mp hb
  exact hf a (h i a ha)

omit [DecidableEq ι] in
theorem All.mono (h : All P slots) (hPQ : ∀ a, P a → Q a) : All Q slots := fun i a ha => hPQ a (h i a ha)

theorem All.update (h : All P slots) (ho : ∀ a, o = some a → P a) : All P (Function.update slots i o) := by
  intro j a ha
  by_cases hj : j = i
  · subst hj
    rw [Function.update_self] at ha
    exact ho a ha
  · rw [Function.update_of_ne hj] at ha
    exact h j a ha

/-- After a change of one slot the element is in it, or was there before. -/
theorem Any.of_update (h : Any P (Function.update slots i o)) : (∃ a, o = some a ∧ P a) ∨ Any P slots := by
  obtain ⟨j, a, ha, hP⟩ := h
  by_cases hj : j = i
  · subst hj
    rw [Function.update_self] at ha
    exact Or.inl ⟨a, ha, hP⟩
  · rw [Function.update_of_ne hj] at ha
    exact Or.inr ⟨j, a, ha, hP⟩

/-- An element is still there, unless it was in the slot that changes. -/
theorem Any.update (h : Any P slots) : Any P (Function.update slots i o) ∨ ∃ a, slots i = some a ∧ P a := by
  obtain ⟨j, a, ha, hP⟩ := h
  by_cases hj : j = i
  · subst hj
    exact Or.inr ⟨a, ha, hP⟩
  · exact Or.inl ⟨j, a, by rw [Function.update_of_ne hj]; exact ha, hP⟩

/-- **A change of one slot** that adds no element with the property and removes none. -/
theorem any_update_iff (h : (∃ a, slots i = some a ∧ P a) ↔ ∃ a, o = some a ∧ P a) :
    Any P (Function.update slots i o) ↔ Any P slots := by
  constructor
  · intro hany
    rcases hany.of_update with ho | hany
    · obtain ⟨a, ha, hP⟩ := h.mpr ho
      exact ⟨i, a, ha, hP⟩
    · exact hany
  · intro hany
    rcases hany.update with hany' | hi
    · exact hany'
    · obtain ⟨a, ha, hP⟩ := h.mp hi
      exact ⟨i, a, by rw [Function.update_self, ha], hP⟩

end CncContent.Lib.Slots
