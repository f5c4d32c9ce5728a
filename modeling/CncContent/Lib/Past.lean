import Mathlib.Data.List.Basic

/-! # The past of a system

The past of a system is the list of its events, the latest one last. `Since P Q` says that an event
with `P` has happened and none with `Q` after it. -/

namespace CncContent.Lib.Past

variable {ε : Type*} {P Q : ε → Prop}

/-- Some event has `P`, and none after it has `Q`. -/
def Since (P Q : ε → Prop) (past : List ε) : Prop :=
  ∃ before e after, past = before ++ e :: after ∧ P e ∧ ∀ e' ∈ after, ¬ Q e'

theorem not_since_nil : ¬ Since P Q [] := by
  rintro ⟨before, e, after, h, -⟩
  exact List.cons_ne_nil _ _ (List.append_eq_nil_iff.mp h.symm).2

/-- **One more event.** -/
theorem since_concat {past : List ε} {e : ε} :
    Since P Q (past ++ [e]) ↔ P e ∨ Since P Q past ∧ ¬ Q e := by
  constructor
  · rintro ⟨before, e', after, h, hP, hQ⟩
    rcases List.eq_nil_or_concat after with rfl | ⟨after, last, rfl⟩
    · obtain ⟨-, hlast⟩ := List.append_inj' h rfl
      rw [List.head_eq_of_cons_eq hlast]
      exact Or.inl hP
    · rw [List.concat_eq_append, ← List.cons_append, ← List.append_assoc] at h
      obtain ⟨rfl, hlast⟩ := List.append_inj' h rfl
      obtain rfl := List.head_eq_of_cons_eq hlast
      rw [List.concat_eq_append] at hQ
      refine Or.inr ⟨⟨before, e', after, rfl, hP, fun x hx => hQ x ?_⟩, hQ e ?_⟩
      · exact List.mem_append_left _ hx
      · exact List.mem_append_right _ List.mem_cons_self
  · rintro (hP | ⟨⟨before, e', after, rfl, hP, hQ⟩, he⟩)
    · exact ⟨past, e, [], rfl, hP, nofun⟩
    · refine ⟨before, e', after ++ [e], List.append_assoc _ _ _, hP, fun x hx => ?_⟩
      rcases List.mem_append.mp hx with hx | hx
      · exact hQ x hx
      · rw [List.mem_singleton.mp hx]
        exact he

end CncContent.Lib.Past
