import Mathlib.Data.List.Basic

/-! # The first match in a list

`updateFirst p f` changes the first element that has `p`, as through a mutable reference that a search
has returned. It changes nothing if there is none, and otherwise one element, whose place is known
(`updateFirst_split`). A search for each element of a list finds the elements themselves if none matches a
later one (`forall_find?_eq_some_iff`). What does not depend on the change is the same as before (`map_updateFirst`), and
what is counted differs by that one element (`countP_updateFirst`). -/

namespace CncContent.Lib.FirstMatch

variable {α β : Type*} {p : α → Bool} {f : α → α}

def updateFirst (p : α → Bool) (f : α → α) (l : List α) : List α :=
  l.replaceF fun a => if p a then some (f a) else none

theorem updateFirst_cons_of_pos {a : α} {l : List α} (h : p a) :
    updateFirst p f (a :: l) = f a :: l := by
  simp [updateFirst, List.replaceF, h]

theorem updateFirst_cons_of_neg {a : α} {l : List α} (h : ¬ p a) :
    updateFirst p f (a :: l) = a :: updateFirst p f l := by
  simp [updateFirst, List.replaceF, h]

theorem updateFirst_of_find?_eq_none : ∀ {l : List α}, l.find? p = none → updateFirst p f l = l
  | [], _ => rfl
  | a :: l, h => by
    obtain ⟨ha, hl⟩ := List.forall_mem_cons.mp (List.find?_eq_none.mp h)
    rw [updateFirst_cons_of_neg ha, updateFirst_of_find?_eq_none (List.find?_eq_none.mpr hl)]

/-- **The place of the change.** -/
theorem updateFirst_split {a : α} : ∀ {l : List α}, l.find? p = some a →
    ∃ l₁ l₂, l = l₁ ++ a :: l₂ ∧ (∀ b ∈ l₁, ¬ p b) ∧ updateFirst p f l = l₁ ++ f a :: l₂
  | b :: l, h => by
    by_cases hb : p b
    · rw [List.find?_cons_of_pos hb, Option.some.injEq] at h
      subst h
      exact ⟨[], l, rfl, nofun, updateFirst_cons_of_pos hb⟩
    · rw [List.find?_cons_of_neg hb] at h
      obtain ⟨l₁, l₂, rfl, hl₁, hl⟩ := updateFirst_split h
      refine ⟨b :: l₁, l₂, rfl, List.forall_mem_cons.mpr ⟨hb, hl₁⟩, ?_⟩
      rw [updateFirst_cons_of_neg hb, hl]
      rfl

/-- What the change does not touch. -/
theorem map_updateFirst {g : α → β} (hg : ∀ a, p a → g (f a) = g a) {l : List α} :
    (updateFirst p f l).map g = l.map g := by
  rcases h : l.find? p with _ | a
  · rw [updateFirst_of_find?_eq_none h]
  · obtain ⟨l₁, l₂, rfl, -, hl⟩ := updateFirst_split (f := f) h
    rw [hl, List.map_append, List.map_append, List.map_cons, List.map_cons,
      hg a (List.find?_some h)]

/-- **What is counted** after the change. -/
theorem countP_updateFirst {q : α → Bool} {a : α} {l : List α} (h : l.find? p = some a) :
    (updateFirst p f l).countP q + (if q a then 1 else 0) =
      l.countP q + if q (f a) then 1 else 0 := by
  obtain ⟨l₁, l₂, rfl, -, hl⟩ := updateFirst_split (f := f) h
  rw [hl, List.countP_append, List.countP_append, List.countP_cons, List.countP_cons]
  omega

theorem mem_of_mem_updateFirst {b : α} {l : List α} (h : b ∈ updateFirst p f l) :
    b ∈ l ∨ ∃ a, l.find? p = some a ∧ b = f a := by
  rcases hfind : l.find? p with _ | a
  · rw [updateFirst_of_find?_eq_none hfind] at h
    exact Or.inl h
  · obtain ⟨l₁, l₂, rfl, -, hl⟩ := updateFirst_split (f := f) hfind
    rw [hl] at h
    rcases List.mem_append.mp h with h | h
    · exact Or.inl (List.mem_append_left _ h)
    · rcases List.mem_cons.mp h with rfl | h
      · exact Or.inr ⟨a, rfl, rfl⟩
      · exact Or.inl (List.mem_append_right _ (List.mem_cons_of_mem _ h))

/-- What is not a match stays. -/
theorem mem_updateFirst_of_neg {b : α} {l : List α} (hb : b ∈ l) (hp : ¬ p b) :
    b ∈ updateFirst p f l := by
  rcases hfind : l.find? p with _ | a
  · rw [updateFirst_of_find?_eq_none hfind]
    exact hb
  · obtain ⟨l₁, l₂, rfl, -, hl⟩ := updateFirst_split (f := f) hfind
    rw [hl]
    rcases List.mem_append.mp hb with hb | hb
    · exact List.mem_append_left _ hb
    · rcases List.mem_cons.mp hb with rfl | hb
      · exact absurd (List.find?_some hfind) hp
      · exact List.mem_append_right _ (List.mem_cons_of_mem _ hb)

/-- The first match is replaced. -/
theorem mem_updateFirst_of_find? {a : α} {l : List α} (h : l.find? p = some a) :
    f a ∈ updateFirst p f l := by
  obtain ⟨l₁, l₂, rfl, -, hl⟩ := updateFirst_split (f := f) h
  rw [hl]
  exact List.mem_append_right _ List.mem_cons_self

/-- **The place of the first match** that is removed. -/
theorem eraseP_split {a : α} {l : List α} (h : l.find? p = some a) :
    ∃ l₁ l₂, l = l₁ ++ a :: l₂ ∧ l.eraseP p = l₁ ++ l₂ := by
  obtain ⟨ha, l₁, l₂, rfl, hl₁⟩ := List.find?_eq_some_iff_append.mp h
  refine ⟨l₁, l₂, rfl, ?_⟩
  rw [List.eraseP_append_right _ fun b hb => Bool.eq_false_iff.mp (Bool.not_eq_true' _ ▸ hl₁ b hb),
    List.eraseP_cons_of_pos ha]

/-- **A search for each element** finds it exactly if no element matches a later one. -/
theorem forall_find?_eq_some_iff {m : α → α → Bool} (hrefl : ∀ a, m a a = true) : ∀ {l : List α},
    l.Nodup → ((∀ b ∈ l, l.find? (fun a => m a b) = some b) ↔ l.Pairwise fun a b => ¬ m a b)
  | [], _ => iff_of_true nofun List.Pairwise.nil
  | a :: l, hnd => by
    obtain ⟨hnot, hl⟩ := List.nodup_cons.mp hnd
    have hself : (a :: l).find? (fun a' => m a' a) = some a :=
      List.find?_cons_of_pos (p := fun a' => m a' a) (hrefl a)
    rw [List.pairwise_cons, ← forall_find?_eq_some_iff hrefl hl, List.forall_mem_cons, hself]
    constructor
    · rintro ⟨-, h⟩
      have hskip : ∀ b ∈ l, ¬ m a b := fun b hb hm => by
        have hfound := h b hb
        rw [List.find?_cons_of_pos (p := fun a' => m a' b) hm] at hfound
        exact hnot (Option.some.inj hfound ▸ hb)
      refine ⟨hskip, fun b hb => ?_⟩
      rw [← h b hb, List.find?_cons_of_neg (p := fun a' => m a' b) (hskip b hb)]
    · rintro ⟨hskip, h⟩
      refine ⟨rfl, fun b hb => ?_⟩
      rw [List.find?_cons_of_neg (p := fun a' => m a' b) (hskip b hb), h b hb]

end CncContent.Lib.FirstMatch
