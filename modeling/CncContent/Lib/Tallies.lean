import CncContent.Lib.FirstMatch
import Mathlib.Data.List.Nodup

/-! # Tallies

Owners, each under a key, tally the records that name them, which are kept elsewhere. When the records
of one key change and the owner of that key is told, the tallies are right again (`Tallied.update`),
given that no two owners have one key. -/

namespace CncContent.Lib.Tallies

open CncContent.Lib.FirstMatch

variable {α κ : Type*} [DecidableEq κ] {key : α → κ} {tally : α → ℕ}

/-- How many of the records name the key. -/
def namings (k : κ) (records : List κ) : ℕ := records.countP fun k' => decide (k' = k)

theorem namings_append (k : κ) (l m : List κ) : namings k (l ++ m) = namings k l + namings k m :=
  List.countP_append

theorem namings_cons (k k' : κ) (l : List κ) :
    namings k (k' :: l) = namings k l + if k' = k then 1 else 0 := by
  refine List.countP_cons.trans (congrArg _ ?_)
  simp only [decide_eq_true_iff]

theorem namings_eq_zero {k : κ} {l : List κ} (h : k ∉ l) : namings k l = 0 :=
  List.countP_eq_zero.mpr fun _ hk he => h (of_decide_eq_true he ▸ hk)

/-- Every owner's tally is the number of the records that name its key. -/
def Tallied (key : α → κ) (tally : α → ℕ) (owners : List α) (records : List κ) : Prop :=
  ∀ a ∈ owners, tally a = namings (key a) records

instance {owners : List α} {records : List κ} : Decidable (Tallied key tally owners records) :=
  inferInstanceAs (Decidable (∀ a ∈ owners, _))

variable {owners : List α} {records records' : List κ} {k : κ} {f : α → α}

omit [DecidableEq κ] in
/-- If all owners with a property have one key, there is one such owner at most. -/
theorem length_filter_le_one (hnodup : (owners.map key).Nodup) {p : α → Bool}
    (h : ∀ a ∈ owners, ∀ b ∈ owners, p a = true → p b = true → key a = key b) :
    (owners.filter p).length ≤ 1 := by
  have hfiltered : ((owners.filter p).map key).Nodup := hnodup.sublist (List.filter_sublist.map _)
  rcases hl : owners.filter p with _ | ⟨a, _ | ⟨b, rest⟩⟩
  · exact Nat.zero_le _
  · exact Nat.le_refl _
  · rw [hl] at hfiltered
    obtain ⟨ha, hpa⟩ := List.mem_filter.mp (hl ▸ List.mem_cons_self)
    obtain ⟨hb, hpb⟩ := List.mem_filter.mp (hl ▸ List.mem_cons_of_mem a (List.mem_cons_self (a := b)))
    exact absurd (h a ha b hb hpa hpb) fun he => (List.nodup_cons.mp hfiltered).1 (he ▸ List.mem_cons_self)

/-- The owners other than the first of a key, if keys are not shared. -/
theorem mem_updateFirst_key (hnodup : (owners.map key).Nodup) {b : α}
    (hb : b ∈ updateFirst (fun a => decide (key a = k)) f owners) :
    (b ∈ owners ∧ key b ≠ k) ∨ ∃ a ∈ owners, key a = k ∧ b = f a := by
  rcases hfind : owners.find? (fun a => decide (key a = k)) with _ | a
  · rw [updateFirst_of_find?_eq_none hfind] at hb
    have hne := List.find?_eq_none.mp hfind b hb
    exact Or.inl ⟨hb, fun he => hne (decide_eq_true he)⟩
  · have hfound := List.find?_some hfind
    have ha : key a = k := of_decide_eq_true hfound
    obtain ⟨l₁, l₂, rfl, -, hl⟩ := updateFirst_split (f := f) hfind
    rw [hl] at hb
    rw [List.map_append, List.map_cons, List.nodup_append, List.nodup_cons] at hnodup
    obtain ⟨-, ⟨hnot, -⟩, hdisj⟩ := hnodup
    rcases List.mem_append.mp hb with h | h
    · refine Or.inl ⟨List.mem_append_left _ h, fun he => ?_⟩
      exact hdisj _ (List.mem_map_of_mem h) _ List.mem_cons_self (he.trans ha.symm)
    · rcases List.mem_cons.mp h with rfl | h
      · exact Or.inr ⟨a, List.mem_append_right _ List.mem_cons_self, ha, rfl⟩
      · refine Or.inl ⟨List.mem_append_right _ (List.mem_cons_of_mem _ h), fun he => hnot ?_⟩
        exact ha.trans he.symm ▸ List.mem_map_of_mem h

/-- **The owner of a key is told** that its records have changed, and no others have. -/
theorem Tallied.update (h : Tallied key tally owners records) (hnodup : (owners.map key).Nodup)
    (hkey : ∀ a, key (f a) = key a)
    (hf : ∀ a ∈ owners, key a = k → tally (f a) = namings k records')
    (hother : ∀ k', k' ≠ k → namings k' records' = namings k' records) :
    Tallied key tally (updateFirst (fun a => decide (key a = k)) f owners) records' := by
  intro b hb
  rcases mem_updateFirst_key hnodup hb with ⟨hb, hne⟩ | ⟨a, ha, hk, rfl⟩
  · rw [h b hb, hother _ hne]
  · rw [hf a ha hk, hkey, hk]

end CncContent.Lib.Tallies
