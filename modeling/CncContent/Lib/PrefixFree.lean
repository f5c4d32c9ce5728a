import Mathlib.Data.Set.Basic
import Mathlib.Tactic.TypeStar

/-! # Prefix-free codes

A code is prefix-free on a set if the code of an element of the set, followed by anything, spells the
element and what follows. A record that is coded field by field is spelled by its code if the codes of
its fields are prefix-free: the fields are read off one after the other.

The rules are for fields of one length, for fields preceded by their length or followed by a
separator, for optional fields and for lists of a known length. -/

namespace CncContent.Lib.PrefixFree

variable {α β : Type*}

/-- What starts with the code of an element of the set spells the element and the rest. -/
def PrefixFreeOn (s : Set α) (code : α → List β) : Prop :=
  ∀ ⦃a⦄, a ∈ s → ∀ ⦃b⦄, b ∈ s → ∀ ⦃x y⦄, code a ++ x = code b ++ y → a = b ∧ x = y

variable {s : Set α} {code : α → List β}

/-- Codes of one length. -/
theorem prefixFreeOn_of_length {n : ℕ} (hlen : ∀ a ∈ s, (code a).length = n)
    (hinj : Set.InjOn code s) : PrefixFreeOn s code := by
  intro a ha b hb x y h
  obtain ⟨hcode, hrest⟩ := List.append_inj h ((hlen a ha).trans (hlen b hb).symm)
  exact ⟨hinj ha hb hcode, hrest⟩

theorem prefixFreeOn_vector (n : ℕ) : PrefixFreeOn Set.univ fun v : Vector α n => v.toList :=
  prefixFreeOn_of_length (fun _ _ => Vector.length_toList)
    (fun _ _ _ _ h => Vector.toList_inj.mp h)

/-- A list preceded by a code of its length. -/
theorem prefixFreeOn_counted {lengths : Set ℕ} {count : ℕ → List β}
    (hcount : PrefixFreeOn lengths count) :
    PrefixFreeOn {l : List β | l.length ∈ lengths} fun l => count l.length ++ l := by
  intro a ha b hb x y h
  rw [List.append_assoc, List.append_assoc] at h
  obtain ⟨hlen, hrest⟩ := hcount ha hb h
  exact List.append_inj hrest hlen

/-- A list followed by a separator that does not occur in it. -/
theorem prefixFreeOn_terminated (sep : β) :
    PrefixFreeOn {l : List β | sep ∉ l} fun l => l ++ [sep] := by
  intro a ha b hb x y h
  rw [List.append_assoc, List.append_assoc] at h
  induction a generalizing b with
  | nil =>
    rcases b with _ | ⟨c, b⟩
    · exact ⟨rfl, List.tail_eq_of_cons_eq h⟩
    · exact absurd (List.head_eq_of_cons_eq h ▸ List.mem_cons_self) hb
  | cons c a ih =>
    rcases b with _ | ⟨d, b⟩
    · exact absurd (List.head_eq_of_cons_eq h ▸ List.mem_cons_self) ha
    · obtain ⟨rfl, hrest⟩ := ih (fun hm => ha (List.mem_cons_of_mem _ hm))
        (fun hm => hb (List.mem_cons_of_mem _ hm)) (List.tail_eq_of_cons_eq h)
      exact ⟨congrArg (· :: a) (List.head_eq_of_cons_eq h), hrest⟩

/-- An optional element behind a flag. -/
theorem prefixFreeOn_option {optCode : Option α → List β} {absent present : β}
    (hnone : optCode none = [absent]) (hsome : ∀ a, optCode (some a) = present :: code a)
    (hne : absent ≠ present) (hcode : PrefixFreeOn s code) :
    PrefixFreeOn {o : Option α | ∀ a ∈ o, a ∈ s} optCode := by
  intro a ha b hb x y h
  rcases a with _ | a
  · rcases b with _ | b
    · rw [hnone] at h
      exact ⟨rfl, List.tail_eq_of_cons_eq h⟩
    · rw [hnone, hsome] at h
      exact absurd (List.head_eq_of_cons_eq h) hne
  · rcases b with _ | b
    · rw [hnone, hsome] at h
      exact absurd (List.head_eq_of_cons_eq h).symm hne
    · rw [hsome, hsome] at h
      obtain ⟨rfl, hrest⟩ := hcode (ha a rfl) (hb b rfl) (List.tail_eq_of_cons_eq h)
      exact ⟨rfl, hrest⟩

/-- The codes of a list of a known length, one after the other. -/
theorem prefixFreeOn_flatMap (hcode : PrefixFreeOn s code) (n : ℕ) :
    PrefixFreeOn {l : List α | l.length = n ∧ ∀ a ∈ l, a ∈ s} fun l => l.flatMap code := by
  rintro l ⟨rfl, hl⟩
  induction l with
  | nil =>
    rintro l' ⟨hlen, -⟩ x y h
    obtain rfl := List.length_eq_zero_iff.mp hlen
    exact ⟨rfl, h⟩
  | cons a l ih =>
    rintro (_ | ⟨b, l'⟩) ⟨hlen, hl'⟩ x y h
    · cases hlen
    · obtain ⟨ha, hl⟩ := List.forall_mem_cons.mp hl
      obtain ⟨hb, htail⟩ := List.forall_mem_cons.mp hl'
      dsimp only at h
      rw [List.flatMap_cons, List.flatMap_cons, List.append_assoc, List.append_assoc] at h
      obtain ⟨rfl, hrest⟩ := hcode ha hb h
      obtain ⟨rfl, hxy⟩ := ih hl ⟨Nat.succ.inj hlen, htail⟩ hrest
      exact ⟨rfl, hxy⟩

end CncContent.Lib.PrefixFree
