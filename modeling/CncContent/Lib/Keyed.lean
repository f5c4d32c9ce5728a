import Mathlib.Data.List.Sort
import Mathlib.Order.Compare

/-! # Lists increasing by a key

The elements of a list have keys from a linear order. A list is `Increasing` if it is sorted by the key
and no key occurs twice; it is then determined by its elements (`Increasing.eq_of_perm`), and the place
of a new element in it is known (`orderedInsert_between`). `upsert` puts an element at its place, instead of
the one that has its key. -/

namespace CncContent.Lib.Keyed

variable {α κ : Type*} [LinearOrder κ] (key : α → κ)

/-- Sorted by the key, no key twice. -/
def Increasing (l : List α) : Prop := l.Pairwise fun a b => key a < key b

/-- Which of the keys is smaller. -/
def compareBy (a b : α) : Ordering := cmp (key a) (key b)

variable {key} {a : α} {l l' : List α}

theorem compareBy_eq_lt_iff {a b : α} : compareBy key a b = .lt ↔ key a < key b := cmp_eq_lt_iff _ _

theorem compareBy_eq_gt_iff {a b : α} : compareBy key a b = .gt ↔ key b < key a := cmp_eq_gt_iff _ _

theorem compareBy_eq_eq_iff {a b : α} : compareBy key a b = .eq ↔ key a = key b := cmp_eq_eq_iff _ _

theorem increasing_cons : Increasing key (a :: l) ↔ (∀ b ∈ l, key a < key b) ∧ Increasing key l :=
  List.pairwise_cons

/-- What is below the first key is below all. -/
theorem Increasing.forall_lt {k : κ} (h : Increasing key (a :: l)) (hk : k < key a) :
    ∀ b ∈ a :: l, k < key b :=
  List.forall_mem_cons.mpr ⟨hk, fun b hb => hk.trans ((increasing_cons.mp h).1 b hb)⟩

theorem Increasing.nodup_keys (h : Increasing key l) : (l.map key).Nodup :=
  List.pairwise_map.mpr (h.imp fun hlt => hlt.ne)

/-- What the key is read off does not occur twice either. -/
theorem Increasing.nodup_map {β : Type*} {f : α → β} {g : β → κ} (h : Increasing key l)
    (hkey : ∀ a, key a = g (f a)) : (l.map f).Nodup := by
  refine List.pairwise_map.mpr (h.imp fun {a b} hlt heq => hlt.ne ?_)
  rw [hkey, hkey, heq]

/-- **The elements determine the list.** -/
theorem Increasing.eq_of_perm (h : Increasing key l) (h' : Increasing key l') (hperm : l.Perm l') :
    l = l' :=
  hperm.eq_of_pairwise (fun _ _ _ _ hab hba => absurd hba hab.asymm) h h'

/-- A sorted list without neighbours of one key. -/
theorem increasing_of_isChain : ∀ {l : List α}, (l.Pairwise fun a b => key a ≤ key b) →
    (l.IsChain fun a b => key a ≠ key b) → Increasing key l
  | [], _, _ => List.Pairwise.nil
  | [_], _, _ => List.pairwise_singleton _ _
  | a :: b :: l, hsorted, hchain => by
    obtain ⟨hne, hchain⟩ := List.isChain_cons_cons.mp hchain
    obtain ⟨hle, hsorted⟩ := List.pairwise_cons.mp hsorted
    have hlt : key a < key b := lt_of_le_of_ne (hle b List.mem_cons_self) hne
    have ih := increasing_of_isChain hsorted hchain
    exact increasing_cons.mpr ⟨ih.forall_lt hlt, ih⟩

/-- All keys of the first list are below all of the second. -/
def Below (key : α → κ) (before after : List α) : Prop := ∀ a ∈ before, ∀ b ∈ after, key a < key b

theorem Below.head {before after : List α} {b : α} (h : Below key before (b :: after)) :
    ∀ a ∈ before, key a < key b := fun a ha => h a ha b List.mem_cons_self

theorem Below.tail {before after : List α} {b : α} (h : Below key before (b :: after)) :
    Below key before after := fun a ha c hc => h a ha c (List.mem_cons_of_mem _ hc)

theorem Below.concat {before after : List α} {b : α} (h : Below key before after)
    (hb : ∀ c ∈ after, key b < key c) : Below key (before ++ [b]) after := by
  intro a ha c hc
  rcases List.mem_append.mp ha with ha | ha
  · exact h a ha c hc
  · rw [List.mem_singleton.mp ha]
    exact hb c hc

/-- **The place of an element** between smaller and larger ones. -/
theorem orderedInsert_between {before after : List α} (hbefore : ∀ b ∈ before, key b < key a)
    (hafter : ∀ b ∈ after, key a < key b) :
    (before ++ after).orderedInsert (fun a b => key a ≤ key b) a = before ++ a :: after := by
  induction before with
  | nil =>
    cases after with
    | nil => rfl
    | cons b after => exact List.orderedInsert_cons_of_le _ _ (hafter b List.mem_cons_self).le
  | cons b before ih =>
    obtain ⟨hb, hbefore⟩ := List.forall_mem_cons.mp hbefore
    rw [List.cons_append, List.orderedInsert_cons, if_neg hb.not_ge, ih hbefore]
    rfl

variable (key) in
/-- The element at its place, instead of the one with its key. -/
def upsert (a : α) : List α → List α
  | [] => [a]
  | b :: l =>
    match compareBy key a b with
    | .lt => a :: b :: l
    | .eq => a :: l
    | .gt => b :: upsert a l

/-- **What the list has then**: the element, and those that have another key. -/
theorem mem_upsert {b : α} : ∀ {l : List α}, Increasing key l →
    (b ∈ upsert key a l ↔ b = a ∨ b ∈ l ∧ key b ≠ key a)
  | [], _ => by
    rw [upsert, List.mem_singleton]
    exact ⟨Or.inl, fun h => h.resolve_right fun h' => List.not_mem_nil h'.1⟩
  | c :: l, h => by
    obtain ⟨hc, hl⟩ := increasing_cons.mp h
    unfold upsert
    rcases hcmp : compareBy key a c with _ | _ | _
    · have hlt := compareBy_eq_lt_iff.mp hcmp
      have hne : b ∈ c :: l → key b ≠ key a := fun hb => (h.forall_lt hlt b hb).ne'
      rw [List.mem_cons]
      exact or_congr_right ⟨fun hb => ⟨hb, hne hb⟩, And.left⟩
    · have heq := compareBy_eq_eq_iff.mp hcmp
      rw [List.mem_cons, List.mem_cons]
      refine or_congr_right ⟨fun hb => ⟨Or.inr hb, ?_⟩, ?_⟩
      · rw [heq]
        exact (hc b hb).ne'
      · rintro ⟨rfl | hb, hne⟩
        · exact absurd heq.symm hne
        · exact hb
    · have hgt := compareBy_eq_gt_iff.mp hcmp
      have ih := mem_upsert (b := b) hl
      rw [List.mem_cons, List.mem_cons, ih, or_left_comm]
      refine or_congr_right ⟨?_, ?_⟩
      · rintro (rfl | ⟨hb, hne⟩)
        · exact ⟨Or.inl rfl, hgt.ne⟩
        · exact ⟨Or.inr hb, hne⟩
      · rintro ⟨rfl | hb, hne⟩
        · exact Or.inl rfl
        · exact Or.inr ⟨hb, hne⟩

theorem Increasing.upsert : ∀ {l : List α}, Increasing key l → Increasing key (upsert key a l)
  | [], _ => List.pairwise_singleton _ _
  | c :: l, h => by
    obtain ⟨hc, hl⟩ := increasing_cons.mp h
    unfold Keyed.upsert
    rcases hcmp : compareBy key a c with _ | _ | _
    · exact increasing_cons.mpr ⟨h.forall_lt (compareBy_eq_lt_iff.mp hcmp), h⟩
    · refine increasing_cons.mpr ⟨fun b hb => ?_, hl⟩
      rw [compareBy_eq_eq_iff.mp hcmp]
      exact hc b hb
    · refine increasing_cons.mpr ⟨fun b hb => ?_, hl.upsert⟩
      rcases (mem_upsert hl).mp hb with rfl | ⟨hb, -⟩
      · exact compareBy_eq_gt_iff.mp hcmp
      · exact hc b hb

end CncContent.Lib.Keyed
