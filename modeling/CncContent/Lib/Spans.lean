import Mathlib.Data.Set.Card
import Mathlib.Order.Interval.Finset.Nat
import Mathlib.Algebra.BigOperators.Group.Finset.Basic

/-! # Canonical lists of half-open spans

A list of items, each with a lower end `lo` and an upper end `hi` in a linear order, stands for the
set of the points `x` with `lo r ≤ x < hi r` for some item `r`. The list is *canonical* if its
items are non-empty, sorted and pairwise separated: each ends strictly below the start of the next,
so no two of them touch. A set has at most one canonical list (`Canonical.ext`). -/

namespace CncContent.Lib.Spans

variable {ι α : Type} [LinearOrder α] {lo hi : ι → α}

/-- The point `x` lies in some item of the list. -/
def Covers (lo hi : ι → α) (l : List ι) (x : α) : Prop := ∃ r ∈ l, lo r ≤ x ∧ x < hi r

/-- Non-empty items, each strictly below the next. -/
structure Canonical (lo hi : ι → α) (l : List ι) : Prop where
  nonempty : ∀ r ∈ l, lo r < hi r
  apart : l.Pairwise fun r r' => hi r < lo r'

@[simp] theorem covers_nil (x : α) : ¬ Covers lo hi [] x := by simp [Covers]

@[simp] theorem covers_cons (r : ι) (l : List ι) (x : α) :
    Covers lo hi (r :: l) x ↔ (lo r ≤ x ∧ x < hi r) ∨ Covers lo hi l x := by simp [Covers]

@[simp] theorem covers_append (l l' : List ι) (x : α) :
    Covers lo hi (l ++ l') x ↔ Covers lo hi l x ∨ Covers lo hi l' x := by
  simp only [Covers, List.mem_append, or_and_right, exists_or]

theorem canonical_nil : Canonical lo hi [] := ⟨by simp, List.Pairwise.nil⟩

theorem canonical_cons {r : ι} {l : List ι} : Canonical lo hi (r :: l) ↔
    lo r < hi r ∧ (∀ r' ∈ l, hi r < lo r') ∧ Canonical lo hi l := by
  constructor
  · rintro ⟨hn, ha⟩
    rw [List.pairwise_cons] at ha
    exact ⟨hn r (by simp), ha.1, fun r' hr' => hn r' (by simp [hr']), ha.2⟩
  · rintro ⟨hr, hb, hn, ha⟩
    refine ⟨fun r' hr' => ?_, List.pairwise_cons.mpr ⟨hb, ha⟩⟩
    rcases List.mem_cons.mp hr' with rfl | hr'
    · exact hr
    · exact hn r' hr'

theorem canonical_append {l l' : List ι} : Canonical lo hi (l ++ l') ↔
    Canonical lo hi l ∧ Canonical lo hi l' ∧ ∀ r ∈ l, ∀ r' ∈ l', hi r < lo r' := by
  constructor
  · rintro ⟨hn, ha⟩
    rw [List.pairwise_append] at ha
    exact ⟨⟨fun r hr => hn r (by simp [hr]), ha.1⟩, ⟨fun r hr => hn r (by simp [hr]), ha.2.1⟩,
      ha.2.2⟩
  · rintro ⟨⟨hn, ha⟩, ⟨hn', ha'⟩, hb⟩
    refine ⟨fun r hr => ?_, List.pairwise_append.mpr ⟨ha, ha', hb⟩⟩
    rcases List.mem_append.mp hr with hr | hr
    · exact hn r hr
    · exact hn' r hr

/-- Starts increase along a canonical list. -/
theorem Canonical.pairwise_lo {l : List ι} (h : Canonical lo hi l) :
    l.Pairwise fun r r' => lo r < lo r' :=
  h.apart.imp_of_mem fun hr _ hlt => (h.nonempty _ hr).trans hlt

/-- Nothing below the first start is covered. -/
theorem Canonical.le_of_covers {r : ι} {l : List ι} (h : Canonical lo hi (r :: l)) {x : α}
    (hx : Covers lo hi (r :: l) x) : lo r ≤ x := by
  obtain ⟨hr, hb, -⟩ := canonical_cons.mp h
  obtain ⟨r', hr', h1, -⟩ := hx
  rcases List.mem_cons.mp hr' with rfl | hr'
  · exact h1
  · exact ((hr.trans (hb r' hr')).le.trans h1)

/-- The end of an item is not covered. -/
theorem Canonical.not_covers_hi {l : List ι} (h : Canonical lo hi l) {r : ι} (hr : r ∈ l) :
    ¬ Covers lo hi l (hi r) := by
  induction l with
  | nil => simp at hr
  | cons a l ih =>
    obtain ⟨ha, hb, hl⟩ := canonical_cons.mp h
    rw [covers_cons]
    rcases List.mem_cons.mp hr with rfl | hr
    · rintro (⟨-, h1⟩ | ⟨r', hr', h1, -⟩)
      · exact lt_irrefl _ h1
      · exact absurd (hb r' hr') (not_lt.mpr h1)
    · rintro (⟨-, h1⟩ | h1)
      · exact absurd ((hb r hr).trans (hl.nonempty r hr)) (not_lt.mpr h1.le)
      · exact ih hl hr h1

/-- Two canonical lists of one set start with the same item. -/
theorem Canonical.head_eq {r r' : ι} {l l' : List ι} (h : Canonical lo hi (r :: l))
    (h' : Canonical lo hi (r' :: l'))
    (hc : ∀ x, Covers lo hi (r :: l) x ↔ Covers lo hi (r' :: l') x) :
    lo r = lo r' ∧ hi r = hi r' := by
  have hn := h.nonempty r (by simp)
  have hn' := h'.nonempty r' (by simp)
  have hlo : lo r = lo r' := le_antisymm
    (h.le_of_covers ((hc _).mpr ⟨r', by simp, le_rfl, hn'⟩))
    (h'.le_of_covers ((hc _).mp ⟨r, by simp, le_rfl, hn⟩))
  refine ⟨hlo, ?_⟩
  -- the shorter of the two would leave its own end uncovered, while the longer covers it
  rcases lt_trichotomy (hi r) (hi r') with hlt | heq | hlt
  · exact absurd ((hc _).mpr ⟨r', by simp, hlo ▸ hn.le, hlt⟩) (h.not_covers_hi (by simp))
  · exact heq
  · exact absurd ((hc _).mp ⟨r, by simp, hlo ▸ hn'.le, hlt⟩) (h'.not_covers_hi (by simp))

/-- **A set has at most one canonical list**, if an item is determined by its ends. -/
theorem Canonical.ext (hinj : ∀ r r' : ι, lo r = lo r' → hi r = hi r' → r = r') :
    ∀ {l l' : List ι}, Canonical lo hi l → Canonical lo hi l' →
      (∀ x, Covers lo hi l x ↔ Covers lo hi l' x) → l = l'
  | [], [], _, _, _ => rfl
  | [], r' :: l', _, h', hc =>
    absurd ((hc (lo r')).mpr ⟨r', by simp, le_rfl, h'.nonempty r' (by simp)⟩) (covers_nil _)
  | r :: l, [], h, _, hc =>
    absurd ((hc (lo r)).mp ⟨r, by simp, le_rfl, h.nonempty r (by simp)⟩) (covers_nil _)
  | r :: l, r' :: l', h, h', hc => by
    obtain ⟨hlo, hhi⟩ := h.head_eq h' hc
    obtain rfl := hinj r r' hlo hhi
    obtain ⟨hn, hb, hl⟩ := canonical_cons.mp h
    obtain ⟨-, hb', hl'⟩ := canonical_cons.mp h'
    rw [Canonical.ext hinj hl hl' fun x => ?_]
    have above : ∀ {k : List ι}, (∀ s ∈ k, hi r < lo s) → Covers lo hi k x → ¬ x < hi r := by
      rintro k hk ⟨s, hs, h1, -⟩
      exact not_lt.mpr ((hk s hs).le.trans h1)
    have := hc x
    rw [covers_cons, covers_cons] at this
    constructor
    · intro hx
      exact (this.mp (Or.inr hx)).resolve_left fun h1 => above hb hx h1.2
    · intro hx
      exact (this.mpr (Or.inr hx)).resolve_left fun h1 => above hb' hx h1.2

/-- **Splicing** an item into a canonical list, between the items below it and those above it. -/
theorem Canonical.splice {l l' : List ι} {r : ι} (h : Canonical lo hi (l ++ l')) (hr : lo r < hi r)
    (hl : ∀ s ∈ l, hi s < lo r) (hl' : ∀ s ∈ l', hi r < lo s) :
    Canonical lo hi (l ++ r :: l') := by
  obtain ⟨h1, h2, h3⟩ := canonical_append.mp h
  refine canonical_append.mpr ⟨h1, canonical_cons.mpr ⟨hr, hl', h2⟩, fun s hs s' hs' => ?_⟩
  rcases List.mem_cons.mp hs' with rfl | hs'
  · exact hl s hs
  · exact h3 s hs s' hs'

/-! ### Counting, over the natural numbers -/

variable {lo hi : ι → ℕ}

theorem finite_covers (l : List ι) : {x | Covers lo hi l x}.Finite := by
  induction l with
  | nil => simp [Covers]
  | cons r l ih =>
    refine ((Set.finite_Ico (lo r) (hi r)).union ih).subset fun x hx => ?_
    exact ((covers_cons r l x).mp hx).imp (fun h => h) fun h => h

/-- **The lengths of a canonical list add up to the number of covered points.** -/
theorem Canonical.sum_length {l : List ι} (h : Canonical lo hi l) :
    (l.map fun r => hi r - lo r).sum = {x | Covers lo hi l x}.ncard := by
  induction l with
  | nil => simp [Covers]
  | cons r l ih =>
    obtain ⟨-, hb, hl⟩ := canonical_cons.mp h
    have hunion : {x | Covers lo hi (r :: l) x} =
        (↑(Finset.Ico (lo r) (hi r)) : Set ℕ) ∪ {x | Covers lo hi l x} := by
      ext x; simp
    have hdisj : Disjoint (↑(Finset.Ico (lo r) (hi r)) : Set ℕ) {x | Covers lo hi l x} := by
      rw [Set.disjoint_left]
      rintro x hx ⟨s, hs, h1, -⟩
      have := hb s hs
      simp only [Finset.coe_Ico, Set.mem_Ico] at hx
      omega
    rw [hunion, Set.ncard_union_eq hdisj (Finset.finite_toSet _) (finite_covers l),
      Set.ncard_coe_finset, Nat.card_Ico, List.map_cons, List.sum_cons, ih hl]

end CncContent.Lib.Spans
