import CncContent.Streaming.ByteRanges
import Mathlib.Order.Bounds.Basic
import Mathlib.Order.Interval.Set.Nat

/-! # The map of available ranges is a set of bytes

`insert` keeps the list canonical (`insert_normal`) and adds exactly the bytes of the new range
(`available_insert`). While `retain` runs, the ranges kept so far stay apart from the growing merged
range (`RetainInv`), because the list is sorted: a range that is merged later starts above all that
were kept. The queries then read the set of available bytes, and a canonical list is determined by
that set, so the order of the insertions does not matter. -/

namespace CncContent.Streaming.ByteRangeSpec

open CncContent.Lib.Bounded CncContent.Lib.BinarySearch CncContent.Lib.Spans
open CncContent.Streaming.ByteRanges
open CncContent.Streaming.ByteRanges.ByteRangeMap

/-- Canonical lists of ranges. -/
abbrev Norm (l : List ByteRange) : Prop := Canonical ByteRange.start ByteRange.stop l

/-- The bytes of a list of ranges. -/
abbrev Cov (l : List ByteRange) (x : ℕ) : Prop := Covers ByteRange.start ByteRange.stop l x

/-! ### Merging -/

theorem mergeableWith_iff {r s : ByteRange} :
    r.mergeableWith s = true ↔ r.start ≤ s.stop ∧ s.start ≤ r.stop := by
  simp [ByteRange.mergeableWith]

theorem merge_has {r s : ByteRange} (h : s.mergeableWith r = true) (x : ℕ) :
    (r.merge s).Has x ↔ r.Has x ∨ s.Has x := by
  rw [mergeableWith_iff] at h
  simp only [ByteRange.Has, ByteRange.merge]
  omega

/-- What holds while `retain` runs over a canonical list: the kept ranges `acc.1` and those still
to come form a canonical list, and the merged range `acc.2` touches none of the kept ones. -/
structure RetainInv (acc : List ByteRange × ByteRange) (rest : List ByteRange) : Prop where
  norm : Norm (acc.1 ++ rest)
  pos : acc.2.start < acc.2.stop
  apart : ∀ k ∈ acc.1, k.stop < acc.2.start ∨ acc.2.stop < k.start

/-- The bytes of the kept ranges, the merged one and the ranges still to come. -/
def RetainCov (acc : List ByteRange × ByteRange) (rest : List ByteRange) (x : ℕ) : Prop :=
  Cov acc.1 x ∨ acc.2.Has x ∨ Cov rest x

theorem retainStep_inv {acc : List ByteRange × ByteRange} {r : ByteRange} {rest : List ByteRange}
    (h : RetainInv acc (r :: rest)) : RetainInv (retainStep acc r) rest := by
  obtain ⟨hnorm, hpos, hapart⟩ := h
  obtain ⟨hk, hr, hbelow⟩ := canonical_append.mp hnorm
  obtain ⟨hrpos, hrest, htail⟩ := canonical_cons.mp hr
  unfold retainStep
  split_ifs with hm
  · rw [mergeableWith_iff] at hm
    refine ⟨canonical_append.mpr ⟨hk, htail, fun k hk' s hs => hbelow k hk' s (by simp [hs])⟩, ?_,
      fun k hk' => ?_⟩
    · show min acc.2.start r.start < max acc.2.stop r.stop
      omega
    · -- a kept range above the merged one would also lie below `r`, which touches the merged one
      have h1 := hbelow k hk' r (by simp)
      have h2 := hk.nonempty k hk'
      have h3 := hapart k hk'
      left
      show k.stop < min acc.2.start r.start
      omega
  · have hm' : ¬ (r.start ≤ acc.2.stop ∧ acc.2.start ≤ r.stop) := by
      rwa [← mergeableWith_iff]
    refine ⟨by simpa using hnorm, hpos, fun k hk' => ?_⟩
    rcases List.mem_append.mp hk' with hk' | hk'
    · exact hapart k hk'
    · rw [List.mem_singleton.mp hk']
      show r.stop < acc.2.start ∨ acc.2.stop < r.start
      omega

theorem retainStep_cov (acc : List ByteRange × ByteRange) (r : ByteRange) (rest : List ByteRange)
    (x : ℕ) : RetainCov (retainStep acc r) rest x ↔ RetainCov acc (r :: rest) x := by
  unfold retainStep RetainCov
  split_ifs with hm
  · show Cov acc.1 x ∨ (acc.2.merge r).Has x ∨ Cov rest x ↔ _
    rw [merge_has hm]
    simp only [covers_cons, ByteRange.Has]
    tauto
  · simp only [covers_append, covers_cons, covers_nil, or_false]
    tauto

theorem foldl_retainStep : ∀ (rest : List ByteRange) (acc : List ByteRange × ByteRange),
    RetainInv acc rest → RetainInv (rest.foldl retainStep acc) [] ∧
      ∀ x, RetainCov (rest.foldl retainStep acc) [] x ↔ RetainCov acc rest x
  | [], _, h => ⟨h, fun _ => Iff.rfl⟩
  | r :: rest, acc, h => by
    obtain ⟨h1, h2⟩ := foldl_retainStep rest (retainStep acc r) (retainStep_inv h)
    exact ⟨h1, fun x => (h2 x).trans (retainStep_cov acc r rest x)⟩

/-- **What `retain` leaves**: a canonical list apart from the merged range, and no byte lost. -/
theorem retainMerge_spec {l : List ByteRange} {r : ByteRange} (hl : Norm l)
    (hr : r.start < r.stop) :
    RetainInv (retainMerge r l) [] ∧
      ∀ x, RetainCov (retainMerge r l) [] x ↔ r.Has x ∨ Cov l x := by
  have h0 : RetainInv ([], r) l := ⟨hl, hr, by simp⟩
  obtain ⟨h1, h2⟩ := foldl_retainStep l _ h0
  exact ⟨h1, fun x => (h2 x).trans (by simp [RetainCov])⟩

/-! ### Inserting -/

/-- The position found by the binary search separates the kept ranges below the merged one from
those above it. -/
theorem kept_split {kept : List ByteRange} {merged : ByteRange} (hn : Norm kept)
    (hpos : merged.start < merged.stop)
    (hap : ∀ k ∈ kept, k.stop < merged.start ∨ merged.stop < k.start) :
    (∀ k ∈ kept.take (position (binarySearch (kept.map ByteRange.start) merged.start)),
      k.stop < merged.start) ∧
    ∀ k ∈ kept.drop (position (binarySearch (kept.map ByteRange.start) merged.start)),
      merged.stop < k.start := by
  have hs : (kept.map ByteRange.start).Pairwise (· < ·) := List.pairwise_map.mpr hn.pairwise_lo
  constructor
  · intro k hk
    have hlt : k.start < merged.start := by
      refine lt_of_mem_take hs ?_
      rw [← List.map_take]
      exact List.mem_map_of_mem hk
    have := hap k (List.mem_of_mem_take hk)
    omega
  · intro k hk
    have hle : merged.start ≤ k.start := by
      refine le_of_mem_drop hs ?_
      rw [← List.map_drop]
      exact List.mem_map_of_mem hk
    have h1 := hap k (List.mem_of_mem_drop hk)
    have h2 := hn.nonempty k (List.mem_of_mem_drop hk)
    omega

variable {m : ByteRangeMap}

theorem insert_of_isEmpty {r : ByteRange} (h : r.stop ≤ r.start) : m.insert r = m := by
  simp [ByteRangeMap.insert, ByteRange.isEmpty, h]

theorem insert_ranges {r : ByteRange} (h : r.start < r.stop) : (m.insert r).ranges =
    let acc := retainMerge r m.ranges
    let pos := position (binarySearch (acc.1.map ByteRange.start) acc.2.start)
    acc.1.take pos ++ acc.2 :: acc.1.drop pos := by
  simp [ByteRangeMap.insert, ByteRange.isEmpty, not_le.mpr h]

@[simp] theorem insert_fileSize (r : ByteRange) : (m.insert r).fileSize = m.fileSize := by
  unfold ByteRangeMap.insert; split_ifs <;> rfl

/-- **`insert` keeps the list canonical.** -/
theorem insert_normal (h : m.Normal) (r : ByteRange) : (m.insert r).Normal := by
  rcases Nat.lt_or_ge r.start r.stop with hr | hr
  · obtain ⟨⟨hn, hpos, hap⟩, -⟩ := retainMerge_spec h hr
    rw [List.append_nil] at hn
    obtain ⟨hbelow, habove⟩ := kept_split hn hpos hap
    unfold ByteRangeMap.Normal
    rw [insert_ranges hr]
    exact Canonical.splice (by rwa [List.take_append_drop]) hpos hbelow habove
  · rw [insert_of_isEmpty hr]; exact h

/-- **`insert` adds exactly the bytes of the range.** -/
theorem available_insert (h : m.Normal) (r : ByteRange) (x : ℕ) :
    (m.insert r).Available x ↔ r.Has x ∨ m.Available x := by
  rcases Nat.lt_or_ge r.start r.stop with hr | hr
  · obtain ⟨-, hcov⟩ := retainMerge_spec h hr
    unfold Available
    rw [insert_ranges hr, ← hcov x]
    dsimp only
    generalize position _ = pos
    generalize retainMerge r m.ranges = acc
    have hsplit : Cov acc.1 x ↔ Cov (acc.1.take pos) x ∨ Cov (acc.1.drop pos) x := by
      rw [← covers_append, List.take_append_drop]
    rw [covers_append, covers_cons, RetainCov, hsplit]
    simp only [covers_nil, or_false, ByteRange.Has]
    tauto
  · rw [insert_of_isEmpty hr]
    unfold ByteRange.Has
    constructor
    · exact Or.inr
    · rintro (hx | hx)
      · omega
      · exact hx

theorem new_normal (n : ℕ) : (ByteRangeMap.new n).Normal := canonical_nil

theorem insertAll_spec : ∀ (rs : List ByteRange) {m : ByteRangeMap}, m.Normal →
    (m.insertAll rs).Normal ∧ (m.insertAll rs).fileSize = m.fileSize ∧
      ∀ x, (m.insertAll rs).Available x ↔ (∃ r ∈ rs, r.Has x) ∨ m.Available x
  | [], m, h => ⟨h, rfl, fun x => by simp [insertAll]⟩
  | r :: rs, m, h => by
    obtain ⟨h1, h2, h3⟩ := insertAll_spec rs (insert_normal h r)
    refine ⟨h1, h2.trans (insert_fileSize r), fun x => (h3 x).trans ?_⟩
    rw [available_insert h]
    simp only [List.mem_cons, exists_eq_or_imp]
    rw [← or_assoc, or_comm (a := ∃ r ∈ rs, r.Has x)]

/-! ### The queries -/

theorem containing_some {o : ℕ} {r : ByteRange} (h : m.containing o = some r) :
    r ∈ m.ranges ∧ r.start ≤ o ∧ o < r.stop := by
  unfold containing at h
  have hp := List.find?_some h
  rw [Bool.and_eq_true, decide_eq_true_eq, decide_eq_true_eq] at hp
  exact ⟨List.mem_of_find?_eq_some h, hp⟩

theorem containing_none {o : ℕ} (h : m.containing o = none) : ¬ m.Available o := by
  unfold containing at h
  rintro ⟨r, hr, h1, h2⟩
  have := List.find?_eq_none.mp h r hr
  simp [h1, h2] at this

/-- Every byte of the range that contains the offset is available, and its end is not. -/
theorem run_of_containing (hm : m.Normal) {o : ℕ} {r : ByteRange}
    (h : m.containing o = some r) :
    o < r.stop ∧ (∀ x, o ≤ x → x < r.stop → m.Available x) ∧ ¬ m.Available r.stop := by
  obtain ⟨hr, h1, h2⟩ := containing_some h
  exact ⟨h2, fun x hx hx' => ⟨r, hr, by omega, hx'⟩, hm.not_covers_hi hr⟩

/-- **`contiguous_from`** is the length of the longest available run that starts at the offset. -/
theorem contiguousFrom_isGreatest (hm : m.Normal) (o : ℕ) :
    IsGreatest {k | ∀ x, o ≤ x → x < o + k → m.Available x} (m.contiguousFrom o) := by
  unfold contiguousFrom
  rcases hc : m.containing o with _ | r
  · dsimp only
    refine ⟨fun x hx hx' => by omega, fun k hk => ?_⟩
    by_contra hpos
    exact containing_none hc (hk o le_rfl (by omega))
  · dsimp only
    obtain ⟨hlt, hrun, hstop⟩ := run_of_containing hm hc
    refine ⟨fun x hx hx' => hrun x hx (by omega), fun k hk => ?_⟩
    by_contra hgt
    exact hstop (hk r.stop hlt.le (by omega))

/-- **`first_gap_from`** is the least unavailable offset from `o` on, below the end of the file. -/
theorem firstGapFrom_eq_some_iff (hm : m.Normal) (o g : ℕ) :
    m.firstGapFrom o = some g ↔ IsLeast {x | o ≤ x ∧ x < m.fileSize ∧ ¬ m.Available x} g := by
  have hleast : ∀ {g' : ℕ}, IsLeast {x | o ≤ x ∧ x < m.fileSize ∧ ¬ m.Available x} g' →
      (some g' = some g ↔ IsLeast {x | o ≤ x ∧ x < m.fileSize ∧ ¬ m.Available x} g) := by
    intro g' hg'
    rw [Option.some.injEq]
    exact ⟨fun h => h ▸ hg', fun h => hg'.unique h⟩
  unfold firstGapFrom
  rcases hc : m.containing o with _ | r
  · have hno := containing_none hc
    dsimp only
    split_ifs with hend
    · constructor
      · intro h; cases h
      · rintro ⟨⟨h1, h2, -⟩, -⟩; omega
    · exact hleast ⟨⟨le_rfl, not_le.mp hend, hno⟩, fun x hx => hx.1⟩
  · obtain ⟨hlt, hrun, hstop⟩ := run_of_containing hm hc
    dsimp only
    split_ifs with hend
    · constructor
      · intro h; cases h
      · rintro ⟨⟨h1, h2, h3⟩, -⟩; exact absurd (hrun g h1 (by omega)) h3
    · refine hleast ⟨⟨hlt.le, not_le.mp hend, hstop⟩, fun x hx => ?_⟩
      by_contra hlt'
      exact hx.2.2 (hrun x hx.1 (not_le.mp hlt'))

/-- **`has_range`** says that all the bytes are available. -/
theorem hasRange_iff (hm : m.Normal) {s n : ℕ} (hn : 0 < n) (hfit : s + n ≤ u64Max) :
    m.hasRange s n = true ↔ ∀ x, s ≤ x → x < s + n → m.Available x := by
  simp only [hasRange, if_neg hn.ne', checkedAdd_of_le hfit, List.any_eq_true,
    ByteRange.containsRange, Bool.and_eq_true, decide_eq_true_eq]
  constructor
  · rintro ⟨r, hr, h1, h2⟩ x hx hx'
    exact ⟨r, hr, by omega, by omega⟩
  · intro hall
    -- the range that holds the first byte has to hold them all, since its end is unavailable
    obtain ⟨r, hr, h1, h2⟩ := hall s le_rfl (by omega)
    refine ⟨r, hr, h1, ?_⟩
    by_contra hgt
    exact hm.not_covers_hi hr (hall r.stop (by omega) (by omega))

/-- **`available_bytes`** is the number of available bytes. -/
theorem availableBytes_eq (hm : m.Normal) : m.availableBytes = {x | m.Available x}.ncard :=
  hm.sum_length

/-- The sum does not overflow: the available bytes are 64-bit offsets. -/
theorem availableBytes_le (hm : m.Normal) {N : ℕ} (h : ∀ x, m.Available x → x < N) :
    m.availableBytes ≤ N := by
  rw [availableBytes_eq hm]
  calc {x | m.Available x}.ncard ≤ (↑(Finset.range N) : Set ℕ).ncard :=
        Set.ncard_le_ncard (fun x hx => by simpa using h x hx) (Finset.finite_toSet _)
    _ = N := by rw [Set.ncard_coe_finset, Finset.card_range]

/-! ### The order of the insertions -/

/-- **Inserting the same ranges in another order gives the same list.** -/
theorem insertAll_perm (hm : m.Normal) {rs rs' : List ByteRange} (h : rs.Perm rs') :
    m.insertAll rs = m.insertAll rs' := by
  obtain ⟨h1, h2, h3⟩ := insertAll_spec rs hm
  obtain ⟨h1', h2', h3'⟩ := insertAll_spec rs' hm
  have hranges : (m.insertAll rs).ranges = (m.insertAll rs').ranges := by
    refine Canonical.ext (fun r r' => ByteRange.eq_of_ends) h1 h1' fun x => ?_
    refine (h3 x).trans (Iff.trans ?_ (h3' x).symm)
    simp only [h.mem_iff]
  cases hl : m.insertAll rs
  cases hr : m.insertAll rs'
  simp_all

/-- **The map is the set of the inserted bytes**: the list is canonical, its union is the union of
the inserted ranges, every query answers about that set, and the order of the insertions does not
matter. -/
theorem byteRangeMap_is_set (fileSize : ℕ) (rs : List ByteRange) :
    let m := (ByteRangeMap.new fileSize).insertAll rs
    m.Normal ∧ (∀ x, m.Available x ↔ ∃ r ∈ rs, r.Has x) ∧
      (∀ s n, 0 < n → s + n ≤ u64Max →
        (m.hasRange s n = true ↔ ∀ x, s ≤ x → x < s + n → ∃ r ∈ rs, r.Has x)) ∧
      (∀ o, IsGreatest {k | ∀ x, o ≤ x → x < o + k → m.Available x} (m.contiguousFrom o)) ∧
      (∀ o g, m.firstGapFrom o = some g ↔
        IsLeast {x | o ≤ x ∧ x < fileSize ∧ ¬ m.Available x} g) ∧
      m.availableBytes = {x | m.Available x}.ncard ∧
      ((∀ r ∈ rs, r.stop ≤ u64Max) → m.availableBytes ≤ u64Max) ∧
      ∀ rs', rs.Perm rs' → (ByteRangeMap.new fileSize).insertAll rs' = m := by
  intro m
  obtain ⟨hm, hsize, hav⟩ := insertAll_spec rs (new_normal fileSize)
  have hav' : ∀ x, m.Available x ↔ ∃ r ∈ rs, r.Has x := fun x =>
    (hav x).trans (or_iff_left (covers_nil x))
  have hsize' : m.fileSize = fileSize := hsize
  refine ⟨hm, hav', fun s n hn hfit => ?_, contiguousFrom_isGreatest hm, fun o g => ?_,
    availableBytes_eq hm, fun hfit => availableBytes_le hm fun x hx => ?_,
    fun rs' hp => (insertAll_perm (new_normal fileSize) hp).symm⟩
  · refine (hasRange_iff hm hn hfit).trans ?_
    exact forall_congr' fun x => forall₂_congr fun _ _ => hav' x
  · rw [firstGapFrom_eq_some_iff hm, hsize']
  · obtain ⟨r, hr, -, hlt⟩ := (hav' x).mp hx
    exact hlt.trans_le (hfit r hr)

end CncContent.Streaming.ByteRangeSpec
