import CncContent.Lib.Bounded
import CncContent.Lib.CoverCount
import CncContent.Lib.Maps
import CncContent.Lib.Ranking
import CncContent.Lib.Tallies
import Mathlib.Algebra.Order.Field.Rat
import Mathlib.Data.List.Induction

/-! # Blame for corrupt pieces

`CorruptionLedger` of the source: which peer served which bytes of a piece, and the list of the peers to
blame. The bytes of each peer are summed in a hash map, whose entries are listed in some order and sorted
by their ratio. So the order of the list is determined exactly if the sums are pairwise different
(`blames_iff`). A ratio is an exact rational: for 32-bit values the quotients as floating point numbers
compare in the same way, with each other and with the threshold. -/

namespace CncContent.Peers.Blame

open CncContent.Lib.Bounded CncContent.Lib.CoverCount CncContent.Lib.Maps CncContent.Lib.Ranking
open CncContent.Lib.Tallies

def blameEscalationThreshold : ℚ := 1 / 2

/-- The peer has served the bytes from `start` up to `stop`. -/
structure Attribution where
  start : ℕ
  stop : ℕ
  peerIndex : ℕ
deriving DecidableEq, Repr

/-- The difference saturates. -/
def Attribution.byteCount (a : Attribution) : ℕ := a.stop - a.start

structure BlameEntry where
  peerIndex : ℕ
  bytesAttributed : ℕ
  blameRatio : ℚ
  shouldEscalate : Bool
deriving DecidableEq, Repr

structure CorruptionLedger where
  pieces : Table ℕ (List Attribution)

namespace CorruptionLedger

def new : CorruptionLedger := ⟨.empty⟩

variable (ledger : CorruptionLedger)

def record (pieceIndex : ℕ) (attribution : Attribution) : CorruptionLedger :=
  ⟨ledger.pieces.alter pieceIndex fun entry => entry.getD [] ++ [attribution]⟩

/-- What is recorded for the piece. -/
def attributions (pieceIndex : ℕ) : List Attribution := (ledger.pieces.get? pieceIndex).getD []

end CorruptionLedger

/-- The bytes by peer. -/
def perPeer (attributions : List Attribution) : Table ℕ ℕ :=
  attributions.foldl (fun t a => t.alter a.peerIndex fun n => satAdd u32Max (n.getD 0) a.byteCount)
    .empty

def blameEntry (totalPieceBytes : ℕ) (e : ℕ × ℕ) : BlameEntry :=
  let blameRatio : ℚ := e.2 / totalPieceBytes
  ⟨e.1, e.2, blameRatio, blameEscalationThreshold < blameRatio⟩

/-- The comparison of the sort: the ratio, descending. -/
def BlameEntry.le (a b : BlameEntry) : Prop := b.blameRatio ≤ a.blameRatio

instance : DecidableRel BlameEntry.le := fun a b => by unfold BlameEntry.le; infer_instance

/-- `blame_analysis`, with the order in which the hash map is iterated over. -/
def CorruptionLedger.blameAnalysis (ledger : CorruptionLedger) (iteration : Iteration ℕ ℕ)
    (pieceIndex totalPieceBytes : ℕ) : List BlameEntry :=
  match ledger.pieces.get? pieceIndex with
  | none => []
  | some attributions =>
    if totalPieceBytes = 0 || attributions.isEmpty then []
    else ((iteration.order (perPeer attributions)).map (blameEntry totalPieceBytes)).insertionSort
      BlameEntry.le

/-! ### What is recorded -/

/-- The peers that have served a part of the piece. -/
def peers (attributions : List Attribution) : List ℕ := attributions.map Attribution.peerIndex

/-- The bytes that the peer has served, without a limit. -/
def bytesOf (attributions : List Attribution) (p : ℕ) : ℕ :=
  (attributions.map fun a => if a.peerIndex = p then a.byteCount else 0).sum

/-- The saturating sum of the bytes. -/
def bytesAttributed (attributions : List Attribution) (p : ℕ) : ℕ :=
  min (bytesOf attributions p) u32Max

/-- No byte is in two of the ranges, and none is behind the end of the piece. -/
structure InPiece (totalPieceBytes : ℕ) (attributions : List Attribution) : Prop where
  inside : ∀ a ∈ attributions, a.stop ≤ totalPieceBytes
  disjoint : attributions.Pairwise fun a b =>
    ∀ x, a.start ≤ x → x < a.stop → ¬ (b.start ≤ x ∧ x < b.stop)

/-- What the analysis of a piece should be: the same for the same records, with one entry for each peer (of
a piece without bytes there is nothing to analyse), and at most one peer escalated if every byte was
served once. -/
structure Blames (ledger : CorruptionLedger) (pieceIndex totalPieceBytes : ℕ) : Prop where
  deterministic : ∀ (ledger' : CorruptionLedger) (iteration iteration' : Iteration ℕ ℕ),
    (ledger'.attributions pieceIndex).Perm (ledger.attributions pieceIndex) →
      ledger'.blameAnalysis iteration' pieceIndex totalPieceBytes =
        ledger.blameAnalysis iteration pieceIndex totalPieceBytes
  nodup : ∀ iteration, ((ledger.blameAnalysis iteration pieceIndex totalPieceBytes).map
    BlameEntry.peerIndex).Nodup
  sums : totalPieceBytes ≠ 0 → ∀ iteration p b,
    (∃ e ∈ ledger.blameAnalysis iteration pieceIndex totalPieceBytes,
      e.peerIndex = p ∧ e.bytesAttributed = b) ↔
    p ∈ peers (ledger.attributions pieceIndex) ∧
      b = bytesAttributed (ledger.attributions pieceIndex) p
  escalates : ∀ iteration, InPiece totalPieceBytes (ledger.attributions pieceIndex) →
    ((ledger.blameAnalysis iteration pieceIndex totalPieceBytes).filter
      BlameEntry.shouldEscalate).length ≤ 1

/-! ### Sums -/

section Sums

variable {as bs : List Attribution}

theorem bytesOf_perm (h : as.Perm bs) (p : ℕ) : bytesOf as p = bytesOf bs p := (h.map _).sum_eq

theorem bytesOf_append_singleton (a : Attribution) (p : ℕ) :
    bytesOf (as ++ [a]) p = bytesOf as p + if a.peerIndex = p then a.byteCount else 0 := by
  unfold bytesOf
  rw [List.map_append, List.sum_append, List.map_cons, List.map_nil, List.sum_singleton]

theorem bytesOf_eq_zero {p : ℕ} (h : p ∉ peers as) : bytesOf as p = 0 := by
  unfold bytesOf
  refine List.sum_eq_zero fun n hn => ?_
  obtain ⟨a, ha, rfl⟩ := List.mem_map.mp hn
  exact if_neg fun he : a.peerIndex = p => h (he ▸ List.mem_map_of_mem ha)

theorem mem_peers_append_singleton {a : Attribution} {p : ℕ} :
    p ∈ peers (as ++ [a]) ↔ p ∈ peers as ∨ p = a.peerIndex := by
  unfold peers
  rw [List.map_append, List.mem_append]
  exact or_congr_right List.mem_singleton

/-- **The sum of a peer** is in the map exactly if the peer has served a part. -/
theorem get?_perPeer (p : ℕ) : (perPeer as).get? p =
    if p ∈ peers as then some (bytesAttributed as p) else none := by
  induction as using List.reverseRecOn with
  | nil => rfl
  | append_singleton as a ih =>
    have hfold : perPeer (as ++ [a]) =
        (perPeer as).alter a.peerIndex fun n => satAdd u32Max (n.getD 0) a.byteCount :=
      List.foldl_append
    rw [hfold, Table.get?_alter, bytesAttributed, bytesOf_append_singleton]
    by_cases hp : p = a.peerIndex
    · subst hp
      rw [if_pos rfl, if_pos rfl, if_pos (mem_peers_append_singleton.mpr (Or.inr rfl)), ih,
        ← satAdd_min]
      by_cases hmem : a.peerIndex ∈ peers as
      · rw [if_pos hmem]
        rfl
      · rw [if_neg hmem, bytesOf_eq_zero hmem]
        rfl
    · rw [if_neg hp, if_neg (Ne.symm hp), Nat.add_zero, ih]
      exact if_congr (mem_peers_append_singleton.trans (or_iff_left hp)).symm rfl rfl

theorem perPeer_perm (h : as.Perm bs) : (perPeer as).entries.Perm (perPeer bs).entries := by
  refine Table.entries_perm fun p => ?_
  rw [get?_perPeer, get?_perPeer, bytesAttributed, bytesAttributed, bytesOf_perm h]
  exact if_congr (h.map _).mem_iff rfl rfl

/-- The bytes of two peers are in the piece together. -/
theorem bytesOf_add_le {n : ℕ} (h : InPiece n as) {p q : ℕ} (hne : p ≠ q) :
    bytesOf as p + bytesOf as q ≤ n := by
  let ranges := as.map fun a => (a.start, a.stop)
  have hinside : ∀ r ∈ ranges, r.1 < r.2 → r.2 ≤ n := fun r hr _ => by
    obtain ⟨a, ha, rfl⟩ := List.mem_map.mp hr
    exact h.inside a ha
  have htotal : (ranges.map fun r => r.2 - r.1).sum ≤ n :=
    sum_length_le hinside fun x => List.pairwise_map.mpr (h.disjoint.imp fun hab => hab x)
  rw [List.map_map] at htotal
  unfold bytesOf
  rw [← List.sum_map_add]
  refine le_trans (List.sum_le_sum fun a _ => ?_) htotal
  show _ ≤ a.byteCount
  split_ifs with hp hq
  · exact absurd (hp.symm.trans hq) hne
  · exact le_rfl
  · exact (Nat.zero_add _).le
  · exact Nat.zero_le _

end Sums

/-! ### The list -/

section List

variable {ledger : CorruptionLedger} {pieceIndex totalPieceBytes : ℕ}

/-- The analysis in one line, unless there is nothing to analyse. -/
theorem blameAnalysis_eq (iteration : Iteration ℕ ℕ) :
    ledger.blameAnalysis iteration pieceIndex totalPieceBytes =
      if totalPieceBytes = 0 ∨ ledger.attributions pieceIndex = [] then []
      else ((iteration.order (perPeer (ledger.attributions pieceIndex))).map
        (blameEntry totalPieceBytes)).insertionSort BlameEntry.le := by
  unfold CorruptionLedger.blameAnalysis CorruptionLedger.attributions
  cases ledger.pieces.get? pieceIndex with
  | none => exact (if_pos (Or.inr rfl)).symm
  | some attributions =>
    refine if_congr ?_ rfl rfl
    rw [Bool.or_eq_true, decide_eq_true_eq, List.isEmpty_iff]
    rfl

theorem blameEntry_injective (n : ℕ) : Function.Injective (blameEntry n) := fun _ _ h =>
  Prod.ext (congrArg BlameEntry.peerIndex h) (congrArg BlameEntry.bytesAttributed h)

theorem shouldEscalate_iff {n : ℕ} (hn : n ≠ 0) (e : ℕ × ℕ) :
    (blameEntry n e).shouldEscalate = true ↔ n < 2 * e.2 := by
  have hpos : (0 : ℚ) < n := by exact_mod_cast Nat.pos_of_ne_zero hn
  show decide ((1 / 2 : ℚ) < (e.2 : ℚ) / n) = true ↔ _
  rw [decide_eq_true_eq, lt_div_iff₀ hpos, div_mul_eq_mul_div, one_mul, div_lt_iff₀ two_pos, mul_comm]
  exact_mod_cast Iff.rfl

/-- The comparison of the ratios, on the bytes. -/
def MoreBytes (a b : ℕ × ℕ) : Prop := b.2 ≤ a.2

instance : DecidableRel MoreBytes := fun a b => by unfold MoreBytes; infer_instance

instance : Std.Total MoreBytes := ⟨fun _ _ => Nat.le_total _ _⟩

instance : IsTrans (ℕ × ℕ) MoreBytes := ⟨fun _ _ _ hab hbc => Nat.le_trans hbc hab⟩

theorem le_blameEntry_iff {n : ℕ} (hn : n ≠ 0) (a b : ℕ × ℕ) :
    (blameEntry n a).le (blameEntry n b) ↔ MoreBytes a b := by
  have hpos : (0 : ℚ) < n := by exact_mod_cast Nat.pos_of_ne_zero hn
  show (b.2 : ℚ) / n ≤ (a.2 : ℚ) / n ↔ _
  rw [div_le_div_iff_of_pos_right hpos, Nat.cast_le]
  rfl

/-- **The list** is the entries of the map, sorted by the bytes. -/
theorem blameAnalysis_eq_map (hn : totalPieceBytes ≠ 0) (iteration : Iteration ℕ ℕ) :
    ledger.blameAnalysis iteration pieceIndex totalPieceBytes =
      ((iteration.order (perPeer (ledger.attributions pieceIndex))).insertionSort MoreBytes).map
        (blameEntry totalPieceBytes) := by
  have hsort := List.map_insertionSort (r := MoreBytes) (s := BlameEntry.le)
    (blameEntry totalPieceBytes) (iteration.order (perPeer (ledger.attributions pieceIndex)))
    fun a _ b _ => (le_blameEntry_iff hn a b).symm
  rw [blameAnalysis_eq, hsort]
  split_ifs with h
  · have hnil : ledger.attributions pieceIndex = [] := h.resolve_left hn
    have hperm := iteration.perm (perPeer (ledger.attributions pieceIndex))
    rw [hnil] at hperm ⊢
    rw [List.Perm.eq_nil hperm]
    rfl
  · rfl

/-- The sums of two peers are never the same. -/
def DistinctSums (as : List Attribution) : Prop :=
  ∀ p ∈ peers as, ∀ q ∈ peers as, bytesAttributed as p = bytesAttributed as q → p = q

instance (as : List Attribution) : Decidable (DistinctSums as) := by
  unfold DistinctSums
  infer_instance

theorem mem_entries_perPeer {as : List Attribution} {e : ℕ × ℕ} :
    e ∈ (perPeer as).entries ↔ e.1 ∈ peers as ∧ e.2 = bytesAttributed as e.1 := by
  obtain ⟨p, b⟩ := e
  rw [Table.mem_entries_iff, get?_perPeer, Option.ite_none_right_eq_some, Option.some.injEq]
  exact and_congr_right fun _ => eq_comm

/-- The sums are different exactly if no order of the entries changes their sort. -/
theorem distinctSums_iff {as : List Attribution} : DistinctSums as ↔
    ∀ l : List (ℕ × ℕ), l.Perm (perPeer as).entries →
      l.insertionSort MoreBytes = (perPeer as).entries.insertionSort MoreBytes := by
  rw [insertionSort_perm_iff (perPeer as).nodup.of_map]
  constructor
  · intro h a ha b hb hab hba
    obtain ⟨hpa, hsa⟩ := mem_entries_perPeer.mp ha
    obtain ⟨hpb, hsb⟩ := mem_entries_perPeer.mp hb
    have hbytes : a.2 = b.2 := Nat.le_antisymm hba hab
    exact Prod.ext (h _ hpa _ hpb (hsa.symm.trans (hbytes.trans hsb))) hbytes
  · intro h p hp q hq hsum
    have heq := h (p, bytesAttributed as p) (mem_entries_perPeer.mpr ⟨hp, rfl⟩)
      (q, bytesAttributed as q) (mem_entries_perPeer.mpr ⟨hq, rfl⟩) hsum.ge hsum.le
    exact congrArg Prod.fst heq

/-- **Different sums** make the list the same for the same records. -/
theorem deterministic_iff (hn : totalPieceBytes ≠ 0) :
    (∀ (ledger' : CorruptionLedger) (iteration iteration' : Iteration ℕ ℕ),
      (ledger'.attributions pieceIndex).Perm (ledger.attributions pieceIndex) →
        ledger'.blameAnalysis iteration' pieceIndex totalPieceBytes =
          ledger.blameAnalysis iteration pieceIndex totalPieceBytes) ↔
      DistinctSums (ledger.attributions pieceIndex) := by
  rw [distinctSums_iff]
  constructor
  · intro h l hl
    have heq := h ledger .listed (.onTable _ l hl) (List.Perm.refl _)
    rw [blameAnalysis_eq_map hn, blameAnalysis_eq_map hn] at heq
    replace heq := List.map_injective_iff.mpr (blameEntry_injective _) heq
    rwa [Iteration.order_onTable] at heq
  · intro h ledger' iteration iteration' hperm
    rw [blameAnalysis_eq_map hn, blameAnalysis_eq_map hn, h _ (iteration.perm _),
      h _ ((iteration'.perm _).trans (perPeer_perm hperm))]

theorem exists_mem_blameAnalysis_iff (hn : totalPieceBytes ≠ 0) (iteration : Iteration ℕ ℕ) (p b : ℕ) :
    (∃ e ∈ ledger.blameAnalysis iteration pieceIndex totalPieceBytes,
      e.peerIndex = p ∧ e.bytesAttributed = b) ↔
    p ∈ peers (ledger.attributions pieceIndex) ∧
      b = bytesAttributed (ledger.attributions pieceIndex) p := by
  rw [blameAnalysis_eq_map hn]
  simp only [List.mem_map, List.mem_insertionSort, (iteration.perm _).mem_iff, mem_entries_perPeer]
  constructor
  · rintro ⟨_, ⟨e, ⟨hmem, hsum⟩, rfl⟩, rfl, rfl⟩
    exact ⟨hmem, hsum⟩
  · rintro ⟨hmem, rfl⟩
    exact ⟨_, ⟨(p, _), ⟨hmem, rfl⟩, rfl⟩, rfl, rfl⟩

theorem nodup_blameAnalysis (iteration : Iteration ℕ ℕ) :
    ((ledger.blameAnalysis iteration pieceIndex totalPieceBytes).map BlameEntry.peerIndex).Nodup := by
  by_cases hn : totalPieceBytes = 0
  · rw [blameAnalysis_eq, if_pos (Or.inl hn)]
    exact List.nodup_nil
  · rw [blameAnalysis_eq_map hn, List.map_map]
    have hperm := (List.perm_insertionSort MoreBytes _).trans
      (iteration.perm (perPeer (ledger.attributions pieceIndex)))
    exact (hperm.map Prod.fst).nodup_iff.mpr (perPeer _).nodup

/-- Two peers cannot both have served more than half of the piece. -/
theorem peerIndex_eq_of_escalated (hn : totalPieceBytes ≠ 0) {iteration : Iteration ℕ ℕ}
    (h : InPiece totalPieceBytes (ledger.attributions pieceIndex)) {e e' : BlameEntry}
    (he : e ∈ ledger.blameAnalysis iteration pieceIndex totalPieceBytes)
    (he' : e' ∈ ledger.blameAnalysis iteration pieceIndex totalPieceBytes)
    (hesc : e.shouldEscalate = true) (hesc' : e'.shouldEscalate = true) : e.peerIndex = e'.peerIndex := by
  rw [blameAnalysis_eq_map hn] at he he'
  simp only [List.mem_map, List.mem_insertionSort, (iteration.perm _).mem_iff, mem_entries_perPeer] at he he'
  obtain ⟨e, ⟨-, hsum⟩, rfl⟩ := he
  obtain ⟨e', ⟨-, hsum'⟩, rfl⟩ := he'
  rw [shouldEscalate_iff hn] at hesc hesc'
  by_contra hne
  have hle := bytesOf_add_le h hne
  have hmin : bytesAttributed (ledger.attributions pieceIndex) e.1 ≤ bytesOf _ e.1 := Nat.min_le_left _ _
  have hmin' : bytesAttributed (ledger.attributions pieceIndex) e'.1 ≤ bytesOf _ e'.1 :=
    Nat.min_le_left _ _
  simp only [blameEntry] at hle
  omega

/-- **At most one peer is escalated**, if every byte of the piece was served once. -/
theorem length_escalated_le (iteration : Iteration ℕ ℕ)
    (h : InPiece totalPieceBytes (ledger.attributions pieceIndex)) :
    ((ledger.blameAnalysis iteration pieceIndex totalPieceBytes).filter
      BlameEntry.shouldEscalate).length ≤ 1 := by
  by_cases hn : totalPieceBytes = 0
  · rw [blameAnalysis_eq, if_pos (Or.inl hn)]
    exact Nat.zero_le _
  · exact length_filter_le_one (nodup_blameAnalysis iteration) fun e he e' he' =>
      peerIndex_eq_of_escalated hn h he he'

end List

/-! ### The analysis as it should be -/

/-- **The pieces that are analysed as they should be** are those of which no two peers have served the same
number of bytes. -/
theorem blames_iff (ledger : CorruptionLedger) (pieceIndex totalPieceBytes : ℕ) :
    Blames ledger pieceIndex totalPieceBytes ↔
      totalPieceBytes = 0 ∨ DistinctSums (ledger.attributions pieceIndex) := by
  constructor
  · intro h
    by_cases hn : totalPieceBytes = 0
    · exact Or.inl hn
    · exact Or.inr ((deterministic_iff hn).mp h.deterministic)
  · intro h
    refine ⟨?_, nodup_blameAnalysis, fun hn => exists_mem_blameAnalysis_iff hn, length_escalated_le⟩
    by_cases hn : totalPieceBytes = 0
    · intro ledger' iteration iteration' _
      rw [blameAnalysis_eq, blameAnalysis_eq, if_pos (Or.inl hn), if_pos (Or.inl hn)]
    · exact (deterministic_iff hn).mpr (h.resolve_left hn)

/-- Two peers served one half of a piece each. -/
def halves : CorruptionLedger := (CorruptionLedger.new.record 0 ⟨0, 128, 0⟩).record 0 ⟨128, 256, 1⟩

example : ¬ DistinctSums (halves.attributions 0) := by decide +kernel

/-- The order of the list is the order of the hash map. -/
theorem halves_not_blamed :
    (halves.blameAnalysis .listed 0 256).map BlameEntry.peerIndex = [0, 1] ∧
      (halves.blameAnalysis .reversed 0 256).map BlameEntry.peerIndex = [1, 0] ∧
      ¬ Blames halves 0 256 := by
  refine ⟨by decide +kernel, by decide +kernel, fun h => ?_⟩
  have heq := congrArg (List.map BlameEntry.peerIndex)
    (h.deterministic halves .listed .reversed (List.Perm.refl _))
  exact absurd heq (by decide +kernel)

end CncContent.Peers.Blame
