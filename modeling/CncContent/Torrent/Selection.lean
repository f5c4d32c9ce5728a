import CncContent.Lib.Ranking
import CncContent.Peers.Bitfield
import Mathlib.Data.List.Induction

/-! # Piece selection

`select_next_piece`, `select_multiple_pieces` and `select_piece_with_affinity` of the source, with the
priority map they read. Each sorts the needed pieces that some peer has by a weighted score. The score
is two keys in one number (`weightedScore_lt_iff`), so that the three selectors follow one order: the
priority, then the rarest piece, then the lowest index (`selectors_follow_order`). -/

namespace CncContent.Torrent.Selection

open CncContent.Lib.Bounded CncContent.Lib.Ranking CncContent.Peers.Bitfield

/-! ### Priorities -/

inductive PiecePriority
  | low
  | normal
  | high
  | critical
deriving DecidableEq, Repr

namespace PiecePriority

/-- The discriminant, by which priorities are ordered. -/
def level : PiecePriority → ℕ
  | low => 0
  | normal => 1
  | high => 2
  | critical => 3

def weight : PiecePriority → ℕ
  | low => 100
  | normal => 200
  | high => 500
  | critical => 1000

theorem weight_le (p : PiecePriority) : p.weight ≤ 1000 := by cases p <;> decide

theorem weight_lt_weight_iff (p q : PiecePriority) : p.weight < q.weight ↔ p.level < q.level := by
  cases p <;> cases q <;> decide

theorem weight_eq_weight_iff (p q : PiecePriority) : p.weight = q.weight ↔ p.level = q.level := by
  cases p <;> cases q <;> decide

theorem level_injective : Function.Injective level := fun p q => by
  cases p <;> cases q <;> decide

end PiecePriority

/-- The priorities by piece index. -/
structure PiecePriorityMap where
  priorities : List PiecePriority
deriving DecidableEq

namespace PiecePriorityMap

variable (priorityMap : PiecePriorityMap)

def get (pieceIndex : ℕ) : PiecePriority := (priorityMap.priorities[pieceIndex]?).getD .normal

def weightedScore (pieceIndex rarity maxRarity : ℕ) : ℕ :=
  let scale := satAdd u32Max maxRarity 1
  let rarityInverse := satAdd u32Max maxRarity 1 - rarity
  satAdd u64Max (satMul u64Max (priorityMap.get pieceIndex).weight scale) rarityInverse

end PiecePriorityMap

/-! ### Rarity -/

/-- The scores after one more peer. -/
def countPeer (scores : List ℕ) (f : PeerBitfield) : List ℕ :=
  scores.mapIdx fun i score => if f.hasPiece i then satAdd u32Max score 1 else score

/-- The number of peers that have each piece, in 32 bits. -/
def rarityScores (bitfields : List PeerBitfield) (pieceCount : ℕ) : List ℕ :=
  bitfields.foldl countPeer (List.replicate pieceCount 0)

/-- The largest score, or 0. -/
def maxRarity (scores : List ℕ) : ℕ := scores.max?.getD 0

/-! ### Selection -/

structure PieceSelection where
  pieceIndex : ℕ
  score : ℕ
deriving DecidableEq, Repr

/-- The comparison of the two plain selectors: the score, descending, then the index. -/
def PieceSelection.le (a b : PieceSelection) : Prop :=
  b.score < a.score ∨ a.score = b.score ∧ a.pieceIndex ≤ b.pieceIndex

instance : DecidableRel PieceSelection.le := fun a b => by
  unfold PieceSelection.le; infer_instance

/-- The candidate for a needed piece, unless no peer has it. -/
def candidate (scores : List ℕ) (priorityMap : PiecePriorityMap) (idx : ℕ) : Option PieceSelection :=
  let rarity := (scores[idx]?).getD 0
  if rarity = 0 then none
  else some ⟨idx, priorityMap.weightedScore idx rarity (maxRarity scores)⟩

def candidates (needed : List ℕ) (scores : List ℕ) (priorityMap : PiecePriorityMap) :
    List PieceSelection :=
  needed.filterMap (candidate scores priorityMap)

def selectNextPiece (needed : List ℕ) (bitfields : List PeerBitfield)
    (priorityMap : PiecePriorityMap) (pieceCount : ℕ) : Option PieceSelection :=
  if needed.isEmpty then none
  else ((candidates needed (rarityScores bitfields pieceCount) priorityMap).insertionSort
    PieceSelection.le).head?

def selectMultiplePieces (needed : List ℕ) (bitfields : List PeerBitfield)
    (priorityMap : PiecePriorityMap) (pieceCount count : ℕ) : List PieceSelection :=
  if needed.isEmpty || count == 0 then []
  else ((candidates needed (rarityScores bitfields pieceCount) priorityMap).insertionSort
    PieceSelection.le).take count

inductive SpeedCategory
  | slow
  | medium
  | fast
deriving DecidableEq, Repr

namespace SpeedCategory

/-- The speed in percent of the reference, which is 0 while no peer is measured. -/
def classify (speed referenceSpeed : ℕ) : SpeedCategory :=
  if referenceSpeed = 0 then .medium
  else
    let ratioPct := satMul u64Max speed 100 / referenceSpeed
    if ratioPct < 25 then .slow else if 75 < ratioPct then .fast else .medium

/-- The number that breaks a tie. The remainder is by a positive number: a candidate is below the
piece count. -/
def tiebreakBias (category : SpeedCategory) (pieceIndex pieceCount : ℕ) : ℕ :=
  match category with
  | .fast => pieceIndex
  | .medium => asU32 (pieceIndex + pieceCount / 2) % pieceCount
  | .slow => pieceCount - pieceIndex - 1

end SpeedCategory

/-- The comparison with affinity: the score, descending, then the number of the category. -/
def affinityLe (a b : PieceSelection × ℕ) : Prop :=
  b.1.score < a.1.score ∨ a.1.score = b.1.score ∧ a.2 ≤ b.2

instance : DecidableRel affinityLe := fun a b => by unfold affinityLe; infer_instance

def selectPieceWithAffinity (needed : List ℕ) (bitfields : List PeerBitfield)
    (priorityMap : PiecePriorityMap) (pieceCount : ℕ) (category : SpeedCategory) :
    Option PieceSelection :=
  if needed.isEmpty then none
  else
    let ranked := needed.filterMap fun idx =>
      (candidate (rarityScores bitfields pieceCount) priorityMap idx).map fun selection =>
        (selection, category.tiebreakBias idx pieceCount)
    ((ranked.insertionSort affinityLe).head?).map Prod.fst

/-! ### The order of the pieces -/

section Order

variable (bitfields : List PeerBitfield) (priorityMap : PiecePriorityMap) (pieceCount : ℕ)

/-- The number of peers that have a piece of the torrent. -/
def holders (i : ℕ) : ℕ := if i < pieceCount then bitfields.countP fun f => f.hasPiece i else 0

/-- The number of peers that have a piece, as far as 32 bits count. -/
def availability (i : ℕ) : ℕ := min (holders bitfields pieceCount i) u32Max

/-- The order of the pieces: the priority, the rarest, the lowest index. -/
def Before (i j : ℕ) : Prop :=
  (priorityMap.get j).level < (priorityMap.get i).level ∨
    (priorityMap.get i).level = (priorityMap.get j).level ∧
      (availability bitfields pieceCount i < availability bitfields pieceCount j ∨
        availability bitfields pieceCount i = availability bitfields pieceCount j ∧ i < j)

variable (needed : List ℕ)

/-- A needed piece that some peer has. -/
def Obtainable (i : ℕ) : Prop := i ∈ needed ∧ 0 < availability bitfields pieceCount i

/-- The piece that comes before all others. -/
def IsBest (i : ℕ) : Prop :=
  Obtainable bitfields pieceCount needed i ∧
    ∀ j, Obtainable bitfields pieceCount needed j → j ≠ i → Before bitfields priorityMap pieceCount i j

/-- The first `n` pieces in the order, or all of them. -/
structure IsFirst (n : ℕ) (pieces : List ℕ) : Prop where
  obtainable : ∀ i ∈ pieces, Obtainable bitfields pieceCount needed i
  sorted : pieces.Pairwise (Before bitfields priorityMap pieceCount)
  length : pieces.length =
    min n (needed.countP fun i => decide (0 < availability bitfields pieceCount i))
  rest : ∀ i ∈ pieces, ∀ j, Obtainable bitfields pieceCount needed j → j ∉ pieces →
    Before bitfields priorityMap pieceCount i j

/-- What the three selectors return. -/
structure FollowsOrder : Prop where
  next_some : ∀ s, selectNextPiece needed bitfields priorityMap pieceCount = some s →
    IsBest bitfields priorityMap pieceCount needed s.pieceIndex
  next_none : selectNextPiece needed bitfields priorityMap pieceCount = none ↔
    ∀ i, ¬ Obtainable bitfields pieceCount needed i
  multiple : ∀ count, IsFirst bitfields priorityMap pieceCount needed count
    ((selectMultiplePieces needed bitfields priorityMap pieceCount count).map
      PieceSelection.pieceIndex)
  head : ∀ count, 0 < count →
    (selectMultiplePieces needed bitfields priorityMap pieceCount count).head? =
      selectNextPiece needed bitfields priorityMap pieceCount
  affinity : ∀ category s,
    selectPieceWithAffinity needed bitfields priorityMap pieceCount category = some s →
    Obtainable bitfields pieceCount needed s.pieceIndex ∧
      ∃ best, selectNextPiece needed bitfields priorityMap pieceCount = some best ∧
        priorityMap.get s.pieceIndex = priorityMap.get best.pieceIndex ∧
        availability bitfields pieceCount s.pieceIndex =
          availability bitfields pieceCount best.pieceIndex

end Order

/-! ### The scores -/

section Scores

variable {bitfields : List PeerBitfield} {priorityMap : PiecePriorityMap} {pieceCount : ℕ}

theorem getElem?_countPeer (scores : List ℕ) (f : PeerBitfield) (i : ℕ) : (countPeer scores f)[i]? =
    scores[i]?.map fun score => if f.hasPiece i then satAdd u32Max score 1 else score :=
  List.getElem?_mapIdx

theorem getElem?_rarityScores (i : ℕ) : (rarityScores bitfields pieceCount)[i]? =
    if i < pieceCount then some (min (bitfields.countP fun f => f.hasPiece i) u32Max) else none := by
  induction bitfields using List.reverseRecOn with
  | nil => simp only [rarityScores, List.foldl_nil, List.getElem?_replicate, List.countP_nil,
      Nat.zero_min]
  | append_singleton peers f ih =>
    have hfold : rarityScores (peers ++ [f]) pieceCount =
        countPeer (rarityScores peers pieceCount) f := List.foldl_append
    rw [hfold, getElem?_countPeer, ih, List.countP_append, List.countP_singleton]
    by_cases hi : i < pieceCount
    · rw [if_pos hi, if_pos hi, Option.map_some]
      split_ifs
      · rw [satAdd_min]
      · rfl
    · rw [if_neg hi, if_neg hi, Option.map_none]

/-- The score of a piece is its availability. -/
theorem getD_rarityScores (i : ℕ) : ((rarityScores bitfields pieceCount)[i]?).getD 0 =
    availability bitfields pieceCount i := by
  rw [getElem?_rarityScores, availability, holders]
  split_ifs
  · rfl
  · exact (Nat.zero_min _).symm

/-- Below the largest count the availability is the number of peers. -/
theorem availability_of_length_le (h : bitfields.length ≤ u32Max) (i : ℕ) :
    availability bitfields pieceCount i = holders bitfields pieceCount i := by
  refine Nat.min_eq_left (le_trans ?_ h)
  unfold holders
  split_ifs
  · exact List.countP_le_length
  · exact Nat.zero_le _

theorem le_maxRarity {scores : List ℕ} {s : ℕ} (h : s ∈ scores) : s ≤ maxRarity scores := by
  unfold maxRarity
  cases hmax : scores.max? with
  | none => exact absurd (List.max?_eq_none_iff.mp hmax ▸ h) List.not_mem_nil
  | some m => exact (List.max?_le_iff hmax).mp le_rfl s h

/-- The limit of the second key. -/
def scale (bitfields : List PeerBitfield) (pieceCount : ℕ) : ℕ :=
  satAdd u32Max (maxRarity (rarityScores bitfields pieceCount)) 1

theorem scale_le : scale bitfields pieceCount ≤ u32Max := Nat.min_le_right _ _

theorem availability_le_scale (i : ℕ) :
    availability bitfields pieceCount i ≤ scale bitfields pieceCount := by
  have hle : availability bitfields pieceCount i ≤ u32Max := Nat.min_le_right _ _
  have hmax : availability bitfields pieceCount i ≤ maxRarity (rarityScores bitfields pieceCount) := by
    rw [← getD_rarityScores]
    cases h : (rarityScores bitfields pieceCount)[i]? with
    | none => exact Nat.zero_le _
    | some s => exact le_maxRarity (List.mem_of_getElem? h)
  unfold scale satAdd
  omega

/-- The score of an obtainable piece. -/
def scoreOf (bitfields : List PeerBitfield) (priorityMap : PiecePriorityMap) (pieceCount i : ℕ) : ℕ :=
  priorityMap.weightedScore i (availability bitfields pieceCount i)
    (maxRarity (rarityScores bitfields pieceCount))

/-- The weighted score does not saturate. -/
theorem scoreOf_eq (i : ℕ) : scoreOf bitfields priorityMap pieceCount i =
    (priorityMap.get i).weight * scale bitfields pieceCount +
      (scale bitfields pieceCount - availability bitfields pieceCount i) := by
  have hscale : scale bitfields pieceCount ≤ u32Max := scale_le
  have hmul := Nat.mul_le_mul (priorityMap.get i).weight_le hscale
  change satAdd u64Max (satMul u64Max _ (scale bitfields pieceCount))
    (scale bitfields pieceCount - availability bitfields pieceCount i) = _
  unfold satAdd satMul
  rw [Nat.min_eq_left (le_trans hmul (by decide)), Nat.min_eq_left]
  refine le_trans (Nat.add_le_add hmul (Nat.sub_le _ _)) (le_trans (Nat.add_le_add_left hscale _) ?_)
  decide

variable (priorityMap) {i j : ℕ}

/-- **The weighted score** is the priority and, for one priority, the rarity. -/
theorem scoreOf_lt_iff (hi : 0 < availability bitfields pieceCount i)
    (hj : 0 < availability bitfields pieceCount j) :
    scoreOf bitfields priorityMap pieceCount i < scoreOf bitfields priorityMap pieceCount j ↔
      (priorityMap.get i).level < (priorityMap.get j).level ∨
        (priorityMap.get i).level = (priorityMap.get j).level ∧
          availability bitfields pieceCount j < availability bitfields pieceCount i := by
  have hai : availability bitfields pieceCount i ≤ scale bitfields pieceCount :=
    availability_le_scale i
  have haj : availability bitfields pieceCount j ≤ scale bitfields pieceCount :=
    availability_le_scale j
  rw [scoreOf_eq, scoreOf_eq, mul_add_lt_mul_add_iff (by omega) (by omega),
    PiecePriority.weight_lt_weight_iff, PiecePriority.weight_eq_weight_iff]
  exact or_congr_right (and_congr_right fun _ => by omega)

theorem scoreOf_eq_iff (hi : 0 < availability bitfields pieceCount i)
    (hj : 0 < availability bitfields pieceCount j) :
    scoreOf bitfields priorityMap pieceCount i = scoreOf bitfields priorityMap pieceCount j ↔
      (priorityMap.get i).level = (priorityMap.get j).level ∧
        availability bitfields pieceCount i = availability bitfields pieceCount j := by
  have hij := scoreOf_lt_iff priorityMap hi hj
  have hji := scoreOf_lt_iff priorityMap hj hi
  omega

/-- The comparison of two candidates is the order of their pieces. -/
theorem le_iff_before (hi : 0 < availability bitfields pieceCount i)
    (hj : 0 < availability bitfields pieceCount j) (hne : i ≠ j) :
    PieceSelection.le ⟨i, scoreOf bitfields priorityMap pieceCount i⟩
      ⟨j, scoreOf bitfields priorityMap pieceCount j⟩ ↔ Before bitfields priorityMap pieceCount i j := by
  have hlt := scoreOf_lt_iff priorityMap hj hi
  have heq := scoreOf_eq_iff priorityMap hi hj
  change _ < _ ∨ _ = _ ∧ i ≤ j ↔ _
  unfold Before
  rw [hlt, heq]
  omega

end Scores

/-! ### The candidates -/

section Candidates

variable {bitfields : List PeerBitfield} {priorityMap : PiecePriorityMap} {pieceCount : ℕ}
  {needed : List ℕ}

theorem candidate_eq (i : ℕ) : candidate (rarityScores bitfields pieceCount) priorityMap i =
    if 0 < availability bitfields pieceCount i then
      some ⟨i, scoreOf bitfields priorityMap pieceCount i⟩
    else none := by
  simp only [candidate, getD_rarityScores, scoreOf]
  by_cases h : availability bitfields pieceCount i = 0
  · rw [if_pos h, if_neg (by omega)]
  · rw [if_neg h, if_pos (by omega)]

theorem mem_candidates {s : PieceSelection} :
    s ∈ candidates needed (rarityScores bitfields pieceCount) priorityMap ↔
      Obtainable bitfields pieceCount needed s.pieceIndex ∧
        s = ⟨s.pieceIndex, scoreOf bitfields priorityMap pieceCount s.pieceIndex⟩ := by
  simp only [candidates, List.mem_filterMap, candidate_eq, Option.ite_none_right_eq_some,
    Option.some.injEq, Obtainable]
  constructor
  · rintro ⟨i, hmem, hpos, rfl⟩
    exact ⟨⟨hmem, hpos⟩, rfl⟩
  · rintro ⟨⟨hmem, hpos⟩, hs⟩
    exact ⟨s.pieceIndex, hmem, hpos, hs.symm⟩

theorem candidate_mem {i : ℕ} (h : Obtainable bitfields pieceCount needed i) :
    (⟨i, scoreOf bitfields priorityMap pieceCount i⟩ : PieceSelection) ∈
      candidates needed (rarityScores bitfields pieceCount) priorityMap :=
  mem_candidates.mpr ⟨h, rfl⟩

/-- The pieces of the candidates, in the order of the needed pieces. -/
theorem map_pieceIndex_candidates :
    (candidates needed (rarityScores bitfields pieceCount) priorityMap).map
      PieceSelection.pieceIndex =
        needed.filter fun i => decide (0 < availability bitfields pieceCount i) := by
  rw [candidates, List.map_filterMap, ← List.filterMap_eq_filter]
  refine List.filterMap_congr fun i _ => ?_
  rw [candidate_eq, Option.guard]
  by_cases h : 0 < availability bitfields pieceCount i
  · simp only [h, decide_true, if_true, Option.map_some]
  · simp only [h, decide_false, Option.map_none, Bool.false_eq_true, if_false]

theorem candidates_eq_nil_iff :
    candidates needed (rarityScores bitfields pieceCount) priorityMap = [] ↔
      ∀ i, ¬ Obtainable bitfields pieceCount needed i := by
  rw [List.eq_nil_iff_forall_not_mem]
  constructor
  · exact fun h i hi => h _ (candidate_mem hi)
  · exact fun h s hs => h _ (mem_candidates.mp hs).1

/-- Two candidates with different pieces stand in the order of their pieces. -/
theorem before_of_le {a b : PieceSelection}
    (ha : a ∈ candidates needed (rarityScores bitfields pieceCount) priorityMap)
    (hb : b ∈ candidates needed (rarityScores bitfields pieceCount) priorityMap)
    (hle : a.le b) (hne : a.pieceIndex ≠ b.pieceIndex) :
    Before bitfields priorityMap pieceCount a.pieceIndex b.pieceIndex := by
  obtain ⟨hao, ha⟩ := mem_candidates.mp ha
  obtain ⟨hbo, hb⟩ := mem_candidates.mp hb
  rw [ha, hb] at hle
  exact (le_iff_before priorityMap hao.2 hbo.2 hne).mp hle

/-! ### The plain selectors -/

instance : Std.Total PieceSelection.le :=
  ⟨fun a b => by unfold PieceSelection.le; omega⟩

instance : IsTrans PieceSelection PieceSelection.le :=
  ⟨fun a b c => by unfold PieceSelection.le; omega⟩

theorem selectNextPiece_eq : selectNextPiece needed bitfields priorityMap pieceCount =
    ((candidates needed (rarityScores bitfields pieceCount) priorityMap).insertionSort
      PieceSelection.le).head? := by
  unfold selectNextPiece
  split_ifs with h
  · rw [List.isEmpty_iff.mp h]
    rfl
  · rfl

theorem selectMultiplePieces_eq (count : ℕ) :
    selectMultiplePieces needed bitfields priorityMap pieceCount count =
      firstBy PieceSelection.le count
        (candidates needed (rarityScores bitfields pieceCount) priorityMap) := by
  unfold selectMultiplePieces firstBy
  split_ifs with h
  · rw [Bool.or_eq_true, List.isEmpty_iff, beq_iff_eq] at h
    rcases h with rfl | rfl
    · exact List.take_nil.symm
    · exact List.take_zero.symm
  · rfl

theorem isBest_selectNextPiece {s : PieceSelection}
    (h : selectNextPiece needed bitfields priorityMap pieceCount = some s) :
    IsBest bitfields priorityMap pieceCount needed s.pieceIndex := by
  rw [selectNextPiece_eq] at h
  obtain ⟨hs, hfirst⟩ := rel_of_head?_insertionSort h
  exact ⟨(mem_candidates.mp hs).1, fun j hj hne =>
    before_of_le hs (candidate_mem hj) (hfirst _ (candidate_mem hj)) hne.symm⟩

theorem isFirst_selectMultiplePieces (hnd : needed.Nodup) (count : ℕ) :
    IsFirst bitfields priorityMap pieceCount needed count
      ((selectMultiplePieces needed bitfields priorityMap pieceCount count).map
        PieceSelection.pieceIndex) := by
  rw [selectMultiplePieces_eq]
  have hnodup : ((firstBy PieceSelection.le count
      (candidates needed (rarityScores bitfields pieceCount) priorityMap)).map
        PieceSelection.pieceIndex).Nodup :=
    nodup_map_firstBy (map_pieceIndex_candidates ▸ hnd.filter _)
  refine ⟨fun i hi => ?_, ?_, ?_, fun i hi j hj hnot => ?_⟩
  · obtain ⟨s, hs, rfl⟩ := List.mem_map.mp hi
    exact (mem_candidates.mp (mem_of_mem_firstBy hs)).1
  · rw [List.pairwise_map]
    refine ((pairwise_firstBy (r := PieceSelection.le)).and
      (List.pairwise_map.mp hnodup)).imp_of_mem fun ha hb h => ?_
    exact before_of_le (mem_of_mem_firstBy ha) (mem_of_mem_firstBy hb) h.1 h.2
  · rw [List.length_map, length_firstBy, List.countP_eq_length_filter,
      ← map_pieceIndex_candidates, List.length_map]
  · obtain ⟨s, hs, rfl⟩ := List.mem_map.mp hi
    have hout : (⟨j, scoreOf bitfields priorityMap pieceCount j⟩ : PieceSelection) ∉ firstBy
        PieceSelection.le count
          (candidates needed (rarityScores bitfields pieceCount) priorityMap) :=
      fun hmem => hnot (List.mem_map.mpr ⟨_, hmem, rfl⟩)
    refine before_of_le (mem_of_mem_firstBy hs) (candidate_mem hj)
      (rel_of_not_mem_firstBy hs (candidate_mem hj) hout) fun he => hnot ?_
    have hpiece : s.pieceIndex = j := he
    exact hpiece ▸ hi

/-! ### Affinity -/

instance : Std.Total affinityLe := ⟨fun a b => by unfold affinityLe; omega⟩

instance : IsTrans (PieceSelection × ℕ) affinityLe :=
  ⟨fun a b c => by unfold affinityLe; omega⟩

/-- The piece for a speed category is a candidate with the highest score. -/
theorem selectPieceWithAffinity_spec {category : SpeedCategory} {s : PieceSelection}
    (h : selectPieceWithAffinity needed bitfields priorityMap pieceCount category = some s) :
    s ∈ candidates needed (rarityScores bitfields pieceCount) priorityMap ∧
      ∀ c ∈ candidates needed (rarityScores bitfields pieceCount) priorityMap, c.score ≤ s.score := by
  unfold selectPieceWithAffinity at h
  split_ifs at h
  obtain ⟨⟨s, tiebreak⟩, hhead, rfl⟩ := Option.map_eq_some_iff.mp h
  obtain ⟨hmem, hfirst⟩ := rel_of_head?_insertionSort hhead
  simp only [List.mem_filterMap, Option.map_eq_some_iff] at hmem hfirst
  refine ⟨?_, fun c hc => ?_⟩
  · obtain ⟨i, hi, selection, hselection, he⟩ := hmem
    exact List.mem_filterMap.mpr ⟨i, hi, hselection.trans (congrArg some (congrArg Prod.fst he))⟩
  · obtain ⟨i, hi, hc⟩ := List.mem_filterMap.mp hc
    have hle := hfirst (c, category.tiebreakBias i pieceCount) ⟨i, hi, c, hc, rfl⟩
    rcases hle with hlt | ⟨heq, -⟩
    · exact Nat.le_of_lt hlt
    · exact heq.ge

/-- **Affinity breaks ties only.** -/
theorem eq_of_selectPieceWithAffinity {category : SpeedCategory} {s : PieceSelection}
    (h : selectPieceWithAffinity needed bitfields priorityMap pieceCount category = some s) :
    Obtainable bitfields pieceCount needed s.pieceIndex ∧
      ∃ best, selectNextPiece needed bitfields priorityMap pieceCount = some best ∧
        priorityMap.get s.pieceIndex = priorityMap.get best.pieceIndex ∧
        availability bitfields pieceCount s.pieceIndex =
          availability bitfields pieceCount best.pieceIndex := by
  obtain ⟨hs, hmax⟩ := selectPieceWithAffinity_spec h
  obtain ⟨hobtain, heq⟩ := mem_candidates.mp hs
  refine ⟨hobtain, ?_⟩
  cases hnext : selectNextPiece needed bitfields priorityMap pieceCount with
  | none =>
    rw [selectNextPiece_eq, head?_insertionSort_eq_none_iff] at hnext
    exact absurd (hnext ▸ hs) List.not_mem_nil
  | some best =>
    refine ⟨best, rfl, ?_⟩
    rw [selectNextPiece_eq] at hnext
    obtain ⟨hbest, hfirst⟩ := rel_of_head?_insertionSort hnext
    obtain ⟨hbestObtain, hbestEq⟩ := mem_candidates.mp hbest
    have hscore : s.score = best.score := by
      have hle := hmax best hbest
      have hge := hfirst s hs
      unfold PieceSelection.le at hge
      omega
    rw [heq, hbestEq] at hscore
    obtain ⟨hlevel, havail⟩ := (scoreOf_eq_iff priorityMap hobtain.2 hbestObtain.2).mp hscore
    exact ⟨PiecePriority.level_injective hlevel, havail⟩

end Candidates

/-! ### One order -/

/-- **The selectors** follow one order of the pieces: priority, rarity, index. -/
theorem selectors_follow_order (needed : List ℕ) (bitfields : List PeerBitfield)
    (priorityMap : PiecePriorityMap) (pieceCount : ℕ) (hnd : needed.Nodup) :
    FollowsOrder bitfields priorityMap pieceCount needed where
  next_some _ h := isBest_selectNextPiece h
  next_none := by rw [selectNextPiece_eq, head?_insertionSort_eq_none_iff, candidates_eq_nil_iff]
  multiple count := isFirst_selectMultiplePieces hnd count
  head count hpos := by
    rw [selectMultiplePieces_eq, selectNextPiece_eq, firstBy, List.head?_take, if_neg (by omega)]
  affinity _ _ h := eq_of_selectPieceWithAffinity h

/-- Three pieces of which two peers have the first one and one peer the other two. -/
theorem selectors_follow_order_three : [2, 0, 1].Nodup ∧ FollowsOrder
    [PeerBitfield.newFull 3 (by decide), (PeerBitfield.newEmpty 3 (by decide)).setPiece 0]
    ⟨[.normal, .low, .low]⟩ 3 [2, 0, 1] :=
  ⟨by decide, selectors_follow_order _ _ _ _ (by decide)⟩

example : (selectMultiplePieces [2, 0, 1]
    [PeerBitfield.newFull 3 (by decide), (PeerBitfield.newEmpty 3 (by decide)).setPiece 0]
    ⟨[.normal, .low, .low]⟩ 3 2).map PieceSelection.pieceIndex = [0, 1] := by decide

end CncContent.Torrent.Selection
