import CncContent.Cache.LruCache
import CncContent.Lib.Ranking
import Mathlib.Algebra.Order.Field.Rat

/-! # Prefetching

`DemandTracker` of the source, which keeps a heat for each piece that was requested, and
`plan_prefetch` of the bridge, which plans the hottest pieces that are not in its cache. The plan is made
from twice as many candidates as it may have. If too many of them are cached, it lacks pieces that are
hot and not cached (`plans_iff`). Heat is an exact rational; the decay is a parameter. -/

namespace CncContent.Cache.Prefetch

open CncContent.Lib.Bounded CncContent.Lib.Maps CncContent.Lib.Ranking CncContent.Cache.LruCache

def coldThreshold : ℚ := 1 / 100

theorem coldThreshold_pos : 0 < coldThreshold := by decide +kernel

structure DemandEntry where
  heat : ℚ
  lastRequest : ℕ
  totalRequests : ℕ
deriving DecidableEq

/-- The decay is the factor `exp(-lambda * elapsed)`. -/
structure DemandTracker where
  entries : Table UInt32 DemandEntry
  decay : ℕ → ℚ

namespace DemandTracker

variable (tracker : DemandTracker)

/-- The heat of an entry; the time since the last request saturates. -/
def score (now : ℕ) (entry : DemandEntry) : ℚ := entry.heat * tracker.decay (now - entry.lastRequest)

def recordRequest (pieceIndex : UInt32) (now : ℕ) : DemandTracker :=
  { tracker with
    entries := tracker.entries.alter pieceIndex fun entry =>
      let entry := entry.getD ⟨0, now, 0⟩
      ⟨tracker.score now entry + 1, now, satAdd u64Max entry.totalRequests 1⟩ }

def heat (pieceIndex : UInt32) (now : ℕ) : ℚ :=
  match tracker.entries.get? pieceIndex with
  | none => 0
  | some entry => tracker.score now entry

def isHot (pieceIndex : UInt32) (now : ℕ) : Bool := coldThreshold < tracker.heat pieceIndex now

end DemandTracker

/-- The comparison of the sort: the heat, descending. -/
def Hotter (a b : UInt32 × ℚ) : Prop := b.2 ≤ a.2

instance : DecidableRel Hotter := fun a b => by unfold Hotter; infer_instance

namespace DemandTracker

variable (tracker : DemandTracker) (iteration : Iteration UInt32 DemandEntry)

/-- The pieces above the threshold, in the order in which the hash map is iterated over. -/
def scored (now : ℕ) : List (UInt32 × ℚ) :=
  ((iteration.order tracker.entries).map fun e => (e.1, tracker.score now e.2)).filter
    fun e => coldThreshold < e.2

def hottestPieces (n now : ℕ) : List (UInt32 × ℚ) := firstBy Hotter n (tracker.scored iteration now)

end DemandTracker

/-- A bridge node, without its mirrors. -/
structure BridgeNode where
  demand : DemandTracker
  cache : PieceCache
  prefetchCount : ℕ

namespace BridgeNode

variable (node : BridgeNode)

def recordRequest (pieceIndex : UInt32) (now : ℕ) : BridgeNode :=
  { node with
    demand := node.demand.recordRequest pieceIndex now
    cache := node.cache.touch pieceIndex now }

def planPrefetch (iteration : Iteration UInt32 DemandEntry) (now : ℕ) : List UInt32 :=
  let candidates := node.demand.hottestPieces iteration (satMul u64Max node.prefetchCount 2) now
  ((candidates.filter fun e => !node.cache.contains e.1).take node.prefetchCount).map Prod.fst

/-- A piece that is hot and not in the cache. -/
def Wanted (now : ℕ) (i : UInt32) : Prop :=
  node.demand.isHot i now = true ∧ node.cache.contains i = false

/-- What a plan should be. -/
structure Plans (iteration : Iteration UInt32 DemandEntry) (now : ℕ) : Prop where
  nodup : (node.planPrefetch iteration now).Nodup
  wanted : ∀ i ∈ node.planPrefetch iteration now, node.Wanted now i
  sorted : (node.planPrefetch iteration now).Pairwise fun i j =>
    node.demand.heat j now ≤ node.demand.heat i now
  length_le : (node.planPrefetch iteration now).length ≤ node.prefetchCount
  complete : (node.planPrefetch iteration now).length < node.prefetchCount →
    ∀ i, node.Wanted now i → i ∈ node.planPrefetch iteration now
  hottest : ∀ i ∈ node.planPrefetch iteration now, ∀ j, node.Wanted now j →
    j ∉ node.planPrefetch iteration now → node.demand.heat j now ≤ node.demand.heat i now

/-- All hot pieces, the hottest first. -/
def hot (iteration : Iteration UInt32 DemandEntry) (now : ℕ) : List (UInt32 × ℚ) :=
  node.demand.hottestPieces iteration node.demand.entries.size now

/-! ### The hot pieces -/

instance : Std.Total Hotter := ⟨fun _ _ => le_total _ _⟩

instance : IsTrans (UInt32 × ℚ) Hotter := ⟨fun _ _ _ hab hbc => le_trans hbc hab⟩

section Hot

variable {node} {iteration : Iteration UInt32 DemandEntry} {now : ℕ}

theorem length_scored_le : (node.demand.scored iteration now).length ≤ node.demand.entries.size := by
  refine (List.length_filter_le _ _).trans ?_
  rw [List.length_map, (iteration.perm _).length_eq]
  exact le_rfl

/-- The hottest pieces are the first ones of all hot pieces. -/
theorem hottestPieces_eq_take (n : ℕ) :
    node.demand.hottestPieces iteration n now = (node.hot iteration now).take n :=
  (take_firstBy length_scored_le).symm

theorem pairwise_hot : (node.hot iteration now).Pairwise Hotter := pairwise_firstBy

theorem nodup_map_hot : ((node.hot iteration now).map Prod.fst).Nodup := by
  refine nodup_map_firstBy (List.Nodup.sublist (List.filter_sublist.map _) ?_)
  rw [List.map_map]
  exact ((iteration.perm _).map Prod.fst).nodup_iff.mpr node.demand.entries.nodup

/-- **The hot pieces** with their heat. -/
theorem mem_hot {i : UInt32} {x : ℚ} : (i, x) ∈ node.hot iteration now ↔
    node.demand.isHot i now = true ∧ x = node.demand.heat i now := by
  unfold hot DemandTracker.hottestPieces
  rw [mem_firstBy_iff length_scored_le, DemandTracker.scored, List.mem_filter, List.mem_map,
    decide_eq_true_eq, DemandTracker.isHot, DemandTracker.heat, decide_eq_true_eq]
  constructor
  · rintro ⟨⟨⟨j, entry⟩, hmem, he⟩, hhot⟩
    cases he
    rw [Table.mem_entries_iff.mp ((iteration.perm _).mem_iff.mp hmem)]
    exact ⟨hhot, rfl⟩
  · rintro ⟨hhot, hx⟩
    cases hget : node.demand.entries.get? i with
    | none =>
      rw [hget] at hhot
      exact absurd (show coldThreshold < 0 from hhot) coldThreshold_pos.not_gt
    | some entry =>
      rw [hget] at hhot hx
      subst hx
      exact ⟨⟨(i, entry), (iteration.perm _).mem_iff.mpr (Table.mem_entries_iff.mpr hget), rfl⟩, hhot⟩

end Hot

/-! ### The plan -/

section Plan

variable (iteration : Iteration UInt32 DemandEntry) (now : ℕ)

/-- The number of candidates. -/
def candidateCount : ℕ := satMul u64Max node.prefetchCount 2

/-- The pieces of a plan with their heat. -/
def planned : List (UInt32 × ℚ) :=
  shortlist (fun e => !node.cache.contains e.1) node.candidateCount node.prefetchCount
    (node.hot iteration now)

/-- There are enough candidates that are not cached, or no others are hot and not cached. -/
def EnoughCandidates : Prop :=
  node.prefetchCount ≤ ((node.hot iteration now).take node.candidateCount).countP
      (fun e => !node.cache.contains e.1) ∨
    ∀ e ∈ (node.hot iteration now).drop node.candidateCount, node.cache.contains e.1 = true

instance : Decidable (node.EnoughCandidates iteration now) := by
  unfold EnoughCandidates
  infer_instance

variable {node iteration now}

theorem planPrefetch_eq :
    node.planPrefetch iteration now = (node.planned iteration now).map Prod.fst := by
  unfold planPrefetch planned shortlist candidateCount
  rw [hottestPieces_eq_take]

/-- A hot piece that is not cached, with its heat. -/
theorem wanted_iff {i : UInt32} : node.Wanted now i ↔
    (i, node.demand.heat i now) ∈ node.hot iteration now ∧ (!node.cache.contains i) = true := by
  rw [mem_hot, Bool.not_eq_true']
  exact and_congr_left fun _ => (and_iff_left rfl).symm

theorem mem_planPrefetch_iff {i : UInt32} : i ∈ node.planPrefetch iteration now ↔
    (i, node.demand.heat i now) ∈ node.planned iteration now := by
  rw [planPrefetch_eq, List.mem_map]
  constructor
  · rintro ⟨e, he, rfl⟩
    have hheat := (mem_hot.mp (shortlist_sublist.subset he)).2
    rwa [← hheat]
  · exact fun h => ⟨_, h, rfl⟩

/-- **A plan is complete** exactly if there are enough candidates. -/
theorem complete_iff : ((node.planPrefetch iteration now).length < node.prefetchCount →
    ∀ i, node.Wanted now i → i ∈ node.planPrefetch iteration now) ↔
      node.EnoughCandidates iteration now := by
  have hnd : (node.hot iteration now).Nodup := nodup_map_hot.of_map
  have hshort := shortlist_complete_iff (p := fun e => !node.cache.contains e.1)
    (m := node.candidateCount) (n := node.prefetchCount) hnd
  have hcached : (∀ e ∈ (node.hot iteration now).drop node.candidateCount,
      (!node.cache.contains e.1) = false) ↔
        ∀ e ∈ (node.hot iteration now).drop node.candidateCount, node.cache.contains e.1 = true :=
    forall₂_congr fun e _ => iff_of_eq (Bool.not_eq_false' _)
  rw [EnoughCandidates, ← hcached, ← hshort, planPrefetch_eq, List.length_map]
  refine imp_congr_right fun _ => ⟨fun h e he hp => ?_, fun h i hi => ?_⟩
  · obtain ⟨i, x⟩ := e
    obtain ⟨hhot, rfl⟩ := mem_hot.mp he
    exact mem_planPrefetch_iff.mp (planPrefetch_eq ▸ h i (wanted_iff.mpr ⟨he, hp⟩))
  · obtain ⟨hhot, hp⟩ := wanted_iff.mp hi
    exact List.mem_map.mpr ⟨_, h _ hhot hp, rfl⟩

end Plan

end BridgeNode

/-- **The plans that are as they should be** are those with enough candidates. -/
theorem plans_iff (node : BridgeNode) (iteration : Iteration UInt32 DemandEntry) (now : ℕ) :
    node.Plans iteration now ↔ node.EnoughCandidates iteration now := by
  refine ⟨fun h => BridgeNode.complete_iff.mp h.complete, fun h => ?_⟩
  have hsub : (node.planned iteration now).Sublist (node.hot iteration now) := shortlist_sublist
  have hheat : ∀ e ∈ node.planned iteration now, e.2 = node.demand.heat e.1 now := fun e he =>
    (BridgeNode.mem_hot.mp (hsub.subset he)).2
  refine ⟨?_, fun i hi => ?_, ?_, ?_, BridgeNode.complete_iff.mpr h, fun i hi j hj hnot => ?_⟩
  · rw [BridgeNode.planPrefetch_eq]
    exact BridgeNode.nodup_map_hot.sublist (hsub.map _)
  · have hmem := BridgeNode.mem_planPrefetch_iff.mp hi
    exact BridgeNode.wanted_iff.mpr ⟨hsub.subset hmem,
      of_mem_shortlist (p := fun e : UInt32 × ℚ => !node.cache.contains e.1) hmem⟩
  · rw [BridgeNode.planPrefetch_eq, List.pairwise_map]
    refine (BridgeNode.pairwise_hot.sublist hsub).imp_of_mem fun ha hb hab => ?_
    rw [← hheat _ ha, ← hheat _ hb]
    exact hab
  · rw [BridgeNode.planPrefetch_eq, List.length_map, BridgeNode.planned, length_shortlist]
    exact Nat.min_le_left _ _
  · obtain ⟨hhot, hp⟩ := BridgeNode.wanted_iff.mp hj
    exact rel_of_not_mem_shortlist BridgeNode.pairwise_hot (BridgeNode.mem_planPrefetch_iff.mp hi)
      hhot hp fun hmem => hnot (BridgeNode.mem_planPrefetch_iff.mpr hmem)

/-- Piece 1 was requested three times, piece 2 twice and piece 3 once, and the first two are cached. -/
def twoCached : BridgeNode :=
  let node : BridgeNode := ⟨⟨.empty, fun _ => 1⟩, .new, 1⟩
  let node := [1, 1, 1, 2, 2, 3].foldl (fun node i => node.recordRequest i 0) node
  { node with cache := (((node.cache.insert 1 16 0).2).insert 2 16 0).2 }

/-- The hot piece that is not cached is not planned. -/
theorem twoCached_plan : twoCached.planPrefetch .listed 0 = [] ∧ twoCached.Wanted 0 3 ∧
    ¬ twoCached.Plans .listed 0 := by
  have hplan : twoCached.planPrefetch .listed 0 = [] := by decide +kernel
  have hwanted : twoCached.Wanted 0 3 := ⟨by decide +kernel, by decide +kernel⟩
  refine ⟨hplan, hwanted, fun h => ?_⟩
  have hmem := h.complete (by rw [hplan]; decide +kernel) 3 hwanted
  rw [hplan] at hmem
  exact absurd hmem List.not_mem_nil

end CncContent.Cache.Prefetch
