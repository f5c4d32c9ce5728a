import CncContent.Lib.FirstMatch
import CncContent.Lib.Maps
import CncContent.Lib.Ranking
import CncContent.Lib.Runs
import CncContent.Peers.Tracker
import Mathlib.Order.Interval.Finset.Nat

/-! # Choking

`CreditEntry`, `CreditLedger` and `TitForTatChoking` of the source: the fastest peers are unchoked, and
one of the others in turn. The operations on floating point numbers are exact and then rounded, by any
function `round`, so that nothing here depends on the rounding. A sum that overflows is a panic (`none`);
apart from that an evaluation does what it should (`choking_iff`). -/

namespace CncContent.Peers.Choking

open CncContent.Lib.Bounded CncContent.Lib.FirstMatch CncContent.Lib.Maps CncContent.Lib.Ranking
open CncContent.Lib.Runs CncContent.Peers.Tracker

/-! ### Credit -/

def downloadFloorBytes : ℕ := 1048576

def maxModifier : ℚ := 10

structure CreditEntry where
  uploadedToMe : ℕ
  downloadedFromMe : ℕ
  lastSeenUnixSecs : ℕ
deriving DecidableEq

def CreditEntry.creditModifier (round : ℚ → ℚ) (e : CreditEntry) : ℚ :=
  let numerator := round (2 * round e.uploadedToMe)
  let denominator := max (round e.downloadedFromMe) downloadFloorBytes
  min (round (numerator / denominator)) maxModifier

/-- The entries by the bytes of the identities, which are what `==` compares. -/
structure CreditLedger where
  entries : Table (Vector UInt8 32) CreditEntry
deriving DecidableEq

def CreditLedger.creditModifier (round : ℚ → ℚ) (ledger : CreditLedger) (id : PeerId) : ℚ :=
  ((ledger.entries.get? id.bytes).map (·.creditModifier round)).getD 0

/-! ### Decisions -/

structure ChokingDecision where
  peerIndex : ℕ
  unchoked : Bool
  optimistic : Bool
deriving DecidableEq, Repr

namespace ChokingDecision

def markOptimistic (d : ChokingDecision) : ChokingDecision :=
  { d with unchoked := true, optimistic := true }

/-- Unchoked for the speed. -/
def isRegular (d : ChokingDecision) : Bool := d.unchoked && !d.optimistic

end ChokingDecision

structure TitForTatChoking where
  regularSlots : ℕ
  autoScaleSlots : Bool
  optimisticIndex : ℕ
  evalCounter : ℕ
  optimisticInterval : ℕ
  creditLedger : Option CreditLedger
  interval_pos : 0 < optimisticInterval
deriving DecidableEq

/-- The sort by descending speed. -/
abbrev BySpeed (a b : ℕ × ℕ) : Prop := b.2 ≤ a.2

instance : Std.Total BySpeed := ⟨fun a b => Nat.le_total b.2 a.2⟩

instance : IsTrans (ℕ × ℕ) BySpeed := ⟨fun _ _ _ hab hbc => Nat.le_trans hbc hab⟩

/-- The sort by index. -/
abbrev ByIndex (a b : ChokingDecision) : Prop := a.peerIndex ≤ b.peerIndex

instance : Std.Total ByIndex := ⟨fun a b => Nat.le_total a.peerIndex b.peerIndex⟩

instance : IsTrans ChokingDecision ByIndex := ⟨fun _ _ _ => Nat.le_trans⟩

/-- The peers with their speeds, the fastest first. -/
def ranking (weighted : ℕ → ℕ) (peerCount : ℕ) : List (ℕ × ℕ) :=
  ((List.range peerCount).map fun i => (i, weighted i)).insertionSort BySpeed

/-- The positive speeds of the peers that have a slot. -/
def activeSpeeds (ranked : List (ℕ × ℕ)) (slots : ℕ) : List ℕ :=
  ((ranked.take slots).map (·.2)).filter (0 < ·)

/-- 2 KB/s. -/
def slotHeadroom : ℕ := 2048

/-- No speed is more than the headroom below the average. -/
def allUtilized (speeds : List ℕ) : Bool :=
  speeds.all fun s => decide (speeds.sum / speeds.length - slotHeadroom ≤ s)

/-- The decisions by rank. -/
def byRank (ranked : List (ℕ × ℕ)) (slots : ℕ) : List ChokingDecision :=
  ranked.zipIdx.map fun p => ⟨p.1.1, decide (p.2 < slots), false⟩

/-- The first decision for the peer becomes an optimistic unchoke. -/
def markPeer (decisions : List ChokingDecision) : Option ℕ → List ChokingDecision
  | some peer =>
    updateFirst (fun d : ChokingDecision => d.peerIndex = peer) ChokingDecision.markOptimistic decisions
  | none => decisions

namespace TitForTatChoking

def new (regularSlots : ℕ) : TitForTatChoking := ⟨regularSlots, false, 0, 0, 3, none, by decide⟩

variable (round : ℚ → ℚ) (c : TitForTatChoking)

def withAutoScale : TitForTatChoking := { c with autoScaleSlots := true }

def withOptimisticInterval (rounds : ℕ) : TitForTatChoking :=
  { c with
    optimisticInterval := max rounds 1
    interval_pos := by omega }

def withCreditLedger (ledger : CreditLedger) : TitForTatChoking := { c with creditLedger := some ledger }

def setCreditLedger (ledger : CreditLedger) : TitForTatChoking := { c with creditLedger := some ledger }

def creditWeight : Option PeerId → ℚ
  | some id =>
    match c.creditLedger with
    | some ledger => max (ledger.creditModifier round id) 1
    | none => 1
  | none => 1

/-- The speed of a peer, weighted by its credit. -/
def weightedSpeed (tracker : PeerTracker) (i : ℕ) : ℕ :=
  let speed := (tracker.stats[i]?.map (·.ewmaSpeedBytesPerSec)).getD 0
  let credit := c.creditWeight round tracker.identities[i]?.join
  castU64 (round (round speed * credit))

/-- The number of slots, or `none` if the sum of the speeds overflows. -/
def effectiveSlots (ranked : List (ℕ × ℕ)) (peerCount : ℕ) : Option ℕ :=
  if c.autoScaleSlots && decide (0 < c.regularSlots) then
    let speeds := activeSpeeds ranked c.regularSlots
    if speeds.isEmpty then some c.regularSlots
    else if u64Max < speeds.sum then none
    else if allUtilized speeds then some (min (satAdd u64Max c.regularSlots 1) peerCount)
    else some c.regularSlots
  else some c.regularSlots

/-- The counter and the index of the next evaluation. -/
def rotate : TitForTatChoking :=
  let evalCounter := (c.evalCounter + 1) % 2 ^ 32
  { c with
    evalCounter := evalCounter
    optimisticIndex :=
      if evalCounter % c.optimisticInterval = 0 then (c.optimisticIndex + 1) % 2 ^ 64
      else c.optimisticIndex }

/-- The choked peer whose turn it is. -/
def optimisticPeer (decisions : List ChokingDecision) : Option ℕ :=
  let choked := (decisions.filter fun d => !d.unchoked).map (·.peerIndex)
  if choked.isEmpty then none else choked[c.optimisticIndex % choked.length]?

/-- The decision for that peer is changed, and the decisions are sorted. -/
def unchokeOptimistic (decisions : List ChokingDecision) : List ChokingDecision :=
  (markPeer decisions (c.optimisticPeer decisions)).insertionSort ByIndex

def evaluate (tracker : PeerTracker) (peerCount : ℕ) : Option (List ChokingDecision × TitForTatChoking) :=
  if peerCount = 0 then some ([], c)
  else
    let ranked := ranking (c.weightedSpeed round tracker) peerCount
    (c.effectiveSlots ranked peerCount).map fun slots =>
      (c.rotate.unchokeOptimistic (byRank ranked slots), c.rotate)

end TitForTatChoking

/-! ### The ranking -/

section Ranking

variable {weighted : ℕ → ℕ} {peerCount : ℕ}

theorem map_fst_ranking_perm (weighted : ℕ → ℕ) (peerCount : ℕ) :
    ((ranking weighted peerCount).map Prod.fst).Perm (List.range peerCount) := by
  have hperm := (List.perm_insertionSort BySpeed
    ((List.range peerCount).map fun i => (i, weighted i))).map Prod.fst
  rw [List.map_map] at hperm
  exact hperm.trans (by rw [show Prod.fst ∘ (fun i => (i, weighted i)) = id from rfl, List.map_id])

theorem length_ranking : (ranking weighted peerCount).length = peerCount := by
  rw [← List.length_map Prod.fst, (map_fst_ranking_perm weighted peerCount).length_eq, List.length_range]

theorem snd_of_mem_ranking {p : ℕ × ℕ} (h : p ∈ ranking weighted peerCount) : p.2 = weighted p.1 := by
  obtain ⟨i, -, rfl⟩ := List.mem_map.mp ((List.mem_insertionSort BySpeed).mp h)
  rfl

theorem nodup_map_fst_ranking : ((ranking weighted peerCount).map Prod.fst).Nodup :=
  (map_fst_ranking_perm weighted peerCount).nodup_iff.mpr List.nodup_range

/-- Those with a slot are at least as fast as those without. -/
theorem le_of_mem_take_drop {slots : ℕ} {p q : ℕ × ℕ} (hp : p ∈ (ranking weighted peerCount).take slots)
    (hq : q ∈ (ranking weighted peerCount).drop slots) : weighted q.1 ≤ weighted p.1 := by
  have hsorted : (ranking weighted peerCount).Pairwise BySpeed := List.pairwise_insertionSort BySpeed _
  rw [← List.take_append_drop slots (ranking weighted peerCount), List.pairwise_append] at hsorted
  rw [← snd_of_mem_ranking (List.mem_of_mem_drop hq), ← snd_of_mem_ranking (List.mem_of_mem_take hp)]
  exact hsorted.2.2 p hp q hq

end Ranking

/-! ### The decisions -/

def regularDecision (p : ℕ × ℕ) : ChokingDecision := ⟨p.1, true, false⟩

def chokedDecision (p : ℕ × ℕ) : ChokingDecision := ⟨p.1, false, false⟩

variable {ranked : List (ℕ × ℕ)} {slots : ℕ}

/-- Ranks that do not matter one by one. -/
theorem map_zipIdx {f : (ℕ × ℕ) × ℕ → ChokingDecision} {g : ℕ × ℕ → ChokingDecision} {k : ℕ}
    (h : ∀ p ∈ ranked.zipIdx k, f p = g p.1) : (ranked.zipIdx k).map f = ranked.map g := by
  conv_rhs => rw [← List.zipIdx_map_fst k ranked]
  rw [List.map_map]
  exact List.map_congr_left h

theorem byRank_eq (ranked : List (ℕ × ℕ)) (slots : ℕ) : byRank ranked slots =
    (ranked.take slots).map regularDecision ++ (ranked.drop slots).map chokedDecision := by
  unfold byRank
  conv_lhs => rw [← List.take_append_drop slots ranked]
  rw [List.zipIdx_append, List.map_append]
  congr 1
  · refine map_zipIdx fun p hp => ?_
    have hlt := List.snd_lt_of_mem_zipIdx hp
    rw [List.length_take] at hlt
    rw [regularDecision, decide_eq_true (by omega)]
  · refine map_zipIdx fun p hp => ?_
    have hle := List.le_snd_of_mem_zipIdx hp
    have hdrop : slots < ranked.length := by
      by_contra! hshort
      rw [List.drop_of_length_le hshort] at hp
      exact absurd hp List.not_mem_nil
    rw [List.length_take] at hle
    rw [chokedDecision, decide_eq_false (by omega)]

theorem map_peerIndex_byRank (ranked : List (ℕ × ℕ)) (slots : ℕ) :
    (byRank ranked slots).map (·.peerIndex) = ranked.map Prod.fst := by
  conv_rhs => rw [← List.take_append_drop slots ranked]
  rw [byRank_eq, List.map_append, List.map_append, List.map_map, List.map_map]
  rfl

/-- What a test says about the decisions, if it depends on the slot only. -/
theorem filter_byRank {q : ChokingDecision → Bool} {u v : Bool} (hu : ∀ p, q (regularDecision p) = u)
    (hv : ∀ p, q (chokedDecision p) = v) : (byRank ranked slots).filter q =
      (if u then (ranked.take slots).map regularDecision else []) ++
        if v then (ranked.drop slots).map chokedDecision else [] := by
  have hsame : ∀ {f : ℕ × ℕ → ChokingDecision} {l : List (ℕ × ℕ)} {b : Bool}, (∀ p, q (f p) = b) →
      (l.map f).filter q = if b then l.map f else [] := by
    intro f l b hb
    cases b with
    | true =>
      rw [if_pos rfl, List.filter_eq_self]
      exact List.forall_mem_map.mpr fun p _ => hb p
    | false =>
      rw [if_neg Bool.false_ne_true, List.filter_eq_nil_iff]
      exact List.forall_mem_map.mpr fun p _ => by rw [hb p]; exact Bool.false_ne_true
  rw [byRank_eq, List.filter_append, hsame hu, hsame hv]

theorem filter_isRegular_byRank :
    (byRank ranked slots).filter (·.isRegular) = (ranked.take slots).map regularDecision := by
  rw [filter_byRank (u := true) (v := false) (fun _ => rfl) fun _ => rfl]
  exact List.append_nil _

theorem filter_choked_byRank :
    (byRank ranked slots).filter (fun d => !d.unchoked) = (ranked.drop slots).map chokedDecision := by
  rw [filter_byRank (u := false) (v := true) (fun _ => rfl) fun _ => rfl]
  exact List.nil_append _

theorem filter_optimistic_byRank (ranked : List (ℕ × ℕ)) (slots : ℕ) :
    (byRank ranked slots).filter (·.optimistic) = [] := by
  rw [filter_byRank (u := false) (v := false) (fun _ => rfl) fun _ => rfl]
  rfl

/-- The peers without a slot, in the order of the ranking. -/
def outside (ranked : List (ℕ × ℕ)) (slots : ℕ) : List ℕ := (ranked.drop slots).map Prod.fst

theorem optimisticPeer_byRank (c : TitForTatChoking) : c.optimisticPeer (byRank ranked slots) =
    (outside ranked slots)[c.optimisticIndex % (outside ranked slots).length]? := by
  have hchoked : ((byRank ranked slots).filter fun d => !d.unchoked).map (·.peerIndex) =
      outside ranked slots := by
    rw [filter_choked_byRank, List.map_map]
    rfl
  unfold TitForTatChoking.optimisticPeer
  rw [hchoked]
  dsimp only
  split_ifs with hempty
  · rw [List.isEmpty_iff.mp hempty]
    rfl
  · rfl

theorem map_peerIndex_markPeer (decisions : List ChokingDecision) (peer? : Option ℕ) :
    (markPeer decisions peer?).map (·.peerIndex) = decisions.map (·.peerIndex) := by
  rcases peer? with _ | peer
  · rfl
  · exact map_updateFirst (f := ChokingDecision.markOptimistic) fun _ _ => rfl

/-- **The place of the mark**: the one decision for the peer, which has no slot. -/
theorem markPeer_split {peer : ℕ} (hnodup : (ranked.map Prod.fst).Nodup)
    (h : peer ∈ outside ranked slots) :
    ∃ l₁ l₂, byRank ranked slots = l₁ ++ ⟨peer, false, false⟩ :: l₂ ∧
      markPeer (byRank ranked slots) (some peer) = l₁ ++ ⟨peer, true, true⟩ :: l₂ := by
  obtain ⟨p, hp, rfl⟩ := List.mem_map.mp h
  have hmem : chokedDecision p ∈ byRank ranked slots := by
    rw [byRank_eq]
    exact List.mem_append_right _ (List.mem_map_of_mem hp)
  have hfind : (byRank ranked slots).find? (fun d => d.peerIndex = p.1) = some (chokedDecision p) := by
    rcases hfirst : (byRank ranked slots).find? (fun d => d.peerIndex = p.1) with _ | d
    · exact absurd (decide_eq_true rfl) (List.find?_eq_none.mp hfirst _ hmem)
    · have hindex : d.peerIndex = p.1 := by simpa using List.find?_some hfirst
      rw [← map_peerIndex_byRank ranked slots] at hnodup
      rw [hfirst, List.inj_on_of_nodup_map hnodup (List.mem_of_find?_eq_some hfirst) hmem hindex]
  obtain ⟨l₁, l₂, hl, -, hmarked⟩ := updateFirst_split (f := ChokingDecision.markOptimistic) hfind
  exact ⟨l₁, l₂, hl, hmarked⟩

/-! ### What an evaluation decides -/

/-- One decision for each peer in the order of the indices; as many regular unchokes as there are slots
and peers, of the fastest peers; and an optimistic unchoke of one further peer, if there is one. -/
structure Contract (weighted : ℕ → ℕ) (peerCount slots : ℕ) (decisions : List ChokingDecision) :
    Prop where
  indices : decisions.map (·.peerIndex) = List.range peerCount
  length_regular : (decisions.filter (·.isRegular)).length = min peerCount slots
  fastest : ∀ d ∈ decisions, d.isRegular → ∀ e ∈ decisions, ¬ e.isRegular →
    weighted e.peerIndex ≤ weighted d.peerIndex
  length_optimistic : (decisions.filter (·.optimistic)).length = if slots < peerCount then 1 else 0
  unchoked_of_optimistic : ∀ d ∈ decisions, d.optimistic → d.unchoked

section Unchoke

variable {c : TitForTatChoking} {weighted : ℕ → ℕ} {peerCount : ℕ}

theorem length_outside (weighted : ℕ → ℕ) (peerCount slots : ℕ) :
    (outside (ranking weighted peerCount) slots).length = peerCount - slots := by
  rw [outside, List.length_map, List.length_drop, length_ranking]

theorem unchokeOptimistic_perm : (c.unchokeOptimistic (byRank ranked slots)).Perm
    (markPeer (byRank ranked slots)
      (outside ranked slots)[c.optimisticIndex % (outside ranked slots).length]?) := by
  unfold TitForTatChoking.unchokeOptimistic
  rw [optimisticPeer_byRank]
  exact List.perm_insertionSort _ _

/-- **The peer whose turn it is** is unchoked. -/
theorem exists_optimistic {peer : ℕ} (hpeer : (outside (ranking weighted peerCount) slots)[
    c.optimisticIndex % (outside (ranking weighted peerCount) slots).length]? = some peer) :
    ∃ d ∈ c.unchokeOptimistic (byRank (ranking weighted peerCount) slots),
      d.peerIndex = peer ∧ d.optimistic = true := by
  obtain ⟨l₁, l₂, -, hmarked⟩ := markPeer_split nodup_map_fst_ranking (List.mem_of_getElem? hpeer)
  refine ⟨⟨peer, true, true⟩, unchokeOptimistic_perm.mem_iff.mpr ?_, rfl, rfl⟩
  rw [hpeer, hmarked]
  exact List.mem_append_right _ List.mem_cons_self

theorem map_peerIndex_unchokeOptimistic :
    (c.unchokeOptimistic (byRank (ranking weighted peerCount) slots)).map (·.peerIndex) =
      List.range peerCount := by
  have hsorted : ((c.unchokeOptimistic (byRank (ranking weighted peerCount) slots)).map
      (·.peerIndex)).Pairwise (· ≤ ·) :=
    List.pairwise_map.mpr (List.pairwise_insertionSort ByIndex _)
  refine List.Perm.eq_of_pairwise (fun a b _ _ => Nat.le_antisymm) hsorted List.pairwise_le_range ?_
  refine (unchokeOptimistic_perm.map _).trans ?_
  rw [map_peerIndex_markPeer, map_peerIndex_byRank]
  exact map_fst_ranking_perm weighted peerCount

/-- The peer whose turn it is has no slot. -/
theorem mem_outside_or_outside_eq_nil (c : TitForTatChoking) (ranked : List (ℕ × ℕ)) (slots : ℕ) :
    (∃ peer ∈ outside ranked slots,
      (outside ranked slots)[c.optimisticIndex % (outside ranked slots).length]? = some peer) ∨
    outside ranked slots = [] ∧
      (outside ranked slots)[c.optimisticIndex % (outside ranked slots).length]? = none := by
  rcases List.eq_nil_or_concat (outside ranked slots) with hnil | ⟨l, a, hl⟩
  · right
    rw [hnil]
    exact ⟨rfl, rfl⟩
  · left
    have hpos : 0 < (outside ranked slots).length := by
      rw [hl, List.length_concat]
      exact Nat.succ_pos _
    have hlt := Nat.mod_lt c.optimisticIndex hpos
    exact ⟨_, List.getElem_mem hlt, List.getElem?_eq_getElem hlt⟩

/-- The regular unchokes are those of the slots. -/
theorem filter_isRegular_perm :
    ((c.unchokeOptimistic (byRank (ranking weighted peerCount) slots)).filter (·.isRegular)).Perm
      (((ranking weighted peerCount).take slots).map regularDecision) := by
  refine (unchokeOptimistic_perm.filter _).trans (List.Perm.of_eq ?_)
  rw [← filter_isRegular_byRank]
  rcases mem_outside_or_outside_eq_nil c (ranking weighted peerCount) slots with
    ⟨peer, hpeer, hget⟩ | ⟨-, hget⟩
  · obtain ⟨l₁, l₂, hl, hmarked⟩ := markPeer_split nodup_map_fst_ranking hpeer
    rw [hget, hmarked, hl, List.filter_append, List.filter_append,
      List.filter_cons_of_neg Bool.false_ne_true, List.filter_cons_of_neg Bool.false_ne_true]
  · rw [hget]
    rfl

/-- The optimistic unchokes: one, if there is a peer without a slot. -/
theorem filter_optimistic_perm :
    ((c.unchokeOptimistic (byRank (ranking weighted peerCount) slots)).filter (·.optimistic)).Perm
      ((outside (ranking weighted peerCount) slots)[
        c.optimisticIndex % (outside (ranking weighted peerCount) slots).length]?.toList.map
          fun peer => ⟨peer, true, true⟩) := by
  refine (unchokeOptimistic_perm.filter _).trans (List.Perm.of_eq ?_)
  have hnone := filter_optimistic_byRank (ranking weighted peerCount) slots
  rcases mem_outside_or_outside_eq_nil c (ranking weighted peerCount) slots with
    ⟨peer, hpeer, hget⟩ | ⟨-, hget⟩
  · obtain ⟨l₁, l₂, hl, hmarked⟩ := markPeer_split nodup_map_fst_ranking hpeer
    rw [hl, List.filter_append, List.filter_cons_of_neg Bool.false_ne_true,
      List.append_eq_nil_iff] at hnone
    rw [hget, hmarked, List.filter_append, List.filter_cons_of_pos rfl, hnone.1, hnone.2]
    rfl
  · rw [hget]
    exact hnone

/-- **The decisions** meet the contract, whatever the number of slots and the peer whose turn it is. -/
theorem contract_unchokeOptimistic :
    Contract weighted peerCount slots
      (c.unchokeOptimistic (byRank (ranking weighted peerCount) slots)) where
  indices := map_peerIndex_unchokeOptimistic
  length_regular := by
    rw [filter_isRegular_perm.length_eq, List.length_map, List.length_take, length_ranking, min_comm]
  fastest d hd hregular e he hnot := by
    have hmem := filter_isRegular_perm.mem_iff.mp (List.mem_filter.mpr ⟨hd, hregular⟩)
    obtain ⟨p, hp, rfl⟩ := List.mem_map.mp hmem
    have hindex : e.peerIndex ∈ (ranking weighted peerCount).map Prod.fst := by
      rw [(map_fst_ranking_perm weighted peerCount).mem_iff, ← map_peerIndex_unchokeOptimistic (c := c)]
      exact List.mem_map_of_mem he
    obtain ⟨q, hq, hqe⟩ := List.mem_map.mp hindex
    rw [← List.take_append_drop slots (ranking weighted peerCount), List.mem_append] at hq
    rcases hq with hq | hq
    · -- The peer has a slot, so that the one decision for it is a regular unchoke.
      have hmem' := filter_isRegular_perm (c := c) |>.mem_iff.mpr (List.mem_map_of_mem hq)
      have hnodup : ((c.unchokeOptimistic (byRank (ranking weighted peerCount) slots)).map
          (·.peerIndex)).Nodup := by
        rw [map_peerIndex_unchokeOptimistic]
        exact List.nodup_range
      have heq := List.inj_on_of_nodup_map hnodup (List.mem_of_mem_filter hmem') he hqe
      exact absurd (heq ▸ rfl) hnot
    · rw [← hqe]
      exact le_of_mem_take_drop hp hq
  length_optimistic := by
    rw [filter_optimistic_perm.length_eq, List.length_map]
    have hlength := length_outside weighted peerCount slots
    rcases mem_outside_or_outside_eq_nil c (ranking weighted peerCount) slots with
      ⟨peer, hpeer, hget⟩ | ⟨hnil, hget⟩
    · have hpos := List.length_pos_of_mem hpeer
      rw [hget, if_pos (by omega)]
      rfl
    · rw [hnil, List.length_nil] at hlength
      rw [hget, if_neg (by omega)]
      rfl
  unchoked_of_optimistic d hd hopt := by
    have hmem := filter_optimistic_perm.mem_iff.mp (List.mem_filter.mpr ⟨hd, hopt⟩)
    obtain ⟨peer, -, rfl⟩ := List.mem_map.mp hmem
    rfl

end Unchoke

namespace TitForTatChoking

variable (round : ℚ → ℚ) (c : TitForTatChoking) (ranked : List (ℕ × ℕ))

/-- Auto-scaling is on and no peer with a slot is far below the average, so that one more slot opens. -/
def AutoScales : Prop :=
  c.autoScaleSlots = true ∧ 0 < c.regularSlots ∧ activeSpeeds ranked c.regularSlots ≠ [] ∧
    allUtilized (activeSpeeds ranked c.regularSlots) = true

instance : Decidable (c.AutoScales ranked) := inferInstanceAs (Decidable (_ ∧ _))

/-- The regular slots, or one more. -/
def slotsFor : ℕ := if c.AutoScales ranked then satAdd u64Max c.regularSlots 1 else c.regularSlots

/-- Auto-scaling is on and the sum of the speeds of the peers with a slot does not fit in 64 bits. -/
def Overflows : Prop :=
  c.autoScaleSlots = true ∧ u64Max < (activeSpeeds ranked c.regularSlots).sum

instance : Decidable (c.Overflows ranked) := inferInstanceAs (Decidable (_ ∧ _))

variable {c ranked}

theorem effectiveSlots_of_overflows (peerCount : ℕ) (h : c.Overflows ranked) :
    c.effectiveSlots ranked peerCount = none := by
  obtain ⟨hauto, hsum⟩ := h
  have hne : activeSpeeds ranked c.regularSlots ≠ [] := by
    intro hnil
    rw [hnil] at hsum
    exact absurd hsum (Nat.not_lt_zero _)
  have hpos : 0 < c.regularSlots := by
    by_contra hzero
    rw [Nat.eq_zero_of_not_pos hzero] at hne
    exact hne rfl
  unfold effectiveSlots
  rw [if_pos (by rw [hauto, decide_eq_true hpos]; rfl)]
  dsimp only
  rw [if_neg (by rw [List.isEmpty_iff]; exact hne), if_pos hsum]

theorem effectiveSlots_of_not_overflows (h : ¬ c.Overflows ranked) :
    ∃ k, c.effectiveSlots ranked ranked.length = some k ∧
      min k ranked.length = min (c.slotsFor ranked) ranked.length := by
  unfold effectiveSlots
  by_cases hauto : c.autoScaleSlots = true ∧ 0 < c.regularSlots
  · rw [if_pos (by rw [hauto.1, decide_eq_true hauto.2]; rfl)]
    dsimp only
    split_ifs with hempty hsum hall
    · exact ⟨_, rfl, by rw [slotsFor, if_neg fun hno => hno.2.2.1 (List.isEmpty_iff.mp hempty)]⟩
    · exact absurd ⟨hauto.1, hsum⟩ h
    · have hscales : c.AutoScales ranked :=
        ⟨hauto.1, hauto.2, fun hnil => hempty (List.isEmpty_iff.mpr hnil), hall⟩
      exact ⟨_, rfl, by rw [slotsFor, if_pos hscales, min_assoc, min_self]⟩
    · exact ⟨_, rfl, by rw [slotsFor, if_neg fun hno => hall hno.2.2.2]⟩
  · rw [if_neg (by rw [Bool.and_eq_true, decide_eq_true_iff]; exact hauto)]
    exact ⟨_, rfl, by rw [slotsFor, if_neg fun hno => hauto ⟨hno.1, hno.2.1⟩]⟩

/-- Slots beyond the peers make no difference. -/
theorem byRank_congr {k k' : ℕ} (h : min k ranked.length = min k' ranked.length) :
    byRank ranked k = byRank ranked k' := by
  have hmin : ∀ k, byRank ranked k = byRank ranked (min k ranked.length) := by
    intro k
    rw [byRank_eq, byRank_eq, ← List.take_eq_take_min, ← List.drop_eq_drop_min]
  rw [hmin k, h, ← hmin k']

variable (c) in
/-- The ranking of an evaluation. -/
def rankingOf (tracker : PeerTracker) (peerCount : ℕ) : List (ℕ × ℕ) :=
  ranking (c.weightedSpeed round tracker) peerCount

variable {round} {tracker : PeerTracker} {peerCount : ℕ}

theorem evaluate_of_overflows (h : c.Overflows (c.rankingOf round tracker peerCount)) :
    c.evaluate round tracker peerCount = none := by
  unfold evaluate
  split_ifs with hzero
  · subst hzero
    have hnil : activeSpeeds (c.rankingOf round tracker 0) c.regularSlots = [] := by
      show ((List.take c.regularSlots []).map _).filter _ = []
      rw [List.take_nil]
      rfl
    have hsum := h.2
    rw [hnil] at hsum
    exact absurd hsum (Nat.not_lt_zero _)
  · exact congrArg (Option.map _) (effectiveSlots_of_overflows _ h)

theorem evaluate_of_not_overflows (hcount : peerCount ≠ 0)
    (h : ¬ c.Overflows (c.rankingOf round tracker peerCount)) :
    c.evaluate round tracker peerCount =
      some (c.rotate.unchokeOptimistic (byRank (c.rankingOf round tracker peerCount)
        (c.slotsFor (c.rankingOf round tracker peerCount))), c.rotate) := by
  obtain ⟨k, hk, hmin⟩ := effectiveSlots_of_not_overflows h
  unfold rankingOf at hk hmin ⊢
  rw [length_ranking] at hk
  unfold evaluate
  rw [if_neg hcount]
  dsimp only
  rw [hk, Option.map_some, byRank_congr hmin]

/-- **An evaluation** panics or meets the contract. -/
theorem evaluate_contract (round : ℚ → ℚ) (c : TitForTatChoking) (tracker : PeerTracker) (peerCount : ℕ) :
    (∃ decisions c', c.evaluate round tracker peerCount = some (decisions, c') ∧
      Contract (c.weightedSpeed round tracker) peerCount
        (c.slotsFor (c.rankingOf round tracker peerCount)) decisions) ↔
      ¬ c.Overflows (c.rankingOf round tracker peerCount) := by
  constructor
  · rintro ⟨decisions, c', heval, -⟩ hover
    rw [evaluate_of_overflows hover] at heval
    cases heval
  · intro hno
    by_cases hcount : peerCount = 0
    · subst hcount
      refine ⟨[], c, rfl, ⟨rfl, (Nat.zero_min _).symm, ?_, rfl, ?_⟩⟩
      · exact fun d hd => absurd hd List.not_mem_nil
      · exact fun d hd => absurd hd List.not_mem_nil
    · exact ⟨_, _, evaluate_of_not_overflows hcount hno, contract_unchokeOptimistic⟩

/-- The counter and the index before the counter wraps. -/
theorem rotate_of_lt (hcounter : c.evalCounter < u32Max)
    (hindex : c.optimisticIndex = c.evalCounter / c.optimisticInterval) :
    c.rotate.evalCounter = c.evalCounter + 1 ∧
      c.rotate.optimisticIndex = (c.evalCounter + 1) / c.optimisticInterval := by
  have hmod : (c.evalCounter + 1) % 2 ^ 32 = c.evalCounter + 1 :=
    Nat.mod_eq_of_lt (by unfold u32Max at hcounter; omega)
  have hle := Nat.div_le_self c.evalCounter c.optimisticInterval
  have hmod' : (c.optimisticIndex + 1) % 2 ^ 64 = c.optimisticIndex + 1 :=
    Nat.mod_eq_of_lt (by unfold u32Max at hcounter; omega)
  unfold rotate
  dsimp only
  rw [hmod, hmod', Nat.succ_div, hindex]
  refine ⟨rfl, ?_⟩
  simp only [Nat.dvd_iff_mod_eq_zero]
  split_ifs
  · rfl
  · rfl

end TitForTatChoking

/-! ### Evaluations in a row -/

inductive Call
  | evaluate (tracker : PeerTracker) (peerCount : ℕ)
  | setCreditLedger (ledger : CreditLedger)
deriving DecidableEq

/-- A state and the decisions of the evaluations so far. -/
structure Log where
  state : TitForTatChoking
  decisions : List (List ChokingDecision)
deriving DecidableEq

namespace Log

def start (c : TitForTatChoking) : Log := ⟨c, []⟩

def step (round : ℚ → ℚ) (r : Log) : Call → Option Log
  | .evaluate tracker peerCount =>
    (r.state.evaluate round tracker peerCount).map fun p => ⟨p.2, r.decisions ++ [p.1]⟩
  | .setCreditLedger ledger => some { r with state := r.state.setCreditLedger ledger }

/-- The peers without a slot are `others`, if the call is an evaluation. -/
def Ranks (round : ℚ → ℚ) (others : List ℕ) (r : Log) : Call → Prop
  | .evaluate tracker peerCount =>
    outside (r.state.rankingOf round tracker peerCount)
      (r.state.slotsFor (r.state.rankingOf round tracker peerCount)) = others
  | .setCreditLedger _ => True

/-- The counter counts evaluations, and the index its multiples of the interval. -/
structure Rotated (interval : ℕ) (r : Log) : Prop where
  interval_eq : r.state.optimisticInterval = interval
  counter_le : r.state.evalCounter ≤ r.decisions.length
  index_eq : r.state.optimisticIndex = r.state.evalCounter / interval

variable {round : ℚ → ℚ} {interval : ℕ} {r r' : Log}

/-- What an evaluation of some peers returns and leaves. -/
theorem step_evaluate {tracker : PeerTracker} {peerCount : ℕ}
    (h : r.step round (.evaluate tracker peerCount) = some r') :
    (peerCount = 0 ∧ r' = ⟨r.state, r.decisions ++ [[]]⟩) ∨
      peerCount ≠ 0 ∧ r' = ⟨r.state.rotate, r.decisions ++
        [r.state.rotate.unchokeOptimistic (byRank (r.state.rankingOf round tracker peerCount)
          (r.state.slotsFor (r.state.rankingOf round tracker peerCount)))]⟩ := by
  obtain ⟨⟨decisions, c'⟩, heval, rfl⟩ := Option.map_eq_some_iff.mp h
  by_cases hcount : peerCount = 0
  · subst hcount
    obtain ⟨rfl, rfl⟩ := Prod.mk.inj (Option.some.inj heval)
    exact Or.inl ⟨rfl, rfl⟩
  · have hno : ¬ r.state.Overflows (r.state.rankingOf round tracker peerCount) := by
      intro hover
      rw [TitForTatChoking.evaluate_of_overflows hover] at heval
      cases heval
    rw [TitForTatChoking.evaluate_of_not_overflows hcount hno] at heval
    obtain ⟨rfl, rfl⟩ := Prod.mk.inj (Option.some.inj heval)
    exact Or.inr ⟨hcount, rfl⟩

theorem Rotated.rotate (h : Rotated interval r) (hwrap : r.decisions.length < u32Max) :
    r.state.rotate.evalCounter = r.state.evalCounter + 1 ∧
      r.state.rotate.optimisticIndex = (r.state.evalCounter + 1) / interval := by
  have hrotate := TitForTatChoking.rotate_of_lt (c := r.state) (h.counter_le.trans_lt hwrap)
    (by rw [h.interval_eq]; exact h.index_eq)
  rwa [h.interval_eq] at hrotate

/-- The peer whose turn it is at the next count is unchoked. -/
theorem Rotated.exists_optimistic (h : Rotated interval r) (hwrap : r.decisions.length < u32Max)
    {others : List ℕ} {tracker : PeerTracker} {peerCount peer : ℕ}
    (hranks : Ranks round others r (.evaluate tracker peerCount))
    (hpeer : others[(r.state.evalCounter + 1) / interval % others.length]? = some peer) :
    ∃ d ∈ r.state.rotate.unchokeOptimistic (byRank (r.state.rankingOf round tracker peerCount)
      (r.state.slotsFor (r.state.rankingOf round tracker peerCount))),
      d.peerIndex = peer ∧ d.optimistic = true := by
  refine Choking.exists_optimistic ?_
  change outside (ranking _ _) _ = others at hranks
  rw [hranks, (h.rotate hwrap).2]
  exact hpeer

/-- Without peers there are none without a slot. -/
theorem Ranks.eq_nil {others : List ℕ} {tracker : PeerTracker}
    (hranks : Ranks round others r (.evaluate tracker 0)) : others = [] := by
  rw [← hranks, outside, TitForTatChoking.rankingOf, show ranking _ 0 = [] from rfl, List.drop_nil,
    List.map_nil]

/-- **A call**, as long as there are fewer than 2³² evaluations. -/
theorem rotated_step (call : Call) (h : Rotated interval r) (hstep : r.step round call = some r')
    (hwrap : r'.decisions.length ≤ u32Max) : Rotated interval r' := by
  cases call with
  | setCreditLedger ledger =>
    obtain rfl := Option.some.inj hstep
    exact ⟨h.interval_eq, h.counter_le, h.index_eq⟩
  | evaluate tracker peerCount =>
    rcases step_evaluate hstep with ⟨-, rfl⟩ | ⟨-, rfl⟩
    · refine ⟨h.interval_eq, h.counter_le.trans ?_, h.index_eq⟩
      rw [List.length_append]
      exact Nat.le_add_right _ _
    · rw [List.length_append, List.length_singleton] at hwrap
      obtain ⟨hnext, hindex⟩ := h.rotate (by omega)
      refine ⟨h.interval_eq, ?_, ?_⟩
      · rw [hnext, List.length_append, List.length_singleton]
        exact Nat.succ_le_succ h.counter_le
      · rw [hindex, hnext]

theorem length_decisions_step (call : Call) (hstep : r.step round call = some r') :
    r.decisions.length ≤ r'.decisions.length := by
  cases call with
  | setCreditLedger ledger =>
    obtain rfl := Option.some.inj hstep
    exact le_rfl
  | evaluate tracker peerCount =>
    obtain ⟨p, -, rfl⟩ := Option.map_eq_some_iff.mp hstep
    rw [List.length_append]
    exact Nat.le_add_right _ _

theorem rotated_run {calls : List Call} (h : Rotated interval r)
    (hrun : run (step round) r calls = some r') (hwrap : r'.decisions.length ≤ u32Max) : Rotated interval r' := by
  refine inv_run (P := fun r => r.decisions.length ≤ u32Max → Rotated interval r) ?_ (fun _ => h)
    hrun hwrap
  intro s call s' hs hstep hlen
  exact rotated_step call (hs ((length_decisions_step call hstep).trans hlen)) hstep hlen

/-- **The evaluations of a window**: the peer whose turn it is at a count of the counter is unchoked. -/
theorem exists_granted {others : List ℕ} : ∀ {window : List Call} {r r' : Log},
    run (step round) r window = some r' → Meets (step round) (Ranks round others) r window →
    r'.decisions.length ≤ u32Max → Rotated interval r →
    ∃ granted, r'.decisions = r.decisions ++ granted ∧
      ∀ e peer, r.state.evalCounter < e → e ≤ r.state.evalCounter + granted.length →
        others[e / interval % others.length]? = some peer →
        ∃ decisions ∈ granted, ∃ d ∈ decisions, d.peerIndex = peer ∧ d.optimistic = true
  | [], r, r', hrun, _, _, _ => by
    obtain rfl := Option.some.inj hrun
    refine ⟨[], (List.append_nil _).symm, fun e peer hlt hle => ?_⟩
    rw [List.length_nil] at hle
    omega
  | call :: window, r, r', hrun, hmeets, hwrap, hrot => by
    obtain ⟨t, ht, hrest⟩ := run_cons_some hrun
    have hlen : t.decisions.length ≤ r'.decisions.length := by
      refine inv_run (P := fun s => t.decisions.length ≤ s.decisions.length) ?_ le_rfl hrest
      exact fun s call s' hs hstep => hs.trans (length_decisions_step call hstep)
    have hrot' := rotated_step call hrot ht (hlen.trans hwrap)
    obtain ⟨granted, hgranted, hturns⟩ := exists_granted hrest (hmeets.2 t ht) hwrap hrot'
    have hranks := hmeets.1
    cases call with
    | setCreditLedger ledger =>
      obtain rfl := Option.some.inj ht
      exact ⟨granted, hgranted, hturns⟩
    | evaluate tracker peerCount =>
      rcases step_evaluate ht with ⟨rfl, rfl⟩ | ⟨hcount, rfl⟩
      · refine ⟨[] :: granted, by rw [hgranted, List.append_assoc]; rfl, fun e peer _ _ hpeer => ?_⟩
        rw [hranks.eq_nil, List.getElem?_nil] at hpeer
        cases hpeer
      · refine ⟨_ :: granted, by rw [hgranted, List.append_assoc]; rfl, fun e peer hlt hle hpeer => ?_⟩
        rw [List.length_append, List.length_singleton] at hlen
        obtain ⟨hnext, -⟩ := hrot.rotate (by omega)
        rw [List.length_cons] at hle
        by_cases hnow : e = r.state.evalCounter + 1
        · subst hnow
          exact ⟨_, List.mem_cons_self, hrot.exists_optimistic (by omega) hranks hpeer⟩
        · obtain ⟨decisions, hmem, hd⟩ := hturns e peer (by show r.state.rotate.evalCounter < e; omega)
            (by show e ≤ r.state.rotate.evalCounter + _; omega) hpeer
          exact ⟨decisions, List.mem_cons_of_mem _ hmem, hd⟩

end Log

/-- Among as many numbers in a row, one has its turn for `j`. -/
theorem exists_turn (start : ℕ) {interval m j : ℕ} (hpos : 0 < interval) (hj : j < m) :
    ∃ e, start < e ∧ e ≤ start + interval * m ∧ e / interval % m = j := by
  have hmem : interval * j ∈ (Finset.Ico (start + 1) (start + 1 + interval * m)).image
      (· % (interval * m)) := by
    rw [Nat.image_Ico_mod, Finset.mem_range]
    exact Nat.mul_lt_mul_of_pos_left hj hpos
  obtain ⟨e, he, hmod⟩ := Finset.mem_image.mp hmem
  rw [Finset.mem_Ico] at he
  refine ⟨e, by omega, by omega, ?_⟩
  rw [← Nat.mod_mul_right_div_self, hmod, Nat.mul_div_cancel_left j hpos]

def fastPeer (b : UInt8) : PeerId := ⟨Vector.replicate 32 b, .random⟩

/-- A peer that was as fast as a `u64` can say in an earlier session. -/
def fastReputation (b : UInt8) : PeerReputation := ⟨fastPeer b, .trusted, 10, 0, u64Max, 0, false⟩

/-- Two such peers are back. -/
def fastTracker : PeerTracker :=
  ((PeerTracker.withPriorReputation 2 0 [fastReputation 1, fastReputation 2]).registerIdentity 0
    (fastPeer 1)).registerIdentity 1 (fastPeer 2)

end CncContent.Peers.Choking
