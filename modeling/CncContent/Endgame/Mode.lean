import CncContent.Lib.Bounded
import CncContent.Lib.Maps

/-! # Endgame mode

`EndgameMode` of the source: near the end of a download the remaining blocks are requested from many
peers at once, and what is still under way is cancelled when a block arrives. The hash map of pending
blocks is a table and the hash set of the peers asked for a block a set, in the order of iteration. -/

namespace CncContent.Endgame.Mode

open CncContent.Lib.Bounded CncContent.Lib.Maps

def defaultEndgamePeerMultiplier : ℕ := 2

def minRemainingForEndgame : ℕ := 1

structure BlockId where
  piece : ℕ
  offset : ℕ
deriving DecidableEq, Repr

abbrev PeerId := Vector UInt8 20

inductive EndgameAction
  | broadcastRequest (block : BlockId)
  | cancelDuplicate (block : BlockId) (peerId : PeerId)
deriving DecidableEq, Repr

structure EndgameMode where
  totalPieces : ℕ
  active : Bool
  pending : Table BlockId (Members PeerId)
  peerMultiplier : ℕ
deriving DecidableEq

namespace EndgameMode

def withMultiplier (totalPieces multiplier : ℕ) : EndgameMode :=
  ⟨totalPieces, false, .empty, multiplier⟩

def new (totalPieces : ℕ) : EndgameMode :=
  withMultiplier totalPieces defaultEndgamePeerMultiplier

variable (eg : EndgameMode)

/-- The new state, and whether the mode has just been activated. -/
def updateRemaining (remainingPieces peerCount : ℕ) : EndgameMode × Bool :=
  let threshold := satMul u32Max peerCount eg.peerMultiplier
  let active := decide (minRemainingForEndgame ≤ remainingPieces ∧ remainingPieces ≤ threshold)
  ({ eg with active := active, pending := if active then eg.pending else .empty },
    !eg.active && active)

def recordRequest (block : BlockId) (peerId : PeerId) : EndgameMode :=
  if eg.active then
    { eg with pending := eg.pending.alter block fun peers => (peers.getD .empty).add peerId }
  else eg

def blockReceived (block : BlockId) (fromPeer : PeerId) : EndgameMode × List EndgameAction :=
  if eg.active then
    match eg.pending.get? block with
    | some peers => ({ eg with pending := eg.pending.erase block },
        (peers.elems.filter (· ≠ fromPeer)).map (.cancelDuplicate block))
    | none => (eg, [])
  else (eg, [])

def blocksForNewPeer (peerId : PeerId) : EndgameMode × List EndgameAction :=
  if eg.active then
    ({ eg with pending := eg.pending.mapValues fun peers => peers.add peerId },
      (eg.pending.entries.filter fun e => peerId ∉ e.2).map fun e => .broadcastRequest e.1)
  else (eg, [])

def removePeer (peerId : PeerId) : EndgameMode :=
  { eg with pending := eg.pending.mapValues fun peers => peers.remove peerId }

def reset : EndgameMode := { eg with active := false, pending := .empty }

end EndgameMode

/-! ### Calls -/

inductive Call
  | updateRemaining (remainingPieces peerCount : ℕ)
  | recordRequest (block : BlockId) (peerId : PeerId)
  | blockReceived (block : BlockId) (fromPeer : PeerId)
  | blocksForNewPeer (peerId : PeerId)
  | removePeer (peerId : PeerId)
  | reset
deriving DecidableEq, Repr

/-- The state after a call and the actions it returns. -/
def EndgameMode.apply (eg : EndgameMode) : Call → EndgameMode × List EndgameAction
  | .updateRemaining remainingPieces peerCount =>
    ((eg.updateRemaining remainingPieces peerCount).1, [])
  | .recordRequest block peerId => (eg.recordRequest block peerId, [])
  | .blockReceived block fromPeer => eg.blockReceived block fromPeer
  | .blocksForNewPeer peerId => eg.blocksForNewPeer peerId
  | .removePeer peerId => (eg.removePeer peerId, [])
  | .reset => (eg.reset, [])

namespace EndgameMode

/-! ### What the calls do -/

/-- The block is pending. -/
def IsPending (eg : EndgameMode) (b : BlockId) : Prop := ∃ peers, eg.pending.get? b = some peers

/-- The block is pending and a request to the peer is under way. -/
def IsAsked (eg : EndgameMode) (b : BlockId) (q : PeerId) : Prop :=
  ∃ peers, eg.pending.get? b = some peers ∧ q ∈ peers

variable {eg : EndgameMode}

section Active

variable (hactive : eg.active = true)

include hactive

theorem pending_recordRequest (b : BlockId) (q : PeerId) : (eg.recordRequest b q).pending =
    eg.pending.alter b fun peers => (peers.getD .empty).add q := by
  unfold recordRequest
  rw [if_pos hactive]

theorem isPending_recordRequest {b b' : BlockId} {q : PeerId} :
    (eg.recordRequest b q).IsPending b' ↔ b' = b ∨ eg.IsPending b' := by
  unfold IsPending
  rw [pending_recordRequest hactive, Table.get?_alter]
  split_ifs with h
  · exact ⟨fun _ => Or.inl h, fun _ => ⟨_, rfl⟩⟩
  · exact (or_iff_right h).symm

theorem isAsked_recordRequest {b b' : BlockId} {q q' : PeerId} :
    (eg.recordRequest b q).IsAsked b' q' ↔ (b' = b ∧ q' = q) ∨ eg.IsAsked b' q' := by
  unfold IsAsked
  rw [pending_recordRequest hactive, Table.get?_alter]
  split_ifs with h
  · subst h
    rw [and_iff_right rfl]
    constructor
    · rintro ⟨peers, hpeers, hq⟩
      rw [← Option.some.inj hpeers, Members.mem_add] at hq
      refine hq.imp_right fun hq => ?_
      rcases hold : eg.pending.get? b' with _ | old
      · rw [hold] at hq
        exact absurd hq Members.not_mem_empty
      · rw [hold] at hq
        exact ⟨old, rfl, hq⟩
    · intro hq
      refine ⟨_, rfl, Members.mem_add.mpr (hq.imp_right ?_)⟩
      rintro ⟨old, hold, hq⟩
      rw [hold]
      exact hq
  · exact (or_iff_right fun hc => h hc.1).symm

theorem pending_blockReceived (b : BlockId) (p : PeerId) (b' : BlockId) :
    (eg.blockReceived b p).1.pending.get? b' =
      if b' = b then none else eg.pending.get? b' := by
  unfold blockReceived
  rw [if_pos hactive]
  rcases hpeers : eg.pending.get? b with _ | peers
  · split_ifs with h
    · rw [h]
      exact hpeers
    · rfl
  · exact Table.get?_erase

theorem isPending_blockReceived {b b' : BlockId} {p : PeerId} :
    (eg.blockReceived b p).1.IsPending b' ↔ eg.IsPending b' ∧ b' ≠ b := by
  unfold IsPending
  rw [pending_blockReceived hactive]
  split_ifs with h
  · exact ⟨nofun, fun hc => absurd h hc.2⟩
  · exact (and_iff_left h).symm

theorem isAsked_blockReceived {b b' : BlockId} {p q : PeerId} :
    (eg.blockReceived b p).1.IsAsked b' q ↔ eg.IsAsked b' q ∧ b' ≠ b := by
  unfold IsAsked
  rw [pending_blockReceived hactive]
  split_ifs with h
  · exact ⟨nofun, fun hc => absurd h hc.2⟩
  · exact (and_iff_left h).symm

/-- **The cancellations**: one for each other peer that was asked. -/
theorem mem_blockReceived {b : BlockId} {p : PeerId} {a : EndgameAction} :
    a ∈ (eg.blockReceived b p).2 ↔ ∃ q, q ≠ p ∧ eg.IsAsked b q ∧ a = .cancelDuplicate b q := by
  unfold blockReceived IsAsked
  rw [if_pos hactive]
  rcases eg.pending.get? b with _ | peers
  · exact ⟨nofun, fun ⟨_, _, ⟨_, h, _⟩, _⟩ => nomatch h⟩
  · rw [List.mem_map]
    constructor
    · rintro ⟨q, hq, rfl⟩
      obtain ⟨hmem, hne⟩ := List.mem_filter.mp hq
      exact ⟨q, of_decide_eq_true hne, ⟨peers, rfl, hmem⟩, rfl⟩
    · rintro ⟨q, hne, ⟨peers', hpeers, hmem⟩, rfl⟩
      obtain rfl := Option.some.inj hpeers
      exact ⟨q, List.mem_filter.mpr ⟨hmem, decide_eq_true hne⟩, rfl⟩

theorem pending_blocksForNewPeer (q : PeerId) (b : BlockId) :
    (eg.blocksForNewPeer q).1.pending.get? b =
      (eg.pending.get? b).map fun peers => peers.add q := by
  unfold blocksForNewPeer
  rw [if_pos hactive]
  exact Table.get?_mapValues

theorem isPending_blocksForNewPeer {q : PeerId} {b : BlockId} :
    (eg.blocksForNewPeer q).1.IsPending b ↔ eg.IsPending b := by
  unfold IsPending
  rw [pending_blocksForNewPeer hactive]
  rcases eg.pending.get? b with _ | peers
  · exact Iff.rfl
  · exact ⟨fun _ => ⟨_, rfl⟩, fun _ => ⟨_, rfl⟩⟩

theorem isAsked_blocksForNewPeer {q q' : PeerId} {b : BlockId} :
    (eg.blocksForNewPeer q).1.IsAsked b q' ↔ (q' = q ∧ eg.IsPending b) ∨ eg.IsAsked b q' := by
  unfold IsAsked IsPending
  rw [pending_blocksForNewPeer hactive]
  rcases eg.pending.get? b with _ | peers
  · simp
  · simp [Members.mem_add]

/-- **The broadcasts**: the pending blocks that the peer has not been asked for. -/
theorem mem_blocksForNewPeer {q : PeerId} {a : EndgameAction} :
    a ∈ (eg.blocksForNewPeer q).2 ↔
      ∃ b, eg.IsPending b ∧ ¬ eg.IsAsked b q ∧ a = .broadcastRequest b := by
  unfold blocksForNewPeer IsPending IsAsked
  rw [if_pos hactive, List.mem_map]
  constructor
  · rintro ⟨⟨b, peers⟩, he, rfl⟩
    obtain ⟨hmem, hnot⟩ := List.mem_filter.mp he
    have hpeers := Table.mem_entries_iff.mp hmem
    refine ⟨b, ⟨peers, hpeers⟩, ?_, rfl⟩
    rintro ⟨peers', hpeers', hq⟩
    obtain rfl := Option.some.inj (hpeers.symm.trans hpeers')
    exact of_decide_eq_true hnot hq
  · rintro ⟨b, ⟨peers, hpeers⟩, hnot, rfl⟩
    refine ⟨(b, peers), List.mem_filter.mpr ⟨Table.mem_entries_iff.mpr hpeers, ?_⟩, rfl⟩
    exact decide_eq_true fun hq => hnot ⟨peers, hpeers, hq⟩

end Active

theorem isPending_removePeer {q : PeerId} {b : BlockId} :
    (eg.removePeer q).IsPending b ↔ eg.IsPending b := by
  unfold IsPending removePeer
  rw [Table.get?_mapValues]
  rcases eg.pending.get? b with _ | peers
  · exact Iff.rfl
  · exact ⟨fun _ => ⟨_, rfl⟩, fun _ => ⟨_, rfl⟩⟩

theorem isAsked_removePeer {q q' : PeerId} {b : BlockId} :
    (eg.removePeer q).IsAsked b q' ↔ eg.IsAsked b q' ∧ q' ≠ q := by
  unfold IsAsked removePeer
  rw [Table.get?_mapValues]
  rcases eg.pending.get? b with _ | peers
  · simp
  · simp [Members.mem_remove, and_comm]

/-- No action is returned twice. -/
theorem nodup_blockReceived (eg : EndgameMode) (b : BlockId) (p : PeerId) :
    (eg.blockReceived b p).2.Nodup := by
  unfold blockReceived
  split_ifs
  · rcases eg.pending.get? b with _ | peers
    · exact List.nodup_nil
    · exact (peers.nodup.filter _).map fun _ _ h => by cases h; rfl
  · exact List.nodup_nil

theorem nodup_blocksForNewPeer (eg : EndgameMode) (q : PeerId) :
    (eg.blocksForNewPeer q).2.Nodup := by
  unfold blocksForNewPeer
  split_ifs
  · have hkeys : ((eg.pending.entries.filter fun e => q ∉ e.2).map Prod.fst).Nodup :=
      eg.pending.nodup.sublist (List.filter_sublist.map _)
    have hactions := hkeys.map (f := EndgameAction.broadcastRequest) fun _ _ h => by cases h; rfl
    rwa [List.map_map] at hactions
  · exact List.nodup_nil

end EndgameMode

end CncContent.Endgame.Mode
