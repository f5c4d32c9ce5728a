import CncContent.Lib.Maps
import CncContent.Lib.Past
import Mathlib.Data.List.Induction

/-! # Peer exchange

The messages in which peers tell each other of peers they know, and `PexDeltaTracker`, which keeps for every
recipient the peers that it has been told of. A message that a coordinator builds has the first peers with an
identity, at most fifty (`buildPexMessage_eq`). What a tracker lets through are the candidates that the recipient
has not been told of since it was last removed (`filterNew_after_iff`), so it is told of each once
(`told_once`). -/

namespace CncContent.Peers.Exchange

open CncContent.Lib.Maps CncContent.Lib.Past

/-- A `PeerId`, which is compared by its bytes. -/
abbrev PeerId := Vector UInt8 32

abbrev NetworkId := Vector UInt8 32

def maxPexAdded : ℕ := 50

def maxPexDropped : ℕ := 50

/-! ### Messages -/

structure PexFlags where
  encryption : Bool
  seed : Bool
  utp : Bool
  utpHolepunch : Bool
  connectable : Bool
deriving DecidableEq, Repr

structure PexEntry where
  peerId : PeerId
  addr : List UInt8
  flags : PexFlags
deriving DecidableEq

structure PexMessage where
  networkId : NetworkId
  added : List PexEntry
  dropped : List PeerId
deriving DecidableEq

namespace PexMessage

variable (m : PexMessage)

def isEmpty : Bool := m.added.isEmpty && m.dropped.isEmpty

def isOversized : Bool := maxPexAdded < m.added.length || maxPexDropped < m.dropped.length

end PexMessage

/-- What a peer of the coordinator says of itself: its `peer_id`, whether it has the first piece, and whether it
is a web seed. -/
structure Peer where
  peerId : Option (List UInt8)
  hasFirst : Bool
  webSeed : Bool

section Build

variable (fromKeyMaterial : List UInt8 → PeerId)

def Peer.entry (p : Peer) (id : List UInt8) : PexEntry :=
  ⟨fromKeyMaterial id, id, ⟨false, p.hasFirst, false, false, p.webSeed⟩⟩

/-- The loop of `build_pex_message`. -/
def addPeers : List Peer → List PexEntry → List PexEntry
  | [], added => added
  | p :: peers, added =>
    if maxPexAdded ≤ added.length then added
    else
      match p.peerId with
      | none => addPeers peers added
      | some id => addPeers peers (added ++ [p.entry fromKeyMaterial id])

def buildPexMessage (networkId : NetworkId) (peers : List Peer) : Option PexMessage :=
  if peers.isEmpty then none
  else
    let m : PexMessage := ⟨networkId, addPeers fromKeyMaterial peers [], []⟩
    if m.isEmpty then none else some m

/-- The entry of a peer with an identity. -/
def Peer.entry? (p : Peer) : Option PexEntry := p.peerId.map (p.entry fromKeyMaterial)

theorem addPeers_eq : ∀ {peers : List Peer} {added : List PexEntry}, added.length ≤ maxPexAdded →
    addPeers fromKeyMaterial peers added =
      (added ++ peers.filterMap (Peer.entry? fromKeyMaterial)).take maxPexAdded
  | [], added, h => by rw [addPeers, List.filterMap_nil, List.append_nil, List.take_of_length_le h]
  | p :: peers, added, h => by
    unfold addPeers
    by_cases hfull : maxPexAdded ≤ added.length
    · have hlen : added.length = maxPexAdded := Nat.le_antisymm h hfull
      rw [if_pos hfull, ← hlen, List.take_left']
      rfl
    · rw [if_neg hfull]
      rcases hid : p.peerId with _ | id
      · have hentry : p.entry? fromKeyMaterial = none := by rw [Peer.entry?, hid, Option.map_none]
        rw [List.filterMap_cons_none hentry]
        exact addPeers_eq h
      · have hentry : p.entry? fromKeyMaterial = some (p.entry fromKeyMaterial id) := by
          rw [Peer.entry?, hid, Option.map_some]
        have hlen : (added ++ [p.entry fromKeyMaterial id]).length ≤ maxPexAdded := by
          rw [List.length_append, List.length_singleton]
          omega
        rw [List.filterMap_cons_some hentry, List.append_cons]
        exact addPeers_eq hlen

/-- **The message of a coordinator**: the first peers with an identity, in their order. There is none if there are
no such peers, and it is never oversized. -/
theorem buildPexMessage_eq (networkId : NetworkId) (peers : List Peer) :
    buildPexMessage fromKeyMaterial networkId peers =
        (if peers.filterMap (Peer.entry? fromKeyMaterial) = [] then none
        else some ⟨networkId, (peers.filterMap (Peer.entry? fromKeyMaterial)).take maxPexAdded, []⟩) ∧
      ∀ m, buildPexMessage fromKeyMaterial networkId peers = some m → m.isOversized = false := by
  have hadd : addPeers fromKeyMaterial peers [] =
      (peers.filterMap (Peer.entry? fromKeyMaterial)).take maxPexAdded :=
    addPeers_eq fromKeyMaterial (Nat.zero_le _)
  have heq : buildPexMessage fromKeyMaterial networkId peers =
      if peers.filterMap (Peer.entry? fromKeyMaterial) = [] then none
      else some ⟨networkId, (peers.filterMap (Peer.entry? fromKeyMaterial)).take maxPexAdded, []⟩ := by
    unfold buildPexMessage
    rcases peers with _ | ⟨p, peers⟩
    · rfl
    · have hne : ¬ (p :: peers).isEmpty = true := Bool.false_ne_true
      rw [if_neg hne]
      dsimp only [PexMessage.isEmpty]
      rw [hadd]
      rcases (p :: peers).filterMap (Peer.entry? fromKeyMaterial) with _ | ⟨e, es⟩
      · rfl
      · rfl
  refine ⟨heq, fun m hm => ?_⟩
  rw [heq] at hm
  split_ifs at hm
  cases hm
  have hlen := List.length_take_le maxPexAdded (peers.filterMap (Peer.entry? fromKeyMaterial))
  simp only [PexMessage.isOversized, List.length_nil, Bool.or_eq_false_iff, decide_eq_false_iff_not, Nat.not_lt]
  exact ⟨hlen, Nat.zero_le _⟩

end Build

/-! ### The tracker -/

structure PexDeltaTracker where
  known : Table PeerId (Members PeerId)

namespace PexDeltaTracker

def new : PexDeltaTracker := ⟨Table.empty⟩

variable (t : PexDeltaTracker)

def filterNew (recipient : PeerId) (candidates : List PexEntry) : List PexEntry :=
  candidates.filter fun entry =>
    match t.known.get? recipient with
    | some s => !decide (entry.peerId ∈ s)
    | none => true

def markSent (recipient : PeerId) (sentPeers : List PeerId) : PexDeltaTracker :=
  ⟨t.known.alter recipient fun s => sentPeers.foldl Members.add (s.getD Members.empty)⟩

def removeRecipient (recipient : PeerId) : PexDeltaTracker := ⟨t.known.erase recipient⟩

/-- The recipient has been told of the peer, as far as the tracker knows. -/
def Knows (recipient id : PeerId) : Prop := ∃ s, t.known.get? recipient = some s ∧ id ∈ s

variable {t} {recipient recipient' id : PeerId}

theorem not_knows_new : ¬ new.Knows recipient id := by
  rintro ⟨s, hs, -⟩
  cases hs

theorem mem_filterNew {candidates : List PexEntry} {entry : PexEntry} :
    entry ∈ t.filterNew recipient candidates ↔ entry ∈ candidates ∧ ¬ t.Knows recipient entry.peerId := by
  unfold filterNew Knows
  rw [List.mem_filter]
  rcases t.known.get? recipient with _ | s
  · simp
  · simp

theorem knows_markSent {sentPeers : List PeerId} : (t.markSent recipient sentPeers).Knows recipient' id ↔
    (recipient' = recipient ∧ id ∈ sentPeers) ∨ t.Knows recipient' id := by
  unfold Knows markSent
  dsimp only
  rw [Table.get?_alter]
  by_cases h : recipient' = recipient
  · subst h
    rw [if_pos rfl]
    rcases t.known.get? recipient' with _ | s
    · simp [Members.mem_foldl_add, Members.not_mem_empty]
    · simp [Members.mem_foldl_add]
  · rw [if_neg h]
    exact (or_iff_right fun hr => h hr.1).symm

theorem knows_removeRecipient : (t.removeRecipient recipient).Knows recipient' id ↔
    recipient' ≠ recipient ∧ t.Knows recipient' id := by
  unfold Knows removeRecipient
  dsimp only
  rw [Table.get?_erase]
  by_cases h : recipient' = recipient
  · rw [if_pos h]
    exact ⟨nofun, fun hk => absurd h hk.1⟩
  · rw [if_neg h]
    exact (and_iff_right h).symm

/-- A message to the recipient: the candidates that are new to it, which are then marked. -/
def exchange (recipient : PeerId) (candidates : List PexEntry) (t : PexDeltaTracker) : PexDeltaTracker :=
  t.markSent recipient ((t.filterNew recipient candidates).map (·.peerId))

/-- What has been filtered out was known already. -/
theorem knows_exchange {candidates : List PexEntry} : (exchange recipient candidates t).Knows recipient' id ↔
    (recipient' = recipient ∧ id ∈ candidates.map (·.peerId)) ∨ t.Knows recipient' id := by
  unfold exchange
  rw [knows_markSent]
  by_cases hknows : t.Knows recipient' id
  · exact ⟨fun _ => Or.inr hknows, fun _ => Or.inr hknows⟩
  · refine or_congr_left (and_congr_right ?_)
    rintro rfl
    rw [List.mem_map, List.mem_map]
    constructor
    · rintro ⟨entry, hmem, rfl⟩
      exact ⟨entry, (mem_filterNew.mp hmem).1, rfl⟩
    · rintro ⟨entry, hmem, rfl⟩
      exact ⟨entry, mem_filterNew.mpr ⟨hmem, hknows⟩, rfl⟩

end PexDeltaTracker

open PexDeltaTracker

/-! ### Runs -/

inductive Call
  | markSent (recipient : PeerId) (sentPeers : List PeerId)
  | exchange (recipient : PeerId) (candidates : List PexEntry)
  | removeRecipient (recipient : PeerId)

def apply (t : PexDeltaTracker) : Call → PexDeltaTracker
  | .markSent recipient sentPeers => t.markSent recipient sentPeers
  | .exchange recipient candidates => exchange recipient candidates t
  | .removeRecipient recipient => t.removeRecipient recipient

/-- The tracker after the calls. -/
def after (calls : List Call) : PexDeltaTracker := calls.foldl apply new

/-- After the call the recipient has been told of the peer. -/
def Call.Tells (recipient id : PeerId) : Call → Prop
  | .markSent recipient' sentPeers => recipient = recipient' ∧ id ∈ sentPeers
  | .exchange recipient' candidates => recipient = recipient' ∧ id ∈ candidates.map (·.peerId)
  | .removeRecipient _ => False

def Call.Removes (recipient : PeerId) : Call → Prop
  | .removeRecipient recipient' => recipient = recipient'
  | .markSent .. | .exchange .. => False

variable {recipient id : PeerId} {calls : List Call}

theorem knows_apply {t : PexDeltaTracker} (c : Call) :
    (apply t c).Knows recipient id ↔ c.Tells recipient id ∨ t.Knows recipient id ∧ ¬ c.Removes recipient := by
  cases c with
  | markSent recipient' sentPeers =>
    exact knows_markSent.trans (or_congr_right (and_iff_left not_false).symm)
  | exchange recipient' candidates =>
    exact knows_exchange.trans (or_congr_right (and_iff_left not_false).symm)
  | removeRecipient recipient' =>
    exact knows_removeRecipient.trans (and_comm.trans (or_iff_right not_false).symm)

/-- **What the tracker knows**: what the recipient has been told since it was last removed. -/
theorem knows_after_iff :
    (after calls).Knows recipient id ↔ Since (Call.Tells recipient id) (Call.Removes recipient) calls := by
  induction calls using List.reverseRecOn with
  | nil => exact iff_of_false not_knows_new not_since_nil
  | append_singleton calls c ih =>
    have happly : after (calls ++ [c]) = apply (after calls) c := List.foldl_concat apply new c calls
    rw [happly, since_concat, knows_apply, ih]

open Classical in
/-- **What a recipient is sent**: the candidates that it has not been told of since it was last removed, in their
order and as often as they come. -/
theorem filterNew_after_iff (calls : List Call) (recipient : PeerId) (candidates : List PexEntry) :
    (after calls).filterNew recipient candidates = candidates.filter fun entry =>
      ¬ Since (Call.Tells recipient entry.peerId) (Call.Removes recipient) calls := by
  refine List.filter_congr fun entry _ => ?_
  rw [Bool.eq_iff_iff, decide_eq_true_iff, ← knows_after_iff]
  unfold Knows
  rcases (after calls).known.get? recipient with _ | s
  · simp
  · simp

/-- **It is told of each once.** Two messages have no peer in common, unless the recipient is removed in between,
whatever else is told to it and to others. -/
theorem told_once {before middle : List Call} {candidates candidates' : List PexEntry}
    (hkept : .removeRecipient recipient ∉ middle) {entry entry' : PexEntry}
    (h : entry ∈ (after before).filterNew recipient candidates)
    (h' : entry' ∈ (after (before ++ .exchange recipient candidates :: middle)).filterNew recipient candidates') :
    entry.peerId ≠ entry'.peerId := by
  intro heq
  obtain ⟨-, hnew⟩ := mem_filterNew.mp h'
  refine hnew (knows_after_iff.mpr ⟨before, _, middle, rfl, ?_, fun c hc hremoves => ?_⟩)
  · exact ⟨rfl, List.mem_map.mpr ⟨entry, (mem_filterNew.mp h).1, heq⟩⟩
  · cases c with
    | removeRecipient recipient' =>
      obtain rfl : recipient = recipient' := hremoves
      exact hkept hc
    | markSent => exact hremoves
    | exchange => exact hremoves

/-- A peer with the same byte everywhere in its id. -/
def samplePeer (b : UInt8) : PexEntry := ⟨Vector.replicate 32 b, [b], ⟨false, true, false, false, false⟩⟩

theorem told_once_two : (samplePeer 1).peerId ≠ (samplePeer 2).peerId := by
  have hkept : Call.removeRecipient (samplePeer 0).peerId ∉ [Call.removeRecipient (samplePeer 3).peerId] := by
    intro hmem
    have hid := Call.removeRecipient.inj (List.mem_singleton.mp hmem)
    exact absurd hid (by decide)
  exact @told_once (samplePeer 0).peerId [] [.removeRecipient (samplePeer 3).peerId] [samplePeer 1]
    [samplePeer 1, samplePeer 2] hkept (samplePeer 1) (samplePeer 2) (by decide) (by decide)

end CncContent.Peers.Exchange
