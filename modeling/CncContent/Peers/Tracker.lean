import CncContent.Lib.Bounded
import Mathlib.Algebra.Order.Field.Rat
import Mathlib.Data.Rat.Floor

/-! # Peer statistics

`PeerStats`, `PeerReputation` and `PeerTracker` of the source: what is recorded about the peers of a
session, how a peer is scored, and how a reputation is carried to the next session. A floating point
number is an exact rational, an instant or a duration a number of nanoseconds. -/

namespace CncContent.Peers.Tracker

open CncContent.Lib.Bounded

/-! ### Constants and conversions -/

def weightSpeed : ℕ := 400
def weightReliability : ℕ := 300
def weightAvailability : ℕ := 200
def weightRecency : ℕ := 100
def recencyWindowSecs : ℕ := 300
def maxDisconnects : ℚ := 10
def newPeerGraceSecs : ℕ := 10
def ewmaAlpha : ℚ := 3 / 10
def establishedThreshold : ℕ := 3
def trustedThreshold : ℕ := 10

/-- `Duration::MAX`. -/
def durationMax : ℕ := u64Max * 10 ^ 9 + 999999999

/-- `as_secs` of a duration. -/
def asSecs (d : ℕ) : ℕ := d / 10 ^ 9

/-- `as_secs_f64` of a duration. -/
def asSecsF64 (d : ℕ) : ℚ := (d : ℚ) / 10 ^ 9

/-- `duration_since` of two instants, zero if the earlier one is later. -/
def durationSince (now t : ℕ) : ℕ := now - t

/-- The conversion `as u64` of a floating point number. -/
def castU64 (x : ℚ) : ℕ := min x.floor.toNat u64Max

/-! ### Peers -/

inductive PeerIdKind
  | random
  | hashed
  | ed25519
deriving DecidableEq, Repr

structure PeerId where
  bytes : Vector UInt8 32
  kind : PeerIdKind
deriving DecidableEq, Repr

/-- `==` of two identities, which ignores how they were derived. -/
def PeerId.eq (a b : PeerId) : Bool := a.bytes == b.bytes

inductive RejectionReason
  | rateLimited
  | swarmFull
  | insufficientAuth
  | policyViolation
  | maintenance
  | other (detail : String)
deriving DecidableEq, Repr

/-- The reasons that count towards the backoff. -/
def RejectionReason.isTransient : RejectionReason → Bool
  | .rateLimited | .swarmFull => true
  | _ => false

/-- The reasons after which retrying does not help. -/
def RejectionReason.isPermanent : RejectionReason → Bool
  | .policyViolation | .maintenance | .insufficientAuth => true
  | _ => false

inductive ExclusionScope
  | local
  | shared
  | subnet
deriving DecidableEq, Repr

structure ExclusionEntry where
  excludedUntil : ℕ
  exclusionCount : ℕ
  backoff : ℕ
  scope : ExclusionScope
  corroborations : ℕ
deriving DecidableEq, Repr

inductive TrustLevel
  | untested
  | probationary
  | established
  | trusted
deriving DecidableEq, Repr

def TrustLevel.multiplier : TrustLevel → ℚ
  | .untested => 1 / 2
  | .probationary => 7 / 10
  | .established => 9 / 10
  | .trusted => 1

structure PeerReputation where
  peerId : PeerId
  trustLevel : TrustLevel
  lifetimePiecesServed : ℕ
  lifetimeCorruptionCount : ℕ
  avgSpeedBytesPerSec : ℕ
  lastSeenUnixSecs : ℕ
  banned : Bool
deriving DecidableEq, Repr

structure PeerStats where
  piecesServed : ℕ
  piecesRequested : ℕ
  bytesReceived : ℕ
  corruptionCount : ℕ
  timeoutCount : ℕ
  rejectionCount : ℕ
  lastRejection : Option RejectionReason
  cumulativeFetchDuration : ℕ
  peakSpeed : ℕ
  lastSuccessAt : Option ℕ
  lastFailureAt : Option ℕ
  disconnectCount : ℕ
  firstSeen : ℕ
  consecutiveTransientRejections : ℕ
  ewmaSpeed : ℚ
  inParole : Bool
  paroleSuccesses : ℕ
  exclusion : Option ExclusionEntry
deriving DecidableEq, Repr

namespace PeerStats

def new (now : ℕ) : PeerStats where
  piecesServed := 0
  piecesRequested := 0
  bytesReceived := 0
  corruptionCount := 0
  timeoutCount := 0
  rejectionCount := 0
  lastRejection := none
  cumulativeFetchDuration := 0
  peakSpeed := 0
  lastSuccessAt := none
  lastFailureAt := none
  disconnectCount := 0
  firstSeen := now
  consecutiveTransientRejections := 0
  ewmaSpeed := 0
  inParole := false
  paroleSuccesses := 0
  exclusion := none

variable (s : PeerStats)

/-! ### Recording -/

/-- A success after a failure that is not older than the last success. -/
def hadRecentFailure : Bool :=
  s.lastFailureAt.isSome && (match s.lastSuccessAt with
    | none => true
    | some t => s.lastFailureAt.any fun f => decide (t ≤ f))

def recordSuccess (bytes fetchDuration now : ℕ) : PeerStats :=
  let secs := asSecsF64 fetchDuration
  let speed : ℚ := bytes / secs
  { s with
    piecesServed := satAdd u32Max s.piecesServed 1
    piecesRequested := satAdd u32Max s.piecesRequested 1
    bytesReceived := satAdd u64Max s.bytesReceived bytes
    cumulativeFetchDuration := satAdd durationMax s.cumulativeFetchDuration fetchDuration
    consecutiveTransientRejections := 0
    peakSpeed := if 0 < secs then max s.peakSpeed (castU64 speed) else s.peakSpeed
    ewmaSpeed :=
      if 0 < secs then
        if s.ewmaSpeed = 0 then speed else ewmaAlpha * speed + (1 - ewmaAlpha) * s.ewmaSpeed
      else s.ewmaSpeed
    disconnectCount :=
      if s.hadRecentFailure then satAdd u32Max s.disconnectCount 1 else s.disconnectCount
    lastSuccessAt := some now }

def recordFailure (now : ℕ) : PeerStats :=
  { s with
    piecesRequested := satAdd u32Max s.piecesRequested 1
    lastFailureAt := some now }

def recordCorruption (now : ℕ) : PeerStats :=
  { s with corruptionCount := satAdd u32Max s.corruptionCount 1 }.recordFailure now

def recordTimeout (now : ℕ) : PeerStats :=
  { s with timeoutCount := satAdd u32Max s.timeoutCount 1 }.recordFailure now

def recordRejection (reason : RejectionReason) (now : ℕ) : PeerStats :=
  { s with
    rejectionCount := satAdd u32Max s.rejectionCount 1
    consecutiveTransientRejections :=
      if reason.isTransient then
        satAdd u32Max s.consecutiveTransientRejections 1
      else s.consecutiveTransientRejections
    lastRejection := some reason }.recordFailure now

/-! ### Scoring -/

def successRate : ℚ :=
  if s.piecesRequested = 0 then 1 else s.piecesServed / s.piecesRequested

def trustLevel : TrustLevel :=
  if trustedThreshold ≤ s.piecesServed then .trusted
  else if establishedThreshold ≤ s.piecesServed then .established
  else if 0 < s.piecesServed then .probationary
  else .untested

def ewmaSpeedBytesPerSec : ℕ := castU64 s.ewmaSpeed

/-- The speed factor of `composite_score`. -/
def speedRatio (referenceSpeed : ℕ) : ℚ :=
  if 0 < referenceSpeed then min (s.ewmaSpeedBytesPerSec / referenceSpeed) 1 else 1 / 2

/-- The availability factor. -/
def availability : ℚ := max (1 - s.disconnectCount / maxDisconnects) 0

/-- The recency factor. -/
def recency (now : ℕ) : ℚ :=
  match s.lastSuccessAt with
  | some t =>
    let ageSecs := asSecs (durationSince now t)
    if recencyWindowSecs ≤ ageSecs then 0 else 1 - ageSecs / recencyWindowSecs
  | none => if asSecs (durationSince now s.firstSeen) < newPeerGraceSecs then 1 / 2 else 0

def compositeScore (referenceSpeed now : ℕ) : ℕ :=
  let rawScore := s.speedRatio referenceSpeed * weightSpeed + s.successRate * weightReliability +
    s.availability * weightAvailability + s.recency now * weightRecency
  castU64 (rawScore * s.trustLevel.multiplier)

def shouldAvoidPermanently : Bool := s.lastRejection.any RejectionReason.isPermanent

/-! ### Reputations -/

def toReputation (peerId : PeerId) (nowUnixSecs : ℕ) (prior : Option PeerReputation) :
    PeerReputation where
  peerId := peerId
  trustLevel := s.trustLevel
  lifetimePiecesServed :=
    satAdd u64Max ((prior.map (·.lifetimePiecesServed)).getD 0) s.piecesServed
  lifetimeCorruptionCount :=
    satAdd u32Max ((prior.map (·.lifetimeCorruptionCount)).getD 0) s.corruptionCount
  avgSpeedBytesPerSec := s.ewmaSpeedBytesPerSec
  lastSeenUnixSecs := nowUnixSecs
  banned := s.shouldAvoidPermanently

end PeerStats

/-- The pieces a returning peer counts as having served. -/
def TrustLevel.threshold : TrustLevel → ℕ
  | .untested => 0
  | .probationary => 1
  | .established => establishedThreshold
  | .trusted => trustedThreshold

/-- What `register_identity` does to the statistics of a peer with a prior reputation. -/
def PeerReputation.restore (rep : PeerReputation) (s : PeerStats) : PeerStats :=
  if rep.banned then { s with lastRejection := some .policyViolation }
  else
    { s with
      piecesServed := rep.trustLevel.threshold
      ewmaSpeed := if 0 < rep.avgSpeedBytesPerSec then rep.avgSpeedBytesPerSec else s.ewmaSpeed }

structure PeerTracker where
  stats : List PeerStats
  identities : List (Option PeerId)
  priorReputations : List PeerReputation
  sessionStart : ℕ
deriving DecidableEq, Repr

/-- An event about a peer, as the coordinator records it. -/
inductive PeerEvent
  | success (bytes fetchDuration now : ℕ)
  | failure (now : ℕ)
  | corruption (now : ℕ)
  | timeout (now : ℕ)
  | rejection (reason : RejectionReason) (now : ℕ)
deriving DecidableEq, Repr

def PeerStats.record (s : PeerStats) : PeerEvent → PeerStats
  | .success bytes fetchDuration now => s.recordSuccess bytes fetchDuration now
  | .failure now => s.recordFailure now
  | .corruption now => s.recordCorruption now
  | .timeout now => s.recordTimeout now
  | .rejection reason now => s.recordRejection reason now

/-- `find(|r| r.peer_id == id)`. -/
def findReputation (reputations : List PeerReputation) (id : PeerId) : Option PeerReputation :=
  reputations.find? fun r => r.peerId.eq id

namespace PeerTracker

def withPriorReputation (peerCount now : ℕ) (priorReputations : List PeerReputation) :
    PeerTracker where
  stats := List.replicate peerCount (PeerStats.new now)
  identities := List.replicate peerCount none
  priorReputations := priorReputations
  sessionStart := now

def new (peerCount now : ℕ) : PeerTracker := withPriorReputation peerCount now []

variable (t : PeerTracker)

/-- An event for the peer that `get_mut` finds. -/
def record (peerIndex : ℕ) (e : PeerEvent) : PeerTracker :=
  { t with stats := t.stats.modify peerIndex (·.record e) }

def registerIdentity (peerIndex : ℕ) (id : PeerId) : PeerTracker :=
  { t with
    identities := t.identities.set peerIndex (some id)
    stats :=
      match findReputation t.priorReputations id with
      | some rep => t.stats.modify peerIndex rep.restore
      | none => t.stats }

def referenceSpeed : ℕ := (t.stats.map (·.ewmaSpeedBytesPerSec)).foldl max 0

def compositeScore (peerIndex now : ℕ) : ℕ :=
  (t.stats[peerIndex]?.map (·.compositeScore t.referenceSpeed now)).getD 0

def snapshotReputations (nowUnixSecs : ℕ) (priorReputations : List PeerReputation) :
    List PeerReputation :=
  (t.stats.zip t.identities).filterMap fun (stats, idOpt) =>
    idOpt.map fun id => stats.toReputation id nowUnixSecs (findReputation priorReputations id)

end PeerTracker

/-- A call on the tracker. -/
inductive Action
  | record (peerIndex : ℕ) (e : PeerEvent)
  | register (peerIndex : ℕ) (id : PeerId)
deriving DecidableEq, Repr

/-- The tracker after a call; every call is possible. -/
def step (t : PeerTracker) : Action → Option PeerTracker
  | .record peerIndex e => some (t.record peerIndex e)
  | .register peerIndex id => some (t.registerIdentity peerIndex id)

end CncContent.Peers.Tracker
