import CncContent.Lib.Bounded
import CncContent.Workshop.Announcement
import Mathlib.Logic.Function.Basic

/-! # The announcement validator

`AnnouncementValidator` of the source. A verifier of signatures is any function; the maps are
functions of their keys. A validator is driven by calls (`Call`), and `trace` is what they return. -/

namespace CncContent.Workshop.Validator

open CncContent.Lib.Bounded CncContent.Lib.Bytes CncContent.Workshop.Resource
  CncContent.Workshop.Announcement

structure RateLimitConfig where
  maxCount : ℕ
  windowSecs : ℕ
deriving DecidableEq, Repr

structure AnnouncementValidator where
  verifier : PublisherId → List UInt8 → Signature → Bool
  knownSequences : PublisherId × ResourceId → Option ℕ
  revokedPublishers : List PublisherId
  maxClockDriftSecs : ℕ
  maxSequenceJump : ℕ
  rateLimitLog : PublisherId → Option (List ℕ)
  rateLimit : RateLimitConfig

/-- The entries from a time on. -/
def recent (start : ℕ) (log : List ℕ) : List ℕ := log.filter fun ts => decide (start ≤ ts)

namespace AnnouncementValidator

def new (verifier : PublisherId → List UInt8 → Signature → Bool) : AnnouncementValidator where
  verifier := verifier
  knownSequences := fun _ => none
  revokedPublishers := []
  maxClockDriftSecs := 300
  maxSequenceJump := 1000
  rateLimitLog := fun _ => none
  rateLimit := ⟨10, 3600⟩

variable (v : AnnouncementValidator)

def withMaxClockDrift (secs : ℕ) : AnnouncementValidator := { v with maxClockDriftSecs := secs }

def withMaxSequenceJump (jump : ℕ) : AnnouncementValidator := { v with maxSequenceJump := jump }

def withRateLimit (config : RateLimitConfig) : AnnouncementValidator :=
  { v with rateLimit := config }

def revokePublisher (publisher : PublisherId) (_reason : List UInt8) : AnnouncementValidator :=
  { v with revokedPublishers := publisher :: v.revokedPublishers }

/-- `known_sequences.get(&key).copied().unwrap_or(0)`. -/
def knownSequence (key : PublisherId × ResourceId) : ℕ := (v.knownSequences key).getD 0

/-- `rate_limit_log.entry(publisher).or_default()`. -/
def entry (publisher : PublisherId) : List ℕ := (v.rateLimitLog publisher).getD []

/-- The log of a publisher, without the entries outside the window. -/
def log (publisher : PublisherId) (nowSecs : ℕ) : List ℕ :=
  recent (nowSecs - v.rateLimit.windowSecs) (v.entry publisher)

/-- The log is evicted. -/
def evict (publisher : PublisherId) (nowSecs : ℕ) : AnnouncementValidator :=
  { v with rateLimitLog :=
      Function.update v.rateLimitLog publisher (some (v.log publisher nowSecs)) }

/-- All checks passed. -/
def accept (a : VersionAnnouncement) (nowSecs : ℕ) : AnnouncementValidator :=
  { v with
    knownSequences :=
      Function.update v.knownSequences (a.publisherId, a.resource) (some a.sequence.toNat)
    rateLimitLog :=
      Function.update v.rateLimitLog a.publisherId (some (v.log a.publisherId nowSecs ++ [nowSecs])) }

def validate (a : VersionAnnouncement) (nowSecs : ℕ) :
    Except WorkshopError Unit × AnnouncementValidator :=
  let publisher := a.publisherId
  let timestamp := a.timestamp.toNat
  let sequence := a.sequence.toNat
  let knownSeq := v.knownSequence (publisher, a.resource)
  if publisher ∈ v.revokedPublishers then
    (.error (.publisherRevoked (publisherText publisher) "key is on revocation list"), v)
  else if satAdd u64Max nowSecs v.maxClockDriftSecs < timestamp then
    (.error (.futureTimestamp timestamp (timestamp - nowSecs) v.maxClockDriftSecs), v)
  else if v.verifier publisher a.canonicalBytes a.signature = false then
    (.error (.invalidSignature (publisherText publisher) a.resource.toText), v)
  else if sequence ≤ knownSeq then
    (.error (.staleAnnouncement a.resource.toText sequence knownSeq), v)
  else if 0 < knownSeq ∧ v.maxSequenceJump < sequence - knownSeq then
    (.error (.sequenceJumpTooLarge a.resource.toText knownSeq sequence v.maxSequenceJump), v)
  else if v.rateLimit.maxCount ≤ (v.log publisher nowSecs).length then
    (.error (.rateLimitExceeded (publisherText publisher) (v.log publisher nowSecs).length
      v.rateLimit.windowSecs v.rateLimit.maxCount), v.evict publisher nowSecs)
  else (.ok (), v.accept a nowSecs)

end AnnouncementValidator

/-- A call on a validator. -/
inductive Call
  | validate (a : VersionAnnouncement) (nowSecs : ℕ)
  | revoke (publisher : PublisherId) (reason : List UInt8)
deriving DecidableEq

/-- What a call returns, and the validator after it. -/
def AnnouncementValidator.call (v : AnnouncementValidator) :
    Call → Except WorkshopError Unit × AnnouncementValidator
  | .validate a nowSecs => v.validate a nowSecs
  | .revoke publisher reason => (.ok (), v.revokePublisher publisher reason)

/-- The calls of a run with what they return. -/
def trace : AnnouncementValidator → List Call → List (Call × Except WorkshopError Unit)
  | _, [] => []
  | v, c :: cs => (c, (v.call c).1) :: trace (v.call c).2 cs

/-- The times of the calls do not decrease, from the given one on. -/
def Ordered : ℕ → List Call → Prop
  | _, [] => True
  | clock, .validate _ nowSecs :: cs => clock ≤ nowSecs ∧ Ordered nowSecs cs
  | clock, .revoke _ _ :: cs => Ordered clock cs

instance decidableOrdered : ∀ clock cs, Decidable (Ordered clock cs)
  | _, [] => isTrue trivial
  | clock, .validate _ nowSecs :: cs =>
    have := decidableOrdered nowSecs cs
    inferInstanceAs (Decidable (clock ≤ nowSecs ∧ Ordered nowSecs cs))
  | clock, .revoke _ _ :: cs => decidableOrdered clock cs

/-- `test_announcement`. -/
def testAnnouncement (sequence : ℕ) : VersionAnnouncement where
  publisherId := Vector.replicate 32 0xAA
  resource := ⟨text "alice", text "hd-sprites", by decide +kernel, by decide +kernel⟩
  version := ⟨1, UInt32.ofNat sequence, 0⟩
  blobId := Vector.replicate 32 (UInt8.ofNat sequence)
  infoHash := some (Vector.replicate 20 0x42)
  sequence := UInt64.ofNat sequence
  timestamp := 1700000000 + UInt64.ofNat sequence
  signature := Vector.replicate 64 0xBB

/-! ### One call -/

variable {v : AnnouncementValidator} {a : VersionAnnouncement} {nowSecs : ℕ}

/-- The validator admits the announcement. -/
structure Admits (v : AnnouncementValidator) (a : VersionAnnouncement) (nowSecs : ℕ) : Prop where
  not_revoked : a.publisherId ∉ v.revokedPublishers
  timestamp : a.timestamp.toNat ≤ nowSecs + v.maxClockDriftSecs
  signature : v.verifier a.publisherId a.canonicalBytes a.signature = true
  sequence : v.knownSequence (a.publisherId, a.resource) < a.sequence.toNat
  jump : 0 < v.knownSequence (a.publisherId, a.resource) →
    a.sequence.toNat ≤ v.knownSequence (a.publisherId, a.resource) + v.maxSequenceJump
  rate : (v.log a.publisherId nowSecs).length < v.rateLimit.maxCount

/-- **What `validate` does.** An announcement that is refused leaves at most an evicted log. -/
theorem validate_cases (v : AnnouncementValidator) (a : VersionAnnouncement) (nowSecs : ℕ) :
    Admits v a nowSecs ∧ v.validate a nowSecs = (.ok (), v.accept a nowSecs) ∨
      ∃ e, v.validate a nowSecs = (.error e, v) ∨
        v.validate a nowSecs = (.error e, v.evict a.publisherId nowSecs) := by
  unfold AnnouncementValidator.validate
  dsimp only
  split_ifs with hrevoked hfuture hsignature hstale hjump hrate
  · exact Or.inr ⟨_, Or.inl rfl⟩
  · exact Or.inr ⟨_, Or.inl rfl⟩
  · exact Or.inr ⟨_, Or.inl rfl⟩
  · exact Or.inr ⟨_, Or.inl rfl⟩
  · exact Or.inr ⟨_, Or.inl rfl⟩
  · exact Or.inr ⟨_, Or.inr rfl⟩
  · refine Or.inl ⟨⟨hrevoked, ?_, ?_, not_le.mp hstale, fun hpos => ?_, not_le.mp hrate⟩, rfl⟩
    · unfold satAdd at hfuture
      omega
    · exact Bool.eq_true_of_not_eq_false hsignature
    · have hle := fun hlt => hjump ⟨hpos, hlt⟩
      omega

/-- What is accepted was admitted. -/
theorem accept_of_ok (h : (v.validate a nowSecs).1 = .ok ()) :
    Admits v a nowSecs ∧ (v.validate a nowSecs).2 = v.accept a nowSecs := by
  rcases validate_cases v a nowSecs with ⟨hadmits, hok⟩ | ⟨e, hsame | hevict⟩
  · exact ⟨hadmits, congrArg Prod.snd hok⟩
  · rw [hsame] at h
    cases h
  · rw [hevict] at h
    cases h

/-! ### Logs -/

theorem recent_recent {s t : ℕ} (h : s ≤ t) (log : List ℕ) :
    recent t (recent s log) = recent t log := by
  unfold recent
  rw [List.filter_filter]
  refine List.filter_congr fun ts _ => ?_
  rw [← Bool.decide_and, decide_eq_decide]
  exact ⟨And.left, fun ht => ⟨ht, h.trans ht⟩⟩

/-- What agrees from a time on agrees from every later time on. -/
theorem recent_congr {s t : ℕ} (h : s ≤ t) {log log' : List ℕ} (heq : recent s log = recent s log') :
    recent t log = recent t log' := by
  rw [← recent_recent h log, heq, recent_recent h log']

theorem entry_evict (p q : PublisherId) (nowSecs : ℕ) :
    (v.evict p nowSecs).entry q = if q = p then v.log p nowSecs else v.entry q := by
  unfold AnnouncementValidator.evict AnnouncementValidator.entry
  dsimp only
  by_cases hq : q = p
  · subst hq
    rw [if_pos rfl, Function.update_self]
    rfl
  · rw [if_neg hq, Function.update_of_ne hq]

theorem entry_accept (a : VersionAnnouncement) (q : PublisherId) (nowSecs : ℕ) :
    (v.accept a nowSecs).entry q =
      if q = a.publisherId then v.log a.publisherId nowSecs ++ [nowSecs] else v.entry q := by
  unfold AnnouncementValidator.accept AnnouncementValidator.entry
  dsimp only
  by_cases hq : q = a.publisherId
  · subst hq
    rw [if_pos rfl, Function.update_self]
    rfl
  · rw [if_neg hq, Function.update_of_ne hq]

/-- The second validator differs from the first in its logs only, and there before a time only. -/
structure Alike (start : ℕ) (v v' : AnnouncementValidator) : Prop where
  eq : v' = { v with rateLimitLog := v'.rateLimitLog }
  entry : ∀ p, recent start (v'.entry p) = recent start (v.entry p)

theorem Alike.refl (start : ℕ) (v : AnnouncementValidator) : Alike start v v := ⟨rfl, fun _ => rfl⟩

theorem Alike.symm {start : ℕ} {v v' : AnnouncementValidator} (h : Alike start v v') :
    Alike start v' v := by
  refine ⟨?_, fun p => (h.entry p).symm⟩
  rw [h.eq]

theorem Alike.trans {start : ℕ} {v v' v'' : AnnouncementValidator} (h : Alike start v v')
    (h' : Alike start v' v'') : Alike start v v'' := by
  refine ⟨?_, fun p => (h'.entry p).trans (h.entry p)⟩
  rw [h'.eq, h.eq]

theorem Alike.rateLimit {start : ℕ} {v v' : AnnouncementValidator} (h : Alike start v v') :
    v'.rateLimit = v.rateLimit := by
  rw [h.eq]

theorem Alike.mono {s t : ℕ} (h : s ≤ t) {v v' : AnnouncementValidator} (ha : Alike s v v') :
    Alike t v v' :=
  ⟨ha.eq, fun p => recent_congr h (ha.entry p)⟩

theorem alike_evict (v : AnnouncementValidator) (p : PublisherId) (nowSecs : ℕ) :
    Alike (nowSecs - v.rateLimit.windowSecs) v (v.evict p nowSecs) := by
  refine ⟨rfl, fun q => ?_⟩
  rw [entry_evict]
  by_cases hq : q = p
  · rw [if_pos hq, hq]
    exact recent_recent le_rfl _
  · rw [if_neg hq]

/-- **A refused announcement leaves the validator alike.** -/
theorem alike_of_refused {e : WorkshopError} (h : (v.validate a nowSecs).1 = .error e) :
    Alike (nowSecs - v.rateLimit.windowSecs) v (v.validate a nowSecs).2 := by
  rcases validate_cases v a nowSecs with ⟨-, hok⟩ | ⟨e', hsame | hevict⟩
  · rw [hok] at h
    cases h
  · rw [hsame]
    exact Alike.refl _ v
  · rw [hevict]
    exact alike_evict v _ _

end CncContent.Workshop.Validator
