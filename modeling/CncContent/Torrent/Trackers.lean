import CncContent.Lib.Bounded
import Mathlib.Data.List.Induction

/-! # Announces to a tracker

`TrackerState` of the source: when the next announce to a tracker is due, after each success and after
each failure. Durations and instants are numbers of nanoseconds. The state after a sequence of calls
depends on the failures since the last success (`streak`): the backoff has been doubled once for each of
them (`tracks_perform`), also for the first, so that it is one step ahead of a backoff that starts with
the initial one. The minimal interval of a response is not looked at (`scheduled_iff`). -/

namespace CncContent.Torrent.Trackers

open CncContent.Lib.Bounded

/-- `Duration::from_secs`. -/
def fromSecs (secs : ℕ) : ℕ := secs * 10 ^ 9

def asSecs (duration : ℕ) : ℕ := duration / 10 ^ 9

def defaultAnnounceInterval : ℕ := fromSecs 1800

def minAnnounceInterval : ℕ := fromSecs 60

def maxTrackerFailures : ℕ := 5

def backoffMultiplier : ℕ := 2

def initialBackoff : ℕ := fromSecs 30

def maxBackoff : ℕ := fromSecs 3600

structure CompactPeer where
  ip : Vector UInt8 4
  port : UInt16
deriving DecidableEq, Repr

structure AnnounceResponse where
  interval : ℕ
  minInterval : Option ℕ
  peers : List CompactPeer
deriving DecidableEq, Repr

namespace AnnounceResponse

def new (interval : ℕ) (peers : List CompactPeer) : AnnounceResponse := ⟨interval, none, peers⟩

def withMinInterval (r : AnnounceResponse) (min : ℕ) : AnnounceResponse :=
  { r with minInterval := some min }

end AnnounceResponse

inductive TrackerStatus
  | active
  | degraded
  | dead
deriving DecidableEq, Repr

structure TrackerState where
  url : List UInt8
  status : TrackerStatus
  interval : ℕ
  lastAnnounce : Option ℕ
  nextAnnounce : ℕ
  failures : ℕ
  backoff : ℕ
  cachedPeers : List CompactPeer
deriving DecidableEq, Repr

namespace TrackerState

def new (url : List UInt8) (now : ℕ) : TrackerState :=
  ⟨url, .active, defaultAnnounceInterval, none, now, 0, initialBackoff, []⟩

variable (s : TrackerState)

def recordSuccess (response : AnnounceResponse) (now : ℕ) : TrackerState :=
  let effectiveInterval :=
    if minAnnounceInterval ≤ response.interval then response.interval else minAnnounceInterval
  { s with
    failures := 0
    backoff := initialBackoff
    status := .active
    lastAnnounce := some now
    interval := effectiveInterval
    nextAnnounce := now + effectiveInterval
    cachedPeers := response.peers }

def recordFailure (now : ℕ) : TrackerState :=
  let failures := satAdd u32Max s.failures 1
  let backoffSecs := min (satMul u64Max (asSecs s.backoff) backoffMultiplier) (asSecs maxBackoff)
  { s with
    failures := failures
    lastAnnounce := some now
    status := if maxTrackerFailures ≤ failures then .dead else .degraded
    backoff := fromSecs backoffSecs
    nextAnnounce := now + fromSecs backoffSecs }

end TrackerState

/-! ### Calls -/

inductive Call
  | recordSuccess (response : AnnounceResponse) (now : ℕ)
  | recordFailure (now : ℕ)
deriving DecidableEq, Repr

namespace Call

def isFailure : Call → Bool
  | .recordSuccess _ _ => false
  | .recordFailure _ => true

end Call

def TrackerState.apply (s : TrackerState) : Call → TrackerState
  | .recordSuccess response now => s.recordSuccess response now
  | .recordFailure now => s.recordFailure now

/-- The state after the calls. -/
def perform (url : List UInt8) (start : ℕ) (calls : List Call) : TrackerState :=
  calls.foldl TrackerState.apply (.new url start)

/-- The number of failures since the last success. -/
def streak (calls : List Call) : ℕ := (calls.reverse.takeWhile Call.isFailure).length

theorem streak_concat_success (calls : List Call) (response : AnnounceResponse) (now : ℕ) :
    streak (calls ++ [.recordSuccess response now]) = 0 := by
  unfold streak
  rw [List.reverse_append]
  rfl

theorem streak_concat_failure (calls : List Call) (now : ℕ) :
    streak (calls ++ [.recordFailure now]) = streak calls + 1 := by
  unfold streak
  rw [List.reverse_append]
  rfl

/-! ### The backoff -/

/-- The backoff after some doublings. -/
def doubled (n : ℕ) : ℕ := min (initialBackoff * 2 ^ n) maxBackoff

theorem doubled_zero : initialBackoff = doubled 0 := by decide

/-- The state has counted `n` failures and doubled the backoff for each. -/
structure Tracks (n : ℕ) (s : TrackerState) : Prop where
  failures : s.failures = min n u32Max
  backoff : s.backoff = doubled n

/-- One more doubling. -/
theorem doubled_succ (n : ℕ) : fromSecs (min (satMul u64Max (asSecs (doubled n)) backoffMultiplier)
    (asSecs maxBackoff)) = doubled (n + 1) := by
  have hpow : 2 ^ (n + 1) = 2 * 2 ^ n := Nat.pow_succ'
  unfold doubled fromSecs asSecs satMul initialBackoff maxBackoff backoffMultiplier u64Max fromSecs
  rw [hpow]
  omega

theorem tracks_recordFailure {n : ℕ} {s : TrackerState} (h : Tracks n s) (now : ℕ) :
    Tracks (n + 1) (s.recordFailure now) ∧
      (s.recordFailure now).nextAnnounce = now + doubled (n + 1) := by
  have hbackoff : (s.recordFailure now).backoff = doubled (n + 1) := by
    rw [← doubled_succ, ← h.backoff]
    rfl
  refine ⟨⟨?_, hbackoff⟩, congrArg (now + ·) hbackoff⟩
  show satAdd u32Max s.failures 1 = _
  rw [h.failures]
  exact satAdd_min u32Max n 1

/-- **What the calls leave**: as many doublings as there are failures since the last success. -/
theorem tracks_perform (url : List UInt8) (start : ℕ) (calls : List Call) :
    Tracks (streak calls) (perform url start calls) := by
  induction calls using List.reverseRecOn with
  | nil => exact ⟨rfl, doubled_zero⟩
  | append_singleton calls call ih =>
    unfold perform
    rw [List.foldl_append]
    cases call with
    | recordSuccess response now =>
      rw [streak_concat_success]
      exact ⟨rfl, doubled_zero⟩
    | recordFailure now =>
      rw [streak_concat_failure]
      exact (tracks_recordFailure ih now).1

/-! ### The schedule -/

/-- What the next announce and the status are to be right after a call. -/
def Scheduled (calls : List Call) (s : TrackerState) : Call → Prop
  | .recordSuccess response now => s.nextAnnounce =
      now + max (max response.interval (response.minInterval.getD 0)) minAnnounceInterval
  | .recordFailure now =>
      s.nextAnnounce = now + min (initialBackoff * 2 ^ (streak calls - 1)) maxBackoff ∧
        (s.status = .dead ↔ maxTrackerFailures ≤ streak calls)

/-- The minimal interval, if there is one, does not matter; or the backoff is at its bound. -/
def Unaffected (calls : List Call) : Call → Prop
  | .recordSuccess response _ =>
      ∀ m ∈ response.minInterval, m ≤ max response.interval minAnnounceInterval
  | .recordFailure _ => 8 ≤ streak calls

theorem scheduled_success_iff {s : TrackerState} {response : AnnounceResponse} {now : ℕ} :
    (s.recordSuccess response now).nextAnnounce =
      now + max (max response.interval (response.minInterval.getD 0)) minAnnounceInterval ↔
    ∀ m ∈ response.minInterval, m ≤ max response.interval minAnnounceInterval := by
  have hnext : (s.recordSuccess response now).nextAnnounce =
      now + max response.interval minAnnounceInterval := by
    show now + (if _ then _ else _) = _
    split_ifs <;> omega
  rw [hnext]
  rcases response.minInterval with _ | m
  · exact ⟨fun _ => nofun, fun _ => by simp⟩
  · rw [Option.getD_some]
    constructor
    · intro h m' hm'
      cases hm'
      omega
    · intro h
      have hm := h m rfl
      omega

/-- The backoff is that of one failure less exactly if it is at its bound. -/
theorem doubled_eq_iff (n : ℕ) : doubled (n + 1) = min (initialBackoff * 2 ^ n) maxBackoff ↔ 7 ≤ n := by
  have hpow : 2 ^ (n + 1) = 2 * 2 ^ n := Nat.pow_succ'
  have hpos := Nat.two_pow_pos n
  unfold doubled
  rw [hpow]
  constructor
  · intro h
    by_contra hlt
    have hle : 2 ^ n ≤ 2 ^ 6 := Nat.pow_le_pow_right (by decide) (by omega)
    unfold initialBackoff maxBackoff fromSecs at h
    omega
  · intro h
    have hle : 2 ^ 7 ≤ 2 ^ n := Nat.pow_le_pow_right (by decide) h
    unfold initialBackoff maxBackoff fromSecs
    omega

theorem dead_iff {n : ℕ} {s : TrackerState} (h : Tracks n s) (now : ℕ) :
    (s.recordFailure now).status = .dead ↔ maxTrackerFailures ≤ n + 1 := by
  have hfailures := (tracks_recordFailure h now).1.failures
  have hstatus : (s.recordFailure now).status =
      if maxTrackerFailures ≤ (s.recordFailure now).failures then .dead else .degraded := rfl
  have hmax : maxTrackerFailures = 5 := rfl
  have hu32 : u32Max = 2 ^ 32 - 1 := rfl
  rw [hstatus, hfailures]
  split_ifs with hle
  · exact ⟨fun _ => by omega, fun _ => rfl⟩
  · exact ⟨nofun, fun hn => absurd (by omega) hle⟩

/-- **What a failure leaves**: the tracker is dead from `maxTrackerFailures` on, and the wait has been doubled for
each failure in a row. -/
theorem perform_failure (url : List UInt8) (start : ℕ) (calls : List Call) (now : ℕ) :
    ((perform url start (calls ++ [.recordFailure now])).status = .dead ↔
        maxTrackerFailures ≤ streak (calls ++ [.recordFailure now])) ∧
      (perform url start (calls ++ [.recordFailure now])).nextAnnounce =
        now + doubled (streak (calls ++ [.recordFailure now])) := by
  have htracks := tracks_perform url start calls
  have hfailed : perform url start (calls ++ [.recordFailure now]) =
      (perform url start calls).recordFailure now := List.foldl_append ..
  rw [hfailed, streak_concat_failure]
  exact ⟨dead_iff htracks now, (tracks_recordFailure htracks now).2⟩

/-- **The schedule after a call**, whatever the calls before it: the next announce is the one that is
due, with the right status, exactly if the call is a success whose minimal interval, if it has one, does
not exceed its interval or the least one, or a failure that is at least the eighth in a row. After each
failure the tracker is dead if and only if `maxTrackerFailures` have come in a row, and the wait is the
one that is due after one failure more. -/
theorem scheduled_iff (url : List UInt8) (start : ℕ) (calls : List Call) :
    (∀ call, Scheduled (calls ++ [call]) (perform url start (calls ++ [call])) call ↔
      Unaffected (calls ++ [call]) call) ∧
    ∀ now, let failed := calls ++ [.recordFailure now]
      ((perform url start failed).status = .dead ↔ maxTrackerFailures ≤ streak failed) ∧
        (perform url start failed).nextAnnounce =
          now + min (initialBackoff * 2 ^ streak failed) maxBackoff := by
  refine ⟨fun call => ?_, perform_failure url start calls⟩
  cases call with
  | recordSuccess response now =>
    have hsuccess : perform url start (calls ++ [.recordSuccess response now]) =
        (perform url start calls).recordSuccess response now := List.foldl_append ..
    rw [hsuccess]
    exact scheduled_success_iff
  | recordFailure now =>
    obtain ⟨hdead, hnext⟩ := perform_failure url start calls now
    unfold Scheduled Unaffected
    rw [streak_concat_failure] at hdead hnext ⊢
    rw [Nat.add_sub_cancel]
    constructor
    · rintro ⟨h, -⟩
      have hsame := Nat.add_left_cancel (hnext.symm.trans h)
      have hle := (doubled_eq_iff _).mp hsame
      omega
    · intro h
      exact ⟨hnext.trans (congrArg (now + ·) ((doubled_eq_iff _).mpr (by omega))), hdead⟩

/-- The first failure, and a response with a minimal interval. -/
theorem first_failure_waits_twice : (perform [] 0 [.recordFailure 0]).nextAnnounce = fromSecs 60 ∧
    (perform [] 0 [.recordSuccess ((AnnounceResponse.new (fromSecs 60) []).withMinInterval
      (fromSecs 300)) 0]).nextAnnounce = fromSecs 60 := by
  decide

end CncContent.Torrent.Trackers
