import CncContent.Lib.Bounded
import CncContent.Lib.Runs
import Mathlib.Algebra.Order.Field.Rat

/-! # Mirror health

`MirrorEntry` of the source: the requests to a mirror, and the tier that follows from them and from the
failure detector. A Dead mirror is to be contacted only when `shouldProbe` allows it. The clock of the probes
starts when the mirror is declared Dead and is not set again while it stays Dead: the first probe comes an
interval later, and the second one whenever the caller likes. So the contacts with a Dead mirror are kept an
interval apart exactly by the runs in which every probe brings the mirror back (`sparing_iff`). The value of
the detector is any number; an instant or a duration is a number of nanoseconds. -/

namespace CncContent.Peers.MirrorHealth

open CncContent.Lib.Bounded CncContent.Lib.Runs

def maxLatencySamples : ℕ := 100
def healthyPhi : ℚ := 3
def suspectPhi : ℚ := 5
def deadPhi : ℚ := 8
def consecutiveFailureThreshold : ℕ := 3

/-- 300 seconds. -/
def deadProbeInterval : ℕ := 300 * 10 ^ 9

inductive HealthTier
  | healthy
  | suspect
  | degraded
  | dead
deriving DecidableEq, Repr

structure MirrorEntry where
  latencies : List ℕ
  totalRequests : ℕ
  totalSuccesses : ℕ
  consecutiveFailures : ℕ
  lastSuccess : Option ℕ
  lastDeadAt : Option ℕ
  tier : HealthTier
deriving DecidableEq, Repr

namespace MirrorEntry

def new : MirrorEntry := ⟨[], 0, 0, 0, none, none, .healthy⟩

variable (m : MirrorEntry)

def successRate : ℚ := if m.totalRequests = 0 then 1 else m.totalSuccesses / m.totalRequests

/-- The tier as `update_tier` computes it. -/
def classify (phi : ℚ) : HealthTier :=
  if consecutiveFailureThreshold ≤ m.consecutiveFailures ∨ deadPhi ≤ phi then .dead
  else if suspectPhi ≤ phi ∨ m.successRate < 1 / 2 then .degraded
  else if healthyPhi ≤ phi ∨ m.successRate < 9 / 10 then .suspect
  else .healthy

def updateTier (phi : ℚ) (now : ℕ) : MirrorEntry :=
  { m with
    tier := m.classify phi
    lastDeadAt := if m.classify phi = .dead ∧ m.tier ≠ .dead then some now else m.lastDeadAt }

/-- The window of the last latencies. -/
def pushLatency (latency : ℕ) : List ℕ :=
  (if maxLatencySamples ≤ m.latencies.length then m.latencies.tail else m.latencies) ++ [latency]

def recordSuccess (latency : ℕ) (phi : ℚ) (now : ℕ) : MirrorEntry :=
  { m with
    totalRequests := satAdd u64Max m.totalRequests 1
    totalSuccesses := satAdd u64Max m.totalSuccesses 1
    consecutiveFailures := 0
    lastSuccess := some now
    latencies := m.pushLatency latency }.updateTier phi now

def recordFailure (phi : ℚ) (now : ℕ) : MirrorEntry :=
  { m with
    totalRequests := satAdd u64Max m.totalRequests 1
    consecutiveFailures := satAdd u32Max m.consecutiveFailures 1 }.updateTier phi now

def shouldProbe (now : ℕ) : Bool :=
  if m.tier ≠ .dead then false
  else
    match m.lastDeadAt with
    | some deadAt => deadProbeInterval ≤ now - deadAt
    | none => false

end MirrorEntry

/-! ### Contacts -/

/-- How a contact ends: with the latency of a response, or without one. -/
inductive Result
  | success (latency : ℕ)
  | failure
deriving DecidableEq, Repr

structure Contact where
  now : ℕ
  /-- What the failure detector says after the contact. -/
  phi : ℚ
  result : Result
deriving DecidableEq, Repr

def MirrorEntry.record (m : MirrorEntry) (c : Contact) : MirrorEntry :=
  match c.result with
  | .success latency => m.recordSuccess latency c.phi c.now
  | .failure => m.recordFailure c.phi c.now

/-- A mirror with the time of the last contact, and the times of the contacts since it was declared Dead, that
one included, the latest first. -/
structure Watched where
  mirror : MirrorEntry
  clock : ℕ
  stay : List ℕ
deriving DecidableEq, Repr

namespace Watched

def start : Watched := ⟨.new, 0, []⟩

variable (w : Watched)

/-- Time does not go back, and a Dead mirror is only probed. -/
def Allowed (now : ℕ) : Prop := w.clock ≤ now ∧ (w.mirror.tier = .dead → w.mirror.shouldProbe now = true)

instance (now : ℕ) : Decidable (w.Allowed now) := inferInstanceAs (Decidable (_ ∧ _))

def contact (c : Contact) : Watched where
  mirror := w.mirror.record c
  clock := c.now
  stay :=
    if (w.mirror.record c).tier ≠ .dead then []
    else if w.mirror.tier = .dead then c.now :: w.stay
    else [c.now]

def step (c : Contact) : Option Watched := if w.Allowed c.now then some (w.contact c) else none

/-- The contacts of the stay are an interval apart. -/
def Spaced : Prop := w.stay.Pairwise fun later earlier => earlier + deadProbeInterval ≤ later

instance : Decidable w.Spaced := inferInstanceAs (Decidable (List.Pairwise _ _))

/-- The contacts of the stay are an interval apart, and so is the next one, whenever it is allowed. -/
structure Sparing : Prop where
  spaced : w.Spaced
  next : w.mirror.tier = .dead → ∀ now, w.Allowed now → ∀ t ∈ w.stay, t + deadProbeInterval ≤ now

/-- A contact with a Dead mirror brings it back: the detector does not say that it is dead, and it responds,
or has not failed often enough in a row. -/
def Revives (c : Contact) : Prop :=
  w.mirror.tier = .dead → c.phi < deadPhi ∧
    (c.result = .failure → w.mirror.consecutiveFailures + 1 < consecutiveFailureThreshold)

instance (c : Contact) : Decidable (w.Revives c) := inferInstanceAs (Decidable (_ → _))

end Watched

/-! ### Steps -/

section Steps

variable {m : MirrorEntry} {w w' : Watched} {c : Contact}

theorem classify_eq_dead_iff {phi : ℚ} : m.classify phi = .dead ↔
    consecutiveFailureThreshold ≤ m.consecutiveFailures ∨ deadPhi ≤ phi := by
  unfold MirrorEntry.classify
  split_ifs with hdead
  · exact iff_of_true rfl hdead
  all_goals exact iff_of_false nofun hdead

theorem tier_record : (m.record c).tier = .dead ↔ deadPhi ≤ c.phi ∨
    c.result = .failure ∧ consecutiveFailureThreshold ≤ m.consecutiveFailures + 1 := by
  unfold MirrorEntry.record
  cases hres : c.result with
  | success latency =>
    have hzero : ¬ consecutiveFailureThreshold ≤ 0 := by decide
    refine classify_eq_dead_iff.trans ⟨fun h => Or.inl (h.resolve_left hzero), fun h => ?_⟩
    exact Or.inr (h.resolve_right fun hf => nomatch hf.1)
  | failure =>
    refine classify_eq_dead_iff.trans ?_
    have hsat : consecutiveFailureThreshold ≤ satAdd u32Max m.consecutiveFailures 1 ↔
        consecutiveFailureThreshold ≤ m.consecutiveFailures + 1 := by
      have hmax : consecutiveFailureThreshold ≤ u32Max := by decide
      unfold satAdd
      omega
    rw [or_comm, hsat]
    exact or_congr_right (and_iff_right rfl).symm

/-- **The clock of the probes** is set only when the mirror is declared Dead. -/
theorem lastDeadAt_record : (m.record c).lastDeadAt =
    if (m.record c).tier = .dead ∧ m.tier ≠ .dead then some c.now else m.lastDeadAt := by
  unfold MirrorEntry.record
  cases c.result <;> rfl

theorem shouldProbe_iff {now deadAt : ℕ} (htier : m.tier = .dead) (h : m.lastDeadAt = some deadAt) :
    m.shouldProbe now = true ↔ deadProbeInterval ≤ now - deadAt := by
  unfold MirrorEntry.shouldProbe
  rw [if_neg (not_not_intro htier), h]
  exact decide_eq_true_iff

/-- The clock of a Dead mirror shows the first contact of its stay; after another one it has run out. -/
def Inv (w : Watched) : Prop :=
  w.mirror.tier = .dead → ∃ deadAt, w.mirror.lastDeadAt = some deadAt ∧
    (w.stay = [deadAt] ∧ w.clock = deadAt ∨ w.clock ∈ w.stay ∧ deadProbeInterval ≤ w.clock - deadAt)

theorem sparing_of_ne_dead (h : w.mirror.tier ≠ .dead) (hstay : w.stay = []) : w.Sparing :=
  ⟨by unfold Watched.Spaced; rw [hstay]; exact List.Pairwise.nil, fun hdead => absurd hdead h⟩

/-- While the contacts are spaced, whatever comes next, a Dead mirror has not been probed yet. -/
theorem stay_of_sparing (hinv : Inv w) (h : w.Sparing) (hdead : w.mirror.tier = .dead) :
    ∃ deadAt, w.mirror.lastDeadAt = some deadAt ∧ w.stay = [deadAt] := by
  obtain ⟨deadAt, hlast, ⟨hstay, -⟩ | ⟨hmem, hout⟩⟩ := hinv hdead
  · exact ⟨deadAt, hlast, hstay⟩
  · -- otherwise it could be contacted again at once
    have hallowed : w.Allowed w.clock := ⟨Nat.le_refl _, fun _ => (shouldProbe_iff hdead hlast).mpr hout⟩
    have hnext := h.next hdead w.clock hallowed w.clock hmem
    have hpos : 0 < deadProbeInterval := by decide
    omega

theorem step_eq_some_iff : w.step c = some w' ↔ w.Allowed c.now ∧ w.contact c = w' := by
  unfold Watched.step
  split_ifs with h
  · exact Option.some_inj.trans (and_iff_right h).symm
  · exact iff_of_false nofun fun h' => h h'.1

theorem inv_contact (hinv : Inv w) (hallowed : w.Allowed c.now) : Inv (w.contact c) := by
  intro hdead
  have hdead' : (w.mirror.record c).tier = .dead := hdead
  have hlast : (w.contact c).mirror.lastDeadAt =
      if (w.mirror.record c).tier = .dead ∧ w.mirror.tier ≠ .dead then some c.now
      else w.mirror.lastDeadAt := lastDeadAt_record
  have hstay : (w.contact c).stay =
      if w.mirror.tier = .dead then c.now :: w.stay else [c.now] := if_neg (not_not_intro hdead')
  by_cases hold : w.mirror.tier = .dead
  · obtain ⟨deadAt, hdeadAt, -⟩ := hinv hold
    rw [if_pos hold] at hstay
    rw [if_neg fun h => h.2 hold] at hlast
    refine ⟨deadAt, hlast.trans hdeadAt, Or.inr ⟨?_, ?_⟩⟩
    · rw [hstay]
      exact List.mem_cons_self
    · exact (shouldProbe_iff hold hdeadAt).mp (hallowed.2 hold)
  · rw [if_neg hold] at hstay
    rw [if_pos ⟨hdead', hold⟩] at hlast
    exact ⟨c.now, hlast, Or.inl ⟨hstay, rfl⟩⟩

theorem revives_iff (hdead : w.mirror.tier = .dead) :
    w.Revives c ↔ (w.mirror.record c).tier ≠ .dead := by
  rw [Ne, tier_record, not_or, not_le, not_and, not_le]
  exact forall_prop_of_true hdead

/-- **A contact** keeps the later ones apart exactly if it brings a Dead mirror back. -/
theorem sparing_contact_iff (hinv : Inv w) (h : w.Sparing) (hallowed : w.Allowed c.now) :
    (w.contact c).Sparing ↔ w.Revives c := by
  by_cases hold : w.mirror.tier = .dead
  · rw [revives_iff hold]
    refine ⟨fun hs hdead => ?_, fun hne => sparing_of_ne_dead hne (if_pos hne)⟩
    -- the clock still shows the first contact, so that nothing stands in the way of a third one
    obtain ⟨deadAt, -, hstay⟩ := stay_of_sparing hinv h hold
    obtain ⟨deadAt', -, hstay'⟩ := stay_of_sparing (inv_contact hinv hallowed) hs hdead
    have hlong : (w.contact c).stay = c.now :: w.stay :=
      (if_neg (not_not_intro hdead)).trans (if_pos hold)
    rw [hlong, hstay] at hstay'
    exact absurd (List.cons.inj hstay').2 (List.cons_ne_nil _ _)
  · refine iff_of_true ?_ fun hdead => absurd hdead hold
    by_cases hdead : (w.mirror.record c).tier = .dead
    · have hstay : (w.contact c).stay = [c.now] :=
        (if_neg (not_not_intro hdead)).trans (if_neg hold)
      have hlast : (w.contact c).mirror.lastDeadAt = some c.now :=
        lastDeadAt_record.trans (if_pos ⟨hdead, hold⟩)
      refine ⟨?_, fun _ now hnow t ht => ?_⟩
      · unfold Watched.Spaced
        rw [hstay]
        exact List.pairwise_singleton _ _
      · rw [hstay] at ht
        obtain rfl := List.mem_singleton.mp ht
        have hgap := (shouldProbe_iff hdead hlast).mp (hnow.2 hdead)
        have hle : c.now ≤ now := hnow.1
        have hpos : 0 < deadProbeInterval := by decide
        omega
    · exact sparing_of_ne_dead hdead (if_pos hdead)

end Steps

/-! ### Runs -/

/-- **The contacts with a Dead mirror are kept an interval apart** in the runs whose probes bring the mirror
back, and in no others: after a probe that leaves it Dead the next contact is allowed at once. -/
theorem sparing_iff (contacts : List Contact) :
    Always Watched.step Watched.Sparing .start contacts ↔
      Meets Watched.step (fun w c => w.Allowed c.now → w.Revives c) .start contacts := by
  refine always_iff_meets (I := Inv) (fun w c w' hinv _ hs => ?_) (fun w c w' hinv h hs => ?_)
    (fun w c _ _ hnone hallowed => ?_) nofun (sparing_of_ne_dead nofun rfl)
  · obtain ⟨hallowed, rfl⟩ := step_eq_some_iff.mp hs
    exact inv_contact hinv hallowed
  · obtain ⟨hallowed, rfl⟩ := step_eq_some_iff.mp hs
    exact (sparing_contact_iff hinv h hallowed).trans ⟨fun hr _ => hr, fun hr => hr hallowed⟩
  · have hsome : w.step c = some (w.contact c) := if_pos hallowed
    rw [hsome] at hnone
    cases hnone

/-- Three failures in a row make the mirror Dead at once. -/
def died : List Contact := [⟨0, 0, .failure⟩, ⟨0, 0, .failure⟩, ⟨0, 0, .failure⟩]

/-- **A Dead mirror is probed again at once** when a probe has failed. -/
theorem probed_twice : ¬ Always Watched.step Watched.Spaced .start
    (died ++ [⟨deadProbeInterval, 0, .failure⟩, ⟨deadProbeInterval + 1, 0, .failure⟩]) := by
  decide +kernel

end CncContent.Peers.MirrorHealth
