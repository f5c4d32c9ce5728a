import CncContent.Lib.Runs
import CncContent.Peers.Tracker
import Mathlib.Tactic.Linarith
import Mathlib.Tactic.NormNum
import Mathlib.Tactic.Positivity

/-! # Success rates and scores

A peer is scored fairly if it has served no more pieces than were requested: then the success rate
is a fraction, and the composite score is at most 1000 (`fair_iff`). Every event keeps that. A
reputation that is restored presets the served pieces only, so that the score stays fair exactly if
the preset is covered by pieces that were requested before (`fair_iff_covered`). -/

namespace CncContent.Peers.Scores

open CncContent.Lib.Bounded CncContent.Lib.Runs CncContent.Peers.Tracker

/-! ### One peer -/

section Stats

variable (s : PeerStats)

theorem castU64_le {x : ℚ} {n : ℕ} (h : x ≤ n) : castU64 x ≤ n := by
  have hfloor : x.floor ≤ (n : ℤ) := by
    have hle : ((⌊x⌋ : ℤ) : ℚ) ≤ ((n : ℤ) : ℚ) := by
      rw [Int.cast_natCast]
      exact (Int.floor_le x).trans h
    exact Int.cast_le.mp hle
  refine (Nat.min_le_left _ _).trans ?_
  omega

theorem speedRatio_mem (referenceSpeed : ℕ) :
    0 ≤ s.speedRatio referenceSpeed ∧ s.speedRatio referenceSpeed ≤ 1 := by
  unfold PeerStats.speedRatio
  split_ifs with h
  · exact ⟨le_min (by positivity) zero_le_one, min_le_right _ _⟩
  · norm_num

theorem availability_mem : 0 ≤ s.availability ∧ s.availability ≤ 1 := by
  refine ⟨le_max_right _ _, max_le ?_ zero_le_one⟩
  have hnonneg : 0 ≤ (s.disconnectCount : ℚ) / maxDisconnects := by
    unfold maxDisconnects
    positivity
  linarith

theorem recency_mem (now : ℕ) : 0 ≤ s.recency now ∧ s.recency now ≤ 1 := by
  unfold PeerStats.recency
  rcases s.lastSuccessAt with _ | t
  · dsimp only
    split_ifs <;> norm_num
  · dsimp only
    split_ifs with h
    · norm_num
    · set age := asSecs (durationSince now t)
      have hpos : (0 : ℚ) < recencyWindowSecs := by norm_num [recencyWindowSecs]
      have hle : (age : ℚ) / recencyWindowSecs ≤ 1 := by
        rw [div_le_one hpos]
        exact_mod_cast (not_le.mp h).le
      have hnonneg : 0 ≤ (age : ℚ) / recencyWindowSecs := by positivity
      constructor <;> linarith

theorem multiplier_mem (l : TrustLevel) : 0 ≤ l.multiplier ∧ l.multiplier ≤ 1 := by
  cases l <;> norm_num [TrustLevel.multiplier]

theorem successRate_nonneg : 0 ≤ s.successRate := by
  unfold PeerStats.successRate
  split_ifs <;> positivity

variable {s}

theorem successRate_le_one (h : s.piecesServed ≤ s.piecesRequested) : s.successRate ≤ 1 := by
  unfold PeerStats.successRate
  split_ifs with h0
  · exact le_rfl
  · have hpos : (0 : ℚ) < s.piecesRequested := by exact_mod_cast Nat.pos_of_ne_zero h0
    rw [div_le_one hpos]
    exact_mod_cast h

/-- **The score is at most 1000** if the success rate is a fraction. -/
theorem compositeScore_le (h : s.successRate ≤ 1) (referenceSpeed now : ℕ) :
    s.compositeScore referenceSpeed now ≤ 1000 := by
  obtain ⟨hs0, hs1⟩ := speedRatio_mem s referenceSpeed
  obtain ⟨ha0, ha1⟩ := availability_mem s
  obtain ⟨hr0, hr1⟩ := recency_mem s now
  obtain ⟨hm0, hm1⟩ := multiplier_mem s.trustLevel
  have h0 := successRate_nonneg s
  set raw := s.speedRatio referenceSpeed * weightSpeed + s.successRate * weightReliability +
    s.availability * weightAvailability + s.recency now * weightRecency with hraw
  have hraw0 : 0 ≤ raw := by positivity
  have hraw1 : raw ≤ 1000 := by
    rw [hraw]
    norm_num [weightSpeed, weightReliability, weightAvailability, weightRecency]
    linarith
  refine castU64_le ?_
  calc raw * s.trustLevel.multiplier ≤ raw * 1 := mul_le_mul_of_nonneg_left hm1 hraw0
    _ ≤ ((1000 : ℕ) : ℚ) := by rw [mul_one]; exact_mod_cast hraw1

/-- What is fair about the statistics of a peer. -/
structure Fair (s : PeerStats) : Prop where
  served : s.piecesServed ≤ s.piecesRequested
  rate : 0 ≤ s.successRate ∧ s.successRate ≤ 1
  score : ∀ referenceSpeed now, s.compositeScore referenceSpeed now ≤ 1000

theorem fair_iff : Fair s ↔ s.piecesServed ≤ s.piecesRequested :=
  ⟨Fair.served, fun h => ⟨h, ⟨successRate_nonneg s, successRate_le_one h⟩,
    compositeScore_le (successRate_le_one h)⟩⟩

/-- **An event** counts a request, and at most one served piece. -/
theorem record_counts (s : PeerStats) (e : PeerEvent) :
    (s.record e).piecesRequested = satAdd u32Max s.piecesRequested 1 ∧
      ((s.record e).piecesServed = s.piecesServed ∨
        (s.record e).piecesServed = satAdd u32Max s.piecesServed 1) := by
  cases e with
  | success bytes fetchDuration now => exact ⟨rfl, Or.inr rfl⟩
  | failure now => exact ⟨rfl, Or.inl rfl⟩
  | corruption now => exact ⟨rfl, Or.inl rfl⟩
  | timeout now => exact ⟨rfl, Or.inl rfl⟩
  | rejection reason now => exact ⟨rfl, Or.inl rfl⟩

end Stats

/-! ### The tracker -/

theorem forall_mem_modify {α : Type*} {P : α → Prop} {l : List α} (h : ∀ x ∈ l, P x) (i : ℕ)
    (f : α → α) : (∀ x ∈ l.modify i f, P x) ↔ ∀ x ∈ l[i]?, P (f x) := by
  constructor
  · intro hall x hx
    refine hall (f x) (List.mem_iff_getElem?.mpr ⟨i, ?_⟩)
    rw [List.getElem?_modify_eq, Option.mem_def.mp hx]
    rfl
  · intro hi y hy
    obtain ⟨j, hj⟩ := List.mem_iff_getElem?.mp hy
    rw [List.getElem?_modify] at hj
    obtain ⟨x, hx, hy⟩ := Option.map_eq_some_iff.mp hj
    split_ifs at hy with hij
    · subst hy hij
      exact hi x hx
    · subst hy
      exact h x (List.mem_of_getElem? hx)

/-- All peers are fairly scored. -/
def AllFair (t : PeerTracker) : Prop := ∀ s ∈ t.stats, Fair s

/-- A preset of the served pieces is covered by the requested ones. -/
def PresetCovered (t : PeerTracker) : Action → Prop
  | .record _ _ => True
  | .register peerIndex id => ∀ s ∈ t.stats[peerIndex]?,
    ∀ rep ∈ findReputation t.priorReputations id,
      rep.banned = true ∨ rep.trustLevel.threshold ≤ s.piecesRequested

theorem allFair_start (peerCount now : ℕ) (prior : List PeerReputation) :
    AllFair (.withPriorReputation peerCount now prior) := by
  intro s hs
  rw [List.eq_of_mem_replicate hs]
  exact fair_iff.mpr le_rfl

/-- A served count that fits its field stays fair. -/
theorem Fair.record {s : PeerStats} (h : Fair s) (hu : s.piecesServed ≤ u32Max) (e : PeerEvent) :
    Fair (s.record e) := by
  obtain ⟨hrequested, hserved⟩ := record_counts s e
  have hle := h.served
  rw [fair_iff, hrequested]
  unfold satAdd at *
  rcases hserved with hserved | hserved
  · rw [hserved]
    omega
  · rw [hserved]
    omega

/-- **A restored reputation** presets the served pieces, unless the peer is banned. -/
theorem restore_counts (rep : PeerReputation) (s : PeerStats) :
    (rep.restore s).piecesRequested = s.piecesRequested ∧
      (rep.restore s).piecesServed =
        if rep.banned then s.piecesServed else rep.trustLevel.threshold := by
  unfold PeerReputation.restore
  cases rep.banned with
  | false => exact ⟨rfl, rfl⟩
  | true => exact ⟨rfl, rfl⟩

theorem fair_restore_iff {s : PeerStats} (h : Fair s) (rep : PeerReputation) :
    Fair (rep.restore s) ↔
      rep.banned = true ∨ rep.trustLevel.threshold ≤ s.piecesRequested := by
  obtain ⟨hrequested, hserved⟩ := restore_counts rep s
  rw [fair_iff, hrequested, hserved]
  split_ifs with hb
  · exact ⟨fun _ => Or.inl hb, fun _ => h.served⟩
  · exact ⟨Or.inr, fun hor => hor.resolve_left hb⟩

/-- The served counts fit their fields. -/
def Fits (t : PeerTracker) : Prop := ∀ s ∈ t.stats, s.piecesServed ≤ u32Max

theorem fits_start (peerCount now : ℕ) (prior : List PeerReputation) :
    Fits (.withPriorReputation peerCount now prior) := by
  intro s hs
  rw [List.eq_of_mem_replicate hs]
  exact Nat.zero_le _

theorem fits_step {t t' : PeerTracker} {a : Action} (h : Fits t) (hs : step t a = some t') :
    Fits t' := by
  cases a with
  | record i e =>
    cases hs
    refine (forall_mem_modify h i _).mpr fun s hs => ?_
    have hle := h s (List.mem_of_getElem? hs)
    rcases (record_counts s e).2 with hserved | hserved
    · rw [hserved]
      exact hle
    · rw [hserved]
      exact Nat.min_le_right _ _
  | register i id =>
    cases hs
    unfold Fits PeerTracker.registerIdentity
    dsimp only
    rcases findReputation t.priorReputations id with _ | rep
    · exact h
    · refine (forall_mem_modify h i _).mpr fun s hs => ?_
      rw [(restore_counts rep s).2]
      split_ifs
      · exact h s (List.mem_of_getElem? hs)
      · cases rep.trustLevel <;> decide

/-- **One call** keeps the peers fairly scored exactly if its preset is covered. -/
theorem allFair_step_iff {t t' : PeerTracker} {a : Action} (hf : Fits t) (h : AllFair t)
    (hs : step t a = some t') : AllFair t' ↔ PresetCovered t a := by
  cases a with
  | record i e =>
    cases hs
    exact ⟨fun _ => trivial, fun _ => (forall_mem_modify h i _).mpr fun s hs =>
      (h s (List.mem_of_getElem? hs)).record (hf s (List.mem_of_getElem? hs)) e⟩
  | register i id =>
    cases hs
    unfold PresetCovered AllFair PeerTracker.registerIdentity
    dsimp only
    rcases findReputation t.priorReputations id with _ | rep
    · exact ⟨fun _ _ _ _ hrep => absurd hrep (by simp), fun _ => h⟩
    · refine (forall_mem_modify h i _).trans ?_
      have hiff : ∀ s ∈ t.stats[i]?, Fair (rep.restore s) ↔
          rep.banned = true ∨ rep.trustLevel.threshold ≤ s.piecesRequested :=
        fun s hs => fair_restore_iff (h s (List.mem_of_getElem? hs)) rep
      constructor
      · intro hall s hs _ hrep
        cases hrep
        exact (hiff s hs).mp (hall s hs)
      · exact fun hall s hs => (hiff s hs).mpr (hall s hs rep rfl)

/-- **When all peers are fairly scored throughout a session**, whatever is recorded in it: exactly if
every preset is covered. -/
theorem fair_iff_covered (peerCount now : ℕ) (prior : List PeerReputation)
    (actions : List Action) :
    Always step AllFair (.withPriorReputation peerCount now prior) actions ↔
      Meets step PresetCovered (.withPriorReputation peerCount now prior) actions :=
  always_iff_meets (I := Fits) (fun _ _ _ hf _ hs => fits_step hf hs)
    (fun _ _ _ hf h hs => allFair_step_iff hf h hs) (fun _ a _ _ hs => by cases a <;> cases hs)
    (fits_start peerCount now prior) (allFair_start peerCount now prior)

/-! ### A returning peer -/

def returningId : PeerId := ⟨Vector.replicate 32 0x2A, .random⟩

def returningReputation : PeerReputation := ⟨returningId, .trusted, 10, 0, 0, 0, false⟩

/-- **A preset is not covered**: a trusted peer comes back and its first request fails. -/
theorem preset_over_requested : ∃ t s,
    run step (.withPriorReputation 1 0 [returningReputation])
      [.register 0 returningId, .record 0 (.failure 0)] = some t ∧ t.stats = [s] ∧
    s.piecesServed = 10 ∧ s.piecesRequested = 1 ∧ s.successRate = 10 ∧
      s.compositeScore t.referenceSpeed 0 = 3450 :=
  ⟨_, _, rfl, rfl, rfl, rfl, by decide +kernel, by decide +kernel⟩

end CncContent.Peers.Scores
