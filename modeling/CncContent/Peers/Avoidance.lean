import CncContent.Lib.Runs
import CncContent.Peers.Lifetimes

/-! # Permanent avoidance

A peer is to be avoided permanently when it has rejected a request for a permanent reason, or when it
was banned in an earlier session. Only its last rejection is kept, so that a later rejection for
another reason ends the avoidance. It lasts exactly as long as there is none
(`avoided_iff_not_cleared`). -/

namespace CncContent.Peers.Avoidance

open CncContent.Lib.Runs CncContent.Peers.Tracker CncContent.Peers.Scores CncContent.Peers.Lifetimes

/-- The peer is avoided, and banned in every reputation that is taken of it. -/
def Avoided (peerIndex : ℕ) (t : PeerTracker) : Prop :=
  ∃ s, t.stats[peerIndex]? = some s ∧ s.shouldAvoidPermanently = true ∧
    ∀ id nowUnixSecs prior, t.identities[peerIndex]? = some (some id) →
      ∃ rep ∈ t.snapshotReputations nowUnixSecs prior, rep.peerId = id ∧ rep.banned = true

/-- The call makes the peer avoided: a rejection for a permanent reason, or the registration of a
banned peer. -/
def Bans (peerIndex : ℕ) (t : PeerTracker) : Action → Prop
  | .record i (.rejection reason _) => i = peerIndex ∧ reason.isPermanent = true
  | .record _ _ => False
  | .register i id => i = peerIndex ∧
    ∃ rep, findReputation t.priorReputations id = some rep ∧ rep.banned = true

/-- The call is a rejection of the peer for a reason that is not permanent. -/
def Clears (peerIndex : ℕ) : Action → Prop
  | .record i (.rejection reason _) => i = peerIndex ∧ reason.isPermanent = false
  | _ => False

variable {peerIndex : ℕ} {t t' : PeerTracker} {a : Action}

theorem avoided_iff : Avoided peerIndex t ↔
    ∃ s, t.stats[peerIndex]? = some s ∧ s.shouldAvoidPermanently = true := by
  constructor
  · rintro ⟨s, hs, havoid, -⟩
    exact ⟨s, hs, havoid⟩
  · rintro ⟨s, hs, havoid⟩
    refine ⟨s, hs, havoid, fun id nowUnixSecs prior hid => ?_⟩
    refine ⟨s.toReputation id nowUnixSecs (findReputation prior id), ?_, rfl, havoid⟩
    exact List.mem_filterMap.mpr ⟨(s, some id),
      List.mem_of_getElem? (List.getElem?_zip_eq_some.mpr ⟨hs, hid⟩), rfl⟩

/-- **What an event does to the last rejection.** -/
theorem shouldAvoid_record (s : PeerStats) (e : PeerEvent) :
    (s.record e).shouldAvoidPermanently = match e with
      | .rejection reason _ => reason.isPermanent
      | _ => s.shouldAvoidPermanently := by
  cases e <;> rfl

theorem shouldAvoid_restore (rep : PeerReputation) (s : PeerStats) :
    (rep.restore s).shouldAvoidPermanently = (rep.banned || s.shouldAvoidPermanently) := by
  unfold PeerReputation.restore
  cases rep.banned <;> rfl

/-- The statistics of the peer after a call. -/
theorem stats_step {s : PeerStats} (hs : t.stats[peerIndex]? = some s) (h : step t a = some t') :
    ∃ s', t'.stats[peerIndex]? = some s' ∧ match a with
      | .record i e => s' = if i = peerIndex then s.record e else s
      | .register i id => s' = if i = peerIndex then
          ((findReputation t.priorReputations id).map (·.restore s)).getD s else s := by
  cases a with
  | record i e =>
    cases h
    refine ⟨_, ?_, rfl⟩
    show (t.stats.modify i _)[peerIndex]? = _
    rw [List.getElem?_modify, hs]
    split_ifs <;> rfl
  | register i id =>
    cases h
    refine ⟨_, ?_, rfl⟩
    unfold PeerTracker.registerIdentity
    dsimp only
    cases findReputation t.priorReputations id with
    | none =>
      rw [hs]
      split_ifs <;> rfl
    | some rep =>
      dsimp only
      rw [List.getElem?_modify, hs]
      split_ifs <;> rfl

/-- A banning call makes the peer avoided. -/
theorem avoided_of_bans (hlt : peerIndex < t.stats.length) (hb : Bans peerIndex t a)
    (h : step t a = some t') : Avoided peerIndex t' := by
  obtain ⟨s', hs', hcase⟩ := stats_step (List.getElem?_eq_getElem hlt) h
  rw [avoided_iff]
  refine ⟨s', hs', ?_⟩
  cases a with
  | record i e =>
    cases e with
    | rejection reason now =>
      obtain ⟨rfl, hreason⟩ := hb
      rw [hcase, if_pos rfl, shouldAvoid_record]
      exact hreason
    | _ => exact hb.elim
  | register i id =>
    obtain ⟨rfl, rep, hrep, hbanned⟩ := hb
    dsimp only at hcase
    rw [hcase, if_pos rfl, hrep]
    show (rep.restore _).shouldAvoidPermanently = true
    rw [shouldAvoid_restore, hbanned, Bool.true_or]

/-- **One call** leaves the peer avoided exactly if it does not clear it. -/
theorem avoided_step_iff (ha : Avoided peerIndex t) (h : step t a = some t') :
    Avoided peerIndex t' ↔ ¬ Clears peerIndex a := by
  obtain ⟨s, hs, havoid⟩ := avoided_iff.mp ha
  obtain ⟨s', hs', hcase⟩ := stats_step hs h
  have hiff : Avoided peerIndex t' ↔ s'.shouldAvoidPermanently = true := by
    rw [avoided_iff]
    constructor
    · rintro ⟨s'', hs'', h''⟩
      cases hs'.symm.trans hs''
      exact h''
    · exact fun h'' => ⟨s', hs', h''⟩
  rw [hiff]
  cases a with
  | record i e =>
    dsimp only at hcase
    split_ifs at hcase with hi
    · subst hi
      rw [hcase, shouldAvoid_record]
      cases e with
      | rejection reason now => simp [Clears]
      | _ => simp [Clears, havoid]
    · subst hcase
      cases e <;> simp [Clears, havoid, hi]
  | register i id =>
    dsimp only at hcase
    refine ⟨fun _ hclears => hclears, fun _ => ?_⟩
    rw [hcase]
    split_ifs
    · cases findReputation t.priorReputations id with
      | none => exact havoid
      | some rep =>
        show (rep.restore s).shouldAvoidPermanently = true
        rw [shouldAvoid_restore, havoid, Bool.or_true]
    · exact havoid

/-- **How long a peer is avoided**: after a banning call it is avoided throughout the session exactly
if no later call is a rejection of it for another reason. -/
theorem avoided_iff_not_cleared (t t' : PeerTracker) (peerIndex : ℕ) (a : Action)
    (hlt : peerIndex < t.stats.length) (hb : Bans peerIndex t a) (h : step t a = some t')
    (actions : List Action) :
    Always step (Avoided peerIndex) t' actions ↔ ∀ later ∈ actions, ¬ Clears peerIndex later := by
  refine Iff.trans (always_iff_meets (I := fun _ => True) (fun _ _ _ _ _ _ => trivial)
    (fun _ _ _ _ ha hs => avoided_step_iff ha hs) (fun _ a _ _ hs => by cases a <;> cases hs) trivial
    (avoided_of_bans hlt hb h)) (meets_iff_forall fun s later => ?_)
  cases later <;> exact ⟨_, rfl⟩

/-- A ban that nothing clears. -/
theorem avoided_iff_not_cleared_one_peer :
    Always step (Avoided 0) ((PeerTracker.new 1 0).record 0 (.rejection .policyViolation 0))
      [.record 0 (.success 1 1 0), .record 0 (.rejection .maintenance 0)] :=
  (avoided_iff_not_cleared (PeerTracker.new 1 0) _ 0 (.record 0 (.rejection .policyViolation 0))
    Nat.one_pos ⟨rfl, rfl⟩ rfl _).mpr (by simp [Clears, RejectionReason.isPermanent])

/-- **A ban is cleared** by a rejection that says to try again later. -/
theorem ban_cleared : ∃ t t' s,
    step (.new 1 0) (.record 0 (.rejection .policyViolation 0)) = some t ∧
      Bans 0 (.new 1 0) (.record 0 (.rejection .policyViolation 0)) ∧
      run step t [.record 0 (.rejection .rateLimited 0)] = some t' ∧ t'.stats = [s] ∧
      s.shouldAvoidPermanently = false :=
  ⟨_, _, _, rfl, ⟨rfl, rfl⟩, rfl, rfl, rfl⟩

end CncContent.Peers.Avoidance
