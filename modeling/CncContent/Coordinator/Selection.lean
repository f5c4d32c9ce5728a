import CncContent.Coordinator.Worker
import CncContent.Peers.Tracker
import Mathlib.Data.Prod.Lex

/-! # The selection of a peer

`select_peer_with_exclusion` on what it reads: the peers, their statistics and their failure detectors. It
selects a peer whenever one is usable, and the best of the preferred ones if there are any (`select_eq_none_iff`,
`select_usable`, `select_best`). -/

namespace CncContent.Coordinator.Selection

open CncContent.Lib.Bounded CncContent.Peers.Tracker CncContent.Coordinator.Worker

/-! ### Statistics -/

def baseBackoffSecs : ℕ := 5
def maxBackoffSecs : ℕ := 60
def suspectPhiThreshold : ℚ := 3

/-- `should_back_off`. -/
def shouldBackOff (s : PeerStats) (now : ℕ) : Bool :=
  if !s.lastRejection.any RejectionReason.isTransient || s.consecutiveTransientRejections == 0 then false
  else
    let exponent := min (s.consecutiveTransientRejections - 1) 6
    let backoffSecs := min (satMul u64Max baseBackoffSecs (2 ^ exponent)) maxBackoffSecs
    s.lastFailureAt.any fun t => decide (asSecs (durationSince now t) < backoffSecs)

/-- `is_excluded`. -/
def isExcluded (s : PeerStats) (now : ℕ) : Bool := s.exclusion.any fun e => decide (now < e.excludedUntil)

/-! ### The selection -/

/-- What a peer says about itself. -/
structure Peer where
  hasPiece : ℕ → Bool
  isChoked : Bool
  speedEstimate : ℕ

/-- What the selection reads, with the values of the failure detectors. -/
structure Query where
  peers : List Peer
  minPeerSpeed : ℕ
  pieceIndex : ℕ
  excludedPeer : Option ℕ
  blacklisted : List Bool
  tracker : PeerTracker
  phiDetectors : List ℚ
  now : ℕ

namespace Query

variable (q : Query)

/-- A peer with its statistics. -/
def view (i : ℕ) (p : Peer) : PeerView where
  hasPiece := p.hasPiece q.pieceIndex
  choked := p.isChoked
  speedEstimate := p.speedEstimate
  backOff := q.tracker.stats[i]?.any fun s => shouldBackOff s q.now
  avoid := q.tracker.stats[i]?.any PeerStats.shouldAvoidPermanently
  excluded := q.tracker.stats[i]?.any fun s => isExcluded s q.now
  compositeScore := q.tracker.compositeScore i q.now
  suspect := q.phiDetectors[i]?.any fun phi => suspectPhiThreshold ≤ phi

def selectPeer : Option ℕ :=
  selectPeerWithExclusion q.minPeerSpeed q.excludedPeer q.blacklisted (q.peers.mapIdx q.view)

/-- The peer has the piece and is unchoked, and is neither blacklisted nor to be avoided permanently nor in
timed exclusion. -/
structure Usable (i : ℕ) (p : Peer) : Prop where
  hasPiece : p.hasPiece q.pieceIndex = true
  unchoked : p.isChoked = false
  notBlacklisted : q.blacklisted[i]? ≠ some true
  notAvoided : ∀ s, q.tracker.stats[i]? = some s → s.shouldAvoidPermanently = false
  notExcluded : ∀ s, q.tracker.stats[i]? = some s → isExcluded s q.now = false

/-- A usable peer is moreover not the one that has failed last, fast enough, and not in backoff. -/
structure Preferred (i : ℕ) (p : Peer) : Prop extends q.Usable i p where
  other : q.excludedPeer ≠ some i
  fast : q.minPeerSpeed = 0 ∨ q.minPeerSpeed ≤ p.speedEstimate
  ready : ∀ s, q.tracker.stats[i]? = some s → shouldBackOff s q.now = false

/-- The score of the peer, halved if its detector suspects it, and its speed. -/
def key (i : ℕ) (p : Peer) : ℕ ×ₗ ℕ :=
  let score := q.tracker.compositeScore i q.now
  toLex (if q.phiDetectors[i]?.any fun phi => suspectPhiThreshold ≤ phi then score / 2 else score,
    p.speedEstimate)

end Query

section MaxByKey

variable {α : Type}

theorem foldl_maxByKey (key : α → ℕ × ℕ) : ∀ (l : List α) (b : α), ∃ a,
    l.foldl (fun best a =>
      match best with
      | none => some a
      | some b =>
        if (key b).1 < (key a).1 ∨ (key b).1 = (key a).1 ∧ (key b).2 ≤ (key a).2 then some a
        else some b) (some b) = some a ∧
      a ∈ b :: l ∧ ∀ x ∈ b :: l, toLex (key x) ≤ toLex (key a)
  | [], b => ⟨b, rfl, List.mem_singleton_self b, fun x hx => (List.mem_singleton.mp hx) ▸ le_refl _⟩
  | a :: l, b => by
    have hle : ((key b).1 < (key a).1 ∨ (key b).1 = (key a).1 ∧ (key b).2 ≤ (key a).2) ↔
        toLex (key b) ≤ toLex (key a) := Prod.Lex.toLex_le_toLex.symm
    rw [List.foldl_cons]
    dsimp only
    split_ifs with h
    · obtain ⟨m, hm, hmem, hmax⟩ := foldl_maxByKey key l a
      refine ⟨m, hm, List.mem_cons_of_mem b hmem, fun x hx => ?_⟩
      rcases List.mem_cons.mp hx with rfl | hx
      · exact (hle.mp h).trans (hmax a List.mem_cons_self)
      · exact hmax x hx
    · obtain ⟨m, hm, hmem, hmax⟩ := foldl_maxByKey key l b
      refine ⟨m, hm, ?_, fun x hx => ?_⟩
      · rcases List.mem_cons.mp hmem with rfl | hmem
        · exact List.mem_cons_self
        · exact List.mem_cons_of_mem _ (List.mem_cons_of_mem _ hmem)
      · rcases List.mem_cons.mp hx with rfl | hx
        · exact hmax x List.mem_cons_self
        · rcases List.mem_cons.mp hx with rfl | hx
          · exact (le_of_not_ge fun hge => h (hle.mpr hge)).trans (hmax b List.mem_cons_self)
          · exact hmax x (List.mem_cons_of_mem b hx)

variable {key : α → ℕ × ℕ}

theorem maxByKey_eq_none {l : List α} : maxByKey key l = none ↔ l = [] := by
  cases l with
  | nil => exact ⟨fun _ => rfl, fun _ => rfl⟩
  | cons b l =>
    obtain ⟨a, ha, -⟩ := foldl_maxByKey key l b
    refine ⟨fun h => ?_, nofun⟩
    cases ha.symm.trans h

theorem maxByKey_spec {l : List α} {a : α} (h : maxByKey key l = some a) :
    a ∈ l ∧ ∀ x ∈ l, toLex (key x) ≤ toLex (key a) := by
  cases l with
  | nil => cases h
  | cons b l =>
    obtain ⟨a', ha', hspec⟩ := foldl_maxByKey key l b
    cases ha'.symm.trans h
    exact hspec

end MaxByKey

/-! ### What is selected -/

/-- Both selections ask for a usable peer. -/
theorem usable_of_select {minPeerSpeed i : ℕ} {excludedPeer : Option ℕ} {blacklisted : List Bool}
    {peers : List PeerView}
    (h : selectPeerWithExclusion minPeerSpeed excludedPeer blacklisted peers = some i) :
    ∃ v, peers[i]? = some v ∧ v.usable (blacklisted[i]?.getD false) = true := by
  have hmem : ∀ v ∈ peers.zipIdx.filter fun v => v.1.usable (blacklisted[v.2]?.getD false),
      ∃ view, peers[v.2]? = some view ∧ view.usable (blacklisted[v.2]?.getD false) = true :=
    fun v hv => ⟨v.1, List.mem_zipIdx_iff_getElem?.mp (List.mem_filter.mp hv).1, (List.mem_filter.mp hv).2⟩
  unfold selectPeerWithExclusion at h
  dsimp only at h
  split at h
  · next v hmax =>
    cases h
    exact hmem v (List.mem_filter.mp (maxByKey_spec hmax).1).1
  · obtain ⟨v, hv, rfl⟩ := Option.map_eq_some_iff.mp h
    exact hmem v (maxByKey_spec hv).1

section Select

variable {q : Query} {i : ℕ} {p : Peer}

theorem any_eq_false_iff {α : Type} {o : Option α} {f : α → Bool} :
    o.any f = false ↔ ∀ a, o = some a → f a = false := by
  cases o with
  | none => exact ⟨fun _ => nofun, fun _ => rfl⟩
  | some a => exact ⟨fun h b hb => Option.some.inj hb ▸ h, fun h => h a rfl⟩

theorem usable_iff : (q.view i p).usable (q.blacklisted[i]?.getD false) = true ↔ q.Usable i p := by
  have hlist : q.blacklisted[i]?.getD false = false ↔ q.blacklisted[i]? ≠ some true := by
    rcases q.blacklisted[i]? with _ | b
    · exact iff_of_true rfl nofun
    · cases b <;> simp
  unfold PeerView.usable
  simp only [Bool.and_eq_true, Bool.not_eq_true', hlist]
  constructor
  · rintro ⟨⟨⟨⟨hhas, hchoked⟩, hblack⟩, havoid⟩, hexcl⟩
    exact ⟨hhas, hchoked, hblack, any_eq_false_iff.mp havoid, any_eq_false_iff.mp hexcl⟩
  · intro h
    exact ⟨⟨⟨⟨h.hasPiece, h.unchoked⟩, h.notBlacklisted⟩, any_eq_false_iff.mpr h.notAvoided⟩,
      any_eq_false_iff.mpr h.notExcluded⟩

/-- The views that both selections consider. -/
def Query.usables (q : Query) : List (PeerView × ℕ) :=
  (q.peers.mapIdx q.view).zipIdx.filter fun v => v.1.usable (q.blacklisted[v.2]?.getD false)

/-- The views that the first selection considers. -/
def Query.eligibles (q : Query) : List (PeerView × ℕ) :=
  q.usables.filter fun v => q.excludedPeer ≠ some v.2 &&
    (q.minPeerSpeed == 0 || q.minPeerSpeed ≤ v.1.speedEstimate) && !v.1.backOff

theorem mem_usables {v : PeerView × ℕ} : v ∈ q.usables ↔
    ∃ p, q.peers[v.2]? = some p ∧ v.1 = q.view v.2 p ∧ q.Usable v.2 p := by
  unfold Query.usables
  rw [List.mem_filter, List.mem_zipIdx_iff_getElem?, List.getElem?_mapIdx, Option.map_eq_some_iff]
  constructor
  · rintro ⟨⟨p, hp, hv⟩, husable⟩
    rw [← hv] at husable
    exact ⟨p, hp, hv.symm, usable_iff.mp husable⟩
  · rintro ⟨p, hp, hv, husable⟩
    rw [hv]
    exact ⟨⟨p, hp, rfl⟩, usable_iff.mpr husable⟩

theorem mem_eligibles {v : PeerView × ℕ} : v ∈ q.eligibles ↔
    ∃ p, q.peers[v.2]? = some p ∧ v.1 = q.view v.2 p ∧ q.Preferred v.2 p := by
  unfold Query.eligibles
  rw [List.mem_filter, mem_usables]
  simp only [Bool.and_eq_true, Bool.or_eq_true, Bool.not_eq_true', decide_eq_true_eq, beq_iff_eq]
  constructor
  · rintro ⟨⟨p, hp, hv, husable⟩, ⟨hother, hfast⟩, hready⟩
    rw [hv] at hfast hready
    exact ⟨p, hp, hv, ⟨husable, hother, hfast, any_eq_false_iff.mp hready⟩⟩
  · rintro ⟨p, hp, hv, hpref⟩
    refine ⟨⟨p, hp, hv, hpref.toUsable⟩, ⟨hpref.other, ?_⟩, ?_⟩
    · rw [hv]
      exact hpref.fast
    · rw [hv]
      exact any_eq_false_iff.mpr hpref.ready

/-- The selection prefers what is eligible. -/
theorem selectPeer_eq (q : Query) : q.selectPeer =
    match maxByKey (fun v => ((if v.1.suspect then v.1.compositeScore / 2 else v.1.compositeScore),
        v.1.speedEstimate)) q.eligibles with
    | some v => some v.2
    | none => (maxByKey (fun v => (v.1.compositeScore, v.1.speedEstimate)) q.usables).map Prod.snd := rfl

theorem select_eq_none_iff : q.selectPeer = none ↔ ∀ i p, q.peers[i]? = some p → ¬ q.Usable i p := by
  have husables : q.usables = [] ↔ ∀ i p, q.peers[i]? = some p → ¬ q.Usable i p := by
    rw [List.eq_nil_iff_forall_not_mem]
    constructor
    · exact fun h i p hp husable => h (q.view i p, i) (mem_usables.mpr ⟨p, hp, rfl, husable⟩)
    · rintro h v hv
      obtain ⟨p, hp, -, husable⟩ := mem_usables.mp hv
      exact h v.2 p hp husable
  rw [selectPeer_eq, ← husables]
  split
  · next v hmax =>
    refine iff_of_false nofun fun hnil => ?_
    have hmem : v ∈ q.usables := (List.mem_filter.mp (maxByKey_spec hmax).1).1
    rw [hnil] at hmem
    cases hmem
  · rw [Option.map_eq_none_iff, maxByKey_eq_none]

/-- **Whoever is selected is usable.** -/
theorem select_usable (h : q.selectPeer = some i) : ∃ p, q.peers[i]? = some p ∧ q.Usable i p := by
  obtain ⟨v, hv, husable⟩ := usable_of_select h
  rw [List.getElem?_mapIdx] at hv
  obtain ⟨p, hp, rfl⟩ := Option.map_eq_some_iff.mp hv
  exact ⟨p, hp, usable_iff.mp husable⟩

/-- **The best of the preferred peers** is selected, if there are any. -/
theorem select_best {j : ℕ} {p' : Peer} (hj : q.peers[j]? = some p') (hpref : q.Preferred j p')
    (h : q.selectPeer = some i) :
    ∃ p, q.peers[i]? = some p ∧ q.Preferred i p ∧ q.key j p' ≤ q.key i p := by
  have hmem : (q.view j p', j) ∈ q.eligibles := mem_eligibles.mpr ⟨p', hj, rfl, hpref⟩
  rw [selectPeer_eq] at h
  split at h
  · next v hmax =>
    cases h
    obtain ⟨hv, hle⟩ := maxByKey_spec hmax
    obtain ⟨p, hp, hview, hpref'⟩ := mem_eligibles.mp hv
    refine ⟨p, hp, hpref', ?_⟩
    have hkey := hle _ hmem
    rw [hview] at hkey
    exact hkey
  · next hnone =>
    rw [maxByKey_eq_none.mp hnone] at hmem
    cases hmem

end Select

end CncContent.Coordinator.Selection
