import CncContent.Coordinator.Selection
import CncContent.Coordinator.Steps

/-! # The blacklist in a run

A peer that has sent corrupt data `max_peer_failures` times is blacklisted when the last of them is charged to
it. A worker charges corrupt data before it selects the next peer, so that a single worker never fetches from
such a peer again (`not_fetching_run`). -/

namespace CncContent.Coordinator.Blacklist

open CncContent.Lib.Bounded CncContent.Lib.Runs CncContent.Storage.File CncContent.Torrent.PieceMap
open CncContent.Coordinator.Worker CncContent.Coordinator.Run CncContent.Coordinator.Selection

section Blacklist

variable {σ : Type} {c : Setup σ} {s s' : State σ} {pc pc' : Pc} {e : Effect} {peer : ℕ}

/-! ### Corrupt data -/

/-- The peer whose data do not match in the step of a worker. -/
def corrupt (c : Setup σ) (world : World) : Pc → Option ℕ
  | .fetchPiece p peer =>
    match world.fetched with
    | some data => if verifyPiece c p data then none else some peer
    | none => none
  | _ => none

/-- The peer whose data do not match in this step. -/
def mismatch (c : Setup σ) (s : State σ) : Action → Option ℕ
  | .worker w world => s.workers[w]?.bind (corrupt c world)
  | .cancel => none

/-- How often the data of the peer do not match in a run. -/
def mismatches (c : Setup σ) (peer : ℕ) : State σ → List Action → ℕ
  | _, [] => 0
  | s, a :: as =>
    (if mismatch c s a = some peer then 1 else 0) +
      match step c s a with
      | some s' => mismatches c peer s' as
      | none => 0

/-- The peer that a worker fetches from. -/
def fetching : Pc → Option ℕ
  | .fetchPiece _ peer => some peer
  | _ => none

/-- The peer whose corrupt data the worker has yet to charge. -/
def blaming : Pc → Option ℕ
  | .markFailed _ (.hash peer) => some peer
  | .charge _ (.hash peer) => some peer
  | _ => none

/-- What a step of a worker does about the peers. -/
inductive PeerMove (c : Setup σ) (s : State σ) (world : World) : Pc → Pc → Effect → Prop
  | other {pc pc' : Pc} {e : Effect} (hfetch : fetching pc = none) (hfetch' : fetching pc' = none)
      (hblame : blaming pc' = blaming pc) (hcharge : ∀ p peer, e ≠ .charge p (.hash peer)) :
      PeerMove c s world pc pc' e
  | select {p peer : ℕ} (hpeer : peer < c.peerCount)
      (hlist : s.peerBlacklisted[peer]?.getD false = false) :
      PeerMove c s world (.selectPeer p) (.fetchPiece p peer) .none
  | fetched {p peer : ℕ} {pc' : Pc} {e : Effect} (hfetch' : fetching pc' = none)
      (hblame : blaming pc' = if ∃ data, world.fetched = some data ∧ verifyPiece c p data = false
        then some peer else none) (hcharge : ∀ p peer, e ≠ .charge p (.hash peer)) :
      PeerMove c s world (.fetchPiece p peer) pc' e
  | charge {p peer : ℕ} : PeerMove c s world (.charge p (.hash peer)) .checkCancel (.charge p (.hash peer))

theorem peerMove_tryClaim {world : World} {m : SharedPieceMap} {otherwise : Pc} {p : ℕ}
    (h : tryClaim m p otherwise = (pc', e)) (hfetch : fetching pc = none) (hblame : blaming pc = none)
    (hfetch' : fetching otherwise = none) (hblame' : blaming otherwise = none) :
    PeerMove c s world pc pc' e := by
  unfold tryClaim at h
  split_ifs at h
  · cases h
    exact .other hfetch rfl hblame.symm fun _ _ h => by cases h
  · cases h
    exact .other hfetch hfetch' (hblame'.trans hblame.symm) fun _ _ h => by cases h

/-- **What a step does about the peers.** -/
theorem next_peers {world : World} (h : next c s world pc = some (pc', e)) :
    PeerMove c s world pc pc' e := by
  cases pc with
  | checkCancel | checkFatal =>
    cases h
    split_ifs <;> exact .other rfl rfl rfl fun _ _ h => by cases h
  | checkComplete _ _ | countDone _ _ | collectNeeded _ _ | idleComplete _ _ | idleScan _ | snapshot _ _ =>
    rw [next] at h
    split_ifs at h <;> cases h <;> exact .other rfl rfl rfl fun _ _ h => by cases h
  | lockReset =>
    rw [next] at h
    split_ifs at h
    cases h
    exact .other rfl rfl rfl fun _ _ h => by cases h
  | resetScan i endgame =>
    rw [next] at h
    unfold claimNextPiece at h
    split_ifs at h <;> cases h <;> exact .other rfl rfl rfl fun _ _ h => by cases h
  | resetTry i endgame =>
    cases h
    split_ifs <;> exact .other rfl rfl rfl fun _ _ h => by cases h
  | nextNeeded rounds i =>
    cases rounds with
    | zero =>
      cases h
      exact .other rfl rfl rfl fun _ _ h => by cases h
    | succ rounds =>
      rw [next] at h
      split_ifs at h <;> cases h <;> exact .other rfl rfl rfl fun _ _ h => by cases h
  | claimBulk rounds i => exact peerMove_tryClaim (Option.some.inj h) rfl rfl rfl rfl
  | claimSelected needed =>
    rw [next] at h
    rcases hsel : world.selected with _ | p
    · rw [hsel] at h
      cases h
      exact .other rfl rfl rfl fun _ _ h => by cases h
    · rw [hsel] at h
      exact peerMove_tryClaim (Option.some.inj h) rfl rfl rfl rfl
  | claimRest needed =>
    cases needed with
    | nil =>
      cases h
      exact .other rfl rfl rfl fun _ _ h => by cases h
    | cons p needed => exact peerMove_tryClaim (Option.some.inj h) rfl rfl rfl rfl
  | selectPeer p =>
    rw [next] at h
    split_ifs at h with hlock
    rcases hsel : selectPeerWithExclusion c.config.minPeerSpeed (s.lastFailedPeer[p]?.join)
      s.peerBlacklisted world.peers with _ | peer
    · rw [hsel] at h
      cases h
      exact .other rfl rfl rfl fun _ _ h => by cases h
    · rw [hsel] at h
      cases h
      obtain ⟨v, hv, husable⟩ := usable_of_select hsel
      refine .select (hlock.2 ▸ (List.getElem?_eq_some_iff.mp hv).1) ?_
      unfold PeerView.usable at husable
      simp only [Bool.and_eq_true, Bool.not_eq_true'] at husable
      exact husable.1.1.2
  | fetchPiece p peer =>
    rw [next] at h
    rcases hf : world.fetched with _ | data
    · rw [hf] at h
      cases h
      refine .fetched rfl (if_neg ?_).symm fun _ _ h => by cases h
      rintro ⟨data, hdata, -⟩
      cases hf.symm.trans hdata
    · rw [hf] at h
      dsimp only at h
      split_ifs at h with hv
      · cases h
        refine .fetched rfl (if_neg ?_).symm fun _ _ h => by cases h
        rintro ⟨data', hdata, hbad⟩
        cases hf.symm.trans hdata
        cases hv.symm.trans hbad
      · cases h
        exact .fetched rfl (if_pos ⟨data, hf, Bool.eq_false_iff.mpr hv⟩).symm fun _ _ h => by cases h
  | markFailed p cause =>
    cases h
    cases cause <;> exact .other rfl rfl rfl fun _ _ h => by cases h
  | charge p cause =>
    rw [next] at h
    split_ifs at h
    cases h
    cases cause with
    | noPeer | fetch peer => exact .other rfl rfl rfl fun _ _ h => by cases h
    | hash peer => exact .charge
  | writePiece p data =>
    rw [next] at h
    rcases hw : (c.backend.writePiece s.storage p (c.info.pieceOffset p) data).1 with e | u
    all_goals
      rw [hw] at h
      cases h
      exact .other rfl rfl rfl fun _ _ h => by cases h
  | storageFailed p e | storeFatal p e | markDone p data =>
    cases h
    exact .other rfl rfl rfl fun _ _ h => by cases h
  | success data =>
    rw [next] at h
    split_ifs at h <;> cases h <;> exact .other rfl rfl rfl fun _ _ h => by cases h
  | stopped held => cases h

/-! ### One worker -/

/-- Corrupt data of the peer that the worker has yet to charge. -/
def owed (peer : ℕ) (pc : Pc) : ℕ := if blaming pc = some peer then 1 else 0

/-- There is one worker, and it has charged corrupt data to the peer `k` times. -/
structure Counted (c : Setup σ) (peer k : ℕ) (s : State σ) (pc : Pc) : Prop where
  alone : s.workers = [pc]
  failures_length : s.peerFailures.length = c.peerCount
  blacklisted_length : s.peerBlacklisted.length = c.peerCount
  fetching_lt : ∀ q, fetching pc = some q → q < c.peerCount
  blaming_lt : ∀ q, blaming pc = some q → q < c.peerCount
  failures : s.peerFailures[peer]?.getD 0 = min k u32Max
  blacklisted : 0 < c.config.maxPeerFailures → c.config.maxPeerFailures ≤ k →
    s.peerBlacklisted[peer]?.getD false = true
  spared : fetching pc = some peer → s.peerBlacklisted[peer]?.getD false = false

/-- Only a charge for corrupt data changes what is counted. -/
theorem perform_of_ne_charge (w : ℕ) (h : ∀ p peer, e ≠ .charge p (.hash peer)) :
    (perform c w s e).workers = s.workers ∧ (perform c w s e).peerFailures = s.peerFailures ∧
      (perform c w s e).peerBlacklisted = s.peerBlacklisted := by
  cases e with
  | charge p cause =>
    cases cause with
    | hash peer => exact absurd rfl (h p peer)
    | noPeer | fetch peer => exact ⟨rfl, rfl, rfl⟩
  | _ => exact ⟨rfl, rfl, rfl⟩

/-- The worker is elsewhere, and nothing has been charged. -/
theorem Counted.move {k : ℕ} (h : Counted c peer k s pc) (hw : s'.workers = [pc'])
    (hf : s'.peerFailures = s.peerFailures) (hb : s'.peerBlacklisted = s.peerBlacklisted)
    (hfetch : ∀ q, fetching pc' = some q → q < c.peerCount)
    (hspared : fetching pc' = some peer → s.peerBlacklisted[peer]?.getD false = false)
    (hblame : ∀ q, blaming pc' = some q → q < c.peerCount) : Counted c peer k s' pc' where
  alone := hw
  failures_length := hf ▸ h.failures_length
  blacklisted_length := hb ▸ h.blacklisted_length
  fetching_lt := hfetch
  blaming_lt := hblame
  failures := hf ▸ h.failures
  blacklisted := hb ▸ h.blacklisted
  spared := hb ▸ hspared

/-- **A charge** for corrupt data puts the peer on the list when it is the last one allowed. -/
theorem Counted.charge {k p q : ℕ} (hmax : c.config.maxPeerFailures ≤ u32Max)
    (h : Counted c peer k s (.charge p (.hash q))) (hw : s'.workers = [.checkCancel])
    (hf : s'.peerFailures = s.peerFailures.set q (satAdd u32Max (s.peerFailures[q]?.getD 0) 1))
    (hb : s'.peerBlacklisted = if 0 < c.config.maxPeerFailures ∧
        c.config.maxPeerFailures ≤ satAdd u32Max (s.peerFailures[q]?.getD 0) 1 then
      s.peerBlacklisted.set q true else s.peerBlacklisted) :
    Counted c peer (k + if q = peer then 1 else 0) s' .checkCancel := by
  have hq : q < c.peerCount := h.blaming_lt q rfl
  have hget : ∀ j, s'.peerBlacklisted[j]?.getD false = true ↔
      s.peerBlacklisted[j]?.getD false = true ∨ j = q ∧ 0 < c.config.maxPeerFailures ∧
        c.config.maxPeerFailures ≤ satAdd u32Max (s.peerFailures[q]?.getD 0) 1 := by
    intro j
    rw [hb]
    split_ifs with hlast
    · by_cases hj : q = j
      · subst hj
        rw [List.getElem?_set_self (h.blacklisted_length.symm ▸ hq)]
        exact iff_of_true rfl (Or.inr ⟨rfl, hlast⟩)
      · rw [List.getElem?_set_ne hj]
        exact (or_iff_left fun hr => hj hr.1.symm).symm
    · exact (or_iff_left fun hr => hlast hr.2).symm
  refine ⟨hw, ?_, ?_, nofun, nofun, ?_, fun hpos hle => (hget peer).mpr ?_, nofun⟩
  · rw [hf, List.length_set]
    exact h.failures_length
  · rw [hb]
    split_ifs
    · rw [List.length_set]
      exact h.blacklisted_length
    · exact h.blacklisted_length
  · have hfail := h.failures
    rw [hf]
    by_cases hj : q = peer
    · subst hj
      rw [List.getElem?_set_self (h.failures_length.symm ▸ hq), if_pos rfl, Option.getD_some, hfail,
        satAdd_min]
    · rw [List.getElem?_set_ne hj, if_neg hj]
      exact hfail
  · by_cases hj : q = peer
    · subst hj
      rw [if_pos rfl] at hle
      refine Or.inr ⟨rfl, hpos, ?_⟩
      rw [h.failures, satAdd_min]
      exact le_min hle hmax
    · rw [if_neg hj] at hle
      exact Or.inl (h.blacklisted hpos hle)

theorem corrupt_of_not_fetching {world : World} (h : fetching pc = none) : corrupt c world pc = none := by
  cases pc with
  | fetchPiece p q => cases h
  | _ => rfl

theorem corrupt_fetching {world : World} {p q : ℕ} : corrupt c world (.fetchPiece p q) =
    if ∃ data, world.fetched = some data ∧ verifyPiece c p data = false then some q else none := by
  unfold corrupt
  cases world.fetched with
  | none => simp
  | some data => cases hv : verifyPiece c p data <;> simp [hv]

/-- **A step** of a single worker counts the corrupt data. -/
theorem counted_step {k : ℕ} {a : Action} (hmax : c.config.maxPeerFailures ≤ u32Max)
    (h : Counted c peer k s pc) (ha : step c s a = some s') :
    ∃ pc' k', Counted c peer k' s' pc' ∧
      k' + owed peer pc' = k + owed peer pc + if mismatch c s a = some peer then 1 else 0 := by
  cases a with
  | cancel =>
    cases ha
    exact ⟨pc, k, h.move h.alone rfl rfl h.fetching_lt h.spared h.blaming_lt, rfl⟩
  | worker w world =>
    obtain ⟨pc₀, hpc, h'⟩ := Option.bind_eq_some_iff.mp ha
    obtain ⟨⟨pc', e⟩, hnext, h''⟩ := Option.bind_eq_some_iff.mp h'
    cases h''
    rw [h.alone] at hpc
    obtain ⟨rfl, rfl⟩ : w = 0 ∧ pc = pc₀ := by
      cases w with
      | zero => exact ⟨rfl, Option.some.inj hpc⟩
      | succ w => cases hpc
    have hmove := next_peers hnext
    have hworkers : ∀ ws, ws = s.workers → ws.set 0 pc' = [pc'] := fun ws hws => by
      rw [hws, h.alone]
      rfl
    have hmismatch : mismatch c s (.worker 0 world) = corrupt c world pc := by
      unfold mismatch
      rw [h.alone]
      rfl
    rw [hmismatch]
    cases hmove with
    | other hfetch hfetch' hblame hcharge =>
      obtain ⟨hws, hf, hb⟩ := perform_of_ne_charge (c := c) (s := s) 0 hcharge
      refine ⟨pc', k, h.move (hworkers _ hws) hf hb (fun q hq => ?_) (fun hq => ?_) fun q hq => ?_, ?_⟩
      · cases hfetch'.symm.trans hq
      · cases hfetch'.symm.trans hq
      · exact h.blaming_lt q (hblame ▸ hq)
      · rw [corrupt_of_not_fetching hfetch]
        unfold owed
        rw [hblame]
        rfl
    | select hpeer hlist =>
      refine ⟨_, k, h.move (hworkers _ rfl) rfl rfl (fun q hq => ?_) (fun hq => ?_) nofun, ?_⟩
      · cases hq
        exact hpeer
      · cases hq
        exact hlist
      · rw [corrupt_of_not_fetching rfl]
        rfl
    | fetched hfetch' hblame hcharge =>
      obtain ⟨hws, hf, hb⟩ := perform_of_ne_charge (c := c) (s := s) 0 hcharge
      refine ⟨pc', k, h.move (hworkers _ hws) hf hb (fun q hq => ?_) (fun hq => ?_) fun q hq => ?_, ?_⟩
      · cases hfetch'.symm.trans hq
      · cases hfetch'.symm.trans hq
      · rw [hblame] at hq
        split_ifs at hq
        exact h.fetching_lt q hq
      · unfold owed
        rw [corrupt_fetching, hblame]
        rfl
    | @charge p q =>
      refine ⟨_, _, h.charge hmax (hworkers _ rfl) rfl rfl, ?_⟩
      rw [corrupt_of_not_fetching rfl]
      unfold owed
      simp only [blaming, Option.some.injEq]
      rfl

/-- **A run** of a single worker counts the corrupt data. -/
theorem counted_run (hmax : c.config.maxPeerFailures ≤ u32Max) :
    ∀ {actions : List Action} {s : State σ} {pc : Pc} {k : ℕ}, Counted c peer k s pc →
      run (step c) s actions = some s' → ∃ pc' k', Counted c peer k' s' pc' ∧
        k' + owed peer pc' = k + owed peer pc + mismatches c peer s actions
  | [], s, pc, k, h, hrun => by
    cases hrun
    exact ⟨pc, k, h, rfl⟩
  | a :: actions, s, pc, k, h, hrun => by
    obtain ⟨t, ht, hrun⟩ := run_cons_some hrun
    obtain ⟨pc', k', h', hk'⟩ := counted_step hmax h ht
    obtain ⟨pc'', k'', h'', hk''⟩ := counted_run hmax h' hrun
    refine ⟨pc'', k'', h'', ?_⟩
    rw [mismatches, ht, hk'', hk']
    exact Nat.add_assoc _ _ _

theorem counted_start {verifiedPieces : Option (List Bool)} {checkpoint : Option (List UInt8)}
    (hone : concurrency c = 1) (h : begin c verifiedPieces checkpoint = .ok s) :
    Counted c peer 0 s .checkCancel := by
  obtain ⟨storage, -, rfl⟩ := begin_ok h
  refine ⟨?_, List.length_replicate, List.length_replicate, nofun, nofun, ?_, fun hpos hle => ?_, nofun⟩
  · show List.replicate (concurrency c) Pc.checkCancel = _
    rw [hone]
    rfl
  · show (List.replicate c.peerCount 0)[peer]?.getD 0 = _
    rw [List.getElem?_replicate]
    split_ifs <;> rfl
  · omega

/-- No worker is about to fetch a piece from the peer. -/
def NotFetching (peer : ℕ) (s : State σ) : Prop := ∀ pc ∈ s.workers, fetching pc ≠ some peer

theorem Counted.notFetching {k : ℕ} (h : Counted c peer k s pc) (hpos : 0 < c.config.maxPeerFailures)
    (hle : c.config.maxPeerFailures ≤ k + owed peer pc) : NotFetching peer s := by
  intro pc' hpc' hfetch
  rw [h.alone] at hpc'
  obtain rfl := List.mem_singleton.mp hpc'
  have howed : owed peer pc' = 0 := by
    cases pc' with
    | fetchPiece p q => rfl
    | _ => cases hfetch
  rw [howed] at hle
  cases (h.spared hfetch).symm.trans (h.blacklisted hpos hle)

end Blacklist

/-! ### The selection and the run -/

/-- **What the selection promises**: it selects a peer whenever one is usable, and a usable one; if some are
preferred, one of these with the greatest key. -/
structure Selects (q : Query) : Prop where
  eq_none_iff : q.selectPeer = none ↔ ∀ i p, q.peers[i]? = some p → ¬ q.Usable i p
  usable : ∀ i, q.selectPeer = some i → ∃ p, q.peers[i]? = some p ∧ q.Usable i p
  best : ∀ j p', q.peers[j]? = some p' → q.Preferred j p' →
    ∀ i, q.selectPeer = some i → ∃ p, q.peers[i]? = some p ∧ q.Preferred i p ∧ q.key j p' ≤ q.key i p

theorem selects (q : Query) : Selects q :=
  ⟨select_eq_none_iff, fun _ => select_usable, fun _ _ hj hpref _ => select_best hj hpref⟩

/-- A single worker fetches no more from a peer that has sent corrupt data as often as it may. -/
theorem notFetching_of_mismatches {σ : Type} {c : Setup σ} (hpos : 0 < c.config.maxPeerFailures)
    (hmax : c.config.maxPeerFailures ≤ u32Max) (hone : concurrency c = 1)
    {verifiedPieces : Option (List Bool)} {checkpoint : Option (List UInt8)} {s₀ s : State σ}
    (hbegin : begin c verifiedPieces checkpoint = .ok s₀) {actions : List Action}
    (hrun : run (step c) s₀ actions = some s) {peer : ℕ}
    (hreached : c.config.maxPeerFailures ≤ mismatches c peer s₀ actions) (later : List Action) :
    Always (step c) (NotFetching peer) s later := by
  have hstart : Counted c peer 0 s₀ .checkCancel := counted_start hone hbegin
  obtain ⟨pc, k, hcount, hk⟩ := counted_run hmax hstart hrun
  have hinv : Always (step c)
      (fun t => ∃ pc k, Counted c peer k t pc ∧ c.config.maxPeerFailures ≤ k + owed peer pc) s later := by
    refine always_of_inv (fun t a t' ht ha => ?_) ⟨pc, k, hcount, by omega⟩
    obtain ⟨pc, k, hcount, hle⟩ := ht
    obtain ⟨pc', k', hcount', hk'⟩ := counted_step hmax hcount ha
    exact ⟨pc', k', hcount', by omega⟩
  exact hinv.mono fun t ⟨pc, k, hcount, hle⟩ => hcount.notFetching hpos hle

/-- **The peer that is selected**, for every query; and in every run of a single worker, one that has sent corrupt
data as often as it may is not fetched from again. -/
theorem peer_selection : (∀ q, Selects q) ∧
    ∀ {σ : Type} (c : Setup σ), 0 < c.config.maxPeerFailures → c.config.maxPeerFailures ≤ u32Max →
      concurrency c = 1 → ∀ verifiedPieces checkpoint s₀, begin c verifiedPieces checkpoint = .ok s₀ →
        ∀ actions s, run (step c) s₀ actions = some s → ∀ peer,
          c.config.maxPeerFailures ≤ mismatches c peer s₀ actions → ∀ later,
            Always (step c) (NotFetching peer) s later := by
  refine ⟨selects, fun c hpos hmax hone verifiedPieces checkpoint s₀ hbegin actions s hrun peer hreached later => ?_⟩
  exact notFetching_of_mismatches hpos hmax hone hbegin hrun hreached later

/-- One web seed, which may send corrupt data once. -/
def oneFailure : Setup FileStorage := (oneByte none { plainConfig with maxPeerFailures := 1 } 1).setup

/-- The seed sends a wrong byte, and would send the right one later. -/
theorem peer_selection_one_seed :
    ∃ s, run (step oneFailure) (start oneFailure (.new 1) ⟨[0], []⟩ none)
        (List.replicate 13 (withSeeds 1 0 (some [0x00]))) = some s ∧
      Always (step oneFailure) (NotFetching 0) s (List.replicate 20 (withSeeds 1 0 (some [0xAA]))) := by
  have hbegin : begin oneFailure none none = .ok (start oneFailure (.new 1) ⟨[0], []⟩ none) := rfl
  have hfailed : 1 ≤ mismatches oneFailure 0 (start oneFailure (.new 1) ⟨[0], []⟩ none)
      (List.replicate 13 (withSeeds 1 0 (some [0x00]))) := by decide +kernel
  obtain ⟨s, hs⟩ : ∃ s, run (step oneFailure) (start oneFailure (.new 1) ⟨[0], []⟩ none)
      (List.replicate 13 (withSeeds 1 0 (some [0x00]))) = some s := ⟨_, rfl⟩
  exact ⟨s, hs, peer_selection.2 oneFailure (by decide) (by decide) rfl none none _ hbegin _ s hs 0 hfailed _⟩

end CncContent.Coordinator.Blacklist
