import CncContent.Coordinator.Run
import CncContent.Lib.Owners

/-! # What a step of a worker can do

`next_enables` lists for every effect the points between which a worker has it and what the worker
has found in the shared state, and `next_arrives` for every point of a scan how a worker comes to it;
all invariants are derived from these two lists. `step_cases` splits a step of the system into the
step of one worker and its effect. -/

namespace CncContent.Coordinator.Steps

open CncContent.Lib.Bounded CncContent.Storage.Backend CncContent.Torrent.PieceMap
open CncContent.Torrent.Resume CncContent.Coordinator.Worker

/-! ### What a point says -/

/-- The piece a worker has claimed and not yet given up. A worker whose write failed keeps it. -/
def holds : Pc → Option ℕ
  | .selectPeer p => some p
  | .fetchPiece p _ => some p
  | .markFailed p _ => some p
  | .writePiece p _ => some p
  | .storageFailed p _ => some p
  | .storeFatal p _ => some p
  | .markDone p _ => some p
  | .stopped held => held
  | _ => none

/-- The piece, if the worker has written it to the storage, with or without success. -/
def written : Pc → Option ℕ
  | .storageFailed p _ => some p
  | .storeFatal p _ => some p
  | .markDone p _ => some p
  | .stopped held => held
  | _ => none

/-- The failed piece whose attempt the worker has not yet counted. -/
def pending : Pc → Option ℕ
  | .charge p _ => some p
  | _ => none

/-- What the history of the worker must end with. -/
def lastEvents : Pc → List Event
  | .writePiece p data => [.verified p data]
  | .markDone p data => [.verified p data, .wrote p data true]
  | _ => []

/-- A move that concerns no piece, or leaves the worker with the piece it has. -/
structure Quiet (pc pc' : Pc) : Prop where
  holds : holds pc' = holds pc
  written : written pc = none ∧ written pc' = none
  pending : pending pc = none ∧ pending pc' = none
  lastEvents : lastEvents pc' = []

section Steps

variable {σ : Type} {c : Setup σ}

/-- Between which points, and in which states, a step of a worker has the effect. -/
def Enables (c : Setup σ) (s : State σ) (pc pc' : Pc) : Effect → Prop
  | .reset i => s.pieceMap.get i = .failed ∧ ∃ endgame, pc = .resetTry i endgame ∧
      pc' = .resetScan (i + 1) endgame ∧ s.retryCounts[i]?.getD 0 < maxRetries c endgame
  | .claim p => p < s.pieceMap.pieceCount ∧ s.pieceMap.get p = .needed ∧ holds pc = none ∧
      pending pc = none ∧ pc' = .selectPeer p
  | .fail p => holds pc = some p ∧ written pc = none ∧ pending pc = none ∧ ∃ cause, pc' = .charge p cause
  | .charge p cause => pc = .charge p cause ∧ pc' = .checkCancel
  | .verified p data => (∃ peer, pc = .fetchPiece p peer) ∧ pc' = .writePiece p data ∧
      verifyPiece c p data = true
  | .write p data => pc = .writePiece p data ∧
      (isOk (c.backend.writePiece s.storage p (c.info.pieceOffset p) data).1 = true ∧
          pc' = .markDone p data ∨
        isOk (c.backend.writePiece s.storage p (c.info.pieceOffset p) data).1 = false ∧
          ∃ e, pc' = .storageFailed p e)
  | .done p => ∃ data, pc = .markDone p data ∧ pc' = .success data
  | .cancel => ∃ p e, pc = .storageFailed p e ∧ pc' = .storeFatal p e
  | .fatal p e => pc = .storeFatal p e ∧ pc' = .stopped (some p)
  | .save st _ => Quiet pc pc' ∧ ∃ i, pc = .snapshot i st
  | _ => Quiet pc pc'

theorem enables_tryClaim {s : State σ} {pc pc' otherwise : Pc} {p : ℕ} {e : Effect}
    (h : Worker.tryClaim s.pieceMap p otherwise = (pc', e)) (hholds : holds pc = none)
    (hpending : pending pc = none) (hquiet : Quiet pc otherwise) : Enables c s pc pc' e := by
  unfold Worker.tryClaim at h
  split_ifs at h with hclaim
  · cases h
    obtain ⟨hlt, hget, -⟩ := SharedPieceMap.compareExchange_true hclaim
    exact ⟨hlt, hget, hholds, hpending, rfl⟩
  · cases h
    exact hquiet

/-- **The steps of a worker**, by their effect. -/
theorem next_enables {s : State σ} {world : World} {pc pc' : Pc} {e : Effect}
    (h : next c s world pc = some (pc', e)) : Enables c s pc pc' e := by
  have quiet : ∀ {pc pc' : Pc}, holds pc' = holds pc → written pc = none ∧ written pc' = none →
      pending pc = none ∧ pending pc' = none → lastEvents pc' = [] → Quiet pc pc' :=
    fun h1 h2 h3 h4 => ⟨h1, h2, h3, h4⟩
  cases pc with
  | checkCancel =>
    cases h
    split_ifs <;> exact quiet rfl ⟨rfl, rfl⟩ ⟨rfl, rfl⟩ rfl
  | checkComplete i n =>
    rw [next] at h
    split_ifs at h <;> cases h <;> exact quiet rfl ⟨rfl, rfl⟩ ⟨rfl, rfl⟩ rfl
  | checkFatal =>
    cases h
    split_ifs <;> exact quiet rfl ⟨rfl, rfl⟩ ⟨rfl, rfl⟩ rfl
  | lockReset =>
    rw [next] at h
    split_ifs at h
    cases h
    exact quiet rfl ⟨rfl, rfl⟩ ⟨rfl, rfl⟩ rfl
  | countDone i n =>
    rw [next] at h
    split_ifs at h <;> cases h <;> exact quiet rfl ⟨rfl, rfl⟩ ⟨rfl, rfl⟩ rfl
  | resetScan i endgame =>
    rw [next] at h
    split_ifs at h
    · cases h
      exact quiet rfl ⟨rfl, rfl⟩ ⟨rfl, rfl⟩ rfl
    · cases h
      exact quiet rfl ⟨rfl, rfl⟩ ⟨rfl, rfl⟩ rfl
    · cases h
      unfold claimNextPiece
      split_ifs <;> exact quiet rfl ⟨rfl, rfl⟩ ⟨rfl, rfl⟩ rfl
  | resetTry i endgame =>
    rw [next] at h
    split_ifs at h with hreset
    · cases h
      exact ⟨(SharedPieceMap.compareExchange_true hreset.2).2.1, endgame, rfl, rfl, hreset.1⟩
    · cases h
      exact quiet rfl ⟨rfl, rfl⟩ ⟨rfl, rfl⟩ rfl
  | nextNeeded rounds i =>
    cases rounds with
    | zero =>
      cases h
      exact quiet rfl ⟨rfl, rfl⟩ ⟨rfl, rfl⟩ rfl
    | succ rounds =>
      rw [next] at h
      split_ifs at h <;> cases h <;> exact quiet rfl ⟨rfl, rfl⟩ ⟨rfl, rfl⟩ rfl
  | claimBulk rounds i =>
    exact enables_tryClaim (Option.some.inj h) rfl rfl (quiet rfl ⟨rfl, rfl⟩ ⟨rfl, rfl⟩ rfl)
  | collectNeeded i needed =>
    rw [next] at h
    split_ifs at h <;> cases h <;> exact quiet rfl ⟨rfl, rfl⟩ ⟨rfl, rfl⟩ rfl
  | claimSelected needed =>
    rw [next] at h
    rcases hsel : world.selected with _ | p
    · rw [hsel] at h
      cases h
      exact quiet rfl ⟨rfl, rfl⟩ ⟨rfl, rfl⟩ rfl
    · rw [hsel] at h
      exact enables_tryClaim (Option.some.inj h) rfl rfl (quiet rfl ⟨rfl, rfl⟩ ⟨rfl, rfl⟩ rfl)
  | claimRest needed =>
    cases needed with
    | nil =>
      cases h
      exact quiet rfl ⟨rfl, rfl⟩ ⟨rfl, rfl⟩ rfl
    | cons p needed => exact enables_tryClaim (Option.some.inj h) rfl rfl (quiet rfl ⟨rfl, rfl⟩ ⟨rfl, rfl⟩ rfl)
  | idleComplete i n =>
    rw [next] at h
    split_ifs at h <;> cases h <;> exact quiet rfl ⟨rfl, rfl⟩ ⟨rfl, rfl⟩ rfl
  | idleScan i =>
    rw [next] at h
    split_ifs at h <;> cases h <;> exact quiet rfl ⟨rfl, rfl⟩ ⟨rfl, rfl⟩ rfl
  | selectPeer p =>
    rw [next] at h
    split_ifs at h
    rcases hsel : selectPeerWithExclusion c.config.minPeerSpeed (s.lastFailedPeer[p]?.join)
      s.peerBlacklisted world.peers with _ | peer
    · rw [hsel] at h
      cases h
      exact ⟨rfl, rfl, rfl, _, rfl⟩
    · rw [hsel] at h
      cases h
      exact quiet rfl ⟨rfl, rfl⟩ ⟨rfl, rfl⟩ rfl
  | fetchPiece p peer =>
    rw [next] at h
    rcases hf : world.fetched with _ | data
    · rw [hf] at h
      cases h
      exact quiet rfl ⟨rfl, rfl⟩ ⟨rfl, rfl⟩ rfl
    · rw [hf] at h
      dsimp only at h
      split_ifs at h with hv
      · cases h
        exact ⟨⟨peer, rfl⟩, rfl, hv⟩
      · cases h
        exact quiet rfl ⟨rfl, rfl⟩ ⟨rfl, rfl⟩ rfl
  | markFailed p cause =>
    cases h
    exact ⟨rfl, rfl, rfl, cause, rfl⟩
  | charge p cause =>
    rw [next] at h
    split_ifs at h
    cases h
    exact ⟨rfl, rfl⟩
  | writePiece p data =>
    rw [next] at h
    rcases hw : (c.backend.writePiece s.storage p (c.info.pieceOffset p) data).1 with e | u
    · rw [hw] at h
      cases h
      exact ⟨rfl, Or.inr ⟨by rw [hw]; rfl, e, rfl⟩⟩
    · rw [hw] at h
      cases h
      exact ⟨rfl, Or.inl ⟨by rw [hw]; rfl, rfl⟩⟩
  | storageFailed p e =>
    cases h
    exact ⟨p, e, rfl, rfl⟩
  | storeFatal p e =>
    cases h
    exact ⟨rfl, rfl⟩
  | markDone p data =>
    cases h
    exact ⟨data, rfl, rfl⟩
  | success data =>
    rw [next] at h
    split_ifs at h <;> cases h <;> exact quiet rfl ⟨rfl, rfl⟩ ⟨rfl, rfl⟩ rfl
  | snapshot i st =>
    rw [next] at h
    split_ifs at h
    · cases h
      exact quiet rfl ⟨rfl, rfl⟩ ⟨rfl, rfl⟩ rfl
    · cases h
      exact ⟨quiet rfl ⟨rfl, rfl⟩ ⟨rfl, rfl⟩ rfl, i, rfl⟩
  | stopped held => cases h

/-- One cell further in a scan that counts the `done` ones. -/
def Counts (m : SharedPieceMap) (i n i' n' : ℕ) : Prop :=
  i < m.pieceCount ∧ i' = i + 1 ∧ n' = countCell m i n

/-- How a worker comes to a point of a scan, and why it stops. -/
def Arrives (c : Setup σ) (s : State σ) (pc : Pc) : Pc → Prop
  | .checkComplete i' n' => (i' = 0 ∧ n' = 0) ∨
      ∃ i n, pc = .checkComplete i n ∧ Counts s.pieceMap i n i' n'
  | .countDone i' n' => (i' = 0 ∧ n' = 0) ∨ ∃ i n, pc = .countDone i n ∧ Counts s.pieceMap i n i' n'
  | .idleComplete i' n' => (i' = 0 ∧ n' = 0) ∨
      ∃ i n, pc = .idleComplete i n ∧ Counts s.pieceMap i n i' n'
  | .resetScan _ endgame =>
      (∃ i n, pc = .countDone i n ∧ ¬ i < s.pieceMap.pieceCount ∧
        endgame = decide (c.info.pieceCount - n ≤ c.config.endgameThreshold)) ∨
      ∃ i, pc = .resetScan i endgame ∨ pc = .resetTry i endgame
  | .resetTry _ endgame => ∃ i, pc = .resetScan i endgame
  | .snapshot _ st' => st' = .new s.pieceMap.pieceCount c.info.fileSize ∨
      ∃ i st, pc = .snapshot i st ∧ st' = st.snapshot s.pieceMap i
  | .idleScan i' => i' = 0 ∨ ∃ i, pc = .idleScan i ∧ i' = i + 1 ∧ s.pieceMap.get i ≠ .needed
  | .stopped _ => s.cancelFlag = true ∨ s.fatalError.isSome = true ∨ (∃ p e, pc = .storeFatal p e) ∨
      (∃ i n, (pc = .checkComplete i n ∨ pc = .idleComplete i n) ∧ ¬ i < s.pieceMap.pieceCount ∧
        n = s.pieceMap.pieceCount) ∨
      ∃ i, pc = .idleScan i ∧ ¬ i < c.info.pieceCount
  | _ => True

theorem arrives_tryClaim {s : State σ} {pc pc' otherwise : Pc} {p : ℕ} {e : Effect}
    (h : Worker.tryClaim s.pieceMap p otherwise = (pc', e)) (ho : Arrives c s pc otherwise) :
    Arrives c s pc pc' := by
  unfold Worker.tryClaim at h
  split_ifs at h
  · cases h
    trivial
  · cases h
    exact ho

/-- **The steps of a worker**, by their destination. -/
theorem next_arrives {s : State σ} {world : World} {pc pc' : Pc} {e : Effect}
    (h : next c s world pc = some (pc', e)) : Arrives c s pc pc' := by
  cases pc with
  | checkCancel =>
    cases h
    split_ifs with hcancel
    · exact Or.inl hcancel
    · exact Or.inl ⟨rfl, rfl⟩
  | checkComplete i n =>
    rw [next] at h
    split_ifs at h with hi hn
    · cases h
      exact Or.inr ⟨i, n, rfl, hi, rfl, rfl⟩
    · cases h
      exact Or.inr (Or.inr (Or.inr (Or.inl ⟨i, n, Or.inl rfl, hi, hn⟩)))
    · cases h
      trivial
  | checkFatal =>
    cases h
    split_ifs with hfatal
    · exact Or.inr (Or.inl hfatal)
    · trivial
  | lockReset =>
    rw [next] at h
    split_ifs at h
    cases h
    exact Or.inl ⟨rfl, rfl⟩
  | countDone i n =>
    rw [next] at h
    split_ifs at h with hi
    · cases h
      exact Or.inr ⟨i, n, rfl, hi, rfl, rfl⟩
    · cases h
      exact Or.inl ⟨i, n, rfl, hi, rfl⟩
  | resetScan i endgame =>
    rw [next] at h
    split_ifs at h
    · cases h
      exact ⟨i, rfl⟩
    · cases h
      exact Or.inr ⟨i, Or.inl rfl⟩
    · cases h
      unfold claimNextPiece
      split_ifs <;> trivial
  | resetTry i endgame =>
    cases h
    exact Or.inr ⟨i, Or.inr rfl⟩
  | nextNeeded rounds i =>
    cases rounds with
    | zero =>
      cases h
      exact Or.inl ⟨rfl, rfl⟩
    | succ rounds =>
      rw [next] at h
      split_ifs at h
      · cases h
        trivial
      · cases h
        trivial
      · cases h
        exact Or.inl ⟨rfl, rfl⟩
  | claimBulk rounds i => exact arrives_tryClaim (Option.some.inj h) trivial
  | collectNeeded i needed =>
    rw [next] at h
    by_cases hi : i < c.info.pieceCount
    · rw [if_pos hi] at h
      cases h
      trivial
    · rw [if_neg hi] at h
      cases h
      split_ifs
      · exact Or.inl ⟨rfl, rfl⟩
      · trivial
  | claimSelected needed =>
    rw [next] at h
    rcases hsel : world.selected with _ | p
    · rw [hsel] at h
      cases h
      trivial
    · rw [hsel] at h
      exact arrives_tryClaim (Option.some.inj h) trivial
  | claimRest needed =>
    cases needed with
    | nil =>
      cases h
      exact Or.inl ⟨rfl, rfl⟩
    | cons p needed => exact arrives_tryClaim (Option.some.inj h) trivial
  | idleComplete i n =>
    rw [next] at h
    split_ifs at h with hi hn
    · cases h
      exact Or.inr ⟨i, n, rfl, hi, rfl, rfl⟩
    · cases h
      exact Or.inr (Or.inr (Or.inr (Or.inl ⟨i, n, Or.inr rfl, hi, hn⟩)))
    · cases h
      exact Or.inl rfl
  | idleScan i =>
    rw [next] at h
    split_ifs at h with hi hstate
    · cases h
      trivial
    · cases h
      exact Or.inr ⟨i, rfl, rfl, fun hneeded => hstate (Or.inl hneeded)⟩
    · cases h
      exact Or.inr (Or.inr (Or.inr (Or.inr ⟨i, rfl, hi⟩)))
  | selectPeer p =>
    rw [next] at h
    split_ifs at h
    rcases hsel : selectPeerWithExclusion c.config.minPeerSpeed (s.lastFailedPeer[p]?.join)
      s.peerBlacklisted world.peers with _ | peer
    all_goals
      rw [hsel] at h
      cases h
      trivial
  | fetchPiece p peer =>
    rw [next] at h
    rcases hf : world.fetched with _ | data
    · rw [hf] at h
      cases h
      trivial
    · rw [hf] at h
      dsimp only at h
      split_ifs at h <;> cases h <;> trivial
  | markFailed p cause =>
    cases h
    trivial
  | charge p cause =>
    rw [next] at h
    split_ifs at h
    cases h
    trivial
  | writePiece p data =>
    rw [next] at h
    rcases hw : (c.backend.writePiece s.storage p (c.info.pieceOffset p) data).1 with e | u
    all_goals
      rw [hw] at h
      cases h
      trivial
  | storageFailed p e =>
    cases h
    trivial
  | storeFatal p e =>
    cases h
    exact Or.inr (Or.inr (Or.inl ⟨p, e, rfl⟩))
  | markDone p data =>
    cases h
    trivial
  | success data =>
    rw [next] at h
    split_ifs at h
    · cases h
      exact Or.inl rfl
    · cases h
      trivial
  | snapshot i st =>
    rw [next] at h
    split_ifs at h
    · cases h
      exact Or.inr ⟨i, st, rfl, rfl⟩
    · cases h
      trivial
  | stopped held => cases h

/-! ### The fields of the state -/

/-- What an effect does to the piece map. -/
def mapAfter (m : SharedPieceMap) : Effect → SharedPieceMap
  | .reset i => m.store i .needed
  | .claim p => m.store p .inFlight
  | .fail p => m.store p .failed
  | .done p => m.store p .done
  | _ => m

/-- What an effect adds to the history. -/
def eventsOf (c : Setup σ) (s : State σ) : Effect → List Event
  | .verified p data => [.verified p data]
  | .write p data =>
    [.wrote p data (isOk (c.backend.writePiece s.storage p (c.info.pieceOffset p) data).1)]
  | .fail p => [.failed p]
  | _ => []

/-- What an effect does to the storage. -/
def storageAfter (c : Setup σ) (s : State σ) : Effect → σ
  | .write p data => (c.backend.writePiece s.storage p (c.info.pieceOffset p) data).2
  | _ => s.storage

/-- What an effect does to the retry counts. -/
def retriesAfter (counts : List ℕ) : Effect → List ℕ
  | .charge p _ => counts.modify p fun r => satAdd u32Max r 1
  | _ => counts

/-- What an effect does to the resume file. -/
def checkpointAfter (checkpoint : Option (List UInt8)) : Effect → Option (List UInt8)
  | .save st saved => if saved then some st.save else checkpoint
  | _ => checkpoint

/-- Worker `w` has moved from `pc` to `pc'`, with the effect `e`. -/
structure Moved (c : Setup σ) (s s' : State σ) (w : ℕ) (pc pc' : Pc) (e : Effect) : Prop where
  worker : s.workers[w]? = some pc
  enables : Enables c s pc pc' e
  arrives : Arrives c s pc pc'
  workers : s'.workers = s.workers.set w pc'
  pieceMap : s'.pieceMap = mapAfter s.pieceMap e
  log : s'.log = s.log ++ (eventsOf c s e).map fun ev => (w, ev)
  storage : s'.storage = storageAfter c s e
  retryCounts : s'.retryCounts = retriesAfter s.retryCounts e
  checkpoint : s'.checkpoint = checkpointAfter s.checkpoint e
  cancelFlag : s'.cancelFlag = true ↔ s.cancelFlag = true ∨ e = .cancel
  fatalError : s'.fatalError = s.fatalError ∨ ∃ p err, e = .fatal p err

theorem moved_perform {s : State σ} {w : ℕ} {pc pc' : Pc} {e : Effect} (hw : s.workers[w]? = some pc)
    (he : Enables c s pc pc' e) (ha : Arrives c s pc pc') :
    Moved c s { perform c w s e with workers := (perform c w s e).workers.set w pc' } w pc pc' e := by
  cases e with
  | reset i =>
    have hcell : s.pieceMap.states[i]? = some .failed := SharedPieceMap.getElem?_of_get he.1 (by decide)
    have hmap : (s.pieceMap.retryFailed i).2 = s.pieceMap.store i .needed := by
      unfold SharedPieceMap.retryFailed SharedPieceMap.compareExchange
      rw [if_pos hcell]
    exact ⟨hw, he, ha, rfl, hmap, (List.append_nil _).symm, rfl, rfl, rfl, ⟨Or.inl, Or.rec id nofun⟩,
      Or.inl rfl⟩
  | claim p =>
    have hcell : s.pieceMap.states[p]? = some .needed := SharedPieceMap.getElem?_of_lt he.1 he.2.1
    have hmap : (s.pieceMap.tryClaim p).2 = s.pieceMap.store p .inFlight := by
      unfold SharedPieceMap.tryClaim SharedPieceMap.compareExchange
      rw [if_pos hcell]
    exact ⟨hw, he, ha, rfl, hmap, (List.append_nil _).symm, rfl, rfl, rfl, ⟨Or.inl, Or.rec id nofun⟩,
      Or.inl rfl⟩
  | charge p cause =>
    have hlog : s.log = s.log ++ [] := (List.append_nil _).symm
    cases cause with
    | _ => exact ⟨hw, he, ha, rfl, rfl, hlog, rfl, rfl, rfl, ⟨Or.inl, Or.rec id nofun⟩, Or.inl rfl⟩
  | fail p => exact ⟨hw, he, ha, rfl, rfl, rfl, rfl, rfl, rfl, ⟨Or.inl, Or.rec id nofun⟩, Or.inl rfl⟩
  | verified p data =>
    exact ⟨hw, he, ha, rfl, rfl, rfl, rfl, rfl, rfl, ⟨Or.inl, Or.rec id nofun⟩, Or.inl rfl⟩
  | write p data =>
    exact ⟨hw, he, ha, rfl, rfl, rfl, rfl, rfl, rfl, ⟨Or.inl, Or.rec id nofun⟩, Or.inl rfl⟩
  | cancel =>
    exact ⟨hw, he, ha, rfl, rfl, (List.append_nil _).symm, rfl, rfl, rfl,
      ⟨fun _ => Or.inr rfl, fun _ => rfl⟩, Or.inl rfl⟩
  | fatal p err =>
    exact ⟨hw, he, ha, rfl, rfl, (List.append_nil _).symm, rfl, rfl, rfl, ⟨Or.inl, Or.rec id nofun⟩,
      Or.inr ⟨p, err, rfl⟩⟩
  | _ =>
    exact ⟨hw, he, ha, rfl, rfl, (List.append_nil _).symm, rfl, rfl, rfl, ⟨Or.inl, Or.rec id nofun⟩,
      Or.inl rfl⟩

/-- **A step of the system** is a move of one worker, or the caller's cancellation. -/
theorem step_cases {s s' : State σ} {a : Action} (h : step c s a = some s') :
    (a = .cancel ∧ s' = { s with cancelFlag := true }) ∨
    ∃ w world pc pc' e, a = .worker w world ∧ Moved c s s' w pc pc' e := by
  cases a with
  | cancel =>
    cases h
    exact Or.inl ⟨rfl, rfl⟩
  | worker w world =>
    obtain ⟨pc, hpc, h'⟩ := Option.bind_eq_some_iff.mp h
    obtain ⟨⟨pc', e⟩, hnext, h''⟩ := Option.bind_eq_some_iff.mp h'
    cases h''
    exact Or.inr ⟨w, world, pc, pc', e, rfl,
      moved_perform hpc (next_enables hnext) (next_arrives hnext)⟩

end Steps

end CncContent.Coordinator.Steps
