import CncContent.Storage.Backend
import CncContent.Torrent.Info
import CncContent.Torrent.Resume

/-! # The workers of a download

The model of the worker loop of `run`. A worker is at a point `Pc` of the loop; one step of it is one
access to the memory it shares with the others: one cell of the piece map, the cancel flag, the slot
for the fatal error, or one section under the lock of the mutable state. The reset of failed pieces
and the snapshot for the resume file read the map cell by cell while they hold the lock. What a step
makes of the point is `next`, what it does to the shared state is `perform`; between two steps of a
worker the others may take any number of theirs.

What the peers answer, with their statistics, and the choice among the needed pieces in streaming
mode come from outside (`World`). -/

namespace CncContent.Coordinator.Worker

open CncContent.Lib.Bounded CncContent.Storage.Backend CncContent.Torrent.Info
open CncContent.Torrent.PieceMap CncContent.Torrent.Resume

/-! ### Peers -/

/-- What a peer and its statistics say about one piece at one moment. -/
structure PeerView where
  hasPiece : Bool
  choked : Bool
  speedEstimate : ℕ
  backOff : Bool
  avoid : Bool
  excluded : Bool
  compositeScore : ℕ
  /-- The failure detector suspects the peer. -/
  suspect : Bool
deriving DecidableEq, Repr

/-- `max_by_key` on a score and a speed: of several greatest elements the last one. -/
def maxByKey {α : Type} (key : α → ℕ × ℕ) (l : List α) : Option α :=
  l.foldl (fun best a =>
    match best with
    | none => some a
    | some b =>
      if (key b).1 < (key a).1 ∨ (key b).1 = (key a).1 ∧ (key b).2 ≤ (key a).2 then some a
      else some b) none

/-- What both selections ask of a peer. -/
def PeerView.usable (v : PeerView) (blacklisted : Bool) : Bool :=
  v.hasPiece && !v.choked && !blacklisted && !v.avoid && !v.excluded

def selectPeerWithExclusion (minPeerSpeed : ℕ) (excludedPeer : Option ℕ) (blacklisted : List Bool)
    (peers : List PeerView) : Option ℕ :=
  let usable := peers.zipIdx.filter fun v => v.1.usable (blacklisted[v.2]?.getD false)
  let eligible := usable.filter fun v => excludedPeer ≠ some v.2 &&
    (minPeerSpeed == 0 || minPeerSpeed ≤ v.1.speedEstimate) && !v.1.backOff
  let adjusted := fun v : PeerView => if v.suspect then v.compositeScore / 2 else v.compositeScore
  match maxByKey (fun v => (adjusted v.1, v.1.speedEstimate)) eligible with
  | some v => some v.2
  | none => (maxByKey (fun v => (v.1.compositeScore, v.1.speedEstimate)) usable).map Prod.snd

/-! ### State -/

structure CoordinatorConfig where
  maxConcurrentPieces : ℕ
  maxRetriesPerPiece : ℕ
  minPeerSpeed : ℕ
  endgameThreshold : ℕ
  maxPeerFailures : ℕ
  /-- A resume path is set. -/
  resumePath : Bool
  /-- The mode is `Streaming`. -/
  streaming : Bool
deriving DecidableEq, Repr

/-- What does not change during a run: the torrent, the configuration, the number of peers, the
storage backend with its factory, and the hash function. -/
structure Setup (σ : Type) where
  info : TorrentInfo
  config : CoordinatorConfig
  peerCount : ℕ
  backend : PieceStorage σ
  createStorage : (fileSize : ℕ) → (resuming : Bool) → Except StorageError σ
  sha1 : List UInt8 → List UInt8

/-- Why a piece failed: no eligible peer, or data of a peer that do not match, or an error of it. -/
inductive Cause
  | noPeer
  | hash (peer : ℕ)
  | fetch (peer : ℕ)
deriving DecidableEq, Repr

/-- Where a worker is. Up to `claimRest` and in the two `idle` scans it has no piece. -/
inductive Pc
  | checkCancel
  | checkComplete (i n : ℕ)
  | checkFatal
  | lockReset
  | countDone (i n : ℕ)
  | resetScan (i : ℕ) (endgame : Bool)
  | resetTry (i : ℕ) (endgame : Bool)
  | nextNeeded (rounds i : ℕ)
  | claimBulk (rounds i : ℕ)
  | collectNeeded (i : ℕ) (needed : List ℕ)
  | claimSelected (needed : List ℕ)
  | claimRest (needed : List ℕ)
  | idleComplete (i n : ℕ)
  | idleScan (i : ℕ)
  | selectPeer (p : ℕ)
  | fetchPiece (p peer : ℕ)
  | markFailed (p : ℕ) (cause : Cause)
  | charge (p : ℕ) (cause : Cause)
  | writePiece (p : ℕ) (data : List UInt8)
  | storageFailed (p : ℕ) (e : StorageError)
  | storeFatal (p : ℕ) (e : StorageError)
  | markDone (p : ℕ) (data : List UInt8)
  | success (data : List UInt8)
  | snapshot (i : ℕ) (st : ResumeState)
  | stopped (held : Option ℕ)
deriving DecidableEq, Repr

/-- What happened to a piece, for the history. -/
inductive Event
  | verified (p : ℕ) (data : List UInt8)
  | wrote (p : ℕ) (data : List UInt8) (ok : Bool)
  | failed (p : ℕ)
deriving DecidableEq, Repr

structure State (σ : Type) where
  pieceMap : SharedPieceMap
  cancelFlag : Bool
  fatalError : Option (ℕ × StorageError)
  /-- The worker that holds the lock of the mutable state beyond one step. -/
  lock : Option ℕ
  retryCounts : List ℕ
  lastFailedPeer : List (Option ℕ)
  peerFailures : List ℕ
  peerBlacklisted : List Bool
  bytesDownloaded : ℕ
  storage : σ
  /-- The bytes of the resume file. -/
  checkpoint : Option (List UInt8)
  workers : List Pc
  /-- The history: the events so far, each with the worker it happened to. -/
  log : List (ℕ × Event)
deriving DecidableEq

/-- What a step does to the state, apart from the point of the worker. -/
inductive Effect
  | none
  | lock
  | unlock
  | reset (i : ℕ)
  | claim (p : ℕ)
  | fail (p : ℕ)
  | charge (p : ℕ) (cause : Cause)
  | verified (p : ℕ) (data : List UInt8)
  | write (p : ℕ) (data : List UInt8)
  | cancel
  | fatal (p : ℕ) (e : StorageError)
  | done (p : ℕ)
  | credit (data : List UInt8)
  | save (st : ResumeState) (saved : Bool)

/-- What the world answers in a step: the peers and their statistics, `select_next_piece`, a fetch,
and whether the resume file could be written. -/
structure World where
  peers : List PeerView
  selected : Option ℕ
  fetched : Option (List UInt8)
  saved : Bool

/-! ### Steps -/

section Steps

variable {σ : Type} (c : Setup σ)

def verifyPiece (p : ℕ) (data : List UInt8) : Bool := c.info.pieceHash p == some (c.sha1 data)

/-- The retries a piece may have had to be reset once more. -/
def maxRetries (endgame : Bool) : ℕ :=
  if endgame then satMul u32Max c.config.maxRetriesPerPiece 2 else c.config.maxRetriesPerPiece

/-- One cell of a scan that counts the `done` ones. -/
def countCell (m : SharedPieceMap) (i n : ℕ) : ℕ := if m.get i = .done then n + 1 else n

/-- `claim_next_piece`. -/
def claimNextPiece : Pc :=
  if c.config.streaming then .collectNeeded 0 [] else .nextNeeded c.info.pieceCount 0

/-- A `try_claim`: the worker goes on with the piece or, if it is taken, elsewhere. -/
def tryClaim (m : SharedPieceMap) (p : ℕ) (otherwise : Pc) : Pc × Effect :=
  if (m.tryClaim p).1 then (.selectPeer p, .claim p) else (otherwise, .none)

/-- Where a step takes a worker from its point, and what it does. There is no step of a worker that
has stopped, nor of one that waits for the lock. -/
def next (s : State σ) (world : World) : Pc → Option (Pc × Effect)
  | .checkCancel => some (if s.cancelFlag then .stopped none else .checkComplete 0 0, .none)
  | .checkComplete i n =>
    if i < s.pieceMap.pieceCount then some (.checkComplete (i + 1) (countCell s.pieceMap i n), .none)
    else some (if n = s.pieceMap.pieceCount then .stopped none else .checkFatal, .none)
  | .checkFatal => some (if s.fatalError.isSome then .stopped none else .lockReset, .none)
  -- the endgame reset, under the lock
  | .lockReset => if s.lock = none then some (.countDone 0 0, .lock) else none
  | .countDone i n =>
    if i < s.pieceMap.pieceCount then some (.countDone (i + 1) (countCell s.pieceMap i n), .none)
    else some (.resetScan 0 (c.info.pieceCount - n ≤ c.config.endgameThreshold), .none)
  | .resetScan i endgame =>
    if i < c.info.pieceCount then
      some (if s.pieceMap.get i = .failed then .resetTry i endgame else .resetScan (i + 1) endgame,
        .none)
    else some (claimNextPiece c, .unlock)
  | .resetTry i endgame =>
    some (.resetScan (i + 1) endgame,
      if s.retryCounts[i]?.getD 0 < maxRetries c endgame ∧ (s.pieceMap.retryFailed i).1 then .reset i
      else .none)
  -- `claim_next_piece_bulk`
  | .nextNeeded 0 _ => some (.idleComplete 0 0, .none)
  | .nextNeeded (rounds + 1) i =>
    if i < s.pieceMap.pieceCount then
      some (if s.pieceMap.get i = .needed then .claimBulk rounds i else .nextNeeded (rounds + 1) (i + 1),
        .none)
    else some (.idleComplete 0 0, .none)
  | .claimBulk rounds i => some (tryClaim s.pieceMap i (.nextNeeded rounds 0))
  -- `claim_next_piece_streaming`
  | .collectNeeded i needed =>
    if i < c.info.pieceCount then
      some (.collectNeeded (i + 1) (if s.pieceMap.get i = .needed then needed ++ [i] else needed), .none)
    else some (if needed = [] then .idleComplete 0 0 else .claimSelected needed, .none)
  | .claimSelected needed =>
    match world.selected with
    | some p => some (tryClaim s.pieceMap p (.claimRest needed))
    | none => some (.claimRest needed, .none)
  | .claimRest [] => some (.idleComplete 0 0, .none)
  | .claimRest (p :: needed) => some (tryClaim s.pieceMap p (.claimRest needed))
  -- nothing to claim
  | .idleComplete i n =>
    if i < s.pieceMap.pieceCount then some (.idleComplete (i + 1) (countCell s.pieceMap i n), .none)
    else some (if n = s.pieceMap.pieceCount then .stopped none else .idleScan 0, .none)
  | .idleScan i =>
    if i < c.info.pieceCount then
      some (if s.pieceMap.get i = .needed ∨ s.pieceMap.get i = .inFlight then .checkCancel
        else .idleScan (i + 1), .none)
    else some (.stopped none, .none)
  -- a piece has been claimed
  | .selectPeer p =>
    if s.lock = none ∧ world.peers.length = c.peerCount then
      match selectPeerWithExclusion c.config.minPeerSpeed (s.lastFailedPeer[p]?.join)
        s.peerBlacklisted world.peers with
      | some peer => some (.fetchPiece p peer, .none)
      | none => some (.charge p .noPeer, .fail p)
    else none
  | .fetchPiece p peer =>
    match world.fetched with
    | some data =>
      if verifyPiece c p data then some (.writePiece p data, .verified p data)
      else some (.markFailed p (.hash peer), .none)
    | none => some (.markFailed p (.fetch peer), .none)
  | .markFailed p cause => some (.charge p cause, .fail p)
  | .charge p cause => if s.lock = none then some (.checkCancel, .charge p cause) else none
  | .writePiece p data =>
    match (c.backend.writePiece s.storage p (c.info.pieceOffset p) data).1 with
    | .ok _ => some (.markDone p data, .write p data)
    | .error e => some (.storageFailed p e, .write p data)
  | .storageFailed p e => some (.storeFatal p e, .cancel)
  | .storeFatal p e => some (.stopped (some p), .fatal p e)
  | .markDone p data => some (.success data, .done p)
  -- `handle_piece_success`, under the lock
  | .success data =>
    if s.lock = none then
      some (if c.config.resumePath then
          .snapshot 0 (ResumeState.new s.pieceMap.pieceCount c.info.fileSize)
        else .checkCancel, .credit data)
    else none
  | .snapshot i st =>
    if i < s.pieceMap.pieceCount then some (.snapshot (i + 1) (st.snapshot s.pieceMap i), .none)
    else some (.checkCancel, .save st world.saved)
  | .stopped _ => none

/-- The counts of a failed attempt. Only corrupt data count against the peer. -/
def State.charge (s : State σ) (p : ℕ) : Cause → State σ
  | .noPeer => { s with retryCounts := s.retryCounts.modify p fun r => satAdd u32Max r 1 }
  | .fetch peer =>
    { s with
      retryCounts := s.retryCounts.modify p fun r => satAdd u32Max r 1
      lastFailedPeer := s.lastFailedPeer.set p (some peer) }
  | .hash peer =>
    let failures := satAdd u32Max (s.peerFailures[peer]?.getD 0) 1
    { s with
      retryCounts := s.retryCounts.modify p fun r => satAdd u32Max r 1
      lastFailedPeer := s.lastFailedPeer.set p (some peer)
      peerFailures := s.peerFailures.set peer failures
      peerBlacklisted :=
        if 0 < c.config.maxPeerFailures ∧ c.config.maxPeerFailures ≤ failures then
          s.peerBlacklisted.set peer true
        else s.peerBlacklisted }

def State.record (s : State σ) (w : ℕ) (e : Event) : State σ := { s with log := s.log ++ [(w, e)] }

/-- `is_ok`. -/
def isOk {ε α : Type} : Except ε α → Bool
  | .ok _ => true
  | .error _ => false

/-- The effect of worker `w`. -/
def perform (w : ℕ) (s : State σ) : Effect → State σ
  | .none => s
  | .lock => { s with lock := some w }
  | .unlock => { s with lock := none }
  | .reset i => { s with pieceMap := (s.pieceMap.retryFailed i).2 }
  | .claim p => { s with pieceMap := (s.pieceMap.tryClaim p).2 }
  | .fail p => { s with pieceMap := s.pieceMap.markFailed p }.record w (.failed p)
  | .charge p cause => s.charge c p cause
  | .verified p data => s.record w (.verified p data)
  | .write p data =>
    let r := c.backend.writePiece s.storage p (c.info.pieceOffset p) data
    { s with storage := r.2 }.record w (.wrote p data (isOk r.1))
  | .cancel => { s with cancelFlag := true }
  | .fatal p e => { s with fatalError := some (p, e) }
  | .done p => { s with pieceMap := s.pieceMap.markDone p }
  | .credit data =>
    { s with
      bytesDownloaded := satAdd u64Max s.bytesDownloaded data.length
      lock := if c.config.resumePath then some w else none }
  | .save st saved => { s with checkpoint := if saved then some st.save else s.checkpoint, lock := none }

inductive Action
  | worker (w : ℕ) (world : World)
  /-- The caller sets the cancel flag. -/
  | cancel

def step (s : State σ) : Action → Option (State σ)
  | .worker w world => do
    let pc ← s.workers[w]?
    let (pc', e) ← next c s world pc
    let s' := perform c w s e
    return { s' with workers := s'.workers.set w pc' }
  | .cancel => some { s with cancelFlag := true }

end Steps

end CncContent.Coordinator.Worker
