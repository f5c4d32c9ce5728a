import CncContent.Coordinator.Worker
import CncContent.Lib.Runs
import CncContent.Storage.File

/-! # A run of the coordinator

What `run` does before it starts the workers (`begin`) and after they have all stopped (`finish`). A
run returns `Ok` if it begins, the workers go through some steps until they have stopped, and it
finishes with `Ok` (`Returns`). -/

namespace CncContent.Coordinator.Run

open CncContent.Lib.Bounded CncContent.Lib.Runs CncContent.Storage.Backend
open CncContent.Storage.File CncContent.Torrent.Info CncContent.Torrent.PieceMap
open CncContent.Torrent.Resume CncContent.Coordinator.Worker

inductive CoordinatorError
  | noPeers
  | allPeersFailed (pieceIndex attempts : ℕ)
  | storage (pieceIndex : ℕ) (source : StorageError)
  | cancelled
deriving DecidableEq, Repr

section Run

variable {σ : Type} (c : Setup σ)

/-- The piece map of `new`, and that of `new_resume` for the verified pieces. -/
def initialMap : Option (List Bool) → SharedPieceMap
  | none => .new c.info.pieceCount
  | some verifiedPieces => .fromVerified c.info.pieceCount verifiedPieces

/-! ### Before the workers -/

/-- The state of the resume file, if there is one and it is accepted. -/
def loadCheckpoint (checkpoint : Option (List UInt8)) : Option ResumeState :=
  if c.config.resumePath then
    match checkpoint.map ResumeState.load with
    | some (.ok st) =>
      match st.validate c.info.pieceCount c.info.fileSize with
      | .ok _ => some st
      | .error _ => none
    | _ => none
  else none

/-- One round of the loop that restores the pieces, with the number of those restored so far. -/
def restorePiece (st : ResumeState) (r : ℕ × SharedPieceMap) (i : ℕ) : ℕ × SharedPieceMap :=
  if st.isDone i ∧ r.2.get i ≠ .done then (satAdd u32Max r.1 1, r.2.markDone i) else r

def tryLoadResume (checkpoint : Option (List UInt8)) (m : SharedPieceMap) : Bool × SharedPieceMap :=
  match loadCheckpoint c checkpoint with
  | some st =>
    let r := (List.range st.pieceCount).foldl (restorePiece st) (0, m)
    (0 < r.1, r.2)
  | none => (false, m)

def concurrency : ℕ := max (min c.config.maxConcurrentPieces c.peerCount) 1

/-- The state the workers start in. -/
def start (pieceMap : SharedPieceMap) (storage : σ) (checkpoint : Option (List UInt8)) : State σ where
  pieceMap := pieceMap
  cancelFlag := false
  fatalError := none
  lock := none
  retryCounts := List.replicate c.info.pieceCount 0
  lastFailedPeer := List.replicate c.info.pieceCount none
  peerFailures := List.replicate c.peerCount 0
  peerBlacklisted := List.replicate c.peerCount false
  bytesDownloaded := 0
  storage := storage
  checkpoint := checkpoint
  workers := List.replicate (concurrency c) .checkCancel
  log := []

/-- `run` up to the start of the workers. -/
def begin (verifiedPieces : Option (List Bool)) (checkpoint : Option (List UInt8)) :
    Except CoordinatorError (State σ) :=
  if c.peerCount = 0 then .error .noPeers
  else
    let (resuming, pieceMap) := tryLoadResume c checkpoint (initialMap c verifiedPieces)
    match c.createStorage c.info.fileSize resuming with
    | .error e => .error (.storage 0 e)
    | .ok storage => .ok (start c pieceMap storage checkpoint)

/-! ### After the workers -/

/-- The first failed piece. -/
def findFailed (m : SharedPieceMap) : Option ℕ :=
  (List.range c.info.pieceCount).find? fun i => m.get i == .failed

/-- `run` after the workers have stopped. The resume file is removed in the end, if that succeeds. -/
def finish (s : State σ) (removed : Bool) : Except CoordinatorError Unit × State σ :=
  match s.fatalError with
  | some (p, e) => (.error (.storage p e), s)
  | none =>
    if s.cancelFlag then (.error .cancelled, s)
    else
      match if s.pieceMap.isComplete then none else findFailed c s.pieceMap with
      | some p => (.error (.allPeersFailed p (s.retryCounts[p]?.getD 0)), s)
      | none =>
        match c.backend.flush s.storage with
        | (.error e, storage) => (.error (.storage (c.info.pieceCount - 1) e), { s with storage })
        | (.ok _, storage) =>
          (.ok (), { s with storage,
                            checkpoint :=
                              if c.config.resumePath && removed then none else s.checkpoint })

/-- Every worker has stopped. -/
def Stopped (s : State σ) : Prop := ∀ pc ∈ s.workers, ∃ held, pc = .stopped held

/-- The run begins in `s₀`, its workers take the steps `actions`, and it returns `Ok` in `final`. -/
def Returns (s₀ : State σ) (actions : List Action) (final : State σ) : Prop :=
  ∃ s removed, run (step c) s₀ actions = some s ∧ Stopped s ∧ finish c s removed = (.ok (), final)

end Run

/-! ### What is restored -/

section Restore

variable {σ : Type} {c : Setup σ}

/-- The resume file has the piece. -/
def Restored (c : Setup σ) (checkpoint : Option (List UInt8)) (i : ℕ) : Prop :=
  ∃ st ∈ loadCheckpoint c checkpoint, st.isDone i = true

theorem not_restored_none (i : ℕ) : ¬ Restored c none i := by
  rintro ⟨st, hst, -⟩
  unfold loadCheckpoint at hst
  split_ifs at hst
  · cases hst
  · cases hst

theorem loadCheckpoint_pieceCount {checkpoint : Option (List UInt8)} {st : ResumeState}
    (h : loadCheckpoint c checkpoint = some st) : st.pieceCount = c.info.pieceCount := by
  unfold loadCheckpoint at h
  split_ifs at h
  rcases hl : checkpoint.map ResumeState.load with _ | _ | st'
  · rw [hl] at h
    cases h
  · rw [hl] at h
    cases h
  · rw [hl] at h
    unfold ResumeState.validate at h
    dsimp only at h
    by_cases hc : st'.pieceCount = c.info.pieceCount
    · rw [if_neg (not_not_intro hc)] at h
      split_ifs at h
      cases h
      exact hc
    · rw [if_pos hc] at h
      cases h

/-- **The loop over the pieces** marks those of the resume file and counts the new ones. -/
theorem foldl_restorePiece (st : ResumeState) (m : SharedPieceMap) : ∀ n ≤ m.pieceCount,
    let r := (List.range n).foldl (restorePiece st) (0, m)
    r.2.pieceCount = m.pieceCount ∧
      (∀ j, r.2.get j = .done ↔ m.get j = .done ∨ j < n ∧ st.isDone j = true) ∧
      (∀ j, r.2.get j ≠ .done → r.2.get j = m.get j) ∧
      (0 < r.1 ↔ ∃ j < n, st.isDone j = true ∧ m.get j ≠ .done)
  | 0, _ => ⟨rfl, by simp, fun _ _ => rfl, by simp⟩
  | n + 1, hn => by
    obtain ⟨hlen, hdone, hother, hpos⟩ := foldl_restorePiece st m n (by omega)
    rw [List.range_succ, List.foldl_append, List.foldl_cons, List.foldl_nil]
    generalize (List.range n).foldl (restorePiece st) (0, m) = r at hlen hdone hother hpos ⊢
    unfold restorePiece
    by_cases hnew : st.isDone n = true ∧ r.2.get n ≠ .done
    · rw [if_pos hnew]
      have hlt : n < r.2.pieceCount := by omega
      have hself : (r.2.markDone n).get n = .done := SharedPieceMap.get_store_self hlt _
      have hne : ∀ {j}, j ≠ n → (r.2.markDone n).get j = r.2.get j := fun hj =>
        SharedPieceMap.get_store_ne hj _
      refine ⟨(SharedPieceMap.pieceCount_store n _).trans hlen, fun j => ?_, fun j hj => ?_, ?_⟩
      · by_cases hj : j = n
        · subst hj
          exact ⟨fun _ => Or.inr ⟨Nat.lt_succ_self _, hnew.1⟩, fun _ => hself⟩
        · have hlt' : j < n + 1 ↔ j < n := by omega
          dsimp only
          rw [hne hj, hdone j, hlt']
      · have hjn : j ≠ n := by
          rintro rfl
          exact hj hself
        dsimp only at hj ⊢
        rw [hne hjn] at hj ⊢
        exact hother j hj
      · have hm : m.get n ≠ .done := fun h => hnew.2 ((hdone n).mpr (Or.inl h))
        have hsat : 0 < satAdd u32Max r.1 1 := by
          unfold satAdd u32Max
          omega
        exact ⟨fun _ => ⟨n, Nat.lt_succ_self _, hnew.1, hm⟩, fun _ => hsat⟩
    · rw [if_neg hnew]
      refine ⟨hlen, fun j => ?_, hother, ?_⟩
      · rw [hdone j]
        refine or_congr_right' fun hm => ⟨fun h => ⟨by omega, h.2⟩, fun h => ⟨?_, h.2⟩⟩
        rcases Nat.lt_succ_iff_lt_or_eq.mp h.1 with hlt | rfl
        · exact hlt
        · rcases (hdone j).mp (not_not.mp fun hj => hnew ⟨h.2, hj⟩) with hj | hj
          · exact absurd hj hm
          · exact hj.1
      · rw [hpos]
        refine exists_congr fun j => ⟨fun h => ⟨by omega, h.2⟩, fun h => ⟨?_, h.2⟩⟩
        rcases Nat.lt_succ_iff_lt_or_eq.mp h.1 with hlt | rfl
        · exact hlt
        · rcases (hdone j).mp (not_not.mp fun hj => hnew ⟨h.2.1, hj⟩) with hj | hj
          · exact absurd hj h.2.2
          · exact hj.1

theorem pieceCount_initialMap (verifiedPieces : Option (List Bool)) :
    (initialMap c verifiedPieces).pieceCount = c.info.pieceCount := by
  rcases verifiedPieces with _ | verified
  · exact List.length_replicate
  · show ((List.range _).map _).length = _
    rw [List.length_map, List.length_range]

/-- A piece that the caller says is on disk. -/
def Verified (verifiedPieces : Option (List Bool)) (i : ℕ) : Prop :=
  ∃ verified ∈ verifiedPieces, verified[i]? = some true

/-- `new` takes nothing as verified. -/
theorem not_verified_none (i : ℕ) : ¬ Verified none i := by
  rintro ⟨_, h, -⟩
  cases h

theorem get_initialMap (verifiedPieces : Option (List Bool)) {i : ℕ} (hi : i < c.info.pieceCount) :
    (initialMap c verifiedPieces).get i = .done ∧ Verified verifiedPieces i ∨
      (initialMap c verifiedPieces).get i = .needed ∧ ¬ Verified verifiedPieces i := by
  rcases verifiedPieces with _ | verified
  · exact Or.inr ⟨SharedPieceMap.get_new _ _, not_verified_none i⟩
  · have hver : Verified (some verified) i ↔ verified[i]?.getD false = true := by
      unfold Verified
      rcases hv : verified[i]? with _ | b
      · simp [hv]
      · simp [hv]
    have hinit : (initialMap c (some verified)).get i =
        if verified[i]?.getD false then .done else .needed :=
      SharedPieceMap.get_fromVerified hi verified
    rw [hver, hinit]
    split_ifs with hb
    · exact Or.inl ⟨rfl, hb⟩
    · exact Or.inr ⟨rfl, hb⟩

/-- **What the workers start from**: the pieces that are verified or restored are done, the others
needed; the storage is opened for resuming exactly if a piece was restored that was not verified. -/
theorem tryLoadResume_spec (checkpoint : Option (List UInt8)) (verifiedPieces : Option (List Bool)) :
    let r := tryLoadResume c checkpoint (initialMap c verifiedPieces)
    r.2.pieceCount = c.info.pieceCount ∧
      (∀ i < c.info.pieceCount, r.2.get i = .done ∧
          (Verified verifiedPieces i ∨ Restored c checkpoint i) ∨
        r.2.get i = .needed ∧ ¬ (Verified verifiedPieces i ∨ Restored c checkpoint i)) ∧
      (r.1 = true ↔ ∃ i < c.info.pieceCount, Restored c checkpoint i ∧ ¬ Verified verifiedPieces i) := by
  have hcount := pieceCount_initialMap (c := c) verifiedPieces
  have hinit := fun i (hi : i < c.info.pieceCount) => get_initialMap verifiedPieces hi
  have hnotDone : ∀ i < c.info.pieceCount,
      ((initialMap c verifiedPieces).get i ≠ .done ↔ ¬ Verified verifiedPieces i) := by
    intro i hi
    rcases hinit i hi with ⟨hd, hv⟩ | ⟨hn, hv⟩
    · exact ⟨fun h => absurd hd h, fun h => absurd hv h⟩
    · rw [hn]
      exact ⟨fun _ => hv, fun _ => by decide⟩
  unfold tryLoadResume
  rcases hl : loadCheckpoint c checkpoint with _ | st
  · have hnone : ∀ i, ¬ Restored c checkpoint i := by
      rintro i ⟨st, hst, -⟩
      rw [hl] at hst
      cases hst
    refine ⟨hcount, fun i hi => ?_, ?_⟩
    · simp only [hnone, or_false]
      exact hinit i hi
    · simp only [hnone, false_and, and_false, exists_false, Bool.false_eq_true]
  · have hrest : ∀ i, Restored c checkpoint i ↔ st.isDone i = true := by
      intro i
      unfold Restored
      rw [hl]
      simp
    have hst := loadCheckpoint_pieceCount hl
    obtain ⟨hlen, hdone, hother, hpos⟩ := foldl_restorePiece st (initialMap c verifiedPieces)
      st.pieceCount (by omega)
    dsimp only at hlen hdone hother hpos ⊢
    refine ⟨hlen.trans hcount, fun i hi => ?_, ?_⟩
    · by_cases hd : ((List.range st.pieceCount).foldl (restorePiece st)
          (0, initialMap c verifiedPieces)).2.get i = .done
      · refine Or.inl ⟨hd, ?_⟩
        rcases (hdone i).mp hd with h | h
        · exact Or.inl (not_not.mp fun hv => (hnotDone i hi).mpr hv h)
        · exact Or.inr ((hrest i).mpr h.2)
      · have hm := hother i hd
        rw [hdone i, not_or, not_and, hst] at hd
        have hv := (hnotDone i hi).mp hd.1
        refine Or.inr ⟨?_, not_or.mpr ⟨hv, fun hr => hd.2 hi ((hrest i).mp hr)⟩⟩
        rcases hinit i hi with ⟨-, hv'⟩ | ⟨hn, -⟩
        · exact absurd hv' hv
        · rw [hm, hn]
    · rw [decide_eq_true_iff, hpos, hst]
      refine exists_congr fun i => and_congr_right fun hi => ?_
      rw [hrest i, hnotDone i hi]

theorem begin_ok {verifiedPieces : Option (List Bool)} {checkpoint : Option (List UInt8)}
    {s₀ : State σ} (h : begin c verifiedPieces checkpoint = .ok s₀) :
    ∃ storage, c.createStorage c.info.fileSize
        (tryLoadResume c checkpoint (initialMap c verifiedPieces)).1 = .ok storage ∧
      s₀ = start c (tryLoadResume c checkpoint (initialMap c verifiedPieces)).2 storage checkpoint := by
  unfold begin at h
  split_ifs at h
  dsimp only at h
  rcases hs : c.createStorage c.info.fileSize
    (tryLoadResume c checkpoint (initialMap c verifiedPieces)).1 with e | storage
  · rw [hs] at h
    cases h
  · rw [hs] at h
    cases h
    exact ⟨storage, rfl, rfl⟩

/-- The cells of the map the workers start with. -/
theorem get_start (checkpoint : Option (List UInt8)) (verifiedPieces : Option (List Bool)) (i : ℕ) :
    (tryLoadResume c checkpoint (initialMap c verifiedPieces)).2.get i = .done ∨
      (tryLoadResume c checkpoint (initialMap c verifiedPieces)).2.get i = .needed := by
  obtain ⟨hcount, hget, -⟩ := tryLoadResume_spec (c := c) checkpoint verifiedPieces
  by_cases hi : i < c.info.pieceCount
  · rcases hget i hi with ⟨h, -⟩ | ⟨h, -⟩
    · exact Or.inl h
    · exact Or.inr h
  · refine Or.inr (not_not.mp fun hne => hi ?_)
    rw [← hcount]
    exact SharedPieceMap.lt_of_get_ne hne

/-- **A run that returns `Ok`** was not cancelled, and its map is complete or has no failed piece. -/
theorem finish_ok {s final : State σ} {removed : Bool} (h : finish c s removed = (.ok (), final)) :
    s.cancelFlag = false ∧ (s.pieceMap.isComplete = true ∨ findFailed c s.pieceMap = none) ∧
      final.pieceMap = s.pieceMap ∧ final.storage = (c.backend.flush s.storage).2 := by
  unfold finish at h
  rcases hf : s.fatalError with _ | ⟨p, e⟩
  · rw [hf] at h
    dsimp only at h
    by_cases hc : s.cancelFlag = true
    · rw [if_pos hc] at h
      cases h
    · rw [if_neg hc] at h
      rw [Bool.not_eq_true] at hc
      rcases hm : (if s.pieceMap.isComplete then none else findFailed c s.pieceMap) with _ | p
      · rw [hm] at h
        dsimp only at h
        rcases hfl : c.backend.flush s.storage with ⟨e | u, storage⟩
        · rw [hfl] at h
          cases h
        · rw [hfl] at h
          cases h
          refine ⟨hc, ?_, rfl, rfl⟩
          split_ifs at hm with hcomplete
          · exact Or.inl hcomplete
          · exact Or.inr hm
      · rw [hm] at h
        cases h
  · rw [hf] at h
    cases h

end Restore

/-! ### Downloads to a file -/

/-- A download to an output file with the default storage. -/
structure Download where
  info : TorrentInfo
  config : CoordinatorConfig
  peerCount : ℕ
  sha1 : List UInt8 → List UInt8
  /-- The output file that is there. -/
  existing : Option (List UInt8)
  /-- What goes wrong when the file is opened, and afterwards. -/
  faults : OpenFaults
  later : List Fault

def Download.setup (d : Download) : Setup FileStorage where
  info := d.info
  config := d.config
  peerCount := d.peerCount
  backend := fileStorage
  createStorage fileSize resuming := (openFile d.existing fileSize resuming d.faults d.later).1
  sha1 := d.sha1

/-- The same download over another file, with other peers and other faults. -/
def Download.over (d : Download) (existing : Option (List UInt8)) (peerCount : ℕ)
    (faults : OpenFaults) (later : List Fault) : Download :=
  { d with existing, peerCount, faults, later }

section Samples

/-- The SHA-1 digests of the bytes `0xAA` and `0xBB` and of a zero byte, the only ones that are needed. -/
def sha1OfByte (data : List UInt8) : List UInt8 :=
  if data = [0xAA] then
    [0x52, 0x53, 0x8A, 0x80, 0x09, 0x4F, 0x7B, 0x62, 0x94, 0x8F,
      0xD3, 0x1E, 0x68, 0xFD, 0x17, 0xA3, 0x15, 0xD8, 0xDC, 0x91]
  else if data = [0xBB] then
    [0x1A, 0x5D, 0x2A, 0x45, 0x77, 0x2C, 0x53, 0xD8, 0x03, 0xDE,
      0xF1, 0x07, 0xB6, 0x73, 0x66, 0xDB, 0x0B, 0x8E, 0x20, 0xAF]
  else if data = [0x00] then
    [0x5B, 0xA9, 0x3C, 0x9D, 0xB0, 0xCF, 0xF9, 0x3F, 0x52, 0xB5,
      0x21, 0xD7, 0x42, 0x0E, 0x43, 0xF6, 0xED, 0xA2, 0x78, 0x4F]
  else []

/-- A torrent of the byte `0xAA`. -/
def oneByteInfo : TorrentInfo := ⟨1, sha1OfByte [0xAA], 1⟩

/-- Its download over an output file that may exist. -/
def oneByte (existing : Option (List UInt8)) (config : CoordinatorConfig) (peerCount : ℕ) :
    Download :=
  ⟨oneByteInfo, config, peerCount, sha1OfByte, existing, ⟨none, none, none, none⟩, []⟩

/-- The download of the bytes `0xAA` and `0xBB`, a piece each, by two workers. -/
def twoBytes (config : CoordinatorConfig) : Download :=
  ⟨⟨1, sha1OfByte [0xAA] ++ sha1OfByte [0xBB], 2⟩, { config with maxConcurrentPieces := 2 }, 2, sha1OfByte, none,
    ⟨none, none, none, none⟩, []⟩

/-- Bulk mode with one worker and no retries, no speed limit, no endgame and no blacklist. -/
def plainConfig : CoordinatorConfig := ⟨1, 0, 0, 0, 0, false, false⟩

/-- A web seed. -/
def webSeed : PeerView := ⟨true, false, 500000, false, false, false, 100, false⟩

/-- A step of a worker while there are so many web seeds, whose fetches return `fetched`. -/
def withSeeds (count w : ℕ) (fetched : Option (List UInt8)) : Action :=
  .worker w ⟨List.replicate count webSeed, none, fetched, true⟩

/-- So many steps of one of two workers, with two web seeds, whose fetches return the byte. -/
def seeded (w : ℕ) (b : UInt8) (n : ℕ) : List Action := List.replicate n (withSeeds 2 w (some [b]))

end Samples

end CncContent.Coordinator.Run
