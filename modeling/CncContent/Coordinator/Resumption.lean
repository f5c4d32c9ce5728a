import CncContent.Coordinator.Contents

/-! # Resuming a download

Downloads to an output file. The file that is there is kept only if the resume file has a piece that
is not done already (`Kept`). The pieces that the caller has verified are marked done before, so if
the resume file adds none to them, the file is replaced by zeros, and they are lost
(`verified_piece_lost`). When a run that returns `Ok` leaves an intact file is said by
`returns_intact_iff`. Runs of `new` that share a resume file always do, however often they are cut
short (`sessions_intact`). -/

namespace CncContent.Coordinator.Resumption

open CncContent.Lib.Bytes CncContent.Lib.Overlay CncContent.Lib.Runs CncContent.Storage.Backend
open CncContent.Storage.File CncContent.Torrent.Info CncContent.Torrent.PieceMap
open CncContent.Torrent.Resume CncContent.Coordinator.Worker CncContent.Coordinator.Run
open CncContent.Coordinator.Steps CncContent.Coordinator.Ownership CncContent.Coordinator.Safety
open CncContent.Coordinator.Contents

section Files

variable {d : Download} {verifiedPieces : Option (List Bool)} {checkpoint : Option (List UInt8)}
variable {s₀ s final : State FileStorage} {actions : List Action}

/-- The bytes of the file in the range of the piece have its hash. -/
def OnDisk (info : TorrentInfo) (sha1 : List UInt8 → List UInt8) (bytes : List UInt8) (i : ℕ) :
    Prop :=
  ∃ d, slice bytes (info.pieceOffset i) (info.pieceOffset i + info.pieceSize i) = some d ∧
    info.pieceHash i = some (sha1 d)

/-- The file that is there is kept when the storage is opened: the resume file has a piece that the
caller has not verified, and the length of the file can be read and is right. -/
def Kept (d : Download) (verifiedPieces : Option (List Bool)) (checkpoint : Option (List UInt8)) :
    Prop :=
  (∃ i < d.info.pieceCount, Restored d.setup checkpoint i ∧ ¬ Verified verifiedPieces i) ∧
    d.faults.metadata = none ∧ ∃ bytes ∈ d.existing, bytes.length = d.info.fileSize

theorem onDisk_iff (hwf : d.info.WellFormed) {bytes : List UInt8}
    (hlen : bytes.length = d.info.fileSize) {i : ℕ} (hi : i < d.info.pieceCount) :
    OnDisk d.info d.sha1 bytes i ↔ Right d.setup (contents bytes) i := by
  have hend := TorrentInfo.piece_end_le hwf hi
  unfold OnDisk
  rw [slice_eq_window (by omega)]
  constructor
  · rintro ⟨d, hd, hhash⟩
    cases hd
    exact hhash
  · exact fun h => ⟨_, rfl, h⟩

theorem pieceBytes_zeros (info : TorrentInfo) (n i : ℕ) :
    pieceBytes info (contents (List.replicate n 0)) i = List.replicate (info.pieceSize i) 0 := by
  refine List.eq_replicate_iff.mpr ⟨length_window _ _ _, fun b hb => ?_⟩
  obtain ⟨k, -, rfl⟩ := List.mem_map.mp hb
  unfold contents
  rw [List.getElem?_replicate]
  split_ifs <;> rfl

/-! ### The start -/

/-- **The file the workers start with**: the one that was there, or zeros. -/
theorem begin_file (h : begin d.setup verifiedPieces checkpoint = .ok s₀) :
    Kept d verifiedPieces checkpoint ∧ d.existing = some s₀.storage.bytes ∧
        s₀.storage.bytes.length = d.info.fileSize ∨
      ¬ Kept d verifiedPieces checkpoint ∧
        s₀.storage.bytes = List.replicate d.info.fileSize 0 := by
  obtain ⟨storage, hopen, rfl⟩ := begin_ok h
  obtain ⟨-, -, hresuming⟩ := tryLoadResume_spec (c := d.setup) checkpoint verifiedPieces
  obtain ⟨hbytes, -⟩ := openFile_ok hopen
  show _ ∧ d.existing = some storage.bytes ∧ storage.bytes.length = _ ∨
    _ ∧ storage.bytes = List.replicate _ 0
  rcases hr : reusable d.existing d.setup.info.fileSize
    (tryLoadResume d.setup checkpoint (initialMap d.setup verifiedPieces)).1 d.faults.metadata
    with _ | bytes
  · rw [hr] at hbytes
    refine Or.inr ⟨?_, hbytes⟩
    rintro ⟨hnew, hmeta, bytes, hex, hlen⟩
    have hsome : reusable d.existing d.setup.info.fileSize
        (tryLoadResume d.setup checkpoint (initialMap d.setup verifiedPieces)).1
        d.faults.metadata = some bytes :=
      reusable_eq_some_iff.mpr ⟨hresuming.mpr hnew, hmeta, hex, hlen⟩
    rw [hsome] at hr
    cases hr
  · obtain ⟨hres, hmeta, hex, hlen⟩ := reusable_eq_some_iff.mp hr
    rw [hr] at hbytes
    rw [hbytes]
    exact Or.inl ⟨⟨hresuming.mp hres, hmeta, bytes, hex, hlen⟩, hex, hlen⟩

theorem length_start (h : begin d.setup verifiedPieces checkpoint = .ok s₀) :
    s₀.storage.bytes.length = d.info.fileSize := by
  rcases begin_file h with ⟨-, -, hlen⟩ | ⟨-, hzeros⟩
  · exact hlen
  · rw [hzeros]
    exact List.length_replicate

/-- The pieces the workers find done are those that were verified and those of the resume file. -/
theorem done_start (h : begin d.setup verifiedPieces checkpoint = .ok s₀) {i : ℕ}
    (hi : i < d.info.pieceCount) :
    s₀.pieceMap.get i = .done ↔ Verified verifiedPieces i ∨ Restored d.setup checkpoint i := by
  obtain ⟨storage, -, rfl⟩ := begin_ok h
  obtain ⟨-, hget, -⟩ := tryLoadResume_spec (c := d.setup) checkpoint verifiedPieces
  rcases hget i hi with ⟨hd, hor⟩ | ⟨hn, hnot⟩
  · exact ⟨fun _ => hor, fun _ => hd⟩
  · refine ⟨fun hd => ?_, fun hor => absurd hor hnot⟩
    cases hd.symm.trans hn

/-! ### Runs -/

section Runs

variable (hwf : d.info.WellFormed) (hgen : d.info.Genuine d.sha1)

include hwf hgen

/-- The workers never change the length of the file. -/
theorem length_reachable (h : begin d.setup verifiedPieces checkpoint = .ok s₀)
    (hr : run (step d.setup) s₀ actions = some s) : s.storage.bytes.length = d.info.fileSize := by
  have hstep : ∀ s a s', Inv d.setup s ∧ s.storage.bytes.length = d.info.fileSize →
      step d.setup s a = some s' → Inv d.setup s' ∧ s'.storage.bytes.length = d.info.fileSize := by
    rintro s a s' ⟨hi, hlen⟩ hs
    refine ⟨inv_step hi hs, ?_⟩
    rcases step_cases hs with ⟨-, rfl⟩ | ⟨w, world, pc, pc', e, rfl, hm⟩
    · exact hlen
    · rw [hm.storage]
      have hw := hm.worker
      have he := hm.enables
      cases e with
      | write p data =>
        obtain ⟨rfl, -⟩ := he
        have hp : p < d.info.pieceCount := hi.lt_of_holds hw rfl
        have hsize := length_of_verifyPiece (c := d.setup) hgen hp
          (hi.history.verifyPiece_of_lastEvents hw List.mem_cons_self)
        have hend := TorrentInfo.piece_end_le hwf hp
        refine (length_writePiece s.storage p ?_).trans hlen
        rw [hsize, hlen]
        exact hend
      | _ => exact hlen
  exact (inv_run hstep ⟨inv_start h, length_start h⟩ hr).2

theorem length_returns (h : begin d.setup verifiedPieces checkpoint = .ok s₀)
    (hr : Returns d.setup s₀ actions final) : final.storage.bytes.length = d.info.fileSize := by
  obtain ⟨s, removed, hrun, -, hfinish⟩ := hr
  obtain ⟨-, -, -, hstorage⟩ := finish_ok hfinish
  rw [hstorage]
  exact (congrArg List.length (bytes_flush s.storage)).trans (length_reachable hwf hgen h hrun)

/-- A run that returns `Ok` leaves an intact file exactly if the pieces that the workers found done
were right. -/
theorem intact_iff_start (h : begin d.setup verifiedPieces checkpoint = .ok s₀)
    (hr : Returns d.setup s₀ actions final) :
    (∀ i < d.info.pieceCount,
        final.pieceMap.get i = .done ∧ OnDisk d.info d.sha1 final.storage.bytes i) ↔
      ∀ i < d.info.pieceCount, s₀.pieceMap.get i = .done → Right d.setup (view s₀.storage) i := by
  obtain ⟨hdone, hright⟩ := returns_right_iff (c := d.setup) hgen fileStorage_lawful hwf h hr
  have hlen : final.storage.bytes.length = d.info.fileSize := length_returns hwf hgen h hr
  refine Iff.trans ?_ hright
  exact ⟨fun hall i hi => (onDisk_iff hwf hlen hi).mp (hall i hi).2,
    fun hall i hi => ⟨hdone i hi, (onDisk_iff hwf hlen hi).mpr (hall i hi)⟩⟩

/-- **When a finished file is intact.** Let the verified pieces be right in the file that is there.
A run that returns `Ok` leaves all pieces done and right on disk exactly if either that file is kept
and the pieces of the resume file are right in it, or it is replaced and the pieces that are verified
or in the resume file consist of zeros. -/
theorem returns_intact_iff
    (hverified : ∀ i < d.info.pieceCount, Verified verifiedPieces i →
      ∃ bytes ∈ d.existing, OnDisk d.info d.sha1 bytes i)
    (h : begin d.setup verifiedPieces checkpoint = .ok s₀)
    (hr : Returns d.setup s₀ actions final) :
    (∀ i < d.info.pieceCount,
        final.pieceMap.get i = .done ∧ OnDisk d.info d.sha1 final.storage.bytes i) ↔
      Kept d verifiedPieces checkpoint ∧
        (∀ i < d.info.pieceCount, Restored d.setup checkpoint i →
          ∃ bytes ∈ d.existing, OnDisk d.info d.sha1 bytes i) ∨
      ¬ Kept d verifiedPieces checkpoint ∧
        ∀ i < d.info.pieceCount, Verified verifiedPieces i ∨ Restored d.setup checkpoint i →
          d.info.pieceHash i = some (d.sha1 (List.replicate (d.info.pieceSize i) 0)) := by
  rw [intact_iff_start hwf hgen h hr]
  rcases begin_file h with ⟨hkept, hex, hlen⟩ | ⟨hkept, hzeros⟩
  · have honDisk : ∀ i < d.info.pieceCount, Right d.setup (view s₀.storage) i ↔
        ∃ bytes ∈ d.existing, OnDisk d.info d.sha1 bytes i := by
      intro i hi
      rw [hex]
      constructor
      · exact fun hright => ⟨_, rfl, (onDisk_iff hwf hlen hi).mpr hright⟩
      · rintro ⟨bytes, hb, hdisk⟩
        cases hb
        exact (onDisk_iff hwf hlen hi).mp hdisk
    constructor
    · exact fun hall => Or.inl ⟨hkept, fun i hi hrest =>
        (honDisk i hi).mp (hall i hi ((done_start h hi).mpr (Or.inr hrest)))⟩
    · rintro (⟨-, hrest⟩ | ⟨hnot, -⟩) i hi hd
      · rw [honDisk i hi]
        exact ((done_start h hi).mp hd).elim (hverified i hi) (hrest i hi)
      · exact absurd hkept hnot
  · have hzero : ∀ i, Right d.setup (view s₀.storage) i ↔
        d.info.pieceHash i = some (d.sha1 (List.replicate (d.info.pieceSize i) 0)) := by
      intro i
      have hbytes : pieceBytes d.info (contents s₀.storage.bytes) i =
          List.replicate (d.info.pieceSize i) 0 := by
        rw [hzeros]
        exact pieceBytes_zeros d.info _ i
      show d.info.pieceHash i = some (d.sha1 (pieceBytes d.info (contents s₀.storage.bytes) i)) ↔ _
      rw [hbytes]
    constructor
    · exact fun hall => Or.inr ⟨hkept, fun i hi hor =>
        (hzero i).mp (hall i hi ((done_start h hi).mpr hor))⟩
    · rintro (⟨hyes, -⟩ | ⟨-, hor⟩) i hi hd
      · exact absurd hyes hkept
      · exact (hzero i).mpr (hor i hi ((done_start h hi).mp hd))

end Runs

/-! ### Sessions -/

/-- The pieces of the resume file are right in the output file. -/
def Sound (d : Download) (existing checkpoint : Option (List UInt8)) : Prop :=
  ∀ i < d.info.pieceCount, Restored d.setup checkpoint i →
    ∃ bytes ∈ existing, bytes.length = d.info.fileSize ∧ OnDisk d.info d.sha1 bytes i

/-- The output file and the resume file after any number of runs of `new`, each of which may have
failed to open the output file, or ended in any state of its workers. -/
inductive Sessions (d : Download) : Option (List UInt8) → Option (List UInt8) → Prop
  | fresh (existing : Option (List UInt8)) : Sessions d existing none
  | opened {existing checkpoint : Option (List UInt8)} (peerCount : ℕ) (faults : OpenFaults)
      (later : List Fault) (hmeta : faults.metadata = none)
      (h : Sessions d existing checkpoint) :
      Sessions d (openFile existing d.info.fileSize
        (tryLoadResume (d.over existing peerCount faults later).setup checkpoint
          (initialMap (d.over existing peerCount faults later).setup none)).1 faults later).2
        checkpoint
  | ran {existing checkpoint : Option (List UInt8)} (peerCount : ℕ) (faults : OpenFaults)
      (later : List Fault) (hmeta : faults.metadata = none)
      (h : Sessions d existing checkpoint) {s₀ s : State FileStorage} {actions : List Action}
      (hbegin : begin (d.over existing peerCount faults later).setup none checkpoint = .ok s₀)
      (hrun : run (step (d.over existing peerCount faults later).setup) s₀ actions = some s) :
      Sessions d (some s.storage.bytes) s.checkpoint
  | removed {existing checkpoint : Option (List UInt8)} (h : Sessions d existing checkpoint) :
      Sessions d existing none

/-- A run of `new` over sound files starts with pieces that are right. -/
theorem Sound.start (h : Sound d d.existing checkpoint) (hwf : d.info.WellFormed)
    (hmeta : d.faults.metadata = none) (hbegin : begin d.setup none checkpoint = .ok s₀) :
    ∀ i < d.info.pieceCount, s₀.pieceMap.get i = .done → Right d.setup (view s₀.storage) i := by
  intro i hi hd
  have hrestored := ((done_start hbegin hi).mp hd).resolve_left (not_verified_none i)
  obtain ⟨bytes, hex, hlen, hdisk⟩ := h i hi hrestored
  have hkept : Kept d none checkpoint :=
    ⟨⟨i, hi, hrestored, not_verified_none i⟩, hmeta, bytes, hex, hlen⟩
  rcases begin_file hbegin with ⟨-, hsame, -⟩ | ⟨hnot, -⟩
  · obtain rfl : s₀.storage.bytes = bytes := Option.some.inj (hsame.symm.trans hex)
    exact (onDisk_iff hwf hlen hi).mp hdisk
  · exact absurd hkept hnot

theorem Sound.ran (h : Sound d d.existing checkpoint) (hwf : d.info.WellFormed)
    (hgen : d.info.Genuine d.sha1) (hmeta : d.faults.metadata = none)
    (hbegin : begin d.setup none checkpoint = .ok s₀)
    (hrun : run (step d.setup) s₀ actions = some s) :
    Sound d (some s.storage.bytes) s.checkpoint := by
  intro i hi hrestored
  have hlen := length_reachable hwf hgen hbegin hrun
  have hdone := restored_done hwf hbegin hrun hi hrestored
  have hholds := holds_reachable (c := d.setup) hgen fileStorage_lawful hwf hbegin hrun
  exact ⟨_, rfl, hlen,
    (onDisk_iff hwf hlen hi).mpr (hholds.right (h.start hwf hmeta hbegin) hi hdone)⟩

/-- **After any number of runs of `new`** the resume file is sound. -/
theorem Sessions.sound (hwf : d.info.WellFormed) (hgen : d.info.Genuine d.sha1)
    {existing : Option (List UInt8)} (h : Sessions d existing checkpoint) :
    Sound d existing checkpoint := by
  induction h with
  | fresh existing =>
    intro i hi hrestored
    exact absurd hrestored (not_restored_none i)
  | @opened existing checkpoint n f l hmeta h ih =>
    intro i hi hrestored
    obtain ⟨bytes, hex, hlen, hdisk⟩ := ih i hi hrestored
    -- the file is reused, since the resume file has a piece
    have hresuming : (tryLoadResume (d.over existing n f l).setup checkpoint
        (initialMap (d.over existing n f l).setup none)).1 = true :=
      (tryLoadResume_spec checkpoint none).2.2.mpr ⟨i, hi, hrestored, not_verified_none i⟩
    rw [openFile_reusable (reusable_eq_some_iff.mpr ⟨hresuming, hmeta, hex, hlen⟩)]
    exact ⟨bytes, hex, hlen, hdisk⟩
  | @ran existing checkpoint n f l hmeta h s₀ s actions hbegin hrun ih =>
    have hsound : Sound (d.over existing n f l) existing checkpoint := ih
    exact hsound.ran hwf hgen hmeta hbegin hrun
  | removed h ih =>
    intro i hi hrestored
    exact absurd hrestored (not_restored_none i)

/-- **A run of `new` after such runs** leaves an intact file if it returns `Ok`. -/
theorem sessions_intact (hwf : d.info.WellFormed) (hgen : d.info.Genuine d.sha1)
    (h : Sessions d d.existing checkpoint) (hmeta : d.faults.metadata = none)
    (hbegin : begin d.setup none checkpoint = .ok s₀) (hr : Returns d.setup s₀ actions final) :
    ∀ i < d.info.pieceCount,
      final.pieceMap.get i = .done ∧ OnDisk d.info d.sha1 final.storage.bytes i :=
  (intact_iff_start hwf hgen hbegin hr).mpr ((h.sound hwf hgen).start hwf hmeta hbegin)

end Files

/-! ### The smallest download -/

section OneByte

theorem oneByte_wellFormed : oneByteInfo.WellFormed := ⟨by decide, by decide, rfl⟩

theorem oneByte_genuine : oneByteInfo.Genuine sha1OfByte := by
  intro i hi
  obtain rfl : i = 0 := Nat.lt_one_iff.mp hi
  refine ⟨[0xAA], rfl, rfl, fun d hd => ?_⟩
  by_contra hne
  rw [sha1OfByte, if_neg hne] at hd
  split_ifs at hd
  · exact absurd hd (by decide)
  · exact absurd hd (by decide)
  · exact absurd hd (by decide)

/-- One worker, and a resume file. -/
def resumeConfig : CoordinatorConfig := ⟨1, 0, 0, 0, 0, true, false⟩

/-- The resume file of the finished download. -/
def oneByteCheckpoint : List UInt8 := ResumeState.save ⟨1, 1, [1]⟩

theorem stopped_of_workers {s : State FileStorage} {n : ℕ} (h : s.workers = List.replicate n (.stopped none)) :
    Stopped s := by
  intro pc hpc
  rw [h] at hpc
  exact ⟨none, List.eq_of_mem_replicate hpc⟩

/-- A download that is resumed with its only piece. -/
theorem returns_intact_iff_one_byte : ∃ final,
    Returns (oneByte (some [0xAA]) resumeConfig 1).setup
      (start (oneByte (some [0xAA]) resumeConfig 1).setup ⟨[.done]⟩ ⟨[0xAA], []⟩
        (some oneByteCheckpoint)) (List.replicate 3 (withSeeds 1 0 none)) final ∧
    ∀ i < 1, final.pieceMap.get i = .done ∧ OnDisk oneByteInfo sha1OfByte final.storage.bytes i := by
  have hbegin : begin (oneByte (some [0xAA]) resumeConfig 1).setup none (some oneByteCheckpoint) =
      .ok (start (oneByte (some [0xAA]) resumeConfig 1).setup ⟨[.done]⟩ ⟨[0xAA], []⟩
        (some oneByteCheckpoint)) := rfl
  obtain ⟨final, hreturns⟩ : ∃ final, Returns (oneByte (some [0xAA]) resumeConfig 1).setup
      (start (oneByte (some [0xAA]) resumeConfig 1).setup ⟨[.done]⟩ ⟨[0xAA], []⟩
        (some oneByteCheckpoint)) (List.replicate 3 (withSeeds 1 0 none)) final :=
    ⟨_, _, true, rfl, stopped_of_workers (n := 1) rfl, rfl⟩
  have hrestored : Restored (oneByte (some [0xAA]) resumeConfig 1).setup
      (some oneByteCheckpoint) 0 := ⟨⟨1, 1, [1]⟩, rfl, rfl⟩
  have hkept : Kept (oneByte (some [0xAA]) resumeConfig 1) none (some oneByteCheckpoint) :=
    ⟨⟨0, Nat.one_pos, hrestored, not_verified_none 0⟩, rfl, [0xAA], rfl, rfl⟩
  refine ⟨final, hreturns, (returns_intact_iff (d := oneByte (some [0xAA]) resumeConfig 1)
    oneByte_wellFormed oneByte_genuine (fun i _ h => absurd h (not_verified_none i)) hbegin
    hreturns).mpr (Or.inl ⟨hkept, fun i hi _ => ⟨[0xAA], rfl, ?_⟩⟩)⟩
  obtain rfl : i = 0 := Nat.lt_one_iff.mp hi
  exact ⟨[0xAA], rfl, rfl⟩

/-- **A verified piece is lost**: the only piece is right on disk and marked done, but without a
resume file the run replaces the file and returns `Ok`. -/
theorem verified_piece_lost :
    OnDisk oneByteInfo sha1OfByte [0xAA] 0 ∧
    begin (oneByte (some [0xAA]) plainConfig 1).setup (some [true]) none =
      .ok (start (oneByte (some [0xAA]) plainConfig 1).setup ⟨[.done]⟩ ⟨[0x00], []⟩ none) ∧
    ∃ final, Returns (oneByte (some [0xAA]) plainConfig 1).setup
        (start (oneByte (some [0xAA]) plainConfig 1).setup ⟨[.done]⟩ ⟨[0x00], []⟩ none)
        (List.replicate 3 (withSeeds 1 0 none)) final ∧
      final.pieceMap.get 0 = .done ∧ ¬ OnDisk oneByteInfo sha1OfByte final.storage.bytes 0 := by
  refine ⟨⟨[0xAA], rfl, rfl⟩, rfl, _, ⟨_, true, rfl, stopped_of_workers (n := 1) rfl, rfl⟩, rfl, ?_⟩
  rintro ⟨d, hd, hhash⟩
  cases hd
  exact absurd hhash (by decide)

end OneByte

end CncContent.Coordinator.Resumption
