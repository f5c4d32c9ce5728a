import CncContent.Coordinator.Safety

/-! # What the storage holds

Over any lawful backend: a piece that is done when the workers start keeps the bytes it has then, as
nobody claims it, and any other piece that is done has the bytes that were verified (`Holds`). So a
run that returns `Ok` is as right as its start (`returns_right_iff`). The resume file names pieces
only that are done (`restored_done`). -/

namespace CncContent.Coordinator.Contents

open CncContent.Lib.Bounded CncContent.Lib.Bytes CncContent.Lib.Overlay CncContent.Lib.Owners
open CncContent.Lib.Runs CncContent.Storage.Backend CncContent.Torrent.Info
open CncContent.Torrent.PieceMap CncContent.Torrent.Resume CncContent.Coordinator.Worker
open CncContent.Coordinator.Run CncContent.Coordinator.Steps CncContent.Coordinator.Ownership
open CncContent.Coordinator.Scans CncContent.Coordinator.Safety

section Contents

variable {σ : Type} {c : Setup σ} {view : σ → ℕ → UInt8} {s₀ s s' : State σ}
variable {w : ℕ} {pc pc' : Pc} {e : Effect}

/-- The bytes in the range of the piece. -/
def pieceBytes (info : TorrentInfo) (v : ℕ → UInt8) (i : ℕ) : List UInt8 :=
  window v (info.pieceOffset i) (info.pieceSize i)

/-- The bytes in the range of the piece have its hash. -/
def Right (c : Setup σ) (v : ℕ → UInt8) (i : ℕ) : Prop :=
  c.info.pieceHash i = some (c.sha1 (pieceBytes c.info v i))

/-! ### Writes -/

/-- Verified data are the bytes of the piece. -/
theorem length_of_verifyPiece (hgen : c.info.Genuine c.sha1) {p : ℕ} (hp : p < c.info.pieceCount)
    {data : List UInt8} (h : verifyPiece c p data = true) : data.length = c.info.pieceSize p := by
  obtain ⟨d, hlen, hd, hinj⟩ := hgen p hp
  have hhash := beq_iff_eq.mp h
  rw [hd] at hhash
  rw [hinj data (Option.some.inj hhash).symm, hlen]

theorem isOk_iff {ε : Type} {r : Except ε Unit} : isOk r = true ↔ r = .ok () := by
  cases r with
  | error e => exact ⟨nofun, nofun⟩
  | ok u => exact ⟨fun _ => rfl, fun _ => rfl⟩

/-- What leads to `mark_done` is a successful write. -/
theorem markDone_enables {p : ℕ} {data : List UInt8} (he : Enables c s pc (.markDone p data) e) :
    pc = .writePiece p data ∧ e = .write p data ∧
      (c.backend.writePiece s.storage p (c.info.pieceOffset p) data).1 = .ok () := by
  have quiet : ∀ {pc₀ : Pc} {P : Prop}, Quiet pc₀ (.markDone p data) → P := by
    intro pc₀ P hq
    cases hq.written.2
  cases e with
  | reset i =>
    obtain ⟨-, _, -, h, -⟩ := he
    cases h
  | claim q => cases he.2.2.2.2
  | fail q =>
    obtain ⟨-, -, -, _, h⟩ := he
    cases h
  | charge q cause => cases he.2
  | verified q d => cases he.2.1
  | write q d =>
    obtain ⟨rfl, ⟨hok, h⟩ | ⟨-, _, h⟩⟩ := he
    · cases h
      exact ⟨rfl, rfl, isOk_iff.mp hok⟩
    · cases h
  | done q =>
    obtain ⟨_, -, h⟩ := he
    cases h
  | cancel =>
    obtain ⟨_, _, -, h⟩ := he
    cases h
  | fatal q err => cases he.2
  | none => exact quiet he
  | lock => exact quiet he
  | unlock => exact quiet he
  | credit d => exact quiet he
  | save st saved => exact quiet he.1

section Lawful

variable (hgen : c.info.Genuine c.sha1) (hlaw : c.backend.Lawful view)

include hgen hlaw

/-- **A write puts the verified bytes into its piece.** -/
theorem right_of_write (hi : Inv c s) {p : ℕ} {data : List UInt8}
    (hm : Moved c s s' w pc (.markDone p data) e) : Right c (view s'.storage) p := by
  obtain ⟨rfl, rfl, hok⟩ := markDone_enables hm.enables
  have hp : p < c.info.pieceCount := hi.lt_of_holds hm.worker rfl
  have hverified := hi.history.verifyPiece_of_lastEvents hm.worker List.mem_cons_self
  have hbytes : pieceBytes c.info (view s'.storage) p = data := by
    rw [hm.storage]
    show window (view (c.backend.writePiece s.storage p (c.info.pieceOffset p) data).2) _ _ = data
    rw [hlaw.write_ok _ _ _ _ hok, ← length_of_verifyPiece hgen hp hverified]
    exact window_overlay _ _ _
  unfold Right
  rw [hbytes]
  exact beq_iff_eq.mp hverified

variable (hwf : c.info.WellFormed)

include hwf

/-- **A write touches its own piece only.** -/
theorem pieceBytes_moved (hi : Inv c s) (hm : Moved c s s' w pc pc' e) {i : ℕ}
    (hlt : i < c.info.pieceCount) (hne : ∀ data, pc ≠ .writePiece i data) :
    pieceBytes c.info (view s'.storage) i = pieceBytes c.info (view s.storage) i := by
  rw [hm.storage]
  have hw := hm.worker
  have he := hm.enables
  cases e with
  | write p data =>
    obtain ⟨rfl, -⟩ := he
    have hp : p < c.info.pieceCount := hi.lt_of_holds hw rfl
    have hlen := length_of_verifyPiece hgen hp
      (hi.history.verifyPiece_of_lastEvents hw List.mem_cons_self)
    have hip : i ≠ p := by
      rintro rfl
      exact hne data rfl
    have hapart := TorrentInfo.pieces_disjoint hwf hlt hp hip
    refine window_congr fun x hx => hlaw.write_error _ _ _ _ _ fun hx' => ?_
    obtain ⟨hx1, hx2⟩ := hx
    obtain ⟨hx1', hx2'⟩ := hx'
    omega
  | _ => rfl

end Lawful

/-! ### Pieces that are done -/

/-- What the storage holds in a state `s` reached from `s₀`. -/
structure Holds (c : Setup σ) (view : σ → ℕ → UInt8) (s₀ s : State σ) : Prop where
  grows : SharedPieceMap.DoneGrows s₀.pieceMap s.pieceMap
  kept : ∀ i < c.info.pieceCount, s₀.pieceMap.get i = .done →
    pieceBytes c.info (view s.storage) i = pieceBytes c.info (view s₀.storage) i
  fetched : ∀ i < c.info.pieceCount, s₀.pieceMap.get i ≠ .done →
    (s.pieceMap.get i = .done ∨
      ∃ (v : ℕ) (data : List UInt8), s.workers[v]? = some (.markDone i data)) →
        Right c (view s.storage) i

theorem holds_start {verifiedPieces : Option (List Bool)} {checkpoint : Option (List UInt8)}
    (h : begin c verifiedPieces checkpoint = .ok s₀) : Holds c view s₀ s₀ := by
  refine ⟨SharedPieceMap.DoneGrows.refl _, fun _ _ _ => rfl, fun i _ hne hor => ?_⟩
  rcases hor with hdone | ⟨v, data, hv⟩
  · exact absurd hdone hne
  · obtain ⟨storage, -, rfl⟩ := begin_ok h
    cases List.eq_of_mem_replicate (List.mem_of_getElem? hv)

/-- **A move keeps what the storage holds.** -/
theorem Holds.moved (hgen : c.info.Genuine c.sha1) (hlaw : c.backend.Lawful view)
    (hwf : c.info.WellFormed) (hi : Inv c s) (h : Holds c view s₀ s)
    (hm : Moved c s s' w pc pc' e) : Holds c view s₀ s' := by
  have hgrow := doneGrows_moved hi.owned hm
  have hw := hm.worker
  have hnotWriting : ∀ {i : ℕ}, s.pieceMap.get i = .done → ∀ data, pc ≠ .writePiece i data := by
    rintro i hdone data rfl
    cases (hi.owned.get_eq hw rfl).symm.trans hdone
  refine ⟨⟨hgrow.pieceCount.trans h.grows.pieceCount, fun i hd => hgrow.done i (h.grows.done i hd)⟩,
    fun i hlt hd => ?_, fun i hlt hne hor => ?_⟩
  · rw [pieceBytes_moved hgen hlaw hwf hi hm hlt (hnotWriting (h.grows.done i hd))]
    exact h.kept i hlt hd
  · have hsame : (s.pieceMap.get i = .done ∨
        ∃ (v : ℕ) (data : List UInt8), s.workers[v]? = some (.markDone i data)) →
          (∀ data, pc ≠ .writePiece i data) → Right c (view s'.storage) i := by
      intro hold hpc
      unfold Right
      rw [pieceBytes_moved hgen hlaw hwf hi hm hlt hpc]
      exact h.fetched i hlt hne hold
    rcases hor with hdone | ⟨v, data, hv⟩
    · by_cases hd : s.pieceMap.get i = .done
      · exact hsame (Or.inl hd) (hnotWriting hd)
      · rw [hm.pieceMap] at hdone
        obtain ⟨data, rfl⟩ := done_enables hd hdone hm.enables
        exact hsame (Or.inr ⟨w, data, hw⟩) nofun
    · rw [hm.workers, getElem?_set hw] at hv
      split_ifs at hv with hvw
      · cases hv
        exact right_of_write hgen hlaw hi hm
      · refine hsame (Or.inr ⟨v, data, hv⟩) ?_
        rintro d rfl
        exact hvw (hi.owned.exclusive v w i ⟨_, hv, rfl⟩ ⟨_, hw, rfl⟩)

theorem holds_reachable (hgen : c.info.Genuine c.sha1) (hlaw : c.backend.Lawful view)
    (hwf : c.info.WellFormed) {verifiedPieces : Option (List Bool)}
    {checkpoint : Option (List UInt8)} {actions : List Action}
    (h : begin c verifiedPieces checkpoint = .ok s₀) (hr : run (step c) s₀ actions = some s) :
    Holds c view s₀ s := by
  have hstep : ∀ s a s', Inv c s ∧ Holds c view s₀ s → step c s a = some s' →
      Inv c s' ∧ Holds c view s₀ s' := by
    rintro s a s' ⟨hi, hh⟩ hs
    refine ⟨inv_step hi hs, ?_⟩
    rcases step_cases hs with ⟨-, rfl⟩ | ⟨w, world, pc, pc', e, rfl, hm⟩
    · exact ⟨hh.grows, hh.kept, hh.fetched⟩
    · exact hh.moved hgen hlaw hwf hi hm
  exact (inv_run hstep ⟨inv_start h, holds_start h⟩ hr).2

/-- If the pieces that were done at the start were right, then all that are done are right. -/
theorem Holds.right (h : Holds c view s₀ s)
    (hstart : ∀ i < c.info.pieceCount, s₀.pieceMap.get i = .done → Right c (view s₀.storage) i)
    {i : ℕ} (hlt : i < c.info.pieceCount) (hdone : s.pieceMap.get i = .done) :
    Right c (view s.storage) i := by
  by_cases hd : s₀.pieceMap.get i = .done
  · unfold Right
    rw [h.kept i hlt hd]
    exact hstart i hlt hd
  · exact h.fetched i hlt hd (Or.inl hdone)

/-- **A run that returns `Ok` is as right as its start**: all pieces are done, and all are right if
those were that the workers found done. -/
theorem returns_right_iff (hgen : c.info.Genuine c.sha1) (hlaw : c.backend.Lawful view)
    (hwf : c.info.WellFormed) {verifiedPieces : Option (List Bool)}
    {checkpoint : Option (List UInt8)} {actions : List Action} {final : State σ}
    (h : begin c verifiedPieces checkpoint = .ok s₀) (hr : Returns c s₀ actions final) :
    (∀ i < c.info.pieceCount, final.pieceMap.get i = .done) ∧
      ((∀ i < c.info.pieceCount, Right c (view final.storage) i) ↔
        ∀ i < c.info.pieceCount, s₀.pieceMap.get i = .done → Right c (view s₀.storage) i) := by
  obtain ⟨s, removed, hrun, hstopped, hfinish⟩ := hr
  have hi := inv_reachable h hrun
  have hh := holds_reachable hgen hlaw hwf h hrun
  obtain ⟨-, -, hmap, hstorage⟩ := finish_ok hfinish
  have hdone : ∀ i < c.info.pieceCount, s.pieceMap.get i = .done := by
    rw [← hi.pieceCount, ← SharedPieceMap.isComplete_iff]
    exact complete_of_finish_ok hi hstopped hfinish
  have hview : view final.storage = view s.storage := by rw [hstorage, hlaw.flush]
  rw [hmap, hview]
  refine ⟨hdone, fun hall i hlt hd => ?_, fun hstart i hlt => hh.right hstart hlt (hdone i hlt)⟩
  unfold Right
  rw [← hh.kept i hlt hd]
  exact hall i hlt

/-! ### The resume file -/

/-- What the resume file and the snapshots that will replace it say. -/
structure Checkpointed (c : Setup σ) (s : State σ) : Prop where
  restored : ∀ i < c.info.pieceCount, Restored c s.checkpoint i → s.pieceMap.get i = .done
  snapshots : ∀ i st, .snapshot i st ∈ s.workers → st.Valid

theorem checkpointed_start {verifiedPieces : Option (List Bool)} {checkpoint : Option (List UInt8)}
    (h : begin c verifiedPieces checkpoint = .ok s₀) : Checkpointed c s₀ := by
  obtain ⟨storage, -, rfl⟩ := begin_ok h
  obtain ⟨-, hget, -⟩ := tryLoadResume_spec (c := c) checkpoint verifiedPieces
  refine ⟨fun i hlt hr => ?_, fun i st hmem => ?_⟩
  · rcases hget i hlt with ⟨hd, -⟩ | ⟨-, hnot⟩
    · exact hd
    · exact absurd (Or.inr hr) hnot
  · cases List.eq_of_mem_replicate hmem

theorem restored_save {st : ResumeState} (hst : st.Valid) {i : ℕ}
    (h : Restored c (some st.save) i) : st.isDone i = true := by
  obtain ⟨st', hload, hi⟩ := h
  unfold loadCheckpoint at hload
  rw [Option.map_some, ResumeState.load_save hst] at hload
  dsimp only at hload
  split_ifs at hload
  · rcases hv : st.validate c.info.pieceCount c.info.fileSize with e | u
    · rw [hv] at hload
      cases hload
    · rw [hv] at hload
      cases hload
      exact hi
  · cases hload

theorem Checkpointed.moved (hwf : c.info.WellFormed) (hi : Inv c s) (h : Checkpointed c s)
    (hm : Moved c s s' w pc pc' e) : Checkpointed c s' := by
  have hgrow := doneGrows_moved hi.owned hm
  have hmem := List.mem_of_getElem? hm.worker
  refine ⟨fun i hlt hr => ?_, fun i st hst => ?_⟩
  · have hold : Restored c s.checkpoint i → s'.pieceMap.get i = .done := fun hr =>
      hgrow.done i (h.restored i hlt hr)
    rw [hm.checkpoint] at hr
    cases e with
    | save st saved =>
      obtain ⟨-, k, rfl⟩ := hm.enables
      cases saved with
      | false => exact hold hr
      | true =>
        have hscan : ∀ i, st.isDone i = true → s.pieceMap.get i = .done := hi.scans _ hmem
        exact hgrow.done i (hscan i (restored_save (h.snapshots k st hmem) hr))
    | _ => exact hold hr
  · rw [hm.workers] at hst
    rcases List.mem_or_eq_of_mem_set hst with hst | rfl
    · exact h.snapshots i st hst
    · rcases hm.arrives with rfl | ⟨k, st, rfl, rfl⟩
      · refine ResumeState.valid_new ?_ hwf.fileSize
        rw [hi.pieceCount]
        exact Nat.le_of_lt_succ (asU32_lt _)
      · exact (h.snapshots k st hmem).snapshot s.pieceMap k

/-- **The resume file names pieces only that are done**, in every state of a run. -/
theorem restored_done (hwf : c.info.WellFormed) {verifiedPieces : Option (List Bool)}
    {checkpoint : Option (List UInt8)} {actions : List Action}
    (h : begin c verifiedPieces checkpoint = .ok s₀) (hr : run (step c) s₀ actions = some s) {i : ℕ}
    (hlt : i < c.info.pieceCount) (hi : Restored c s.checkpoint i) : s.pieceMap.get i = .done := by
  have hstep : ∀ s a s', Inv c s ∧ Checkpointed c s → step c s a = some s' →
      Inv c s' ∧ Checkpointed c s' := by
    rintro s a s' ⟨hi, hc⟩ hs
    refine ⟨inv_step hi hs, ?_⟩
    rcases step_cases hs with ⟨-, rfl⟩ | ⟨w, world, pc, pc', e, rfl, hm⟩
    · exact ⟨hc.restored, hc.snapshots⟩
    · exact hc.moved hwf hi hm
  exact (inv_run hstep ⟨inv_start h, checkpointed_start h⟩ hr).2.restored i hlt hi

end Contents

end CncContent.Coordinator.Contents
