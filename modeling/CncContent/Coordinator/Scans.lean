import CncContent.Coordinator.Ownership

/-! # What the scans have seen

A worker reads the map one cell at a time, while the others go on. What a count of `done` cells says
stays true, as no cell leaves `done` (`ScanOk`). That a piece is needed is not overlooked: as long as
the run is not cancelled, some worker has it still before it (`Live.seen`), since only a worker in
its endgame reset makes a piece needed, and that worker goes on to scan the map itself. -/

namespace CncContent.Coordinator.Scans

open CncContent.Lib.Owners CncContent.Torrent.PieceMap CncContent.Torrent.Resume
open CncContent.Coordinator.Worker CncContent.Coordinator.Steps CncContent.Coordinator.Ownership

section Scans

variable {σ : Type} {c : Setup σ} {m m' : SharedPieceMap} {s : State σ} {world : World}
variable {pc pc' : Pc} {e : Effect}

/-- The count of a scan is at most the number of `done` cells it has passed. -/
def Counted (m : SharedPieceMap) (i n : ℕ) : Prop := i ≤ m.pieceCount ∧ n ≤ m.doneBefore i

/-- No more pieces are left than the endgame threshold. -/
def InEndgame (c : Setup σ) (m : SharedPieceMap) : Prop :=
  m.pieceCount - m.doneCount ≤ c.config.endgameThreshold

/-- What a worker has seen at its point is still so. -/
def ScanOk (c : Setup σ) (m : SharedPieceMap) : Pc → Prop
  | .checkComplete i n => Counted m i n
  | .countDone i n => Counted m i n
  | .idleComplete i n => Counted m i n
  | .resetScan _ endgame => endgame = true → InEndgame c m
  | .resetTry _ endgame => endgame = true → InEndgame c m
  | .snapshot _ st => ∀ i, st.isDone i = true → m.get i = .done
  | _ => True

theorem counted_zero (m : SharedPieceMap) : Counted m 0 0 := ⟨Nat.zero_le _, Nat.zero_le _⟩

theorem Counted.succ {i n : ℕ} (h : Counted m i n) (hi : i < m.pieceCount) :
    Counted m (i + 1) (countCell m i n) := by
  obtain ⟨-, hn⟩ := h
  refine ⟨hi, ?_⟩
  rw [SharedPieceMap.doneBefore_succ]
  unfold countCell
  split_ifs
  · exact Nat.add_le_add_right hn 1
  · exact hn

/-- A scan that has counted every cell has seen a complete map. -/
theorem Counted.complete {i n : ℕ} (h : Counted m i n) (hi : ¬ i < m.pieceCount)
    (hn : n = m.pieceCount) : ∀ j < m.pieceCount, m.get j = .done := by
  have hle := h.2
  have hbound := m.doneBefore_le i
  obtain rfl : i = m.pieceCount := by have := h.1; omega
  rw [← SharedPieceMap.isComplete_iff, SharedPieceMap.isComplete_iff_doneBefore]
  omega

theorem Counted.mono {i n : ℕ} (hm : SharedPieceMap.DoneGrows m m') (h : Counted m i n) :
    Counted m' i n := by
  refine ⟨?_, le_trans h.2 (hm.doneBefore_le i)⟩
  rw [hm.pieceCount]
  exact h.1

theorem InEndgame.mono (hm : SharedPieceMap.DoneGrows m m') (h : InEndgame c m) : InEndgame c m' := by
  unfold InEndgame at h ⊢
  rw [SharedPieceMap.doneCount_eq] at h ⊢
  have hle := hm.doneBefore_le m.pieceCount
  rw [hm.pieceCount]
  omega

/-- **What has been seen stays so** while the others go on. -/
theorem ScanOk.mono (hm : SharedPieceMap.DoneGrows m m') (h : ScanOk c m pc) : ScanOk c m' pc := by
  cases pc with
  | checkComplete i n => exact Counted.mono hm h
  | countDone i n => exact Counted.mono hm h
  | idleComplete i n => exact Counted.mono hm h
  | resetScan i endgame => exact fun he => (h he).mono hm
  | resetTry i endgame => exact fun he => (h he).mono hm
  | snapshot i st => exact fun i hi => hm.done i (h i hi)
  | _ => trivial

theorem Counted.arrives {i' n' : ℕ} (h : (i' = 0 ∧ n' = 0) ∨
    ∃ i n, Counted m i n ∧ Counts m i n i' n') : Counted m i' n' := by
  rcases h with ⟨rfl, rfl⟩ | ⟨i, n, hc, hi, rfl, rfl⟩
  · exact counted_zero m
  · exact hc.succ hi

/-- **A step adds what it has seen itself.** -/
theorem scanOk_arrives (hcount : s.pieceMap.pieceCount = c.info.pieceCount)
    (h : ScanOk c s.pieceMap pc) (ha : Arrives c s pc pc') : ScanOk c s.pieceMap pc' := by
  cases pc' with
  | checkComplete i' n' =>
    refine Counted.arrives (ha.imp_right ?_)
    rintro ⟨i, n, rfl, hc⟩
    exact ⟨i, n, h, hc⟩
  | countDone i' n' =>
    refine Counted.arrives (ha.imp_right ?_)
    rintro ⟨i, n, rfl, hc⟩
    exact ⟨i, n, h, hc⟩
  | idleComplete i' n' =>
    refine Counted.arrives (ha.imp_right ?_)
    rintro ⟨i, n, rfl, hc⟩
    exact ⟨i, n, h, hc⟩
  | resetScan i' endgame =>
    rcases ha with ⟨i, n, rfl, hi, rfl⟩ | ⟨i, rfl | rfl⟩
    · intro hend
      obtain ⟨hle, hn⟩ := h
      have hthreshold := of_decide_eq_true hend
      unfold InEndgame
      rw [SharedPieceMap.doneCount_eq]
      obtain rfl : i = s.pieceMap.pieceCount := by omega
      omega
    · exact h
    · exact h
  | resetTry i' endgame =>
    obtain ⟨i, rfl⟩ := ha
    exact h
  | snapshot i' st' =>
    intro j hj
    rcases ha with rfl | ⟨i, st, rfl, rfl⟩
    · rw [ResumeState.isDone_new] at hj
      cases hj
    · rcases ResumeState.isDone_snapshot hj with hj | hj
      · exact h j hj
      · exact hj
  | _ => trivial

/-! ### Needed pieces are not overlooked -/

/-- The worker will read the cell again before it stops, or it is about to cancel the run. -/
def Sees : Pc → ℕ → Prop
  | .idleScan i, j => i ≤ j
  | .stopped _, _ => False
  | _, _ => True

/-- The worker has cancelled the run after a storage error. -/
def Cancelled : Pc → Prop
  | .storeFatal _ _ => True
  | .stopped (some _) => True
  | _ => False

structure Live (s : State σ) : Prop where
  fatal : s.fatalError.isSome = true → s.cancelFlag = true
  cancelled : ∀ pc ∈ s.workers, Cancelled pc → s.cancelFlag = true
  seen : s.cancelFlag = false → ∀ j < s.pieceMap.pieceCount, s.pieceMap.get j = .needed →
    ∃ (w : ℕ) (pc : Pc), s.workers[w]? = some pc ∧ Sees pc j

/-- **A worker that will see a needed piece** is still to see it after its step, if the run has not
been cancelled. -/
theorem sees_arrives (hl : Live s) (hcount : s.pieceMap.pieceCount = c.info.pieceCount)
    (hmem : pc ∈ s.workers) (hscan : ScanOk c s.pieceMap pc) (hc : s.cancelFlag = false) {j : ℕ}
    (hlt : j < s.pieceMap.pieceCount) (hj : s.pieceMap.get j = .needed) (h : Sees pc j)
    (ha : Arrives c s pc pc') : Sees pc' j := by
  cases pc' with
  | idleScan i' =>
    rcases ha with rfl | ⟨i, rfl, rfl, hi⟩
    · exact Nat.zero_le j
    · -- the cell just read is not the needed one
      have hle : i ≤ j := h
      have hne : i ≠ j := by
        rintro rfl
        exact hi hj
      show i + 1 ≤ j
      omega
  | stopped held =>
    have hincomplete : ∀ {i n : ℕ}, Counted s.pieceMap i n → ¬ i < s.pieceMap.pieceCount →
        n ≠ s.pieceMap.pieceCount := by
      intro i n hcounted hi hn
      rw [hcounted.complete hi hn j hlt] at hj
      cases hj
    have huncancelled : s.cancelFlag ≠ true := by
      rw [hc]
      decide
    rcases ha with hcancel | hfatal | ⟨p, e, rfl⟩ | ⟨i, n, hpc, hi, hn⟩ | ⟨i, rfl, hi⟩
    · exact absurd hcancel huncancelled
    · exact absurd (hl.fatal hfatal) huncancelled
    · exact absurd (hl.cancelled _ hmem trivial) huncancelled
    · rcases hpc with rfl | rfl
      · exact absurd hn (hincomplete hscan hi)
      · exact absurd hn (hincomplete hscan hi)
    · have hle : i ≤ j := h
      omega
  | _ => trivial

theorem cancelled_enables (h : Cancelled pc') (he : Enables c s pc pc' e) :
    e = .cancel ∨ Cancelled pc := by
  have quiet : ∀ {pc₀ : Pc}, Quiet pc₀ pc' → e = .cancel ∨ Cancelled pc := by
    intro pc₀ hq
    have hnone := hq.written.2
    cases pc' with
    | storeFatal p err => cases hnone
    | stopped held =>
      cases hnone
      exact h.elim
    | _ => exact h.elim
  cases e with
  | reset i =>
    obtain ⟨-, endgame, -, rfl, -⟩ := he
    exact h.elim
  | claim p =>
    obtain ⟨-, -, -, -, rfl⟩ := he
    exact h.elim
  | fail p =>
    obtain ⟨-, -, -, cause, rfl⟩ := he
    exact h.elim
  | charge p cause =>
    obtain ⟨-, rfl⟩ := he
    exact h.elim
  | verified p data =>
    obtain ⟨-, rfl, -⟩ := he
    exact h.elim
  | write p data =>
    obtain ⟨-, ⟨-, rfl⟩ | ⟨-, e, rfl⟩⟩ := he
    · exact h.elim
    · exact h.elim
  | cancel => exact Or.inl rfl
  | fatal p err =>
    obtain ⟨rfl, -⟩ := he
    exact Or.inr trivial
  | done p =>
    obtain ⟨data, -, rfl⟩ := he
    exact h.elim
  | none => exact quiet he
  | lock => exact quiet he
  | unlock => exact quiet he
  | credit data => exact quiet he
  | save st saved => exact quiet he.1

/-- Only a reset makes a piece needed, and the worker that does it goes on. -/
theorem needed_enables {j : ℕ} (h : (mapAfter s.pieceMap e).get j = .needed)
    (hlt : j < s.pieceMap.pieceCount) (he : Enables c s pc pc' e) :
    s.pieceMap.get j = .needed ∨ Sees pc' j := by
  have hstore : ∀ {p : ℕ} {x : PieceState}, x ≠ .needed → (s.pieceMap.store p x).get j = .needed →
      s.pieceMap.get j = .needed := by
    intro p x hx hget
    by_cases hjp : j = p
    · subst hjp
      rw [SharedPieceMap.get_store_self hlt] at hget
      exact absurd hget hx
    · rwa [SharedPieceMap.get_store_ne hjp] at hget
  cases e with
  | reset i =>
    obtain ⟨-, endgame, -, rfl, -⟩ := he
    exact Or.inr trivial
  | claim p => exact Or.inl (hstore (by decide) h)
  | fail p => exact Or.inl (hstore (by decide) h)
  | done p => exact Or.inl (hstore (by decide) h)
  | _ => exact Or.inl h

/-- **A move keeps the needed pieces in view.** -/
theorem Live.moved {s' : State σ} {w : ℕ} (h : Live s)
    (hcount : s.pieceMap.pieceCount = c.info.pieceCount)
    (hscan : ∀ pc ∈ s.workers, ScanOk c s.pieceMap pc) (ho : Owned s.pieceMap s.workers)
    (hm : Moved c s s' w pc pc' e) : Live s' := by
  have hw := hm.worker
  have hmem := List.mem_of_getElem? hw
  have hstill : s.cancelFlag = true → s'.cancelFlag = true := fun hc => hm.cancelFlag.mpr (Or.inl hc)
  refine ⟨fun hf => ?_, fun pcv hv hcv => ?_, fun hc j hlt hj => ?_⟩
  · rcases hm.fatalError with hsame | ⟨p, err, rfl⟩
    · rw [hsame] at hf
      exact hstill (h.fatal hf)
    · obtain ⟨rfl, -⟩ := hm.enables
      exact hstill (h.cancelled _ hmem trivial)
  · rw [hm.workers] at hv
    rcases List.mem_or_eq_of_mem_set hv with hv | rfl
    · exact hstill (h.cancelled pcv hv hcv)
    · rcases cancelled_enables hcv hm.enables with rfl | hpc
      · exact hm.cancelFlag.mpr (Or.inr rfl)
      · exact hstill (h.cancelled pc hmem hpc)
  · have hc₀ : s.cancelFlag = false := by
      by_contra hcancel
      rw [Bool.not_eq_false] at hcancel
      rw [hstill hcancel] at hc
      cases hc
    have hlt₀ : j < s.pieceMap.pieceCount := by rwa [(doneGrows_moved ho hm).pieceCount] at hlt
    have hself : (s.workers.set w pc')[w]? = some pc' := by rw [getElem?_set hw, if_pos rfl]
    rw [hm.workers]
    rw [hm.pieceMap] at hj
    rcases needed_enables hj hlt₀ hm.enables with hj₀ | hsees
    · obtain ⟨v, pcv, hv, hsees⟩ := h.seen hc₀ j hlt₀ hj₀
      by_cases hvw : v = w
      · subst hvw
        rw [hw] at hv
        cases hv
        exact ⟨v, pc', hself,
          sees_arrives h hcount hmem (hscan pc hmem) hc₀ hlt₀ hj₀ hsees hm.arrives⟩
      · exact ⟨v, pcv, by rw [getElem?_set hw, if_neg hvw, hv], hsees⟩
    · exact ⟨w, pc', hself, hsees⟩

end Scans

end CncContent.Coordinator.Scans
