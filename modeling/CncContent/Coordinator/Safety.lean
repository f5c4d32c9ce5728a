import CncContent.Coordinator.Scans

/-! # Safety of the workers

What holds in every state the workers can reach, however their steps interleave (`Inv`), and what
follows for a whole run (`run_safe`): each piece in flight has one owner, a piece stays done and is
done only after its owner has verified and written it, no piece is written twice, and workers that
have all stopped without a cancellation leave a map without needed or flying pieces. -/

namespace CncContent.Coordinator.Safety

open CncContent.Lib.Owners CncContent.Lib.Runs CncContent.Storage.Backend
open CncContent.Torrent.PieceMap CncContent.Coordinator.Worker CncContent.Coordinator.Run
open CncContent.Coordinator.Steps CncContent.Coordinator.Ownership CncContent.Coordinator.Scans

section Safety

variable {σ : Type} {c : Setup σ} {s s' : State σ}

structure Inv (c : Setup σ) (s : State σ) : Prop where
  pieceCount : s.pieceMap.pieceCount = c.info.pieceCount
  owned : Owned s.pieceMap s.workers
  scans : ∀ pc ∈ s.workers, ScanOk c s.pieceMap pc
  live : Live s
  history : History c s

/-- A piece that a worker has is one of the torrent. -/
theorem Inv.lt_of_holds (h : Inv c s) {w p : ℕ} {pc : Pc} (hw : s.workers[w]? = some pc)
    (hp : holds pc = some p) : p < c.info.pieceCount := by
  rw [← h.pieceCount]
  exact SharedPieceMap.lt_of_get_ne (by rw [h.owned.get_eq hw hp]; decide)

theorem concurrency_pos (c : Setup σ) : 0 < concurrency c := Nat.lt_of_lt_of_le Nat.one_pos (le_max_right _ _)

theorem inv_start {verifiedPieces : Option (List Bool)} {checkpoint : Option (List UInt8)}
    (h : begin c verifiedPieces checkpoint = .ok s) : Inv c s := by
  obtain ⟨storage, -, rfl⟩ := begin_ok h
  have hget := get_start (c := c) checkpoint verifiedPieces
  obtain ⟨hcount, -, -⟩ := tryLoadResume_spec (c := c) checkpoint verifiedPieces
  set m := (tryLoadResume c checkpoint (initialMap c verifiedPieces)).2
  have hpc : ∀ {w : ℕ} {pc : Pc}, (List.replicate (concurrency c) Pc.checkCancel)[w]? = some pc →
      pc = .checkCancel := fun hw => List.eq_of_mem_replicate (List.mem_of_getElem? hw)
  have hidle : ∀ {w p : ℕ}, ¬ Owns holds (List.replicate (concurrency c) Pc.checkCancel) w p := by
    rintro w p ⟨pc, hw, hp⟩
    cases hpc hw
    cases hp
  refine ⟨hcount, ⟨fun w w' p hw => absurd hw hidle, fun p => ?_⟩, fun pc hmem => ?_, ?_, ?_⟩
  · constructor
    · intro hp
      rcases hget p with h' | h'
      · cases h'.symm.trans hp
      · cases h'.symm.trans hp
    · rintro ⟨w, hw⟩
      exact absurd hw hidle
  · cases List.eq_of_mem_replicate hmem
    trivial
  · refine ⟨nofun, fun pc hmem hc => ?_, fun _ j _ _ => ⟨0, .checkCancel, ?_, trivial⟩⟩
    · cases List.eq_of_mem_replicate hmem
      exact hc.elim
    · exact List.getElem?_replicate_of_lt (concurrency_pos c)
  · refine ⟨nofun, fun w pc hw => ?_, fun p => Or.inl rfl⟩
    cases hpc hw
    exact List.nil_suffix

/-- **One step** keeps the invariant. -/
theorem inv_step {a : Action} (h : Inv c s) (hs : step c s a = some s') : Inv c s' := by
  rcases step_cases hs with ⟨-, rfl⟩ | ⟨w, world, pc, pc', e, -, hm⟩
  · refine ⟨h.pieceCount, h.owned, h.scans, ⟨fun _ => rfl, fun _ _ _ => rfl, nofun⟩, ?_⟩
    exact ⟨h.history.verified, h.history.lastEvents, h.history.once⟩
  · have hgrow := doneGrows_moved h.owned hm
    have hmem := List.mem_of_getElem? hm.worker
    refine ⟨hgrow.pieceCount.trans h.pieceCount, owned_moved h.owned hm, fun pcv hv => ?_,
      h.live.moved h.pieceCount h.scans h.owned hm, h.history.moved h.owned hm⟩
    rw [hm.workers] at hv
    rcases List.mem_or_eq_of_mem_set hv with hv | rfl
    · exact (h.scans pcv hv).mono hgrow
    · exact (scanOk_arrives h.pieceCount (h.scans pc hmem) hm.arrives).mono hgrow

/-- **Every reachable state** satisfies the invariant. -/
theorem inv_reachable {verifiedPieces : Option (List Bool)} {checkpoint : Option (List UInt8)}
    {s₀ : State σ} {actions : List Action} (h : begin c verifiedPieces checkpoint = .ok s₀)
    (hr : run (step c) s₀ actions = some s) : Inv c s :=
  inv_run (fun _ _ _ => inv_step) (inv_start h) hr

/-! ### What the invariant says -/

/-- The worker owns the piece. -/
def Owner (s : State σ) (w p : ℕ) : Prop := Owns holds s.workers w p

theorem owner_unique (h : Inv c s) {p : ℕ} (hp : s.pieceMap.get p = .inFlight) :
    ∃! w, Owner s w p := by
  obtain ⟨w, hw⟩ := (h.owned.inFlight p).mp hp
  exact ⟨w, hw, fun w' hw' => h.owned.exclusive w' w p hw' hw⟩

theorem done_stays (h : Inv c s) {a : Action} (hs : step c s a = some s') {p : ℕ}
    (hp : s.pieceMap.get p = .done) : s'.pieceMap.get p = .done := by
  rcases step_cases hs with ⟨-, rfl⟩ | ⟨w, world, pc, pc', e, -, hm⟩
  · exact hp
  · exact (doneGrows_moved h.owned hm).done p hp

/-- The last events of worker `w` are that it has verified the data for the piece and written them. -/
def JustWritten (c : Setup σ) (s : State σ) (w p : ℕ) (data : List UInt8) : Prop :=
  verifyPiece c p data = true ∧ [.verified p data, .wrote p data true] <:+ history s w

theorem done_after_write (h : Inv c s) {a : Action} (hs : step c s a = some s') {p : ℕ}
    (hp : s.pieceMap.get p ≠ .done) (hp' : s'.pieceMap.get p = .done) :
    ∃ w world data, a = .worker w world ∧ Owner s w p ∧ JustWritten c s w p data := by
  rcases step_cases hs with ⟨-, rfl⟩ | ⟨w, world, pc, pc', e, ha, hm⟩
  · exact absurd hp' hp
  · rw [hm.pieceMap] at hp'
    obtain ⟨data, rfl⟩ := done_enables hp hp' hm.enables
    exact ⟨w, world, data, ha, ⟨_, hm.worker, rfl⟩,
      h.history.verifyPiece_of_lastEvents hm.worker List.mem_cons_self,
      h.history.lastEvents w _ hm.worker⟩

/-- No piece is needed or in flight. -/
def Settled (s : State σ) : Prop := ∀ p < s.pieceMap.pieceCount,
  s.pieceMap.get p = .done ∨ s.pieceMap.get p = .failed

theorem settled_of_stopped (h : Inv c s) (hs : Stopped s) (hc : s.cancelFlag = false) : Settled s := by
  intro p hp
  rcases hget : s.pieceMap.get p with _ | _ | _ | _
  · obtain ⟨w, pc, hw, hsees⟩ := h.live.seen hc p hp hget
    obtain ⟨held, rfl⟩ := hs pc (List.mem_of_getElem? hw)
    exact hsees.elim
  · obtain ⟨w, pc, hw, hholds⟩ := (h.owned.inFlight p).mp hget
    have hmem := List.mem_of_getElem? hw
    obtain ⟨held, rfl⟩ := hs pc hmem
    cases held with
    | none => cases hholds
    | some q =>
      -- a worker stops with a piece after a storage error only
      rw [h.live.cancelled _ hmem trivial] at hc
      cases hc
  · exact Or.inl rfl
  · exact Or.inr rfl

theorem complete_or_failed (hs : Settled s) : s.pieceMap.isComplete = true ∨
    ∃ p < s.pieceMap.pieceCount, s.pieceMap.get p = .failed := by
  by_cases hall : ∀ p < s.pieceMap.pieceCount, s.pieceMap.get p = .done
  · exact Or.inl (SharedPieceMap.isComplete_iff.mpr hall)
  · push Not at hall
    obtain ⟨p, hp, hne⟩ := hall
    exact Or.inr ⟨p, hp, (hs p hp).resolve_left hne⟩

theorem complete_of_finish_ok (h : Inv c s) (hs : Stopped s) {removed : Bool} {final : State σ}
    (hf : finish c s removed = (.ok (), final)) : s.pieceMap.isComplete = true := by
  obtain ⟨hc, hmap, -⟩ := finish_ok hf
  refine hmap.elim id fun hnone => ?_
  rcases complete_or_failed (settled_of_stopped h hs hc) with hcomplete | ⟨p, hp, hget⟩
  · exact hcomplete
  · rw [h.pieceCount] at hp
    unfold findFailed at hnone
    have hp' := List.find?_eq_none.mp hnone p (List.mem_range.mpr hp)
    rw [hget] at hp'
    exact absurd rfl hp'

/-! ### Runs -/

/-- What is safe about a state and the steps from it. -/
structure Safe (c : Setup σ) (s : State σ) : Prop where
  owner : ∀ p, s.pieceMap.get p = .inFlight → ∃! w, Owner s w p
  doneStays : ∀ a s', step c s a = some s' → ∀ p, s.pieceMap.get p = .done →
    s'.pieceMap.get p = .done
  doneAfterWrite : ∀ a s', step c s a = some s' → ∀ p, s.pieceMap.get p ≠ .done →
    s'.pieceMap.get p = .done →
      ∃ w world data, a = .worker w world ∧ Owner s w p ∧ JustWritten c s w p data
  once : ∀ p, writes s p ≤ 1
  stopped : Stopped s → s.cancelFlag = false → s.pieceMap.isComplete = true ∨
    Settled s ∧ ∃ p < s.pieceMap.pieceCount, s.pieceMap.get p = .failed
  ok : Stopped s → ∀ removed final, finish c s removed = (.ok (), final) →
    s.pieceMap.isComplete = true

/-- **Every state of every run is safe**, for any number of workers and any interleaving. -/
theorem run_safe (c : Setup σ) (verifiedPieces : Option (List Bool))
    (checkpoint : Option (List UInt8)) (actions : List Action) {s₀ s : State σ}
    (h : begin c verifiedPieces checkpoint = .ok s₀) (hr : run (step c) s₀ actions = some s) :
    Safe c s := by
  have hi := inv_reachable h hr
  refine ⟨fun _ => owner_unique hi, fun _ _ hs _ => done_stays hi hs,
    fun _ _ hs _ => done_after_write hi hs, fun p => ?_, fun hs hc => ?_,
    fun hs _ _ => complete_of_finish_ok hi hs⟩
  · rcases hi.history.once p with hzero | ⟨hone, -⟩
    · omega
    · omega
  · have hsettled := settled_of_stopped hi hs hc
    exact (complete_or_failed hsettled).imp_right fun hfailed => ⟨hsettled, hfailed⟩

/-- Both workers find the first piece needed. One of them claims it and marks it done, the other one goes on to the
second piece. -/
def racing : List Action := seeded 0 0xAA 13 ++ seeded 1 0xBB 13 ++ seeded 0 0xAA 5 ++ seeded 1 0xBB 5

theorem run_safe_two_workers : ∃ s final,
    run (step (twoBytes plainConfig).setup) (start (twoBytes plainConfig).setup (.new 2) ⟨[0, 0], []⟩ none) racing =
      some s ∧
    s.pieceMap = ⟨[.done, .inFlight]⟩ ∧ Safe (twoBytes plainConfig).setup s ∧
    run (step (twoBytes plainConfig).setup) (start (twoBytes plainConfig).setup (.new 2) ⟨[0, 0], []⟩ none)
      (racing ++ seeded 0 0xAA 21 ++ seeded 1 0xBB 8 ++ seeded 0 0xAA 4) = some final ∧
    final.workers = [.stopped none, .stopped none] ∧ final.storage.bytes = [0xAA, 0xBB] ∧
    Safe (twoBytes plainConfig).setup final := by
  have hbegin : begin (twoBytes plainConfig).setup none none =
      .ok (start (twoBytes plainConfig).setup (.new 2) ⟨[0, 0], []⟩ none) := rfl
  exact ⟨_, _, rfl, rfl, run_safe _ none none racing hbegin rfl, rfl, rfl, rfl,
    run_safe _ none none (racing ++ seeded 0 0xAA 21 ++ seeded 1 0xBB 8 ++ seeded 0 0xAA 4) hbegin rfl⟩

end Safety

end CncContent.Coordinator.Safety
