import CncContent.Coordinator.Safety

/-! # How many attempts at a piece may fail

A worker marks a piece failed first and charges the attempt to it in a later step. In between others
may reset the piece, whose retry count is still too low, and fail at it again
(`charged_over_bound`). The bounds hold for the runs in which every reset leaves room for the attempts
still to be charged (`retryBound_of_leavesRoom`). -/

namespace CncContent.Coordinator.Attempts

open CncContent.Lib.Bounded CncContent.Lib.Owners CncContent.Lib.Runs CncContent.Storage.File
open CncContent.Torrent.PieceMap CncContent.Coordinator.Worker CncContent.Coordinator.Run
open CncContent.Coordinator.Steps CncContent.Coordinator.Ownership CncContent.Coordinator.Scans
open CncContent.Coordinator.Safety

section Attempts

variable {σ : Type} {c : Setup σ} {m m' : SharedPieceMap} {s s' : State σ}
variable {w : ℕ} {pc pc' : Pc} {e : Effect}

/-! ### What is bounded -/

/-- The failed attempts that have been charged to the piece. -/
def charged (s : State σ) (p : ℕ) : ℕ := s.retryCounts[p]?.getD 0

/-- The failed attempts at the piece that are still to be charged. -/
def uncharged (s : State σ) (p : ℕ) : ℕ := s.workers.countP fun pc => pending pc == some p

/-- The bounds on the failed attempts at each piece, among them the charged ones. -/
structure RetryBound (c : Setup σ) (s : State σ) : Prop where
  charged_le : ∀ p, charged s p ≤ failures s p
  total : ∀ p, failures s p ≤ max 1 (2 * c.config.maxRetriesPerPiece)
  beforeEndgame : c.config.endgameThreshold < c.info.pieceCount - s.pieceMap.doneCount →
    ∀ p, failures s p ≤ max 1 c.config.maxRetriesPerPiece

/-- The piece the worker may reset in its next step, and whether it does so in endgame. -/
def resetting : Pc → Option (ℕ × Bool)
  | .resetTry i endgame => some (i, endgame)
  | _ => none

/-- If the step resets a piece, then its retries are not used up when the attempts still to be
charged count too. -/
def LeavesRoom (c : Setup σ) (s : State σ) : Action → Prop
  | .worker w _ => ∀ r ∈ s.workers[w]?.bind resetting, s.pieceMap.get r.1 = .failed →
      charged s r.1 < maxRetries c r.2 → charged s r.1 + uncharged s r.1 < maxRetries c r.2
  | .cancel => True

instance (c : Setup σ) : ∀ s a, Decidable (LeavesRoom c s a)
  | _, .worker _ _ => inferInstanceAs (Decidable (∀ _ ∈ _, _))
  | _, .cancel => isTrue trivial

/-! ### The limit in force -/

/-- The most failed attempts there may be at one piece, by the pieces that are done. -/
def limit (c : Setup σ) (m : SharedPieceMap) : ℕ :=
  max 1 (maxRetries c (m.pieceCount - m.doneCount ≤ c.config.endgameThreshold))

theorem maxRetries_le (hu : c.config.maxRetriesPerPiece ≤ u32Max) (endgame : Bool) :
    c.config.maxRetriesPerPiece ≤ maxRetries c endgame ∧
      maxRetries c endgame ≤ 2 * c.config.maxRetriesPerPiece ∧ maxRetries c endgame ≤ u32Max := by
  unfold maxRetries satMul
  split_ifs <;> omega

theorem maxRetries_le_limit (hu : c.config.maxRetriesPerPiece ≤ u32Max) {endgame : Bool}
    (h : endgame = true → InEndgame c m) : maxRetries c endgame ≤ limit c m := by
  cases endgame with
  | true =>
    have hend : m.pieceCount - m.doneCount ≤ c.config.endgameThreshold := h rfl
    unfold limit
    rw [decide_eq_true hend]
    exact le_max_right _ _
  | false => exact le_trans (maxRetries_le hu _).1 (le_max_right _ _)

/-- The limit grows as pieces get done. -/
theorem limit_mono (hu : c.config.maxRetriesPerPiece ≤ u32Max)
    (hm : SharedPieceMap.DoneGrows m m') : limit c m ≤ limit c m' := by
  refine max_le (le_max_left _ _) (maxRetries_le_limit hu fun h => ?_)
  have hend : m.pieceCount - m.doneCount ≤ c.config.endgameThreshold := of_decide_eq_true h
  exact InEndgame.mono hm hend

theorem limit_le_u32Max (hu : c.config.maxRetriesPerPiece ≤ u32Max) (m : SharedPieceMap) :
    limit c m ≤ u32Max :=
  max_le (by decide) (maxRetries_le hu _).2.2

/-! ### Charging -/

/-- How often an effect charges an attempt to the piece. -/
def chargesOf (p : ℕ) : Effect → ℕ
  | .charge q _ => if q == p then 1 else 0
  | _ => 0

/-- **What fails is pending until it is charged.** -/
theorem balance_enables (he : Enables c s pc pc' e) (p : ℕ) :
    (eventsOf c s e).countP (isFailure p) + (if pending pc == some p then 1 else 0) =
      chargesOf p e + if pending pc' == some p then 1 else 0 := by
  have quiet : pending pc = none → pending pc' = none →
      0 + (if pending pc == some p then 1 else 0) = 0 + if pending pc' == some p then 1 else 0 := by
    intro h h'
    rw [h, h']
  cases e with
  | reset i =>
    obtain ⟨-, endgame, rfl, rfl, -⟩ := he
    exact quiet rfl rfl
  | claim q =>
    obtain ⟨-, -, -, hpc, rfl⟩ := he
    exact quiet hpc rfl
  | fail q =>
    obtain ⟨-, -, hpc, cause, rfl⟩ := he
    rw [hpc]
    show List.countP _ [Event.failed q] + 0 = 0 + _
    rw [List.countP_singleton, Nat.add_zero, Nat.zero_add]
    rfl
  | charge q cause =>
    obtain ⟨rfl, rfl⟩ := he
    show 0 + _ = _ + 0
    rw [Nat.add_zero, Nat.zero_add]
    rfl
  | verified q data =>
    obtain ⟨⟨peer, rfl⟩, rfl, -⟩ := he
    exact quiet rfl rfl
  | write q data =>
    obtain ⟨rfl, ⟨-, rfl⟩ | ⟨-, e, rfl⟩⟩ := he
    · exact quiet rfl rfl
    · exact quiet rfl rfl
  | done q =>
    obtain ⟨data, rfl, rfl⟩ := he
    exact quiet rfl rfl
  | cancel =>
    obtain ⟨q, err, rfl, rfl⟩ := he
    exact quiet rfl rfl
  | fatal q err =>
    obtain ⟨rfl, rfl⟩ := he
    exact quiet rfl rfl
  | none => exact quiet he.pending.1 he.pending.2
  | lock => exact quiet he.pending.1 he.pending.2
  | unlock => exact quiet he.pending.1 he.pending.2
  | credit data => exact quiet he.pending.1 he.pending.2
  | save st saved => exact quiet he.1.pending.1 he.1.pending.2

theorem chargesOf_le (he : Enables c s pc pc' e) (p : ℕ) :
    chargesOf p e ≤ if pending pc == some p then 1 else 0 := by
  cases e with
  | charge q cause =>
    obtain ⟨rfl, -⟩ := he
    exact le_rfl
  | _ => exact Nat.zero_le _

theorem uncharged_moved (hm : Moved c s s' w pc pc' e) (p : ℕ) :
    uncharged s' p + (if pending pc == some p then 1 else 0) =
      uncharged s p + if pending pc' == some p then 1 else 0 := by
  unfold uncharged
  rw [hm.workers]
  exact countP_set_add hm.worker _ pc'

theorem pending_le_uncharged (hm : Moved c s s' w pc pc' e) (p : ℕ) :
    (if pending pc == some p then 1 else 0) ≤ uncharged s p := by
  split_ifs with hp
  · exact List.countP_pos_iff.mpr ⟨pc, List.mem_of_getElem? hm.worker, hp⟩
  · exact Nat.zero_le _

/-- A count that is not at its largest value takes the charge. -/
theorem charged_moved (hm : Moved c s s' w pc pc' e) {p : ℕ} (hp : p < s.retryCounts.length)
    (hroom : charged s p + chargesOf p e ≤ u32Max) :
    charged s' p = charged s p + chargesOf p e := by
  unfold charged at hroom ⊢
  rw [hm.retryCounts]
  cases e with
  | charge q cause =>
    show (s.retryCounts.modify q _)[p]?.getD 0 = _ + if q == p then 1 else 0
    replace hroom : s.retryCounts[p]?.getD 0 + (if q == p then 1 else 0) ≤ u32Max := hroom
    rw [List.getElem?_modify]
    rw [List.getElem?_eq_getElem hp] at hroom ⊢
    by_cases hq : q = p
    · subst hq
      rw [beq_self_eq_true] at hroom ⊢
      dsimp only [Functor.map, Option.map]
      rw [if_pos rfl]
      exact Nat.min_eq_left hroom
    · dsimp only [Functor.map, Option.map]
      rw [if_neg hq, beq_false_of_ne hq]
      rfl
  | _ => rfl

/-! ### The invariant -/

structure Accounts (c : Setup σ) (s : State σ) : Prop where
  retryCounts : s.retryCounts.length = s.pieceMap.pieceCount
  balance : ∀ p < s.pieceMap.pieceCount, failures s p = charged s p + uncharged s p
  bound : ∀ p, failures s p ≤ limit c s.pieceMap
  /-- A piece that may be attempted may fail once more. -/
  spare : ∀ p, s.pieceMap.get p = .needed ∨ s.pieceMap.get p = .inFlight →
    failures s p < limit c s.pieceMap

/-- A piece that may be attempted after a step could be before, and the step is no failed attempt at
it, or it has been reset. -/
theorem spare_enables (ho : Owned s.pieceMap s.workers) (hw : s.workers[w]? = some pc)
    (he : Enables c s pc pc' e) {p : ℕ}
    (h : (mapAfter s.pieceMap e).get p = .needed ∨ (mapAfter s.pieceMap e).get p = .inFlight) :
    (s.pieceMap.get p = .needed ∨ s.pieceMap.get p = .inFlight) ∧
      (eventsOf c s e).countP (isFailure p) = 0 ∨ e = .reset p := by
  have ne : ∀ {q : ℕ} {x : PieceState}, p ≠ q →
      (s.pieceMap.store q x).get p = .needed ∨ (s.pieceMap.store q x).get p = .inFlight →
        s.pieceMap.get p = .needed ∨ s.pieceMap.get p = .inFlight := by
    intro q x hq hget
    rwa [SharedPieceMap.get_store_ne hq] at hget
  have self : ∀ {x : PieceState}, holds pc = some p → x ≠ .needed → x ≠ .inFlight →
      ¬ ((s.pieceMap.store p x).get p = .needed ∨ (s.pieceMap.store p x).get p = .inFlight) := by
    intro x hpc hn hf hget
    have hlt : p < s.pieceMap.pieceCount :=
      SharedPieceMap.lt_of_get_ne (by rw [ho.get_eq hw hpc]; decide)
    rw [SharedPieceMap.get_store_self hlt] at hget
    exact hget.elim hn hf
  cases e with
  | reset i =>
    by_cases hpi : p = i
    · exact Or.inr (congrArg _ hpi.symm)
    · exact Or.inl ⟨ne hpi h, rfl⟩
  | claim q =>
    by_cases hpq : p = q
    · subst hpq
      exact Or.inl ⟨Or.inl he.2.1, rfl⟩
    · exact Or.inl ⟨ne hpq h, rfl⟩
  | fail q =>
    by_cases hpq : p = q
    · subst hpq
      exact absurd h (self he.1 (by decide) (by decide))
    · refine Or.inl ⟨ne hpq h, ?_⟩
      show List.countP _ [Event.failed q] = 0
      rw [List.countP_singleton]
      exact if_neg fun hq => hpq (beq_iff_eq.mp hq).symm
  | done q =>
    by_cases hpq : p = q
    · subst hpq
      obtain ⟨data, rfl, -⟩ := he
      exact absurd h (self rfl (by decide) (by decide))
    · exact Or.inl ⟨ne hpq h, rfl⟩
  | _ => exact Or.inl ⟨h, rfl⟩

/-- A failed attempt is one at a piece in flight. -/
theorem failure_enables (ho : Owned s.pieceMap s.workers) (hw : s.workers[w]? = some pc)
    (he : Enables c s pc pc' e) (p : ℕ) : (eventsOf c s e).countP (isFailure p) = 0 ∨
      (eventsOf c s e).countP (isFailure p) = 1 ∧ s.pieceMap.get p = .inFlight := by
  cases e with
  | fail q =>
    show List.countP _ [Event.failed q] = 0 ∨ List.countP _ [Event.failed q] = 1 ∧ _
    rw [List.countP_singleton]
    unfold isFailure
    split_ifs with hq
    · obtain rfl := beq_iff_eq.mp hq
      exact Or.inr ⟨rfl, ho.get_eq hw he.1⟩
    · exact Or.inl rfl
  | _ => exact Or.inl rfl

/-- **A move that leaves room keeps the accounts.** -/
theorem Accounts.moved (hu : c.config.maxRetriesPerPiece ≤ u32Max) (hi : Inv c s)
    (h : Accounts c s) (hm : Moved c s s' w pc pc' e) {world : World}
    (hroom : LeavesRoom c s (.worker w world)) : Accounts c s' := by
  have hgrow := doneGrows_moved hi.owned hm
  have hlimit := limit_mono hu hgrow
  have hcount := hgrow.pieceCount
  refine ⟨?_, fun p hp => ?_, fun p => ?_, fun p hp => ?_⟩
  · rw [hcount, hm.retryCounts, ← h.retryCounts]
    cases e with
    | charge q cause => exact List.length_modify _ _ _
    | _ => rfl
  · rw [hcount] at hp
    have hbalance := h.balance p hp
    have hstep := balance_enables hm.enables p
    have hle := chargesOf_le hm.enables p
    have hpending := pending_le_uncharged hm p
    have hmax : failures s p ≤ u32Max := le_trans (h.bound p) (limit_le_u32Max hu _)
    have hcharged := charged_moved hm (h.retryCounts ▸ hp) (by omega)
    have huncharged := uncharged_moved hm p
    rw [failures_moved hm]
    omega
  · rw [failures_moved hm]
    have hbound := h.bound p
    rcases failure_enables hi.owned hm.worker hm.enables p with hzero | ⟨hone, hget⟩
    · omega
    · have hspare := h.spare p (Or.inr hget)
      omega
  · rw [failures_moved hm]
    rw [hm.pieceMap] at hp
    rcases spare_enables hi.owned hm.worker hm.enables hp with ⟨hp₀, hzero⟩ | rfl
    · have hspare := h.spare p hp₀
      omega
    · -- the reset has compared the retry count with the limit of its worker
      obtain ⟨hget, endgame, rfl, -, hretries⟩ := hm.enables
      have hlt : p < s.pieceMap.pieceCount := SharedPieceMap.lt_of_get_ne (by rw [hget]; decide)
      have hleft : charged s p + uncharged s p < maxRetries c endgame := by
        refine hroom (p, endgame) ?_ hget hretries
        rw [hm.worker]
        rfl
      have hflag := maxRetries_le_limit hu (hi.scans _ (List.mem_of_getElem? hm.worker))
      have hbalance := h.balance p hlt
      show failures s p + 0 < _
      omega

theorem accounts_start {verifiedPieces : Option (List Bool)} {checkpoint : Option (List UInt8)}
    (h : begin c verifiedPieces checkpoint = .ok s) : Accounts c s := by
  obtain ⟨storage, -, rfl⟩ := begin_ok h
  obtain ⟨hcount, -, -⟩ := tryLoadResume_spec (c := c) checkpoint verifiedPieces
  have hpos : ∀ m, 0 < limit c m := fun m => Nat.lt_of_lt_of_le Nat.one_pos (le_max_left _ _)
  refine ⟨List.length_replicate.trans hcount.symm, fun p hp => ?_, fun p => Nat.zero_le _,
    fun p _ => hpos _⟩
  have hcharged : charged (start c (tryLoadResume c checkpoint (initialMap c verifiedPieces)).2
      storage checkpoint) p = 0 := by
    show (List.replicate c.info.pieceCount 0)[p]?.getD 0 = 0
    rw [List.getElem?_replicate]
    split_ifs <;> rfl
  have huncharged : uncharged (start c (tryLoadResume c checkpoint (initialMap c verifiedPieces)).2
      storage checkpoint) p = 0 :=
    List.countP_eq_zero.mpr fun pc hpc => by
      rw [List.eq_of_mem_replicate hpc]
      nofun
  rw [hcharged, huncharged]
  rfl

theorem Accounts.retryBound (hu : c.config.maxRetriesPerPiece ≤ u32Max) (hi : Inv c s)
    (h : Accounts c s) : RetryBound c s := by
  refine ⟨fun p => ?_, fun p => ?_, fun hleft p => ?_⟩
  · by_cases hp : p < s.pieceMap.pieceCount
    · rw [h.balance p hp]
      exact Nat.le_add_right _ _
    · have hnone : s.retryCounts[p]? = none := by
        rw [List.getElem?_eq_none_iff, h.retryCounts]
        omega
      unfold charged
      rw [hnone]
      exact Nat.zero_le _
  · have hbound := h.bound p
    have hmax := (maxRetries_le (c := c) hu
      (s.pieceMap.pieceCount - s.pieceMap.doneCount ≤ c.config.endgameThreshold)).2.1
    unfold limit at hbound
    omega
  · have hbound := h.bound p
    unfold limit at hbound
    rw [← hi.pieceCount] at hleft
    rwa [decide_eq_false (by omega)] at hbound

/-! ### Runs -/

/-- **The bounds hold throughout every run** in which each reset leaves room for the attempts still
to be charged. -/
theorem retryBound_of_leavesRoom (c : Setup σ) (hu : c.config.maxRetriesPerPiece ≤ u32Max)
    (verifiedPieces : Option (List Bool)) (checkpoint : Option (List UInt8))
    (actions : List Action) {s₀ : State σ} (h : begin c verifiedPieces checkpoint = .ok s₀)
    (hroom : Meets (step c) (LeavesRoom c) s₀ actions) :
    Always (step c) (RetryBound c) s₀ actions := by
  have hstep : ∀ s a s', Inv c s ∧ Accounts c s → LeavesRoom c s a → step c s a = some s' →
      Inv c s' ∧ Accounts c s' := by
    rintro s a s' ⟨hi, hacc⟩ hroom hs
    refine ⟨inv_step hi hs, ?_⟩
    rcases step_cases hs with ⟨-, rfl⟩ | ⟨w, world, pc, pc', e, rfl, hm⟩
    · exact ⟨hacc.retryCounts, hacc.balance, hacc.bound, hacc.spare⟩
    · exact hacc.moved hu hi hm hroom
  exact (always_of_meets hstep ⟨inv_start h, accounts_start h⟩ hroom).mono
    fun s hs => hs.2.retryBound hu hs.1

end Attempts

/-! ### Two workers -/

/-- Retries are limited to one, and the only piece is in endgame from the start. -/
def oneRetry (workers : ℕ) : Setup FileStorage :=
  (oneByte none ⟨workers, 1, 0, 1, 0, false, false⟩ workers).setup

/-- A single worker fails twice and leaves room each time. -/
theorem retryBound_of_leavesRoom_one_worker :
    (∃ s, run (step (oneRetry 1)) (start (oneRetry 1) (.new 1) ⟨[0], []⟩ none)
      (List.replicate 31 (withSeeds 1 0 none)) = some s ∧ charged s 0 = 2) ∧
    Always (step (oneRetry 1)) (RetryBound (oneRetry 1))
      (start (oneRetry 1) (.new 1) ⟨[0], []⟩ none) (List.replicate 31 (withSeeds 1 0 none)) := by
  have hbegin : begin (oneRetry 1) none none =
      .ok (start (oneRetry 1) (.new 1) ⟨[0], []⟩ none) := rfl
  exact ⟨⟨_, rfl, rfl⟩,
    retryBound_of_leavesRoom (oneRetry 1) (by decide) none none _ hbegin (by decide)⟩

/-- **The bound is broken**: one worker fails and, before it has charged that, another one resets
the piece, fails, charges, resets it again and fails. -/
theorem charged_over_bound :
    begin (oneRetry 2) none none = .ok (start (oneRetry 2) (.new 1) ⟨[0], []⟩ none) ∧
    ∃ s, run (step (oneRetry 2)) (start (oneRetry 2) (.new 1) ⟨[0], []⟩ none)
        (List.replicate 14 (withSeeds 2 0 none) ++ List.replicate 32 (withSeeds 2 1 none) ++
          [withSeeds 2 0 none]) = some s ∧
      charged s 0 = 3 ∧ ¬ charged s 0 ≤ max 1 (2 * (oneRetry 2).config.maxRetriesPerPiece) :=
  ⟨rfl, _, rfl, rfl, by decide⟩

end CncContent.Coordinator.Attempts
