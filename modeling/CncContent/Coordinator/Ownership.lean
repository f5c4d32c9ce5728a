import CncContent.Coordinator.Steps

/-! # Who owns a piece

A piece is in flight exactly if one worker holds it (`Owned`), whatever the others do: a piece is
claimed from `needed`, reset from `failed`, and given up by its owner only. So no step takes a piece
out of `done` (`doneGrows_enables`). The history of a worker ends with what brought it to its point,
and a piece is written once at most (`History`). -/

namespace CncContent.Coordinator.Ownership

open CncContent.Lib.Owners CncContent.Storage.Backend CncContent.Torrent.PieceMap
open CncContent.Coordinator.Worker CncContent.Coordinator.Steps

structure Owned (m : SharedPieceMap) (ws : List Pc) : Prop where
  exclusive : Exclusive holds ws
  inFlight : ∀ p, m.get p = .inFlight ↔ ∃ w, Owns holds ws w p

section Owned

variable {m : SharedPieceMap} {ws : List Pc} {w : ℕ} {pc pc' : Pc}

/-- A worker moves and keeps what it holds. -/
theorem Owned.move (h : Owned m ws) (hw : ws[w]? = some pc) (hq : holds pc' = holds pc) :
    Owned m (ws.set w pc') := by
  refine ⟨h.exclusive.set hw fun r hr => Or.inl (hq ▸ hr), fun p => ?_⟩
  rw [h.inFlight, owned_set_iff h.exclusive hw, hq]
  constructor
  · intro hp
    by_cases hr : holds pc = some p
    · exact Or.inl hr
    · exact Or.inr ⟨hr, hp⟩
  · rintro (hr | ⟨-, hp⟩)
    · exact ⟨w, pc, hw, hr⟩
    · exact hp

/-- A worker moves and changes the state of a piece that it holds or that nobody holds. -/
theorem Owned.store (h : Owned m ws) (hw : ws[w]? = some pc) {p : ℕ} {x : PieceState}
    (hp : p < m.pieceCount) (hx : x = .inFlight ↔ holds pc' = some p)
    (hother : ∀ r, r ≠ p → (holds pc' = some r ↔ holds pc = some r))
    (hfree : holds pc = some p ∨ m.get p ≠ .inFlight) :
    Owned (m.store p x) (ws.set w pc') := by
  have hnobody : ¬ (holds pc ≠ some p ∧ ∃ v, Owns holds ws v p) := by
    rintro ⟨hpc, hv⟩
    rcases hfree with hpc' | hget
    · exact hpc hpc'
    · exact hget ((h.inFlight p).mpr hv)
  refine ⟨h.exclusive.set hw fun r hr => ?_, fun r => ?_⟩
  · by_cases hrp : r = p
    · subst hrp
      by_cases hpc : holds pc = some r
      · exact Or.inl hpc
      · exact Or.inr fun v hv => hnobody ⟨hpc, v, hv⟩
    · exact Or.inl ((hother r hrp).mp hr)
  · rw [owned_set_iff h.exclusive hw]
    by_cases hrp : r = p
    · subst hrp
      rw [SharedPieceMap.get_store_self hp, hx]
      exact ⟨Or.inl, fun hr => hr.resolve_right hnobody⟩
    · rw [SharedPieceMap.get_store_ne hrp, h.inFlight, hother r hrp]
      constructor
      · intro hr
        by_cases hpc : holds pc = some r
        · exact Or.inl hpc
        · exact Or.inr ⟨hpc, hr⟩
      · rintro (hpc | ⟨-, hr⟩)
        · exact ⟨w, pc, hw, hpc⟩
        · exact hr

theorem Owned.get_eq (h : Owned m ws) (hw : ws[w]? = some pc) {p : ℕ}
    (hp : holds pc = some p) : m.get p = .inFlight :=
  (h.inFlight p).mpr ⟨w, pc, hw, hp⟩

end Owned

section Steps

variable {σ : Type} {c : Setup σ} {s : State σ} {w : ℕ} {pc pc' : Pc} {e : Effect}

theorem owned_enables (h : Owned s.pieceMap s.workers) (hw : s.workers[w]? = some pc)
    (he : Enables c s pc pc' e) : Owned (mapAfter s.pieceMap e) (s.workers.set w pc') := by
  cases e with
  | reset i =>
    obtain ⟨hget, endgame, rfl, rfl, -⟩ := he
    have hlt : i < s.pieceMap.pieceCount := SharedPieceMap.lt_of_get_ne (by rw [hget]; decide)
    exact h.store hw hlt ⟨nofun, nofun⟩ (fun _ _ => Iff.rfl) (Or.inr (by rw [hget]; decide))
  | claim p =>
    obtain ⟨hlt, hget, hpc, -, rfl⟩ := he
    refine h.store hw hlt ⟨fun _ => rfl, fun _ => rfl⟩ (fun r hr => ?_)
      (Or.inr (by rw [hget]; decide))
    rw [hpc]
    exact ⟨fun hp => absurd (Option.some.inj hp).symm hr, nofun⟩
  | fail p =>
    obtain ⟨hpc, -, -, cause, rfl⟩ := he
    have hlt : p < s.pieceMap.pieceCount :=
      SharedPieceMap.lt_of_get_ne (by rw [h.get_eq hw hpc]; decide)
    refine h.store hw hlt ⟨nofun, nofun⟩ (fun r hr => ?_) (Or.inl hpc)
    rw [hpc]
    exact ⟨nofun, fun hp => absurd (Option.some.inj hp).symm hr⟩
  | done p =>
    obtain ⟨data, rfl, rfl⟩ := he
    have hlt : p < s.pieceMap.pieceCount :=
      SharedPieceMap.lt_of_get_ne (by rw [h.get_eq hw rfl]; decide)
    refine h.store hw hlt ⟨nofun, nofun⟩ (fun r hr => ?_) (Or.inl rfl)
    exact ⟨nofun, fun hp => absurd (Option.some.inj hp).symm hr⟩
  | charge p cause =>
    obtain ⟨rfl, rfl⟩ := he
    exact h.move hw rfl
  | verified p data =>
    obtain ⟨⟨peer, rfl⟩, rfl, -⟩ := he
    exact h.move hw rfl
  | write p data =>
    obtain ⟨rfl, ⟨-, rfl⟩ | ⟨-, e, rfl⟩⟩ := he
    · exact h.move hw rfl
    · exact h.move hw rfl
  | cancel =>
    obtain ⟨p, e, rfl, rfl⟩ := he
    exact h.move hw rfl
  | fatal p e =>
    obtain ⟨rfl, rfl⟩ := he
    exact h.move hw rfl
  | none => exact h.move hw he.holds
  | lock => exact h.move hw he.holds
  | unlock => exact h.move hw he.holds
  | credit data => exact h.move hw he.holds
  | save st saved => exact h.move hw he.1.holds

theorem owned_moved {s' : State σ} (h : Owned s.pieceMap s.workers) (hm : Moved c s s' w pc pc' e) :
    Owned s'.pieceMap s'.workers := by
  rw [hm.pieceMap, hm.workers]
  exact owned_enables h hm.worker hm.enables

/-- **No step takes a piece out of `done`.** -/
theorem doneGrows_enables (h : Owned s.pieceMap s.workers) (hw : s.workers[w]? = some pc)
    (he : Enables c s pc pc' e) : SharedPieceMap.DoneGrows s.pieceMap (mapAfter s.pieceMap e) := by
  cases e with
  | reset i => exact SharedPieceMap.doneGrows_store (Or.inl (by rw [he.1]; decide))
  | claim p => exact SharedPieceMap.doneGrows_store (Or.inl (by rw [he.2.1]; decide))
  | fail p => exact SharedPieceMap.doneGrows_store (Or.inl (by rw [h.get_eq hw he.1]; decide))
  | done p => exact SharedPieceMap.doneGrows_store (Or.inr rfl)
  | _ => exact SharedPieceMap.DoneGrows.refl _

theorem doneGrows_moved {s' : State σ} (h : Owned s.pieceMap s.workers)
    (hm : Moved c s s' w pc pc' e) : SharedPieceMap.DoneGrows s.pieceMap s'.pieceMap := by
  rw [hm.pieceMap]
  exact doneGrows_enables h hm.worker hm.enables

/-- A piece becomes `done` by the `mark_done` of its owner only. -/
theorem done_enables {p : ℕ} (h : s.pieceMap.get p ≠ .done)
    (h' : (mapAfter s.pieceMap e).get p = .done) (he : Enables c s pc pc' e) :
    ∃ data, pc = .markDone p data := by
  have hstore : ∀ {q : ℕ} {x : PieceState}, (s.pieceMap.store q x).get p = .done →
      p = q ∧ x = .done := by
    intro q x hget
    by_cases hpq : p = q
    · subst hpq
      refine ⟨rfl, ?_⟩
      have hlt : p < (s.pieceMap.store p x).pieceCount :=
        SharedPieceMap.lt_of_get_ne (by rw [hget]; decide)
      rw [SharedPieceMap.pieceCount_store] at hlt
      rwa [SharedPieceMap.get_store_self hlt] at hget
    · rw [SharedPieceMap.get_store_ne hpq] at hget
      exact absurd hget h
  cases e with
  | reset i => cases (hstore h').2
  | claim q => cases (hstore h').2
  | fail q => cases (hstore h').2
  | done q =>
    obtain ⟨data, rfl, -⟩ := he
    obtain ⟨rfl, -⟩ := hstore h'
    exact ⟨data, rfl⟩
  | _ => exact absurd h' h

end Steps

/-! ### The history -/

section History

variable {σ : Type} {c : Setup σ} {s s' : State σ} {w : ℕ} {pc pc' : Pc} {e : Effect}

/-- What happened to one worker. -/
def history (s : State σ) (w : ℕ) : List Event := (s.log.filter fun ev => ev.1 == w).map Prod.snd

/-- The event is a write of the piece, successful or not. -/
def isWrite (p : ℕ) : Event → Bool
  | .wrote q _ _ => q == p
  | _ => false

/-- The event is a failed attempt at the piece. -/
def isFailure (p : ℕ) : Event → Bool
  | .failed q => q == p
  | _ => false

/-- How often the piece has been written. -/
def writes (s : State σ) (p : ℕ) : ℕ := s.log.countP fun ev => isWrite p ev.2

/-- How many attempts at the piece have failed. -/
def failures (s : State σ) (p : ℕ) : ℕ := s.log.countP fun ev => isFailure p ev.2

structure History (c : Setup σ) (s : State σ) : Prop where
  /-- What is said to be verified is. -/
  verified : ∀ w p data, (w, Event.verified p data) ∈ s.log → verifyPiece c p data = true
  /-- The history of a worker ends with what led it to its point. -/
  lastEvents : ∀ w pc, s.workers[w]? = some pc → lastEvents pc <:+ history s w
  /-- A piece that has been written has been written once, and it is done or its writer has it. -/
  once : ∀ p, writes s p = 0 ∨ writes s p = 1 ∧
    (s.pieceMap.get p = .done ∨ ∃ (w : ℕ) (pc : Pc), s.workers[w]? = some pc ∧ written pc = some p)

theorem mem_history {ev : Event} : ev ∈ history s w ↔ (w, ev) ∈ s.log := by
  unfold history
  rw [List.mem_map]
  constructor
  · rintro ⟨⟨v, ev'⟩, hmem, rfl⟩
    obtain ⟨hlog, hv⟩ := List.mem_filter.mp hmem
    rwa [← beq_iff_eq.mp hv]
  · exact fun h => ⟨(w, ev), List.mem_filter.mpr ⟨h, beq_self_eq_true w⟩, rfl⟩

/-- The data a worker has at its point have been verified. -/
theorem History.verifyPiece_of_lastEvents (h : History c s) (hw : s.workers[w]? = some pc) {p : ℕ}
    {data : List UInt8} (hmem : Event.verified p data ∈ Steps.lastEvents pc) :
    verifyPiece c p data = true :=
  h.verified w p data (mem_history.mp ((h.lastEvents w pc hw).subset hmem))

theorem countP_map_snd (f : Event → Bool) (l : List Event) (w : ℕ) :
    (l.map fun ev => (w, ev)).countP (fun ev => f ev.2) = l.countP f :=
  List.countP_map

theorem writes_moved (hm : Moved c s s' w pc pc' e) (p : ℕ) :
    writes s' p = writes s p + (eventsOf c s e).countP (isWrite p) := by
  unfold writes
  rw [hm.log, List.countP_append, countP_map_snd]

theorem failures_moved (hm : Moved c s s' w pc pc' e) (p : ℕ) :
    failures s' p = failures s p + (eventsOf c s e).countP (isFailure p) := by
  unfold failures
  rw [hm.log, List.countP_append, countP_map_snd]

theorem history_moved (hm : Moved c s s' w pc pc' e) (v : ℕ) :
    history s' v = history s v ++ if v = w then eventsOf c s e else [] := by
  unfold history
  rw [hm.log, List.filter_append, List.map_append]
  congr 1
  rw [List.filter_map]
  by_cases hv : v = w
  · subst hv
    rw [if_pos rfl]
    have hall : (eventsOf c s e).filter ((fun ev : ℕ × Event => ev.1 == v) ∘ fun ev => (v, ev)) =
        eventsOf c s e := List.filter_eq_self.mpr fun ev _ => beq_self_eq_true v
    rw [hall, List.map_map]
    exact List.map_id _
  · rw [if_neg hv]
    have hnone : (eventsOf c s e).filter ((fun ev : ℕ × Event => ev.1 == v) ∘ fun ev => (w, ev)) = [] :=
      List.filter_eq_nil_iff.mpr fun ev _ hev => hv (beq_iff_eq.mp hev).symm
    rw [hnone]
    rfl

/-- The point a step leads to asks for the events before it and those of the step. -/
theorem lastEvents_enables (he : Enables c s pc pc' e) :
    lastEvents pc' <:+ lastEvents pc ++ eventsOf c s e := by
  have nil : ∀ {l : List Event}, lastEvents pc' = [] → lastEvents pc' <:+ l := by
    intro l hnil
    rw [hnil]
    exact List.nil_suffix
  cases e with
  | reset i =>
    obtain ⟨-, endgame, -, rfl, -⟩ := he
    exact nil rfl
  | claim p =>
    obtain ⟨-, -, -, -, rfl⟩ := he
    exact nil rfl
  | fail p =>
    obtain ⟨-, -, -, cause, rfl⟩ := he
    exact nil rfl
  | done p =>
    obtain ⟨data, -, rfl⟩ := he
    exact nil rfl
  | charge p cause =>
    obtain ⟨-, rfl⟩ := he
    exact nil rfl
  | verified p data =>
    obtain ⟨⟨peer, rfl⟩, rfl, -⟩ := he
    exact List.suffix_rfl
  | write p data =>
    obtain ⟨rfl, ⟨hok, rfl⟩ | ⟨-, e, rfl⟩⟩ := he
    · refine ⟨[], ?_⟩
      show [Event.verified p data, .wrote p data true] = [Event.verified p data, .wrote p data _]
      rw [hok]
    · exact nil rfl
  | cancel =>
    obtain ⟨p, e, -, rfl⟩ := he
    exact nil rfl
  | fatal p e =>
    obtain ⟨-, rfl⟩ := he
    exact nil rfl
  | none => exact nil he.lastEvents
  | lock => exact nil he.lastEvents
  | unlock => exact nil he.lastEvents
  | credit data => exact nil he.lastEvents
  | save st saved => exact nil he.1.lastEvents

theorem holds_of_written {p : ℕ} (h : written pc = some p) : holds pc = some p := by
  cases pc with
  | storageFailed q e => exact h
  | storeFatal q e => exact h
  | markDone q data => exact h
  | stopped held => exact h
  | _ => cases h

/-- A writer keeps its piece until it is done. -/
theorem written_enables {p : ℕ} (hp : p < s.pieceMap.pieceCount) (h : written pc = some p)
    (he : Enables c s pc pc' e) :
    written pc' = some p ∨ (mapAfter s.pieceMap e).get p = .done := by
  have quiet : Quiet pc pc' → written pc' = some p ∨ (mapAfter s.pieceMap e).get p = .done := by
    intro hq
    rw [hq.written.1] at h
    cases h
  cases e with
  | reset i =>
    obtain ⟨-, endgame, rfl, -⟩ := he
    cases h
  | claim q =>
    have hholds := holds_of_written h
    rw [he.2.2.1] at hholds
    cases hholds
  | fail q =>
    rw [he.2.1] at h
    cases h
  | charge q cause =>
    obtain ⟨rfl, -⟩ := he
    cases h
  | verified q data =>
    obtain ⟨⟨peer, rfl⟩, -⟩ := he
    cases h
  | write q data =>
    obtain ⟨rfl, -⟩ := he
    cases h
  | cancel =>
    obtain ⟨q, e, rfl, rfl⟩ := he
    exact Or.inl h
  | fatal q e =>
    obtain ⟨rfl, rfl⟩ := he
    exact Or.inl h
  | done q =>
    obtain ⟨data, rfl, -⟩ := he
    cases h
    exact Or.inr (SharedPieceMap.get_store_self hp _)
  | none => exact quiet he
  | lock => exact quiet he
  | unlock => exact quiet he
  | credit data => exact quiet he
  | save st saved => exact quiet he.1

/-- The events of a step with a write of the piece are that one write, by its owner. -/
theorem countP_isWrite (he : Enables c s pc pc' e) (p : ℕ) :
    (eventsOf c s e).countP (isWrite p) = 0 ∨ (eventsOf c s e).countP (isWrite p) = 1 ∧
      holds pc = some p ∧ written pc = none ∧ written pc' = some p := by
  cases e with
  | write q data =>
    obtain ⟨rfl, hpc'⟩ := he
    unfold eventsOf
    rw [List.countP_singleton]
    unfold isWrite
    split_ifs with hq
    · obtain rfl := beq_iff_eq.mp hq
      refine Or.inr ⟨rfl, rfl, rfl, ?_⟩
      rcases hpc' with ⟨-, rfl⟩ | ⟨-, e, rfl⟩
      · rfl
      · rfl
    · exact Or.inl rfl
  | _ => exact Or.inl rfl

/-- **A move keeps the history.** -/
theorem History.moved (h : History c s) (ho : Owned s.pieceMap s.workers)
    (hm : Moved c s s' w pc pc' e) : History c s' := by
  have hw := hm.worker
  have he := hm.enables
  have hgrow := doneGrows_moved ho hm
  refine ⟨fun v p data hv => ?_, fun v pcv hv => ?_, fun p => ?_⟩
  · rw [hm.log, List.mem_append] at hv
    rcases hv with hv | hv
    · exact h.verified v p data hv
    · obtain ⟨ev, hev, heq⟩ := List.mem_map.mp hv
      cases heq
      cases e with
      | verified q d =>
        cases List.mem_singleton.mp hev
        exact he.2.2
      | write q d => cases List.mem_singleton.mp hev
      | fail q => cases List.mem_singleton.mp hev
      | _ => cases hev
  · rw [hm.workers, getElem?_set hw] at hv
    rw [history_moved hm]
    split_ifs at hv ⊢ with hvw
    · cases hv
      subst hvw
      obtain ⟨pre, hpre⟩ := h.lastEvents v pc hw
      refine (lastEvents_enables he).trans ⟨pre, ?_⟩
      rw [← List.append_assoc, hpre]
    · rw [List.append_nil]
      exact h.lastEvents v pcv hv
  · rw [writes_moved hm, hm.workers]
    rcases countP_isWrite he p with hzero | ⟨hone, hholds, hnone, hnew⟩
    · rw [hzero, Nat.add_zero]
      refine (h.once p).imp_right fun ⟨hp, hwhere⟩ => ⟨hp, ?_⟩
      rcases hwhere with hdone | ⟨v, pcv, hv, hpv⟩
      · exact Or.inl (hgrow.done p hdone)
      · by_cases hvw : v = w
        · subst hvw
          rw [hw] at hv
          cases hv
          have hlt : p < s.pieceMap.pieceCount :=
            SharedPieceMap.lt_of_get_ne (by rw [ho.get_eq hw (holds_of_written hpv)]; decide)
          rcases written_enables hlt hpv he with hp' | hdone
          · exact Or.inr ⟨v, pc', by rw [getElem?_set hw, if_pos rfl], hp'⟩
          · exact Or.inl (by rw [hm.pieceMap]; exact hdone)
        · exact Or.inr ⟨v, pcv, by rw [getElem?_set hw, if_neg hvw, hv], hpv⟩
    · refine Or.inr ⟨?_, Or.inr ⟨w, pc', by rw [getElem?_set hw, if_pos rfl], hnew⟩⟩
      -- had the piece been written before, its writer would be another owner
      rcases h.once p with hzero | ⟨-, hdone | ⟨v, pcv, hv, hpv⟩⟩
      · rw [hzero, hone]
      · rw [ho.get_eq hw hholds] at hdone
        cases hdone
      · have hvw : v = w := ho.exclusive v w p ⟨pcv, hv, holds_of_written hpv⟩ ⟨pc, hw, hholds⟩
        subst hvw
        rw [hw] at hv
        cases hv
        rw [hnone] at hpv
        cases hpv

end History

end CncContent.Coordinator.Ownership
