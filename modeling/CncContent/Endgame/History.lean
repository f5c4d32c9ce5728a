import CncContent.Endgame.Mode
import CncContent.Lib.Past
import Mathlib.Data.List.Induction

/-! # The history of an endgame

While endgame mode stays active its table is a function of the history (`records_history`): a block is
pending if it has been requested since it was last received, and the peers of a pending block are
those asked for it since, unless they have been removed after that. So the cancellations and the
broadcasts are the ones the history asks for (`endgame_law`). -/

namespace CncContent.Endgame.History

open CncContent.Lib.Bounded CncContent.Lib.Maps CncContent.Lib.Past CncContent.Endgame.Mode

/-! ### Histories -/

/-- A call and the actions it returned. -/
abbrev Event := Call × List EndgameAction

/-- The state after the calls. -/
def after (eg : EndgameMode) (calls : List Call) : EndgameMode :=
  calls.foldl (fun eg c => (eg.apply c).1) eg

/-- The calls with the actions they return. -/
def history : EndgameMode → List Call → List Event
  | _, [] => []
  | eg, c :: calls => (c, (eg.apply c).2) :: history (eg.apply c).1 calls

/-- The block is requested from the peer. -/
def Requests (b : BlockId) (q : PeerId) (e : Event) : Prop :=
  e.1 = .recordRequest b q ∨ e.1 = .blocksForNewPeer q ∧ .broadcastRequest b ∈ e.2

/-- The block is received. -/
def Receives (b : BlockId) (e : Event) : Prop := ∃ p, e.1 = .blockReceived b p

/-- The peer is removed. -/
def Removes (q : PeerId) (e : Event) : Prop := e.1 = .removePeer q

/-- The block has been requested since it was last received. -/
def Pending (past : List Event) (b : BlockId) : Prop :=
  Since (fun e => ∃ q, Requests b q e) (Receives b) past

/-- The block has been requested from the peer since it was last received, and the peer has not been
removed after that. -/
def Asked (past : List Event) (b : BlockId) (q : PeerId) : Prop :=
  Since (Requests b q) (fun e => Receives b e ∨ Removes q e) past

/-- The table is the one of the history. -/
structure Records (past : List Event) (eg : EndgameMode) : Prop where
  pending : ∀ b, eg.IsPending b ↔ Pending past b
  asked : ∀ b q, eg.IsAsked b q ↔ Asked past b q

theorem after_concat (eg : EndgameMode) (calls : List Call) (c : Call) :
    after eg (calls ++ [c]) = ((after eg calls).apply c).1 := by
  unfold after
  rw [List.foldl_append]
  rfl

theorem history_concat (eg : EndgameMode) (calls : List Call) (c : Call) :
    history eg (calls ++ [c]) = history eg calls ++ [(c, ((after eg calls).apply c).2)] := by
  induction calls generalizing eg with
  | nil => rfl
  | cons c' calls ih => exact congrArg (_ :: ·) (ih _)

/-! ### One call -/

/-- What a call does to the table is what its event does to the history. -/
structure Effect (eg eg' : EndgameMode) (e : Event) : Prop where
  pending : ∀ b, eg'.IsPending b ↔ (∃ q, Requests b q e) ∨ eg.IsPending b ∧ ¬ Receives b e
  asked : ∀ b q, eg'.IsAsked b q ↔
    Requests b q e ∨ eg.IsAsked b q ∧ ¬ (Receives b e ∨ Removes q e)

section Step

variable {past : List Event} {eg : EndgameMode} {out : List EndgameAction}

theorem Records.concat {eg' : EndgameMode} {e : Event} (h : Records past eg)
    (heffect : Effect eg eg' e) : Records (past ++ [e]) eg' := by
  constructor
  · intro b
    unfold Pending
    rw [since_concat, heffect.pending, h.pending]
    rfl
  · intro b q
    unfold Asked
    rw [since_concat, heffect.asked, h.asked]
    rfl

/-- A call that is no request, reception or removal. -/
theorem Effect.of_skip {c : Call} (hreq : ∀ b q, ¬ Requests b q (c, out))
    (hrec : ∀ b, ¬ Receives b (c, out)) (hrem : ∀ q, ¬ Removes q (c, out)) :
    Effect eg eg (c, out) := by
  constructor
  · intro b
    rw [or_iff_right fun ⟨q, hq⟩ => hreq b q hq, and_iff_left (hrec b)]
  · intro b q
    rw [or_iff_right (hreq b q), and_iff_left fun hc => hc.elim (hrec b) (hrem q)]

theorem requests_recordRequest {b b' : BlockId} {q q' : PeerId} :
    Requests b' q' (.recordRequest b q, out) ↔ b' = b ∧ q' = q := by
  constructor
  · rintro (⟨⟨⟩⟩ | ⟨⟨⟩, -⟩)
    exact ⟨rfl, rfl⟩
  · rintro ⟨rfl, rfl⟩
    exact Or.inl rfl

theorem effect_recordRequest (hactive : eg.active = true) (b : BlockId) (q : PeerId) :
    Effect eg (eg.recordRequest b q) (.recordRequest b q, out) := by
  have hrec : ∀ b', ¬ Receives b' (.recordRequest b q, out) := fun _ ⟨_, hp⟩ => nomatch hp
  have hrem : ∀ q', ¬ Removes q' (.recordRequest b q, out) := nofun
  constructor
  · intro b'
    simp only [requests_recordRequest, and_iff_left (hrec b'), exists_and_left, exists_eq, and_true]
    exact EndgameMode.isPending_recordRequest hactive
  · intro b' q'
    rw [requests_recordRequest, and_iff_left fun hc => hc.elim (hrec b') (hrem q')]
    exact EndgameMode.isAsked_recordRequest hactive

theorem effect_blockReceived (hactive : eg.active = true) (b : BlockId) (p : PeerId) :
    Effect eg (eg.blockReceived b p).1 (.blockReceived b p, out) := by
  have hreq : ∀ b' q, ¬ Requests b' q (.blockReceived b p, out) := by
    rintro b' q (⟨⟨⟩⟩ | ⟨⟨⟩, -⟩)
  have hrec : ∀ b', Receives b' (.blockReceived b p, out) ↔ b' = b :=
    fun b' => ⟨fun ⟨_, hp⟩ => by cases hp; rfl, fun hb => ⟨p, by rw [hb]⟩⟩
  have hrem : ∀ q, ¬ Removes q (.blockReceived b p, out) := nofun
  constructor
  · intro b'
    rw [or_iff_right fun ⟨q, hq⟩ => hreq b' q hq, hrec]
    exact EndgameMode.isPending_blockReceived hactive
  · intro b' q
    rw [or_iff_right (hreq b' q), or_iff_left (hrem q), hrec]
    exact EndgameMode.isAsked_blockReceived hactive

theorem effect_removePeer (q : PeerId) : Effect eg (eg.removePeer q) (.removePeer q, out) := by
  have hreq : ∀ b q', ¬ Requests b q' (.removePeer q, out) := by
    rintro b q' (⟨⟨⟩⟩ | ⟨⟨⟩, -⟩)
  have hrec : ∀ b, ¬ Receives b (.removePeer q, out) := fun _ ⟨_, hp⟩ => nomatch hp
  have hrem : ∀ q', Removes q' (.removePeer q, out) ↔ q' = q :=
    fun q' => ⟨fun h => by cases h; rfl, fun h => by rw [h]; rfl⟩
  constructor
  · intro b
    rw [or_iff_right fun ⟨q', hq⟩ => hreq b q' hq, and_iff_left (hrec b)]
    exact EndgameMode.isPending_removePeer
  · intro b q'
    rw [or_iff_right (hreq b q'), or_iff_right (hrec b), hrem]
    exact EndgameMode.isAsked_removePeer

/-- A broadcast is a request to the peer. -/
theorem requests_blocksForNewPeer (hactive : eg.active = true) {b : BlockId} {q q' : PeerId} :
    Requests b q' (.blocksForNewPeer q, (eg.blocksForNewPeer q).2) ↔
      q' = q ∧ eg.IsPending b ∧ ¬ eg.IsAsked b q := by
  have hmem : EndgameAction.broadcastRequest b ∈ (eg.blocksForNewPeer q).2 ↔
      eg.IsPending b ∧ ¬ eg.IsAsked b q := by
    rw [EndgameMode.mem_blocksForNewPeer hactive]
    constructor
    · rintro ⟨b', hpending, hasked, hb⟩
      cases hb
      exact ⟨hpending, hasked⟩
    · rintro ⟨hpending, hasked⟩
      exact ⟨b, hpending, hasked, rfl⟩
  constructor
  · rintro (⟨⟨⟩⟩ | ⟨hq, hb⟩)
    cases hq
    exact ⟨rfl, hmem.mp hb⟩
  · rintro ⟨rfl, hb⟩
    exact Or.inr ⟨rfl, hmem.mpr hb⟩

theorem effect_blocksForNewPeer (hactive : eg.active = true) (q : PeerId) :
    Effect eg (eg.blocksForNewPeer q).1 (.blocksForNewPeer q, (eg.blocksForNewPeer q).2) := by
  have hrec : ∀ b out, ¬ Receives b (.blocksForNewPeer q, out) := fun _ _ ⟨_, hp⟩ => nomatch hp
  have hrem : ∀ q' out, ¬ Removes q' (.blocksForNewPeer q, out) := nofun
  constructor
  · intro b
    rw [EndgameMode.isPending_blocksForNewPeer hactive, and_iff_left (hrec b _)]
    refine ⟨Or.inr, fun hc => hc.elim ?_ id⟩
    rintro ⟨q', hq⟩
    exact ((requests_blocksForNewPeer hactive).mp hq).2.1
  · intro b q'
    have hkeep : ¬ (Receives b (.blocksForNewPeer q, (eg.blocksForNewPeer q).2) ∨
        Removes q' (.blocksForNewPeer q, (eg.blocksForNewPeer q).2)) :=
      fun hc => hc.elim (hrec b _) (hrem q' _)
    rw [EndgameMode.isAsked_blocksForNewPeer hactive, requests_blocksForNewPeer hactive,
      and_iff_left hkeep]
    constructor
    · rintro (⟨rfl, hpending⟩ | hasked)
      · by_cases hasked : eg.IsAsked b q'
        · exact Or.inr hasked
        · exact Or.inl ⟨rfl, hpending, hasked⟩
      · exact Or.inr hasked
    · rintro (⟨rfl, hpending, -⟩ | hasked)
      · exact Or.inl ⟨rfl, hpending⟩
      · exact Or.inr hasked

/-- **Every call that leaves the mode active** does to the table what its event does. -/
theorem effect_apply (c : Call) (hactive : (eg.apply c).1.active = true) :
    Effect eg (eg.apply c).1 (c, (eg.apply c).2) := by
  cases c with
  | updateRemaining remaining peers =>
    have hstate : (eg.updateRemaining remaining peers).1.pending = eg.pending := if_pos hactive
    have hskip : Effect eg eg (.updateRemaining remaining peers, []) :=
      .of_skip (by rintro b q (⟨⟨⟩⟩ | ⟨⟨⟩, -⟩)) (fun _ ⟨_, hp⟩ => nomatch hp) nofun
    have hsame : ∀ b q, ((eg.updateRemaining remaining peers).1.IsPending b ↔ eg.IsPending b) ∧
        ((eg.updateRemaining remaining peers).1.IsAsked b q ↔ eg.IsAsked b q) := by
      intro b q
      unfold EndgameMode.IsPending EndgameMode.IsAsked
      rw [hstate]
      exact ⟨Iff.rfl, Iff.rfl⟩
    exact ⟨fun b => (hsame b (Vector.replicate 20 0)).1.trans (hskip.pending b),
      fun b q => (hsame b q).2.trans (hskip.asked b q)⟩
  | reset => cases hactive
  | removePeer q => exact effect_removePeer q
  | recordRequest b q =>
    refine effect_recordRequest ?_ b q
    by_contra hidle
    change (eg.recordRequest b q).active = true at hactive
    unfold EndgameMode.recordRequest at hactive
    rw [if_neg hidle] at hactive
    exact hidle hactive
  | blockReceived b p =>
    refine effect_blockReceived ?_ b p
    by_contra hidle
    change (eg.blockReceived b p).1.active = true at hactive
    unfold EndgameMode.blockReceived at hactive
    rw [if_neg hidle] at hactive
    exact hidle hactive
  | blocksForNewPeer q =>
    refine effect_blocksForNewPeer ?_ q
    by_contra hidle
    change (eg.blocksForNewPeer q).1.active = true at hactive
    unfold EndgameMode.blocksForNewPeer at hactive
    rw [if_neg hidle] at hactive
    exact hidle hactive

end Step

/-! ### A period of activity -/

/-- Nothing is pending while the mode is off. -/
def Idle (eg : EndgameMode) : Prop := eg.active = false → eg.pending = .empty

theorem Idle.apply {eg : EndgameMode} (h : Idle eg) (c : Call) : Idle (eg.apply c).1 := by
  have hoff : eg.active = false → eg.pending = .empty := h
  cases c with
  | updateRemaining remaining peers =>
    intro hidle
    have hoff : (eg.updateRemaining remaining peers).1.active = false := hidle
    exact if_neg (by rw [Bool.not_eq_true]; exact hoff)
  | reset => exact fun _ => rfl
  | removePeer q =>
    intro hidle
    have hstate : (eg.removePeer q).pending = eg.pending.mapValues fun peers => peers.remove q := rfl
    show (eg.removePeer q).pending = .empty
    rw [hstate, hoff hidle]
    rfl
  | recordRequest b q =>
    show Idle (eg.recordRequest b q)
    unfold EndgameMode.recordRequest
    split_ifs with hactive
    · exact fun hidle => absurd hactive (by rw [show eg.active = false from hidle]; decide)
    · exact h
  | blockReceived b p =>
    show Idle (eg.blockReceived b p).1
    unfold EndgameMode.blockReceived
    split_ifs with hactive
    · rcases eg.pending.get? b with _ | peers
      · exact h
      · exact fun hidle => absurd hactive (by rw [show eg.active = false from hidle]; decide)
    · exact h
  | blocksForNewPeer q =>
    show Idle (eg.blocksForNewPeer q).1
    unfold EndgameMode.blocksForNewPeer
    split_ifs with hactive
    · exact fun hidle => absurd hactive (by rw [show eg.active = false from hidle]; decide)
    · exact h

theorem Idle.after {eg : EndgameMode} (h : Idle eg) : ∀ calls : List Call, Idle (after eg calls) := by
  intro calls
  induction calls generalizing eg with
  | nil => exact h
  | cons c calls ih => exact ih (h.apply c)

theorem Idle.nothing {eg : EndgameMode} (h : Idle eg) (hoff : eg.active = false) (b : BlockId)
    (q : PeerId) : ¬ eg.IsPending b ∧ ¬ eg.IsAsked b q := by
  unfold EndgameMode.IsPending EndgameMode.IsAsked
  rw [h hoff]
  constructor
  · rintro ⟨_, ⟨⟩⟩
  · rintro ⟨_, ⟨⟩, _⟩

/-- **The table of a period of activity is that of its history.** -/
theorem records_history {start : EndgameMode} (hidle : Idle start) (hoff : start.active = false)
    (calls : List Call)
    (hactive : ∀ k ≤ calls.length, 0 < k → (after start (calls.take k)).active = true) :
    Records (history start calls) (after start calls) := by
  induction calls using List.reverseRecOn with
  | nil =>
    have hnone : ∀ b q, ¬ start.IsPending b ∧ ¬ start.IsAsked b q :=
      hidle.nothing hoff
    exact ⟨fun b => iff_of_false (hnone b (Vector.replicate 20 0)).1 not_since_nil,
      fun b q => iff_of_false (hnone b q).2 not_since_nil⟩
  | append_singleton calls c ih =>
    have hlast := hactive (calls ++ [c]).length (Nat.le_refl _) (by simp)
    rw [List.take_length, after_concat] at hlast
    rw [history_concat, after_concat]
    refine Records.concat (ih fun k hk hpos => ?_) (effect_apply c hlast)
    have hbefore := hactive k (by rw [List.length_append]; omega) hpos
    rwa [List.take_append_of_le_length hk] at hbefore

/-- **The law of endgame mode**, at any point of a period of activity: after any calls that left the
mode off, and then calls that kept it on. -/
theorem endgame_law (totalPieces multiplier : ℕ) (before calls : List Call)
    (hstart : (after (.withMultiplier totalPieces multiplier) before).active = false)
    (hactive : ∀ k ≤ calls.length, 0 < k →
      (after (after (.withMultiplier totalPieces multiplier) before)
        (calls.take k)).active = true) :
    let start := after (.withMultiplier totalPieces multiplier) before
    let past := history start calls
    let eg := after start calls
    (∀ b p, (eg.blockReceived b p).2.Nodup ∧ ∀ a, a ∈ (eg.blockReceived b p).2 ↔
      ∃ q, q ≠ p ∧ Asked past b q ∧ a = .cancelDuplicate b q) ∧
    (∀ q, (eg.blocksForNewPeer q).2.Nodup ∧ ∀ a, a ∈ (eg.blocksForNewPeer q).2 ↔
      ∃ b, Pending past b ∧ ¬ Asked past b q ∧ a = .broadcastRequest b) ∧
    (∀ b, eg.IsPending b ↔ Pending past b) ∧
    ∀ c b, (eg.apply c).1.active = true → eg.IsPending b → ¬ (eg.apply c).1.IsPending b →
      ∃ p, c = .blockReceived b p := by
  intro start past eg
  have hidle : Idle start := Idle.after (fun _ => rfl) before
  have hrecords : Records past eg := records_history hidle hstart calls hactive
  have hoff : eg.active ≠ true → ∀ b q, ¬ eg.IsPending b ∧ ¬ eg.IsAsked b q :=
    fun hne => (hidle.after calls).nothing (Bool.not_eq_true _ ▸ hne)
  refine ⟨fun b p => ⟨eg.nodup_blockReceived b p, fun a => ?_⟩,
    fun q => ⟨eg.nodup_blocksForNewPeer q, fun a => ?_⟩, hrecords.pending, ?_⟩
  · simp only [← hrecords.asked]
    by_cases hon : eg.active = true
    · exact EndgameMode.mem_blockReceived hon
    · rw [EndgameMode.blockReceived, if_neg hon]
      exact ⟨nofun, fun ⟨q, _, hq, _⟩ => absurd hq (hoff hon b q).2⟩
  · simp only [← hrecords.asked, ← hrecords.pending]
    by_cases hon : eg.active = true
    · exact EndgameMode.mem_blocksForNewPeer hon
    · rw [EndgameMode.blocksForNewPeer, if_neg hon]
      exact ⟨nofun, fun ⟨b, hb, _⟩ => absurd hb (hoff hon b q).1⟩
  · intro c b hc hpending hgone
    by_contra hnot
    exact hgone (((effect_apply c hc).pending b).mpr (Or.inr ⟨hpending, hnot⟩))

/-- One piece left, asked for at two peers. -/
def twoRequests : List Call :=
  [.updateRemaining 1 1, .recordRequest ⟨0, 0⟩ (Vector.replicate 20 1),
    .recordRequest ⟨0, 0⟩ (Vector.replicate 20 2)]

theorem endgame_law_two_requests :
    .cancelDuplicate ⟨0, 0⟩ (Vector.replicate 20 2) ∈
      ((after (.withMultiplier 1 2) twoRequests).blockReceived ⟨0, 0⟩ (Vector.replicate 20 1)).2 ↔
    ∃ q, q ≠ Vector.replicate 20 1 ∧ Asked (history (.withMultiplier 1 2) twoRequests) ⟨0, 0⟩ q ∧
      EndgameAction.cancelDuplicate ⟨0, 0⟩ (Vector.replicate 20 2) = .cancelDuplicate ⟨0, 0⟩ q :=
  ((endgame_law 1 2 [] twoRequests rfl (by decide)).1 ⟨0, 0⟩ (Vector.replicate 20 1)).2 _

example : ((after (.new 1) twoRequests).blockReceived ⟨0, 0⟩ (Vector.replicate 20 1)).2 =
    [.cancelDuplicate ⟨0, 0⟩ (Vector.replicate 20 2)] := by decide

end CncContent.Endgame.History
