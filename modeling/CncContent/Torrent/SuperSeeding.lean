import CncContent.Lib.Bounded
import CncContent.Lib.FirstMatch
import CncContent.Lib.Ranking
import CncContent.Lib.Runs

/-! # Super-seeding

`SuperSeedState` of the source: an initial seeder offers each piece to one peer before it offers any
piece again. An instant is a number of nanoseconds, and the time since a later instant is zero. The
answers of `select_piece_for` are kept in a `Log`: a piece has been offered before exactly if it is among
them (`Inv.offered`), whatever peers leave and offers expire in between. -/

namespace CncContent.Torrent.SuperSeeding

open CncContent.Lib.Bounded CncContent.Lib.FirstMatch CncContent.Lib.Ranking CncContent.Lib.Runs

def maxSuperSeedPeers : ℕ := 200

/-- 120 seconds. -/
def offerTimeout : ℕ := 120 * 10 ^ 9

abbrev PeerId := Vector UInt8 20

structure PieceOffer where
  piece : ℕ
  peerId : PeerId
  offeredAt : ℕ
  requested : Bool
deriving DecidableEq, Repr

namespace PieceOffer

def new (piece : ℕ) (peerId : PeerId) (now : ℕ) : PieceOffer := ⟨piece, peerId, now, false⟩

def isExpired (o : PieceOffer) (now : ℕ) : Bool := decide (offerTimeout < now - o.offeredAt)

def markRequested (o : PieceOffer) : PieceOffer := { o with requested := true }

end PieceOffer

structure SuperSeedState where
  pieceCount : ℕ
  offers : List PieceOffer
  propagation : List ℕ
  peers : List PeerId
  offeredPieces : List Bool
deriving DecidableEq, Repr

namespace SuperSeedState

def new (pieceCount : ℕ) : SuperSeedState :=
  ⟨pieceCount, [], List.replicate pieceCount 0, [], List.replicate pieceCount false⟩

variable (s : SuperSeedState)

def registerPeer (peerId : PeerId) : SuperSeedState :=
  if s.peers.contains peerId then s
  else if maxSuperSeedPeers ≤ s.peers.length then s
  else { s with peers := s.peers ++ [peerId] }

def removePeer (peerId : PeerId) : SuperSeedState :=
  { s with
    peers := s.peers.filter fun p => p ≠ peerId
    offers := s.offers.filter fun o => o.peerId ≠ peerId }

def recordOffer (piece : ℕ) (peerId : PeerId) (now : ℕ) : SuperSeedState :=
  { s with
    offers := s.offers ++ [.new piece peerId now]
    offeredPieces := s.offeredPieces.set piece true }

/-- The offers to the peer that are neither expired nor removed. -/
def activeOffers (peerId : PeerId) (now : ℕ) : List PieceOffer :=
  s.offers.filter fun o => o.peerId = peerId && !o.isExpired now

/-- The pieces of these offers. -/
def alreadyOffered (peerId : PeerId) (now : ℕ) : List ℕ := (s.activeOffers peerId now).map (·.piece)

/-- The first piece that has never been offered. -/
def neverOffered : Option ℕ := s.offeredPieces.findIdx? fun offered => !offered

/-- The pieces that are not offered to the peer, with their counts. -/
def candidates (peerId : PeerId) (now : ℕ) : List (ℕ × ℕ) :=
  ((List.range s.pieceCount).filter fun i => !(s.alreadyOffered peerId now).contains i).filterMap fun i =>
    s.propagation[i]?.map fun count => (i, count)

/-- The sort by count. -/
abbrev ByCount (a b : ℕ × ℕ) : Prop := a.2 ≤ b.2

instance : Std.Total ByCount := ⟨fun a b => Nat.le_total a.2 b.2⟩

instance : IsTrans (ℕ × ℕ) ByCount := ⟨fun _ _ _ => Nat.le_trans⟩

def selectPieceFor (peerId : PeerId) (now : ℕ) : Option ℕ × SuperSeedState :=
  match s.neverOffered.filter fun piece => !(s.alreadyOffered peerId now).contains piece with
  | some piece => (some piece, s.recordOffer piece peerId now)
  | none =>
    match ((s.candidates peerId now).insertionSort ByCount).head? with
    | some (piece, _) => (some piece, s.recordOffer piece peerId now)
    | none => (none, s)

def markRequested (piece : ℕ) (peerId : PeerId) : SuperSeedState :=
  let found := fun o : PieceOffer => o.piece = piece && o.peerId = peerId
  { s with offers := updateFirst found PieceOffer.markRequested s.offers }

def recordPeerHasPiece (piece : ℕ) : SuperSeedState :=
  { s with propagation := s.propagation.modify piece fun count => satAdd u32Max count 1 }

def cleanupExpired (now : ℕ) : ℕ × SuperSeedState :=
  let offers := s.offers.filter fun o => !o.isExpired now
  (s.offers.length - offers.length, { s with offers := offers })

end SuperSeedState

/-! ### Calls -/

inductive Call
  | registerPeer (peerId : PeerId)
  | selectPieceFor (peerId : PeerId) (now : ℕ)
  | markRequested (piece : ℕ) (peerId : PeerId)
  | recordPeerHasPiece (piece : ℕ)
  | removePeer (peerId : PeerId)
  | cleanupExpired (now : ℕ)
deriving DecidableEq, Repr

/-- A state with its past: the latest time and the answers so far. -/
structure Log where
  state : SuperSeedState
  now : ℕ
  answers : List (Option ℕ)
deriving DecidableEq, Repr

namespace Log

def start (pieceCount now : ℕ) : Log := ⟨.new pieceCount, now, []⟩

/-- A call; the times do not decrease. -/
def step (r : Log) : Call → Option Log
  | .registerPeer peerId => some { r with state := r.state.registerPeer peerId }
  | .selectPieceFor peerId now =>
    if now < r.now then none
    else
      let (answer, state) := r.state.selectPieceFor peerId now
      some ⟨state, now, r.answers ++ [answer]⟩
  | .markRequested piece peerId => some { r with state := r.state.markRequested piece peerId }
  | .recordPeerHasPiece piece => some { r with state := r.state.recordPeerHasPiece piece }
  | .removePeer peerId => some { r with state := r.state.removePeer peerId }
  | .cleanupExpired now =>
    if now < r.now then none
    else some { r with state := (r.state.cleanupExpired now).2, now := now }

end Log

/-! ### What is selected -/

namespace PieceOffer

variable {o : PieceOffer}

theorem isExpired_mono {now now' : ℕ} (h : now ≤ now') (hexp : o.isExpired now) : o.isExpired now' := by
  unfold isExpired at hexp ⊢
  rw [decide_eq_true_iff] at hexp ⊢
  omega

/-- The offer without the mark. -/
def unmarked (o : PieceOffer) : PieceOffer := { o with requested := false }

end PieceOffer

namespace SuperSeedState

variable {s : SuperSeedState} {peerId : PeerId} {now : ℕ}

theorem not_contains_iff {pieces : List ℕ} {i : ℕ} : (!pieces.contains i) = true ↔ i ∉ pieces := by
  rw [Bool.not_eq_true', ← Bool.not_eq_true, List.contains_iff_mem]

theorem mem_candidates {i count : ℕ} : (i, count) ∈ s.candidates peerId now ↔
    i < s.pieceCount ∧ i ∉ s.alreadyOffered peerId now ∧ s.propagation[i]? = some count := by
  unfold candidates
  rw [List.mem_filterMap]
  simp only [List.mem_filter, List.mem_range, Option.map_eq_some_iff, Prod.mk.injEq]
  constructor
  · rintro ⟨i', ⟨hi, hnot⟩, count', hcount, rfl, rfl⟩
    exact ⟨hi, not_contains_iff.mp hnot, hcount⟩
  · rintro ⟨hi, hnot, hcount⟩
    exact ⟨i, ⟨hi, not_contains_iff.mpr hnot⟩, count, hcount, rfl, rfl⟩

/-- The state when an answer has been given. -/
def afterAnswer (s : SuperSeedState) (peerId : PeerId) (now : ℕ) : Option ℕ → SuperSeedState
  | some piece => s.recordOffer piece peerId now
  | none => s

/-- What `select_piece_for` chooses. -/
inductive Chooses (s : SuperSeedState) (peerId : PeerId) (now : ℕ) : Option ℕ → Prop
  | fresh {piece : ℕ} (hfresh : s.offeredPieces[piece]? = some false) : Chooses s peerId now (some piece)
  | rarest {piece count : ℕ} (hall : ∀ i : ℕ, s.offeredPieces[i]? ≠ some false)
      (hmem : (piece, count) ∈ s.candidates peerId now)
      (hleast : ∀ c ∈ s.candidates peerId now, count ≤ c.2) : Chooses s peerId now (some piece)
  | nothing (hall : ∀ i : ℕ, s.offeredPieces[i]? ≠ some false)
      (hempty : s.candidates peerId now = []) : Chooses s peerId now none

/-- **The choice**, if no piece is offered to the peer that counts as never offered. -/
theorem chooses_select
    (hnew : ∀ i : ℕ, s.offeredPieces[i]? = some false → i ∉ s.alreadyOffered peerId now) :
    Chooses s peerId now (s.selectPieceFor peerId now).1 ∧
      (s.selectPieceFor peerId now).2 = s.afterAnswer peerId now (s.selectPieceFor peerId now).1 := by
  unfold selectPieceFor
  rcases hnever : s.neverOffered with _ | piece
  · have hall : ∀ i : ℕ, s.offeredPieces[i]? ≠ some false := by
      intro i hi
      have hno := List.findIdx?_eq_none_iff.mp hnever false (List.mem_of_getElem? hi)
      cases hno
    rw [Option.filter_none]
    dsimp only
    rcases hhead : ((s.candidates peerId now).insertionSort ByCount).head? with _ | ⟨piece, count⟩
    · exact ⟨.nothing hall (head?_insertionSort_eq_none_iff.mp hhead), rfl⟩
    · obtain ⟨hmem, hleast⟩ := rel_of_head?_insertionSort hhead
      exact ⟨.rarest hall hmem hleast, rfl⟩
  · obtain ⟨hlt, hflag, -⟩ := List.findIdx?_eq_some_iff_getElem.mp hnever
    have hfresh : s.offeredPieces[piece]? = some false := by
      rw [List.getElem?_eq_getElem hlt, Option.some.injEq, ← Bool.not_eq_true']
      exact hflag
    have hkept : (some piece).filter (fun piece => !(s.alreadyOffered peerId now).contains piece) =
        some piece := by
      rw [Option.filter_eq_some_iff]
      exact ⟨rfl, not_contains_iff.mpr (hnew piece hfresh)⟩
    rw [hkept]
    exact ⟨.fresh hfresh, rfl⟩

theorem mem_activeOffers {o : PieceOffer} : o ∈ s.activeOffers peerId now ↔
    o ∈ s.offers ∧ o.peerId = peerId ∧ ¬ o.isExpired now := by
  unfold activeOffers
  rw [List.mem_filter, Bool.and_eq_true, decide_eq_true_iff, Bool.not_eq_true', Bool.not_eq_true]

theorem mem_alreadyOffered {i : ℕ} : i ∈ s.alreadyOffered peerId now ↔
    ∃ o ∈ s.offers, o.peerId = peerId ∧ ¬ o.isExpired now ∧ o.piece = i := by
  unfold alreadyOffered
  rw [List.mem_map]
  constructor
  · rintro ⟨o, ho, rfl⟩
    obtain ⟨hmem, hpeer, hexp⟩ := mem_activeOffers.mp ho
    exact ⟨o, hmem, hpeer, hexp, rfl⟩
  · rintro ⟨o, ho, hpeer, hexp, rfl⟩
    exact ⟨o, mem_activeOffers.mpr ⟨ho, hpeer, hexp⟩, rfl⟩

theorem unmarked_markRequested (piece : ℕ) (peerId : PeerId) :
    (s.markRequested piece peerId).offers.map PieceOffer.unmarked = s.offers.map PieceOffer.unmarked :=
  map_updateFirst (f := PieceOffer.markRequested) fun _ _ => rfl

end SuperSeedState

/-! ### Runs -/

/-- Two offers of one piece to one peer: the earlier one is expired. -/
def Apart (now : ℕ) (a b : PieceOffer) : Prop :=
  a.peerId = b.peerId → a.piece = b.piece → a.isExpired now

/-- What every call preserves. -/
structure Inv (n : ℕ) (r : Log) : Prop where
  pieceCount : r.state.pieceCount = n
  length_propagation : r.state.propagation.length = n
  length_offeredPieces : r.state.offeredPieces.length = n
  offered : ∀ i, r.state.offeredPieces[i]? = some false ↔ i < n ∧ some i ∉ r.answers
  answered : ∀ i, some i ∈ r.answers → i < n
  offers : ∀ o ∈ r.state.offers, some o.piece ∈ r.answers ∧ o.offeredAt ≤ r.now
  apart : r.state.offers.Pairwise (Apart r.now)
  firstAnswers : ∃ l : List ℕ, r.answers.take n = l.map some ∧ l.Nodup

namespace Inv

variable {n : ℕ} {r r' : Log} {peerId : PeerId} {now : ℕ}

theorem start (n now : ℕ) : Inv n (Log.start n now) where
  pieceCount := rfl
  length_propagation := List.length_replicate
  length_offeredPieces := List.length_replicate
  offered i := by
    show (List.replicate n false)[i]? = some false ↔ i < n ∧ some i ∉ []
    rw [List.getElem?_replicate]
    by_cases hi : i < n
    · rw [if_pos hi]
      exact iff_of_true rfl ⟨hi, List.not_mem_nil⟩
    · rw [if_neg hi]
      exact iff_of_false (by simp) fun h => hi h.1
  answered i hi := absurd hi List.not_mem_nil
  offers o ho := absurd ho List.not_mem_nil
  apart := List.Pairwise.nil
  firstAnswers := ⟨[], by rw [Log.start, List.take_nil, List.map_nil], List.nodup_nil⟩

/-- **A call without an answer** leaves some of the offers and changes at most their marks. -/
theorem of_sublist (h : Inv n r) (hcount : r'.state.pieceCount = r.state.pieceCount)
    (hprop : r'.state.propagation.length = r.state.propagation.length)
    (hflags : r'.state.offeredPieces = r.state.offeredPieces) (hanswers : r'.answers = r.answers)
    (hnow : r.now ≤ r'.now)
    (hoffers : (r'.state.offers.map PieceOffer.unmarked).Sublist
      (r.state.offers.map PieceOffer.unmarked)) :
    Inv n r' where
  pieceCount := hcount.trans h.pieceCount
  length_propagation := hprop.trans h.length_propagation
  length_offeredPieces := by rw [hflags, h.length_offeredPieces]
  offered i := by rw [hflags, hanswers, h.offered]
  answered i hi := h.answered i (hanswers ▸ hi)
  offers o ho := by
    have hmem := hoffers.subset (List.mem_map_of_mem ho)
    obtain ⟨o', ho', heq⟩ := List.mem_map.mp hmem
    obtain ⟨hanswer, htime⟩ := h.offers o' ho'
    have hpiece : o'.unmarked.piece = o.unmarked.piece := by rw [heq]
    have hat : o'.unmarked.offeredAt = o.unmarked.offeredAt := by rw [heq]
    change o'.piece = o.piece at hpiece
    change o'.offeredAt = o.offeredAt at hat
    rw [hanswers, ← hpiece, ← hat]
    exact ⟨hanswer, htime.trans hnow⟩
  apart := by
    have hold : (r.state.offers.map PieceOffer.unmarked).Pairwise (Apart r'.now) :=
      List.pairwise_map.mpr (h.apart.imp fun hab hpeer hpiece =>
        PieceOffer.isExpired_mono hnow (hab hpeer hpiece))
    exact (List.pairwise_map (f := PieceOffer.unmarked) (R := Apart r'.now)).mp (hold.sublist hoffers)
  firstAnswers := hanswers ▸ h.firstAnswers

theorem not_mem_alreadyOffered (h : Inv n r) {i : ℕ} (hi : r.state.offeredPieces[i]? = some false) :
    i ∉ r.state.alreadyOffered peerId now := by
  intro hmem
  obtain ⟨o, ho, -, -, rfl⟩ := SuperSeedState.mem_alreadyOffered.mp hmem
  exact ((h.offered _).mp hi).2 (h.offers o ho).1

/-- While a piece has not been offered, there are fewer answers than pieces. -/
theorem le_length_answers (h : Inv n r) (hall : ∀ i < n, some i ∈ r.answers) : n ≤ r.answers.length := by
  by_contra! hlt
  obtain ⟨l, hl, -⟩ := h.firstAnswers
  rw [List.take_of_length_le hlt.le] at hl
  have hsub : List.range n ⊆ l := by
    intro i hi
    have hmem := hall i (List.mem_range.mp hi)
    rw [hl] at hmem
    exact (List.mem_map_of_injective (Option.some_injective ℕ)).mp hmem
  have hle := (List.subperm_of_subset List.nodup_range hsub).length_le
  rw [hl, List.length_map] at hlt
  rw [List.length_range] at hle
  omega

/-- The first answers, when one more has been given. -/
theorem firstAnswers_concat (h : Inv n r) {answer : Option ℕ}
    (hnew : r.answers.length < n → ∃ piece, answer = some piece ∧ some piece ∉ r.answers) :
    ∃ l : List ℕ, (r.answers ++ [answer]).take n = l.map some ∧ l.Nodup := by
  obtain ⟨l, hl, hnodup⟩ := h.firstAnswers
  by_cases hlt : r.answers.length < n
  · obtain ⟨piece, rfl, hnot⟩ := hnew hlt
    rw [List.take_of_length_le hlt.le] at hl
    have hle : (r.answers ++ [some piece]).length ≤ n := by
      rw [List.length_append, List.length_singleton]
      omega
    refine ⟨l ++ [piece], ?_, ?_⟩
    · rw [List.take_of_length_le hle, hl, List.map_append, List.map_singleton]
    · rw [List.nodup_append]
      refine ⟨hnodup, List.nodup_singleton _, ?_⟩
      rintro i hi j hj rfl
      rw [List.mem_singleton] at hj
      subst hj
      exact hnot (hl ▸ List.mem_map_of_mem hi)
  · rw [List.take_append_of_le_length (by omega)]
    exact ⟨l, hl, hnodup⟩

/-- **An answer** offers a piece that is not offered to the peer, or changes nothing. -/
theorem recordOffer (h : Inv n r) (hnow : r.now ≤ now) {piece : ℕ} (hlt : piece < n)
    (hnot : piece ∉ r.state.alreadyOffered peerId now)
    (hnew : r.answers.length < n → some piece ∉ r.answers) :
    Inv n ⟨r.state.recordOffer piece peerId now, now, r.answers ++ [some piece]⟩ where
  pieceCount := h.pieceCount
  length_propagation := h.length_propagation
  length_offeredPieces := by
    show (r.state.offeredPieces.set piece true).length = n
    rw [List.length_set, h.length_offeredPieces]
  offered i := by
    show (r.state.offeredPieces.set piece true)[i]? = some false ↔
      i < n ∧ some i ∉ r.answers ++ [some piece]
    rw [List.mem_append, List.mem_singleton, Option.some.injEq]
    by_cases hi : i = piece
    · subst hi
      rw [List.getElem?_set_self (by rw [h.length_offeredPieces]; exact hlt)]
      exact iff_of_false (by simp) fun hno => hno.2 (Or.inr rfl)
    · rw [List.getElem?_set_ne (Ne.symm hi), h.offered, not_or]
      exact ⟨fun hno => ⟨hno.1, hno.2, hi⟩, fun hno => ⟨hno.1, hno.2.1⟩⟩
  answered i hi := by
    rcases List.mem_append.mp hi with hi | hi
    · exact h.answered i hi
    · rw [List.mem_singleton, Option.some.injEq] at hi
      exact hi ▸ hlt
  offers o ho := by
    rcases List.mem_append.mp ho with ho | ho
    · obtain ⟨hanswer, htime⟩ := h.offers o ho
      exact ⟨List.mem_append_left _ hanswer, htime.trans hnow⟩
    · rw [List.mem_singleton] at ho
      subst ho
      exact ⟨List.mem_append_right _ (List.mem_singleton.mpr rfl), le_rfl⟩
  apart := by
    refine List.pairwise_append.mpr ⟨h.apart.imp fun hab hpeer hpiece =>
      PieceOffer.isExpired_mono hnow (hab hpeer hpiece), List.pairwise_singleton _ _, ?_⟩
    intro a ha b hb hpeer hpiece
    rw [List.mem_singleton] at hb
    subst hb
    by_contra hexp
    exact hnot (SuperSeedState.mem_alreadyOffered.mpr ⟨a, ha, hpeer, hexp, hpiece⟩)
  firstAnswers := h.firstAnswers_concat fun hlen => ⟨piece, rfl, hnew hlen⟩

/-- All pieces have been offered if no flag is clear. -/
theorem forall_mem_answers (h : Inv n r) (hall : ∀ i : ℕ, r.state.offeredPieces[i]? ≠ some false) :
    ∀ i < n, some i ∈ r.answers := by
  intro i hi
  by_contra hnot
  exact hall i ((h.offered i).mpr ⟨hi, hnot⟩)

/-- The candidates are the pieces that are not offered to the peer. -/
theorem exists_mem_candidates (h : Inv n r) {i : ℕ} (hi : i < n)
    (hnot : i ∉ r.state.alreadyOffered peerId now) :
    ∃ count, r.state.propagation[i]? = some count ∧ (i, count) ∈ r.state.candidates peerId now := by
  have hlt : i < r.state.propagation.length := by rw [h.length_propagation]; exact hi
  have hcount : r.state.propagation[i]? = some r.state.propagation[i] := List.getElem?_eq_getElem hlt
  exact ⟨_, hcount, SuperSeedState.mem_candidates.mpr ⟨h.pieceCount ▸ hi, hnot, hcount⟩⟩

theorem chooses (h : Inv n r) (peerId : PeerId) (now : ℕ) :
    r.state.Chooses peerId now (r.state.selectPieceFor peerId now).1 ∧
      (r.state.selectPieceFor peerId now).2 =
        r.state.afterAnswer peerId now (r.state.selectPieceFor peerId now).1 :=
  SuperSeedState.chooses_select fun _ hi => h.not_mem_alreadyOffered hi

theorem selectPieceFor (h : Inv n r) (hnow : r.now ≤ now) :
    Inv n ⟨(r.state.selectPieceFor peerId now).2, now,
      r.answers ++ [(r.state.selectPieceFor peerId now).1]⟩ := by
  obtain ⟨hchooses, hstate⟩ := h.chooses peerId now
  rw [hstate]
  generalize (r.state.selectPieceFor peerId now).1 = answer at hchooses ⊢
  cases hchooses with
  | fresh hfresh =>
    obtain ⟨hlt, hnot⟩ := (h.offered _).mp hfresh
    exact h.recordOffer hnow hlt (h.not_mem_alreadyOffered hfresh) fun _ => hnot
  | rarest hall hmem hleast =>
    obtain ⟨hlt, hnot, -⟩ := SuperSeedState.mem_candidates.mp hmem
    have hlen := h.le_length_answers (h.forall_mem_answers hall)
    exact h.recordOffer hnow (h.pieceCount ▸ hlt) hnot fun hshort => absurd hshort (by omega)
  | nothing hall hempty =>
    have hlen := h.le_length_answers (h.forall_mem_answers hall)
    exact {
      pieceCount := h.pieceCount
      length_propagation := h.length_propagation
      length_offeredPieces := h.length_offeredPieces
      offered := fun i => (h.offered i).trans (by simp)
      answered := fun i hi => h.answered i (by simpa using hi)
      offers := fun o ho => ⟨List.mem_append_left _ (h.offers o ho).1, (h.offers o ho).2.trans hnow⟩
      apart := h.apart.imp fun hab hpeer hpiece => PieceOffer.isExpired_mono hnow (hab hpeer hpiece)
      firstAnswers := h.firstAnswers_concat fun hshort => absurd hshort (by omega) }

/-- **Every call preserves the invariant.** -/
theorem step (r : Log) (call : Call) (r' : Log) (h : Inv n r) (hstep : r.step call = some r') :
    Inv n r' := by
  cases call with
  | registerPeer peerId =>
    obtain rfl := Option.some.inj hstep
    have hsame : ∃ peers, r.state.registerPeer peerId = { r.state with peers := peers } := by
      unfold SuperSeedState.registerPeer
      split_ifs
      · exact ⟨_, rfl⟩
      · exact ⟨_, rfl⟩
      · exact ⟨_, rfl⟩
    obtain ⟨peers, hpeers⟩ := hsame
    rw [hpeers]
    exact h.of_sublist rfl rfl rfl rfl le_rfl (List.Sublist.refl _)
  | selectPieceFor peerId now =>
    rw [Log.step] at hstep
    split_ifs at hstep with hnow
    obtain rfl := Option.some.inj hstep
    exact h.selectPieceFor (by omega)
  | markRequested piece peerId =>
    obtain rfl := Option.some.inj hstep
    refine h.of_sublist rfl rfl rfl rfl le_rfl ?_
    rw [SuperSeedState.unmarked_markRequested]
  | recordPeerHasPiece piece =>
    obtain rfl := Option.some.inj hstep
    exact h.of_sublist rfl (List.length_modify ..) rfl rfl le_rfl (List.Sublist.refl _)
  | removePeer peerId =>
    obtain rfl := Option.some.inj hstep
    exact h.of_sublist rfl rfl rfl rfl le_rfl (List.filter_sublist.map _)
  | cleanupExpired now =>
    rw [Log.step] at hstep
    split_ifs at hstep with hnow
    obtain rfl := Option.some.inj hstep
    exact h.of_sublist rfl rfl rfl rfl (by show r.now ≤ now; omega) (List.filter_sublist.map _)

/-- The active offers to a peer are of different pieces. -/
theorem nodup_alreadyOffered (h : Inv n r) (hnow : r.now ≤ now) :
    (r.state.alreadyOffered peerId now).Nodup := by
  unfold SuperSeedState.alreadyOffered List.Nodup
  rw [List.pairwise_map]
  refine (h.apart.sublist List.filter_sublist).imp_of_mem fun {a b} ha hb hab hpiece => ?_
  obtain ⟨-, hpeer, hexp⟩ := SuperSeedState.mem_activeOffers.mp ha
  obtain ⟨-, hpeer', -⟩ := SuperSeedState.mem_activeOffers.mp hb
  exact hexp (PieceOffer.isExpired_mono hnow (hab (hpeer.trans hpeer'.symm) hpiece))

/-- While a piece has not been offered, the answer is such a piece. -/
theorem answer_fresh (h : Inv n r) (peerId : PeerId) (now : ℕ) (hnew : ∃ i < n, some i ∉ r.answers) :
    ∃ i < n, some i ∉ r.answers ∧ (r.state.selectPieceFor peerId now).1 = some i := by
  obtain ⟨i, hi, hnot⟩ := hnew
  have hflag := (h.offered i).mpr ⟨hi, hnot⟩
  obtain ⟨hchooses, -⟩ := h.chooses peerId now
  generalize (r.state.selectPieceFor peerId now).1 = answer at hchooses ⊢
  cases hchooses with
  | fresh hfresh =>
    obtain ⟨hlt, hfirst⟩ := (h.offered _).mp hfresh
    exact ⟨_, hlt, hfirst, rfl⟩
  | rarest hall => exact absurd hflag (hall i)
  | nothing hall => exact absurd hflag (hall i)

/-- Then it is a piece of least propagation among those that are not offered to the peer. -/
theorem answer_rarest (h : Inv n r) (peerId : PeerId) (now : ℕ) (hanswers : ∀ i < n, some i ∈ r.answers)
    (piece : ℕ) (hpiece : (r.state.selectPieceFor peerId now).1 = some piece) :
    piece < n ∧ piece ∉ r.state.alreadyOffered peerId now ∧
      ∃ count, r.state.propagation[piece]? = some count ∧
        ∀ i < n, i ∉ r.state.alreadyOffered peerId now →
          ∃ count', r.state.propagation[i]? = some count' ∧ count ≤ count' := by
  obtain ⟨hchooses, -⟩ := h.chooses peerId now
  rw [hpiece] at hchooses
  cases hchooses with
  | fresh hfresh =>
    obtain ⟨hlt, hfirst⟩ := (h.offered _).mp hfresh
    exact absurd (hanswers _ hlt) hfirst
  | @rarest _ count _ hmem hleast =>
    obtain ⟨hlt, hnot, hcount⟩ := SuperSeedState.mem_candidates.mp hmem
    refine ⟨h.pieceCount ▸ hlt, hnot, count, hcount, fun i hi hactive => ?_⟩
    obtain ⟨count', hcount', hmem'⟩ := h.exists_mem_candidates hi hactive
    exact ⟨count', hcount', hleast _ hmem'⟩

theorem answer_eq_none_iff (h : Inv n r) (peerId : PeerId) (now : ℕ) :
    (r.state.selectPieceFor peerId now).1 = none ↔ ∀ i < n, i ∈ r.state.alreadyOffered peerId now := by
  obtain ⟨hchooses, -⟩ := h.chooses peerId now
  generalize (r.state.selectPieceFor peerId now).1 = answer at hchooses ⊢
  cases hchooses with
  | fresh hfresh =>
    have hnot : _ ∉ r.state.alreadyOffered peerId now := h.not_mem_alreadyOffered hfresh
    exact iff_of_false nofun fun hall => hnot (hall _ ((h.offered _).mp hfresh).1)
  | rarest _ hmem =>
    obtain ⟨hlt, hnot, -⟩ := SuperSeedState.mem_candidates.mp hmem
    exact iff_of_false nofun fun hall => hnot (hall _ (h.pieceCount ▸ hlt))
  | nothing _ hempty =>
    refine iff_of_true rfl fun i hi => ?_
    by_contra hnot
    obtain ⟨count, -, hmem⟩ := h.exists_mem_candidates hi hnot
    rw [hempty] at hmem
    exact absurd hmem List.not_mem_nil

end Inv

/-- **Super-seeding.** After every sequence of calls with non-decreasing times: the first `pieceCount`
answers are different pieces; while a piece has not been offered, the answer is such a piece; then it is a
piece of least propagation among those not actively offered to the peer; there is none exactly if all are;
and the active offers to one peer are of different pieces. -/
theorem superSeeding {pieceCount t : ℕ} {calls : List Call} {r : Log}
    (hrun : run Log.step (Log.start pieceCount t) calls = some r) :
    (∃ pieces : List ℕ, r.answers.take pieceCount = pieces.map some ∧ pieces.Nodup) ∧
      ∀ (peerId : PeerId) (now : ℕ), r.now ≤ now →
        ((∃ i < pieceCount, some i ∉ r.answers) →
          ∃ i < pieceCount, some i ∉ r.answers ∧ (r.state.selectPieceFor peerId now).1 = some i) ∧
        ((∀ i < pieceCount, some i ∈ r.answers) →
          ∀ piece, (r.state.selectPieceFor peerId now).1 = some piece →
            piece < pieceCount ∧ piece ∉ r.state.alreadyOffered peerId now ∧
              ∃ count, r.state.propagation[piece]? = some count ∧
                ∀ i < pieceCount, i ∉ r.state.alreadyOffered peerId now →
                  ∃ count', r.state.propagation[i]? = some count' ∧ count ≤ count') ∧
        ((r.state.selectPieceFor peerId now).1 = none ↔
          ∀ i < pieceCount, i ∈ r.state.alreadyOffered peerId now) ∧
        (r.state.alreadyOffered peerId now).Nodup := by
  have hinv : Inv pieceCount r := inv_run Inv.step (Inv.start pieceCount t) hrun
  exact ⟨hinv.firstAnswers, fun peerId now hnow => ⟨hinv.answer_fresh peerId now,
    hinv.answer_rarest peerId now, hinv.answer_eq_none_iff peerId now, hinv.nodup_alreadyOffered hnow⟩⟩

def peerA : PeerId := Vector.replicate 20 1

def peerB : PeerId := Vector.replicate 20 2

/-- Two pieces and two peers: each piece is offered once before the second peer is offered the other. -/
theorem superSeeding_two_pieces : ∃ r,
    run Log.step (Log.start 2 0) [.registerPeer peerA, .selectPieceFor peerA 0, .selectPieceFor peerB 1,
      .markRequested 0 peerA, .recordPeerHasPiece 0, .removePeer peerA, .cleanupExpired 2] = some r ∧
    r.answers = [some 0, some 1] ∧ (r.state.selectPieceFor peerB 2).1 = some 0 ∧
    (r.state.alreadyOffered peerB 2).Nodup := by
  have hrun : run Log.step (Log.start 2 0) [.registerPeer peerA, .selectPieceFor peerA 0,
      .selectPieceFor peerB 1, .markRequested 0 peerA, .recordPeerHasPiece 0, .removePeer peerA,
      .cleanupExpired 2] =
        some ⟨⟨2, [.new 1 peerB 1], [1, 0], [], [true, true]⟩, 2, [some 0, some 1]⟩ := by
    decide
  obtain ⟨-, hall⟩ := superSeeding hrun
  exact ⟨_, hrun, rfl, by decide, (hall peerB 2 (by decide)).2.2.2⟩

end CncContent.Torrent.SuperSeeding
