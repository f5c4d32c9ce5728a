import CncContent.Lib.Bounded
import CncContent.Lib.Runs
import Mathlib.Data.List.Count

/-! # Quarantined pieces

The quarantine of `PieceValidator` of the source: the pieces that have failed their validation, with the
number of times they have been reported again since they came in. A piece whose number reaches
`maxRetries` is given up. The number leaves with the entry: a piece that comes back starts anew, and one
that keeps coming back is retried forever (`retried_forever`). The budget is kept in the runs in which
no piece comes back (`kept_of_settled`). -/

namespace CncContent.Torrent.Quarantine

open CncContent.Lib.Bounded CncContent.Lib.Runs

def defaultMaxRetries : UInt32 := 3

structure QuarantineEntry where
  pieceIndex : ℕ
  sourcePeer : ℕ
  retryCount : ℕ
  corruptLeaves : List ℕ
deriving DecidableEq, Repr

inductive RetryDecision
  | retry (pieceIndex avoidPeer : ℕ) (corruptLeaves : List ℕ)
  | permanentFailure (pieceIndex : ℕ)
deriving DecidableEq, Repr

structure PieceValidator where
  maxRetries : UInt32
  quarantined : List QuarantineEntry
  permanentFailures : List ℕ
deriving DecidableEq, Repr

namespace PieceValidator

def new (maxRetries : UInt32) : PieceValidator := ⟨maxRetries, [], []⟩

def withDefaults : PieceValidator := new defaultMaxRetries

/-- The first entry of the piece is updated; without one a new entry is pushed. -/
def report (pieceIndex sourcePeer : ℕ) (corruptLeaves : List ℕ) :
    List QuarantineEntry → List QuarantineEntry
  | [] => [⟨pieceIndex, sourcePeer, 0, corruptLeaves⟩]
  | e :: es =>
    if e.pieceIndex = pieceIndex then
      { e with
        retryCount := satAdd u32Max e.retryCount 1
        sourcePeer := sourcePeer
        corruptLeaves := corruptLeaves } :: es
    else e :: report pieceIndex sourcePeer corruptLeaves es

variable (v : PieceValidator)

def quarantine (pieceIndex sourcePeer : ℕ) (corruptLeaves : List ℕ) : PieceValidator :=
  { v with quarantined := report pieceIndex sourcePeer corruptLeaves v.quarantined }

def nextRetry : Option RetryDecision × PieceValidator :=
  match v.quarantined with
  | [] => (none, v)
  | e :: es =>
    if v.maxRetries.toNat ≤ e.retryCount then
      (some (.permanentFailure e.pieceIndex), { v with
        quarantined := es
        permanentFailures := v.permanentFailures ++ [e.pieceIndex] })
    else (some (.retry e.pieceIndex e.sourcePeer e.corruptLeaves), { v with quarantined := es })

end PieceValidator

/-! ### Runs -/

inductive Call
  | quarantine (pieceIndex sourcePeer : ℕ) (corruptLeaves : List ℕ)
  | nextRetry
deriving DecidableEq, Repr

/-- A validator, the pieces reported to it so far, and the decisions it has returned. -/
structure Watched where
  validator : PieceValidator
  reported : List ℕ
  decided : List RetryDecision
deriving DecidableEq, Repr

def Watched.start (maxRetries : UInt32) : Watched := ⟨.new maxRetries, [], []⟩

/-- Every call is possible. -/
def step (w : Watched) : Call → Option Watched
  | .quarantine pieceIndex sourcePeer corruptLeaves => some { w with
      validator := w.validator.quarantine pieceIndex sourcePeer corruptLeaves
      reported := w.reported ++ [pieceIndex] }
  | .nextRetry => some { w with
      validator := w.validator.nextRetry.2
      decided := w.decided ++ w.validator.nextRetry.1.toList }

/-- The piece that is decided on, and whether it is retried. -/
def RetryDecision.outcome : RetryDecision → ℕ × Bool
  | .retry pieceIndex _ _ => (pieceIndex, true)
  | .permanentFailure pieceIndex => (pieceIndex, false)

/-- How often the piece is retried. -/
def retries (pieceIndex : ℕ) (ds : List RetryDecision) : ℕ :=
  (ds.map RetryDecision.outcome).count (pieceIndex, true)

/-- The pieces in quarantine. -/
def PieceValidator.pieces (v : PieceValidator) : List ℕ :=
  v.quarantined.map QuarantineEntry.pieceIndex

/-- **The retry budget**: no piece is retried more than `maxRetries` times, and the next piece is given
up if it has been reported more often than that. -/
structure Kept (maxRetries : UInt32) (w : Watched) : Prop where
  retries_le : ∀ pieceIndex, retries pieceIndex w.decided ≤ maxRetries.toNat
  gives_up : ∀ pieceIndex, w.validator.pieces.head? = some pieceIndex →
    maxRetries.toNat < w.reported.count pieceIndex →
      w.validator.nextRetry.1 = some (.permanentFailure pieceIndex)

/-- A piece is reported again only while it is in quarantine: none comes back. -/
def Settled (w : Watched) : Call → Prop
  | .quarantine pieceIndex _ _ => pieceIndex ∈ w.reported → pieceIndex ∈ w.validator.pieces
  | .nextRetry => True

instance : ∀ (w : Watched) (call : Call), Decidable (Settled w call)
  | w, .quarantine pieceIndex _ _ =>
    inferInstanceAs (Decidable (pieceIndex ∈ w.reported → pieceIndex ∈ w.validator.pieces))
  | _, .nextRetry => isTrue trivial

/-! ### The entries count the reports -/

/-- The entry counts the reports of its piece but the first. -/
def Counts (reported : List ℕ) (e : QuarantineEntry) : Prop :=
  1 ≤ reported.count e.pieceIndex ∧
    e.retryCount = min (reported.count e.pieceIndex - 1) u32Max

theorem mem_pieces_report {pieceIndex sourcePeer q : ℕ} {corruptLeaves : List ℕ}
    {es : List QuarantineEntry} :
    q ∈ (PieceValidator.report pieceIndex sourcePeer corruptLeaves es).map QuarantineEntry.pieceIndex ↔
      q = pieceIndex ∨ q ∈ es.map QuarantineEntry.pieceIndex := by
  induction es with
  | nil => simp [PieceValidator.report]
  | cons e es ih =>
    unfold PieceValidator.report
    split_ifs with hp
    · simp [hp]
    · rw [List.map_cons, List.mem_cons, ih, List.map_cons, List.mem_cons]
      exact or_left_comm

theorem nodup_report {pieceIndex sourcePeer : ℕ} {corruptLeaves : List ℕ} {es : List QuarantineEntry}
    (h : (es.map QuarantineEntry.pieceIndex).Nodup) :
    ((PieceValidator.report pieceIndex sourcePeer corruptLeaves es).map
      QuarantineEntry.pieceIndex).Nodup := by
  induction es with
  | nil => exact List.nodup_cons.mpr ⟨List.not_mem_nil, List.nodup_nil⟩
  | cons e es ih =>
    obtain ⟨hnot, hnodup⟩ := List.nodup_cons.mp h
    unfold PieceValidator.report
    split_ifs with hp
    · exact h
    · refine List.nodup_cons.mpr ⟨fun hmem => ?_, ih hnodup⟩
      rcases mem_pieces_report.mp hmem with heq | hin
      · exact hp heq
      · exact hnot hin

/-- The other pieces are not reported. -/
theorem Counts.skip {reported : List ℕ} {e : QuarantineEntry} (h : Counts reported e) {pieceIndex : ℕ}
    (hne : e.pieceIndex ≠ pieceIndex) : Counts (reported ++ [pieceIndex]) e := by
  have hcount : (reported ++ [pieceIndex]).count e.pieceIndex = reported.count e.pieceIndex := by
    rw [List.count_append, List.count_singleton, if_neg (by simpa using hne.symm), Nat.add_zero]
  unfold Counts
  rw [hcount]
  exact h

/-- **A report is counted**, by a new entry only if it is the first one. -/
theorem counts_report {reported : List ℕ} {pieceIndex sourcePeer : ℕ} {corruptLeaves : List ℕ}
    {es : List QuarantineEntry} (hnodup : (es.map QuarantineEntry.pieceIndex).Nodup)
    (h : ∀ e ∈ es, Counts reported e)
    (hsettled : pieceIndex ∈ reported → pieceIndex ∈ es.map QuarantineEntry.pieceIndex) :
    ∀ e ∈ PieceValidator.report pieceIndex sourcePeer corruptLeaves es,
      Counts (reported ++ [pieceIndex]) e := by
  have hcount : (reported ++ [pieceIndex]).count pieceIndex = reported.count pieceIndex + 1 := by
    rw [List.count_append, List.count_singleton_self]
  induction es with
  | nil =>
    have hnew : pieceIndex ∉ reported := fun hmem => List.not_mem_nil (hsettled hmem)
    intro e he
    rw [List.mem_singleton.mp he, Counts]
    dsimp only
    rw [hcount, List.count_eq_zero_of_not_mem hnew]
    exact ⟨Nat.le_refl 1, rfl⟩
  | cons e es ih =>
    obtain ⟨hnot, hnodup⟩ := List.nodup_cons.mp hnodup
    obtain ⟨hpos, hretry⟩ := h e List.mem_cons_self
    unfold PieceValidator.report
    split_ifs with hp
    · -- the entry of the piece; the others are of other pieces
      subst hp
      refine List.forall_mem_cons.mpr ⟨?_, fun e' he' => ?_⟩
      · have hlast : reported.count e.pieceIndex - 1 + 1 = reported.count e.pieceIndex :=
          Nat.sub_add_cancel hpos
        unfold Counts
        dsimp only
        rw [hcount, hretry, satAdd_min, hlast]
        exact ⟨Nat.le_add_left 1 _, rfl⟩
      · refine (h e' (List.mem_cons_of_mem e he')).skip fun heq => hnot ?_
        exact heq ▸ List.mem_map_of_mem he'
    · refine List.forall_mem_cons.mpr ⟨(h e List.mem_cons_self).skip hp, ?_⟩
      refine ih hnodup (fun e' he' => h e' (List.mem_cons_of_mem e he')) fun hmem => ?_
      exact (List.mem_cons.mp (hsettled hmem)).resolve_left (Ne.symm hp)

/-- A count that stops at the largest value still tells which budgets are used up. -/
theorem budget_iff (maxRetries : UInt32) {reported : List ℕ} {e : QuarantineEntry}
    (h : Counts reported e) :
    maxRetries.toNat ≤ e.retryCount ↔ maxRetries.toNat < reported.count e.pieceIndex := by
  obtain ⟨hpos, hcount⟩ := h
  have hmax : maxRetries.toNat ≤ u32Max := Nat.le_of_lt_succ maxRetries.toNat_lt
  omega

/-! ### The invariant -/

/-- The entries count the reports, and only reported pieces that have left have been decided on. -/
structure Inv (maxRetries : UInt32) (w : Watched) : Prop where
  budget : w.validator.maxRetries = maxRetries
  nodup : w.validator.pieces.Nodup
  counts : ∀ e ∈ w.validator.quarantined, Counts w.reported e
  left : ∀ d ∈ w.decided, d.outcome.1 ∈ w.reported ∧ d.outcome.1 ∉ w.validator.pieces
  retries_le : ∀ pieceIndex, retries pieceIndex w.decided ≤ maxRetries.toNat

theorem Inv.start (maxRetries : UInt32) : Inv maxRetries (.start maxRetries) where
  budget := rfl
  nodup := List.nodup_nil
  counts := nofun
  left := nofun
  retries_le := fun _ => Nat.zero_le _

variable {maxRetries : UInt32} {w : Watched}

/-- One more decision. -/
theorem retries_concat (pieceIndex : ℕ) (ds : List RetryDecision) (d : RetryDecision) :
    retries pieceIndex (ds ++ [d]) =
      retries pieceIndex ds + if d.outcome = (pieceIndex, true) then 1 else 0 := by
  unfold retries
  rw [List.map_append, List.count_append, List.map_singleton, List.count_singleton]
  simp only [beq_iff_eq]

/-- A piece in quarantine has not been decided on. -/
theorem Inv.retries_eq_zero (h : Inv maxRetries w) {pieceIndex : ℕ}
    (hin : pieceIndex ∈ w.validator.pieces) : retries pieceIndex w.decided = 0 := by
  refine List.count_eq_zero_of_not_mem fun hmem => ?_
  obtain ⟨d, hd, hout⟩ := List.mem_map.mp hmem
  have hleft := (h.left d hd).2
  rw [hout] at hleft
  exact hleft hin

theorem Inv.quarantine (h : Inv maxRetries w) {pieceIndex : ℕ} (sourcePeer : ℕ)
    (corruptLeaves : List ℕ) (hsettled : pieceIndex ∈ w.reported → pieceIndex ∈ w.validator.pieces) :
    Inv maxRetries { w with
      validator := w.validator.quarantine pieceIndex sourcePeer corruptLeaves
      reported := w.reported ++ [pieceIndex] } where
  budget := h.budget
  nodup := nodup_report h.nodup
  counts := counts_report h.nodup h.counts hsettled
  left := by
    intro d hd
    obtain ⟨hrep, hout⟩ := h.left d hd
    refine ⟨List.mem_append_left _ hrep, fun hmem => ?_⟩
    rcases mem_pieces_report.mp hmem with heq | hin
    · exact hout (heq ▸ hsettled (heq ▸ hrep))
    · exact hout hin
  retries_le := h.retries_le

/-- The head of the quarantine is decided on by the number of its reports. -/
theorem Inv.nextRetry_cons (h : Inv maxRetries w) {e : QuarantineEntry} {es : List QuarantineEntry}
    (hq : w.validator.quarantined = e :: es) :
    ∃ d, w.validator.nextRetry.1 = some d ∧ w.validator.nextRetry.2.quarantined = es ∧
      w.validator.nextRetry.2.maxRetries = maxRetries ∧
      d.outcome = (e.pieceIndex, decide (w.reported.count e.pieceIndex ≤ maxRetries.toNat)) := by
  have hbudget := budget_iff maxRetries (h.counts e (hq ▸ List.mem_cons_self))
  unfold PieceValidator.nextRetry
  rw [hq, h.budget]
  dsimp only
  by_cases hspent : maxRetries.toNat ≤ e.retryCount
  · rw [if_pos hspent, decide_eq_false (Nat.not_le_of_lt (hbudget.mp hspent))]
    exact ⟨_, rfl, rfl, rfl, rfl⟩
  · rw [if_neg hspent, decide_eq_true (Nat.le_of_not_lt fun hlt => hspent (hbudget.mpr hlt))]
    exact ⟨_, rfl, rfl, rfl, rfl⟩

theorem Inv.nextRetry (h : Inv maxRetries w) : Inv maxRetries { w with
    validator := w.validator.nextRetry.2
    decided := w.decided ++ w.validator.nextRetry.1.toList } := by
  rcases hq : w.validator.quarantined with _ | ⟨e, es⟩
  · have hnone : w.validator.nextRetry = (none, w.validator) := by
      unfold PieceValidator.nextRetry
      rw [hq]
    rw [hnone]
    dsimp only [Option.toList]
    rw [List.append_nil]
    exact h
  · obtain ⟨d, hd, hes, hmax, hout⟩ := h.nextRetry_cons hq
    have hpieces : w.validator.pieces = e.pieceIndex :: es.map QuarantineEntry.pieceIndex := by
      rw [PieceValidator.pieces, hq, List.map_cons]
    have hpieces' : w.validator.nextRetry.2.pieces = es.map QuarantineEntry.pieceIndex := by
      rw [PieceValidator.pieces, hes]
    obtain ⟨hnot, hnodup⟩ := List.nodup_cons.mp (hpieces ▸ h.nodup)
    have hcounts := h.counts e (hq ▸ List.mem_cons_self)
    refine ⟨hmax, hpieces' ▸ hnodup, ?_, ?_, ?_⟩
    · intro e' he'
      rw [hes] at he'
      exact h.counts e' (hq ▸ List.mem_cons_of_mem e he')
    · intro d' hd'
      rw [hd, Option.toList, List.mem_append, List.mem_singleton] at hd'
      rw [hpieces']
      rcases hd' with hold | rfl
      · obtain ⟨hrep, hleft⟩ := h.left d' hold
        refine ⟨hrep, fun hmem => hleft ?_⟩
        rw [hpieces]
        exact List.mem_cons_of_mem _ hmem
      · rw [hout]
        exact ⟨List.count_pos_iff.mp hcounts.1, hnot⟩
    · intro pieceIndex
      rw [hd, Option.toList, retries_concat]
      split_ifs with heq
      · -- the first decision on the piece, and one within the budget
        obtain ⟨rfl, hearly⟩ := Prod.mk.inj (hout.symm.trans heq)
        rw [h.retries_eq_zero (hpieces ▸ List.mem_cons_self), Nat.zero_add]
        exact Nat.le_trans hcounts.1 (of_decide_eq_true hearly)
      · exact h.retries_le pieceIndex

theorem Inv.kept (h : Inv maxRetries w) : Kept maxRetries w where
  retries_le := h.retries_le
  gives_up := by
    intro pieceIndex hhead hlt
    rw [PieceValidator.pieces, List.head?_map, Option.map_eq_some_iff] at hhead
    obtain ⟨e, he, rfl⟩ := hhead
    obtain ⟨es, hq⟩ := List.head?_eq_some_iff.mp he
    obtain ⟨d, hd, -, -, hout⟩ := h.nextRetry_cons hq
    rw [decide_eq_false (Nat.not_le_of_lt hlt)] at hout
    cases d with
    | retry p avoid leaves => cases congrArg Prod.snd hout
    | permanentFailure p =>
      obtain rfl : p = e.pieceIndex := congrArg Prod.fst hout
      exact hd

/-- **The budget holds in every state** of the runs in which no piece comes back. -/
theorem kept_of_settled (maxRetries : UInt32) (calls : List Call)
    (h : Meets step Settled (.start maxRetries) calls) :
    Always step (Kept maxRetries) (.start maxRetries) calls := by
  refine (always_of_meets ?_ (Inv.start maxRetries) h).mono fun _ => Inv.kept
  rintro w call w' hinv hsettled hstep
  cases call with
  | quarantine pieceIndex sourcePeer corruptLeaves =>
    cases hstep
    exact hinv.quarantine sourcePeer corruptLeaves hsettled
  | nextRetry =>
    cases hstep
    exact hinv.nextRetry

/-- Two pieces, one of which fails more often than its budget allows. -/
theorem kept_of_settled_two : Always step (Kept 1) (.start 1)
    [.quarantine 7 0 [2], .quarantine 4 1 [], .quarantine 7 3 [], .nextRetry, .nextRetry] :=
  kept_of_settled 1 _ (by decide)

/-! ### A piece that keeps coming back -/

/-- A piece that fails whenever it is fetched again. -/
def failing (pieceIndex : ℕ) : ℕ → List Call
  | 0 => []
  | n + 1 => .quarantine pieceIndex 0 [] :: .nextRetry :: failing pieceIndex n

/-- **A piece that keeps failing** is retried every time, for every budget but none at all. -/
theorem retried_forever {maxRetries : UInt32} (hretries : 0 < maxRetries.toNat) (pieceIndex n : ℕ)
    (reported : List ℕ) (decided : List RetryDecision) :
    run step ⟨.new maxRetries, reported, decided⟩ (failing pieceIndex n) =
      some ⟨.new maxRetries, reported ++ List.replicate n pieceIndex,
        decided ++ List.replicate n (.retry pieceIndex 0 [])⟩ := by
  -- a new entry comes and goes, and nothing is left of it
  have hcycle : ((PieceValidator.new maxRetries).quarantine pieceIndex 0 []).nextRetry =
      (some (.retry pieceIndex 0 []), .new maxRetries) := if_neg (Nat.not_le_of_lt hretries)
  induction n generalizing reported decided with
  | zero => rw [failing, run, List.replicate_zero, List.replicate_zero, List.append_nil, List.append_nil]
  | succ n ih =>
    rw [failing, run, step]
    dsimp only
    rw [run, step]
    dsimp only
    rw [hcycle]
    dsimp only [Option.toList]
    rw [ih, List.append_assoc, List.append_assoc]
    rfl

theorem second_retry : ¬ Always step (Kept 1) (.start 1)
    [.quarantine 0 0 [], .nextRetry, .quarantine 0 0 [], .nextRetry] := by
  intro h
  have hretries := (h.last rfl).retries_le 0
  revert hretries
  decide

end CncContent.Torrent.Quarantine
