import Mathlib.Data.List.Basic
import Mathlib.Tactic.SplitIfs

/-! # The shared piece map

A cell for every piece. Each operation on one cell is atomic; `done_count` and `next_needed` read the
cells one after the other, so they are atomic only while no other thread runs. -/

namespace CncContent.Torrent.PieceMap

inductive PieceState
  | needed
  | inFlight
  | done
  | failed
deriving DecidableEq, Repr

structure SharedPieceMap where
  states : List PieceState
deriving DecidableEq, Repr

namespace SharedPieceMap

def new (pieceCount : ℕ) : SharedPieceMap := ⟨List.replicate pieceCount .needed⟩

def fromVerified (pieceCount : ℕ) (verifiedPieces : List Bool) : SharedPieceMap :=
  ⟨(List.range pieceCount).map fun i => if verifiedPieces[i]?.getD false then .done else .needed⟩

variable (m : SharedPieceMap)

def pieceCount : ℕ := m.states.length

/-- An index out of bounds reads as `needed`. -/
def get (index : ℕ) : PieceState := m.states[index]?.getD .needed

/-- A store; out of bounds it does nothing. -/
def store (index : ℕ) (state : PieceState) : SharedPieceMap := ⟨m.states.set index state⟩

def compareExchange (index : ℕ) (current new : PieceState) : Bool × SharedPieceMap :=
  if m.states[index]? = some current then (true, m.store index new) else (false, m)

def tryClaim (index : ℕ) : Bool × SharedPieceMap := m.compareExchange index .needed .inFlight

def markDone (index : ℕ) : SharedPieceMap := m.store index .done

def markFailed (index : ℕ) : SharedPieceMap := m.store index .failed

def retryFailed (index : ℕ) : Bool × SharedPieceMap := m.compareExchange index .failed .needed

def doneCount : ℕ := m.states.count .done

def isComplete : Bool := m.doneCount == m.pieceCount

variable {m}

theorem pieceCount_store (i : ℕ) (x : PieceState) : (m.store i x).pieceCount = m.pieceCount :=
  List.length_set

theorem get_store_self {i : ℕ} (hi : i < m.pieceCount) (x : PieceState) :
    (m.store i x).get i = x := by
  show (m.states.set i x)[i]?.getD .needed = x
  rw [List.getElem?_set_self hi]
  rfl

theorem get_store_ne {i j : ℕ} (h : j ≠ i) (x : PieceState) : (m.store i x).get j = m.get j := by
  show (m.states.set i x)[j]?.getD .needed = m.states[j]?.getD .needed
  rw [List.getElem?_set_ne (Ne.symm h)]

/-- A cell that is not `needed` is in bounds. -/
theorem lt_of_get_ne {i : ℕ} (h : m.get i ≠ .needed) : i < m.pieceCount := by
  by_contra hle
  refine h ?_
  unfold get
  rw [List.getElem?_eq_none (Nat.le_of_not_lt hle)]
  rfl

theorem getElem?_of_lt {i : ℕ} {x : PieceState} (hi : i < m.pieceCount) (h : m.get i = x) :
    m.states[i]? = some x := by
  unfold get at h
  rw [List.getElem?_eq_getElem hi] at h ⊢
  exact congrArg some h

theorem getElem?_of_get {i : ℕ} {x : PieceState} (h : m.get i = x) (hx : x ≠ .needed) :
    m.states[i]? = some x :=
  getElem?_of_lt (lt_of_get_ne (by rw [h]; exact hx)) h

/-- **A successful exchange** found the expected state in a cell of the map. -/
theorem compareExchange_true {i : ℕ} {x y : PieceState} (h : (m.compareExchange i x y).1 = true) :
    i < m.pieceCount ∧ m.get i = x ∧ (m.compareExchange i x y).2 = m.store i y := by
  unfold compareExchange at h ⊢
  by_cases hx : m.states[i]? = some x
  · rw [if_pos hx]
    obtain ⟨hlt, -⟩ := List.getElem?_eq_some_iff.mp hx
    refine ⟨hlt, ?_, rfl⟩
    unfold get
    rw [hx]
    rfl
  · rw [if_neg hx] at h
    cases h

theorem get_fromVerified {count i : ℕ} (hi : i < count) (verified : List Bool) :
    (fromVerified count verified).get i =
      if verified[i]?.getD false then .done else .needed := by
  unfold get fromVerified
  rw [List.getElem?_map, List.getElem?_range hi]
  rfl

theorem get_new (count i : ℕ) : (new count).get i = .needed := by
  unfold get new
  rw [List.getElem?_replicate]
  split_ifs <;> rfl

/-- **The map is complete** if every cell is `done`. -/
theorem isComplete_iff : m.isComplete = true ↔ ∀ i < m.pieceCount, m.get i = .done := by
  unfold isComplete doneCount pieceCount get
  rw [beq_iff_eq, List.count_eq_length]
  constructor
  · intro h i hi
    rw [List.getElem?_eq_getElem hi]
    exact (h _ (List.getElem_mem hi)).symm
  · intro h x hx
    obtain ⟨i, hi, rfl⟩ := List.mem_iff_getElem.mp hx
    have hget := h i hi
    rw [List.getElem?_eq_getElem hi] at hget
    exact hget.symm

/-! ### Scanning for pieces that are done -/

/-- The number of `done` cells before index `i`. -/
def doneBefore (m : SharedPieceMap) (i : ℕ) : ℕ := (List.range i).countP fun j => m.get j == .done

theorem doneBefore_succ (m : SharedPieceMap) (i : ℕ) :
    m.doneBefore (i + 1) = m.doneBefore i + if m.get i = .done then 1 else 0 := by
  unfold doneBefore
  rw [List.range_succ, List.countP_append, List.countP_singleton]
  simp only [beq_iff_eq]

theorem doneBefore_le (m : SharedPieceMap) (i : ℕ) : m.doneBefore i ≤ i :=
  Nat.le_trans List.countP_le_length (Nat.le_of_eq List.length_range)

theorem doneCount_eq (m : SharedPieceMap) : m.doneCount = m.doneBefore m.pieceCount := by
  have hmap : m.states = (List.range m.pieceCount).map m.get := by
    refine List.ext_getElem (by rw [List.length_map, List.length_range]; rfl) fun i hi _ => ?_
    rw [List.getElem_map, List.getElem_range]
    unfold get
    rw [List.getElem?_eq_getElem hi]
    rfl
  unfold doneCount doneBefore
  conv_lhs => rw [hmap, List.count_eq_countP, List.countP_map]
  rfl

theorem isComplete_iff_doneBefore : m.isComplete = true ↔ m.doneBefore m.pieceCount = m.pieceCount := by
  unfold isComplete
  rw [beq_iff_eq, doneCount_eq]

/-- No cell has left `done`. -/
structure DoneGrows (m m' : SharedPieceMap) : Prop where
  pieceCount : m'.pieceCount = m.pieceCount
  done : ∀ i, m.get i = .done → m'.get i = .done

theorem DoneGrows.refl (m : SharedPieceMap) : DoneGrows m m := ⟨rfl, fun _ h => h⟩

theorem DoneGrows.doneBefore_le {m' : SharedPieceMap} (h : DoneGrows m m') (i : ℕ) :
    m.doneBefore i ≤ m'.doneBefore i :=
  List.countP_mono_left fun j _ hj => beq_iff_eq.mpr (h.done j (beq_iff_eq.mp hj))

/-- A store keeps the `done` cells, unless it overwrites one with another state. -/
theorem doneGrows_store {i : ℕ} {x : PieceState} (h : m.get i ≠ .done ∨ x = .done) :
    DoneGrows m (m.store i x) := by
  refine ⟨pieceCount_store i x, fun j hj => ?_⟩
  by_cases hji : j = i
  · subst hji
    have hlt : j < m.pieceCount := lt_of_get_ne (by rw [hj]; decide)
    rcases h with hne | rfl
    · exact absurd hj hne
    · exact get_store_self hlt _
  · rw [get_store_ne hji]
    exact hj

end SharedPieceMap

end CncContent.Torrent.PieceMap
