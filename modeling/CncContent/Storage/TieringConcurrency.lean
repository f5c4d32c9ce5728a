import CncContent.Lib.Runs
import CncContent.Lib.Slots
import CncContent.Storage.Tiering

/-! # Tiered storage under concurrent calls

Any number of calls run at the same time on backends that do not fail; every call of a backend and every
section under the lock is one step. The storage stands beside a flat store that takes every write when it
reaches the hot tier. A read has to return the bytes of the flat store, except where a write has been going
on during the read.

A demotion and a promotion copy bytes in one step and put them into effect in later ones. `Fresh` is what
these later steps would have to check: that the copy still is what the hot tier holds. In a run whose steps
are all fresh no write is lost (`fresh_sound`). -/

namespace CncContent.Storage.TieringConcurrency

open CncContent.Lib.Bounded CncContent.Lib.Maps CncContent.Lib.Overlay CncContent.Lib.Runs
open CncContent.Lib.Slots CncContent.Storage.Backend
open CncContent.Storage.Tiering CncContent.Storage.Tiering.TieringStorage

/-! ### The system -/

/-- The next step of a call of `demote`, with the bytes that it holds. -/
inductive DemotePhase
  | lookup
  | readHot
  | writeCold (data : List UInt8)
  | setCold
deriving DecidableEq, Repr

/-- The next step of a call of `read_piece`, with the piece and the bytes that it holds. -/
inductive ReadPhase
  | lookup
  | readHot
  | readCold (pieceIndex : ℕ)
  | promote (pieceIndex : ℕ) (data : List UInt8)
  | setHot (pieceIndex : ℕ) (data : List UInt8)
  | recordAccess (data : List UInt8)
deriving DecidableEq, Repr

/-- The next step of a call of `write_piece`. -/
inductive WritePhase
  | writeHot
  | setHot
deriving DecidableEq, Repr

/-- A call that is going on. With a read goes the set of the positions that a write has been going on for
since the read began. -/
inductive Call
  | demote (pieceIndex : ℕ) (phase : DemotePhase)
  | read (offset len : ℕ) (dirty : ℕ → Prop) (phase : ReadPhase)
  | write (pieceIndex offset : ℕ) (data : List UInt8) (phase : WritePhase)

/-- A read that has returned, with the set of its dirty positions. -/
structure Returned where
  offset : ℕ
  len : ℕ
  dirty : ℕ → Prop
  data : List UInt8

structure System where
  storage : TieringStorage
  calls : ℕ → Option Call
  flat : ℕ → UInt8
  last : Option Returned

/-- A call begins under a free number, or goes on. -/
inductive Action
  | demote (k pieceIndex : ℕ)
  | read (k offset len : ℕ)
  | write (k pieceIndex offset : ℕ) (data : List UInt8)
  | advance (k : ℕ)

namespace Call

/-- The position is in the range of a write. -/
def Covers : Call → ℕ → Prop
  | .write _ offset data _, x => Within offset data.length x
  | .demote .., _ => False
  | .read .., _ => False

/-- The position is in the range of a write that has not reached the hot tier. -/
def Pends : Call → ℕ → Prop
  | .write _ offset data .writeHot, x => Within offset data.length x
  | .write _ _ _ .setHot, _ => False
  | .demote .., _ => False
  | .read .., _ => False

/-- A write to the range begins. -/
def touch (offset len : ℕ) : Call → Call
  | .read off n dirty phase => .read off n (fun x => Within offset len x ∨ dirty x) phase
  | .demote i phase => .demote i phase
  | .write i off data phase => .write i off data phase

end Call

namespace System

/-- Two backends as they are found. -/
def start (pieceLength size : ℕ) (hot cold : ℕ → UInt8) : System :=
  ⟨⟨hot, cold, pieceLength, size, .empty⟩, fun _ => none, hot, none⟩

variable (s : System)

/-- A write to the position is going on. -/
def Busy (x : ℕ) : Prop := Any (fun c => c.Covers x) s.calls

/-- A write to the position has yet to reach the hot tier. -/
def Pending (x : ℕ) : Prop := Any (fun c => c.Pends x) s.calls

/-- The call goes on from the given point, or ends. -/
def goTo (k : ℕ) (call : Option Call) : System :=
  { s with calls := Function.update s.calls k call, last := none }

def withStorage (storage : TieringStorage) : System := { s with storage := storage }

def advanceDemote (k pieceIndex : ℕ) : DemotePhase → System
  | .lookup =>
    if s.storage.tierOf pieceIndex = some .cold then s.goTo k none
    else s.goTo k (some (.demote pieceIndex .readHot))
  | .readHot =>
    if isizeMax < s.storage.pieceLength then s.goTo k none
    else
      let data := s.storage.readHot (s.storage.pieceOffset pieceIndex) s.storage.pieceLength
      s.goTo k (some (.demote pieceIndex (.writeCold data)))
  | .writeCold data =>
    (s.withStorage (s.storage.writeCold (s.storage.pieceOffset pieceIndex) data)).goTo k
      (some (.demote pieceIndex .setCold))
  | .setCold => (s.withStorage (s.storage.setTier pieceIndex .cold)).goTo k none

def advanceRead (k offset len : ℕ) (dirty : ℕ → Prop) : ReadPhase → System
  | .lookup =>
    match s.storage.offsetToPiece offset with
    | .error _ => s.goTo k none
    | .ok pieceIndex =>
      match s.storage.tierOf pieceIndex with
      | some .cold => s.goTo k (some (.read offset len dirty (.readCold pieceIndex)))
      | some .hot | none => s.goTo k (some (.read offset len dirty .readHot))
  | .readHot =>
    s.goTo k (some (.read offset len dirty (.recordAccess (s.storage.readHot offset len))))
  | .readCold pieceIndex =>
    s.goTo k (some (.read offset len dirty (.promote pieceIndex (s.storage.readCold offset len))))
  | .promote pieceIndex data =>
    (s.withStorage (s.storage.writeHot offset data)).goTo k
      (some (.read offset len dirty (.setHot pieceIndex data)))
  | .setHot pieceIndex data =>
    (s.withStorage (s.storage.setTier pieceIndex .hot)).goTo k
      (some (.read offset len dirty (.recordAccess data)))
  | .recordAccess data => { s.goTo k none with last := some ⟨offset, len, dirty, data⟩ }

def advanceWrite (k pieceIndex offset : ℕ) (data : List UInt8) : WritePhase → System
  | .writeHot =>
    { (s.withStorage (s.storage.writeHot offset data)).goTo k
        (some (.write pieceIndex offset data .setHot)) with
      flat := overlay s.flat offset data }
  | .setHot => (s.withStorage (s.storage.setTier pieceIndex .hot)).goTo k none

def advance (k : ℕ) : Call → System
  | .demote pieceIndex phase => s.advanceDemote k pieceIndex phase
  | .read offset len dirty phase => s.advanceRead k offset len dirty phase
  | .write pieceIndex offset data phase => s.advanceWrite k pieceIndex offset data phase

/-- A write begins: the reads that are going on get dirty. -/
def beginWrite (k pieceIndex offset : ℕ) (data : List UInt8) : System :=
  { s with
    calls := Function.update (fun j => (s.calls j).map (Call.touch offset data.length)) k
      (some (.write pieceIndex offset data .writeHot))
    last := none }

/-- Every read and write stays inside one piece. -/
def step : Action → Option System
  | .demote k pieceIndex =>
    if (s.calls k).isNone then some (s.goTo k (some (.demote pieceIndex .lookup))) else none
  | .read k offset len =>
    if (s.calls k).isNone ∧ s.storage.RangeIn (offset / s.storage.pieceLength) offset len then
      some (s.goTo k (some (.read offset len s.Busy .lookup)))
    else none
  | .write k pieceIndex offset data =>
    if (s.calls k).isNone ∧ s.storage.RangeIn pieceIndex offset data.length then
      some (s.beginWrite k pieceIndex offset data)
    else none
  | .advance k => (s.calls k).map (s.advance k)

/-- The bytes are those of the flat store, where the read is not dirty. -/
def Holds (offset len : ℕ) (dirty : ℕ → Prop) (data : List UInt8) : Prop :=
  data.length = len ∧ ∀ x, Within offset len x → ¬ dirty x → data[x - offset]? = some (s.flat x)

/-- The read that has just returned is right. -/
def Sound : Prop :=
  match s.last with
  | none => True
  | some r => s.Holds r.offset r.len r.dirty r.data

/-! ### Fresh copies -/

/-- A promotion puts into the hot tier what is there, except where a write will put its own bytes; a
demotion puts into the cold tier what is in the hot one, and makes the piece cold while this holds, except
where a write is going on, which will make the piece hot. -/
def FreshCall : Call → Prop
  | .read offset _ _ (.promote _ data) => ∀ x, Within offset data.length x → ¬ s.Pending x →
    data[x - offset]? = some (s.storage.hot x)
  | .demote pieceIndex (.writeCold data) =>
    ∀ x, Within (s.storage.pieceOffset pieceIndex) data.length x → ¬ s.Busy x →
      data[x - s.storage.pieceOffset pieceIndex]? = some (s.storage.hot x)
  | .demote pieceIndex .setCold => ∀ x, s.storage.InPiece pieceIndex x → x < s.storage.size →
    ¬ s.Busy x → s.storage.cold x = s.storage.hot x
  | _ => True

/-- **The step is fresh**: the copy that it puts into effect is what the hot tier holds. -/
def Fresh : Action → Prop
  | .advance k => ∀ c ∈ s.calls k, s.FreshCall c
  | .demote .. | .read .. | .write .. => True

end System

/-! ### Invariant -/

/-- What a read call knows. -/
def ReadInv (s : System) (offset len : ℕ) (dirty : ℕ → Prop) : ReadPhase → Prop
  | .lookup => True
  | .readHot => True
  | .readCold _ => ∀ x, Within offset len x → ¬ dirty x → s.storage.cold x = s.flat x
  | .promote _ data => s.Holds offset len dirty data
  | .setHot _ data => s.Holds offset len dirty data
  | .recordAccess data => s.Holds offset len dirty data

/-- A position that a write is going on for is dirty in every read. -/
def CallInv (s : System) : Call → Prop
  | .demote .. => True
  | .read offset len dirty phase => s.storage.RangeIn (offset / s.storage.pieceLength) offset len ∧
      (∀ x, s.Busy x → dirty x) ∧ ReadInv s offset len dirty phase
  | .write pieceIndex offset data _ => s.storage.RangeIn pieceIndex offset data.length

/-- The hot tier holds the bytes of the flat store except for the pending writes, and so does the cold tier
in the cold pieces except for the writes that are going on. -/
structure Inv (s : System) : Prop where
  size_le : s.storage.size ≤ u64Max
  hot_eq : ∀ x, ¬ s.Pending x → s.storage.hot x = s.flat x
  cold_eq : ∀ i, s.storage.tierOf i = some .cold → ∀ x, s.storage.InPiece i x → x < s.storage.size →
    ¬ s.Busy x → s.storage.cold x = s.flat x
  calls : All (CallInv s) s.calls

theorem Call.Pends.covers {c : Call} {x : ℕ} (h : c.Pends x) : c.Covers x := by
  cases c with
  | demote i phase => exact h
  | read offset len dirty phase => exact h
  | write i offset data phase =>
    cases phase with
    | writeHot => exact h
    | setHot => cases h

section Invariant

variable {s t : System}

theorem busy_of_pending {x : ℕ} : s.Pending x → s.Busy x := fun ⟨k, c, hc, hp⟩ => ⟨k, c, hc, hp.covers⟩

theorem Holds.mono {offset len : ℕ} {dirty dirty' : ℕ → Prop} {data : List UInt8}
    (h : s.Holds offset len dirty data) (hdirty : ∀ x, dirty x → dirty' x)
    (hflat : ∀ x, ¬ dirty' x → t.flat x = s.flat x) : t.Holds offset len dirty' data :=
  ⟨h.1, fun x hx hclean => by
    rw [hflat x hclean]
    exact h.2 x hx fun hd => hclean (hdirty x hd)⟩

/-- What a read call knows stays true if the two stores change where the read is dirty only. -/
theorem ReadInv.mono {offset len : ℕ} {dirty dirty' : ℕ → Prop} {phase : ReadPhase}
    (h : ReadInv s offset len dirty phase) (hdirty : ∀ x, dirty x → dirty' x)
    (hcold : ∀ x, ¬ dirty' x → s.storage.cold x = s.flat x → t.storage.cold x = t.flat x)
    (hflat : ∀ x, ¬ dirty' x → t.flat x = s.flat x) : ReadInv t offset len dirty' phase := by
  cases phase with
  | lookup => trivial
  | readHot => trivial
  | readCold i => exact fun x hx hclean => hcold x hclean (h x hx fun hd => hclean (hdirty x hd))
  | promote i data => exact Holds.mono h hdirty hflat
  | setHot i data => exact Holds.mono h hdirty hflat
  | recordAccess data => exact Holds.mono h hdirty hflat

/-- What a call knows stays true if the two stores change where a write is going on only. -/
theorem CallInv.mono {c : Call} (h : CallInv s c)
    (hlength : t.storage.pieceLength = s.storage.pieceLength) (hsize : t.storage.size = s.storage.size)
    (hbusy : ∀ x, t.Busy x → s.Busy x)
    (hcold : ∀ x, ¬ s.Busy x → s.storage.cold x = s.flat x → t.storage.cold x = t.flat x)
    (hflat : ∀ x, ¬ s.Busy x → t.flat x = s.flat x) : CallInv t c := by
  cases c with
  | demote i phase => trivial
  | read offset len dirty phase =>
    obtain ⟨hin, hdirty, hread⟩ := h
    refine ⟨?_, fun x hx => hdirty x (hbusy x hx), ?_⟩
    · unfold TieringStorage.RangeIn
      rw [hlength, hsize]
      exact hin
    · exact hread.mono (fun _ => id) (fun x hclean => hcold x fun hb => hclean (hdirty x hb))
        fun x hclean => hflat x fun hb => hclean (hdirty x hb)
  | write i offset data phase =>
    show t.storage.RangeIn i offset data.length
    unfold TieringStorage.RangeIn
    rw [hlength, hsize]
    exact h

/-- No write is in the slot. -/
def Quiet (o : Option Call) : Prop := ∀ c, o = some c → ∀ x, ¬ c.Covers x

theorem quiet_none : Quiet none := nofun

theorem quiet_demote (i : ℕ) (phase : DemotePhase) : Quiet (some (.demote i phase)) := by
  rintro c hc x hx
  cases hc
  exact hx

theorem quiet_read (offset len : ℕ) (dirty : ℕ → Prop) (phase : ReadPhase) :
    Quiet (some (.read offset len dirty phase)) := by
  rintro c hc x hx
  cases hc
  exact hx

/-- **The step of a call that is no write.** -/
theorem inv_quiet {k : ℕ} {o : Option Call} {storage : TieringStorage} (h : Inv s)
    (hold : Quiet (s.calls k)) (hnew : Quiet o)
    (hlength : storage.pieceLength = s.storage.pieceLength) (hsize : storage.size = s.storage.size)
    (hhot : ∀ x, ¬ s.Pending x → storage.hot x = s.flat x)
    (hcold : ∀ x, ¬ s.Busy x → s.storage.cold x = s.flat x → storage.cold x = s.flat x)
    (htier : ∀ i, storage.tierOf i = some .cold → ∀ x, s.storage.InPiece i x → x < s.storage.size →
      ¬ s.Busy x → storage.cold x = s.flat x)
    (hcall : ∀ c, o = some c → CallInv s c) : Inv ((s.withStorage storage).goTo k o) := by
  have hbusy : ∀ x, ((s.withStorage storage).goTo k o).Busy x ↔ s.Busy x := fun x =>
    any_update_iff (iff_of_false (fun ⟨c, hc, hx⟩ => hold c hc x hx) fun ⟨c, hc, hx⟩ => hnew c hc x hx)
  have hpending : ∀ x, ((s.withStorage storage).goTo k o).Pending x ↔ s.Pending x := fun x =>
    any_update_iff (iff_of_false (fun ⟨c, hc, hx⟩ => hold c hc x hx.covers)
      fun ⟨c, hc, hx⟩ => hnew c hc x hx.covers)
  have hmono : ∀ c, CallInv s c → CallInv ((s.withStorage storage).goTo k o) c := fun c hc =>
    hc.mono hlength hsize (fun x => (hbusy x).mp) hcold fun _ _ => rfl
  refine ⟨hsize ▸ h.size_le, fun x hx => hhot x ((hpending x).not.mp hx), fun i hi x hx hlt hclean => ?_,
    (h.calls.mono hmono).update fun c hc => hmono c (hcall c hc)⟩
  refine htier i hi x ?_ (hsize ▸ hlt) ((hbusy x).not.mp hclean)
  have hx' : storage.InPiece i x := hx
  unfold TieringStorage.InPiece at hx' ⊢
  rwa [hlength] at hx'

/-- A step that leaves the storage as it is. -/
theorem inv_goTo {k : ℕ} {o : Option Call} (h : Inv s) (hold : Quiet (s.calls k)) (hnew : Quiet o)
    (hcall : ∀ c, o = some c → CallInv s c) : Inv (s.goTo k o) := by
  have hsame : (s.withStorage s.storage).goTo k o = s.goTo k o := rfl
  rw [← hsame]
  exact inv_quiet h hold hnew rfl rfl h.hot_eq (fun _ _ => id) h.cold_eq hcall

theorem sound_of_last (h : s.last = none) : s.Sound := by
  unfold System.Sound
  rw [h]
  trivial

/-! ### Steps -/

theorem inv_advanceDemote {k i : ℕ} {phase : DemotePhase} (h : Inv s)
    (hc : s.calls k = some (.demote i phase)) (hfresh : s.FreshCall (.demote i phase)) :
    Inv (s.advanceDemote k i phase) := by
  have hold : Quiet (s.calls k) := hc ▸ quiet_demote i phase
  have hdemote : ∀ phase' c, some (Call.demote i phase') = some c → CallInv s c := by
    rintro phase' c hc'
    cases hc'
    trivial
  cases phase with
  | lookup =>
    show Inv (if _ then _ else _)
    split_ifs with hcold
    · exact inv_goTo h hold quiet_none nofun
    · exact inv_goTo h hold (quiet_demote i _) (hdemote _)
  | readHot =>
    show Inv (if _ then _ else _)
    split_ifs with hmax
    · exact inv_goTo h hold quiet_none nofun
    · exact inv_goTo h hold (quiet_demote i _) (hdemote _)
  | writeCold data =>
    -- a fresh copy is what the cold tier has to hold
    have hcold : ∀ x, ¬ s.Busy x → s.storage.cold x = s.flat x →
        overlay s.storage.cold (s.storage.pieceOffset i) data x = s.flat x := by
      intro x hclean hx
      by_cases hw : Within (s.storage.pieceOffset i) data.length x
      · rw [overlay_eq_of_getElem? hw.1 (hfresh x hw hclean)]
        exact h.hot_eq x fun hp => hclean (busy_of_pending hp)
      · rw [overlay_of_not_within hw, hx]
    exact inv_quiet h hold (quiet_demote i _) rfl rfl h.hot_eq hcold
      (fun j hj x hx hlt hclean => hcold x hclean (h.cold_eq j hj x hx hlt hclean)) (hdemote _)
  | setCold =>
    refine inv_quiet h hold quiet_none rfl rfl h.hot_eq (fun _ _ => id) (fun j hj x hx hlt hclean => ?_)
      nofun
    rw [tierOf_setTier] at hj
    by_cases hji : j = i
    · subst hji
      rw [← h.hot_eq x fun hp => hclean (busy_of_pending hp)]
      exact hfresh x hx hlt hclean
    · rw [if_neg hji] at hj
      exact h.cold_eq j hj x hx hlt hclean

/-- A read of a backend holds the bytes of the flat store where the backend does. -/
theorem holds_readBackend {i offset len : ℕ} {dirty : ℕ → Prop} {content : ℕ → UInt8}
    (hin : s.storage.RangeIn i offset len)
    (hcontent : ∀ x, Within offset len x → ¬ dirty x → content x = s.flat x) :
    s.Holds offset len dirty (readBackend s.storage.size content offset len) := by
  rw [readBackend_of_rangeIn hin]
  refine ⟨length_window _ _ _, fun x hx hclean => ?_⟩
  have hk : x - offset < (window content offset len).length := by
    rw [length_window]
    have := hx.1
    have := hx.2
    omega
  rw [List.getElem?_eq_getElem hk, getElem_window, Nat.add_sub_cancel' hx.1]
  exact congrArg some (hcontent x hx hclean)

theorem inv_advanceRead {k offset len : ℕ} {dirty : ℕ → Prop} {phase : ReadPhase} (h : Inv s)
    (hc : s.calls k = some (.read offset len dirty phase))
    (hfresh : s.FreshCall (.read offset len dirty phase)) :
    Inv (s.advanceRead k offset len dirty phase) ∧ (s.advanceRead k offset len dirty phase).Sound := by
  have hold : Quiet (s.calls k) := hc ▸ quiet_read offset len dirty phase
  obtain ⟨hin, hdirty, hread⟩ := h.calls k _ hc
  have hnext : ∀ {phase'}, ReadInv s offset len dirty phase' →
      ∀ c, some (Call.read offset len dirty phase') = some c → CallInv s c := by
    rintro phase' hread' c hc'
    cases hc'
    exact ⟨hin, hdirty, hread'⟩
  cases phase with
  | lookup =>
    unfold System.advanceRead
    cases hpiece : s.storage.offsetToPiece offset with
    | error e => exact ⟨inv_goTo h hold quiet_none nofun, sound_of_last rfl⟩
    | ok j =>
      rw [offsetToPiece_eq hpiece] at hin
      dsimp only
      cases htier : s.storage.tierOf j with
      | none => exact ⟨inv_goTo h hold (quiet_read _ _ _ _) (hnext trivial), sound_of_last rfl⟩
      | some tier =>
        cases tier with
        | hot => exact ⟨inv_goTo h hold (quiet_read _ _ _ _) (hnext trivial), sound_of_last rfl⟩
        | cold =>
          refine ⟨inv_goTo h hold (quiet_read _ _ _ _) (hnext fun x hx hclean => ?_), sound_of_last rfl⟩
          have hlt : x < s.storage.size := Nat.lt_of_lt_of_le hx.2 hin.2.2
          exact h.cold_eq j htier x (inPiece_of_within hin hx) hlt fun hb => hclean (hdirty x hb)
  | readHot =>
    refine ⟨inv_goTo h hold (quiet_read _ _ _ _) (hnext ?_), sound_of_last rfl⟩
    exact holds_readBackend hin fun x _ hclean =>
      h.hot_eq x fun hp => hclean (hdirty x (busy_of_pending hp))
  | readCold j =>
    refine ⟨inv_goTo h hold (quiet_read _ _ _ _) (hnext ?_), sound_of_last rfl⟩
    exact holds_readBackend hin hread
  | promote j data =>
    refine ⟨inv_quiet h hold (quiet_read _ _ _ _) rfl rfl (fun x hpend => ?_) (fun _ _ => id) h.cold_eq
      (hnext hread), sound_of_last rfl⟩
    -- a fresh copy changes nothing in the hot tier, but for the pending writes
    show overlay s.storage.hot offset data x = s.flat x
    by_cases hw : Within offset data.length x
    · rw [overlay_eq_of_getElem? hw.1 (hfresh x hw hpend)]
      exact h.hot_eq x hpend
    · rw [overlay_of_not_within hw]
      exact h.hot_eq x hpend
  | setHot j data =>
    refine ⟨inv_quiet h hold (quiet_read _ _ _ _) rfl rfl h.hot_eq (fun _ _ => id)
      (fun i' hi' => h.cold_eq i' (cold_of_setHot hi').2) (hnext hread), sound_of_last rfl⟩
  | recordAccess data =>
    have hinv : Inv (s.goTo k none) := inv_goTo h hold quiet_none nofun
    refine ⟨⟨hinv.size_le, hinv.hot_eq, hinv.cold_eq, hinv.calls⟩, ?_⟩
    exact hread

/-- The write reaches the hot tier and the flat store. -/
theorem inv_writeHot {k i offset : ℕ} {data : List UInt8} (h : Inv s)
    (hc : s.calls k = some (.write i offset data .writeHot)) :
    Inv (s.advanceWrite k i offset data .writeHot) := by
  have hin : s.storage.RangeIn i offset data.length := h.calls k _ hc
  have hwithin : ∀ x, Within offset data.length x → s.Busy x := fun x hx => ⟨k, _, hc, hx⟩
  have hbusy : ∀ x, (s.advanceWrite k i offset data .writeHot).Busy x ↔ s.Busy x := fun x =>
    any_update_iff ⟨fun ⟨c, hc', hx⟩ => ⟨_, rfl, by cases Option.some.inj (hc.symm.trans hc'); exact hx⟩,
      fun ⟨c, hc', hx⟩ => ⟨_, hc, by cases hc'; exact hx⟩⟩
  have hflat : ∀ x, ¬ s.Busy x → overlay s.flat offset data x = s.flat x := fun x hclean =>
    overlay_of_not_within fun hw => hclean (hwithin x hw)
  refine ⟨h.size_le, fun x hx => ?_, fun j hj x hx hlt hclean => ?_, (h.calls.mono fun c hc' => ?_).update
    fun c hc' => ?_⟩
  · show overlay s.storage.hot offset data x = overlay s.flat offset data x
    by_cases hw : Within offset data.length x
    · exact overlay_of_within hw _
    · rw [overlay_of_not_within hw, overlay_of_not_within hw]
      refine h.hot_eq x fun hp => hx ?_
      rcases Any.update hp with hp' | ⟨c, hc', hx'⟩
      · exact hp'
      · rw [hc] at hc'
        cases hc'
        exact absurd hx' hw
  · have hclean' : ¬ s.Busy x := (hbusy x).not.mp hclean
    show s.storage.cold x = overlay s.flat offset data x
    rw [hflat x hclean']
    exact h.cold_eq j hj x hx hlt hclean'
  · refine hc'.mono rfl rfl (fun x => (hbusy x).mp) (fun x hclean hx => ?_) hflat
    exact hx.trans (hflat x hclean).symm
  · cases hc'
    exact hin

/-- The write ends: its piece is hot. -/
theorem inv_setHot {k i offset : ℕ} {data : List UInt8} (h : Inv s)
    (hc : s.calls k = some (.write i offset data .setHot)) :
    Inv (s.advanceWrite k i offset data .setHot) := by
  have hin : s.storage.RangeIn i offset data.length := h.calls k _ hc
  have hbusy : ∀ x, (s.advanceWrite k i offset data .setHot).Busy x → s.Busy x := fun x hb =>
    (Any.of_update hb).resolve_left fun ⟨c, hc', _⟩ => Option.some_ne_none c hc'.symm
  have hcalls : All (CallInv (s.advanceWrite k i offset data .setHot)) s.calls :=
    h.calls.mono fun c hc' => hc'.mono rfl rfl hbusy (fun _ _ => id) fun _ _ => rfl
  refine ⟨h.size_le, fun x hx => h.hot_eq x fun hp => hx ?_, fun j hj x hx hlt hclean => ?_,
    hcalls.update fun _ hc' => nomatch hc'⟩
  · rcases Any.update hp with hp' | ⟨c, hc', hx'⟩
    · exact hp'
    · rw [hc] at hc'
      cases hc'
      cases hx'
  · -- the piece of the write is hot, and in the others nothing has been written
    obtain ⟨hne, hj'⟩ := cold_of_setHot hj
    refine h.cold_eq j hj' x hx hlt fun hb => hclean ?_
    rcases Any.update hb with hb' | ⟨c, hc', hx'⟩
    · exact hb'
    · rw [hc] at hc'
      cases hc'
      exact absurd (eq_of_inPiece hx (inPiece_of_within hin hx')) hne

theorem covers_touch {offset len x : ℕ} {c : Call} : (c.touch offset len).Covers x ↔ c.Covers x := by
  cases c with
  | demote i phase => exact Iff.rfl
  | read off n dirty phase => exact Iff.rfl
  | write i off data phase => exact Iff.rfl

theorem pends_touch {offset len x : ℕ} {c : Call} : (c.touch offset len).Pends x ↔ c.Pends x := by
  cases c with
  | demote i phase => exact Iff.rfl
  | read off n dirty phase => exact Iff.rfl
  | write i off data phase => exact Iff.rfl

/-- A write begins. -/
theorem inv_beginWrite {k i offset : ℕ} {data : List UInt8} (h : Inv s) (hfree : s.calls k = none)
    (hin : s.storage.RangeIn i offset data.length) : Inv (s.beginWrite k i offset data) := by
  have hbusy : ∀ x, (s.beginWrite k i offset data).Busy x → Within offset data.length x ∨ s.Busy x := by
    intro x hb
    rcases Any.of_update hb with ⟨c, hc, hx⟩ | hb'
    · cases hc
      exact Or.inl hx
    · obtain ⟨j, c, hc, hx⟩ := any_map.mp hb'
      exact Or.inr ⟨j, c, hc, covers_touch.mp hx⟩
  have hkeep : ∀ {P : Call → Prop}, (∀ c, P c → P (c.touch offset data.length)) → Any P s.calls →
      Any P (s.beginWrite k i offset data).calls := by
    rintro P htouch ⟨j, c, hc, hP⟩
    have hmap : Any P fun j => (s.calls j).map (Call.touch offset data.length) :=
      any_map.mpr ⟨j, c, hc, htouch c hP⟩
    refine hmap.update.resolve_right ?_
    rintro ⟨a, ha, -⟩
    rw [hfree] at ha
    cases ha
  refine ⟨h.size_le, fun x hx => h.hot_eq x fun hp => hx (hkeep (fun c => pends_touch.mpr) hp),
    fun j hj x hx hlt hclean => h.cold_eq j hj x hx hlt fun hb => hclean (hkeep (fun c =>
      covers_touch.mpr) hb), (h.calls.map fun c hc => ?_).update fun c hc => ?_⟩
  · cases c with
    | demote j phase => trivial
    | read off n dirty phase =>
      obtain ⟨hrange, hdirty, hread⟩ := hc
      refine ⟨hrange, fun x hb => (hbusy x hb).imp_right (hdirty x), ?_⟩
      exact ReadInv.mono hread (fun _ => Or.inr) (fun _ _ => id) fun _ _ => rfl
    | write j off data' phase => exact hc
  · cases hc
    exact hin

/-- **A fresh step** keeps the tiers together, and the read that it returns from is right. -/
theorem step_spec {a : Action} (h : Inv s) (hfresh : s.Fresh a) (ht : s.step a = some t) :
    Inv t ∧ t.Sound := by
  cases a with
  | demote k i =>
    have hstep : s.step (.demote k i) =
        if (s.calls k).isNone then some (s.goTo k (some (.demote i .lookup))) else none := rfl
    rw [hstep] at ht
    split_ifs at ht with hfree
    cases ht
    have hold : Quiet (s.calls k) := Option.isNone_iff_eq_none.mp hfree ▸ quiet_none
    refine ⟨inv_goTo h hold (quiet_demote i _) fun c hc => ?_, sound_of_last rfl⟩
    cases hc
    trivial
  | read k offset len =>
    have hstep : s.step (.read k offset len) =
        if (s.calls k).isNone ∧ s.storage.RangeIn (offset / s.storage.pieceLength) offset len then
          some (s.goTo k (some (.read offset len s.Busy .lookup))) else none := rfl
    rw [hstep] at ht
    split_ifs at ht with hok
    cases ht
    have hold : Quiet (s.calls k) := Option.isNone_iff_eq_none.mp hok.1 ▸ quiet_none
    refine ⟨inv_goTo h hold (quiet_read _ _ _ _) fun c hc => ?_, sound_of_last rfl⟩
    cases hc
    exact ⟨hok.2, fun _ => id, trivial⟩
  | write k i offset data =>
    have hstep : s.step (.write k i offset data) =
        if (s.calls k).isNone ∧ s.storage.RangeIn i offset data.length then
          some (s.beginWrite k i offset data) else none := rfl
    rw [hstep] at ht
    split_ifs at ht with hok
    cases ht
    exact ⟨inv_beginWrite h (Option.isNone_iff_eq_none.mp hok.1) hok.2, sound_of_last rfl⟩
  | advance k =>
    obtain ⟨c, hc, rfl⟩ := Option.map_eq_some_iff.mp ht
    have hfresh' : s.FreshCall c := hfresh c hc
    cases c with
    | demote i phase =>
      refine ⟨inv_advanceDemote h hc hfresh', sound_of_last ?_⟩
      cases phase with
      | lookup =>
        show (if _ then _ else _ : System).last = none
        split_ifs <;> rfl
      | readHot =>
        show (if _ then _ else _ : System).last = none
        split_ifs <;> rfl
      | writeCold data => rfl
      | setCold => rfl
    | read offset len dirty phase => exact inv_advanceRead h hc hfresh'
    | write i offset data phase =>
      cases phase with
      | writeHot => exact ⟨inv_writeHot h hc, sound_of_last rfl⟩
      | setHot => exact ⟨inv_setHot h hc, sound_of_last rfl⟩

end Invariant

/-! ### Runs -/

theorem inv_start {pieceLength size : ℕ} (hsize : size ≤ u64Max) (hot cold : ℕ → UInt8) :
    Inv (System.start pieceLength size hot cold) := by
  refine ⟨hsize, fun _ _ => rfl, fun i hi => ?_, nofun⟩
  have hempty : (System.start pieceLength size hot cold).storage.tierOf i = none := Table.get?_empty i
  rw [hempty] at hi
  cases hi

/-- **No write is lost** in a run whose steps are all fresh: every read returns the bytes that the writes
before it have left, wherever no write has been going on during the read. -/
theorem fresh_sound {pieceLength size : ℕ} (hsize : size ≤ u64Max) (hot cold : ℕ → UInt8)
    {actions : List Action}
    (hfresh : Meets System.step System.Fresh (System.start pieceLength size hot cold) actions) :
    Always System.step System.Sound (System.start pieceLength size hot cold) actions := by
  have hstart : Inv (System.start pieceLength size hot cold) ∧
      (System.start pieceLength size hot cold).Sound := ⟨inv_start hsize hot cold, trivial⟩
  have halways : Always System.step (fun s => Inv s ∧ s.Sound) _ actions :=
    always_of_meets (fun s a t hs ha ht => step_spec hs.1 ha ht) hstart hfresh
  exact halways.mono fun _ => And.right

theorem fresh_advance {s : System} {k : ℕ} {c : Call} (hc : s.calls k = some c) (h : s.FreshCall c) :
    s.Fresh (.advance k) := fun c' hc' => by
  cases Option.some.inj (hc.symm.trans hc')
  exact h

/-- A write and a demotion of its piece at the same time, and a read after them. -/
def freshRun : List Action :=
  [.write 0 0 0 [7, 8], .demote 1 0, .advance 0, .advance 1, .advance 0, .advance 1, .advance 1,
    .advance 1, .read 0 0 2, .advance 0, .advance 0, .advance 0, .advance 0, .advance 0]

theorem fresh_sound_demotion :
    Always System.step System.Sound (System.start 2 2 (fun _ => 0) fun _ => 0) freshRun := by
  have htwo : ∀ x, x < 0 + 2 → x = 0 ∨ x = 1 := by omega
  refine fresh_sound (by decide) _ _ ?_
  refine .cons rfl trivial (.cons rfl trivial (.cons rfl (fresh_advance rfl trivial) ?_))
  refine .cons rfl (fresh_advance rfl trivial) (.cons rfl (fresh_advance rfl trivial) ?_)
  refine .cons rfl (fresh_advance rfl trivial) (.cons rfl (fresh_advance rfl ?_) ?_)
  · intro x hx _
    rcases htwo x hx.2 with rfl | rfl
    · rfl
    · rfl
  refine .cons rfl (fresh_advance rfl ?_) (.cons rfl trivial ?_)
  · intro x _ hlt _
    rcases htwo x hlt with rfl | rfl
    · rfl
    · rfl
  refine .cons rfl (fresh_advance rfl trivial) (.cons rfl (fresh_advance rfl trivial) ?_)
  refine .cons rfl (fresh_advance rfl ?_) ?_
  · intro x hx _
    rcases htwo x hx.2 with rfl | rfl
    · rfl
    · rfl
  exact .cons rfl (fresh_advance rfl trivial) (.cons rfl (fresh_advance rfl trivial) trivial)

theorem calls_goTo_of_ne {s : System} {j k : ℕ} {o : Option Call} (h : j ≠ k) :
    (s.goTo k o).calls j = s.calls j := Function.update_of_ne h _ _

/-- A call that goes on leaves the other calls alone. -/
theorem calls_advance_of_ne {s : System} {j k : ℕ} {c : Call} (h : j ≠ k) :
    (s.advance k c).calls j = s.calls j := by
  have hgoTo : ∀ (t : System) (o : Option Call), t.calls = s.calls → (t.goTo k o).calls j = s.calls j :=
    fun t o ht => by rw [calls_goTo_of_ne h, ht]
  cases c with
  | demote i phase =>
    cases phase with
    | lookup =>
      show (if _ then _ else _ : System).calls j = _
      split_ifs
      · exact hgoTo s _ rfl
      · exact hgoTo s _ rfl
    | readHot =>
      show (if _ then _ else _ : System).calls j = _
      split_ifs
      · exact hgoTo s _ rfl
      · exact hgoTo s _ rfl
    | writeCold data => exact hgoTo (s.withStorage _) _ rfl
    | setCold => exact hgoTo (s.withStorage _) _ rfl
  | read offset len dirty phase =>
    cases phase with
    | lookup =>
      show (s.advanceRead k offset len dirty .lookup).calls j = _
      unfold System.advanceRead
      cases hpiece : s.storage.offsetToPiece offset with
      | error e => exact hgoTo s _ rfl
      | ok i =>
        dsimp only
        cases htier : s.storage.tierOf i with
        | none => exact hgoTo s _ rfl
        | some tier =>
          cases tier with
          | hot => exact hgoTo s _ rfl
          | cold => exact hgoTo s _ rfl
    | readHot => exact hgoTo s _ rfl
    | readCold i => exact hgoTo s _ rfl
    | promote i data => exact hgoTo (s.withStorage _) _ rfl
    | setHot i data => exact hgoTo (s.withStorage _) _ rfl
    | recordAccess data => exact hgoTo s _ rfl
  | write i offset data phase =>
    cases phase with
    | writeHot => exact hgoTo (s.withStorage _) _ rfl
    | setHot => exact hgoTo (s.withStorage _) _ rfl

theorem calls_beginWrite_of_ne {s : System} {j k i offset : ℕ} {data : List UInt8} (h : j ≠ k) :
    (s.beginWrite k i offset data).calls j = (s.calls j).map (Call.touch offset data.length) := by
  show Function.update (fun j => (s.calls j).map (Call.touch offset data.length)) k _ j = _
  rw [Function.update_of_ne h]

/-- A demotion that takes the bytes before a write and puts them into effect after it. -/
def staleRun : List Action :=
  [.demote 0 0, .advance 0, .advance 0, .write 1 0 0 [7, 8], .advance 1, .advance 1, .advance 0,
    .advance 0, .read 0 0 2, .advance 0, .advance 0, .advance 0, .advance 0, .advance 0]

theorem stale_demotion_loses :
    ¬ Always System.step System.Sound (System.start 2 2 (fun _ => 0) fun _ => 0) staleRun := by
  intro h
  have hlast := ((((((((((((((h.2 _ rfl).2 _ rfl).2 _ rfl).2 _ rfl).2 _ rfl).2 _ rfl).2 _ rfl).2 _
    rfl).2 _ rfl).2 _ rfl).2 _ rfl).2 _ rfl).2 _ rfl).2 _ rfl).head
  have hbyte := hlast.2 0 ⟨Nat.le_refl 0, by decide⟩ ?_
  · exact absurd hbyte (by decide)
  · -- before the read all calls have ended
    rintro ⟨k, c, hc, -⟩
    by_cases h0 : k = 0
    · subst h0
      cases hc
    by_cases h1 : k = 1
    · subst h1
      cases hc
    simp only [calls_advance_of_ne h0, calls_advance_of_ne h1, calls_beginWrite_of_ne h1,
      calls_goTo_of_ne h0] at hc
    cases hc

end CncContent.Storage.TieringConcurrency
