import CncContent.Lib.Runs
import CncContent.Storage.Tiering

/-! # Tiered storage as one flat store

Called by one caller, the storage keeps in its hot tier what a flat store would hold, and in the cold tier
the bytes of the pieces that are there (`Agrees`). A read takes all its bytes from the tier of the piece
that it starts in, so one that starts in a cold piece and runs past its end may return, and promote, bytes
that the cold tier has never been given; nothing else goes wrong (`tiering_sound_iff`). -/

namespace CncContent.Storage.TieringSpec

open CncContent.Lib.Bounded CncContent.Lib.Maps CncContent.Lib.Overlay CncContent.Lib.Runs
open CncContent.Storage.Backend CncContent.Storage.Tiering CncContent.Storage.Tiering.TieringStorage

/-! ### The system -/

/-- What a read has returned. -/
structure ReadOk where
  offset : ℕ
  len : ℕ
  data : List UInt8

/-- The storage beside a flat store with the same successful writes, and the read that the last call was,
if it succeeded. -/
structure System where
  storage : TieringStorage
  flat : ℕ → UInt8
  last : Option ReadOk

inductive Call
  | write (pieceIndex offset : ℕ) (data : List UInt8) (faults : Faults)
  | read (offset len : ℕ) (faults : Faults)
  | demote (pieceIndex : ℕ) (faults : Faults)

/-- Two backends as they are found, of which nothing has been written through the storage. -/
def start (pieceLength size : ℕ) (hot cold : ℕ → UInt8) : System :=
  ⟨⟨hot, cold, pieceLength, size, .empty⟩, hot, none⟩

namespace System

variable (s : System)

def write (pieceIndex offset : ℕ) (data : List UInt8) (faults : Faults) : System :=
  match s.storage.writePiece pieceIndex offset data faults with
  | (.ok (), storage) => ⟨storage, overlay s.flat offset data, none⟩
  | (.error _, storage) => ⟨storage, s.flat, none⟩

def read (offset len : ℕ) (faults : Faults) : System :=
  match s.storage.readPiece offset len faults with
  | (.ok data, storage) => ⟨storage, s.flat, some ⟨offset, len, data⟩⟩
  | (.error _, storage) => ⟨storage, s.flat, none⟩

def demote (pieceIndex : ℕ) (faults : Faults) : System :=
  ⟨(s.storage.demote pieceIndex faults).2, s.flat, none⟩

/-- Data are written inside the named piece only. -/
def step : Call → Option System
  | .write pieceIndex offset data faults =>
    if s.storage.RangeIn pieceIndex offset data.length then
      some (s.write pieceIndex offset data faults)
    else none
  | .read offset len faults => some (s.read offset len faults)
  | .demote pieceIndex faults => some (s.demote pieceIndex faults)

/-- The read that has just succeeded returned what the flat store would have. -/
def Sound : Prop :=
  match s.last with
  | none => True
  | some r => r.data = readBackend s.storage.size s.flat r.offset r.len

end System

/-! ### Invariant -/

/-- The hot tier holds the bytes of the flat store, and so does the cold tier in the cold pieces. -/
structure Agrees (s : System) : Prop where
  hot_eq : s.storage.hot = s.flat
  cold_eq : ∀ i, s.storage.tierOf i = some .cold → ∀ x, s.storage.InPiece i x → x < s.storage.size →
    s.storage.cold x = s.flat x

/-- As long as the reads are right. -/
structure Inv (s : System) : Prop where
  size_le : s.storage.size ≤ u64Max
  agrees : s.Sound → Agrees s

section Steps

variable {s : System}

/-- A write that succeeds reaches both stores, and its piece is hot. -/
theorem agrees_write (h : Agrees s) {pieceIndex offset : ℕ} {data : List UInt8}
    (hin : s.storage.RangeIn pieceIndex offset data.length) (faults : Faults) :
    Agrees (s.write pieceIndex offset data faults) := by
  unfold System.write writePiece
  cases faults.hotWrite with
  | some e => exact ⟨h.hot_eq, h.cold_eq⟩
  | none =>
    refine ⟨congrArg (overlay · offset data) h.hot_eq, fun i hi x hx hlt => ?_⟩
    obtain ⟨hne, hi'⟩ := cold_of_setHot (s := s.storage) hi
    have hout : ¬ Within offset data.length x := fun hw =>
      hne (eq_of_inPiece hx (inPiece_of_within hin hw))
    show s.storage.cold x = overlay s.flat offset data x
    rw [overlay_of_not_within hout]
    exact h.cold_eq i hi' x hx hlt

/-- A demotion copies what the hot tier holds. -/
theorem agrees_demote (hsize : s.storage.size ≤ u64Max) (h : Agrees s) (pieceIndex : ℕ)
    (faults : Faults) : Agrees (s.demote pieceIndex faults) := by
  unfold System.demote TieringStorage.demote
  split_ifs with hcold hmax
  · exact ⟨h.hot_eq, h.cold_eq⟩
  · exact ⟨h.hot_eq, h.cold_eq⟩
  cases faults.hotRead with
  | some e => exact ⟨h.hot_eq, h.cold_eq⟩
  | none =>
    cases faults.coldWrite with
    | some e => exact ⟨h.hot_eq, h.cold_eq⟩
    | none =>
      refine ⟨h.hot_eq, fun i hi x hx hlt => ?_⟩
      have htier : (s.storage.setTier pieceIndex .cold).tierOf i = some .cold := hi
      rw [tierOf_setTier] at htier
      show overlay s.storage.cold (s.storage.pieceOffset pieceIndex)
        (window s.storage.hot _ _) x = s.flat x
      by_cases hw : Within (s.storage.pieceOffset pieceIndex)
          (min s.storage.pieceLength (s.storage.size - s.storage.pieceOffset pieceIndex)) x
      · rw [overlay_of_within (by rwa [length_window]) s.storage.hot, overlay_window, h.hot_eq]
      · have hne : i ≠ pieceIndex := by
          rintro rfl
          exact hw (within_readHot hsize hx hlt)
        rw [if_neg hne] at htier
        rw [overlay_of_not_within (by rwa [length_window])]
        exact h.cold_eq i htier x hx hlt

/-- A read that starts in a cold piece and succeeds finds, behind the end of the piece, the cold tier as
the hot one. -/
def EndsInside (s : System) : Call → Prop
  | .read offset len faults => ∀ i, s.storage.offsetToPiece offset = .ok i →
    s.storage.tierOf i = some .cold → faults.coldRead = none →
      ∀ x, Within offset len x → x < s.storage.size → (i + 1) * s.storage.pieceLength ≤ x →
        s.storage.cold x = s.storage.hot x
  | .write .. | .demote .. => True

/-- **A read from the cold tier** is right exactly if the bytes behind its piece are. -/
theorem readCold_eq_iff (h : Agrees s) {i offset len : ℕ} (hpiece : s.storage.offsetToPiece offset = .ok i)
    (hcold : s.storage.tierOf i = some .cold) :
    s.storage.readCold offset len = readBackend s.storage.size s.flat offset len ↔
      ∀ x, Within offset len x → x < s.storage.size → (i + 1) * s.storage.pieceLength ≤ x →
        s.storage.cold x = s.storage.hot x := by
  unfold TieringStorage.readCold readBackend
  rw [window_eq_iff, h.hot_eq]
  constructor
  · intro hall x hx hlt _
    exact hall x ⟨hx.1, by have := hx.1; have := hx.2; omega⟩
  · intro hall x hx
    have hx' : Within offset len x := ⟨hx.1, by have := hx.2; omega⟩
    have hlt : x < s.storage.size := by
      have := hx.1
      have := hx.2
      omega
    by_cases hend : (i + 1) * s.storage.pieceLength ≤ x
    · exact hall x hx' hlt hend
    · have hin : s.storage.InPiece i x :=
        ⟨Nat.le_trans (offsetToPiece_le hpiece) hx.1, Nat.lt_of_not_le hend⟩
      exact h.cold_eq i hcold x hin hlt

/-- After a promotion of bytes that are right. -/
theorem agrees_promote (h : Agrees s) {i offset len : ℕ} (faults : Faults) (last : Option ReadOk)
    (hdata : s.storage.readCold offset len = readBackend s.storage.size s.flat offset len) :
    Agrees ⟨(s.storage.promote offset (s.storage.readCold offset len) faults).setTier i .hot, s.flat,
      last⟩ := by
  unfold promote
  cases faults.hotWrite with
  | some e => exact ⟨h.hot_eq, fun j hj => h.cold_eq j (cold_of_setHot (s := s.storage) hj).2⟩
  | none =>
    refine ⟨?_, fun j hj => h.cold_eq j (cold_of_setHot (s := s.storage) hj).2⟩
    show overlay s.storage.hot offset (s.storage.readCold offset len) = s.flat
    rw [hdata, h.hot_eq]
    exact overlay_window _ _ _

/-- A read fails, or takes its bytes from the hot tier or from the cold one. -/
theorem readPiece_cases (st : TieringStorage) (offset len : ℕ) (faults : Faults) :
    (∃ e, st.readPiece offset len faults = (.error e, st) ∧ ∀ i, st.offsetToPiece offset = .ok i →
      st.tierOf i = some .cold → faults.coldRead ≠ none) ∨
    (st.readPiece offset len faults = (.ok (st.readHot offset len), st) ∧
      ∀ i, st.offsetToPiece offset = .ok i → st.tierOf i ≠ some .cold) ∨
    ∃ i, st.offsetToPiece offset = .ok i ∧ st.tierOf i = some .cold ∧ faults.coldRead = none ∧
      st.readPiece offset len faults = (.ok (st.readCold offset len),
        (st.promote offset (st.readCold offset len) faults).setTier i .hot) := by
  unfold TieringStorage.readPiece
  cases hpiece : st.offsetToPiece offset with
  | error e => exact Or.inl ⟨e, rfl, nofun⟩
  | ok i =>
    -- the piece is hot, or taken to be so
    have hhot : st.tierOf i ≠ some .cold → ∀ j, Except.ok i = (.ok j : Except StorageError ℕ) →
        st.tierOf j ≠ some .cold := by
      rintro hne j hj
      cases hj
      exact hne
    dsimp only
    cases htier : st.tierOf i with
    | none =>
      have hne := hhot (by rw [htier]; nofun)
      cases faults.hotRead with
      | some e => exact Or.inl ⟨e, rfl, fun j hj hcold => absurd hcold (hne j hj)⟩
      | none => exact Or.inr (Or.inl ⟨rfl, hne⟩)
    | some tier =>
      cases tier with
      | hot =>
        have hne := hhot (by rw [htier]; nofun)
        cases faults.hotRead with
        | some e => exact Or.inl ⟨e, rfl, fun j hj hcold => absurd hcold (hne j hj)⟩
        | none => exact Or.inr (Or.inl ⟨rfl, hne⟩)
      | cold =>
        cases hfault : faults.coldRead with
        | some e => exact Or.inl ⟨e, rfl, fun _ _ _ => nofun⟩
        | none => exact Or.inr (Or.inr ⟨i, rfl, htier, rfl, rfl⟩)

/-- **A read** keeps the tiers together if it is right, and is right if it ends inside. -/
theorem read_spec (h : Agrees s) (offset len : ℕ) (faults : Faults) :
    ((s.read offset len faults).Sound → Agrees (s.read offset len faults)) ∧
      ((s.read offset len faults).Sound ↔ EndsInside s (.read offset len faults)) := by
  unfold System.read EndsInside
  rcases readPiece_cases s.storage offset len faults with
    ⟨e, hread, hfault⟩ | ⟨hread, hne⟩ | ⟨i, hpiece, hcold, hfault, hread⟩
  · rw [hread]
    refine ⟨fun _ => ⟨h.hot_eq, h.cold_eq⟩, iff_of_true trivial fun i hi hcold hnone => ?_⟩
    exact absurd hnone (hfault i hi hcold)
  · rw [hread]
    refine ⟨fun _ => ⟨h.hot_eq, h.cold_eq⟩, iff_of_true ?_ fun i hi hcold => absurd hcold (hne i hi)⟩
    show readBackend s.storage.size s.storage.hot offset len = readBackend s.storage.size s.flat offset len
    rw [h.hot_eq]
  · rw [hread]
    have hiff : ∀ storage : TieringStorage, storage.size = s.storage.size →
        (System.Sound ⟨storage, s.flat, some ⟨offset, len, s.storage.readCold offset len⟩⟩ ↔
          s.storage.readCold offset len = readBackend s.storage.size s.flat offset len) := by
      intro storage hsize
      show _ = readBackend storage.size s.flat offset len ↔ _
      rw [hsize]
    have hsize : ((s.storage.promote offset (s.storage.readCold offset len) faults).setTier i
        .hot).size = s.storage.size := by
      unfold promote
      cases faults.hotWrite with
      | some e => rfl
      | none => rfl
    refine ⟨fun hsound => agrees_promote h faults _ ((hiff _ hsize).mp hsound),
      (hiff _ hsize).trans ((readCold_eq_iff h hpiece hcold).trans ⟨fun hall j hj _ _ => ?_, fun hall =>
        hall i hpiece hcold hfault⟩)⟩
    rw [hpiece] at hj
    cases hj
    exact hall

theorem size_promote (st : TieringStorage) (offset : ℕ) (data : List UInt8) (faults : Faults) :
    (st.promote offset data faults).size = st.size := by
  unfold promote
  cases faults.hotWrite with
  | some e => rfl
  | none => rfl

theorem size_write (pieceIndex offset : ℕ) (data : List UInt8) (faults : Faults) :
    (s.write pieceIndex offset data faults).storage.size = s.storage.size := by
  unfold System.write writePiece
  cases faults.hotWrite with
  | some e => rfl
  | none => rfl

theorem size_read (offset len : ℕ) (faults : Faults) :
    (s.read offset len faults).storage.size = s.storage.size := by
  unfold System.read
  rcases readPiece_cases s.storage offset len faults with
    ⟨e, hread, -⟩ | ⟨hread, -⟩ | ⟨i, -, -, -, hread⟩
  · rw [hread]
  · rw [hread]
  · rw [hread]
    exact size_promote _ _ _ _

theorem size_demote (pieceIndex : ℕ) (faults : Faults) :
    (s.demote pieceIndex faults).storage.size = s.storage.size := by
  unfold System.demote TieringStorage.demote
  split_ifs
  · rfl
  · rfl
  cases faults.hotRead with
  | some e => rfl
  | none =>
    cases faults.coldWrite with
    | some e => rfl
    | none => rfl

/-- **A call** keeps the tiers together if it is right, and is right if it ends inside. -/
theorem step_spec {t : System} {c : Call} (hsize : s.storage.size ≤ u64Max) (h : Agrees s)
    (ht : s.step c = some t) :
    t.storage.size = s.storage.size ∧ (t.Sound → Agrees t) ∧ (t.Sound ↔ EndsInside s c) := by
  cases c with
  | write pieceIndex offset data faults =>
    have hstep : s.step (.write pieceIndex offset data faults) =
        if s.storage.RangeIn pieceIndex offset data.length then
          some (s.write pieceIndex offset data faults) else none := rfl
    rw [hstep] at ht
    split_ifs at ht with hin
    cases ht
    have hsound : (s.write pieceIndex offset data faults).Sound := by
      unfold System.write writePiece
      cases faults.hotWrite with
      | some e => trivial
      | none => trivial
    exact ⟨size_write _ _ _ _, fun _ => agrees_write h hin faults, iff_of_true hsound trivial⟩
  | read offset len faults =>
    cases ht
    exact ⟨size_read _ _ _, read_spec h offset len faults⟩
  | demote pieceIndex faults =>
    cases ht
    exact ⟨size_demote _ _, fun _ => agrees_demote hsize h pieceIndex faults, iff_of_true trivial trivial⟩

end Steps

/-! ### Runs -/

theorem agrees_start (pieceLength size : ℕ) (hot cold : ℕ → UInt8) :
    Agrees (start pieceLength size hot cold) := by
  refine ⟨rfl, fun i hi => ?_⟩
  have hempty : (start pieceLength size hot cold).storage.tierOf i = none := Table.get?_empty i
  rw [hempty] at hi
  cases hi

/-- **All reads of a run are those of a flat store** exactly if every read that starts in a cold piece and
succeeds ends in it, or finds behind its end no difference between the tiers. -/
theorem tiering_sound_iff (pieceLength size : ℕ) (hsize : size ≤ u64Max) (hot cold : ℕ → UInt8)
    (calls : List Call) :
    Always System.step System.Sound (start pieceLength size hot cold) calls ↔
      Meets System.step EndsInside (start pieceLength size hot cold) calls := by
  refine always_iff_meets (I := Inv) (fun s c t h hs ht => ?_) (fun s c t h hs ht => ?_)
    (fun s c h _ hnone => ?_) ⟨hsize, fun _ => agrees_start _ _ _ _⟩ trivial
  · obtain ⟨hsame, hagrees, -⟩ := step_spec h.size_le (h.agrees hs) ht
    exact ⟨hsame ▸ h.size_le, hagrees⟩
  · exact (step_spec h.size_le (h.agrees hs) ht).2.2
  · cases c with
    | write pieceIndex offset data faults => trivial
    | read offset len faults => cases hnone
    | demote pieceIndex faults => trivial

/-- No backend call fails. -/
def noFaults : Faults := ⟨none, none, none, none⟩

/-- A piece is written, demoted and read over its whole length. -/
theorem tiering_sound_demoted : Always System.step System.Sound (start 4 8 (fun _ => 0) fun _ => 0)
    [.write 0 0 [1, 1, 1, 1] noFaults, .demote 0 noFaults, .read 1 3 noFaults] := by
  refine (tiering_sound_iff 4 8 (by decide) _ _ _).mpr
    ⟨trivial, fun t ht => ⟨trivial, fun t' ht' => ⟨?_, fun _ _ => trivial⟩⟩⟩
  cases ht
  cases ht'
  rintro i hpiece - - x hx - hend
  have hzero : (Except.ok 0 : Except StorageError ℕ) = .ok i := hpiece
  obtain rfl := Except.ok.inj hzero
  have hlt : x < 1 + 3 := hx.2
  have hle : (0 + 1) * 4 ≤ x := hend
  omega

/-- A read of two pieces, the first of which is cold, returns zeros for the second one. -/
theorem spanning_read_stale : ¬ Always System.step System.Sound (start 4 8 (fun _ => 0) fun _ => 0)
    [.write 0 0 [1, 1, 1, 1] noFaults, .write 1 4 [2, 2, 2, 2] noFaults, .demote 0 noFaults,
      .read 0 8 noFaults] := by
  intro h
  have hlast := ((((h.2 _ rfl).2 _ rfl).2 _ rfl).2 _ rfl).head
  have hdata : ([1, 1, 1, 1, 0, 0, 0, 0] : List UInt8) = [1, 1, 1, 1, 2, 2, 2, 2] := hlast
  exact absurd hdata (by decide)

end CncContent.Storage.TieringSpec
