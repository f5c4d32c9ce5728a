import CncContent.Lib.Runs
import CncContent.Streaming.ByteRangeSpec
import CncContent.Streaming.Reader

/-! # What a streaming reader returns

The map of the reader is the set of the announced bytes, and a read that has reached the disk has seen all
the bytes it asks for in it (`Inv`); the map only grows. So a read returns announced bytes, and at least
one before the end of the file. A seek ends where it should unless it negates the least signed number
(`seek_sound_iff`), and this is the only overflow (`reader_sound_iff`). -/

namespace CncContent.Streaming.ReaderSpec

open CncContent.Lib.Bounded CncContent.Lib.Runs CncContent.Streaming.ByteRanges
open CncContent.Streaming.ByteRangeSpec CncContent.Streaming.Reader
open CncContent.Streaming.Reader.StreamingReader

/-! ### Seeking -/

/-- A position cut to the file. -/
def clamp (fileSize : ℕ) (x : ℤ) : ℕ := (max 0 (min x fileSize)).toNat

/-- Where a seek call should go to. -/
def target (fileSize position : ℕ) : SeekFrom → ℤ
  | .start n => n
  | .fromEnd n => fileSize + n.toInt
  | .current n => position + n.toInt

/-- A seek call by the least signed number. -/
def ByMin : SeekFrom → Prop
  | .start _ => False
  | .fromEnd n => n = Int64.minValue
  | .current n => n = Int64.minValue

instance (pos : SeekFrom) : Decidable (ByMin pos) := by
  unfold ByMin
  split <;> infer_instance

theorem toNat_toUInt64 {n : Int64} (h : 0 ≤ n.toInt) : n.toUInt64.toNat = n.toInt.toNat := by
  have hle : 0 ≤ n := Int64.le_iff_toInt_le.mpr h
  rw [Int64.toNat_toUInt64_of_le hle, Int64.toNat_toInt]

theorem toInt_neg {n : Int64} (h : n ≠ Int64.minValue) : (-n).toInt = -n.toInt := by
  have hne : n.toInt ≠ -2 ^ 63 := fun he => h (Int64.toInt_inj.mp he)
  have hge : Int64.minValue.toInt ≤ n.toInt := n.minValue_le_toInt
  have hmin : Int64.minValue.toInt = -2 ^ 63 := rfl
  have hlt := n.toInt_lt
  rw [Int64.toInt_neg, Int.bmod_eq_of_le (by omega) (by omega)]

theorem moveBy_minValue (base : ℕ) : moveBy base Int64.minValue = .overflow := by
  have hneg : ¬ (0 : Int64) ≤ Int64.minValue := by decide
  unfold moveBy neg
  rw [if_neg hneg, if_pos rfl]

/-- **A move** by a number that can be negated ends, cut to the file, where it should. -/
theorem moveBy_clamp {fileSize : ℕ} (hsize : fileSize ≤ u64Max) (base : ℕ) {n : Int64}
    (h : n ≠ Int64.minValue) :
    ∃ p, moveBy base n = .ok p ∧ min p fileSize = clamp fileSize (base + n.toInt) := by
  unfold moveBy clamp
  by_cases hn : 0 ≤ n
  · have hint : 0 ≤ n.toInt := Int64.le_iff_toInt_le.mp hn
    rw [if_pos hn, toNat_toUInt64 hint]
    refine ⟨_, rfl, ?_⟩
    unfold satAdd
    omega
  · have hint : ¬ 0 ≤ n.toInt := fun hle => hn (Int64.le_iff_toInt_le.mpr hle)
    have hneg := toInt_neg h
    have hnonneg : 0 ≤ (-n).toInt := by omega
    unfold neg
    rw [if_neg hn, if_neg h]
    refine ⟨_, rfl, ?_⟩
    rw [toNat_toUInt64 hnonneg, hneg]
    omega

theorem newPos_of_byMin {s : StreamingReader} {pos : SeekFrom} (h : ByMin pos) :
    s.newPos pos = .overflow := by
  cases pos with
  | start n => cases h
  | fromEnd n => exact h ▸ moveBy_minValue _
  | current n => exact h ▸ moveBy_minValue _

theorem newPos_of_not_byMin {s : StreamingReader} (hsize : s.fileSize ≤ u64Max) {pos : SeekFrom}
    (h : ¬ ByMin pos) : ∃ p, s.newPos pos = .ok p ∧
      min p s.fileSize = clamp s.fileSize (target s.fileSize s.position pos) := by
  cases pos with
  | start n =>
    refine ⟨n, rfl, ?_⟩
    show min n s.fileSize = (max 0 (min (n : ℤ) s.fileSize)).toNat
    omega
  | fromEnd n => exact moveBy_clamp hsize _ h
  | current n => exact moveBy_clamp hsize _ h

/-! ### The invariant -/

/-- A read call has bytes to return. -/
structure Wanted (fileSize position bufLen len : ℕ) : Prop where
  pos : 0 < len
  le_buf : len ≤ bufLen
  le_size : position + len ≤ fileSize

/-- What a read call knows. -/
def PhaseInv (s : StreamingReader) : Prop :=
  match s.phase with
  | .idle => True
  | .check bufLen neededLen => Wanted s.fileSize s.position bufLen neededLen
  | .wait bufLen neededLen => Wanted s.fileSize s.position bufLen neededLen
  | .woken bufLen neededLen timedOut => Wanted s.fileSize s.position bufLen neededLen ∧
      (timedOut = false → s.cancelled = true ∨ s.rangeMap.Available s.position)
  | .disk bufLen len => Wanted s.fileSize s.position bufLen len ∧
      ∀ x, s.position ≤ x → x < s.position + len → s.rangeMap.Available x

structure Inv (s : StreamingReader) : Prop where
  size_le : s.fileSize ≤ u64Max
  position_le : s.position ≤ s.fileSize
  normal : s.rangeMap.Normal
  available_iff : ∀ x, s.rangeMap.Available x ↔ ∃ r ∈ s.announced, r.Has x
  phase : PhaseInv s

/-- The bytes are those of the file at the position, all of them announced; there are none only for an
empty buffer or at the end of the file. -/
structure SoundRead (s : StreamingReader) (bufLen position : ℕ) (bytes : List UInt8) : Prop where
  length_le : bytes.length ≤ bufLen
  moved : s.position = position + bytes.length
  announced : ∀ i < bytes.length, ∃ r ∈ s.announced, r.Has (position + i)
  content : ∀ i < bytes.length, bytes[i]? = some (s.content (position + i))
  eof : bytes.length = 0 → bufLen = 0 ∨ position = s.fileSize

/-- The call that the last step has returned from is right. -/
def Sound (s : StreamingReader) : Prop :=
  match s.last with
  | none => True
  | some (.read bufLen position (.ok bytes)) => SoundRead s bufLen position bytes
  | some (.read _ position (.err _)) => s.position = position
  | some (.read _ _ .overflow) => False
  | some (.seek pos position (.ok p)) =>
    p = clamp s.fileSize (target s.fileSize position pos) ∧ s.position = p
  | some (.seek _ _ (.err _)) => False
  | some (.seek _ _ .overflow) => False

theorem sound_of_last {s : StreamingReader} (h : s.last = none) : Sound s := by
  unfold Sound
  rw [h]
  trivial

theorem contiguousFrom_ne_zero_iff {m : ByteRangeMap} (hm : m.Normal) {o : ℕ} :
    m.contiguousFrom o ≠ 0 ↔ m.Available o := by
  obtain ⟨hmem, hmax⟩ := contiguousFrom_isGreatest hm o
  constructor
  · intro hne
    exact hmem o (Nat.le_refl o) (by omega)
  · intro hav hzero
    have hone : 1 ≤ m.contiguousFrom o := hmax fun x hx hx' => by
      obtain rfl : x = o := by omega
      exact hav
    omega

section Steps

variable {s : StreamingReader}

/-- A step of a read call changes nothing but its phase. -/
theorem inv_goTo (h : Inv s) {phase : Phase} (hphase : PhaseInv (s.goTo phase)) :
    Inv (s.goTo phase) ∧ Sound (s.goTo phase) :=
  ⟨⟨h.size_le, h.position_le, h.normal, h.available_iff, hphase⟩, sound_of_last rfl⟩

theorem inv_returnRead (h : Inv s) (bufLen : ℕ) (result : Outcome (List UInt8)) :
    Inv (s.returnRead bufLen result) :=
  ⟨h.size_le, h.position_le, h.normal, h.available_iff, trivial⟩

/-- Nothing is returned at the end of the file, or into an empty buffer. -/
theorem sound_returnRead_nil {bufLen : ℕ} (h : bufLen = 0 ∨ s.position = s.fileSize) :
    Sound (s.returnRead bufLen (.ok [])) :=
  ⟨Nat.zero_le _, rfl, nofun, nofun, fun _ => h⟩

theorem kept_read (h : Inv s) (bufLen : ℕ) : Inv (s.read bufLen) ∧ Sound (s.read bufLen) := by
  have hpos := h.position_le
  unfold StreamingReader.read
  dsimp only
  by_cases hend : s.fileSize ≤ s.position
  · rw [if_pos hend]
    exact ⟨inv_returnRead h _ _, sound_returnRead_nil (Or.inr (Nat.le_antisymm hpos hend))⟩
  · rw [if_neg hend]
    by_cases hneeded : min bufLen (s.fileSize - s.position) = 0
    · rw [if_pos hneeded]
      exact ⟨inv_returnRead h _ _, sound_returnRead_nil (Or.inl (by omega))⟩
    · rw [if_neg hneeded]
      refine inv_goTo h ⟨by omega, by omega, ?_⟩
      show s.position + min bufLen (s.fileSize - s.position) ≤ s.fileSize
      omega

theorem kept_checkMap (h : Inv s) {bufLen neededLen : ℕ} (hw : Wanted s.fileSize s.position bufLen neededLen) :
    Inv (s.checkMap bufLen neededLen) ∧ Sound (s.checkMap bufLen neededLen) := by
  have hfit : s.position + neededLen ≤ u64Max := Nat.le_trans hw.le_size h.size_le
  unfold checkMap
  split_ifs with hrange
  · exact inv_goTo h ⟨hw, (hasRange_iff h.normal hw.pos hfit).mp hrange⟩
  · exact inv_goTo h hw

theorem kept_wakeUp (h : Inv s) {bufLen neededLen : ℕ} (hw : Wanted s.fileSize s.position bufLen neededLen)
    (timeUp : Bool) :
    Inv (s.wakeUp bufLen neededLen timeUp) ∧ Sound (s.wakeUp bufLen neededLen timeUp) := by
  unfold wakeUp
  split_ifs with hcond htime
  · exact inv_goTo h ⟨hw, fun _ => hcond.imp id (contiguousFrom_ne_zero_iff h.normal).mp⟩
  · exact inv_goTo h ⟨hw, nofun⟩
  · exact inv_goTo h hw

theorem kept_afterWait (h : Inv s) {bufLen neededLen : ℕ} {timedOut : Bool}
    (hw : Wanted s.fileSize s.position bufLen neededLen)
    (hwoken : timedOut = false → s.cancelled = true ∨ s.rangeMap.Available s.position) :
    Inv (s.afterWait bufLen neededLen timedOut) ∧ Sound (s.afterWait bufLen neededLen timedOut) := by
  unfold afterWait
  split_ifs with hcancel htime
  · exact ⟨inv_returnRead h _ _, rfl⟩
  · exact ⟨inv_returnRead h _ _, rfl⟩
  · -- neither cancelled nor timed out: some byte is there, and the lock has kept it so
    have hav : s.rangeMap.Available s.position :=
      (hwoken (Bool.eq_false_iff.mpr htime)).resolve_left hcancel
    have hne := (contiguousFrom_ne_zero_iff h.normal).mpr hav
    obtain ⟨hrun, -⟩ := contiguousFrom_isGreatest h.normal s.position
    have hpos := hw.pos
    have hbuf := hw.le_buf
    have hle := hw.le_size
    refine inv_goTo h ⟨⟨by omega, by omega, ?_⟩, fun x hx hx' => hrun x hx ?_⟩
    · show s.position + min neededLen _ ≤ s.fileSize
      omega
    · have hx'' : x < s.position + min neededLen (s.rangeMap.contiguousFrom s.position) := hx'
      omega

/-- The disk gives at least one byte, and no more than it was asked for. -/
theorem bytesRead_spec {bufLen len : ℕ} (hw : Wanted s.fileSize s.position bufLen len) (count : ℕ) :
    0 < (s.bytesRead len count).length ∧ (s.bytesRead len count).length ≤ len ∧
      ∀ i < (s.bytesRead len count).length,
        (s.bytesRead len count)[i]? = some (s.content (s.position + i)) := by
  have hpos := hw.pos
  have hle := hw.le_size
  have hopen : ¬ (len = 0 ∨ s.fileSize ≤ s.position) := by omega
  unfold bytesRead
  rw [if_neg hopen]
  simp only [List.length_map, List.length_range]
  refine ⟨by omega, by omega, fun i hi => ?_⟩
  rw [List.getElem?_map, List.getElem?_range hi]
  rfl

theorem kept_readFromDisk (h : Inv s) {bufLen len : ℕ} (hw : Wanted s.fileSize s.position bufLen len)
    (hav : ∀ x, s.position ≤ x → x < s.position + len → s.rangeMap.Available x)
    (diskRead : Option ℕ) :
    Inv (s.readFromDisk bufLen len diskRead) ∧ Sound (s.readFromDisk bufLen len diskRead) := by
  unfold readFromDisk
  rw [if_neg (Nat.not_lt.mpr hw.le_buf)]
  cases diskRead with
  | none => exact ⟨inv_returnRead h _ _, rfl⟩
  | some count =>
    obtain ⟨hpos, hlen, hbytes⟩ := bytesRead_spec hw count
    have hbuf := hw.le_buf
    have hsize := hw.le_size
    have hfit : s.position + (s.bytesRead len count).length ≤ u64Max := by
      have := h.size_le
      omega
    dsimp only
    rw [checkedAdd_of_le hfit]
    refine ⟨⟨h.size_le, ?_, h.normal, h.available_iff, trivial⟩, ⟨by omega, rfl, fun i hi => ?_, hbytes,
      fun hzero => by omega⟩⟩
    · show s.position + (s.bytesRead len count).length ≤ s.fileSize
      omega
    · exact (h.available_iff _).mp (hav _ (Nat.le_add_right _ _) (by omega))

theorem kept_advance (h : Inv s) {timeUp : Bool} {diskRead : Option ℕ} {t : StreamingReader}
    (ht : s.advance timeUp diskRead = some t) : Inv t ∧ Sound t := by
  have hphase := h.phase
  unfold PhaseInv at hphase
  unfold StreamingReader.advance at ht
  cases hp : s.phase with
  | idle =>
    rw [hp] at ht
    cases ht
  | check bufLen neededLen =>
    rw [hp] at hphase ht
    cases ht
    exact kept_checkMap h hphase
  | wait bufLen neededLen =>
    rw [hp] at hphase ht
    cases ht
    exact kept_wakeUp h hphase timeUp
  | woken bufLen neededLen timedOut =>
    rw [hp] at hphase ht
    cases ht
    exact kept_afterWait h hphase.1 hphase.2
  | disk bufLen len =>
    rw [hp] at hphase ht
    cases ht
    exact kept_readFromDisk h hphase.1 hphase.2 diskRead

/-- What a read call knows stays true while the map grows. -/
theorem PhaseInv.mono {t : StreamingReader} (h : PhaseInv s) (hphase : t.phase = s.phase)
    (hsize : t.fileSize = s.fileSize) (hposition : t.position = s.position)
    (hcancel : s.cancelled = true → t.cancelled = true)
    (hav : ∀ x, s.rangeMap.Available x → t.rangeMap.Available x) : PhaseInv t := by
  unfold PhaseInv at h ⊢
  rw [hphase, hsize, hposition]
  split at h
  · trivial
  · exact h
  · exact h
  · exact ⟨h.1, fun ht => (h.2 ht).imp hcancel (hav _)⟩
  · exact ⟨h.1, fun x hx hx' => hav x (h.2 x hx hx')⟩

theorem kept_insertRange (h : Inv s) (range : ByteRange) :
    Inv (s.insertRange range) ∧ Sound (s.insertRange range) := by
  refine ⟨⟨h.size_le, h.position_le, insert_normal h.normal range, fun x => ?_, ?_⟩, sound_of_last rfl⟩
  · show (s.rangeMap.insert range).Available x ↔ ∃ r ∈ s.announced ++ [range], r.Has x
    rw [available_insert h.normal, h.available_iff]
    simp only [List.mem_append, List.mem_singleton, or_and_right, exists_or, exists_eq_left]
    exact or_comm
  · exact h.phase.mono rfl rfl rfl id fun x hx => (available_insert h.normal range x).mpr (Or.inr hx)

theorem kept_pieceCompleted (h : Inv s) {range : ByteRange} {t : StreamingReader}
    (ht : s.pieceCompleted range = some t) : Inv t ∧ Sound t := by
  unfold StreamingReader.pieceCompleted at ht
  split_ifs at ht
  cases ht
  exact kept_insertRange h range

theorem kept_cancel (h : Inv s) : Inv s.cancel ∧ Sound s.cancel :=
  ⟨⟨h.size_le, h.position_le, h.normal, h.available_iff,
    h.phase.mono rfl rfl rfl (fun _ => rfl) fun _ => id⟩, sound_of_last rfl⟩

theorem inv_seek (h : Inv s) (hidle : s.phase = .idle) (pos : SeekFrom) : Inv (s.seek pos) := by
  have hphase : ∀ t : StreamingReader, t.phase = s.phase → PhaseInv t := fun t ht => by
    unfold PhaseInv
    rw [ht, hidle]
    trivial
  unfold StreamingReader.seek
  split
  · exact ⟨h.size_le, Nat.min_le_right _ _, h.normal, h.available_iff, hphase _ rfl⟩
  · exact ⟨h.size_le, h.position_le, h.normal, h.available_iff, hphase _ rfl⟩
  · exact ⟨h.size_le, h.position_le, h.normal, h.available_iff, hphase _ rfl⟩

/-- **A seek call** ends at its target, cut to the file, exactly if it does not negate the least number. -/
theorem seek_sound_iff (h : Inv s) (pos : SeekFrom) : Sound (s.seek pos) ↔ ¬ ByMin pos := by
  unfold StreamingReader.seek
  by_cases hmin : ByMin pos
  · rw [newPos_of_byMin hmin]
    exact iff_of_false id (not_not_intro hmin)
  · obtain ⟨p, hp, hclamp⟩ := newPos_of_not_byMin h.size_le hmin
    rw [hp]
    exact iff_of_true ⟨hclamp, rfl⟩ hmin

end Steps

/-! ### Runs -/

/-- A seek call that is made does not negate the least number. -/
def Negatable (s : StreamingReader) : Action → Prop
  | .seek pos => s.phase = .idle → ¬ ByMin pos
  | .read _ | .advance .. | .pieceCompleted _ | .markComplete | .cancel | .store _ => True

theorem step_spec {s t : StreamingReader} {a : Action} (h : Inv s) (ht : s.step a = some t) :
    Inv t ∧ (Sound t ↔ Negatable s a) := by
  have hkept : Inv t ∧ Sound t → Inv t ∧ (Sound t ↔ True) := And.imp_right iff_true_intro
  cases a with
  | read bufLen =>
    unfold StreamingReader.step at ht
    split_ifs at ht
    cases ht
    exact hkept (kept_read h bufLen)
  | advance timeUp diskRead => exact hkept (kept_advance h ht)
  | seek pos =>
    unfold StreamingReader.step at ht
    split_ifs at ht with hidle
    cases ht
    exact ⟨inv_seek h hidle pos, (seek_sound_iff h pos).trans ⟨fun hs _ => hs, fun hs => hs hidle⟩⟩
  | pieceCompleted range => exact hkept (kept_pieceCompleted h ht)
  | markComplete => exact hkept (kept_pieceCompleted h ht)
  | cancel =>
    cases ht
    exact hkept (kept_cancel h)
  | store content =>
    cases ht
    exact hkept ⟨⟨h.size_le, h.position_le, h.normal, h.available_iff,
      h.phase.mono rfl rfl rfl id fun _ => id⟩, sound_of_last rfl⟩

theorem inv_newStreaming {fileSize : ℕ} (hsize : fileSize ≤ u64Max) (content : ℕ → UInt8) (mapSize : ℕ)
    (ranges : List ByteRange) : Inv (newStreaming fileSize content mapSize ranges) := by
  obtain ⟨hnormal, -, hav⟩ := insertAll_spec ranges (new_normal mapSize)
  refine ⟨hsize, Nat.zero_le _, hnormal, fun x => (hav x).trans (or_iff_left ?_), trivial⟩
  rintro ⟨r, hr, -⟩
  exact absurd hr List.not_mem_nil

/-- A complete file is one whose only range is announced. -/
theorem fromCompleteFile_eq (fileSize : ℕ) (content : ℕ → UInt8) :
    fromCompleteFile fileSize content = newStreaming fileSize content fileSize [⟨0, fileSize⟩] := by
  have hmap : ByteRangeMap.fullyAvailable fileSize =
      (ByteRangeMap.new fileSize).insertAll [⟨0, fileSize⟩] := by
    unfold ByteRangeMap.fullyAvailable ByteRangeMap.insertAll
    split_ifs with hpos
    · simp only [List.foldl_cons, List.foldl_nil]
      unfold ByteRangeMap.insert
      have hne : ¬ (⟨0, fileSize⟩ : ByteRange).isEmpty = true := by
        simpa [ByteRange.isEmpty] using Nat.ne_of_gt hpos
      rw [if_neg hne]
      rfl
    · exact (insert_of_isEmpty (Nat.not_lt.mp hpos)).symm
  unfold fromCompleteFile newStreaming
  rw [hmap]

/-- **A streaming reader is right about all calls of a run**, whatever happens between their steps, exactly
if no seek call negates the least signed number. -/
theorem reader_sound_iff {fileSize : ℕ} (hsize : fileSize ≤ u64Max) (content : ℕ → UInt8) (mapSize : ℕ)
    (ranges : List ByteRange) (actions : List Action) :
    Always StreamingReader.step Sound (newStreaming fileSize content mapSize ranges) actions ↔
      Meets StreamingReader.step Negatable (newStreaming fileSize content mapSize ranges) actions := by
  refine always_iff_meets (I := Inv) (fun s a t h _ ht => (step_spec h ht).1)
    (fun s a t h _ ht => (step_spec h ht).2) (fun s a _ _ hnone => ?_)
    (inv_newStreaming hsize content mapSize ranges) trivial
  cases a with
  | seek pos =>
    intro hidle
    have hsome : s.step (.seek pos) = some (s.seek pos) := if_pos hidle
    rw [hsome] at hnone
    cases hnone
  | read _ | advance _ _ | pieceCompleted _ | markComplete | cancel | store _ => trivial

/-- A read that waits for the first two bytes of a file of four, and a seek back by one. -/
theorem reader_sound_waiting_read :
    Always StreamingReader.step Sound (newStreaming 4 (fun _ => 7) 4 [])
      [.read 3, .advance false none, .pieceCompleted ⟨0, 2⟩, .advance false none, .advance false none,
        .advance false (some 5), .seek (.current (-1))] :=
  (reader_sound_iff (by decide) _ _ _ _).mpr
    (.cons rfl trivial (.cons rfl trivial (.cons rfl trivial (.cons rfl trivial (.cons rfl trivial
      (.cons rfl trivial (.cons rfl (fun _ => by decide) trivial)))))))

/-- The negation of the least signed number panics. -/
theorem seek_overflows : ¬ Always StreamingReader.step Sound (newStreaming 4 (fun _ => 7) 4 [])
    [.seek (.fromEnd Int64.minValue)] :=
  fun h => (h.2 _ rfl).head

end CncContent.Streaming.ReaderSpec
