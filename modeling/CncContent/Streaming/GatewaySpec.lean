import CncContent.Lib.PrefixFree
import CncContent.Streaming.Gateway
import CncContent.Streaming.ReaderSpec

/-! # What the gateway answers

A response says what the request asks for before the read, and the read stops at the edge of what is
available when the reader looks. So all responses are right exactly if every read finds the whole of its
range available, and no empty file is asked for by a suffix: its `Content-Range` announces a first byte
(`gateway_consistent_iff`). -/

namespace CncContent.Streaming.GatewaySpec

open CncContent.Lib.Bounded CncContent.Lib.Bytes CncContent.Lib.Decimal CncContent.Lib.PrefixFree
open CncContent.Lib.Runs CncContent.Streaming.ByteRanges CncContent.Streaming.ByteRangeSpec
open CncContent.Streaming.Reader CncContent.Streaming.Reader.StreamingReader
open CncContent.Streaming.ReaderSpec CncContent.Streaming.Gateway

/-! ### What is asked for -/

/-- The range that a request asks for: the whole file without a header. -/
def requested (fileSize : ℕ) : Option (List UInt8) → Except RangeError ContentSlice
  | none => .ok ⟨0, fileSize, fileSize⟩
  | some header => (RangeRequest.parse header).bind (RangeRequest.resolve fileSize)

/-- The request is for the last bytes of the file. -/
def AsksSuffix (header : Option (List UInt8)) : Prop :=
  ∃ h n, header = some h ∧ RangeRequest.parse h = .ok (.suffix n)

/-- A parsed range does not end before its start. -/
theorem le_of_parse {header : List UInt8} {start stop : ℕ} (h : RangeRequest.parse header = .ok (.bounded start stop)) :
    start ≤ stop := by
  unfold RangeRequest.parse RangeRequest.parseRest at h
  dsimp only at h
  split_ifs at h
  · split at h <;> cases h
  · split at h <;> cases h
  · split at h
    · cases h
    · split at h
      · cases h
      · split_ifs at h with hle
        cases h
        exact Nat.not_lt.mp hle

/-- A range that is resolved lies in the file; it is not empty, unless by a suffix or without a header. -/
structure Resolved (fileSize : ℕ) (header : Option (List UInt8)) (slice : ContentSlice) : Prop where
  start_le : slice.start ≤ slice.endExclusive
  end_le : slice.endExclusive ≤ fileSize
  contentLength : slice.contentLength = fileSize
  end_pos : slice.endExclusive = 0 → fileSize = 0 ∧ (header = none ∨ AsksSuffix header)

theorem resolved_of_requested {fileSize : ℕ} (hsize : fileSize ≤ u64Max) {header : Option (List UInt8)}
    {slice : ContentSlice} (h : requested fileSize header = .ok slice) : Resolved fileSize header slice := by
  cases header with
  | none =>
    cases h
    exact ⟨Nat.zero_le _, Nat.le_refl _, rfl, fun hzero => ⟨hzero, Or.inl rfl⟩⟩
  | some header =>
    replace h : (RangeRequest.parse header).bind (RangeRequest.resolve fileSize) = .ok slice := h
    cases hparse : RangeRequest.parse header with
    | error e =>
      rw [hparse] at h
      cases h
    | ok request =>
      rw [hparse] at h
      replace h : request.resolve fileSize = .ok slice := h
      cases request with
      | bounded start stop =>
        have hle := le_of_parse hparse
        unfold RangeRequest.resolve at h
        dsimp only at h
        split_ifs at h with hbeyond
        cases h
        unfold satAdd
        exact ⟨by dsimp only; omega, by dsimp only; omega, rfl, fun hzero => by dsimp only at hzero; omega⟩
      | openEnded start =>
        unfold RangeRequest.resolve at h
        dsimp only at h
        split_ifs at h with hbeyond
        cases h
        exact ⟨by dsimp only; omega, Nat.le_refl _, rfl, fun hzero => by dsimp only at hzero; omega⟩
      | suffix length =>
        cases h
        exact ⟨Nat.sub_le _ _, Nat.le_refl _, rfl,
          fun hzero => ⟨hzero, Or.inr ⟨header, length, rfl, hparse⟩⟩⟩

/-- The metadata are those of the range that is asked for. -/
def metaOf (header : Option (List UInt8)) (slice : ContentSlice) : ResponseMeta :=
  match header with
  | none => .full slice.contentLength
  | some _ => .partialContent slice

/-- **The plan of a request**: the range that it asks for, cut to the largest read. -/
theorem plan_eq_ok {fileSize : ℕ} (hsize : fileSize ≤ u64Max) {header : Option (List UInt8)}
    {metadata : ResponseMeta} {slice : ContentSlice} (h : plan fileSize header = .ok (metadata, slice)) :
    ∃ whole, requested fileSize header = .ok whole ∧ metadata = metaOf header whole ∧
      slice.start = whole.start ∧ slice.len = min whole.len maxReadSize := by
  cases header with
  | none =>
    cases h
    exact ⟨_, rfl, rfl, rfl, rfl⟩
  | some header =>
    unfold plan at h
    dsimp only at h
    cases hparse : RangeRequest.parse header with
    | error e =>
      rw [hparse] at h
      cases h
    | ok request =>
      rw [hparse] at h
      dsimp only at h
      cases hresolve : request.resolve fileSize with
      | error e =>
        rw [hresolve] at h
        cases h
      | ok whole =>
        rw [hresolve] at h
        cases h
        have hreq : requested fileSize (some header) = .ok whole := by
          show (RangeRequest.parse header).bind _ = _
          rw [hparse]
          exact hresolve
        have hle := (resolved_of_requested hsize hreq).end_le
        refine ⟨whole, hreq, rfl, rfl, ?_⟩
        unfold ContentSlice.len satAdd
        dsimp only
        omega

/-! ### Consistent responses -/

/-- `n` bytes of the file. -/
def bytesAt (content : ℕ → UInt8) (start n : ℕ) : List UInt8 :=
  (List.range n).map fun i => content (start + i)

theorem length_bytesAt (content : ℕ → UInt8) (start n : ℕ) : (bytesAt content start n).length = n := by
  unfold bytesAt
  rw [List.length_map, List.length_range]

/-- The response to a request for the slice: the body is that of the slice, up to the largest read, and
made of bytes that have been announced. If the slice is not longer than that, `Content-Length` and
`Content-Range` announce the body. -/
structure Consistent (s : StreamingReader) (slice : ContentSlice) (response : GatewayResponse) : Prop where
  body : response.body = bytesAt s.content slice.start (min slice.len maxReadSize)
  announced : ∀ i < response.body.length, ∃ r ∈ s.announced, r.Has (slice.start + i)
  contentLength : slice.len ≤ maxReadSize → response.body.length = response.metadata.contentLength
  contentRange : slice.len ≤ maxReadSize → ∀ value, response.metadata.contentRange = some value →
    ∃ first last, value = contentRangeText first last s.fileSize ∧
      response.body = bytesAt s.content first (last + 1 - first)

/-- The call that the last step has returned from is right. -/
def Sound (s : GatewayAdapter) : Prop :=
  match s.last with
  | some (header, .ok response) =>
    ∃ slice, requested s.reader.fileSize header = .ok slice ∧ Consistent s.reader slice response
  | some (_, .range _) | some (_, .readerIo ..) | none => True
  | some (_, .panicked) => False

/-- **A `Content-Range` announces one range**: its numbers can be read off. -/
theorem contentRangeText_inj {a b c a' b' c' : ℕ}
    (h : contentRangeText a b c = contentRangeText a' b' c') : a = a' ∧ b = b' := by
  have hno : ∀ (sep : UInt8) (n : ℕ), isDigit sep = false → printNat n ∈ {l : List UInt8 | sep ∉ l} :=
    fun sep n hsep hmem => by
      have hdigit := (isNumeral_iff.mp (isNumeral_printNat n)).2 sep hmem
      rw [hsep] at hdigit
      cases hdigit
  have hinj : ∀ {m n : ℕ}, printNat m = printNat n → m = n := fun {m n} he => by
    rw [← value_printNat m, he, value_printNat]
  unfold contentRangeText at h
  replace h := List.append_cancel_left h
  have hfirst := prefixFreeOn_terminated (byte '-') (hno _ a (by decide)) (hno _ a' (by decide))
    (x := printNat b ++ byte '/' :: printNat c) (y := printNat b' ++ byte '/' :: printNat c')
    (by simpa only [List.append_assoc, List.singleton_append] using h)
  have hlast := prefixFreeOn_terminated (byte '/') (hno _ b (by decide)) (hno _ b' (by decide))
    (x := printNat c) (y := printNat c')
    (by simpa only [List.append_assoc, List.singleton_append] using hfirst.2)
  exact ⟨hinj hfirst.1, hinj hlast.1⟩

theorem contentLength_metaOf {fileSize : ℕ} {header : Option (List UInt8)} {slice : ContentSlice}
    (h : requested fileSize header = .ok slice) : (metaOf header slice).contentLength = slice.len := by
  cases header with
  | none =>
    cases h
    rfl
  | some header => rfl

/-- A suffix of an empty file is empty. -/
theorem requested_of_asksSuffix {header : Option (List UInt8)} (h : AsksSuffix header) :
    requested 0 header = .ok ⟨0, 0, 0⟩ ∧ metaOf header ⟨0, 0, 0⟩ = .partialContent ⟨0, 0, 0⟩ := by
  obtain ⟨value, n, rfl, hparse⟩ := h
  refine ⟨?_, rfl⟩
  show (RangeRequest.parse value).bind _ = _
  rw [hparse]
  show Except.ok _ = Except.ok _
  rw [Nat.zero_sub]

/-- **A response with announced bytes is right** exactly if they are as many as the plan asks for, and no
suffix of an empty file. -/
theorem consistent_iff {s : StreamingReader} (hsize : s.fileSize ≤ u64Max) {header : Option (List UInt8)}
    {metadata : ResponseMeta} {slice whole : ContentSlice} (hplan : plan s.fileSize header = .ok (metadata, slice))
    (hreq : requested s.fileSize header = .ok whole) {k : ℕ}
    (hann : ∀ i < k, ∃ r ∈ s.announced, r.Has (slice.start + i)) :
    Consistent s whole ⟨metadata, bytesAt s.content slice.start k⟩ ↔
      k = slice.len ∧ ¬ (s.fileSize = 0 ∧ AsksSuffix header) := by
  obtain ⟨whole', hreq', rfl, hstart, hlen⟩ := plan_eq_ok hsize hplan
  cases hreq.symm.trans hreq'
  have hres := resolved_of_requested hsize hreq
  rw [hstart] at hann ⊢
  constructor
  · intro h
    have hk := congrArg List.length h.body
    simp only [length_bytesAt] at hk
    refine ⟨hk.trans hlen.symm, ?_⟩
    rintro ⟨hempty, hsuffix⟩
    -- the text announces the byte 0
    obtain ⟨hzero, hmeta⟩ := requested_of_asksSuffix hsuffix
    rw [hempty] at hreq
    cases hreq.symm.trans hzero
    obtain ⟨first, last, htext, hbody⟩ := h.contentRange (Nat.zero_le _) (contentRangeText 0 0 0)
      (by rw [hmeta]; rfl)
    obtain ⟨rfl, rfl⟩ := contentRangeText_inj htext
    have hone := congrArg List.length hbody
    simp only [length_bytesAt] at hone
    rw [hk] at hone
    cases hone
  · rintro ⟨rfl, hsuffix⟩
    refine ⟨by rw [hlen], by rwa [length_bytesAt], fun hle => ?_, fun hle value hvalue => ?_⟩
    · rw [length_bytesAt, hlen, contentLength_metaOf hreq]
      exact Nat.min_eq_left hle
    · cases header with
      | none => cases hvalue
      | some header =>
        cases hvalue
        have hpos : whole.endExclusive ≠ 0 := fun hzero => by
          obtain ⟨hempty, hnone | hasks⟩ := hres.end_pos hzero
          · cases hnone
          · exact hsuffix ⟨hempty, hasks⟩
        refine ⟨whole.start, whole.endExclusive - 1, by rw [hres.contentLength], ?_⟩
        show bytesAt s.content whole.start slice.len = _
        rw [hlen, Nat.min_eq_left hle]
        unfold ContentSlice.len
        congr 1
        omega

/-! ### The invariant -/

/-- Where the read of a call is: its buffer has the length of the plan, and the disk is asked for what the
reader has seen of it. -/
def ReadsFor (s : GatewayAdapter) (p : Pending) : Prop :=
  match s.reader.phase with
  | .idle => False
  | .check bufLen neededLen => bufLen = p.readLen ∧ neededLen = p.readLen
  | .wait bufLen neededLen => bufLen = p.readLen ∧ neededLen = p.readLen
  | .woken bufLen neededLen _ => bufLen = p.readLen ∧ neededLen = p.readLen
  | .disk bufLen len => bufLen = p.readLen ∧ len = min p.readLen (s.seen.contiguousFrom p.slice.start)

/-- The reader works on the plan of the call. -/
structure Serves (s : GatewayAdapter) (p : Pending) : Prop where
  plan : plan s.reader.fileSize p.header = .ok (p.metadata, p.slice)
  position : s.reader.position = p.slice.start
  reads : ReadsFor s p

structure Inv (s : GatewayAdapter) : Prop where
  reader : ReaderSpec.Inv s.reader
  pending : ∀ p, s.pending = some p → Serves s p

theorem inv_of_not_pending {s : GatewayAdapter} (h : ReaderSpec.Inv s.reader) (hnone : s.pending = none) :
    Inv s :=
  ⟨h, fun p hp => by cases hnone.symm.trans hp⟩

theorem sound_of_last_none {s : GatewayAdapter} (h : s.last = none) : Sound s := by
  unfold Sound
  rw [h]
  trivial

/-- The call is not over yet. -/
theorem collect_of_last_none {reader : StreamingReader} (hlast : reader.last = none) (seen : ByteRangeMap)
    (p : Pending) : GatewayAdapter.collect reader seen p = ⟨reader, some p, seen, none⟩ := by
  unfold GatewayAdapter.collect
  rw [hlast]

theorem collect_of_read {reader : StreamingReader} {bufLen position : ℕ} {result : Outcome (List UInt8)}
    (hlast : reader.last = some (.read bufLen position result)) (seen : ByteRangeMap) (p : Pending) :
    GatewayAdapter.collect reader seen p = ⟨reader, none, seen, some (p.header, p.finish result)⟩ := by
  unfold GatewayAdapter.collect
  rw [hlast]

/-- **A call that ends with bytes** is right exactly if they are all those of the plan. -/
theorem sound_ok_iff {s : GatewayAdapter} (hsize : s.reader.fileSize ≤ u64Max) {p : Pending}
    (hplan : plan s.reader.fileSize p.header = .ok (p.metadata, p.slice)) {k : ℕ}
    (hann : ∀ i < k, ∃ r ∈ s.reader.announced, r.Has (p.slice.start + i))
    (hlast : s.last = some (p.header, .ok ⟨p.metadata, bytesAt s.reader.content p.slice.start k⟩)) :
    Sound s ↔ k = p.readLen ∧ ¬ (s.reader.fileSize = 0 ∧ AsksSuffix p.header) := by
  obtain ⟨whole, hreq, -⟩ := plan_eq_ok hsize hplan
  unfold Sound
  rw [hlast]
  refine Iff.trans ⟨?_, fun h => ⟨whole, hreq, h⟩⟩ (consistent_iff hsize hplan hreq hann)
  rintro ⟨whole', hreq', h⟩
  cases hreq.symm.trans hreq'
  exact h

/-! ### Steps -/

section Steps

variable {s : GatewayAdapter}

/-- The call goes on. -/
theorem kept_of_going {p : Pending} {reader : StreamingReader} (hreader : ReaderSpec.Inv reader)
    (hlast : reader.last = none) (seen : ByteRangeMap) (hserves : Serves ⟨reader, some p, seen, none⟩ p) :
    Inv (GatewayAdapter.collect reader seen p) ∧ Sound (GatewayAdapter.collect reader seen p) := by
  rw [collect_of_last_none hlast]
  refine ⟨⟨hreader, fun q hq => ?_⟩, sound_of_last_none rfl⟩
  cases hq
  exact hserves

/-- The call ends with an error. -/
theorem kept_of_err {p : Pending} {reader : StreamingReader} (hreader : ReaderSpec.Inv reader)
    {bufLen position : ℕ} {e : ReadError} (hlast : reader.last = some (.read bufLen position (.err e)))
    (seen : ByteRangeMap) :
    Inv (GatewayAdapter.collect reader seen p) ∧ Sound (GatewayAdapter.collect reader seen p) := by
  rw [collect_of_read hlast]
  exact ⟨inv_of_not_pending hreader rfl, trivial⟩

theorem plan_of_asksSuffix {header : Option (List UInt8)} (h : AsksSuffix header) (fileSize : ℕ) :
    ∃ r, plan fileSize header = .ok r := by
  obtain ⟨value, n, rfl, hparse⟩ := h
  unfold plan
  dsimp only
  rw [hparse]
  exact ⟨_, rfl⟩

/-- A read of the bytes from the position on, if there are so many. -/
theorem read_eq {reader : StreamingReader} {n : ℕ} (hfit : reader.position + n ≤ reader.fileSize) :
    reader.read n = if n = 0 then reader.returnRead 0 (.ok []) else reader.goTo (.check n n) := by
  unfold StreamingReader.read
  have hmin : min n (reader.fileSize - reader.position) = n := by omega
  dsimp only
  rw [hmin]
  split_ifs with hend hzero hzero
  · rw [hzero]
  · omega
  · rw [hzero]
  · rfl

theorem serveRange_of_error {header : Option (List UInt8)} {e : RangeError}
    (h : plan s.reader.fileSize header = .error e) :
    s.serveRange header = { s with last := some (header, .range e) } := by
  unfold GatewayAdapter.serveRange
  rw [h]

theorem serveRange_of_ok {header : Option (List UInt8)} {metadata : ResponseMeta} {slice : ContentSlice}
    (h : plan s.reader.fileSize header = .ok (metadata, slice)) :
    s.serveRange header = GatewayAdapter.collect ((s.reader.seek (.start slice.start)).read slice.len) s.seen
      ⟨header, metadata, slice⟩ := by
  unfold GatewayAdapter.serveRange
  rw [h]
  rfl

/-- **A request** is answered right at once, or its reader reads, unless it is for a suffix of an empty file. -/
theorem kept_serveRange (h : Inv s) (hidle : s.reader.phase = .idle) (header : Option (List UInt8)) :
    Inv (s.serveRange header) ∧
      (Sound (s.serveRange header) ↔ ¬ (s.reader.fileSize = 0 ∧ AsksSuffix header)) := by
  have hnone : s.pending = none := Option.eq_none_iff_forall_ne_some.mpr fun p hp => by
    have hreads := (h.pending p hp).reads
    unfold ReadsFor at hreads
    rwa [hidle] at hreads
  cases hplan : plan s.reader.fileSize header with
  | error e =>
    rw [serveRange_of_error hplan]
    refine ⟨inv_of_not_pending h.reader hnone, iff_of_true trivial ?_⟩
    rintro ⟨-, hsuffix⟩
    obtain ⟨r, hr⟩ := plan_of_asksSuffix hsuffix s.reader.fileSize
    cases hplan.symm.trans hr
  | ok planned =>
    obtain ⟨metadata, slice⟩ := planned
    have hsize := h.reader.size_le
    obtain ⟨whole, hreq, -, hstart, hlen⟩ := plan_eq_ok hsize hplan
    have hres := resolved_of_requested hsize hreq
    have hfit : slice.start + slice.len ≤ s.reader.fileSize := by
      have hle := hres.start_le
      have hend := hres.end_le
      unfold ContentSlice.len at hlen ⊢
      omega
    have hseek : ReaderSpec.Inv (s.reader.seek (.start slice.start)) := inv_seek h.reader hidle _
    have hread := kept_read hseek slice.len
    have hposition : (s.reader.seek (.start slice.start)).position = slice.start :=
      Nat.min_eq_left (by omega)
    rw [serveRange_of_ok hplan]
    generalize hr : s.reader.seek (.start slice.start) = reader at hseek hread hposition
    have hfile : reader.fileSize = s.reader.fileSize := by rw [← hr]; rfl
    rw [← hfile] at hplan hfit ⊢
    rw [← hposition] at hfit
    rw [read_eq hfit] at hread ⊢
    split_ifs at hread ⊢ with hzero
    · -- without a byte to read the call is over
      rw [collect_of_read rfl]
      refine ⟨inv_of_not_pending hread.1 rfl, ?_⟩
      refine (sound_ok_iff hseek.size_le (p := ⟨header, metadata, slice⟩) hplan (k := 0) nofun rfl).trans ?_
      exact and_iff_right hzero.symm
    · have hnonempty : ¬ (reader.fileSize = 0 ∧ AsksSuffix header) := by omega
      have hgoing := kept_of_going (p := ⟨header, metadata, slice⟩) hread.1 rfl s.seen
        ⟨hplan, hposition, rfl, rfl⟩
      exact hgoing.imp_right fun hs => iff_of_true hs hnonempty

/-- A disk read that returns all it is asked for. -/
theorem readFromDisk_eq {reader : StreamingReader} {bufLen len count : ℕ}
    (hw : Wanted reader.fileSize reader.position bufLen len) (hsize : reader.fileSize ≤ u64Max)
    (hle : len ≤ count) :
    reader.readFromDisk bufLen len (some count) =
      { reader.returnRead bufLen (.ok (bytesAt reader.content reader.position len)) with
        position := reader.position + len } := by
  have hpos := hw.pos
  have hfit := hw.le_size
  have hopen : ¬ (len = 0 ∨ reader.fileSize ≤ reader.position) := by omega
  have hmin : min (max 1 count) (min len (reader.fileSize - reader.position)) = len := by omega
  have hbytes : reader.bytesRead len count = bytesAt reader.content reader.position len := by
    unfold StreamingReader.bytesRead bytesAt
    rw [if_neg hopen, hmin]
  unfold StreamingReader.readFromDisk
  rw [if_neg (Nat.not_lt.mpr hw.le_buf)]
  dsimp only
  rw [hbytes, length_bytesAt, checkedAdd_of_le (Nat.le_trans hfit hsize)]

theorem diskRead_iff {P : ℕ → ℕ → Prop} {a : Reader.Action} : s.DiskRead P a ↔
    ∃ timeUp count bufLen len, a = .advance timeUp (some count) ∧ s.reader.phase = .disk bufLen len ∧
      P len count := by
  constructor
  · intro h
    unfold GatewayAdapter.DiskRead at h
    split at h
    · split at h
      · exact ⟨_, _, _, _, rfl, ‹_›, h⟩
      all_goals exact h.elim
    all_goals exact h.elim
  · rintro ⟨timeUp, count, bufLen, len, rfl, hphase, h⟩
    unfold GatewayAdapter.DiskRead
    dsimp only
    rw [hphase]
    exact h

/-- **The read from the disk** ends the call, with all the bytes of the plan if the reader has seen them. -/
theorem sound_readFromDisk (h : Inv s) {p : Pending} (hserves : Serves s p) {bufLen len : ℕ}
    (hphase : s.reader.phase = .disk bufLen len) {count : ℕ} (hfull : len ≤ count) :
    Sound (GatewayAdapter.collect (s.reader.readFromDisk bufLen len (some count)) s.seen p) ↔
      p.readLen ≤ s.seen.contiguousFrom p.slice.start := by
  have hinv := h.reader.phase
  have hreads := hserves.reads
  unfold PhaseInv at hinv
  unfold ReadsFor at hreads
  rw [hphase] at hinv hreads
  obtain ⟨hw, hav⟩ := hinv
  have hpos := hw.pos
  have hfit := hw.le_size
  have hann : ∀ i < len, ∃ r ∈ s.reader.announced, r.Has (p.slice.start + i) := fun i hi => by
    rw [← hserves.position]
    exact (h.reader.available_iff _).mp (hav _ (Nat.le_add_right _ _) (Nat.add_lt_add_left hi _))
  have hnonempty : ¬ (s.reader.fileSize = 0 ∧ AsksSuffix p.header) := by omega
  rw [readFromDisk_eq hw h.reader.size_le hfull, hserves.position, collect_of_read rfl]
  have hsize := h.reader.size_le
  have hplan := hserves.plan
  refine Iff.trans (sound_ok_iff ?_ ?_ ?_ rfl) ((and_iff_left hnonempty).trans ?_)
  · exact hsize
  · exact hplan
  · exact hann
  rw [hreads.2]
  omega

/-- **A step of the read** keeps the call on its plan. A read from the disk ends it right exactly if all of
the plan has been seen. -/
theorem kept_readerAdvance (h : Inv s) {p : Pending} (hserves : Serves s p) {timeUp : Bool}
    {diskRead : Option ℕ} {reader : StreamingReader}
    (hfull : ¬ s.DiskRead (fun len count => count < len) (.advance timeUp diskRead))
    (hr : s.reader.advance timeUp diskRead = some reader) :
    Inv (GatewayAdapter.collect reader s.look p) ∧ (Sound (GatewayAdapter.collect reader s.look p) ↔
      (s.DiskRead (fun len count => len ≤ count) (.advance timeUp diskRead) →
        p.readLen ≤ s.seen.contiguousFrom p.slice.start)) := by
  have hreader := (ReaderSpec.kept_advance h.reader hr).1
  have hphase := h.reader.phase
  have hreads := hserves.reads
  have hnoread : (∀ bufLen len, s.reader.phase ≠ .disk bufLen len) →
      Inv (GatewayAdapter.collect reader s.look p) ∧ Sound (GatewayAdapter.collect reader s.look p) →
      Inv (GatewayAdapter.collect reader s.look p) ∧ (Sound (GatewayAdapter.collect reader s.look p) ↔
        (s.DiskRead (fun len count => len ≤ count) (.advance timeUp diskRead) →
          p.readLen ≤ s.seen.contiguousFrom p.slice.start)) := fun hne hkept =>
    hkept.imp_right fun hs => iff_of_true hs fun hdisk => by
      obtain ⟨_, _, bufLen, len, -, hdisk, -⟩ := diskRead_iff.mp hdisk
      exact absurd hdisk (hne bufLen len)
  unfold PhaseInv at hphase
  unfold ReadsFor at hreads
  unfold StreamingReader.advance at hr
  cases hp : s.reader.phase with
  | idle =>
    rw [hp] at hreads
    cases hreads
  | check bufLen neededLen =>
    refine hnoread (by rw [hp]; nofun) ?_
    rw [hp] at hreads hphase hr
    obtain ⟨rfl, rfl⟩ := hreads
    cases hr
    have hlook : s.look = s.reader.rangeMap := by
      unfold GatewayAdapter.look
      rw [hp]
    unfold checkMap at hreader ⊢
    split_ifs at hreader ⊢ with hrange
    · refine kept_of_going hreader rfl _ ⟨hserves.plan, hserves.position, rfl, ?_⟩
      have hfit := Nat.le_trans hphase.le_size h.reader.size_le
      have hrun := (hasRange_iff h.reader.normal hphase.pos hfit).mp hrange
      have hle := (contiguousFrom_isGreatest h.reader.normal s.reader.position).2 hrun
      show p.readLen = min p.readLen (s.look.contiguousFrom p.slice.start)
      rw [hlook, ← hserves.position]
      exact (Nat.min_eq_left hle).symm
    · exact kept_of_going hreader rfl _ ⟨hserves.plan, hserves.position, rfl, rfl⟩
  | wait bufLen neededLen =>
    refine hnoread (by rw [hp]; nofun) ?_
    rw [hp] at hreads hr
    obtain ⟨rfl, rfl⟩ := hreads
    cases hr
    unfold wakeUp at hreader ⊢
    split_ifs at hreader ⊢ with hcond htime
    · exact kept_of_going hreader rfl _ ⟨hserves.plan, hserves.position, rfl, rfl⟩
    · exact kept_of_going hreader rfl _ ⟨hserves.plan, hserves.position, rfl, rfl⟩
    · exact kept_of_going hreader rfl _ ⟨hserves.plan, hserves.position, rfl, rfl⟩
  | woken bufLen neededLen timedOut =>
    refine hnoread (by rw [hp]; nofun) ?_
    rw [hp] at hreads hr
    obtain ⟨rfl, rfl⟩ := hreads
    cases hr
    have hlook : s.look = s.reader.rangeMap := by
      unfold GatewayAdapter.look
      rw [hp]
    unfold afterWait at hreader ⊢
    split_ifs at hreader ⊢ with hcancel htime
    · exact kept_of_err hreader rfl _
    · exact kept_of_err hreader rfl _
    · refine kept_of_going hreader rfl _ ⟨hserves.plan, hserves.position, rfl, ?_⟩
      show _ = min p.readLen (s.look.contiguousFrom p.slice.start)
      rw [hlook, hserves.position]
  | disk bufLen len =>
    have hlook : s.look = s.seen := by
      unfold GatewayAdapter.look
      rw [hp]
    rw [hp] at hphase hr
    cases hr
    rw [hlook]
    cases diskRead with
    | none =>
      unfold readFromDisk at hreader ⊢
      rw [if_neg (Nat.not_lt.mpr hphase.1.le_buf)] at hreader ⊢
      refine (kept_of_err hreader rfl _).imp_right fun hs => iff_of_true hs fun hdisk => ?_
      obtain ⟨_, _, _, _, hnone, -⟩ := diskRead_iff.mp hdisk
      cases hnone
    | some count =>
      have hle : len ≤ count := Nat.not_lt.mp fun hlt =>
        hfull (diskRead_iff.mpr ⟨_, _, _, _, rfl, hp, hlt⟩)
      have hdisk := diskRead_iff.mpr ⟨timeUp, count, bufLen, len, rfl, hp, hle⟩
      refine ⟨?_, (sound_readFromDisk h hserves hp hle).trans ⟨fun hc _ => hc, fun hc => hc hdisk⟩⟩
      rw [readFromDisk_eq hphase.1 h.reader.size_le hle] at hreader ⊢
      rw [collect_of_read rfl]
      exact inv_of_not_pending hreader rfl

/-- A step that does not touch the read. -/
theorem kept_of_same {p : Pending} (hserves : Serves s p) {reader : StreamingReader}
    (hreader : ReaderSpec.Inv reader) (hlast : reader.last = none) (hphase : reader.phase = s.reader.phase)
    (hsize : reader.fileSize = s.reader.fileSize) (hposition : reader.position = s.reader.position) :
    Inv (GatewayAdapter.collect reader s.look p) ∧ Sound (GatewayAdapter.collect reader s.look p) := by
  refine kept_of_going hreader hlast _ ⟨?_, hposition.trans hserves.position, ?_⟩
  · show plan reader.fileSize p.header = _
    rw [hsize]
    exact hserves.plan
  · have hreads := hserves.reads
    unfold ReadsFor at hreads ⊢
    dsimp only
    rw [hphase]
    cases hp : s.reader.phase with
    | idle =>
      rw [hp] at hreads
      exact hreads
    | check bufLen neededLen | wait bufLen neededLen | woken bufLen neededLen timedOut =>
      rw [hp] at hreads
      exact hreads
    | disk bufLen len =>
      rw [hp] at hreads
      unfold GatewayAdapter.look
      rw [hp]
      exact hreads

theorem eq_of_pieceCompleted {reader reader' : StreamingReader} {range : ByteRange}
    (h : reader.pieceCompleted range = some reader') : reader' = reader.insertRange range := by
  unfold StreamingReader.pieceCompleted at h
  split_ifs at h
  exact (Option.some.inj h).symm

/-- What a step keeps right. -/
def Covered (s : GatewayAdapter) : Gateway.Action → Prop
  | .serve header => s.reader.phase = .idle → ¬ (s.reader.fileSize = 0 ∧ AsksSuffix header)
  | .reader a => ∀ p, s.pending = some p → s.DiskRead (fun len count => len ≤ count) a →
      p.readLen ≤ s.seen.contiguousFrom p.slice.start

/-- **A step of the reader** keeps a call on its plan, and ends it right exactly if the reader has seen all of
the plan. -/
theorem kept_reader (h : Inv s) {p : Pending} (hp : s.pending = some p) {a : Reader.Action}
    (hfull : ¬ s.DiskRead (fun len count => count < len) a) {reader : StreamingReader}
    (hr : s.reader.step a = some reader) :
    Inv (GatewayAdapter.collect reader s.look p) ∧
      (Sound (GatewayAdapter.collect reader s.look p) ↔ Covered s (.reader a)) := by
  have hserves := h.pending p hp
  have hreader := (ReaderSpec.step_spec h.reader hr).1
  have hcovered : Covered s (.reader a) ↔ (s.DiskRead (fun len count => len ≤ count) a →
      p.readLen ≤ s.seen.contiguousFrom p.slice.start) :=
    ⟨fun hc => hc p hp, fun hc q hq => by
      cases hp.symm.trans hq
      exact hc⟩
  rw [hcovered]
  have hsame : (∀ timeUp diskRead, a ≠ .advance timeUp diskRead) →
      Inv (GatewayAdapter.collect reader s.look p) ∧ Sound (GatewayAdapter.collect reader s.look p) →
      Inv (GatewayAdapter.collect reader s.look p) ∧ (Sound (GatewayAdapter.collect reader s.look p) ↔
        (s.DiskRead (fun len count => len ≤ count) a →
          p.readLen ≤ s.seen.contiguousFrom p.slice.start)) := fun hne hkept =>
    hkept.imp_right fun hs => iff_of_true hs fun hdisk => by
      obtain ⟨timeUp, count, _, _, rfl, -⟩ := diskRead_iff.mp hdisk
      exact absurd rfl (hne timeUp (some count))
  have hbusy : s.reader.phase ≠ .idle := fun hidle => by
    have hreads := hserves.reads
    unfold ReadsFor at hreads
    rwa [hidle] at hreads
  cases a with
  | read bufLen =>
    replace hr : (if s.reader.phase = .idle then some (s.reader.read bufLen) else none) = some reader := hr
    rw [if_neg hbusy] at hr
    cases hr
  | advance timeUp diskRead => exact kept_readerAdvance h hserves hfull hr
  | seek pos =>
    replace hr : (if s.reader.phase = .idle then some (s.reader.seek pos) else none) = some reader := hr
    rw [if_neg hbusy] at hr
    cases hr
  | pieceCompleted range =>
    obtain rfl := eq_of_pieceCompleted hr
    exact hsame nofun (kept_of_same hserves hreader rfl rfl rfl rfl)
  | markComplete =>
    obtain rfl := eq_of_pieceCompleted hr
    exact hsame nofun (kept_of_same hserves hreader rfl rfl rfl rfl)
  | cancel =>
    cases hr
    exact hsame nofun (kept_of_same hserves hreader rfl rfl rfl rfl)
  | store content =>
    cases hr
    exact hsame nofun (kept_of_same hserves hreader rfl rfl rfl rfl)

theorem step_spec {t : GatewayAdapter} {a : Gateway.Action} (h : Inv s) (ht : s.step a = some t) :
    Inv t ∧ (Sound t ↔ Covered s a) := by
  cases a with
  | serve header =>
    unfold GatewayAdapter.step at ht
    split_ifs at ht with hidle
    cases ht
    exact (kept_serveRange h hidle header).imp_right fun hs => hs.trans ⟨fun hc _ => hc, fun hc => hc hidle⟩
  | reader a =>
    replace ht : s.readerStep a = some t := ht
    unfold GatewayAdapter.readerStep at ht
    split_ifs at ht with hfull
    cases hr : s.reader.step a with
    | none =>
      rw [hr] at ht
      cases ht
    | some reader =>
      rw [hr] at ht
      cases hp : s.pending with
      | none =>
        rw [hp] at ht
        cases ht
        have hreader := (ReaderSpec.step_spec h.reader hr).1
        exact ⟨inv_of_not_pending hreader rfl, iff_of_true trivial fun p hq => by cases hp.symm.trans hq⟩
      | some p =>
        rw [hp] at ht
        cases ht
        exact kept_reader h hp hfull hr

/-- A step that is not possible asks for nothing. -/
theorem covered_of_none {a : Gateway.Action} (hnone : s.step a = none) : Covered s a := by
  cases a with
  | serve header =>
    intro hidle
    have hsome : s.step (.serve header) = some (s.serveRange header) := if_pos hidle
    rw [hsome] at hnone
    cases hnone
  | reader a =>
    intro p hp hdisk
    obtain ⟨timeUp, count, bufLen, len, rfl, hphase, hle⟩ := diskRead_iff.mp hdisk
    have hfull : ¬ s.DiskRead (fun len count => count < len) (.advance timeUp (some count)) := fun hpartial => by
      obtain ⟨_, _, _, _, heq, hphase', hlt⟩ := diskRead_iff.mp hpartial
      cases heq
      cases hphase.symm.trans hphase'
      exact Nat.not_lt.mpr hle hlt
    have hstep : s.reader.step (.advance timeUp (some count)) =
        some (s.reader.readFromDisk bufLen len (some count)) := by
      unfold StreamingReader.step StreamingReader.advance
      dsimp only
      rw [hphase]
    replace hnone : s.readerStep (.advance timeUp (some count)) = none := hnone
    unfold GatewayAdapter.readerStep at hnone
    rw [if_neg hfull, hstep, hp] at hnone
    cases hnone

end Steps

/-! ### Runs -/

/-- **The responses of a gateway** are consistent throughout a run, whatever happens between the steps of its
reader, exactly if every disk read that answers a request finds that the reader has seen the whole of the
range to be read as available, and no suffix of an empty file is asked for. -/
theorem gateway_consistent_iff {fileSize : ℕ} (hsize : fileSize ≤ u64Max) (content : ℕ → UInt8)
    (mapSize : ℕ) (ranges : List ByteRange) (actions : List Gateway.Action) :
    Always GatewayAdapter.step Sound (.new (newStreaming fileSize content mapSize ranges)) actions ↔
      Meets GatewayAdapter.step Covered (.new (newStreaming fileSize content mapSize ranges)) actions :=
  always_iff_meets (I := Inv) (fun _ _ _ h _ ht => (step_spec h ht).1)
    (fun _ _ _ h _ ht => (step_spec h ht).2) (fun _ _ _ _ hnone => covered_of_none hnone)
    (inv_of_not_pending (inv_newStreaming hsize content mapSize ranges) rfl) trivial

/-- Two of four bytes are asked for, and both are announced while the reader waits. -/
theorem gateway_consistent_waiting :
    Always GatewayAdapter.step Sound (.new (newStreaming 4 (fun _ => 7) 4 []))
      [.serve (some (text "bytes=1-2")), .reader (.advance false none), .reader (.pieceCompleted ⟨0, 3⟩),
        .reader (.advance false none), .reader (.advance false none), .reader (.advance false (some 2))] := by
  refine (gateway_consistent_iff (by decide) _ _ _ _).mpr ?_
  have hnoread : ∀ {s : GatewayAdapter} {a : Reader.Action}, ¬ s.DiskRead (fun len count => len ≤ count) a →
      Covered s (.reader a) := fun h _ _ hdisk => absurd hdisk h
  refine .cons rfl (fun _ h => absurd h.1 (by decide)) (.cons rfl (hnoread id) (.cons rfl (hnoread id)
    (.cons rfl (hnoread id) (.cons rfl (hnoread id) (.cons rfl (fun p hp _ => ?_) trivial)))))
  cases hp
  decide

/-- Half of the file is there: the response announces four bytes and carries two. -/
theorem half_served :
    ¬ Always GatewayAdapter.step Sound (.new (newStreaming 4 (fun _ => 7) 4 [⟨0, 2⟩]))
      [.serve none, .reader (.advance false none), .reader (.advance false none),
        .reader (.advance false none), .reader (.advance false (some 2))] := by
  intro h
  obtain ⟨slice, hslice, hresponse⟩ := ((((h.2 _ rfl).2 _ rfl).2 _ rfl).2 _ rfl |>.2 _ rfl).head
  cases hslice
  have hlength := hresponse.contentLength (by decide)
  revert hlength
  decide

end CncContent.Streaming.GatewaySpec
