import CncContent.Lib.Chunks
import CncContent.Torrent.Create

/-! # Creation from a file and from a stream

Both ways hash the chunks of the content: `create_torrent` reads them one by one (`createTorrent_eq`),
and a builder holds the whole chunks of what it was fed with and the bytes behind them (`Fed`), however
these were cut into writes (`buildTorrent_eq`). Hence they agree, unless the read buffer is too large
(`builder_agrees_iff`). -/

namespace CncContent.Torrent.CreateAgree

open CncContent.Lib.Bounded CncContent.Lib.Bytes CncContent.Lib.Chunks CncContent.Lib.Loop
open CncContent.Torrent.Create

variable {sha1 : List UInt8 → Vector UInt8 20}

/-- The hashes of the blocks. -/
def hashes (sha1 : List UInt8 → Vector UInt8 20) (blocks : List (List UInt8)) : List UInt8 :=
  blocks.flatMap fun block => (sha1 block).toList

theorem hashes_concat (blocks : List (List UInt8)) (block : List UInt8) :
    hashes sha1 (blocks ++ [block]) = hashes sha1 blocks ++ (sha1 block).toList := by
  unfold hashes
  rw [List.flatMap_append, List.flatMap_singleton]

/-! ### From a file -/

section File

variable {f : SourceFile} {pieceLength : ℕ}

theorem readCount_le (call room : ℕ) (rest : List UInt8) :
    f.readCount call room rest ≤ room ∧ f.readCount call room rest ≤ rest.length := by
  unfold SourceFile.readCount
  split_ifs <;> omega

theorem readCount_eq_zero {call room : ℕ} {rest : List UInt8} (hroom : 0 < room)
    (h : f.readCount call room rest = 0) : rest = [] := by
  unfold SourceFile.readCount at h
  refine List.eq_nil_of_length_eq_zero ?_
  split_ifs at h <;> omega

/-- What has been read into the buffer and what is left make up `rest`. -/
def Filling (pieceLength : ℕ) (rest : List UInt8) (s : SourceFile.Reading) : Prop :=
  s.buf ++ s.rest = rest ∧ s.buf.length ≤ pieceLength

/-- The buffer holds the first block of `rest`. -/
def Filled (pieceLength : ℕ) (rest : List UInt8) (s : SourceFile.Reading) : Prop :=
  s.buf = rest.take pieceLength ∧ s.rest = rest.drop pieceLength

theorem filled_of_length {rest : List UInt8} {s : SourceFile.Reading} (h : s.buf ++ s.rest = rest)
    (hlen : s.buf.length = pieceLength) : Filled pieceLength rest s := by
  subst h hlen
  exact ⟨List.take_left.symm, List.drop_left.symm⟩

/-- One read into the buffer. -/
theorem readRound_step {rest : List UInt8} {s : SourceFile.Reading}
    (hs : Filling pieceLength rest s) :
    (∃ t, f.readRound pieceLength s = some (true, t) ∧ Filling pieceLength rest t ∧
      t.rest.length < s.rest.length) ∨
    ∃ t, f.readRound pieceLength s = some (false, t) ∧ Filled pieceLength rest t := by
  obtain ⟨hall, hle⟩ := hs
  unfold SourceFile.readRound
  by_cases hlt : s.buf.length < pieceLength
  · rw [if_pos hlt]
    obtain ⟨hroom, hrest⟩ := readCount_le (f := f) s.call (pieceLength - s.buf.length) s.rest
    have hzero : f.readCount s.call (pieceLength - s.buf.length) s.rest = 0 → s.rest = [] :=
      readCount_eq_zero (Nat.sub_pos_of_lt hlt)
    generalize f.readCount s.call (pieceLength - s.buf.length) s.rest = n at hroom hrest hzero
    by_cases hn : n = 0
    · have hend := hzero hn
      rw [hend, List.append_nil] at hall
      refine Or.inr ⟨⟨s.buf ++ s.rest.take n, s.rest.drop n, s.call + 1⟩, ?_, ?_, ?_⟩
      · show some (decide (n ≠ 0), _) = _
        rw [decide_eq_false fun hne => hne hn]
      · rw [hend, List.take_nil, List.append_nil, ← hall, List.take_of_length_le hle]
      · rw [hend, List.drop_nil, ← hall, List.drop_of_length_le hle]
    · refine Or.inl ⟨⟨s.buf ++ s.rest.take n, s.rest.drop n, s.call + 1⟩, ?_, ⟨?_, ?_⟩, ?_⟩
      · show some (decide (n ≠ 0), _) = _
        rw [decide_eq_true hn]
      · rw [List.append_assoc, List.take_append_drop, hall]
      · rw [List.length_append, List.length_take]
        omega
      · rw [List.length_drop]
        omega
  · rw [if_neg hlt]
    exact Or.inr ⟨s, rfl, filled_of_length hall (Nat.le_antisymm hle (Nat.le_of_not_lt hlt))⟩

/-- **The buffer is filled**, or the file is at its end. -/
theorem fill_eq (f : SourceFile) (pieceLength : ℕ) (rest : List UInt8) (call : ℕ) :
    ∃ t, loop (f.readRound pieceLength) (rest.length + 1) ⟨[], rest, call⟩ = some t ∧
      Filled pieceLength rest t :=
  loop_total (I := Filling pieceLength rest) (Q := Filled pieceLength rest)
    (fun s => s.rest.length) (fun _ => readRound_step) ⟨List.nil_append rest, Nat.zero_le _⟩

/-- What has been hashed are the chunks of the content before those of the rest. -/
def Hashed (sha1 : List UInt8 → Vector UInt8 20) (pieceLength : ℕ) (content : List UInt8)
    (s : SourceFile.Hashing) : Prop :=
  ∃ blocks, chunks pieceLength content = blocks ++ chunks pieceLength s.rest ∧
    s.pieces = hashes sha1 blocks ∧ s.pieceCount = blocks.length

/-- All chunks have been hashed. -/
def HashedAll (sha1 : List UInt8 → Vector UInt8 20) (pieceLength : ℕ) (content : List UInt8)
    (s : SourceFile.Hashing) : Prop :=
  s.pieces = hashes sha1 (chunks pieceLength content) ∧
    s.pieceCount = (chunks pieceLength content).length

theorem hashRound_step (hpos : 0 < pieceLength) {content : List UInt8} {s : SourceFile.Hashing}
    (hs : Hashed sha1 pieceLength content s) :
    (∃ t, f.hashRound sha1 pieceLength s = some (true, t) ∧ Hashed sha1 pieceLength content t ∧
      t.rest.length < s.rest.length) ∨
    ∃ t, f.hashRound sha1 pieceLength s = some (false, t) ∧ HashedAll sha1 pieceLength content t := by
  obtain ⟨blocks, hchunks, hpieces, hcount⟩ := hs
  obtain ⟨r, hfill, hbuf, hrest⟩ := fill_eq f pieceLength s.rest s.call
  unfold SourceFile.hashRound
  rw [hfill]
  rcases List.eq_nil_or_concat' s.rest with hnil | hne
  · have hempty : r.buf = [] := by rw [hbuf, hnil, List.take_nil]
    refine Or.inr ⟨⟨s.pieces, s.pieceCount, r.rest, r.call⟩, ?_, ?_⟩
    · show (if r.buf.isEmpty = true then _ else _) = _
      rw [hempty]
      rfl
    · rw [hnil, chunks_nil, List.append_nil] at hchunks
      rw [HashedAll, hchunks]
      exact ⟨hpieces, hcount⟩
  · have hne : s.rest ≠ [] := by
      obtain ⟨l, a, hl⟩ := hne
      rw [hl]
      exact List.concat_ne_nil a l
    have hlen := List.length_pos_iff.mpr hne
    have hbuf_ne : r.buf.isEmpty = false := by
      rw [List.isEmpty_eq_false_iff, ← List.length_pos_iff, hbuf, List.length_take]
      omega
    refine Or.inl ⟨⟨s.pieces ++ (sha1 r.buf).toList, s.pieceCount + 1, r.rest, r.call⟩, ?_, ?_, ?_⟩
    · show (if r.buf.isEmpty = true then _ else _) = _
      rw [hbuf_ne]
      rfl
    · refine ⟨blocks ++ [r.buf], ?_, ?_, ?_⟩
      · rw [hchunks, chunks_of_ne_nil hpos hne, ← hbuf, ← hrest, List.append_assoc]
        rfl
      · rw [hashes_concat, ← hpieces]
      · rw [List.length_append, ← hcount]
        rfl
    · show r.rest.length < _
      rw [hrest, List.length_drop]
      omega

/-- The metadata of a content. -/
def metadataOf (sha1 : List UInt8 → Vector UInt8 20) (fileName : Text) (content : List UInt8)
    (pieceLength : ℕ) (trackers webSeeds : List Text) : TorrentMetadata :=
  torrentMetadata sha1 fileName content.length pieceLength
    (hashes sha1 (chunks pieceLength content)) (chunks pieceLength content).length trackers webSeeds

/-- **From a file**: the chunks of the content are hashed. -/
theorem createTorrent_eq {trackers webSeeds : List Text} (hpos : 0 < pieceLength)
    (hmax : pieceLength ≤ isizeMax) (hne : f.content ≠ []) :
    createTorrent sha1 f pieceLength trackers webSeeds =
      some (.ok (metadataOf sha1 f.name f.content pieceLength trackers webSeeds)) := by
  obtain ⟨t, ht, hpieces, hcount⟩ := loop_total (I := Hashed sha1 pieceLength f.content)
    (Q := HashedAll sha1 pieceLength f.content) (fun s : SourceFile.Hashing => s.rest.length)
    (fun _ => hashRound_step (f := f) hpos) (s := ⟨[], 0, f.content, 0⟩) ⟨[], rfl, rfl, rfl⟩
  have hlen : f.content.length ≠ 0 := fun h => hne (List.eq_nil_of_length_eq_zero h)
  have hok : ¬ (pieceLength = 0 ∨ isizeMax < pieceLength) := by omega
  unfold createTorrent
  rw [if_neg hlen, if_neg hok]
  show (loop (f.hashRound sha1 pieceLength) (f.content.length + 1) _ >>= _) = _
  rw [ht]
  show some (Except.ok (torrentMetadata sha1 _ _ _ t.pieces t.pieceCount _ _)) = _
  rw [hpieces, hcount]
  rfl

end File

/-! ### From a stream -/

/-- The builder has been fed with whole blocks, which are hashed, and the bytes of the current piece. -/
structure Fed (sha1 : List UInt8 → Vector UInt8 20) (fileName : Text) (pieceLength : ℕ)
    (fed : List UInt8) (blocks : List (List UInt8)) (b : TorrentBuilder) : Prop where
  fed_eq : fed = blocks.flatten ++ b.currentHasher
  blocks_length : ∀ block ∈ blocks, block.length = pieceLength
  current_lt : b.currentHasher.length < pieceLength
  current_eq : b.currentPieceBytes = b.currentHasher.length
  total_eq : b.totalBytes = fed.length
  pieces_eq : b.pieces = hashes sha1 blocks
  count_eq : b.pieceCount = blocks.length
  name_eq : b.fileName = fileName
  pieceLength_eq : b.pieceLength = pieceLength

section Stream

variable {fileName : Text} {pieceLength : ℕ} {b : TorrentBuilder} {fed : List UInt8}
  {blocks : List (List UInt8)}

theorem fed_new (hpos : 0 < pieceLength) :
    Fed sha1 fileName pieceLength [] [] (.new fileName pieceLength) :=
  ⟨rfl, nofun, hpos, rfl, rfl, rfl, rfl, rfl, rfl⟩

/-- Bytes that do not fill the piece. -/
theorem Fed.feed (h : Fed sha1 fileName pieceLength fed blocks b) {slice : List UInt8}
    (hlt : b.currentHasher.length + slice.length < pieceLength)
    (hmax : (fed ++ slice).length ≤ u64Max) :
    Fed sha1 fileName pieceLength (fed ++ slice) blocks (b.feed slice) := by
  have htotal := hmax
  rw [List.length_append] at htotal
  have hcurrent : b.currentHasher.length ≤ fed.length := by
    rw [h.fed_eq, List.length_append]
    exact Nat.le_add_left _ _
  refine ⟨?_, h.blocks_length, ?_, ?_, ?_, h.pieces_eq, h.count_eq, h.name_eq, h.pieceLength_eq⟩
  · rw [h.fed_eq, List.append_assoc]
    rfl
  · exact List.length_append.trans_lt hlt
  · show satAdd u64Max _ _ = _
    rw [h.current_eq, satAdd_of_le (by omega)]
    exact List.length_append.symm
  · show satAdd u64Max _ _ = _
    rw [h.total_eq, satAdd_of_le htotal, List.length_append]

/-- Bytes that fill the piece. -/
theorem Fed.finish (h : Fed sha1 fileName pieceLength fed blocks b) {slice : List UInt8}
    (heq : b.currentHasher.length + slice.length = pieceLength)
    (hmax : (fed ++ slice).length ≤ u64Max) :
    Fed sha1 fileName pieceLength (fed ++ slice) (blocks ++ [b.currentHasher ++ slice])
      { (b.feed slice).finishPiece sha1 with currentPieceBytes := 0 } := by
  have htotal := hmax
  rw [List.length_append] at htotal
  have hblock : (b.currentHasher ++ slice).length = pieceLength := List.length_append.trans heq
  have hpos := Nat.zero_lt_of_lt h.current_lt
  refine ⟨?_, ?_, hpos, rfl, ?_, ?_, ?_, h.name_eq, h.pieceLength_eq⟩
  · rw [h.fed_eq, List.flatten_append, List.flatten_singleton, List.append_assoc, List.append_assoc]
    exact congrArg _ (List.append_nil _).symm
  · intro block hmem
    rcases List.mem_append.mp hmem with hmem | hmem
    · exact h.blocks_length block hmem
    · rw [List.mem_singleton.mp hmem]
      exact hblock
  · show satAdd u64Max _ _ = _
    rw [h.total_eq, satAdd_of_le htotal, List.length_append]
  · rw [hashes_concat, ← h.pieces_eq]
    rfl
  · rw [List.length_append, ← h.count_eq]
    rfl

/-- **Bytes of one piece**, which may be full then. -/
theorem Fed.feed_endPiece (h : Fed sha1 fileName pieceLength fed blocks b) {slice : List UInt8}
    (hle : b.currentHasher.length + slice.length ≤ pieceLength)
    (hmax : (fed ++ slice).length ≤ u64Max) :
    ∃ blocks', Fed sha1 fileName pieceLength (fed ++ slice) blocks' ((b.feed slice).endPiece sha1) := by
  have htotal := hmax
  rw [List.length_append] at htotal
  have hcurrent : b.currentHasher.length ≤ fed.length := by
    rw [h.fed_eq, List.length_append]
    exact Nat.le_add_left _ _
  have hbytes : (b.feed slice).currentPieceBytes = b.currentHasher.length + slice.length := by
    show satAdd u64Max _ _ = _
    rw [h.current_eq, satAdd_of_le (by omega)]
  have hlength : (b.feed slice).pieceLength = pieceLength := h.pieceLength_eq
  unfold TorrentBuilder.endPiece
  rw [hbytes, hlength]
  by_cases hfull : pieceLength ≤ b.currentHasher.length + slice.length
  · rw [if_pos hfull]
    exact ⟨_, h.finish (Nat.le_antisymm hle hfull) hmax⟩
  · rw [if_neg hfull]
    exact ⟨_, h.feed (Nat.lt_of_not_le hfull) hmax⟩

/-- The state of `write`: what has been fed and what is left of the data. -/
def Writing (sha1 : List UInt8 → Vector UInt8 20) (fileName : Text) (pieceLength : ℕ)
    (all : List UInt8) (s : TorrentBuilder × List UInt8) : Prop :=
  ∃ fed blocks, Fed sha1 fileName pieceLength fed blocks s.1 ∧ fed ++ s.2 = all

theorem writeRound_step {all : List UInt8} (hmax : all.length ≤ u64Max)
    {s : TorrentBuilder × List UInt8} (hs : Writing sha1 fileName pieceLength all s) :
    (∃ t, TorrentBuilder.writeRound sha1 s = some (true, t) ∧
      Writing sha1 fileName pieceLength all t ∧ t.2.length < s.2.length) ∨
    ∃ t, TorrentBuilder.writeRound sha1 s = some (false, t) ∧
      ∃ blocks, Fed sha1 fileName pieceLength all blocks t.1 := by
  obtain ⟨b, data⟩ := s
  obtain ⟨fed, blocks, hfed, hall⟩ := hs
  dsimp only at hfed hall
  rcases hdata : data.isEmpty with _ | _
  · have hlen : 0 < data.length := List.length_pos_iff.mpr (List.isEmpty_eq_false_iff.mp hdata)
    have hcurrent := hfed.current_lt
    have htake : b.takeCount data = min (pieceLength - b.currentHasher.length) data.length := by
      unfold TorrentBuilder.takeCount
      rw [hfed.pieceLength_eq, hfed.current_eq]
    have hround : TorrentBuilder.writeRound sha1 (b, data) =
        some (true, (b.feed (data.take (b.takeCount data))).endPiece sha1,
          data.drop (b.takeCount data)) := by
      unfold TorrentBuilder.writeRound
      rw [hdata]
      rfl
    have hjoin : fed ++ data.take (b.takeCount data) ++ data.drop (b.takeCount data) = all := by
      rw [List.append_assoc, List.take_append_drop, hall]
    have hslice : (data.take (b.takeCount data)).length = b.takeCount data :=
      List.length_take_of_le (Nat.min_le_right _ _)
    have hmax' : (fed ++ data.take (b.takeCount data)).length ≤ u64Max := by
      have hsum := congrArg List.length hjoin
      rw [List.length_append] at hsum
      omega
    obtain ⟨blocks', hfed'⟩ := hfed.feed_endPiece (by rw [hslice, htake]; omega) hmax'
    refine Or.inl ⟨_, hround, ⟨_, blocks', hfed', hjoin⟩, ?_⟩
    show (data.drop _).length < data.length
    rw [List.length_drop, htake]
    omega
  · have hnil := List.isEmpty_iff.mp hdata
    subst hnil
    rw [List.append_nil] at hall
    exact Or.inr ⟨(b, []), rfl, blocks, hall ▸ hfed⟩

/-- **One write** feeds its data. -/
theorem Fed.write (h : Fed sha1 fileName pieceLength fed blocks b) {data : List UInt8}
    (hmax : (fed ++ data).length ≤ u64Max) :
    ∃ b' blocks', b.write sha1 data = some b' ∧
      Fed sha1 fileName pieceLength (fed ++ data) blocks' b' := by
  obtain ⟨t, ht, blocks', hfed⟩ := loop_total (I := Writing sha1 fileName pieceLength (fed ++ data))
    (fun s : TorrentBuilder × List UInt8 => s.2.length) (fun _ => writeRound_step hmax)
    (s := (b, data)) ⟨fed, blocks, h, rfl⟩
  refine ⟨t.1, blocks', ?_, hfed⟩
  unfold TorrentBuilder.write
  rw [ht]
  rfl

/-- **All writes**, one after the other. -/
theorem Fed.writes : ∀ {writes : List (List UInt8)} {b : TorrentBuilder} {fed : List UInt8}
    {blocks : List (List UInt8)}, Fed sha1 fileName pieceLength fed blocks b →
    (fed ++ writes.flatten).length ≤ u64Max →
    ∃ b' blocks', writes.foldlM (TorrentBuilder.write sha1) b = some b' ∧
      Fed sha1 fileName pieceLength (fed ++ writes.flatten) blocks' b'
  | [], b, fed, blocks, h, _ => ⟨b, blocks, rfl, by rw [List.flatten_nil, List.append_nil]; exact h⟩
  | data :: writes, b, fed, blocks, h, hmax => by
    rw [List.flatten_cons, ← List.append_assoc] at hmax
    have hmax' : (fed ++ data).length ≤ u64Max := by
      rw [List.length_append] at hmax
      omega
    obtain ⟨b', blocks', hwrite, h'⟩ := h.write hmax'
    obtain ⟨b'', blocks'', hwrites, h''⟩ := Fed.writes h' hmax
    refine ⟨b'', blocks'', ?_, ?_⟩
    · rw [List.foldlM_cons, hwrite]
      exact hwrites
    · rw [List.flatten_cons, ← List.append_assoc]
      exact h''

/-- The chunks of what has been fed. -/
theorem Fed.chunks_eq (h : Fed sha1 fileName pieceLength fed blocks b) :
    chunks pieceLength fed = blocks ++ if 0 < b.currentPieceBytes then [b.currentHasher] else [] := by
  have hlt := h.current_lt
  have hpos := Nat.zero_lt_of_lt hlt
  rw [h.fed_eq, chunks_append hpos _ h.blocks_length, h.current_eq]
  by_cases hempty : b.currentHasher = []
  · rw [hempty, chunks_nil]
    rfl
  · rw [chunks_of_length_le hpos hempty (Nat.le_of_lt hlt), if_pos (List.length_pos_iff.mpr hempty)]

theorem Fed.finalize (h : Fed sha1 fileName pieceLength fed blocks b) (hne : fed ≠ [])
    (trackers webSeeds : List Text) : b.finalize sha1 trackers webSeeds =
      .ok (metadataOf sha1 fileName fed pieceLength trackers webSeeds) := by
  have htotal : b.totalBytes ≠ 0 := fun h0 =>
    hne (List.eq_nil_of_length_eq_zero (h.total_eq ▸ h0))
  unfold TorrentBuilder.finalize metadataOf
  rw [if_neg htotal, h.chunks_eq, ← h.total_eq, ← h.name_eq, ← h.pieceLength_eq]
  by_cases hcurrent : 0 < b.currentPieceBytes
  · rw [if_pos hcurrent, if_pos hcurrent, hashes_concat, ← h.pieces_eq, List.length_append,
      ← h.count_eq]
    rfl
  · rw [if_neg hcurrent, if_neg hcurrent, List.append_nil, ← h.pieces_eq, ← h.count_eq]

/-- **From a stream**: the chunks of what was written are hashed. -/
theorem buildTorrent_eq {writes : List (List UInt8)} {trackers webSeeds : List Text}
    (hpos : 0 < pieceLength) (hmax : writes.flatten.length ≤ u64Max) :
    buildTorrent sha1 fileName pieceLength writes trackers webSeeds =
      some (if writes.flatten = [] then .error (.emptyFile fileName)
        else .ok (metadataOf sha1 fileName writes.flatten pieceLength trackers webSeeds)) := by
  have hstart : Fed sha1 fileName pieceLength [] [] (.new fileName pieceLength) := fed_new hpos
  have hmax' : ([] ++ writes.flatten).length ≤ u64Max := hmax
  obtain ⟨b, blocks, hwrites, hfed⟩ := hstart.writes hmax'
  rw [List.nil_append] at hfed
  unfold buildTorrent
  rw [hwrites]
  show some (b.finalize sha1 trackers webSeeds) = _
  by_cases hempty : writes.flatten = []
  · rw [if_pos hempty]
    rw [hempty] at hfed
    have htotal : b.totalBytes = 0 := hfed.total_eq
    unfold TorrentBuilder.finalize
    rw [if_pos htotal, hfed.name_eq]
  · rw [if_neg hempty, hfed.finalize hempty]

end Stream

/-! ### Agreement -/

/-- Both give the same metadata, or both report an empty file. -/
def Agree (r r' : Option (Except TorrentCreateError TorrentMetadata)) : Prop :=
  (∃ m, r = some (.ok m) ∧ r' = some (.ok m)) ∨
    ∃ path path', r = some (.error (.emptyFile path)) ∧ r' = some (.error (.emptyFile path'))

/-- **A builder agrees with the creation from a file**, however the content is cut into writes, exactly
if the file is empty or the read buffer can be allocated. -/
theorem builder_agrees_iff (sha1 : List UInt8 → Vector UInt8 20) (f : SourceFile) (pieceLength : ℕ)
    (hpos : 0 < pieceLength) (writes : List (List UInt8)) (hwrites : writes.flatten = f.content)
    (trackers webSeeds : List Text) :
    Agree (createTorrent sha1 f pieceLength trackers webSeeds)
      (buildTorrent sha1 f.name pieceLength writes trackers webSeeds) ↔
    f.content = [] ∨ pieceLength ≤ isizeMax := by
  have hmax : writes.flatten.length ≤ u64Max := by
    rw [hwrites]
    exact Nat.le_of_lt_succ f.content_lt
  rw [buildTorrent_eq hpos hmax, hwrites]
  by_cases hempty : f.content = []
  · have hcreate : createTorrent sha1 f pieceLength trackers webSeeds =
        some (.error (.emptyFile f.display)) := if_pos (congrArg List.length hempty)
    rw [hcreate, if_pos hempty]
    exact iff_of_true (Or.inr ⟨_, _, rfl, rfl⟩) (Or.inl hempty)
  · rw [if_neg hempty, or_iff_right hempty]
    by_cases hok : pieceLength ≤ isizeMax
    · rw [createTorrent_eq hpos hok hempty]
      exact iff_of_true (Or.inl ⟨_, rfl, rfl⟩) hok
    · have hlen : f.content.length ≠ 0 := fun h => hempty (List.eq_nil_of_length_eq_zero h)
      have hcreate : createTorrent sha1 f pieceLength trackers webSeeds = none :=
        (if_neg hlen).trans (if_pos (Or.inr (Nat.lt_of_not_le hok)))
      rw [hcreate]
      refine iff_of_false ?_ hok
      rintro (⟨m, h, -⟩ | ⟨path, path', h, -⟩) <;> cases h

/-- A digest that is the first byte twenty times. -/
def firstByte (l : List UInt8) : Vector UInt8 20 := Vector.replicate 20 (l.headD 0)

/-- A file of ten bytes whose reads return one byte each. -/
def tenBytes : SourceFile :=
  ⟨some (text "a.bin"), text "/data/a.bin", text "abcdefghij", by decide, fun _ => 1⟩

theorem builder_agrees_ten_bytes :
    Agree (createTorrent firstByte tenBytes 4 [text "t1", text "t2"] [text "w"])
      (buildTorrent firstByte tenBytes.name 4 [text "abc", [], text "defghi", text "j"]
        [text "t1", text "t2"] [text "w"]) :=
  (builder_agrees_iff firstByte tenBytes 4 (by decide) _ (by decide) _ _).mpr (Or.inr (by decide))

/-- A piece length that is a `u64` but not the size of a buffer. -/
theorem create_panics : createTorrent firstByte tenBytes (2 ^ 63) [] [] = none ∧
    ∃ m, buildTorrent firstByte tenBytes.name (2 ^ 63) [text "abcdefghij"] [] [] = some (.ok m) := by
  have hne : ¬ tenBytes.content.length = 0 := by decide
  have hlarge : 2 ^ 63 = 0 ∨ isizeMax < 2 ^ 63 := by decide
  refine ⟨(if_neg hne).trans (if_pos hlarge), ?_⟩
  rw [buildTorrent_eq (by decide) (by decide), if_neg (by decide)]
  exact ⟨_, rfl⟩

end CncContent.Torrent.CreateAgree
