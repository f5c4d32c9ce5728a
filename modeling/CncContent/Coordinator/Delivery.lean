import CncContent.Coordinator.Resumption
import CncContent.Lib.HexDigits
import CncContent.Metadata.Recovery
import CncContent.Torrent.CreateAgree
import CncContent.Torrent.Metainfo

/-! # From a file to its copy

A file is described by the torrent that is created of it, and the coordinator downloads what a torrent
describes. The description determines the parameters of the download (`describesFile_iff`), and these are well
formed, with a hash for each piece of the file, so that what is downloaded in the end is the file
(`delivered`). This needs no more than the info hash, if the metadata comes from the peers too
(`delivered_by_info_hash`). -/

namespace CncContent.Coordinator.Delivery

open CncContent.Lib.Bounded CncContent.Lib.Bytes CncContent.Lib.Chunks CncContent.Lib.HexDigits
open CncContent.Bencode.Codec CncContent.Bencode.Canonical CncContent.Bencode.RoundTrip
open CncContent.Metadata.Exchange CncContent.Metadata.Verified CncContent.Metadata.Recovery
open CncContent.Torrent.Create CncContent.Torrent.CreateAgree CncContent.Torrent.Info CncContent.Torrent.Metainfo
open CncContent.Torrent.Resume CncContent.Lib.Runs CncContent.Storage.File
open CncContent.Coordinator.Worker CncContent.Coordinator.Run
open CncContent.Coordinator.Contents CncContent.Coordinator.Resumption

/-! ### What is created -/

section Created

variable {sha1 : List UInt8 → Vector UInt8 20} {f : SourceFile} {pieceLength : ℕ} {trackers webSeeds : List Text}
  {m : TorrentMetadata}

/-- The dictionary that describes the content. -/
def infoOf (sha1 : List UInt8 → Vector UInt8 20) (name : Text) (content : List UInt8) (pieceLength : ℕ) :
    BencodeValue :=
  infoValue name content.length pieceLength (hashes sha1 (chunks pieceLength content))

/-- A torrent is created of a file with contents, and with pieces of a length that a buffer can have. -/
theorem createTorrent_ok (h : createTorrent sha1 f pieceLength trackers webSeeds = some (.ok m)) :
    f.content ≠ [] ∧ 0 < pieceLength ∧ pieceLength ≤ isizeMax ∧
      m = metadataOf sha1 f.name f.content pieceLength trackers webSeeds := by
  by_cases hne : f.content = []
  · have hcreate : createTorrent sha1 f pieceLength trackers webSeeds = some (.error (.emptyFile f.display)) :=
      if_pos (congrArg List.length hne)
    rw [hcreate] at h
    cases h
  by_cases hpl : pieceLength = 0 ∨ isizeMax < pieceLength
  · have hlen : f.content.length ≠ 0 := fun h => hne (List.eq_nil_of_length_eq_zero h)
    have hcreate : createTorrent sha1 f pieceLength trackers webSeeds = none :=
      (if_neg hlen).trans (if_pos hpl)
    rw [hcreate] at h
    cases h
  have hpos : 0 < pieceLength := by omega
  have hmax : pieceLength ≤ isizeMax := by omega
  rw [createTorrent_eq hpos hmax hne] at h
  cases h
  exact ⟨hne, hpos, hmax, rfl⟩

/-- The bytes of the dictionary alone are read back too. -/
theorem decode_infoOf {name content : Text}
    (hlen : (encode (infoOf sha1 name content pieceLength)).length ≤ u64Max) :
    decode (encode (infoOf sha1 name content pieceLength)) = .ok (infoOf sha1 name content pieceLength) := by
  have hdistinct : DistinctKeys (infoOf sha1 name content pieceLength) :=
    everyDict_infoValue _ _ _ _ List.Nodup.sublist infoKeys_nodup
  have hsorted : Sorted (infoOf sha1 name content pieceLength) :=
    everyDict_infoValue _ _ _ _ (fun hsub h => List.Pairwise.sublist hsub h) infoKeys_sorted
  have hdepth : depth (infoOf sha1 name content pieceLength) ≤ 1 := depth_infoValue _ _ _ _
  rw [decode_encode hlen (hdepth.trans (by decide)) hdistinct, sortKeys_of_sorted _ hsorted]

/-- The decoder reads what was written. -/
theorem decode_created (h : createTorrent sha1 f pieceLength trackers webSeeds = some (.ok m))
    (hlen : m.torrentData.length ≤ u64Max) :
    decode m.torrentData = .ok (torrentValue (infoOf sha1 f.name f.content pieceLength) trackers webSeeds) := by
  obtain ⟨-, -, -, rfl⟩ := createTorrent_ok h
  have hdata : (metadataOf sha1 f.name f.content pieceLength trackers webSeeds).torrentData =
      encode (torrentValue (infoOf sha1 f.name f.content pieceLength) trackers webSeeds) := by
    rw [encode_torrentValue, infoOf, encode_infoValue]
    rfl
  rw [hdata] at hlen ⊢
  exact decode_torrentValue _ _ _ _ _ _ rfl hlen

/-- The info hash is that of the dictionary. -/
theorem infoHash_created (h : createTorrent sha1 f pieceLength trackers webSeeds = some (.ok m)) :
    m.infoHash = toHex (sha1 (encode (infoOf sha1 f.name f.content pieceLength))).toList := by
  obtain ⟨-, -, -, rfl⟩ := createTorrent_ok h
  rw [infoOf, encode_infoValue]
  rfl

end Created

/-! ### What a torrent describes -/

/-- The metadata is that of an `info` dictionary for one file. -/
def DescribesFile (dict : BencodeValue) (info : TorrentInfo) : Prop :=
  ∃ pieceLength length, dictGet dict (text "pieces") = some (.bytes info.pieceHashes) ∧
    dictGet dict (text "piece length") = some (.int pieceLength) ∧ pieceLength.toInt = info.pieceLength ∧
    dictGet dict (text "length") = some (.int length) ∧ length.toInt = info.fileSize

def Describes (torrent : BencodeValue) (info : TorrentInfo) : Prop :=
  ∃ dict, dictGet torrent (text "info") = some dict ∧ DescribesFile dict info

/-- The metadata of a file. -/
def ofContent (sha1 : List UInt8 → Vector UInt8 20) (pieceLength : ℕ) (content : List UInt8) : TorrentInfo :=
  ⟨pieceLength, hashes sha1 (chunks pieceLength content), content.length⟩

variable {sha1 : List UInt8 → Vector UInt8 20} {pieceLength : ℕ} {content : List UInt8}

/-- A length `as i64` is read back unless its sign bit is set. -/
theorem toInt_asI64_iff {n m : ℕ} (hn : n < 2 ^ 64) : (asI64 n).toInt = (m : ℤ) ↔ m = n ∧ n < 2 ^ 63 := by
  have hsize : ((Int64.size : ℕ) : ℤ) = 2 ^ 64 := rfl
  unfold asI64
  rw [Int64.toInt_ofNat', Int.bmod_def, hsize]
  constructor <;> omega

/-- **A created dictionary describes one file**, if the file is not too long for its length to be written. -/
theorem describesFile_iff {name : Text} {info : TorrentInfo} (hpl : pieceLength < 2 ^ 63)
    (hlen : content.length < 2 ^ 64) :
    DescribesFile (infoOf sha1 name content pieceLength) info ↔
      info = ofContent sha1 pieceLength content ∧ content.length < 2 ^ 63 := by
  have hpieces : dictGet (infoOf sha1 name content pieceLength) (text "pieces") =
      some (.bytes (hashes sha1 (chunks pieceLength content))) := rfl
  have hplen : dictGet (infoOf sha1 name content pieceLength) (text "piece length") =
      some (.int (asI64 pieceLength)) := rfl
  have hlength : dictGet (infoOf sha1 name content pieceLength) (text "length") =
      some (.int (asI64 content.length)) := rfl
  have hpl64 : pieceLength < 2 ^ 64 := by omega
  constructor
  · rintro ⟨pl, n, hp, hpl', hpli, hn, hni⟩
    obtain rfl : asI64 pieceLength = pl := BencodeValue.int.inj (Option.some.inj (hplen.symm.trans hpl'))
    obtain rfl : asI64 content.length = n := BencodeValue.int.inj (Option.some.inj (hlength.symm.trans hn))
    have hhashes : hashes sha1 (chunks pieceLength content) = info.pieceHashes :=
      BencodeValue.bytes.inj (Option.some.inj (hpieces.symm.trans hp))
    obtain ⟨hsize, hlt⟩ := (toInt_asI64_iff hlen).mp hni
    have hpiece := ((toInt_asI64_iff hpl64).mp hpli).1
    refine ⟨?_, hlt⟩
    rw [ofContent, hhashes, ← hsize, ← hpiece]
  · rintro ⟨rfl, hlt⟩
    exact ⟨_, _, hpieces, hplen, (toInt_asI64_iff hpl64).mpr ⟨rfl, hpl⟩, hlength,
      (toInt_asI64_iff hlen).mpr ⟨rfl, hlt⟩⟩

theorem describes_torrentValue {info : BencodeValue} {trackers webSeeds : List Text} {fileInfo : TorrentInfo} :
    Describes (torrentValue info trackers webSeeds) fileInfo ↔ DescribesFile info fileInfo := by
  have hdict : dictGet (torrentValue info trackers webSeeds) (text "info") = some info :=
    dictGet_torrentValue trackers webSeeds (by simp [torrentFields])
  constructor
  · rintro ⟨dict, hd, h⟩
    obtain rfl : info = dict := Option.some.inj (hdict.symm.trans hd)
    exact h
  · exact fun h => ⟨info, hdict, h⟩

/-! ### The pieces of a file -/

theorem length_hashes : ∀ blocks : List (List UInt8), (hashes sha1 blocks).length = blocks.length * 20
  | [] => rfl
  | block :: blocks => by
    have ih := length_hashes blocks
    have hblock : (sha1 block).toList.length = 20 := Vector.length_toList
    unfold hashes at ih ⊢
    rw [List.flatMap_cons, List.length_append, ih, hblock, List.length_cons]
    omega

theorem drop_hashes : ∀ (i : ℕ) (blocks : List (List UInt8)),
    (hashes sha1 blocks).drop (i * 20) = hashes sha1 (blocks.drop i)
  | 0, _ => by rw [Nat.zero_mul, List.drop_zero, List.drop_zero]
  | i + 1, [] => by
    rw [List.drop_nil]
    exact List.drop_nil
  | i + 1, block :: blocks => by
    have ih := drop_hashes i blocks
    have hblock : (sha1 block).toList.length = 20 := Vector.length_toList
    unfold hashes at ih ⊢
    rw [List.drop_succ_cons, ← ih, List.flatMap_cons, Nat.succ_mul, Nat.add_comm (i * 20), ← List.drop_drop,
      List.drop_left' hblock]

theorem slice_hashes {blocks : List (List UInt8)} {i : ℕ} {block : List UInt8} (h : blocks[i]? = some block) :
    slice (hashes sha1 blocks) (i * 20) (i * 20 + 20) = some (sha1 block).toList := by
  have hblock : (sha1 block).toList.length = 20 := Vector.length_toList
  obtain ⟨hi, hget⟩ := List.getElem?_eq_some_iff.mp h
  rw [slice_eq_some_iff, length_hashes, drop_hashes, hblock, List.drop_eq_getElem_cons hi, hget]
  exact ⟨by omega, rfl, _, List.flatMap_cons⟩

section Pieces

variable (hpos : 0 < pieceLength) (hmax : pieceLength ≤ u32Max) (hlen : content.length < 2 ^ 63)
  (hcount : (chunks pieceLength content).length ≤ u32Max)

include hpos in
theorem pieceCount_ofContent (hcount : (chunks pieceLength content).length ≤ u32Max) :
    (ofContent sha1 pieceLength content).pieceCount = (content.length + pieceLength - 1) / pieceLength := by
  have hdiv : (hashes sha1 (chunks pieceLength content)).length / 20 = (chunks pieceLength content).length := by
    rw [length_hashes]
    exact Nat.mul_div_cancel _ (by decide)
  show asU32 ((hashes sha1 (chunks pieceLength content)).length / 20) = _
  rw [hdiv, asU32_of_lt (Nat.lt_succ_of_le hcount), length_chunks hpos]

include hpos hlen hcount in
theorem ofContent_wellFormed : (ofContent sha1 pieceLength content).WellFormed := by
  refine ⟨hpos, ?_, pieceCount_ofContent hpos hcount⟩
  show content.length ≤ u64Max
  unfold u64Max
  omega

include hpos hlen hcount in
/-- The block of a piece: its place, its length and its hash. -/
theorem block_of_lt {i : ℕ} (hi : i < (ofContent sha1 pieceLength content).pieceCount) :
    (ofContent sha1 pieceLength content).pieceOffset i = i * pieceLength ∧
      i * pieceLength < content.length ∧
      (ofContent sha1 pieceLength content).pieceHash i =
        some (sha1 ((content.drop (i * pieceLength)).take pieceLength)).toList := by
  have hwf : (ofContent sha1 pieceLength content).WellFormed := ofContent_wellFormed hpos hlen hcount
  obtain ⟨hoff, hlt⟩ : _ ∧ i * pieceLength < content.length := TorrentInfo.pieceOffset_eq hwf hi
  have hblock : (chunks pieceLength content)[i]? = some ((content.drop (i * pieceLength)).take pieceLength) := by
    rw [getElem?_chunks hpos, if_pos hlt]
  have hbound : i < u32Max + 1 := hi.trans (asU32_lt _)
  have hword : u32Max * 20 + 20 ≤ u64Max := by decide
  refine ⟨hoff, hlt, ?_⟩
  unfold TorrentInfo.pieceHash checkedMul checkedAdd
  rw [if_pos (by omega), Option.bind_eq_bind, Option.bind_some, if_pos (by omega), Option.bind_some]
  exact slice_hashes hblock

include hpos hmax hlen hcount in
theorem pieceSize_ofContent {i : ℕ} (hi : i < (ofContent sha1 pieceLength content).pieceCount) :
    (ofContent sha1 pieceLength content).pieceSize i = min (content.length - i * pieceLength) pieceLength := by
  obtain ⟨hoff, -, -⟩ := block_of_lt hpos hlen hcount hi
  have hword : u32Max + 1 = 2 ^ 32 := by decide
  unfold TorrentInfo.pieceSize
  rw [hoff]
  exact asU32_of_lt ((Nat.min_le_right _ _).trans_lt (hword ▸ Nat.lt_succ_of_le hmax))

/-- No two byte strings of which one is a block of the file have the same digest. -/
def NoCollision (sha1 : List UInt8 → Vector UInt8 20) (pieceLength : ℕ) (content : List UInt8) : Prop :=
  ∀ block ∈ chunks pieceLength content, ∀ data, sha1 data = sha1 block → data = block

include hpos in
theorem NoCollision.eq (h : NoCollision sha1 pieceLength content) {i : ℕ} (hi : i * pieceLength < content.length)
    {data : List UInt8}
    (hdata : (sha1 data).toList = (sha1 ((content.drop (i * pieceLength)).take pieceLength)).toList) :
    data = (content.drop (i * pieceLength)).take pieceLength := by
  have hblock : (chunks pieceLength content)[i]? = some ((content.drop (i * pieceLength)).take pieceLength) := by
    rw [getElem?_chunks hpos, if_pos hi]
  exact h _ (List.mem_of_getElem? hblock) data (Vector.toList_inj.mp hdata)

include hpos hmax hlen hcount in
theorem ofContent_genuine (hcoll : NoCollision sha1 pieceLength content) :
    (ofContent sha1 pieceLength content).Genuine fun data => (sha1 data).toList := by
  intro i hi
  obtain ⟨-, hlt, hhash⟩ := block_of_lt hpos hlen hcount hi
  refine ⟨(content.drop (i * pieceLength)).take pieceLength, ?_, hhash, fun data hdata => hcoll.eq hpos hlt hdata⟩
  rw [pieceSize_ofContent hpos hmax hlen hcount hi, List.length_take, List.length_drop]
  exact Nat.min_comm _ _

include hpos hmax hlen hcount in
/-- A file of the same length on which every piece is right is the same. -/
theorem eq_of_onDisk (hcoll : NoCollision sha1 pieceLength content) {bytes : List UInt8}
    (hsize : bytes.length = content.length)
    (h : ∀ i < (ofContent sha1 pieceLength content).pieceCount,
      OnDisk (ofContent sha1 pieceLength content) (fun data => (sha1 data).toList) bytes i) : bytes = content := by
  refine eq_of_chunks hpos fun i => ?_
  rw [getElem?_chunks hpos, getElem?_chunks hpos, hsize]
  by_cases hlt : i * pieceLength < content.length
  · have hi : i < (ofContent sha1 pieceLength content).pieceCount := by
      rw [pieceCount_ofContent hpos hcount, Nat.lt_iff_add_one_le, Nat.le_div_iff_mul_le hpos, Nat.succ_mul]
      omega
    obtain ⟨hoff, -, hhash⟩ := block_of_lt hpos hlen hcount hi
    obtain ⟨data, hdata, hdisk⟩ := h i hi
    have heq := hcoll.eq hpos hlt (Option.some.inj (hhash.symm.trans hdisk)).symm
    rw [hoff, pieceSize_ofContent hpos hmax hlen hcount hi, slice, if_pos (by omega),
      Nat.add_sub_cancel_left] at hdata
    have htake : (bytes.drop (i * pieceLength)).take (min (content.length - i * pieceLength) pieceLength) =
        (bytes.drop (i * pieceLength)).take pieceLength := by
      rw [← hsize, ← List.length_drop, Nat.min_comm, List.take_eq_take_min (i := pieceLength)]
    rw [htake] at hdata
    rw [if_pos hlt, if_pos hlt, Option.some.inj hdata, heq]
  · rw [if_neg hlt, if_neg hlt]

end Pieces

/-! ### The copy -/

section Copy

variable {f : SourceFile} {trackers webSeeds : List Text} {m : TorrentMetadata} {torrent : BencodeValue}
  {d : Download} {checkpoint : Option (List UInt8)} {s₀ final : State FileStorage} {actions : List Action}

/-- The download is one of the file: its pieces can be addressed, and none of them collides. -/
structure DownloadsFile (sha1 : List UInt8 → Vector UInt8 20) (pieceLength : ℕ) (content : List UInt8)
    (d : Download) : Prop where
  info : d.info = ofContent sha1 pieceLength content
  digest : d.sha1 = fun data => (sha1 data).toList
  pos : 0 < pieceLength
  max : pieceLength ≤ u32Max
  length : content.length < 2 ^ 63
  count : (chunks pieceLength content).length ≤ u32Max
  noCollision : NoCollision sha1 pieceLength content

theorem DownloadsFile.wellFormed (h : DownloadsFile sha1 pieceLength content d) : d.info.WellFormed :=
  h.info ▸ ofContent_wellFormed h.pos h.length h.count

theorem DownloadsFile.genuine (h : DownloadsFile sha1 pieceLength content d) : d.info.Genuine d.sha1 := by
  rw [h.info, h.digest]
  exact ofContent_genuine h.pos h.max h.length h.count h.noCollision

/-- A run that returns `Ok` leaves the file. -/
theorem DownloadsFile.copy (h : DownloadsFile sha1 pieceLength content d)
    (hsessions : Sessions d d.existing checkpoint) (hmeta : d.faults.metadata = none)
    (hbegin : begin d.setup none checkpoint = .ok s₀) (hreturns : Returns d.setup s₀ actions final) :
    final.storage.bytes = content := by
  have hintact := sessions_intact h.wellFormed h.genuine hsessions hmeta hbegin hreturns
  have hsize : final.storage.bytes.length = content.length := by
    rw [length_returns h.wellFormed h.genuine hbegin hreturns, h.info]
    rfl
  rw [h.info, h.digest] at hintact
  exact eq_of_onDisk h.pos h.max h.length h.count h.noCollision hsize fun i hi => (hintact i hi).2

/-- What a created dictionary describes is a download of the file. -/
theorem downloadsFile_of_described (hcreate : createTorrent sha1 f pieceLength trackers webSeeds = some (.ok m))
    (hdescribes : DescribesFile (infoOf sha1 f.name f.content pieceLength) d.info) (hmax : pieceLength ≤ u32Max)
    (hcount : m.pieceCount ≤ u32Max) (hcoll : NoCollision sha1 pieceLength f.content)
    (hsha1 : d.sha1 = fun data => (sha1 data).toList) : DownloadsFile sha1 pieceLength f.content d := by
  obtain ⟨-, hpos, hisize, rfl⟩ := createTorrent_ok hcreate
  have hpl : pieceLength < 2 ^ 63 := Nat.lt_of_le_of_lt hisize (by decide)
  obtain ⟨hinfo, hlen⟩ := (describesFile_iff hpl f.content_lt).mp hdescribes
  exact ⟨hinfo, hsha1, hpos, hmax, hlen, hcount, hcoll⟩

/-- **The file is delivered.** A torrent is created of a file, read, and downloaded, in any number of runs that
share a resume file. Whatever the peers send and however often a run is cut short, the output file is the file
that the torrent was created of as soon as a run returns `Ok`. -/
theorem delivered (hcreate : createTorrent sha1 f pieceLength trackers webSeeds = some (.ok m))
    (hdecode : decode m.torrentData = .ok torrent) (hfits : m.torrentData.length ≤ u64Max)
    (hdescribes : Describes torrent d.info) (hmax : pieceLength ≤ u32Max) (hcount : m.pieceCount ≤ u32Max)
    (hcoll : NoCollision sha1 pieceLength f.content) (hsha1 : d.sha1 = fun data => (sha1 data).toList)
    (hsessions : Sessions d d.existing checkpoint) (hmeta : d.faults.metadata = none)
    (hbegin : begin d.setup none checkpoint = .ok s₀) (hreturns : Returns d.setup s₀ actions final) :
    final.storage.bytes = f.content := by
  have hwritten := (decode_created hcreate hfits).symm.trans hdecode
  obtain rfl : torrentValue (infoOf sha1 f.name f.content pieceLength) trackers webSeeds = torrent :=
    Except.ok.inj hwritten
  have hfile := downloadsFile_of_described hcreate (describes_torrentValue.mp hdescribes) hmax hcount hcoll hsha1
  exact hfile.copy hsessions hmeta hbegin hreturns

/-- What an exchange has verified is the dictionary with the info hash, unless it collides with another one. -/
theorem metadata_of_verify {infoHash : Digest} {calls : List Call} {bytes : List UInt8} {dict : BencodeValue}
    (hhash : infoHash = sha1 (encode (infoOf sha1 f.name f.content pieceLength)))
    (hcoll : ∀ data, sha1 data = sha1 (encode (infoOf sha1 f.name f.content pieceLength)) →
      data = encode (infoOf sha1 f.name f.content pieceLength))
    (hverify : ((after sha1 (.new infoHash) calls).verify sha1).2 = .ok bytes) (hdecode : decode bytes = .ok dict) :
    dict = infoOf sha1 f.name f.content pieceLength := by
  have hnew : WellFormed (.new infoHash) := ⟨fun _ => ⟨rfl, rfl⟩, nofun⟩
  have hwf := @wellFormed_after sha1 _ hnew calls
  rcases verify_cases (after sha1 (.new infoHash) calls) sha1 with ⟨-, hv⟩ | ⟨-, -, hv⟩ | ⟨hall, heq, hv⟩
  · rw [hv] at hverify
    cases hverify
  · rw [hv] at hverify
    cases hverify
  · rw [hv] at hverify
    cases hverify
    rw [infoHash_after] at heq
    have hbytes := hcoll _ (heq.trans hhash)
    -- the metadata has the size that was adopted
    have hsize : (after sha1 (.new infoHash) calls).buffer.length ≤ u64Max := by
      rcases hs : (after sha1 (.new infoHash) calls).metadataSize with _ | n
      · have hblocks := (hwf.unsized hs).1
        exact absurd hblocks (allBlocksReceived_eq_true_iff.mp hall).1
      · obtain ⟨⟨-, hn⟩, -, hbuffer⟩ := hwf.sized n hs
        have hmax : maxMetadataSize ≤ u64Max := by decide
        exact (hbuffer.trans_le hn).trans hmax
    rw [hbytes] at hsize hdecode
    exact (Except.ok.inj ((decode_infoOf hsize).symm.trans hdecode)).symm

/-- **The file is delivered by its info hash.** The metadata is received from peers, block by block and in any
order, until it is verified; the rest is as for a torrent file. -/
theorem delivered_by_info_hash {infoHash : Digest} {calls : List Call} {bytes : List UInt8} {dict : BencodeValue}
    (hcreate : createTorrent sha1 f pieceLength trackers webSeeds = some (.ok m))
    (hhash : toHex infoHash.toList = m.infoHash)
    (hverify : ((after sha1 (.new infoHash) calls).verify sha1).2 = .ok bytes) (hdecode : decode bytes = .ok dict)
    (hdescribes : DescribesFile dict d.info) (hmax : pieceLength ≤ u32Max) (hcount : m.pieceCount ≤ u32Max)
    (hdict : ∀ data, sha1 data = sha1 (encode (infoOf sha1 f.name f.content pieceLength)) →
      data = encode (infoOf sha1 f.name f.content pieceLength))
    (hcoll : NoCollision sha1 pieceLength f.content) (hsha1 : d.sha1 = fun data => (sha1 data).toList)
    (hsessions : Sessions d d.existing checkpoint) (hmeta : d.faults.metadata = none)
    (hbegin : begin d.setup none checkpoint = .ok s₀) (hreturns : Returns d.setup s₀ actions final) :
    final.storage.bytes = f.content := by
  have hdigest : infoHash = sha1 (encode (infoOf sha1 f.name f.content pieceLength)) := by
    have htexts := congrArg ofHex (hhash.trans (infoHash_created hcreate))
    rw [ofHex_toHex, ofHex_toHex] at htexts
    exact Vector.toList_inj.mp htexts
  obtain rfl := metadata_of_verify hdigest hdict hverify hdecode
  have hfile := downloadsFile_of_described hcreate hdescribes hmax hcount hcoll hsha1
  exact hfile.copy hsessions hmeta hbegin hreturns

/-! ### A file of two bytes -/

/-- The digest of the byte `0xAA`. -/
def firstDigest : Vector UInt8 20 := #v[0x52, 0x53, 0x8A, 0x80, 0x09, 0x4F, 0x7B, 0x62, 0x94, 0x8F,
  0xD3, 0x1E, 0x68, 0xFD, 0x17, 0xA3, 0x15, 0xD8, 0xDC, 0x91]

/-- The digest of the byte `0xBB`. -/
def secondDigest : Vector UInt8 20 := #v[0x1A, 0x5D, 0x2A, 0x45, 0x77, 0x2C, 0x53, 0xD8, 0x03, 0xDE,
  0xF1, 0x07, 0xB6, 0x73, 0x66, 0xDB, 0x0B, 0x8E, 0x20, 0xAF]

/-- The dictionary of a file with these bytes, a piece each. -/
def twoByteDict : List UInt8 :=
  text "d6:lengthi2e4:name5:a.bin12:piece lengthi1e6:pieces40:" ++ firstDigest.toList ++ secondDigest.toList ++
    text "e"

def dictDigest : Vector UInt8 20 := #v[0x5D, 0xDA, 0x63, 0x3E, 0x48, 0x4B, 0x68, 0x88, 0x2E, 0x3C,
  0xBD, 0x32, 0xC6, 0x7D, 0x6F, 0xEC, 0x22, 0x58, 0xED, 0xF7]

/-- The SHA-1 digests of these three; no others are needed. -/
def sha1TwoBytes (data : List UInt8) : Vector UInt8 20 :=
  if data = [0xAA] then firstDigest
  else if data = [0xBB] then secondDigest
  else if data = twoByteDict then dictDigest
  else Vector.replicate 20 0

def twoByteFile : SourceFile := ⟨some (text "a.bin"), text "a.bin", [0xAA, 0xBB], by decide, fun _ => 1⟩

/-- Its download by two workers with a resume file and two retries, over an output file that may exist. -/
def twoByteCopy (existing : Option (List UInt8)) : Download :=
  ⟨ofContent sha1TwoBytes 1 [0xAA, 0xBB], ⟨2, 2, 0, 0, 0, true, false⟩, 2,
    fun data => (sha1TwoBytes data).toList, existing, ⟨none, none, none, none⟩, []⟩

theorem sha1TwoBytes_cases (data : List UInt8) :
    data = [0xAA] ∧ sha1TwoBytes data = firstDigest ∨ data = [0xBB] ∧ sha1TwoBytes data = secondDigest ∨
      data = twoByteDict ∧ sha1TwoBytes data = dictDigest ∨ sha1TwoBytes data = Vector.replicate 20 0 := by
  unfold sha1TwoBytes
  split_ifs with hfirst hsecond hdict
  · exact Or.inl ⟨hfirst, rfl⟩
  · exact Or.inr (Or.inl ⟨hsecond, rfl⟩)
  · exact Or.inr (Or.inr (Or.inl ⟨hdict, rfl⟩))
  · exact Or.inr (Or.inr (Or.inr rfl))

theorem noCollision_twoBytes : NoCollision sha1TwoBytes 1 [0xAA, 0xBB] := by
  intro block hblock data hdata
  have hcases : block = [0xAA] ∨ block = [0xBB] := by
    have hmem : block ∈ [[0xAA], [0xBB]] := hblock
    simpa using hmem
  rcases hcases with rfl | rfl
  · rcases sha1TwoBytes_cases data with ⟨hd, -⟩ | ⟨-, hd⟩ | ⟨-, hd⟩ | hd
    · exact hd
    · exact absurd (hd.symm.trans hdata) (by decide)
    · exact absurd (hd.symm.trans hdata) (by decide)
    · exact absurd (hd.symm.trans hdata) (by decide)
  · rcases sha1TwoBytes_cases data with ⟨-, hd⟩ | ⟨hd, -⟩ | ⟨-, hd⟩ | hd
    · exact absurd (hd.symm.trans hdata) (by decide)
    · exact hd
    · exact absurd (hd.symm.trans hdata) (by decide)
    · exact absurd (hd.symm.trans hdata) (by decide)

theorem encode_twoBytes : encode (infoOf sha1TwoBytes twoByteFile.name twoByteFile.content 1) = twoByteDict := by
  rw [infoOf, encode_infoValue]
  decide +kernel

theorem noCollision_twoByteDict {data : List UInt8} (h : sha1TwoBytes data = sha1TwoBytes twoByteDict) :
    data = twoByteDict := by
  have hdict : sha1TwoBytes twoByteDict = dictDigest := by decide +kernel
  rw [hdict] at h
  rcases sha1TwoBytes_cases data with ⟨-, hd⟩ | ⟨-, hd⟩ | ⟨hd, -⟩ | hd
  · exact absurd (hd.symm.trans h) (by decide)
  · exact absurd (hd.symm.trans h) (by decide)
  · exact hd
  · exact absurd (hd.symm.trans h) (by decide)

theorem created_twoBytes : createTorrent sha1TwoBytes twoByteFile 1 [] [] =
    some (.ok (metadataOf sha1TwoBytes twoByteFile.name twoByteFile.content 1 [] [])) :=
  createTorrent_eq (by decide) (by decide) (by decide)

theorem described_twoBytes {existing : Option (List UInt8)} :
    DescribesFile (infoOf sha1TwoBytes twoByteFile.name twoByteFile.content 1) (twoByteCopy existing).info :=
  (describesFile_iff (by decide) twoByteFile.content_lt).mpr ⟨rfl, by decide⟩

/-- The resume file with the first piece. -/
def firstDone : List UInt8 := ResumeState.save ⟨2, 2, [1]⟩

/-- A first run, whatever state it has been cut short in. -/
theorem sessions_of_run {n : ℕ} {s : State FileStorage} {bytes : List UInt8}
    (hbegin : begin (d.over none n ⟨none, none, none, none⟩ []).setup none none = .ok s₀)
    (hrun : run (step (d.over none n ⟨none, none, none, none⟩ []).setup) s₀ actions = some s)
    (hbytes : s.storage.bytes = bytes) (hcheckpoint : s.checkpoint = checkpoint) :
    Sessions d (some bytes) checkpoint := by
  rw [← hbytes, ← hcheckpoint]
  exact .ran n ⟨none, none, none, none⟩ [] rfl (.fresh none) hbegin hrun

/-- One worker has finished the first piece, and the other one is about to write the second. -/
theorem sessions_twoBytes :
    Sessions (twoByteCopy (some [0xAA, 0x00])) (some [0xAA, 0x00]) (some firstDone) := by
  have hbegin : begin ((twoByteCopy (some [0xAA, 0x00])).over none 2 ⟨none, none, none, none⟩ []).setup none none =
      .ok (start (twoByteCopy none).setup (.new 2) ⟨[0x00, 0x00], []⟩ none) := rfl
  obtain ⟨s, hrun, hbytes, hcheckpoint⟩ : ∃ s, run (step (twoByteCopy none).setup)
      (start (twoByteCopy none).setup (.new 2) ⟨[0x00, 0x00], []⟩ none)
      (seeded 0 0xAA 13 ++ seeded 1 0xBB 13 ++ seeded 0 0xAA 9 ++ seeded 1 0xBB 6) = some s ∧
      s.storage.bytes = [0xAA, 0x00] ∧ s.checkpoint = some firstDone := ⟨_, rfl, rfl, rfl⟩
  exact sessions_of_run hbegin hrun hbytes hcheckpoint

/-- The state the next run starts in. -/
def resumedStart : State FileStorage :=
  start (twoByteCopy (some [0xAA, 0x00])).setup ⟨[.done, .needed]⟩ ⟨[0xAA, 0x00], []⟩ (some firstDone)

/-- A seed sends a wrong byte for the second piece before the right one. -/
def resuming : List Action := seeded 1 0x00 19 ++ seeded 1 0xBB 28 ++ seeded 0 0xBB 4

theorem begin_resumed :
    begin (twoByteCopy (some [0xAA, 0x00])).setup none (some firstDone) = .ok resumedStart := rfl

theorem returns_resumed : ∃ final,
    Returns (twoByteCopy (some [0xAA, 0x00])).setup resumedStart resuming final :=
  ⟨_, _, true, rfl, stopped_of_workers (n := 2) rfl, rfl⟩

theorem delivered_two_sessions : ∃ final,
    Returns (twoByteCopy (some [0xAA, 0x00])).setup resumedStart resuming final ∧
      final.storage.bytes = [0xAA, 0xBB] := by
  have hfits : (metadataOf sha1TwoBytes twoByteFile.name twoByteFile.content 1 [] []).torrentData.length ≤
      u64Max := by decide +kernel
  obtain ⟨final, hreturns⟩ := returns_resumed
  refine ⟨final, hreturns, delivered (f := twoByteFile) created_twoBytes (decode_created created_twoBytes hfits)
    hfits (describes_torrentValue.mpr described_twoBytes) (by decide) (by decide) noCollision_twoBytes rfl
    sessions_twoBytes rfl begin_resumed hreturns⟩

/-- The metadata is one block. -/
theorem delivered_by_info_hash_two_sessions : ∃ final,
    Returns (twoByteCopy (some [0xAA, 0x00])).setup resumedStart resuming final ∧
      final.storage.bytes = [0xAA, 0xBB] := by
  have hverify : ((after sha1TwoBytes (.new (sha1TwoBytes twoByteDict)) [.receiveBlock 0 95 twoByteDict]).verify
      sha1TwoBytes).2 = .ok twoByteDict := by decide +kernel
  have hdecode : decode twoByteDict = .ok (infoOf sha1TwoBytes twoByteFile.name twoByteFile.content 1) := by
    rw [← encode_twoBytes]
    refine decode_infoOf ?_
    rw [encode_twoBytes]
    decide +kernel
  have hhash : toHex (sha1TwoBytes twoByteDict).toList =
      (metadataOf sha1TwoBytes twoByteFile.name twoByteFile.content 1 [] []).infoHash := by
    rw [infoHash_created created_twoBytes, encode_twoBytes]
  obtain ⟨final, hreturns⟩ := returns_resumed
  refine ⟨final, hreturns, delivered_by_info_hash (f := twoByteFile) created_twoBytes hhash hverify hdecode
    described_twoBytes (by decide) (by decide) ?_ noCollision_twoBytes rfl sessions_twoBytes rfl begin_resumed
    hreturns⟩
  rw [encode_twoBytes]
  exact fun data hdata => noCollision_twoByteDict hdata

end Copy

end CncContent.Coordinator.Delivery
