import CncContent.Bencode.RoundTrip
import CncContent.Torrent.Create

/-! # The bencoded torrent

The bytes that the creator writes by hand are the encoding of a dictionary (`encode_metainfo`), whose
entries are sorted by key whichever of the optional ones are there. So the strict decoder reads them, and
what it reads is what was written (`metainfo_read_back`). -/

namespace CncContent.Torrent.Metainfo

open CncContent.Lib.Bounded CncContent.Lib.Bytes
open CncContent.Bencode.Codec CncContent.Bencode.Canonical CncContent.Bencode.RoundTrip
open CncContent.Torrent.Create

/-- The largest 64-bit signed value. -/
def i64Max : ℕ := 2 ^ 63 - 1

/-! ### Lookups -/

/-- `as_dict`. -/
def asDict : BencodeValue → Option (List (List UInt8 × BencodeValue))
  | .dict entries => some entries
  | .bytes _ | .int _ | .list _ => none

def dictGet (v : BencodeValue) (key : List UInt8) : Option BencodeValue := do
  let entries ← asDict v
  (entries.find? fun e => decide (e.1 = key)).map Prod.snd

/-- A dictionary of optional entries. -/
def present (fields : List (List UInt8 × Option BencodeValue)) : List (List UInt8 × BencodeValue) :=
  fields.filterMap fun e => e.2.map fun v => (e.1, v)

section Fields

variable {fields : List (List UInt8 × Option BencodeValue)} {key : List UInt8}

theorem present_cons_some (v : BencodeValue) :
    present ((key, some v) :: fields) = (key, v) :: present fields := rfl

theorem present_cons_none : present ((key, none) :: fields) = present fields := rfl

theorem keys_present_sublist : ∀ fields : List (List UInt8 × Option BencodeValue),
    ((present fields).map Prod.fst).Sublist (fields.map Prod.fst)
  | [] => List.Sublist.slnil
  | (_, none) :: fields => (keys_present_sublist fields).cons _
  | (_, some _) :: fields => (keys_present_sublist fields).cons_cons _

theorem find?_present (hkey : key ∉ fields.map Prod.fst) :
    (present fields).find? (fun e => decide (e.1 = key)) = none := by
  rw [List.find?_eq_none]
  intro e he hdec
  refine hkey ((keys_present_sublist fields).subset (List.mem_map.mpr ⟨e, he, ?_⟩))
  exact of_decide_eq_true hdec

theorem dictGet_dict (entries : List (List UInt8 × BencodeValue)) : dictGet (.dict entries) key =
    (entries.find? fun e => decide (e.1 = key)).map Prod.snd := rfl

theorem dictGet_cons (key' : List UInt8) (v : BencodeValue)
    (entries : List (List UInt8 × BencodeValue)) : dictGet (.dict ((key', v) :: entries)) key =
      if key' = key then some v else dictGet (.dict entries) key := by
  rw [dictGet_dict, dictGet_dict, List.find?_cons]
  by_cases hkey : key' = key
  · rw [if_pos hkey, decide_eq_true hkey]
    rfl
  · rw [if_neg hkey, decide_eq_false hkey]

/-- **An optional entry** is looked up. -/
theorem dictGet_present : ∀ {fields : List (List UInt8 × Option BencodeValue)} {o : Option BencodeValue},
    (fields.map Prod.fst).Nodup → (key, o) ∈ fields → dictGet (.dict (present fields)) key = o
  | (key', o') :: fields, o, hnodup, hmem => by
    obtain ⟨hnot, hnodup⟩ := List.nodup_cons.mp hnodup
    rcases List.mem_cons.mp hmem with he | hrest
    · obtain ⟨rfl, rfl⟩ := Prod.mk.inj he
      cases o with
      | none => rw [present_cons_none, dictGet_dict, find?_present hnot]; rfl
      | some v => rw [present_cons_some, dictGet_cons, if_pos rfl]
    · have hne : key' ≠ key := by
        rintro rfl
        exact hnot (List.mem_map.mpr ⟨_, hrest, rfl⟩)
      have ih := dictGet_present hnodup hrest
      cases o' with
      | none => exact ih
      | some v => rw [present_cons_some, dictGet_cons, if_neg hne, ih]

/-- The bytes of an optional entry. -/
def fieldBytes (e : List UInt8 × Option BencodeValue) : List UInt8 :=
  match e.2 with
  | some v => encodeString e.1 ++ encode v
  | none => []

theorem entryBytes_present : ∀ fields : List (List UInt8 × Option BencodeValue),
    entryBytes (present fields) = fields.flatMap fieldBytes
  | [] => rfl
  | (_, none) :: fields => entryBytes_present fields
  | (_, some _) :: fields => congrArg _ (entryBytes_present fields)

/-- **A dictionary whose fields are sorted** is encoded field by field. -/
theorem encode_present (h : (fields.map Prod.fst).Pairwise keyLe) :
    encode (.dict (present fields)) = byte 'd' :: (fields.flatMap fieldBytes ++ [byte 'e']) := by
  have hsorted := h.sublist (keys_present_sublist fields)
  rw [encode_dict, sortByKey_of_pairwise hsorted, entryBytes_present]

theorem mem_present {e : List UInt8 × BencodeValue} (h : e ∈ present fields) :
    (e.1, some e.2) ∈ fields := by
  obtain ⟨⟨k, o⟩, hmem, he⟩ := List.mem_filterMap.mp h
  obtain ⟨v, rfl, rfl⟩ := Option.map_eq_some_iff.mp he
  exact hmem

end Fields

/-! ### The values -/

/-- The fields of the info dictionary. -/
def infoFields (name : Text) (length pieceLength : ℕ) (pieces : List UInt8) :
    List (List UInt8 × Option BencodeValue) :=
  [(text "length", some (.int (asI64 length))), (text "name", some (.bytes name)),
    (text "piece length", some (.int (asI64 pieceLength))), (text "pieces", some (.bytes pieces))]

/-- The keys of the info dictionary. -/
def infoKeys : List (List UInt8) := [text "length", text "name", text "piece length", text "pieces"]

theorem infoKeys_sorted : infoKeys.Pairwise keyLe := by decide

theorem infoKeys_nodup : infoKeys.Nodup := by decide

def infoValue (name : Text) (length pieceLength : ℕ) (pieces : List UInt8) : BencodeValue :=
  .dict (present (infoFields name length pieceLength pieces))

/-- All trackers, if there are two or more: a list of tiers of one tracker. -/
def announceList (trackers : List Text) : Option BencodeValue :=
  if 2 ≤ trackers.length then some (.list (trackers.map fun t => .list [.bytes t])) else none

/-- The web seeds: a string if there is one, a list if there are more. -/
def urlList : List Text → Option BencodeValue
  | [] => none
  | [url] => some (.bytes url)
  | urls => some (.list (urls.map .bytes))

/-- The fields of the torrent. -/
def torrentFields (info : BencodeValue) (trackers webSeeds : List Text) :
    List (List UInt8 × Option BencodeValue) :=
  [(text "announce", trackers.head?.map .bytes), (text "announce-list", announceList trackers),
    (text "info", some info), (text "url-list", urlList webSeeds)]

/-- The keys of the torrent. -/
def torrentKeys : List (List UInt8) := [text "announce", text "announce-list", text "info", text "url-list"]

theorem torrentKeys_sorted : torrentKeys.Pairwise keyLe := by decide

theorem torrentKeys_nodup : torrentKeys.Nodup := by decide

def torrentValue (info : BencodeValue) (trackers webSeeds : List Text) : BencodeValue :=
  .dict (present (torrentFields info trackers webSeeds))

theorem encodeItems_eq_flatMap : ∀ items : List BencodeValue, encodeItems items = items.flatMap encode
  | [] => by rw [encodeItems]; rfl
  | v :: items => by rw [encodeItems, encodeItems_eq_flatMap items]; rfl

theorem encode_bytes (b : List UInt8) : encode (.bytes b) = bencodeString b := by
  rw [encode]
  rfl

theorem encode_int (n : Int64) : encode (.int n) = bencodeInt n := by
  rw [encode]
  rfl

theorem encode_list (items : List BencodeValue) :
    encode (.list items) = byte 'l' :: (items.flatMap encode ++ [byte 'e']) := by
  rw [encode, encodeItems_eq_flatMap]

/-- **The info dictionary** is written as the encoder writes it. -/
theorem encode_infoValue (name : Text) (length pieceLength : ℕ) (pieces : List UInt8) :
    encode (infoValue name length pieceLength pieces) =
      bencodeInfoDict name length pieceLength pieces := by
  have hkeys : (infoFields name length pieceLength pieces).map Prod.fst = infoKeys := rfl
  rw [infoValue, encode_present (by rw [hkeys]; exact infoKeys_sorted)]
  simp only [infoFields, List.flatMap_cons, List.flatMap_nil, fieldBytes, encode_bytes, encode_int,
    bencodeInfoDict, List.append_assoc, List.cons_append, List.nil_append, List.append_nil]
  rfl

theorem fieldBytes_announce (trackers : List Text) :
    fieldBytes (text "announce", trackers.head?.map .bytes) = announceBytes trackers := by
  cases trackers with
  | nil => rfl
  | cons first trackers =>
    show encodeString (text "announce") ++ encode (.bytes first) = _
    rw [encode_bytes]
    rfl

theorem fieldBytes_announceList (trackers : List Text) :
    fieldBytes (text "announce-list", announceList trackers) = announceListBytes trackers := by
  unfold announceList announceListBytes
  by_cases hmany : 2 ≤ trackers.length
  · have htier : (fun t : Text => encode (.list [.bytes t])) =
        fun t => [byte 'l'] ++ bencodeString t ++ [byte 'e'] := by
      funext t
      rw [encode_list, List.flatMap_singleton, encode_bytes]
      rfl
    rw [if_pos hmany, if_pos (Nat.lt_of_succ_le hmany)]
    show encodeString (text "announce-list") ++ encode (.list (trackers.map _)) = _
    rw [encode_list, List.flatMap_map, htier, List.append_assoc, List.append_assoc]
    rfl
  · rw [if_neg hmany, if_neg fun h => hmany (Nat.succ_le_of_lt h)]
    rfl

theorem fieldBytes_urlList (webSeeds : List Text) :
    fieldBytes (text "url-list", urlList webSeeds) = urlListBytes webSeeds := by
  match webSeeds with
  | [] => rfl
  | [url] =>
    show encodeString (text "url-list") ++ encode (.bytes url) = _
    rw [encode_bytes]
    rfl
  | url :: url' :: urls =>
    have hseed : (fun url => encode (.bytes url)) = bencodeString := funext encode_bytes
    show encodeString (text "url-list") ++ encode (.list ((url :: url' :: urls).map .bytes)) = _
    rw [encode_list, List.flatMap_map, hseed]
    rfl

/-- **The torrent** is written as the encoder writes it. -/
theorem encode_torrentValue (info : BencodeValue) (trackers webSeeds : List Text) :
    encode (torrentValue info trackers webSeeds) =
      bencodeTorrent (encode info) trackers webSeeds := by
  have hkeys : (torrentFields info trackers webSeeds).map Prod.fst = torrentKeys := rfl
  rw [torrentValue, encode_present (by rw [hkeys]; exact torrentKeys_sorted)]
  have hinfo : fieldBytes (text "info", some info) = bencodeString (text "info") ++ encode info := rfl
  simp only [torrentFields, List.flatMap_cons, List.flatMap_nil, fieldBytes_announce,
    fieldBytes_announceList, fieldBytes_urlList, hinfo, bencodeTorrent, List.append_assoc,
    List.cons_append, List.nil_append, List.append_nil]

/-! ### Shape -/

section Shape

variable {P : List (List UInt8) → Prop} {fields : List (List UInt8 × Option BencodeValue)}

theorem everyDict_bytes (b : List UInt8) : EveryDict P (.bytes b) := by
  rw [EveryDict]
  trivial

theorem everyDict_int (n : Int64) : EveryDict P (.int n) := by
  rw [EveryDict]
  trivial

theorem everyDict_list {items : List BencodeValue} (h : ∀ v ∈ items, EveryDict P v) :
    EveryDict P (.list items) := by
  rw [EveryDict, everyDictItems_iff]
  exact h

/-- A property of keys that fewer keys have as well is one of the entries that are there. -/
theorem everyDict_present (hsub : ∀ {l l' : List (List UInt8)}, l.Sublist l' → P l' → P l)
    (hkeys : P (fields.map Prod.fst))
    (hvalues : ∀ {key v}, (key, some v) ∈ fields → EveryDict P v) :
    EveryDict P (.dict (present fields)) := by
  rw [EveryDict, everyDictEntries_iff]
  exact ⟨hsub (keys_present_sublist fields) hkeys, fun e he => hvalues (mem_present he)⟩

theorem depth_present {n : ℕ} (h : ∀ {key v}, (key, some v) ∈ fields → depth v + 1 ≤ n) :
    depth (.dict (present fields)) ≤ n := by
  rw [depth, depthEntries_le_iff]
  exact fun e he => h (mem_present he)

theorem depth_bytes (b : List UInt8) : depth (.bytes b) = 0 := by rw [depth]

theorem depth_int (n : Int64) : depth (.int n) = 0 := by rw [depth]

theorem depth_list_le {items : List BencodeValue} {n : ℕ} (h : ∀ v ∈ items, depth v + 1 ≤ n) :
    depth (.list items) ≤ n := by
  rw [depth, depthItems_le_iff]
  exact h

/-- A field of the info dictionary has no level below it. -/
theorem infoFields_some {name : Text} {length pieceLength : ℕ} {pieces key : List UInt8}
    {v : BencodeValue} (h : (key, some v) ∈ infoFields name length pieceLength pieces) :
    (∃ b, v = .bytes b) ∨ ∃ n, v = .int n := by
  simp only [infoFields, List.mem_cons, Prod.mk.injEq, Option.some.injEq, List.not_mem_nil,
    or_false] at h
  rcases h with ⟨-, rfl⟩ | ⟨-, rfl⟩ | ⟨-, rfl⟩ | ⟨-, rfl⟩
  · exact Or.inr ⟨_, rfl⟩
  · exact Or.inl ⟨_, rfl⟩
  · exact Or.inr ⟨_, rfl⟩
  · exact Or.inl ⟨_, rfl⟩

/-- A field of the torrent: the info dictionary, or texts in up to two lists. -/
theorem torrentFields_some {info v : BencodeValue} {trackers webSeeds : List Text} {key : List UInt8}
    (h : (key, some v) ∈ torrentFields info trackers webSeeds) :
    v = info ∨ (∃ b, v = .bytes b) ∨ (∃ texts : List Text, v = .list (texts.map .bytes)) ∨
      ∃ texts : List Text, v = .list (texts.map fun t => .list [.bytes t]) := by
  simp only [torrentFields, List.mem_cons, Prod.mk.injEq, Option.some.injEq, List.not_mem_nil,
    or_false] at h
  rcases h with ⟨-, h⟩ | ⟨-, h⟩ | ⟨-, rfl⟩ | ⟨-, h⟩
  · obtain ⟨first, -, rfl⟩ := Option.map_eq_some_iff.mp h.symm
    exact Or.inr (Or.inl ⟨first, rfl⟩)
  · unfold announceList at h
    split_ifs at h
    exact Or.inr (Or.inr (Or.inr ⟨trackers, Option.some.inj h⟩))
  · exact Or.inl rfl
  · match webSeeds, h with
    | [url], h => exact Or.inr (Or.inl ⟨url, Option.some.inj h⟩)
    | url :: url' :: urls, h =>
      exact Or.inr (Or.inr (Or.inl ⟨url :: url' :: urls, Option.some.inj h⟩))

variable (name : Text) (length pieceLength : ℕ) (pieces : List UInt8) (trackers webSeeds : List Text)

theorem everyDict_infoValue (hsub : ∀ {l l' : List (List UInt8)}, l.Sublist l' → P l' → P l)
    (hkeys : P infoKeys) : EveryDict P (infoValue name length pieceLength pieces) := by
  refine everyDict_present hsub hkeys fun h => ?_
  rcases infoFields_some h with ⟨b, rfl⟩ | ⟨n, rfl⟩
  · exact everyDict_bytes b
  · exact everyDict_int n

theorem everyDict_torrentValue {info : BencodeValue} (hinfo : EveryDict P info)
    (hsub : ∀ {l l' : List (List UInt8)}, l.Sublist l' → P l' → P l) (hkeys : P torrentKeys) :
    EveryDict P (torrentValue info trackers webSeeds) := by
  refine everyDict_present hsub hkeys fun h => ?_
  rcases torrentFields_some h with rfl | ⟨b, rfl⟩ | ⟨texts, rfl⟩ | ⟨texts, rfl⟩
  · exact hinfo
  · exact everyDict_bytes b
  · refine everyDict_list fun v hv => ?_
    obtain ⟨t, -, rfl⟩ := List.mem_map.mp hv
    exact everyDict_bytes t
  · refine everyDict_list fun v hv => ?_
    obtain ⟨t, -, rfl⟩ := List.mem_map.mp hv
    exact everyDict_list fun v' hv' => by
      rw [List.mem_singleton.mp hv']
      exact everyDict_bytes t

theorem depth_infoValue : depth (infoValue name length pieceLength pieces) ≤ 1 := by
  refine depth_present fun h => ?_
  rcases infoFields_some h with ⟨b, rfl⟩ | ⟨n, rfl⟩
  · rw [depth_bytes]
  · rw [depth_int]

theorem depth_torrentValue {info : BencodeValue} (hinfo : depth info ≤ 1) :
    depth (torrentValue info trackers webSeeds) ≤ 3 := by
  refine depth_present fun h => Nat.succ_le_succ ?_
  rcases torrentFields_some h with rfl | ⟨b, rfl⟩ | ⟨texts, rfl⟩ | ⟨texts, rfl⟩
  · omega
  · rw [depth_bytes]
    omega
  · refine depth_list_le fun v hv => ?_
    obtain ⟨t, -, rfl⟩ := List.mem_map.mp hv
    rw [depth_bytes]
    omega
  · refine depth_list_le fun v hv => Nat.succ_le_succ ?_
    obtain ⟨t, -, rfl⟩ := List.mem_map.mp hv
    refine depth_list_le fun v' hv' => ?_
    rw [List.mem_singleton.mp hv', depth_bytes]

end Shape

/-! ### Reading back -/

section ReadBack

variable (sha1 : List UInt8 → Vector UInt8 20) (fileName : Text) (fileSize pieceLength : ℕ)
  (pieces : List UInt8) (trackers webSeeds : List Text)

/-- What a client reads: the value `v` of the torrent and the value `info` in it. -/
structure ReadBack (m : TorrentMetadata) (v info : BencodeValue) : Prop where
  decoded : decode m.torrentData = .ok v
  announce_eq : dictGet v (text "announce") = trackers.head?.map .bytes
  announceList_eq : dictGet v (text "announce-list") = announceList trackers
  urlList_eq : dictGet v (text "url-list") = urlList webSeeds
  info_eq : dictGet v (text "info") = some info
  name_eq : dictGet info (text "name") = some (.bytes fileName)
  length_eq : ∃ n : Int64, dictGet info (text "length") = some (.int n) ∧ n.toInt = fileSize
  pieceLength_eq : ∃ n : Int64, dictGet info (text "piece length") = some (.int n) ∧ n.toInt = pieceLength
  pieces_eq : dictGet info (text "pieces") = some (.bytes pieces)
  infoDict_eq : encode info = bencodeInfoDict fileName fileSize pieceLength pieces
  infoHash_eq : m.infoHash = toHex (sha1 (encode info)).toList

theorem toInt_asI64 {n : ℕ} (h : n ≤ i64Max) : (asI64 n).toInt = n :=
  Int64.toInt_ofNat_of_lt (Nat.lt_of_le_of_lt h (by decide))

theorem dictGet_infoValue {key : List UInt8} {o : Option BencodeValue}
    (h : (key, o) ∈ infoFields fileName fileSize pieceLength pieces) :
    dictGet (infoValue fileName fileSize pieceLength pieces) key = o :=
  dictGet_present infoKeys_nodup h

theorem dictGet_torrentValue {info : BencodeValue} {key : List UInt8} {o : Option BencodeValue}
    (h : (key, o) ∈ torrentFields info trackers webSeeds) :
    dictGet (torrentValue info trackers webSeeds) key = o :=
  dictGet_present torrentKeys_nodup h

/-- The bytes of the torrent are those of its value, and the strict decoder reads them. -/
theorem decode_torrentValue {info : BencodeValue}
    (hinfo : info = infoValue fileName fileSize pieceLength pieces)
    (hlen : (encode (torrentValue info trackers webSeeds)).length ≤ u64Max) :
    decode (encode (torrentValue info trackers webSeeds)) =
      .ok (torrentValue info trackers webSeeds) := by
  subst hinfo
  have hdistinct : DistinctKeys
      (torrentValue (infoValue fileName fileSize pieceLength pieces) trackers webSeeds) :=
    everyDict_torrentValue trackers webSeeds
      (everyDict_infoValue fileName fileSize pieceLength pieces List.Nodup.sublist infoKeys_nodup)
      List.Nodup.sublist torrentKeys_nodup
  have hsorted : Sorted
      (torrentValue (infoValue fileName fileSize pieceLength pieces) trackers webSeeds) :=
    everyDict_torrentValue trackers webSeeds
      (everyDict_infoValue fileName fileSize pieceLength pieces
        (fun hsub h => List.Pairwise.sublist hsub h) infoKeys_sorted)
      (fun hsub h => List.Pairwise.sublist hsub h) torrentKeys_sorted
  have hdepth := depth_torrentValue trackers webSeeds
    (depth_infoValue fileName fileSize pieceLength pieces)
  rw [decode_encode hlen (Nat.le_trans hdepth (by decide)) hdistinct, sortKeys_of_sorted _ hsorted]

/-- **A torrent is read back**: the decoder accepts it, every lookup gives the value that it was created
from, and the reported info hash is the one of the info dictionary encoded again. -/
theorem metainfo_read_back (pieceCount : ℕ) (hsize : fileSize ≤ i64Max)
    (hpiece : pieceLength ≤ i64Max) (hlen : (torrentMetadata sha1 fileName fileSize pieceLength pieces
      pieceCount trackers webSeeds).torrentData.length ≤ u64Max) :
    ∃ v info, ReadBack sha1 fileName fileSize pieceLength pieces trackers webSeeds
      (torrentMetadata sha1 fileName fileSize pieceLength pieces pieceCount trackers webSeeds) v info := by
  have hinfo : encode (infoValue fileName fileSize pieceLength pieces) =
      bencodeInfoDict fileName fileSize pieceLength pieces := encode_infoValue _ _ _ _
  have hdata : (torrentMetadata sha1 fileName fileSize pieceLength pieces pieceCount trackers
      webSeeds).torrentData =
        encode (torrentValue (infoValue fileName fileSize pieceLength pieces) trackers webSeeds) := by
    rw [encode_torrentValue, hinfo]
    rfl
  rw [hdata] at hlen
  refine ⟨torrentValue (infoValue fileName fileSize pieceLength pieces) trackers webSeeds, _,
    ?_, ?_, ?_, ?_, ?_, ?_, ⟨_, ?_, toInt_asI64 hsize⟩, ⟨_, ?_, toInt_asI64 hpiece⟩, ?_, hinfo, ?_⟩
  · rw [hdata]
    exact decode_torrentValue fileName fileSize pieceLength pieces trackers webSeeds rfl hlen
  · exact dictGet_torrentValue trackers webSeeds (by simp [torrentFields])
  · exact dictGet_torrentValue trackers webSeeds (by simp [torrentFields])
  · exact dictGet_torrentValue trackers webSeeds (by simp [torrentFields])
  · exact dictGet_torrentValue trackers webSeeds (by simp [torrentFields])
  · exact dictGet_infoValue fileName fileSize pieceLength pieces (by simp [infoFields])
  · exact dictGet_infoValue fileName fileSize pieceLength pieces (by simp [infoFields])
  · exact dictGet_infoValue fileName fileSize pieceLength pieces (by simp [infoFields])
  · exact dictGet_infoValue fileName fileSize pieceLength pieces (by simp [infoFields])
  · rw [hinfo]
    rfl

end ReadBack

/-- A digest of zeros. -/
def zeroDigest (_ : List UInt8) : Vector UInt8 20 := Vector.replicate 20 0

theorem metainfo_read_back_two_trackers :
    ∃ v info, ReadBack zeroDigest (text "a.zip") 10 4 (text "hashes") [text "t1", text "t2"] [text "w"]
      (torrentMetadata zeroDigest (text "a.zip") 10 4 (text "hashes") 3 [text "t1", text "t2"]
        [text "w"]) v info :=
  metainfo_read_back zeroDigest (text "a.zip") 10 4 (text "hashes") [text "t1", text "t2"] [text "w"] 3
    (by decide) (by decide) (by decide +kernel)

end CncContent.Torrent.Metainfo
