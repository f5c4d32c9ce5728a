import CncContent.Bencode.Canonical

/-! # Decoding what has been encoded

The decoder gives back every value whose nesting it has levels for and whose dictionaries have
distinct keys, with the entries of the dictionaries sorted by key (`decode_encode`). On sorted
values, of any depth, the encoding determines the value: no encoding is a proper prefix of another
one (`encode_prefix_free`), which rests on a colon or an `e` ending every numeral. -/

namespace CncContent.Bencode.RoundTrip

open CncContent.Lib.Bounded CncContent.Lib.Bytes CncContent.Lib.Checks CncContent.Lib.Decimal
open CncContent.Bencode.Codec CncContent.Bencode.Canonical

/-! ### Values -/

/-- Induction over a value, with the hypothesis for every item and for the value of every entry. -/
theorem value_induction {P : BencodeValue → Prop} (bytes : ∀ b, P (.bytes b))
    (int : ∀ n, P (.int n)) (list : ∀ items, (∀ v ∈ items, P v) → P (.list items))
    (dict : ∀ entries, (∀ e ∈ entries, P e.2) → P (.dict entries)) (v : BencodeValue) : P v := by
  refine @BencodeValue.rec P (fun items => ∀ v ∈ items, P v) (fun entries => ∀ e ∈ entries, P e.2)
    (fun e => P e.2) bytes int list dict ?_ ?_ ?_ ?_ (fun _ _ h => h) v
  · exact fun v hv => absurd hv List.not_mem_nil
  · intro v items hv ih v' hv'
    rcases List.mem_cons.mp hv' with rfl | hv'
    · exact hv
    · exact ih v' hv'
  · exact fun e he => absurd he List.not_mem_nil
  · intro e entries he ih e' he'
    rcases List.mem_cons.mp he' with rfl | he'
    · exact he
    · exact ih e' he'

mutual

/-- The levels of a value below its root. Keys are one level below their dictionary. -/
def depth : BencodeValue → ℕ
  | .bytes _ => 0
  | .int _ => 0
  | .list items => depthItems items
  | .dict entries => depthEntries entries

def depthItems : List BencodeValue → ℕ
  | [] => 0
  | v :: vs => max (depth v + 1) (depthItems vs)

def depthEntries : List (List UInt8 × BencodeValue) → ℕ
  | [] => 0
  | (_, v) :: es => max (depth v + 1) (depthEntries es)

end

section EveryDict

variable (P : List (List UInt8) → Prop)

mutual

/-- The keys of every dictionary, in order, have the property. -/
def EveryDict : BencodeValue → Prop
  | .bytes _ => True
  | .int _ => True
  | .list items => EveryDictItems items
  | .dict entries => P (entries.map Prod.fst) ∧ EveryDictEntries entries

def EveryDictItems : List BencodeValue → Prop
  | [] => True
  | v :: vs => EveryDict v ∧ EveryDictItems vs

def EveryDictEntries : List (List UInt8 × BencodeValue) → Prop
  | [] => True
  | (_, v) :: es => EveryDict v ∧ EveryDictEntries es

end

end EveryDict

/-- No dictionary has two entries with the same key. -/
def DistinctKeys : BencodeValue → Prop := EveryDict List.Nodup

/-- Every dictionary is sorted by key. -/
def Sorted : BencodeValue → Prop := EveryDict (List.Pairwise keyLe)

mutual

/-- The value with the entries of every dictionary sorted by key. -/
def sortKeys : BencodeValue → BencodeValue
  | .bytes b => .bytes b
  | .int n => .int n
  | .list items => .list (sortKeysItems items)
  | .dict entries => .dict (sortByKey (sortKeysEntries entries))

def sortKeysItems : List BencodeValue → List BencodeValue
  | [] => []
  | v :: vs => sortKeys v :: sortKeysItems vs

def sortKeysEntries : List (List UInt8 × BencodeValue) → List (List UInt8 × BencodeValue)
  | [] => []
  | (k, v) :: es => (k, sortKeys v) :: sortKeysEntries es

end

theorem depthItems_le_iff {n : ℕ} : ∀ {items : List BencodeValue},
    depthItems items ≤ n ↔ ∀ v ∈ items, depth v + 1 ≤ n
  | [] => by simp [depthItems]
  | v :: vs => by rw [depthItems, Nat.max_le, depthItems_le_iff, List.forall_mem_cons]

theorem depthEntries_le_iff {n : ℕ} : ∀ {entries : List (List UInt8 × BencodeValue)},
    depthEntries entries ≤ n ↔ ∀ e ∈ entries, depth e.2 + 1 ≤ n
  | [] => by simp [depthEntries]
  | (_, v) :: es => by rw [depthEntries, Nat.max_le, depthEntries_le_iff, List.forall_mem_cons]

theorem everyDictItems_iff {P : List (List UInt8) → Prop} : ∀ {items : List BencodeValue},
    EveryDictItems P items ↔ ∀ v ∈ items, EveryDict P v
  | [] => by simp [EveryDictItems]
  | v :: vs => by rw [EveryDictItems, everyDictItems_iff, List.forall_mem_cons]

theorem everyDictEntries_iff {P : List (List UInt8) → Prop} :
    ∀ {entries : List (List UInt8 × BencodeValue)},
      EveryDictEntries P entries ↔ ∀ e ∈ entries, EveryDict P e.2
  | [] => by simp [EveryDictEntries]
  | (_, v) :: es => by rw [EveryDictEntries, everyDictEntries_iff, List.forall_mem_cons]

theorem sortKeysItems_eq_map : ∀ items : List BencodeValue,
    sortKeysItems items = items.map sortKeys
  | [] => by rw [sortKeysItems]; rfl
  | v :: vs => by rw [sortKeysItems, sortKeysItems_eq_map vs]; rfl

theorem sortKeysEntries_eq_map : ∀ entries : List (List UInt8 × BencodeValue),
    sortKeysEntries entries = entries.map fun e => (e.1, sortKeys e.2)
  | [] => by rw [sortKeysEntries]; rfl
  | (k, v) :: es => by rw [sortKeysEntries, sortKeysEntries_eq_map es]; rfl

theorem sortByKey_of_pairwise {β : Type} {entries : List (List UInt8 × β)}
    (h : (entries.map Prod.fst).Pairwise keyLe) : sortByKey entries = entries :=
  List.Pairwise.insertionSort_eq (List.pairwise_map.mp h)

/-- A sorted value is left as it is. -/
theorem sortKeys_of_sorted (v : BencodeValue) : Sorted v → sortKeys v = v := by
  unfold Sorted
  induction v using value_induction with
  | bytes b => intro _; rw [sortKeys]
  | int n => intro _; rw [sortKeys]
  | list items ih =>
    intro h
    rw [EveryDict, everyDictItems_iff] at h
    have hmap : items.map sortKeys = items :=
      (List.map_congr_left fun v hv => ih v hv (h v hv)).trans (List.map_id _)
    rw [sortKeys, sortKeysItems_eq_map, hmap]
  | dict entries ih =>
    intro h
    rw [EveryDict, everyDictEntries_iff] at h
    have hmap : entries.map (fun e => (e.1, sortKeys e.2)) = entries := by
      refine (List.map_congr_left fun e he => ?_).trans (List.map_id _)
      rw [ih e he (h.2 e he)]
      rfl
    rw [sortKeys, sortKeysEntries_eq_map, hmap, sortByKey_of_pairwise h.1]

/-- Sorting the entries and then the values is the same as the other way round. -/
theorem sortKeys_dict (entries : List (List UInt8 × BencodeValue)) : sortKeys (.dict entries) =
    .dict ((sortByKey entries).map fun e => (e.1, sortKeys e.2)) := by
  rw [sortKeys, sortKeysEntries_eq_map]
  unfold sortByKey
  rw [← List.map_insertionSort (fun e e' => keyLe e.1 e'.1) (fun e e' => keyLe e.1 e'.1)
    (fun e : List UInt8 × BencodeValue => (e.1, sortKeys e.2)) entries fun _ _ _ _ => Iff.rfl]

/-- Distinct keys grow strictly once they are sorted. -/
theorem keysGrow_sortByKey {entries : List (List UInt8 × BencodeValue)}
    (h : (entries.map Prod.fst).Nodup) : KeysGrow (sortByKey entries) := by
  have hperm : (sortByKey entries).Perm entries := List.perm_insertionSort _ _
  have hnodup : ((sortByKey entries).map Prod.fst).Nodup := (hperm.map Prod.fst).nodup_iff.mpr h
  have hsorted : (sortByKey entries).Pairwise fun e e' => keyLe e.1 e'.1 := by
    have : Std.Total fun e e' : List UInt8 × BencodeValue => keyLe e.1 e'.1 :=
      ⟨fun e e' => keyLe_total e.1 e'.1⟩
    have : IsTrans _ fun e e' : List UInt8 × BencodeValue => keyLe e.1 e'.1 :=
      ⟨fun _ _ _ => keyLe_trans⟩
    exact List.pairwise_insertionSort _ _
  refine (hsorted.and (List.pairwise_map.mp hnodup)).imp fun {e e'} he hle => ?_
  exact he.2 (keyLe_antisymm he.1 hle)

/-! ### Decoding the parts -/

section Decode

variable {data : List UInt8} {pos : ℕ} {rest : List UInt8}

/-- A segment that is there lies within the data. -/
theorem segment_le {w : List UInt8} (h : data.drop pos = w ++ rest) (hw : w ≠ []) :
    pos + w.length ≤ data.length := by
  have hlen := congrArg List.length h
  rw [List.length_drop, List.length_append] at hlen
  have := List.length_pos_iff.mpr hw
  omega

theorem slice_segment {w : List UInt8} (h : data.drop pos = w ++ rest) (hle : pos ≤ data.length) :
    slice data pos (pos + w.length) = some w :=
  slice_eq_some_iff.mpr ⟨hle, rfl, rest, h⟩

theorem decodeInt_encode (hdata : data.length ≤ u64Max) (n : Int64)
    (h : data.drop pos = encode (.int n) ++ rest) :
    decodeInt data pos = .ok (.int n, pos + (encode (.int n)).length) := by
  rw [encode] at h ⊢
  have hle := segment_le h (List.cons_ne_nil _ _)
  set ds := printInt n.toInt with hds
  simp only [List.length_cons, List.length_append, List.length_nil] at hle ⊢
  have hdigits : data.drop (pos + 1) = ds ++ byte 'e' :: rest := by
    have hsplit : data.drop pos = [byte 'i'] ++ (ds ++ byte 'e' :: rest) := by rw [h]; simp
    exact drop_add_of_append hsplit
  have hascii : ∀ b ∈ ds, b < 0x80 := by
    intro b hb
    rcases mem_printInt hb with hd | rfl
    · exact lt_of_isDigit hd
    · decide
  have hnote : byte 'e' ∉ ds := by
    intro hb
    rcases mem_printInt hb with hd | hd
    · exact absurd hd (by decide)
    · exact absurd hd (by decide)
  have hfind : findByte data (pos + 1) (byte 'e') = some (pos + 1 + ds.length) :=
    (findByte_eq_some_iff hdata).mpr ⟨by omega, ds, rest, hdigits, hnote, rfl⟩
  unfold decodeInt
  simp only [bind_eq_ok, okOr_eq_ok, refuse_eq_ok, checkedAdd_eq_some_iff]
  refine ⟨pos + 1, ⟨rfl, by omega⟩, _, hfind, ds, slice_segment hdigits (by omega), (), ?_, (), ?_,
    (), leadingZero_printInt _, (), ?_, (), ?_, (), ?_, (), ?_, n, parseI64_printInt n, _,
    ⟨rfl, by omega⟩, ?_⟩
  · exact List.isEmpty_eq_false_iff.mpr (printInt_ne_nil _)
  · exact decide_eq_false (Nat.not_lt_of_le (length_printInt_le n))
  · rw [beq_eq_false_iff_ne]
    intro he
    obtain ⟨hnat, hpos⟩ := printInt_eq_minus_cons he
    have hval := value_printNat n.toInt.natAbs
    rw [← hnat] at hval
    exact absurd hval (Nat.ne_of_lt hpos)
  · rw [beq_eq_false_iff_ne]
    intro he
    obtain ⟨hnat, -⟩ := printInt_eq_minus_cons he
    exact (isNumeral_iff.mp (isNumeral_printNat _)).1 hnat.symm
  · rcases hcase : ds with _ | ⟨b, ds'⟩
    · rfl
    · by_cases hb : b = byte '-'
      · subst hb
        obtain ⟨hnat, -⟩ := printInt_eq_minus_cons (hds.symm.trans hcase)
        have hlead := leadingZero_printNat n.toInt.natAbs
        rw [← hnat] at hlead
        rcases ds' with _ | ⟨c, ds''⟩
        · rfl
        · simpa [leadingZero] using hlead
      · simp [hb]
  · rw [validUtf8_of_ascii hascii]
    rfl
  · have hend : pos + 1 + ds.length + 1 = pos + (ds.length + (0 + 1) + 1) := by omega
    rw [hend]
    rfl

theorem decodeBytes_encode (hdata : data.length ≤ u64Max) (b : List UInt8)
    (h : data.drop pos = encodeString b ++ rest) :
    decodeBytes data pos = .ok (.bytes b, pos + (encodeString b).length) := by
  have hne : encodeString b ≠ [] := by
    unfold encodeString
    simp
  have hle := segment_le h hne
  unfold encodeString at h hle ⊢
  set ds := printNat b.length with hds
  simp only [List.length_cons, List.length_append] at hle ⊢
  have hlen : data.drop pos = ds ++ byte ':' :: (b ++ rest) := by rw [h]; simp
  have hbytes : data.drop (pos + ds.length + 1) = b ++ rest := by
    have hsplit : data.drop pos = (ds ++ [byte ':']) ++ (b ++ rest) := by rw [h]; simp
    have hdrop := drop_add_of_append hsplit
    rwa [List.length_append, List.length_singleton, ← Nat.add_assoc] at hdrop
  have hdigits := (isNumeral_iff.mp (isNumeral_printNat b.length)).2
  have hcolon : byte ':' ∉ ds := by
    intro hb
    exact absurd (hdigits _ hb) (by decide)
  have hfind : findByte data pos (byte ':') = some (pos + ds.length) :=
    (findByte_eq_some_iff hdata).mpr ⟨by omega, ds, b ++ rest, hlen, hcolon, rfl⟩
  have hutf : validUtf8 ds = true := validUtf8_of_ascii fun x hx => lt_of_isDigit (hdigits x hx)
  unfold decodeBytes
  simp only [bind_eq_ok, okOr_eq_ok, refuse_eq_ok, checkedAdd_eq_some_iff]
  refine ⟨_, hfind, ds, slice_segment hlen (by omega), (), by rw [hutf]; rfl, b.length,
    parseNat_printNat (by omega), _, ⟨rfl, by omega⟩, _, ⟨rfl, by omega⟩, b,
    slice_segment hbytes (by omega), ?_⟩
  rw [Nat.add_assoc, Nat.add_assoc, Nat.add_comm 1 b.length]
  rfl

/-- The bytes an encoding of the value may start with. -/
def Opens : BencodeValue → UInt8 → Prop
  | .bytes _, c => isDigit c = true
  | .int _, c => c = byte 'i'
  | .list _, c => c = byte 'l'
  | .dict _, c => c = byte 'd'

theorem opens_encode (v : BencodeValue) : ∃ c w, encode v = c :: w ∧ Opens v c := by
  cases v with
  | bytes b =>
    obtain ⟨hne, hdigits⟩ := isNumeral_iff.mp (isNumeral_printNat b.length)
    obtain ⟨c, ds, hds⟩ := List.exists_cons_of_ne_nil hne
    refine ⟨c, ds ++ byte ':' :: b, by rw [encode, encodeString, hds]; rfl, ?_⟩
    exact hdigits c (by rw [hds]; simp)
  | int n => exact ⟨byte 'i', _, by rw [encode], rfl⟩
  | list items => exact ⟨byte 'l', _, by rw [encode], rfl⟩
  | dict entries => exact ⟨byte 'd', _, by rw [encode], rfl⟩

/-- No encoding starts with an `e`. -/
theorem encode_head (v : BencodeValue) : ∃ c w, encode v = c :: w ∧ c ≠ byte 'e' := by
  obtain ⟨c, w, hw, hc⟩ := opens_encode v
  refine ⟨c, w, hw, ?_⟩
  rintro rfl
  cases v with
  | bytes b =>
    have hdigit : isDigit (byte 'e') = true := hc
    exact absurd hdigit (by decide)
  | int n =>
    have hbyte : byte 'e' = byte 'i' := hc
    exact absurd hbyte (by decide)
  | list items =>
    have hbyte : byte 'e' = byte 'l' := hc
    exact absurd hbyte (by decide)
  | dict entries =>
    have hbyte : byte 'e' = byte 'd' := hc
    exact absurd hbyte (by decide)

theorem length_encode_pos (v : BencodeValue) : 0 < (encode v).length := by
  obtain ⟨c, w, hw, -⟩ := encode_head v
  rw [hw]
  exact Nat.succ_pos _

/-- The decoder of items does its work on the value, wherever it stands in the data. -/
def Restores (data : List UInt8) (item : ℕ → Decoded) (v v' : BencodeValue) : Prop :=
  ∀ pos rest, data.drop pos = encode v ++ rest → item pos = .ok (v', pos + (encode v).length)

/-- At the end of a list or a dictionary. -/
theorem end_getElem? (h : data.drop pos = byte 'e' :: rest) : data[pos]? = some (byte 'e') := by
  have hget := congrArg (fun l : List UInt8 => l[0]?) h
  simpa using hget

/-- At a value there is a byte, and it is not the end. -/
theorem value_getElem? {v : BencodeValue} (h : data.drop pos = encode v ++ rest) :
    ∃ c, data[pos]? = some c ∧ c ≠ byte 'e' := by
  obtain ⟨c, w, hw, hc⟩ := encode_head v
  rw [hw] at h
  have hget := congrArg (fun l : List UInt8 => l[0]?) h
  exact ⟨c, by simpa using hget, hc⟩

theorem decodeItems_encode (hdata : data.length ≤ u64Max) {item : ℕ → Decoded} :
    ∀ (front : List BencodeValue) {items : List BencodeValue} {rounds pos : ℕ} {rest : List UInt8},
      (∀ v ∈ items, Restores data item v (sortKeys v)) → items.length < rounds →
        data.drop pos = encodeItems items ++ byte 'e' :: rest →
          decodeItems data item rounds pos front =
            .ok (.list (front ++ items.map sortKeys), pos + (encodeItems items).length + 1)
  | front, [], rounds + 1, pos, rest, _, _, h => by
    rw [encodeItems, List.nil_append] at h
    have hle := segment_le (w := [byte 'e']) h (List.cons_ne_nil _ _)
    rw [List.length_singleton] at hle
    unfold decodeItems
    simp only [bind_eq_ok, okOr_eq_ok]
    refine ⟨_, end_getElem? h, ?_⟩
    rw [if_pos rfl]
    simp only [bind_eq_ok, okOr_eq_ok, checkedAdd_eq_some_iff]
    refine ⟨_, ⟨rfl, by omega⟩, ?_⟩
    rw [encodeItems, List.map_nil, List.append_nil]
    rfl
  | front, v :: vs, rounds + 1, pos, rest, hitem, hrounds, h => by
    rw [encodeItems, List.append_assoc] at h
    obtain ⟨c, hc, hne⟩ := value_getElem? h
    have hv := hitem v (by simp) pos _ h
    have ih := decodeItems_encode hdata (front ++ [sortKeys v])
      (fun v' hv' => hitem v' (by simp [hv'])) (Nat.lt_of_succ_lt_succ hrounds)
      (drop_add_of_append h)
    unfold decodeItems
    simp only [bind_eq_ok, okOr_eq_ok]
    refine ⟨c, hc, ?_⟩
    rw [if_neg hne, bind_eq_ok]
    refine ⟨_, hv, ih.trans ?_⟩
    rw [encodeItems, List.append_assoc, List.length_append, ← Nat.add_assoc]
    rfl

theorem decodeKey_encode {item : ℕ → Decoded} {key : List UInt8}
    {front : List (List UInt8 × BencodeValue)} (hitem : Restores data item (.bytes key) (.bytes key))
    (hgrow : ∀ e ∈ front, ¬ keyLe key e.1) (h : data.drop pos = encodeString key ++ rest) :
    decodeKey data item front pos = .ok (key, pos + (encodeString key).length) := by
  have hk := hitem pos rest (by rw [encode]; exact h)
  rw [encode] at hk
  unfold decodeKey
  rw [bind_eq_ok]
  refine ⟨_, hk, ?_⟩
  simp only [bind_eq_ok, refuse_eq_ok]
  refine ⟨(), ?_, rfl⟩
  rcases hlast : front.getLast? with _ | last
  · rfl
  · exact decide_eq_false (hgrow last (List.mem_of_getLast? hlast))

theorem decodeEntries_encode (hdata : data.length ≤ u64Max) {item : ℕ → Decoded} :
    ∀ (front : List (List UInt8 × BencodeValue)) {entries : List (List UInt8 × BencodeValue)}
      {rounds pos : ℕ} {rest : List UInt8},
      (∀ e ∈ entries, Restores data item (.bytes e.1) (.bytes e.1)) →
      (∀ e ∈ entries, Restores data item e.2 (sortKeys e.2)) →
      (∀ e ∈ entries, ∀ e' ∈ front, ¬ keyLe e.1 e'.1) → KeysGrow entries →
      entries.length < rounds → data.drop pos = entryBytes entries ++ byte 'e' :: rest →
        decodeEntries data item rounds pos front =
          .ok (.dict (front ++ entries.map fun e => (e.1, sortKeys e.2)),
            pos + (entryBytes entries).length + 1)
  | front, [], rounds + 1, pos, rest, _, _, _, _, _, h => by
    have hle := segment_le (w := [byte 'e']) h (List.cons_ne_nil _ _)
    rw [List.length_singleton] at hle
    unfold decodeEntries
    simp only [bind_eq_ok, okOr_eq_ok]
    refine ⟨_, end_getElem? h, ?_⟩
    rw [if_pos rfl]
    simp only [bind_eq_ok, okOr_eq_ok, checkedAdd_eq_some_iff]
    refine ⟨_, ⟨rfl, by omega⟩, ?_⟩
    rw [List.map_nil, List.append_nil]
    rfl
  | front, (key, v) :: es, rounds + 1, pos, rest, hkeys, hvals, hfront, hgrow, hrounds, h => by
    have hbytes : entryBytes ((key, v) :: es) = encodeString key ++ (encode v ++ entryBytes es) := by
      rw [← List.append_assoc]
      rfl
    rw [hbytes, List.append_assoc, List.append_assoc] at h
    have hv := drop_add_of_append h
    rw [KeysGrow, List.pairwise_cons] at hgrow
    have hkey := decodeKey_encode (hkeys (key, v) (by simp)) (hfront (key, v) (by simp)) h
    obtain ⟨c, hc, hne⟩ := value_getElem? (v := .bytes key) (by rw [encode]; exact h)
    have ih := decodeEntries_encode hdata (front ++ [(key, sortKeys v)])
      (fun e he => hkeys e (by simp [he])) (fun e he => hvals e (by simp [he]))
      (fun e he e' he' => ?_) hgrow.2 (Nat.lt_of_succ_lt_succ hrounds) (drop_add_of_append hv)
    · unfold decodeEntries
      simp only [bind_eq_ok, okOr_eq_ok]
      refine ⟨c, hc, ?_⟩
      rw [if_neg hne, bind_eq_ok]
      refine ⟨_, hkey, ?_⟩
      rw [bind_eq_ok]
      refine ⟨_, hvals (key, v) (by simp) _ _ hv, ih.trans ?_⟩
      rw [hbytes, List.append_assoc, List.length_append, List.length_append, ← Nat.add_assoc,
        ← Nat.add_assoc]
      rfl
    · rcases List.mem_append.mp he' with he' | he'
      · exact hfront e (by simp [he]) e' he'
      · rw [List.mem_singleton.mp he']
        exact hgrow.1 e he

theorem length_le_encodeItems : ∀ items : List BencodeValue,
    items.length ≤ (encodeItems items).length
  | [] => Nat.zero_le _
  | v :: vs => by
    have hv := length_encode_pos v
    have ih := length_le_encodeItems vs
    rw [encodeItems, List.length_append, List.length_cons]
    omega

theorem length_le_entryBytes : ∀ entries : List (List UInt8 × BencodeValue),
    entries.length ≤ (entryBytes entries).length
  | [] => Nat.zero_le _
  | (k, v) :: es => by
    have hv := length_encode_pos v
    have ih := length_le_entryBytes es
    show es.length + 1 ≤ ((encodeString k ++ encode v) ++ entryBytes es).length
    rw [List.length_append, List.length_append]
    omega

/-- The first byte decides which decoder is called. -/
theorem getElem?_of_cons {c : UInt8} {w : List UInt8} (h : data.drop pos = (c :: w) ++ rest) :
    data[pos]? = some c := by
  have hget := congrArg (fun l : List UInt8 => l[0]?) h
  simpa using hget

theorem restores_bytes (hdata : data.length ≤ u64Max) (b : List UInt8) :
    ∀ {levels : ℕ}, 0 < levels → Restores data (decodeValue data levels) (.bytes b) (.bytes b)
  | levels + 1, _, pos, rest, h => by
    rw [encode] at h ⊢
    obtain ⟨hne, hdigits⟩ := isNumeral_iff.mp (isNumeral_printNat b.length)
    obtain ⟨c, ds, hds⟩ := List.exists_cons_of_ne_nil hne
    have hc : isDigit c = true := hdigits c (by rw [hds]; simp)
    have hfirst : data[pos]? = some c :=
      getElem?_of_cons (w := ds ++ byte ':' :: b) (by rw [h, encodeString, hds]; rfl)
    have hother : ∀ x, isDigit x = false → c ≠ x := by
      rintro x hx rfl
      rw [hc] at hx
      cases hx
    unfold decodeValue
    simp only [bind_eq_ok, okOr_eq_ok]
    refine ⟨c, hfirst, ?_⟩
    rw [if_neg (hother _ (by decide)), if_neg (hother _ (by decide)),
      if_neg (hother _ (by decide)), if_pos hc]
    exact decodeBytes_encode hdata b h

theorem restores_int (hdata : data.length ≤ u64Max) (n : Int64) (levels : ℕ) :
    Restores data (decodeValue data (levels + 1)) (.int n) (.int n) := by
  intro pos rest h
  unfold decodeValue
  simp only [bind_eq_ok, okOr_eq_ok]
  refine ⟨byte 'i', getElem?_of_cons (by rw [h, encode]), ?_⟩
  rw [if_pos rfl]
  exact decodeInt_encode hdata n h

/-- A list is restored if its items are, one level below. -/
theorem restores_list (hdata : data.length ≤ u64Max) {items : List BencodeValue} {levels : ℕ}
    (hitems : ∀ v ∈ items, Restores data (decodeValue data levels) v (sortKeys v)) :
    Restores data (decodeValue data (levels + 1)) (.list items) (sortKeys (.list items)) := by
  intro pos rest h
  rw [encode] at h ⊢
  have hle := segment_le h (List.cons_ne_nil _ _)
  have hdrop : data.drop (pos + 1) = encodeItems items ++ byte 'e' :: rest :=
    drop_add_of_append (l := [byte 'l']) (by rw [h]; simp)
  have hrounds := length_le_encodeItems items
  simp only [List.length_cons, List.length_append, List.length_nil] at hle ⊢
  have hread := decodeItems_encode hdata [] hitems (by omega : items.length < data.length + 1) hdrop
  unfold decodeValue
  simp only [bind_eq_ok, okOr_eq_ok]
  refine ⟨byte 'l', getElem?_of_cons h, ?_⟩
  rw [if_neg (by decide), if_pos rfl]
  unfold decodeList
  simp only [bind_eq_ok, okOr_eq_ok, checkedAdd_eq_some_iff]
  refine ⟨_, ⟨rfl, by omega⟩, hread.trans ?_⟩
  rw [sortKeys, sortKeysItems_eq_map, List.nil_append,
    show pos + 1 + (encodeItems items).length + 1 =
      pos + ((encodeItems items).length + (0 + 1) + 1) by omega]

/-- A dictionary is restored if its values are, one level below; there is such a level if it has an
entry. -/
theorem restores_dict (hdata : data.length ≤ u64Max) {entries : List (List UInt8 × BencodeValue)}
    {levels : ℕ} (hlevels : ∀ e ∈ entries, 0 < levels) (hkeys : (entries.map Prod.fst).Nodup)
    (hvalues : ∀ e ∈ entries, Restores data (decodeValue data levels) e.2 (sortKeys e.2)) :
    Restores data (decodeValue data (levels + 1)) (.dict entries) (sortKeys (.dict entries)) := by
  intro pos rest h
  rw [encode_dict] at h ⊢
  have hmem : ∀ {e}, e ∈ sortByKey entries → e ∈ entries :=
    (List.perm_insertionSort _ entries).mem_iff.mp
  have hle := segment_le h (List.cons_ne_nil _ _)
  have hdrop : data.drop (pos + 1) = entryBytes (sortByKey entries) ++ byte 'e' :: rest :=
    drop_add_of_append (l := [byte 'd']) (by rw [h]; simp)
  have hrounds := length_le_entryBytes (sortByKey entries)
  simp only [List.length_cons, List.length_append, List.length_nil] at hle ⊢
  -- a key is a byte string one level below the dictionary, which an entry has opened
  have hread := decodeEntries_encode hdata []
    (fun e he => restores_bytes hdata e.1 (hlevels e (hmem he)))
    (fun e he => hvalues e (hmem he))
    (fun _ _ e' he' => absurd he' List.not_mem_nil) (keysGrow_sortByKey hkeys)
    (by omega : (sortByKey entries).length < data.length + 1) hdrop
  unfold decodeValue
  simp only [bind_eq_ok, okOr_eq_ok]
  refine ⟨byte 'd', getElem?_of_cons h, ?_⟩
  rw [if_neg (by decide), if_neg (by decide), if_pos rfl]
  unfold decodeDict
  simp only [bind_eq_ok, okOr_eq_ok, checkedAdd_eq_some_iff]
  refine ⟨_, ⟨rfl, by omega⟩, hread.trans ?_⟩
  rw [sortKeys_dict, List.nil_append,
    show pos + 1 + (entryBytes (sortByKey entries)).length + 1 =
      pos + ((entryBytes (sortByKey entries)).length + (0 + 1) + 1) by omega]

/-- **`decode_value` on an encoding**, with enough levels, reads it to its end and gives the value
back with sorted keys. -/
theorem decodeValue_encode (hdata : data.length ≤ u64Max) (v : BencodeValue) :
    ∀ levels, depth v < levels → DistinctKeys v →
      Restores data (decodeValue data levels) v (sortKeys v) := by
  unfold DistinctKeys
  induction v using value_induction with
  | bytes b =>
    intro levels hdepth _
    rw [sortKeys]
    exact restores_bytes hdata b (Nat.zero_lt_of_lt hdepth)
  | int n =>
    rintro (_ | levels) hdepth -
    · exact absurd hdepth (Nat.not_lt_zero _)
    · rw [sortKeys]
      exact restores_int hdata n levels
  | list items ih =>
    rintro (_ | levels) hdepth hkeys
    · exact absurd hdepth (Nat.not_lt_zero _)
    · rw [depth, Nat.lt_succ_iff, depthItems_le_iff] at hdepth
      rw [EveryDict, everyDictItems_iff] at hkeys
      exact restores_list hdata fun v hv => ih v hv levels (hdepth v hv) (hkeys v hv)
  | dict entries ih =>
    rintro (_ | levels) hdepth hkeys
    · exact absurd hdepth (Nat.not_lt_zero _)
    · rw [depth, Nat.lt_succ_iff, depthEntries_le_iff] at hdepth
      rw [EveryDict, everyDictEntries_iff] at hkeys
      refine restores_dict hdata (fun e he => Nat.zero_lt_of_lt (hdepth e he)) hkeys.1 fun e he => ?_
      exact ih e he levels (hdepth e he) (hkeys.2 e he)

end Decode

/-- **Decoding an encoding** gives the value with sorted keys, if its nesting is within the limit
and its dictionaries have distinct keys. -/
theorem decode_encode {v : BencodeValue} (hlen : (encode v).length ≤ u64Max)
    (hdepth : depth v ≤ maxDecodeDepth) (hkeys : DistinctKeys v) :
    decode (encode v) = .ok (sortKeys v) := by
  have hv := decodeValue_encode hlen v (maxDecodeDepth + 1) (Nat.lt_succ_of_le hdepth) hkeys 0 []
    (by rw [List.drop_zero, List.append_nil])
  unfold decode
  simp only [bind_eq_ok, refuse_eq_ok]
  refine ⟨_, hv, (), ?_, rfl⟩
  rw [Nat.zero_add]
  exact decide_eq_false (lt_irrefl _)

/-! ### No encoding is a prefix of another one -/

theorem encodeString_inj {b b' r r' : List UInt8}
    (h : encodeString b ++ r = encodeString b' ++ r') : b = b' ∧ r = r' := by
  have hcolon : ∀ n, byte ':' ∉ printNat n := fun n hmem =>
    absurd ((isNumeral_iff.mp (isNumeral_printNat n)).2 _ hmem) (by decide)
  unfold encodeString at h
  rw [List.append_assoc, List.append_assoc] at h
  obtain ⟨hlen, hrest⟩ := append_cons_inj (hcolon _) (hcolon _) h
  exact List.append_inj hrest (printNat_inj hlen)

theorem printInt_inj {m n : Int64} (h : printInt m.toInt = printInt n.toInt) : m = n := by
  have hm := parseI64_printInt m
  rw [h, parseI64_printInt n] at hm
  exact (Option.some.inj hm).symm

/-- The first byte tells the kind of a value. -/
theorem encode_cases {v w : BencodeValue} {r r' : List UInt8} (h : encode v ++ r = encode w ++ r') :
    (∃ b b', v = .bytes b ∧ w = .bytes b') ∨ (∃ m n, v = .int m ∧ w = .int n) ∨
    (∃ l l', v = .list l ∧ w = .list l') ∨ ∃ d d', v = .dict d ∧ w = .dict d' := by
  obtain ⟨c, cs, hc, hv⟩ := opens_encode v
  obtain ⟨c', cs', hc', hw⟩ := opens_encode w
  rw [hc, hc'] at h
  obtain rfl : c = c' := (List.cons.inj h).1
  -- a digit is none of the other first bytes, and these differ from each other
  have hdigit : ∀ x, isDigit x = false → ¬ (isDigit c = true ∧ c = x) := by
    rintro x hx ⟨hc, rfl⟩
    rw [hx] at hc
    cases hc
  cases v with
  | bytes b =>
    cases w with
    | bytes b' => exact Or.inl ⟨b, b', rfl, rfl⟩
    | int n => exact absurd ⟨hv, hw⟩ (hdigit (byte 'i') (by decide))
    | list l => exact absurd ⟨hv, hw⟩ (hdigit (byte 'l') (by decide))
    | dict d => exact absurd ⟨hv, hw⟩ (hdigit (byte 'd') (by decide))
  | int m =>
    cases w with
    | bytes b => exact absurd ⟨hw, hv⟩ (hdigit (byte 'i') (by decide))
    | int n => exact Or.inr (Or.inl ⟨m, n, rfl, rfl⟩)
    | list l => exact absurd (Eq.trans (Eq.symm hv) hw) (by decide)
    | dict d => exact absurd (Eq.trans (Eq.symm hv) hw) (by decide)
  | list l =>
    cases w with
    | bytes b => exact absurd ⟨hw, hv⟩ (hdigit (byte 'l') (by decide))
    | int n => exact absurd (Eq.trans (Eq.symm hv) hw) (by decide)
    | list l' => exact Or.inr (Or.inr (Or.inl ⟨l, l', rfl, rfl⟩))
    | dict d => exact absurd (Eq.trans (Eq.symm hv) hw) (by decide)
  | dict d =>
    cases w with
    | bytes b => exact absurd ⟨hw, hv⟩ (hdigit (byte 'd') (by decide))
    | int n => exact absurd (Eq.trans (Eq.symm hv) hw) (by decide)
    | list l => exact absurd (Eq.trans (Eq.symm hv) hw) (by decide)
    | dict d' => exact Or.inr (Or.inr (Or.inr ⟨d, d', rfl, rfl⟩))

/-- The value can be read off the front of any bytes in one way only. -/
def PrefixFree (v : BencodeValue) : Prop := ∀ {w : BencodeValue} {r r' : List UInt8},
  Sorted w → encode v ++ r = encode w ++ r' → v = w ∧ r = r'

theorem not_end_of_encode {v : BencodeValue} {r r' : List UInt8} :
    encode v ++ r ≠ byte 'e' :: r' := by
  intro h
  obtain ⟨c, w, hw, hc⟩ := encode_head v
  rw [hw] at h
  exact hc (List.cons.inj h).1

theorem not_end_of_encodeString (b : List UInt8) {r r' : List UInt8} :
    encodeString b ++ r ≠ byte 'e' :: r' := by
  have h : encode (.bytes b) ++ r ≠ byte 'e' :: r' := not_end_of_encode
  rwa [encode] at h

theorem items_prefix_free : ∀ {items items' : List BencodeValue} {r r' : List UInt8},
    (∀ v ∈ items, PrefixFree v) → (∀ v ∈ items', Sorted v) →
      encodeItems items ++ byte 'e' :: r = encodeItems items' ++ byte 'e' :: r' →
        items = items' ∧ r = r'
  | [], [], _, _, _, _, h => ⟨rfl, (List.cons.inj h).2⟩
  | [], w :: ws, _, _, _, _, h => by
    rw [encodeItems, encodeItems, List.append_assoc] at h
    exact absurd h.symm not_end_of_encode
  | v :: vs, [], _, _, _, _, h => by
    rw [encodeItems, encodeItems, List.append_assoc] at h
    exact absurd h not_end_of_encode
  | v :: vs, w :: ws, _, _, hv, hw, h => by
    rw [encodeItems, encodeItems, List.append_assoc, List.append_assoc] at h
    obtain ⟨rfl, h'⟩ := hv v (by simp) (hw w (by simp)) h
    obtain ⟨rfl, hr⟩ := items_prefix_free (fun v' hv' => hv v' (by simp [hv']))
      (fun w' hw' => hw w' (by simp [hw'])) h'
    exact ⟨rfl, hr⟩

theorem entryBytes_cons (e : List UInt8 × BencodeValue) (es : List (List UInt8 × BencodeValue))
    (r : List UInt8) :
    entryBytes (e :: es) ++ r = encodeString e.1 ++ (encode e.2 ++ (entryBytes es ++ r)) := by
  rw [← List.append_assoc, ← List.append_assoc]
  rfl

theorem entries_prefix_free : ∀ {entries entries' : List (List UInt8 × BencodeValue)}
    {r r' : List UInt8}, (∀ e ∈ entries, PrefixFree e.2) → (∀ e ∈ entries', Sorted e.2) →
      entryBytes entries ++ byte 'e' :: r = entryBytes entries' ++ byte 'e' :: r' →
        entries = entries' ∧ r = r'
  | [], [], _, _, _, _, h => ⟨rfl, (List.cons.inj h).2⟩
  | [], w :: ws, _, _, _, _, h => by
    rw [entryBytes_cons] at h
    exact absurd h.symm (not_end_of_encodeString _)
  | v :: vs, [], _, _, _, _, h => by
    rw [entryBytes_cons] at h
    exact absurd h (not_end_of_encodeString _)
  | (k, v) :: vs, (k', w) :: ws, _, _, hv, hw, h => by
    rw [entryBytes_cons, entryBytes_cons] at h
    obtain ⟨rfl, h'⟩ := encodeString_inj h
    obtain ⟨rfl, h''⟩ := hv (k, v) (by simp) (hw (k, w) (by simp)) h'
    obtain ⟨rfl, hr⟩ := entries_prefix_free (fun e he => hv e (by simp [he]))
      (fun e he => hw e (by simp [he])) h''
    exact ⟨rfl, hr⟩

/-- **The encoding of a sorted value** can be read off the front of any bytes in one way only. -/
theorem encode_prefix_free (v : BencodeValue) : Sorted v → PrefixFree v := by
  induction v using value_induction with
  | bytes b =>
    intro _ w r r' _ h
    rcases encode_cases h with ⟨_, b', hv, rfl⟩ | ⟨_, _, hv, -⟩ | ⟨_, _, hv, -⟩ | ⟨_, _, hv, -⟩
    all_goals cases hv
    rw [encode, encode] at h
    obtain ⟨rfl, hr⟩ := encodeString_inj h
    exact ⟨rfl, hr⟩
  | int n =>
    intro _ w r r' _ h
    rcases encode_cases h with ⟨_, _, hv, -⟩ | ⟨_, n', hv, rfl⟩ | ⟨_, _, hv, -⟩ | ⟨_, _, hv, -⟩
    all_goals cases hv
    have hnote : ∀ m, byte 'e' ∉ printInt m := by
      intro m hmem
      rcases mem_printInt hmem with hd | hd
      · exact absurd hd (by decide)
      · exact absurd hd (by decide)
    rw [encode, encode, List.cons_append, List.cons_append, List.append_assoc, List.append_assoc] at h
    obtain ⟨hn, hr⟩ := append_cons_inj (hnote _) (hnote _) (List.cons.inj h).2
    exact ⟨congrArg _ (printInt_inj hn), hr⟩
  | list items ih =>
    intro hs w r r' hw h
    rcases encode_cases h with ⟨_, _, hv, -⟩ | ⟨_, _, hv, -⟩ | ⟨_, items', hv, rfl⟩ | ⟨_, _, hv, -⟩
    all_goals cases hv
    unfold Sorted at hs hw
    rw [EveryDict, everyDictItems_iff] at hs hw
    rw [encode, encode, List.cons_append, List.cons_append, List.append_assoc, List.append_assoc] at h
    obtain ⟨rfl, hr⟩ := items_prefix_free (fun v hv => ih v hv (hs v hv)) hw (List.cons.inj h).2
    exact ⟨rfl, hr⟩
  | dict entries ih =>
    intro hs w r r' hw h
    rcases encode_cases h with ⟨_, _, hv, -⟩ | ⟨_, _, hv, -⟩ | ⟨_, _, hv, -⟩ | ⟨_, entries', hv, rfl⟩
    all_goals cases hv
    unfold Sorted at hs hw
    rw [EveryDict, everyDictEntries_iff] at hs hw
    rw [encode_dict, encode_dict, sortByKey_of_pairwise hs.1, sortByKey_of_pairwise hw.1,
      List.cons_append, List.cons_append, List.append_assoc, List.append_assoc] at h
    obtain ⟨rfl, hr⟩ := entries_prefix_free (fun e he => ih e he (hs.2 e he)) hw.2
      (List.cons.inj h).2
    exact ⟨rfl, hr⟩

theorem encode_injective_on_sorted {v w : BencodeValue} (hv : Sorted v) (hw : Sorted w)
    (h : encode v = encode w) : v = w :=
  have happend : encode v ++ [] = encode w ++ [] := by rw [h]
  (encode_prefix_free v hv hw happend).1

/-! ### The round trip -/

/-- **Encoding and decoding are inverse**: what has been encoded, into no more bytes than a byte
vector can hold, is decoded with sorted keys; a sorted value is decoded as it is; and two sorted
values never have the same encoding. -/
theorem encode_decode_round_trip :
    (∀ v, (encode v).length ≤ u64Max → depth v ≤ maxDecodeDepth → DistinctKeys v →
      decode (encode v) = .ok (sortKeys v) ∧ (Sorted v → decode (encode v) = .ok v)) ∧
    ∀ v w, Sorted v → Sorted w → encode v = encode w → v = w := by
  refine ⟨fun v hlen hdepth hkeys => ?_, fun v w hv hw => encode_injective_on_sorted hv hw⟩
  have h := decode_encode hlen hdepth hkeys
  refine ⟨h, fun hs => ?_⟩
  rw [h, sortKeys_of_sorted v hs]

/-- The round trip of `[i64::MIN]` under the key `a` behind an empty string under the key `z`. -/
theorem encode_decode_round_trip_dict :
    let unsorted : BencodeValue :=
      .dict [([byte 'z'], .bytes []), ([byte 'a'], .list [.int Int64.minValue])]
    let sorted : BencodeValue :=
      .dict [([byte 'a'], .list [.int Int64.minValue]), ([byte 'z'], .bytes [])]
    decode (encode unsorted) = .ok sorted ∧ decode (encode sorted) = .ok sorted ∧
      (sorted = sorted ∧ encode unsorted = encode sorted) := by
  intro unsorted sorted
  have hsorted : Sorted sorted := by
    simp [sorted, Sorted, EveryDict, EveryDictEntries, EveryDictItems]
    decide
  have hunsortedKeys : DistinctKeys unsorted := by
    simp [unsorted, DistinctKeys, EveryDict, EveryDictEntries, EveryDictItems]
    decide
  have hsortedKeys : DistinctKeys sorted := by
    simp [sorted, DistinctKeys, EveryDict, EveryDictEntries, EveryDictItems]
    decide
  have hu := encode_decode_round_trip.1 unsorted (by decide) (by decide) hunsortedKeys
  have hs := encode_decode_round_trip.1 sorted (by decide) (by decide) hsortedKeys
  exact ⟨hu.1, hs.2 hsorted, encode_decode_round_trip.2 sorted sorted hsorted hsorted rfl, rfl⟩

end CncContent.Bencode.RoundTrip
