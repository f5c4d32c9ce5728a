import CncContent.Bencode.Codec

/-! # What the decoder accepts

A document the decoder accepts is spelled like the encoding of its value, token by token, but for
two liberties of the library's integer parsers: an integer may carry a plus sign, and a string
length may carry leading zeros. `plain` scans a document for them with a small automaton that knows
nothing of nesting. What the decoder has read is described by `Spells`: the bytes are the encoding
if they are plain and longer than it if they are not. Hence a decoded document is the encoding of
its value exactly if it is plain (`encode_eq_iff_plain`). -/

namespace CncContent.Bencode.Canonical

open CncContent.Lib.Bounded CncContent.Lib.Bytes CncContent.Lib.Checks CncContent.Lib.Decimal
open CncContent.Bencode.Codec

/-! ### The scanner -/

/-- Where the scanner is: between tokens, behind an `i`, in an integer, in a length that spells `n`
so far and starts with a zero or not, or in a string with `n` bytes to come. -/
inductive Scan
  | token
  | sign
  | int
  | len (n : ℕ) (zero : Bool)
  | data (n : ℕ)
deriving DecidableEq, Repr

/-- The state after the bytes of a string have been announced or read. -/
def Scan.ofLeft (n : ℕ) : Scan := if n = 0 then .token else .data n

/-- One byte, and whether all has been plain. -/
def scanByte : Scan × Bool → UInt8 → Scan × Bool
  | (.token, ok), b =>
    if b = byte 'i' then (.sign, ok)
    else if isDigit b then (.len (digitVal b) (b == byte '0'), ok)
    else (.token, ok)
  | (.sign, ok), b =>
    if b = byte '+' then (.int, false)
    else if b = byte 'e' then (.token, ok)
    else (.int, ok)
  | (.int, ok), b => if b = byte 'e' then (.token, ok) else (.int, ok)
  | (.len n zero, ok), b =>
    if b = byte ':' then (.ofLeft n, ok)
    else (.len (10 * n + digitVal b) zero, ok && !zero)
  | (.data n, ok), _ => (.ofLeft (n - 1), ok)

theorem scanByte_mark {b : UInt8} (ok : Bool) (hi : b ≠ byte 'i') (hd : isDigit b = false) :
    scanByte (.token, ok) b = (.token, ok) := by
  simp [scanByte, hi, hd]

theorem scanByte_digit {b : UInt8} (ok : Bool) (hd : isDigit b = true) :
    scanByte (.token, ok) b = (.len (digitVal b) (b == byte '0'), ok) := by
  have hi : b ≠ byte 'i' := by
    rintro rfl
    revert hd
    decide
  simp [scanByte, hi, hd]

theorem scanByte_sign {b : UInt8} (ok : Bool) (hplus : b ≠ byte '+') (he : b ≠ byte 'e') :
    scanByte (.sign, ok) b = (.int, ok) := by
  simp [scanByte, hplus, he]

theorem scanByte_int {b : UInt8} (ok : Bool) (he : b ≠ byte 'e') :
    scanByte (.int, ok) b = (.int, ok) := by
  simp [scanByte, he]

theorem scanByte_len {b : UInt8} (n : ℕ) (zero ok : Bool) (hd : isDigit b = true) :
    scanByte (.len n zero, ok) b = (.len (10 * n + digitVal b) zero, ok && !zero) := by
  have hc : b ≠ byte ':' := by
    rintro rfl
    revert hd
    decide
  simp [scanByte, hc]

/-- No integer has a plus sign, no string length a leading zero. -/
def plain (b : List UInt8) : Bool := (b.foldl scanByte (.token, true)).2

example : plain (List.map byte ['l', 'i', '-', '5', 'e', '2', ':', '0', '0', 'e']) = true := by decide

example : plain (List.map byte ['0', '3', ':', 'a', 'b', 'c']) = false := by decide

/-! ### Spellings -/

/-- The bytes `w`, a sequence of whole tokens, spell the encoding `e`, plainly or not. -/
structure Spells (e w : List UInt8) (p : Bool) : Prop where
  same : p = true → e = w
  shorter : p = false → e.length < w.length
  scan : ∀ ok, w.foldl scanByte (.token, ok) = (.token, ok && p)

theorem Spells.length_le {e w : List UInt8} {p : Bool} (h : Spells e w p) :
    e.length ≤ w.length := by
  cases p with
  | true => rw [h.same rfl]
  | false => exact (h.shorter rfl).le

theorem Spells.append {e w e' w' : List UInt8} {p p' : Bool} (h : Spells e w p)
    (h' : Spells e' w' p') : Spells (e ++ e') (w ++ w') (p && p') := by
  have hle := h.length_le
  have hle' := h'.length_le
  refine ⟨fun hp => ?_, fun hp => ?_, fun ok => ?_⟩
  · rw [Bool.and_eq_true] at hp
    rw [h.same hp.1, h'.same hp.2]
  · rw [List.length_append, List.length_append]
    rcases Bool.and_eq_false_iff.mp hp with hp | hp
    · have := h.shorter hp
      omega
    · have := h'.shorter hp
      omega
  · rw [List.foldl_append, h.scan, h'.scan, Bool.and_assoc]

/-- A byte that opens or closes a list or a dictionary. -/
theorem spells_mark {b : UInt8} (hi : b ≠ byte 'i') (hd : isDigit b = false) :
    Spells [b] [b] true := by
  refine ⟨fun _ => rfl, nofun, fun ok => ?_⟩
  rw [Bool.and_true]
  exact scanByte_mark ok hi hd

/-! ### Integers -/

theorem scan_int : ∀ {ds : List UInt8} (ok : Bool), byte 'e' ∉ ds →
    ds.foldl scanByte (.int, ok) = (.int, ok)
  | [], _, _ => rfl
  | b :: ds, ok, h => by
    rw [List.mem_cons, not_or] at h
    rw [List.foldl_cons, scanByte_int ok (Ne.symm h.1)]
    exact scan_int ok h.2

/-- The text between `i` and `e` is scanned as plain exactly if it has no plus sign. -/
theorem scan_intToken {ds : List UInt8} (ok : Bool) (h : byte 'e' ∉ ds) (hne : ds ≠ []) :
    (byte 'i' :: (ds ++ [byte 'e'])).foldl scanByte (.token, ok) =
      (.token, ok && !(ds.head? == some (byte '+'))) := by
  rcases ds with _ | ⟨b, ds⟩
  · exact absurd rfl hne
  · rw [List.mem_cons, not_or] at h
    show ((ds ++ [byte 'e']).foldl scanByte (scanByte (.sign, ok) b)) = _
    by_cases hb : b = byte '+'
    · subst hb
      have hs : scanByte (.sign, ok) (byte '+') = (.int, false) := rfl
      rw [hs, List.foldl_append, scan_int false h.2]
      simp [scanByte]
    · rw [scanByte_sign ok hb (Ne.symm h.1), List.foldl_append, scan_int ok h.2]
      simp [scanByte, hb]

/-! ### Strings -/

theorem scan_len : ∀ {ds : List UInt8} (n : ℕ) (zero ok : Bool), (∀ b ∈ ds, isDigit b = true) →
    ds.foldl scanByte (.len n zero, ok) =
      (.len (ds.foldl (fun n b => 10 * n + digitVal b) n) zero, ok && !(zero && !ds.isEmpty))
  | [], n, zero, ok, _ => by simp
  | b :: ds, n, zero, ok, h => by
    have hds : ∀ b' ∈ ds, isDigit b' = true := fun b' hb' => h b' (by simp [hb'])
    rw [List.foldl_cons, scanByte_len n zero ok (h b (by simp)), scan_len _ zero _ hds]
    cases zero <;> simp

theorem scan_data : ∀ {w : List UInt8} (ok : Bool),
    w.foldl scanByte (.ofLeft w.length, ok) = (.token, ok)
  | [], _ => rfl
  | b :: w, ok => by
    have ih := scan_data (w := w) ok
    have hs : scanByte (.ofLeft (b :: w).length, ok) b = (.ofLeft w.length, ok) := rfl
    rw [List.foldl_cons, hs, ih]

theorem scan_string {ds s : List UInt8} (ok : Bool) (hds : isNumeral ds = true)
    (hlen : value ds = s.length) : (ds ++ byte ':' :: s).foldl scanByte (.token, ok) =
      (.token, ok && !leadingZero ds) := by
  obtain ⟨hne, hdigits⟩ := isNumeral_iff.mp hds
  rcases ds with _ | ⟨b, ds⟩
  · exact absurd rfl hne
  · have hb : isDigit b = true := hdigits b (by simp)
    have hval : ds.foldl (fun n b => 10 * n + digitVal b) (digitVal b) = s.length := by
      rw [← hlen]
      show _ = ds.foldl _ (10 * 0 + digitVal b)
      rw [Nat.mul_zero, Nat.zero_add]
    have hcolon : ∀ ok' zero, scanByte (.len s.length zero, ok') (byte ':') =
        (.ofLeft s.length, ok') := fun _ _ => rfl
    rw [List.cons_append, List.foldl_cons, scanByte_digit ok hb, List.foldl_append,
      scan_len _ _ _ fun b' hb' => hdigits b' (by simp [hb']), hval, List.foldl_cons, hcolon,
      scan_data]
    refine congrArg _ (congrArg _ (congrArg _ ?_))
    unfold leadingZero
    rcases ds with _ | ⟨c, ds⟩
    · simp
    · simp

/-! ### What has been read -/

/-- Between the two positions the data spell the encoding `e`. -/
def Reads (data : List UInt8) (pos pos' : ℕ) (e : List UInt8) : Prop :=
  ∃ w p, data.drop pos = w ++ data.drop pos' ∧ pos' = pos + w.length ∧ Spells e w p

section Reads

variable {data : List UInt8} {pos pos' pos'' : ℕ} {e e' : List UInt8}

theorem Reads.trans (h : Reads data pos pos' e) (h' : Reads data pos' pos'' e') :
    Reads data pos pos'' (e ++ e') := by
  obtain ⟨w, p, hw, rfl, hs⟩ := h
  obtain ⟨w', p', hw', rfl, hs'⟩ := h'
  refine ⟨w ++ w', p && p', ?_, ?_, hs.append hs'⟩
  · rw [hw, hw', List.append_assoc]
  · rw [List.length_append, Nat.add_assoc]

theorem drop_of_getElem? {b : UInt8} (h : data[pos]? = some b) :
    data.drop pos = b :: data.drop (pos + 1) := by
  obtain ⟨hlt, rfl⟩ := List.getElem?_eq_some_iff.mp h
  exact List.drop_eq_getElem_cons hlt

theorem reads_mark {b : UInt8} (h : data[pos]? = some b) (hi : b ≠ byte 'i')
    (hd : isDigit b = false) : Reads data pos (pos + 1) [b] :=
  ⟨[b], true, drop_of_getElem? h, rfl, spells_mark hi hd⟩

/-- The rest of the data behind a segment that has been read. -/
theorem drop_add_of_append {l rest : List UInt8} (h : data.drop pos = l ++ rest) :
    data.drop (pos + l.length) = rest := by
  rw [← List.drop_drop, h, List.drop_left]

theorem reads_of_drop {w rest : List UInt8} {p : Bool} (h : data.drop pos = w ++ rest)
    (hs : Spells e w p) : Reads data pos (pos + w.length) e :=
  ⟨w, p, by rw [drop_add_of_append h, h], rfl, hs⟩

/-- The spelling of an integer, as the checks leave it. -/
theorem spells_int {n : Int64} {ds : List UInt8} (hn : parseI64 ds = some n)
    (he : byte 'e' ∉ ds) (hlead : leadingZero ds = false) (hzero : ds ≠ [byte '-', byte '0'])
    (hminus : ∀ ds', ds = byte '-' :: ds' → leadingZero ds' = false) :
    ∃ p, Spells (encode (.int n)) (byte 'i' :: (ds ++ [byte 'e'])) p := by
  have hne : ds ≠ [] := by
    rintro rfl
    cases hn
  refine ⟨!(ds.head? == some (byte '+')), ?_, ?_, fun ok => scan_intToken ok he hne⟩
  · intro hp
    rw [encode]
    refine congrArg _ (congrArg (· ++ _) ?_)
    rcases parseI64_cases hn with ⟨ds', rfl, hnum, hval⟩ | ⟨-, hnum, hval⟩
    · have hprint := printNat_value hnum (hminus ds' rfl)
      have hpos : 0 < value ds' := by
        by_contra h0
        rw [Nat.eq_zero_of_not_pos h0] at hprint
        exact hzero (by rw [← hprint]; rfl)
      unfold printInt
      rw [hval, if_pos (by omega), Int.natAbs_neg, Int.natAbs_natCast, hprint]
    · have hstrip : stripPlus ds = ds := by
        rcases ds with _ | ⟨b, ds⟩
        · rfl
        · refine if_neg ?_
          rintro rfl
          simp at hp
      rw [hstrip] at hnum hval
      unfold printInt
      rw [hval, if_neg (by omega), Int.natAbs_natCast, printNat_value hnum hlead]
  · intro hp
    have hplus : ds.head? = some (byte '+') := by simpa using hp
    rcases parseI64_cases hn with ⟨ds', rfl, -, -⟩ | ⟨-, hnum, hval⟩
    · exact absurd (Option.some.inj hplus) (by decide)
    · rcases ds with _ | ⟨b, ds⟩
      · cases hplus
      · cases hplus
        have hstrip : stripPlus (byte '+' :: ds) = ds := rfl
        rw [hstrip] at hnum hval
        have hle := length_printNat_le hnum
        rw [encode]
        unfold printInt
        rw [hval, if_neg (by omega), Int.natAbs_natCast]
        simp only [List.length_cons, List.length_append, List.length_nil]
        omega

theorem decodeInt_reads (hdata : data.length ≤ u64Max) {v : BencodeValue}
    (hpos : data[pos]? = some (byte 'i')) (h : decodeInt data pos = .ok (v, pos')) :
    Reads data pos pos' (encode v) := by
  unfold decodeInt at h
  simp only [bind_eq_ok, okOr_eq_ok, refuse_eq_ok, checkedAdd_eq_some_iff] at h
  obtain ⟨_, ⟨rfl, -⟩, stop, hstop, digits, hdigits, -, -, -, -, -, hlead, -, hzero, -, -, -,
    hminus, -, -, n, hn, _, ⟨rfl, -⟩, hret⟩ := h
  cases hret
  obtain ⟨hle, l, rest, hl, he, rfl⟩ := (findByte_eq_some_iff hdata).mp hstop
  have hl' : digits = l := by
    obtain ⟨-, hlen, rest', hrest'⟩ := slice_eq_some_iff.mp hdigits
    have hlen' : digits.length = l.length := by omega
    rw [hl] at hrest'
    exact ((List.append_inj hrest'.symm hlen').1)
  subst hl'
  have hfull : data.drop pos = (byte 'i' :: (digits ++ [byte 'e'])) ++ rest := by
    rw [drop_of_getElem? hpos, hl]
    simp
  have hminus' : ∀ ds', digits = byte '-' :: ds' → leadingZero ds' = false := by
    rintro ds' rfl
    rcases ds' with _ | ⟨b, ds'⟩
    · rfl
    · simp [leadingZero] at hminus ⊢
      exact hminus
  obtain ⟨p, hs⟩ := spells_int hn he hlead (by simpa using hzero) hminus'
  have hr := reads_of_drop hfull hs
  have hlen : pos + 1 + digits.length + 1 = pos + (byte 'i' :: (digits ++ [byte 'e'])).length := by
    simp
    omega
  rw [hlen]
  exact hr

theorem decodeBytes_reads (hdata : data.length ≤ u64Max) {v : BencodeValue} {first : UInt8}
    (hpos : data[pos]? = some first) (hfirst : isDigit first = true)
    (h : decodeBytes data pos = .ok (v, pos')) :
    ∃ b, v = .bytes b ∧ Reads data pos pos' (encodeString b) := by
  unfold decodeBytes at h
  simp only [bind_eq_ok, okOr_eq_ok, refuse_eq_ok, checkedAdd_eq_some_iff] at h
  obtain ⟨colon, hcolon, lenDigits, hlen, -, -, len, hparse, _, ⟨rfl, -⟩, _, ⟨rfl, -⟩, bytes,
    hbytes, hret⟩ := h
  cases hret
  obtain ⟨hle, l, rest, hl, hc, rfl⟩ := (findByte_eq_some_iff hdata).mp hcolon
  have hl' : lenDigits = l := by
    obtain ⟨-, hlen', rest', hrest'⟩ := slice_eq_some_iff.mp hlen
    rw [hl] at hrest'
    exact (List.append_inj hrest'.symm (by omega)).1
  subst hl'
  obtain ⟨-, hlen', rest', hrest'⟩ := slice_eq_some_iff.mp hbytes
  have hbytesLen : len = bytes.length := by omega
  -- the first byte is a digit, so there is no plus sign
  have hstrip : stripPlus lenDigits = lenDigits := by
    rcases lenDigits with _ | ⟨b, ds⟩
    · rfl
    · rw [drop_of_getElem? hpos, List.cons_append] at hl
      have hb : first = b := (List.cons.inj hl).1
      refine if_neg ?_
      rintro rfl
      rw [hb] at hfirst
      revert hfirst
      decide
  obtain ⟨hnum, hval, -⟩ := parseNat_eq_some_iff.mp hparse
  rw [hstrip] at hnum hval
  have hrest : rest = bytes ++ rest' := by
    have hdrop : data.drop (pos + (lenDigits ++ [byte ':']).length) = rest :=
      drop_add_of_append (by rw [hl]; simp)
    rw [List.length_append, List.length_singleton, ← Nat.add_assoc, hrest'] at hdrop
    exact hdrop.symm
  have hfull : data.drop pos = (lenDigits ++ byte ':' :: bytes) ++ rest' := by
    rw [hl, hrest]
    simp
  have hs : Spells (encodeString bytes) (lenDigits ++ byte ':' :: bytes) (!leadingZero lenDigits) := by
    unfold encodeString
    rw [← hbytesLen, ← hval]
    refine ⟨fun hp => ?_, fun hp => ?_, fun ok => scan_string ok hnum (hval.trans hbytesLen)⟩
    · rw [printNat_value hnum (by simpa using hp)]
    · have := length_printNat_lt hnum (by simpa using hp)
      rw [List.length_append, List.length_append]
      omega
  have hr := reads_of_drop hfull hs
  have hend : pos + lenDigits.length + 1 + len =
      pos + (lenDigits ++ byte ':' :: bytes).length := by
    rw [List.length_append, List.length_cons]
    omega
  rw [hend]
  exact ⟨bytes, rfl, hr⟩

theorem decodeItems_reads {item : ℕ → Decoded}
    (hitem : ∀ pos v pos', item pos = .ok (v, pos') → Reads data pos pos' (encode v)) :
    ∀ (rounds : ℕ) {pos pos' : ℕ} {items : List BencodeValue} {v : BencodeValue},
      decodeItems data item rounds pos items = .ok (v, pos') →
        ∃ new, v = .list (items ++ new) ∧
          Reads data pos pos' (encodeItems new ++ [byte 'e'])
  | 0, _, _, _, _, h => by cases h
  | rounds + 1, pos, pos', items, v, h => by
    unfold decodeItems at h
    simp only [bind_eq_ok, okOr_eq_ok] at h
    obtain ⟨next, hnext, h⟩ := h
    split_ifs at h with he
    · subst he
      simp only [bind_eq_ok, okOr_eq_ok, checkedAdd_eq_some_iff] at h
      obtain ⟨_, ⟨rfl, -⟩, hret⟩ := h
      cases hret
      exact ⟨[], by rw [List.append_nil], reads_mark hnext (by decide) (by decide)⟩
    · simp only [bind_eq_ok] at h
      obtain ⟨⟨value, mid⟩, hval, h⟩ := h
      obtain ⟨new, rfl, hr⟩ := decodeItems_reads hitem rounds h
      refine ⟨value :: new, by rw [List.append_assoc]; rfl, ?_⟩
      rw [encodeItems, List.append_assoc]
      exact (hitem pos value mid hval).trans hr

/-- The keys grow strictly. -/
def KeysGrow {β : Type} (entries : List (List UInt8 × β)) : Prop :=
  entries.Pairwise fun e e' => ¬ keyLe e'.1 e.1

/-- The entries, each key followed by the encoding of its value. -/
def entryBytes (entries : List (List UInt8 × BencodeValue)) : List UInt8 :=
  entries.flatMap fun e => encodeString e.1 ++ encode e.2

theorem keysGrow_concat {entries : List (List UInt8 × BencodeValue)} {key : List UInt8}
    (value : BencodeValue) (h : KeysGrow entries)
    (hkey : entries.getLast?.any (fun last => keyLe key last.1) = false) :
    KeysGrow (entries ++ [(key, value)]) := by
  refine List.pairwise_append.mpr ⟨h, List.pairwise_singleton _ _, fun e he e' he' => ?_⟩
  rw [List.mem_singleton.mp he']
  rcases List.eq_nil_or_concat entries with rfl | ⟨front, last, rfl⟩
  · cases he
  · rw [List.concat_eq_append, List.getLast?_concat] at hkey
    have hlast : ¬ keyLe key last.1 := by simpa using hkey
    rw [List.concat_eq_append] at he h
    rcases List.mem_append.mp he with he | he
    · have hlt := (List.pairwise_append.mp h).2.2 e he last (by simp)
      exact fun hle => hlt ((keyLe_total e.1 last.1).elim
        (fun h1 => absurd (keyLe_trans hle h1) hlast) id)
    · rw [List.mem_singleton.mp he]
      exact hlast

/-- A key is a string that is greater than the last one. -/
theorem decodeKey_eq_ok {item : ℕ → Decoded} {entries : List (List UInt8 × BencodeValue)}
    {key : List UInt8} (h : decodeKey data item entries pos = .ok (key, pos')) :
    item pos = .ok (.bytes key, pos') ∧
      entries.getLast?.any (fun last => keyLe key last.1) = false := by
  unfold decodeKey at h
  rw [bind_eq_ok] at h
  obtain ⟨⟨value, mid⟩, hitem, h⟩ := h
  cases value with
  | bytes k =>
    simp only [bind_eq_ok, refuse_eq_ok] at h
    obtain ⟨-, hsorted, hret⟩ := h
    cases hret
    exact ⟨hitem, hsorted⟩
  | _ => cases h

theorem decodeEntries_reads {item : ℕ → Decoded}
    (hitem : ∀ pos v pos', item pos = .ok (v, pos') → Reads data pos pos' (encode v)) :
    ∀ (rounds : ℕ) {pos pos' : ℕ} {entries : List (List UInt8 × BencodeValue)} {v : BencodeValue},
      KeysGrow entries → decodeEntries data item rounds pos entries = .ok (v, pos') →
        ∃ new, v = .dict (entries ++ new) ∧ KeysGrow (entries ++ new) ∧
          Reads data pos pos' (entryBytes new ++ [byte 'e'])
  | 0, _, _, _, _, _, h => by cases h
  | rounds + 1, pos, pos', entries, v, hgrow, h => by
    unfold decodeEntries at h
    simp only [bind_eq_ok, okOr_eq_ok] at h
    obtain ⟨next, hnext, h⟩ := h
    split_ifs at h with he
    · subst he
      simp only [bind_eq_ok, okOr_eq_ok, checkedAdd_eq_some_iff] at h
      obtain ⟨_, ⟨rfl, -⟩, hret⟩ := h
      cases hret
      refine ⟨[], by rw [List.append_nil], by rwa [List.append_nil], ?_⟩
      exact reads_mark hnext (by decide) (by decide)
    · simp only [bind_eq_ok] at h
      obtain ⟨⟨key, mid⟩, hkey, ⟨value, mid'⟩, hval, h⟩ := h
      obtain ⟨hk, hsorted⟩ := decodeKey_eq_ok hkey
      obtain ⟨new, rfl, hgrow', hr⟩ :=
        decodeEntries_reads hitem rounds (keysGrow_concat value hgrow hsorted) h
      rw [List.append_assoc] at hgrow'
      refine ⟨(key, value) :: new, by rw [List.append_assoc]; rfl, hgrow', ?_⟩
      have hkr := hitem pos _ mid hk
      have hall := (hkr.trans (hitem mid value mid' hval)).trans hr
      have hbytes : entryBytes ((key, value) :: new) ++ [byte 'e'] =
          encode (.bytes key) ++ encode value ++ (entryBytes new ++ [byte 'e']) := by
        rw [encode, ← List.append_assoc]
        rfl
      rw [hbytes]
      exact hall

theorem encodeValues_eq_map : ∀ entries : List (List UInt8 × BencodeValue),
    encodeValues entries = entries.map fun e => (e.1, encode e.2)
  | [] => by rw [encodeValues]; rfl
  | (k, v) :: es => by rw [encodeValues, encodeValues_eq_map es]; rfl

/-- **The encoding of a dictionary** is that of its entries, sorted by key. -/
theorem encode_dict (entries : List (List UInt8 × BencodeValue)) : encode (.dict entries) =
    byte 'd' :: (entryBytes (sortByKey entries) ++ [byte 'e']) := by
  rw [encode, encodeValues_eq_map]
  unfold sortByKey entryBytes
  rw [← List.map_insertionSort (fun e e' => keyLe e.1 e'.1) (fun e e' => keyLe e.1 e'.1)
    (fun e : List UInt8 × BencodeValue => (e.1, encode e.2)) entries fun _ _ _ _ => Iff.rfl,
    List.flatMap_map]

theorem sortByKey_of_keysGrow {β : Type} {entries : List (List UInt8 × β)}
    (h : KeysGrow entries) : sortByKey entries = entries := by
  refine List.Pairwise.insertionSort_eq (h.imp fun {e e'} hlt => ?_)
  exact (keyLe_total e.1 e'.1).resolve_right hlt

/-- **What `decode_value` has read** spells the encoding of the value it returns. -/
theorem decodeValue_reads (hdata : data.length ≤ u64Max) : ∀ (levels : ℕ) (pos : ℕ)
    (v : BencodeValue) (pos' : ℕ), decodeValue data levels pos = .ok (v, pos') →
      Reads data pos pos' (encode v)
  | 0, _, _, _, h => by cases h
  | levels + 1, pos, v, pos', h => by
    have hitem := decodeValue_reads hdata levels
    unfold decodeValue at h
    rw [bind_eq_ok] at h
    obtain ⟨first, hfirst, h⟩ := h
    rw [okOr_eq_ok] at hfirst
    split_ifs at h with hi hl hd hdigit
    · subst hi
      exact decodeInt_reads hdata hfirst h
    · subst hl
      unfold decodeList at h
      simp only [bind_eq_ok, okOr_eq_ok, checkedAdd_eq_some_iff] at h
      obtain ⟨_, ⟨rfl, -⟩, h⟩ := h
      obtain ⟨items, rfl, hr⟩ := decodeItems_reads hitem _ h
      rw [List.nil_append, encode]
      exact (reads_mark hfirst (by decide) (by decide)).trans hr
    · subst hd
      unfold decodeDict at h
      simp only [bind_eq_ok, okOr_eq_ok, checkedAdd_eq_some_iff] at h
      obtain ⟨_, ⟨rfl, -⟩, h⟩ := h
      obtain ⟨entries, rfl, hgrow, hr⟩ := decodeEntries_reads hitem _ List.Pairwise.nil h
      rw [List.nil_append] at hgrow ⊢
      rw [encode_dict, sortByKey_of_keysGrow hgrow]
      exact (reads_mark hfirst (by decide) (by decide)).trans hr
    · obtain ⟨b, rfl, hr⟩ := decodeBytes_reads hdata hfirst hdigit h
      rw [encode]
      exact hr

end Reads

/-- A decoded document spells the encoding of its value. -/
theorem decode_spells {b : List UInt8} {v : BencodeValue} (hb : b.length ≤ u64Max)
    (h : decode b = .ok v) : ∃ p, Spells (encode v) b p := by
  unfold decode at h
  simp only [bind_eq_ok, refuse_eq_ok] at h
  obtain ⟨⟨v', pos⟩, hv, -, hend, hret⟩ := h
  cases hret
  obtain ⟨w, p, hw, rfl, hs⟩ := decodeValue_reads hb _ _ _ _ hv
  rw [List.drop_zero, List.drop_of_length_le (by simpa using hend), List.append_nil] at hw
  rw [hw]
  exact ⟨p, hs⟩

/-- **A decoded document is the encoding of its value** exactly if no integer in it has a plus sign
and no string length a leading zero. -/
theorem encode_eq_iff_plain (b : List UInt8) (v : BencodeValue) (hb : b.length ≤ u64Max)
    (h : decode b = .ok v) : encode v = b ↔ plain b = true := by
  obtain ⟨p, hs⟩ := decode_spells hb h
  have hplain : plain b = p := by
    unfold plain
    rw [hs.scan, Bool.true_and]
  rw [hplain]
  cases p with
  | true => exact ⟨fun _ => rfl, fun _ => hs.same rfl⟩
  | false =>
    refine ⟨fun he => ?_, nofun⟩
    have hlt := hs.shorter rfl
    rw [he] at hlt
    exact absurd hlt (lt_irrefl _)

theorem encode_eq_iff_plain_list :
    encode (.list [.int 5, .bytes [byte 'a']]) =
        List.map byte ['l', 'i', '5', 'e', '1', ':', 'a', 'e'] ↔
      plain (List.map byte ['l', 'i', '5', 'e', '1', ':', 'a', 'e']) = true :=
  encode_eq_iff_plain _ _ (by decide) rfl

/-- `i+5e` and `01:a` are accepted. -/
theorem decode_accepts_plus_and_leadingZero :
    (decode (List.map byte ['i', '+', '5', 'e']) = .ok (.int 5) ∧
      encode (.int 5) ≠ List.map byte ['i', '+', '5', 'e']) ∧
    decode (List.map byte ['0', '1', ':', 'a']) = .ok (.bytes [byte 'a']) ∧
      encode (.bytes [byte 'a']) ≠ List.map byte ['0', '1', ':', 'a'] :=
  ⟨⟨rfl, by decide⟩, rfl, by decide⟩

end CncContent.Bencode.Canonical
