import CncContent.Downloads.Mirrors
import CncContent.Lib.HexDigits

/-! # Local peer discovery

The announcements of BEP 14 and the service that keeps track of them. An announcement is a text of lines, of
which the decoder reads the last `Port:` line and the last `Infohash:` line (`fromBytes_eq_some_iff`); what the
encoder prints is read back (`fromBytes_toBytes`). -/

namespace CncContent.Peers.LocalDiscovery

open CncContent.Downloads.Mirrors (lines stripPrefix stripCarriageReturn)
open CncContent.Lib.Bytes CncContent.Lib.Decimal CncContent.Lib.HexDigits
open CncContent.Lib.IpAddresses (isHexDigit hexVal hexVal_eq hexVal_lt isHexDigit_iff)

abbrev InfoHash := Vector UInt8 20

def lpdMulticastAddr : List UInt8 := text "239.192.152.143"

def lpdPort : ℕ := 6771

def announceInterval : ℕ := 300 * 10 ^ 9

def maxLpdPeers : ℕ := 50

def bep14Header : List UInt8 := text "BT-SEARCH * HTTP/1.1"

def peerStaleTimeout : ℕ := 600 * 10 ^ 9

structure LpdAnnounce where
  infoHash : InfoHash
  port : UInt16
deriving DecidableEq

namespace LpdAnnounce

def toBytes (a : LpdAnnounce) : List UInt8 :=
  bep14Header ++ text "\r\nHost: " ++ lpdMulticastAddr ++ text ":" ++ printNat lpdPort ++ text "\r\nPort: " ++
    printNat a.port.toNat ++ text "\r\nInfohash: " ++ toHex a.infoHash.toList ++ text "\r\n\r\n"

end LpdAnnounce

def hexDigit (c : UInt8) : Option UInt8 :=
  if within (byte '0') (byte '9') c then some (c - byte '0')
  else if within (byte 'a') (byte 'f') c then some (c - byte 'a' + 10)
  else if within (byte 'A') (byte 'F') c then some (c - byte 'A' + 10)
  else none

/-- Byte `i` of the result. -/
def hexSlot (hex : List UInt8) (i : ℕ) : Option UInt8 := do
  let hi ← hex[2 * i]?
  let lo ← hex[2 * i + 1]?
  return (← hexDigit hi) <<< 4 ||| (← hexDigit lo)

def parseHexHash (hex : List UInt8) : Option InfoHash :=
  if hex.length ≠ 40 then none
  else ((List.range 20).mapM (hexSlot hex)).bind (array 20)

/-- What the decoder has read so far. -/
structure Fields where
  port : Option UInt16
  infoHash : Option InfoHash

/-- `parse::<u16>`. -/
def parsePort (s : List UInt8) : Option UInt16 := (parseNat 65535 s).map UInt16.ofNat

def portLine : List UInt8 := text "Port:"

def infohashLine : List UInt8 := text "Infohash:"

/-- One line; a line of a field that cannot be read makes the field missing. -/
def readLine (f : Fields) (line : List UInt8) : Fields :=
  match stripPrefix portLine (trim line) with
  | some rest => { f with port := parsePort (trim rest) }
  | none =>
    match stripPrefix infohashLine (trim line) with
    | some rest => { f with infoHash := parseHexHash (trim rest) }
    | none => f

def readFields (data : List UInt8) : Fields := (lines data).foldl readLine ⟨none, none⟩

def fromBytes (data : List UInt8) : Option LpdAnnounce :=
  if ¬ validUtf8 data then none
  else if ¬ bep14Header <+: data then none
  else do
    let f := readFields data
    return ⟨← f.infoHash, ← f.port⟩

example : fromBytes (LpdAnnounce.toBytes ⟨Vector.replicate 20 0xAB, 6881⟩) =
    some ⟨Vector.replicate 20 0xAB, 6881⟩ := by decide +kernel

/-! ### Reading a hash -/

theorem hexDigit_eq (c : UInt8) :
    hexDigit c = if isHexDigit c then some (UInt8.ofNat (hexVal c)) else none := by
  have hall : ∀ n < 256, hexDigit (UInt8.ofNat n) =
      if isHexDigit (UInt8.ofNat n) then some (UInt8.ofNat (hexVal (UInt8.ofNat n))) else none := by
    decide +kernel
  have h := hall c.toNat c.toNat_lt
  rwa [UInt8.ofNat_toNat] at h

theorem shl_or {x y : ℕ} (hx : x < 16) (hy : y < 16) :
    UInt8.ofNat x <<< 4 ||| UInt8.ofNat y = UInt8.ofNat (16 * x + y) := by
  have hall : ∀ x < 16, ∀ y < 16, UInt8.ofNat x <<< 4 ||| UInt8.ofNat y = UInt8.ofNat (16 * x + y) := by
    decide +kernel
  exact hall x hx y hy

theorem hexSlot_zero (x y : UInt8) (rest : List UInt8) : hexSlot (x :: y :: rest) 0 =
    if isHexDigit x ∧ isHexDigit y then some (UInt8.ofNat (16 * hexVal x + hexVal y)) else none := by
  have hslot : hexSlot (x :: y :: rest) 0 =
      (hexDigit x).bind fun hi => (hexDigit y).bind fun lo => some (hi <<< 4 ||| lo) := rfl
  rw [hslot, hexDigit_eq, hexDigit_eq]
  by_cases hx : isHexDigit x = true
  · by_cases hy : isHexDigit y = true
    · rw [if_pos hx, if_pos hy, if_pos ⟨hx, hy⟩, Option.bind_some, Option.bind_some,
        shl_or (hexVal_lt hx) (hexVal_lt hy)]
    · rw [if_neg hy, if_neg (not_and_of_not_right _ hy)]
      exact Option.bind_fun_none _
  · rw [if_neg hx, if_neg (not_and_of_not_left _ hx)]
    rfl

theorem hexSlot_succ (x y : UInt8) (rest : List UInt8) (i : ℕ) :
    hexSlot (x :: y :: rest) (i + 1) = hexSlot rest i := rfl

/-- The slots spell the bytes if there are digits only. -/
theorem mapM_hexSlot : ∀ {k : ℕ} {hex : List UInt8}, hex.length = 2 * k →
    (List.range k).mapM (hexSlot hex) = if hex.all isHexDigit then some (ofHex hex) else none
  | 0, hex, h => by
    rw [List.eq_nil_of_length_eq_zero h]
    rfl
  | k + 1, x :: y :: rest, h => by
    have hrest : rest.length = 2 * k := by
      rw [List.length_cons, List.length_cons] at h
      omega
    have ih := mapM_hexSlot hrest
    have hshift : hexSlot (x :: y :: rest) ∘ Nat.succ = hexSlot rest := funext (hexSlot_succ x y rest)
    rw [List.range_succ_eq_map, List.mapM_cons, List.mapM_map, hexSlot_zero, List.all_cons, List.all_cons,
      hshift, ih]
    by_cases hx : isHexDigit x = true
    · by_cases hy : isHexDigit y = true
      · rw [if_pos ⟨hx, hy⟩, hx, hy, Bool.true_and, Bool.true_and]
        by_cases hall : rest.all isHexDigit = true
        · rw [if_pos hall, if_pos hall]
          rfl
        · rw [if_neg hall, if_neg hall]
          rfl
      · rw [if_neg (not_and_of_not_right _ hy), Bool.eq_false_iff.mpr hy, Bool.false_and, Bool.and_false]
        rfl
    · rw [if_neg (not_and_of_not_left _ hx), Bool.eq_false_iff.mpr hx, Bool.false_and]
      rfl

/-- **The hashes that are read**: 40 digits of either case. -/
theorem parseHexHash_eq_some_iff {hex : List UInt8} {v : InfoHash} : parseHexHash hex = some v ↔
    hex.length = 40 ∧ (∀ c ∈ hex, isHexDigit c = true) ∧ ofHex hex = v.toList := by
  unfold parseHexHash
  by_cases hlen : hex.length = 40
  · rw [if_neg (not_not_intro hlen), mapM_hexSlot (k := 20) hlen, ← List.all_eq_true]
    by_cases hall : hex.all isHexDigit = true
    · rw [if_pos hall, Option.bind_some, array_eq_some_iff]
      exact ⟨fun h => ⟨hlen, hall, h⟩, fun h => h.2.2⟩
    · rw [if_neg hall]
      exact ⟨nofun, fun h => absurd h.2.1 hall⟩
  · rw [if_pos hlen]
    exact ⟨nofun, fun h => absurd h.1 hlen⟩

theorem parseHexHash_toHex (v : InfoHash) : parseHexHash (toHex v.toList) = some v := by
  refine parseHexHash_eq_some_iff.mpr ⟨?_, fun c hc => ?_, ofHex_toHex _⟩
  · rw [length_toHex, v.length_toList]
  · exact Bool.and_elim_left (isLowerHexDigit_of_mem_toHex hc)

theorem parsePort_printNat (port : UInt16) : parsePort (printNat port.toNat) = some port := by
  unfold parsePort
  rw [parseNat_printNat (Nat.le_of_lt_succ port.toNat_lt), Option.map_some, UInt16.ofNat_toNat]

/-! ### Lines and fields -/

/-- The value of a line of the field. -/
def fieldValue (field line : List UInt8) : Option (List UInt8) := (stripPrefix field (trim line)).map trim

def valuesOf (field data : List UInt8) : List (List UInt8) := (lines data).filterMap (fieldValue field)

theorem stripPrefix_infohash_of_port {s rest : List UInt8} (h : stripPrefix portLine s = some rest) :
    stripPrefix infohashLine s = none := by
  unfold stripPrefix at h ⊢
  split_ifs at h with hport
  refine if_neg fun hinfo => ?_
  obtain ⟨l, rfl⟩ := hport
  obtain ⟨l', hl'⟩ := hinfo
  exact absurd (List.cons.inj hl').1 (by decide)

/-- One more line. -/
theorem readLine_port (f : Fields) (line : List UInt8) :
    (readLine f line).port = (fieldValue portLine line).elim f.port parsePort := by
  unfold readLine fieldValue
  rcases stripPrefix portLine (trim line) with _ | rest
  · rcases stripPrefix infohashLine (trim line) with _ | rest <;> rfl
  · rfl

theorem readLine_infoHash (f : Fields) (line : List UInt8) :
    (readLine f line).infoHash = (fieldValue infohashLine line).elim f.infoHash parseHexHash := by
  unfold readLine fieldValue
  rcases hport : stripPrefix portLine (trim line) with _ | rest
  · rcases stripPrefix infohashLine (trim line) with _ | rest <;> rfl
  · rw [stripPrefix_infohash_of_port hport]
    rfl

/-- The last line of a field counts. -/
theorem getLast?_foldl {σ β γ : Type} {read : β → Option γ} {value : σ → Option β} {out : Fields → Option γ}
    {step : Fields → σ → Fields} (hstep : ∀ f a, out (step f a) = (value a).elim (out f) read) {f : Fields}
    (hf : out f = none) (l : List σ) :
    out (l.foldl step f) = (l.filterMap value).getLast?.bind read := by
  induction l using List.reverseRecOn with
  | nil => exact hf
  | append_singleton l a ih =>
    rw [List.foldl_append, List.filterMap_append]
    show out (step (l.foldl step f) a) = _
    rw [hstep]
    rcases hv : value a with _ | v
    · rw [List.filterMap_cons_none hv, List.filterMap_nil, List.append_nil, ← ih]
      rfl
    · rw [List.filterMap_cons_some hv, List.filterMap_nil, List.getLast?_concat, Option.bind_some]
      rfl

theorem readFields_port (data : List UInt8) :
    (readFields data).port = (valuesOf portLine data).getLast?.bind parsePort :=
  @getLast?_foldl _ _ _ _ _ Fields.port _ readLine_port _ rfl _

theorem readFields_infoHash (data : List UInt8) :
    (readFields data).infoHash = (valuesOf infohashLine data).getLast?.bind parseHexHash :=
  @getLast?_foldl _ _ _ _ _ Fields.infoHash _ readLine_infoHash _ rfl _

/-- **What the decoder reads**: the last line of each field. -/
theorem fromBytes_eq_some_iff {data : List UInt8} {a : LpdAnnounce} : fromBytes data = some a ↔
    validUtf8 data = true ∧ bep14Header <+: data ∧
      (∃ v, (valuesOf portLine data).getLast? = some v ∧ parsePort v = some a.port) ∧
      ∃ v, (valuesOf infohashLine data).getLast? = some v ∧ parseHexHash v = some a.infoHash := by
  have hread : fromBytes data = some a ↔ validUtf8 data = true ∧ bep14Header <+: data ∧
      (readFields data).port = some a.port ∧ (readFields data).infoHash = some a.infoHash := by
    unfold fromBytes
    split_ifs with hutf hhead
    · rcases hf : readFields data with ⟨_ | port, _ | infoHash⟩
      · exact ⟨nofun, fun h => nomatch h.2.2.1⟩
      · exact ⟨nofun, fun h => nomatch h.2.2.1⟩
      · exact ⟨nofun, fun h => nomatch h.2.2.2⟩
      · constructor
        · intro h
          cases h
          exact ⟨hutf, hhead, rfl, rfl⟩
        · rintro ⟨-, -, hport, hhash⟩
          cases hport
          cases hhash
          rfl
    · exact ⟨nofun, fun h => absurd h.2.1 hhead⟩
    · exact ⟨nofun, fun h => absurd h.1 hutf⟩
  rw [hread, readFields_port, readFields_infoHash, Option.bind_eq_some_iff, Option.bind_eq_some_iff]

/-! ### What is printed -/

/-- A character of ASCII that is printed and is no space. -/
def isVisible (b : UInt8) : Bool := within 0x21 0x7E b

/-- No white space at the ends. -/
structure Trimmed (s : List UInt8) : Prop where
  head : ∀ b ∈ s.head?, isVisible b = true
  last : ∀ b ∈ s.getLast?, isVisible b = true

theorem whitespace_ends : ∀ code ∈ whitespace,
    code ≠ [] ∧ code.head?.any isVisible = false ∧ code.getLast?.any isVisible = false := by decide +kernel

theorem Trimmed.notPrefix {s code : List UInt8} (h : Trimmed s) (hcode : code ∈ whitespace) : ¬ code <+: s := by
  rintro ⟨rest, rfl⟩
  obtain ⟨hne, hhead, -⟩ := whitespace_ends code hcode
  obtain ⟨b, code, rfl⟩ := List.exists_cons_of_ne_nil hne
  have hb : isVisible b = false := hhead
  rw [h.head b rfl] at hb
  cases hb

theorem Trimmed.notSuffix {s code : List UInt8} (h : Trimmed s) (hcode : code ∈ whitespace) : ¬ code <:+ s := by
  rintro ⟨rest, rfl⟩
  obtain ⟨hne, -, hlast⟩ := whitespace_ends code hcode
  obtain ⟨code, b, rfl⟩ := (List.eq_nil_or_concat code).resolve_left hne
  rw [List.concat_eq_append, List.getLast?_concat] at hlast
  have hb : isVisible b = false := hlast
  rw [h.last b (by rw [List.concat_eq_append, ← List.append_assoc, List.getLast?_concat]; rfl)] at hb
  cases hb

theorem Trimmed.trim {s : List UInt8} (h : Trimmed s) : trim s = s :=
  trim_eq_self (fun _ hcode => h.notPrefix hcode) fun _ hcode => h.notSuffix hcode

/-- A space in front is stripped. -/
theorem Trimmed.trim_space {s : List UInt8} (h : Trimmed s) : Lib.Bytes.trim (byte ' ' :: s) = s := by
  have hstart : trimStart (byte ' ' :: s) = trimStart s := rfl
  unfold Lib.Bytes.trim
  rw [hstart]
  exact h.trim

theorem Trimmed.append {s : List UInt8} (h : Trimmed s) {a : UInt8} (front : List UInt8)
    (ha : isVisible a = true) (hs : s ≠ []) : Trimmed (a :: front ++ s) := by
  refine ⟨fun b hb => ?_, fun b hb => h.last b ?_⟩
  · cases hb
    exact ha
  · rwa [List.getLast?_append_of_ne_nil _ hs] at hb

theorem trimmed_of_all {s : List UInt8} (h : ∀ b ∈ s, isVisible b = true) : Trimmed s :=
  ⟨fun b hb => h b (List.mem_of_mem_head? hb), fun b hb => h b (List.mem_of_mem_getLast? hb)⟩

theorem isVisible_printNat {n : ℕ} {b : UInt8} (h : b ∈ printNat n) : isVisible b = true := by
  have hdigit := isDigit_iff.mp ((isNumeral_iff.mp (isNumeral_printNat n)).2 b h)
  exact within_iff.mpr ⟨le_trans (by decide) hdigit.1, le_trans hdigit.2 (by decide)⟩

theorem isVisible_toHex {l : List UInt8} {b : UInt8} (h : b ∈ toHex l) : isVisible b = true := by
  have hdigit := isHexDigit_iff.mp (Bool.and_elim_left (isLowerHexDigit_of_mem_toHex h))
  refine within_iff.mpr ?_
  show 33 ≤ b.toNat ∧ b.toNat ≤ 126
  omega

/-! ### Lines -/

/-- Every line ends in a carriage return and a newline. -/
def closeLines (ls : List (List UInt8)) : List UInt8 := ls.flatMap (· ++ text "\r\n")

theorem closeLines_cons (l : List UInt8) (ls : List (List UInt8)) :
    closeLines (l :: ls) = (l ++ [byte '\r']) ++ byte '\n' :: closeLines ls := by
  show l ++ text "\r\n" ++ closeLines ls = _
  rw [List.append_assoc, List.append_assoc]
  rfl

theorem splitOn_closeLines : ∀ {ls : List (List UInt8)}, (∀ l ∈ ls, byte '\n' ∉ l) →
    (closeLines ls).splitOn (byte '\n') = ls.map (· ++ [byte '\r']) ++ [[]]
  | [], _ => rfl
  | l :: ls, h => by
    have hl : byte '\n' ∉ l ++ [byte '\r'] := by
      rw [List.mem_append, not_or]
      exact ⟨h l List.mem_cons_self, by decide⟩
    rw [closeLines_cons, List.splitOn_append_cons_self_of_not_mem hl,
      splitOn_closeLines fun l' hl' => h l' (List.mem_cons_of_mem _ hl')]
    rfl

/-- **Closed lines are read back.** -/
theorem lines_closeLines {ls : List (List UInt8)} (h : ∀ l ∈ ls, byte '\n' ∉ l) : lines (closeLines ls) = ls := by
  have hstrip : stripCarriageReturn ∘ (· ++ [byte '\r']) = id := by
    funext l
    show stripCarriageReturn (l ++ [byte '\r']) = l
    unfold stripCarriageReturn
    rw [List.getLast?_concat, if_pos rfl, List.dropLast_concat]
  unfold lines
  rw [splitOn_closeLines h]
  dsimp only
  rw [List.dropLast_concat, List.getLast?_concat, List.map_map, hstrip, List.map_id]
  exact List.append_nil ls

/-! ### The lines of an announcement -/

def hostText : List UInt8 := text "Host: " ++ lpdMulticastAddr ++ text ":" ++ printNat lpdPort

def portText (a : LpdAnnounce) : List UInt8 := portLine ++ byte ' ' :: printNat a.port.toNat

def infohashText (a : LpdAnnounce) : List UInt8 := infohashLine ++ byte ' ' :: toHex a.infoHash.toList

def announceLines (a : LpdAnnounce) : List (List UInt8) :=
  [bep14Header, hostText, portText a, infohashText a, []]

theorem toBytes_eq (a : LpdAnnounce) : a.toBytes = closeLines (announceLines a) := by
  have hhost : text "\r\nHost: " = text "\r\n" ++ text "Host: " := rfl
  have hport : text "\r\nPort: " = text "\r\n" ++ (portLine ++ [byte ' ']) := rfl
  have hinfo : text "\r\nInfohash: " = text "\r\n" ++ (infohashLine ++ [byte ' ']) := rfl
  have hend : text "\r\n\r\n" = text "\r\n" ++ text "\r\n" := rfl
  unfold LpdAnnounce.toBytes closeLines announceLines hostText portText infohashText
  rw [hhost, hport, hinfo, hend]
  simp only [List.flatMap_cons, List.flatMap_nil, List.append_assoc, List.nil_append, List.append_nil,
    List.cons_append]

/-- A visible character or a space. -/
def isPlain (b : UInt8) : Bool := isVisible b || b == byte ' '

theorem isPlain_of_isVisible {b : UInt8} (h : isVisible b = true) : isPlain b = true :=
  Bool.or_eq_true_iff.mpr (Or.inl h)

theorem isPlain_bounds {b : UInt8} (h : isPlain b = true) : b < 0x80 ∧ b ≠ byte '\n' := by
  rcases Bool.or_eq_true_iff.mp h with h | h
  · obtain ⟨hlo, hhi⟩ := within_iff.mp h
    refine ⟨lt_of_le_of_lt hhi (by decide), ?_⟩
    rintro rfl
    exact absurd hlo (by decide)
  · rw [beq_iff_eq.mp h]
    decide

theorem isPlain_field {field value : List UInt8} (hfield : field.all isPlain = true)
    (hvalue : ∀ b ∈ value, isVisible b = true) : ∀ b ∈ field ++ byte ' ' :: value, isPlain b = true := by
  intro b hb
  rcases List.mem_append.mp hb with hb | hb
  · exact List.all_eq_true.mp hfield b hb
  · rcases List.mem_cons.mp hb with rfl | hb
    · decide
    · exact isPlain_of_isVisible (hvalue b hb)

theorem isPlain_announceLines {a : LpdAnnounce} {l : List UInt8} (hl : l ∈ announceLines a) :
    ∀ b ∈ l, isPlain b = true := by
  unfold announceLines at hl
  simp only [List.mem_cons, List.not_mem_nil, or_false] at hl
  rcases hl with rfl | rfl | rfl | rfl | rfl
  · exact List.all_eq_true.mp (by decide +kernel : bep14Header.all isPlain = true)
  · exact List.all_eq_true.mp (by decide +kernel : hostText.all isPlain = true)
  · exact isPlain_field (by decide) fun b hb => isVisible_printNat hb
  · exact isPlain_field (by decide) fun b hb => isVisible_toHex hb
  · exact fun b hb => absurd hb List.not_mem_nil

theorem lines_toBytes (a : LpdAnnounce) : lines a.toBytes = announceLines a := by
  rw [toBytes_eq]
  exact lines_closeLines fun l hl hmem => (isPlain_bounds (isPlain_announceLines hl _ hmem)).2 rfl

theorem validUtf8_toBytes (a : LpdAnnounce) : validUtf8 a.toBytes = true := by
  refine validUtf8_of_ascii fun b hb => ?_
  rw [toBytes_eq] at hb
  obtain ⟨l, hl, hb⟩ := List.mem_flatMap.mp hb
  rcases List.mem_append.mp hb with hb | hb
  · exact (isPlain_bounds (isPlain_announceLines hl b hb)).1
  · exact ascii_of_all (by decide : (text "\r\n").all _ = true) b hb

/-- A line of a field that starts with a visible character. -/
theorem trim_line {value rest : List UInt8} {c : UInt8} (hvalue : Trimmed value) (hne : value ≠ [])
    (hc : isVisible c = true) : trim (c :: rest ++ byte ' ' :: value) = c :: rest ++ byte ' ' :: value := by
  have happ : c :: rest ++ byte ' ' :: value = c :: (rest ++ [byte ' ']) ++ value := by
    rw [List.cons_append, List.cons_append, List.append_assoc]
    rfl
  rw [happ]
  exact (hvalue.append _ hc hne).trim

/-- The line of a field gives its value. -/
theorem value_line {value rest : List UInt8} {c : UInt8} (hvalue : Trimmed value) (hne : value ≠ [])
    (hc : isVisible c = true) :
    fieldValue (c :: rest) (c :: rest ++ byte ' ' :: value) = some value := by
  unfold fieldValue stripPrefix
  rw [trim_line hvalue hne hc, if_pos (List.prefix_append _ _), List.drop_left, Option.map_some,
    hvalue.trim_space]

/-- The line of another field gives none. -/
theorem value_line_of_ne {value rest rest' : List UInt8} {c c' : UInt8} (hvalue : Trimmed value)
    (hne : value ≠ []) (hc : isVisible c = true) (hcc : c' ≠ c) :
    fieldValue (c' :: rest') (c :: rest ++ byte ' ' :: value) = none := by
  unfold fieldValue stripPrefix
  rw [trim_line hvalue hne hc, if_neg]
  · rfl
  · rintro ⟨tail, htail⟩
    exact hcc (List.cons.inj htail).1

theorem printNat_ne_nil (n : ℕ) : printNat n ≠ [] := (isNumeral_iff.mp (isNumeral_printNat n)).1

theorem toHex_ne_nil (v : InfoHash) : toHex v.toList ≠ [] := fun h => by
  have hlen := congrArg List.length h
  rw [length_toHex, v.length_toList] at hlen
  cases hlen

theorem trimmed_printNat (n : ℕ) : Trimmed (printNat n) := trimmed_of_all fun _ => isVisible_printNat

theorem trimmed_toHex (l : List UInt8) : Trimmed (toHex l) := trimmed_of_all fun _ => isVisible_toHex

/-- The first two lines and the last one have no value. -/
theorem value_other {field line : List UInt8} (hfield : field = portLine ∨ field = infohashLine)
    (hline : line = bep14Header ∨ line = hostText ∨ line = []) :
    fieldValue field line = none := by
  rcases hfield with rfl | rfl <;> rcases hline with rfl | rfl | rfl <;> decide +kernel

theorem value_portText (a : LpdAnnounce) : fieldValue portLine (portText a) = some (printNat a.port.toNat) ∧
    fieldValue infohashLine (portText a) = none :=
  ⟨value_line (trimmed_printNat _) (printNat_ne_nil _) (by decide),
    value_line_of_ne (trimmed_printNat _) (printNat_ne_nil _) (by decide) (by decide)⟩

theorem value_infohashText (a : LpdAnnounce) :
    fieldValue infohashLine (infohashText a) = some (toHex a.infoHash.toList) ∧
      fieldValue portLine (infohashText a) = none :=
  ⟨value_line (trimmed_toHex _) (toHex_ne_nil _) (by decide),
    value_line_of_ne (trimmed_toHex _) (toHex_ne_nil _) (by decide) (by decide)⟩

theorem valuesOf_port (a : LpdAnnounce) : valuesOf portLine a.toBytes = [printNat a.port.toNat] := by
  unfold valuesOf
  rw [lines_toBytes]
  unfold announceLines
  rw [List.filterMap_cons_none (value_other (Or.inl rfl) (Or.inl rfl)),
    List.filterMap_cons_none (value_other (Or.inl rfl) (Or.inr (Or.inl rfl))),
    List.filterMap_cons_some (value_portText a).1, List.filterMap_cons_none (value_infohashText a).2,
    List.filterMap_cons_none (value_other (Or.inl rfl) (Or.inr (Or.inr rfl))), List.filterMap_nil]

theorem valuesOf_infohash (a : LpdAnnounce) : valuesOf infohashLine a.toBytes = [toHex a.infoHash.toList] := by
  unfold valuesOf
  rw [lines_toBytes]
  unfold announceLines
  rw [List.filterMap_cons_none (value_other (Or.inr rfl) (Or.inl rfl)),
    List.filterMap_cons_none (value_other (Or.inr rfl) (Or.inr (Or.inl rfl))),
    List.filterMap_cons_none (value_portText a).2, List.filterMap_cons_some (value_infohashText a).1,
    List.filterMap_cons_none (value_other (Or.inr rfl) (Or.inr (Or.inr rfl))), List.filterMap_nil]

/-- **An announcement is read back.** -/
theorem fromBytes_toBytes (a : LpdAnnounce) : fromBytes a.toBytes = some a := by
  refine fromBytes_eq_some_iff.mpr ⟨validUtf8_toBytes a, ?_, ⟨_, ?_, parsePort_printNat a.port⟩, _, ?_,
    parseHexHash_toHex a.infoHash⟩
  · rw [toBytes_eq]
    show bep14Header <+: bep14Header ++ text "\r\n" ++ _
    rw [List.append_assoc]
    exact List.prefix_append _ _
  · rw [valuesOf_port]
    rfl
  · rw [valuesOf_infohash]
    rfl

end CncContent.Peers.LocalDiscovery
