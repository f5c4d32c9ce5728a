import CncContent.Lib.Checks
import CncContent.Lib.HexDigits
import CncContent.Peers.Tracker

/-! # The text of a peer identity

`PeerId::to_encoded` and `from_encoded` of the source: `ic1`, a letter for how the identity was derived,
and 64 hexadecimal digits. The decoder reads the digits character by character, and a character that is
no digit of either case is an error (`fromEncoded_eq_ok_iff`). So a text is the printed one of the
identity that is read from it, unless it has a digit in upper case (`fromEncoded_canonical_iff`). -/

namespace CncContent.Peers.PeerIds

open CncContent.Lib.Bounded CncContent.Lib.Bytes CncContent.Lib.Checks CncContent.Lib.HexDigits
open CncContent.Lib.IpAddresses (isHexDigit hexVal hexVal_lt isHexDigit_iff)
open CncContent.Peers.Tracker (PeerId PeerIdKind)

inductive PeerIdDecodeError
  | invalidLength (length : ℕ)
  | invalidPrefix (found : List UInt8)
  | invalidKind (byte : UInt8)
  | invalidHex (detail : List UInt8)
deriving DecidableEq, Repr

def kindChar : PeerIdKind → UInt8
  | .random => byte 'r'
  | .hashed => byte 'h'
  | .ed25519 => byte 'e'

def toEncoded (id : PeerId) : List UInt8 :=
  text "ic1" ++ kindChar id.kind :: toHex id.bytes.toList

/-! ### Reading digits -/

def isContinuation (b : UInt8) : Bool := within 0x80 0xBF b

/-- `chars.next()`: the first character of a text, and what stands behind it. -/
def nextChar : List UInt8 → Option (List UInt8 × List UInt8)
  | [] => none
  | b :: s => some (b :: s.takeWhile isContinuation, s.dropWhile isContinuation)

/-- `char::to_digit` for the radix 16. -/
def toDigit : List UInt8 → Option ℕ
  | [b] => if isHexDigit b then some (hexVal b) else none
  | _ => none

def endOfHex : PeerIdDecodeError := .invalidHex (text "unexpected end of hex")

def noDigit (c : List UInt8) : PeerIdDecodeError :=
  .invalidHex (text "invalid hex character: " ++ c)

/-- The loop of `hex_decode_peer_id`, for the last slots. -/
def hexSlots : (k : ℕ) → List UInt8 → Except PeerIdDecodeError (Vector UInt8 k)
  | 0, _ => .ok #v[]
  | k + 1, chars => do
    let (hi, chars) ← okOr (nextChar chars) endOfHex
    let (lo, chars) ← okOr (nextChar chars) endOfHex
    let hiVal ← okOr (toDigit hi) (noDigit hi)
    let loVal ← okOr (toDigit lo) (noDigit lo)
    let slots ← hexSlots k chars
    return ⟨((UInt8.ofNat hiVal <<< 4 ||| UInt8.ofNat loVal) :: slots.toList).toArray, by simp⟩

def hexDecodePeerId (hex : List UInt8) : Except PeerIdDecodeError (Vector UInt8 32) := do
  refuse (hex.length ≠ 32 * 2) (.invalidLength (satAdd u64Max hex.length 4))
  hexSlots 32 hex

def kindOf (b : UInt8) : Except PeerIdDecodeError PeerIdKind :=
  if b = byte 'r' then .ok .random
  else if b = byte 'h' then .ok .hashed
  else if b = byte 'e' then .ok .ed25519
  else .error (.invalidKind b)

def fromEncoded (s : List UInt8) : Except PeerIdDecodeError PeerId := do
  let s := trim s
  refuse (s.length ≠ 68) (.invalidLength s.length)
  let front := (textSlice s 0 3).getD []
  refuse (front ≠ text "ic1") (.invalidPrefix front)
  let kind ← kindOf (s[3]?.getD 0)
  let bytes ← hexDecodePeerId ((textSlice s 4 s.length).getD [])
  return ⟨bytes, kind⟩

theorem kindOf_eq_ok_iff {b : UInt8} {kind : PeerIdKind} : kindOf b = .ok kind ↔ b = kindChar kind := by
  unfold kindOf
  constructor
  · intro h
    split_ifs at h <;> cases h <;> assumption
  · rintro rfl
    cases kind <;> rfl

theorem toDigit_eq_some_iff {c : List UInt8} {n : ℕ} :
    toDigit c = some n ↔ ∃ b, c = [b] ∧ isHexDigit b = true ∧ n = hexVal b := by
  unfold toDigit
  split
  · rename_i b
    split_ifs with hb
    · rw [Option.some.injEq]
      exact ⟨fun h => ⟨b, rfl, hb, h.symm⟩, fun ⟨_, h, _, hn⟩ => by cases h; exact hn.symm⟩
    · exact ⟨nofun, fun ⟨_, h, hb', _⟩ => absurd hb' (by cases h; exact hb)⟩
  · rename_i hnot
    exact ⟨nofun, fun ⟨b, h, _⟩ => absurd h (hnot b)⟩

/-- A character of one byte is followed by the next character. -/
theorem nextChar_eq_singleton_iff {s rest : List UInt8} {b : UInt8} : nextChar s = some ([b], rest) ↔
    s = b :: rest ∧ ∀ c ∈ rest.head?, isContinuation c = false := by
  cases s with
  | nil => exact ⟨nofun, fun h => nomatch h.1⟩
  | cons a s =>
    unfold nextChar
    rw [Option.some.injEq, Prod.mk.injEq, List.cons.injEq, List.cons.injEq]
    constructor
    · rintro ⟨⟨rfl, htake⟩, rfl⟩
      have hs := List.takeWhile_append_dropWhile (p := isContinuation) (l := s)
      have hhead := List.head?_dropWhile_not isContinuation s
      rw [htake, List.nil_append] at hs
      refine ⟨⟨rfl, hs.symm⟩, fun c hc => ?_⟩
      rw [Option.mem_def.mp hc] at hhead
      exact hhead
    · rintro ⟨⟨rfl, rfl⟩, hhead⟩
      have htake : s.takeWhile isContinuation = [] := takeWhile_append_stop (l := []) nofun hhead
      have hs := List.takeWhile_append_dropWhile (p := isContinuation) (l := s)
      rw [htake, List.nil_append] at hs
      exact ⟨⟨rfl, htake⟩, hs⟩

theorem isContinuation_of_isHexDigit {b : UInt8} (h : isHexDigit b = true) :
    isContinuation b = false := by
  have hcont : isContinuation b = true ↔ 128 ≤ b.toNat ∧ b.toNat ≤ 191 := within_iff
  rw [isHexDigit_iff] at h
  rw [← Bool.not_eq_true, hcont]
  omega

/-- The byte of two digits. -/
theorem shl_or_eq : ∀ m < 16, ∀ n < 16,
    UInt8.ofNat m <<< 4 ||| UInt8.ofNat n = UInt8.ofNat (16 * m + n) := by
  decide

/-- One more slot is filled from two digits. -/
theorem hexSlots_succ_eq_ok_iff {k : ℕ} {chars : List UInt8} {v : Vector UInt8 (k + 1)} :
    hexSlots (k + 1) chars = .ok v ↔ ∃ x y rest, chars = x :: y :: rest ∧
      (isHexDigit x = true ∧ isHexDigit y = true) ∧ (∀ c ∈ rest.head?, isContinuation c = false) ∧
      ∃ w, hexSlots k rest = .ok w ∧
        v.toList = UInt8.ofNat (16 * hexVal x + hexVal y) :: w.toList := by
  rw [hexSlots]
  simp only [bind_eq_ok, okOr_eq_ok, toDigit_eq_some_iff]
  constructor
  · rintro ⟨⟨hi, chars'⟩, hhi, ⟨lo, rest⟩, hlo, m, ⟨x, rfl, hx, rfl⟩, n, ⟨y, rfl, hy, rfl⟩, w, hw, hv⟩
    obtain ⟨rfl, -⟩ := nextChar_eq_singleton_iff.mp hhi
    obtain ⟨rfl, hhead⟩ := nextChar_eq_singleton_iff.mp hlo
    refine ⟨x, y, rest, rfl, ⟨hx, hy⟩, hhead, w, hw, ?_⟩
    cases hv
    rw [← shl_or_eq _ (hexVal_lt hx) _ (hexVal_lt hy)]
    rfl
  · rintro ⟨x, y, rest, rfl, ⟨hx, hy⟩, hhead, w, hw, hv⟩
    have hnext : nextChar (x :: y :: rest) = some ([x], y :: rest) := by
      refine nextChar_eq_singleton_iff.mpr ⟨rfl, fun c hc => ?_⟩
      cases hc
      exact isContinuation_of_isHexDigit hy
    refine ⟨_, hnext, _, nextChar_eq_singleton_iff.mpr ⟨rfl, hhead⟩, _, ⟨x, rfl, hx, rfl⟩, _,
      ⟨y, rfl, hy, rfl⟩, w, hw, ?_⟩
    rw [shl_or_eq _ (hexVal_lt hx) _ (hexVal_lt hy)]
    refine congrArg Except.ok (Vector.toList_inj.mp ?_)
    rw [hv]
    rfl

/-- **What the slots are filled with**: the bytes that the digits spell. -/
theorem hexSlots_eq_ok_iff : ∀ {k : ℕ} {hex : List UInt8} {v : Vector UInt8 k}, hex.length = 2 * k →
    (hexSlots k hex = .ok v ↔ (∀ c ∈ hex, isHexDigit c = true) ∧ ofHex hex = v.toList)
  | 0, hex, v, hlen => by
    obtain rfl := List.eq_nil_of_length_eq_zero hlen
    have hv : v = #v[] := Vector.eq_empty
    subst hv
    exact ⟨fun _ => ⟨nofun, rfl⟩, fun _ => rfl⟩
  | k + 1, hex, v, hlen => by
    rw [hexSlots_succ_eq_ok_iff]
    constructor
    · rintro ⟨x, y, rest, rfl, ⟨hx, hy⟩, -, w, hw, hv⟩
      have hrest : rest.length = 2 * k := by
        rw [List.length_cons, List.length_cons] at hlen
        omega
      obtain ⟨hdigits, hbytes⟩ := (hexSlots_eq_ok_iff hrest).mp hw
      refine ⟨?_, ?_⟩
      · rw [List.forall_mem_cons, List.forall_mem_cons]
        exact ⟨hx, hy, hdigits⟩
      · rw [ofHex, hbytes, hv]
    · rintro ⟨hdigits, hbytes⟩
      obtain ⟨x, hex, rfl⟩ := List.exists_cons_of_length_pos (by omega : 0 < hex.length)
      rw [List.length_cons] at hlen
      obtain ⟨y, rest, rfl⟩ := List.exists_cons_of_length_pos (by omega : 0 < hex.length)
      rw [List.length_cons] at hlen
      rw [List.forall_mem_cons, List.forall_mem_cons] at hdigits
      obtain ⟨hx, hy, hdigits⟩ := hdigits
      have hv : v.toList = UInt8.ofNat (16 * hexVal x + hexVal y) :: ofHex rest := hbytes.symm
      have hcount := congrArg List.length hv
      rw [v.length_toList, List.length_cons] at hcount
      have hw : (ofHex rest).length = k := by omega
      refine ⟨x, y, rest, rfl, ⟨hx, hy⟩, fun c hc => ?_, ⟨(ofHex rest).toArray, hw⟩, ?_, hv⟩
      · exact isContinuation_of_isHexDigit (hdigits c (List.mem_of_mem_head? hc))
      · exact (hexSlots_eq_ok_iff (by omega)).mpr ⟨hdigits, rfl⟩

theorem hexDecodePeerId_eq_ok_iff {hex : List UInt8} {v : Vector UInt8 32} :
    hexDecodePeerId hex = .ok v ↔
      hex.length = 64 ∧ (∀ c ∈ hex, isHexDigit c = true) ∧ ofHex hex = v.toList := by
  unfold hexDecodePeerId
  simp only [bind_eq_ok, refuse_eq_ok, decide_eq_false_iff_not, not_not]
  constructor
  · rintro ⟨-, hlen, hslots⟩
    exact ⟨hlen, (hexSlots_eq_ok_iff hlen).mp hslots⟩
  · rintro ⟨hlen, hslots⟩
    exact ⟨(), hlen, (hexSlots_eq_ok_iff hlen).mpr hslots⟩

/-! ### Reading a text -/

theorem eq_some_of_getD {o : Option (List UInt8)} {l : List UInt8} (h : o.getD [] = l) (hl : l ≠ []) :
    o = some l := by
  cases o with
  | none => exact absurd h.symm hl
  | some l' => exact congrArg some h

theorem kindChar_lt (kind : PeerIdKind) : kindChar kind < 0x80 := by
  cases kind <;> decide

theorem ascii_of_isHexDigit {b : UInt8} (h : isHexDigit b = true) : b < 0x80 := by
  rw [isHexDigit_iff] at h
  show b.toNat < 128
  omega

/-- A text of the right length is put together from what the decoder looks at. -/
theorem eq_of_slices {t hex : List UInt8} {kind : PeerIdKind} (hlen : t.length = 68)
    (hfront : (textSlice t 0 3).getD [] = text "ic1") (hkind : t[3]?.getD 0 = kindChar kind)
    (hslice : textSlice t 4 t.length = some hex) : t = text "ic1" ++ kindChar kind :: hex := by
  have hthree : (text "ic1").length = 3 := rfl
  have hfront := textSlice_eq_some (eq_some_of_getD hfront (by decide))
  obtain ⟨-, -, rest, hrest⟩ := slice_eq_some_iff.mp hfront
  rw [List.drop_zero] at hrest
  subst hrest
  obtain ⟨a, rest, rfl⟩ : ∃ a l, rest = a :: l := by
    refine List.exists_cons_of_length_pos ?_
    rw [List.length_append] at hlen
    omega
  have ha : a = kindChar kind := hkind
  obtain ⟨-, hstop, tail, htail⟩ := slice_eq_some_iff.mp (textSlice_eq_some hslice)
  have hdrop : (text "ic1" ++ a :: rest).drop 4 = rest := rfl
  rw [hdrop] at htail
  have hcount := congrArg List.length htail
  rw [List.length_append] at hcount
  have hwhole : (text "ic1" ++ a :: rest).length = 4 + rest.length := by
    rw [List.length_append, List.length_cons]
    omega
  have hnil : tail = [] := List.eq_nil_of_length_eq_zero (by omega)
  rw [ha, htail, hnil, List.append_nil]

/-- The slices of such a text, which is ASCII. -/
theorem slices_eq {hex : List UInt8} {kind : PeerIdKind}
    (hlen : (text "ic1" ++ kindChar kind :: hex).length = 68) (hdigits : ∀ c ∈ hex, isHexDigit c = true) :
    textSlice (text "ic1" ++ kindChar kind :: hex) 0 3 = some (text "ic1") ∧
      textSlice (text "ic1" ++ kindChar kind :: hex) 4
        (text "ic1" ++ kindChar kind :: hex).length = some hex := by
  have hascii : ∀ b ∈ text "ic1" ++ kindChar kind :: hex, b < 0x80 := by
    intro b hb
    rcases List.mem_append.mp hb with hb | hb
    · exact ascii_of_all (by decide : (text "ic1").all _ = true) b hb
    · rcases List.mem_cons.mp hb with rfl | hb
      · exact kindChar_lt kind
      · exact ascii_of_isHexDigit (hdigits b hb)
  constructor
  · rw [textSlice_of_ascii hascii (by omega) (by omega)]
    exact slice_append [] (text "ic1") (kindChar kind :: hex)
  · rw [textSlice_of_ascii hascii (by omega) (le_refl _)]
    refine slice_of_eq (l := text "ic1" ++ [kindChar kind]) (r := []) ?_ rfl ?_
    · simp
    · simp [text]
      omega

/-- The text is `ic1`, the letter of the kind and the digits. -/
theorem shape_iff {t hex : List UInt8} {kind : PeerIdKind} (hlen : t.length = 68) :
    (((textSlice t 0 3).getD [] = text "ic1" ∧ t[3]?.getD 0 = kindChar kind) ∧
      textSlice t 4 t.length = some hex ∧ ∀ c ∈ hex, isHexDigit c = true) ↔
    t = text "ic1" ++ kindChar kind :: hex ∧ ∀ c ∈ hex, isHexDigit c = true := by
  constructor
  · rintro ⟨⟨hfront, hkind⟩, hslice, hdigits⟩
    exact ⟨eq_of_slices hlen hfront hkind hslice, hdigits⟩
  · rintro ⟨rfl, hdigits⟩
    obtain ⟨hfront, hslice⟩ := slices_eq hlen hdigits
    exact ⟨⟨by rw [hfront]; rfl, rfl⟩, hslice, hdigits⟩

/-- **What the decoder reads**: `ic1`, the letter of a kind and 64 digits of either case. -/
theorem fromEncoded_eq_ok_iff {s : List UInt8} {id : PeerId} : fromEncoded s = .ok id ↔
    ∃ hex, trim s = text "ic1" ++ kindChar id.kind :: hex ∧ hex.length = 64 ∧
      (∀ c ∈ hex, isHexDigit c = true) ∧ ofHex hex = id.bytes.toList := by
  unfold fromEncoded
  simp only [bind_eq_ok, refuse_eq_ok, decide_eq_false_iff_not, not_not, kindOf_eq_ok_iff,
    hexDecodePeerId_eq_ok_iff]
  constructor
  · rintro ⟨-, hlen, -, hfront, kind, hkind, bytes, ⟨hcount, hdigits, hbytes⟩, hid⟩
    cases hid
    set hex := (textSlice (trim s) 4 (trim s).length).getD [] with hhex
    have hne : hex ≠ [] := fun h => by rw [h] at hcount; cases hcount
    have hslice := eq_some_of_getD hhex.symm hne
    exact ⟨hex, ((shape_iff hlen).mp ⟨⟨hfront, hkind⟩, hslice, hdigits⟩).1, hcount, hdigits, hbytes⟩
  · rintro ⟨hex, htext, hcount, hdigits, hbytes⟩
    have hlen : (trim s).length = 68 := by
      rw [htext, List.length_append, List.length_cons, hcount]
      rfl
    obtain ⟨⟨hfront, hkind⟩, hslice, -⟩ := (shape_iff hlen).mpr ⟨htext, hdigits⟩
    refine ⟨(), hlen, (), hfront, id.kind, hkind, id.bytes, ?_, rfl⟩
    rw [hslice]
    exact ⟨hcount, hdigits, hbytes⟩

/-! ### One text for each identity -/

/-- `ic1`, the letter of a kind, and 64 digits of which one is in upper case. -/
def UpperCase (t : List UInt8) : Prop :=
  ∃ kind hex, t = text "ic1" ++ kindChar kind :: hex ∧ hex.length = 64 ∧
    (∀ c ∈ hex, isHexDigit c = true) ∧ ∃ c ∈ hex, within (byte 'A') (byte 'F') c = true

/-- `ic1`, the letter of a kind, and 64 digits in lower case. -/
def Canonical (t : List UInt8) : Prop :=
  ∃ kind hex, t = text "ic1" ++ kindChar kind :: hex ∧ hex.length = 64 ∧
    ∀ c ∈ hex, isLowerHexDigit c = true

theorem length_toHex_bytes (id : PeerId) : (toHex id.bytes.toList).length = 64 := by
  rw [length_toHex, id.bytes.length_toList]

/-- A printed identity has no white space at its ends. -/
theorem trim_toEncoded (id : PeerId) : trim (toEncoded id) = toEncoded id := by
  have hfirst : ∀ code ∈ whitespace, code.head? ≠ some (byte 'i') ∧ code ≠ [] := by decide
  have hlast : ∀ code ∈ whitespace, code.getLast?.any isLowerHexDigit = false := by decide +kernel
  refine trim_eq_self (fun code hcode hprefix => ?_) fun code hcode hsuffix => ?_
  · obtain ⟨rest, hrest⟩ := hprefix
    obtain ⟨b, code, rfl⟩ := List.exists_cons_of_ne_nil (hfirst code hcode).2
    have hb : b = byte 'i' := (List.cons.inj hrest).1
    exact (hfirst _ hcode).1 (congrArg some hb)
  · obtain ⟨front, hfront⟩ := hsuffix
    have hne := (hfirst code hcode).2
    have hdigits : toHex id.bytes.toList ≠ [] := fun h => by
      have hlen := length_toHex_bytes id
      rw [h] at hlen
      cases hlen
    have hc : code.getLast? = some (code.getLast hne) := List.getLast?_eq_some_getLast hne
    set c := code.getLast hne
    have hmem : c ∈ (toHex id.bytes.toList).getLast? := by
      have hlast := congrArg List.getLast? hfront
      rw [List.getLast?_append_of_ne_nil _ hne, toEncoded, List.append_cons,
        List.getLast?_append_of_ne_nil _ hdigits] at hlast
      rw [← hlast]
      exact hc
    have hlower := isLowerHexDigit_of_mem_toHex (List.mem_of_getLast? hmem)
    have hno := hlast code hcode
    rw [hc, Option.any_some, hlower] at hno
    cases hno

/-- **What is printed is read back.** -/
theorem fromEncoded_toEncoded (id : PeerId) : fromEncoded (toEncoded id) = .ok id := by
  refine fromEncoded_eq_ok_iff.mpr ⟨toHex id.bytes.toList, trim_toEncoded id, length_toHex_bytes id, ?_,
    ofHex_toHex _⟩
  exact fun c hc => Bool.and_elim_left (isLowerHexDigit_of_mem_toHex hc)

/-- Digits of either case are read. -/
theorem exists_fromEncoded {s hex : List UInt8} {kind : PeerIdKind}
    (hs : trim s = text "ic1" ++ kindChar kind :: hex) (hlen : hex.length = 64)
    (hdigits : ∀ c ∈ hex, isHexDigit c = true) :
    ∃ id, fromEncoded s = .ok id := by
  have hbytes : (ofHex hex).length = 32 := length_ofHex hlen
  exact ⟨⟨⟨(ofHex hex).toArray, hbytes⟩, kind⟩,
    fromEncoded_eq_ok_iff.mpr ⟨hex, hs, hlen, hdigits, rfl⟩⟩

/-- **When an identity has one text**: what is printed is read back; and a text that is read is, without
the white space at its ends, `ic1`, the letter of a kind and 64 digits in lower case, and it is the
printed text of the identity that is read, unless it is such a text with a digit in upper case. -/
theorem fromEncoded_canonical_iff (s : List UInt8) :
    ((∀ id, fromEncoded s = .ok id → Canonical (trim s) ∧ trim s = toEncoded id) ∧
      ∀ id, fromEncoded (toEncoded id) = .ok id) ↔ ¬ UpperCase (trim s) := by
  constructor
  · rintro ⟨h, -⟩ ⟨kind, hex, hs, hlen, hdigits, c, hc, hupper⟩
    obtain ⟨id, hid⟩ := exists_fromEncoded hs hlen hdigits
    obtain ⟨⟨kind', hex', hs', -, hlower⟩, -⟩ := h id hid
    have hsame := List.append_cancel_left (hs.symm.trans hs')
    have hlow := hlower c ((List.cons.inj hsame).2 ▸ hc)
    unfold isLowerHexDigit at hlow
    rw [hupper, Bool.not_true, Bool.and_false] at hlow
    cases hlow
  · intro hnot
    refine ⟨fun id hid => ?_, fromEncoded_toEncoded⟩
    obtain ⟨hex, hs, hlen, hdigits, hbytes⟩ := fromEncoded_eq_ok_iff.mp hid
    have hlower : ∀ c ∈ hex, isLowerHexDigit c = true := by
      intro c hc
      have hcase : within (byte 'A') (byte 'F') c = false :=
        Bool.eq_false_iff.mpr fun hupper => hnot ⟨_, hex, hs, hlen, hdigits, c, hc, hupper⟩
      unfold isLowerHexDigit
      rw [hdigits c hc, hcase]
      rfl
    refine ⟨⟨_, hex, hs, hlen, hlower⟩, ?_⟩
    rw [hs, toEncoded, ← hbytes, toHex_ofHex (k := 32) hlen hlower]

/-- The text of an identity of 32 bytes 0xAB, in upper case. -/
def upperText : List UInt8 := text "ic1r" ++ (List.replicate 32 (text "AB")).flatten

theorem upperText_accepted :
    fromEncoded upperText = .ok ⟨Vector.replicate 32 0xAB, .random⟩ ∧
      toEncoded ⟨Vector.replicate 32 0xAB, .random⟩ ≠ trim upperText := by
  decide +kernel

end CncContent.Peers.PeerIds
