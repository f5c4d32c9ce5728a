import Mathlib.Algebra.GroupWithZero.Nat
import Mathlib.Data.List.Lex
import Mathlib.Data.Set.Function
import Mathlib.Order.Basic
import Mathlib.Tactic.SplitIfs

/-! # Byte strings

A byte string is a list of bytes; a text is the byte string that encodes it. `slice` is a range
access that fails out of bounds, `textSlice` one that also fails inside a character, and `array` is a
byte string of a given length. `keyLe` is the bytewise lexicographic order, `validUtf8` accepts the
well-formed UTF-8 sequences (ASCII among them, `validUtf8_of_ascii`), `fromUtf8Lossy` replaces what is
not well-formed, and `trim` strips the white space at the ends of a text (`trim_eq_self`). `toLe` and
`ofLe` are the little-endian bytes of a number (`ofLe_toLe`, `toLe_ofLe`), `toBe` and `ofBe` the
big-endian ones and `toHex` the hexadecimal digits of a byte string, and `setBit` and `getBit` treat the
bytes as a packed row of bits (`getBit_setBit`). -/

namespace CncContent.Lib.Bytes

/-- The byte of an ASCII character. -/
def byte (c : Char) : UInt8 := c.toUInt8

/-- The bytes of an ASCII text. -/
def text (s : String) : List UInt8 := s.toList.map byte

theorem ascii_of_all {s : List UInt8} (h : (s.all fun b => decide (b < 0x80)) = true) : ∀ b ∈ s, b < 0x80 :=
  fun b hb => of_decide_eq_true (List.all_eq_true.mp h b hb)

/-- The bytes at `[a, b)`, if that is a range of the data. -/
def slice {α : Type} (data : List α) (a b : ℕ) : Option (List α) :=
  if a ≤ b ∧ b ≤ data.length then some ((data.drop a).take (b - a)) else none

theorem slice_eq_some_iff {α : Type} {data out : List α} {a b : ℕ} :
    slice data a b = some out ↔
      a ≤ data.length ∧ b = a + out.length ∧ ∃ rest, data.drop a = out ++ rest := by
  unfold slice
  constructor
  · intro h
    split_ifs at h with hab
    cases h
    refine ⟨by omega, ?_, (data.drop a).drop (b - a), (List.take_append_drop _ _).symm⟩
    rw [List.length_take, List.length_drop]
    omega
  · rintro ⟨ha, rfl, rest, hrest⟩
    have hlen := congrArg List.length hrest
    rw [List.length_drop, List.length_append] at hlen
    rw [if_pos ⟨by omega, by omega⟩, hrest]
    simp

/-- Two lists of which neither contains the element that ends it. -/
theorem append_cons_inj {α : Type} {c : α} : ∀ {l l' r r' : List α}, c ∉ l → c ∉ l' →
    l ++ c :: r = l' ++ c :: r' → l = l' ∧ r = r'
  | [], [], _, _, _, _, h => ⟨rfl, (List.cons.inj h).2⟩
  | [], b :: l', _, _, _, hl', h => absurd (by rw [(List.cons.inj h).1]; simp) hl'
  | a :: l, [], _, _, hl, _, h => absurd (by rw [← (List.cons.inj h).1]; simp) hl
  | a :: l, b :: l', _, _, hl, hl', h => by
    rw [List.mem_cons, not_or] at hl hl'
    obtain ⟨rfl, h'⟩ := List.cons.inj h
    obtain ⟨rfl, hr⟩ := append_cons_inj hl.2 hl'.2 h'
    exact ⟨rfl, hr⟩

/-- What is in front of the first element without the property. -/
theorem takeWhile_append_stop {α : Type} {p : α → Bool} {l r : List α} (hl : ∀ a ∈ l, p a = true)
    (hr : ∀ a ∈ r.head?, p a = false) : (l ++ r).takeWhile p = l := by
  rw [List.takeWhile_append_of_pos hl]
  cases r with
  | nil => exact List.append_nil l
  | cons a r =>
    rw [List.takeWhile_cons_of_neg (Bool.eq_false_iff.mp (hr a rfl)), List.append_nil]

/-- The middle of three parts. -/
theorem slice_append {α : Type} (l m r : List α) :
    slice (l ++ (m ++ r)) l.length (l.length + m.length) = some m := by
  rw [slice_eq_some_iff]
  refine ⟨?_, rfl, r, List.drop_left⟩
  rw [List.length_append]
  omega

/-- The middle of three parts, by the lengths of the first two. -/
theorem slice_of_eq {α : Type} {data l m r : List α} {a b : ℕ} (h : data = l ++ (m ++ r))
    (ha : l.length = a) (hb : a + m.length = b) : slice data a b = some m := by
  subst h ha hb
  exact slice_append l m r

/-- What stands behind a range does not matter. -/
theorem slice_take_append {α : Type} {data rest : List α} {a b n : ℕ} (hb : b ≤ n)
    (hn : n ≤ data.length) : slice (data.take n ++ rest) a b = slice data a b := by
  have htake : (data.take n).length = n := List.length_take_of_le hn
  unfold slice
  by_cases hab : a ≤ b
  · rw [if_pos ⟨hab, by rw [List.length_append]; omega⟩, if_pos ⟨hab, by omega⟩,
      List.drop_append_of_le_length (by omega), List.take_append_of_le_length, List.drop_take,
      List.take_take, Nat.min_eq_left (by omega)]
    rw [List.length_drop]
    omega
  · rw [if_neg fun h => hab h.1, if_neg fun h => hab h.1]

/-- The place is between two characters of the text. -/
def isCharBoundary (s : List UInt8) (i : ℕ) : Bool :=
  match s[i]? with
  | some b => b < 0x80 || 0xC0 ≤ b
  | none => i == s.length

/-- The part `[a, b)` of a text, if it is one. -/
def textSlice (s : List UInt8) (a b : ℕ) : Option (List UInt8) :=
  if isCharBoundary s a && isCharBoundary s b then slice s a b else none

theorem textSlice_of_ascii {s : List UInt8} (h : ∀ b ∈ s, b < 0x80) {a b : ℕ} (hab : a ≤ b)
    (hb : b ≤ s.length) : textSlice s a b = slice s a b := by
  have hboundary : ∀ i, i ≤ s.length → isCharBoundary s i = true := by
    intro i hi
    unfold isCharBoundary
    rcases hs : s[i]? with _ | x
    · rw [List.getElem?_eq_none_iff] at hs
      exact beq_iff_eq.mpr (le_antisymm hi hs)
    · exact Bool.or_eq_true_iff.mpr (Or.inl (decide_eq_true (h x (List.mem_of_getElem? hs))))
  unfold textSlice
  rw [hboundary a (hab.trans hb), hboundary b hb]
  rfl

theorem textSlice_eq_some {s out : List UInt8} {a b : ℕ} (h : textSlice s a b = some out) :
    slice s a b = some out := by
  unfold textSlice at h
  split_ifs at h
  exact h

/-- The bytes as an array of the given length. -/
def array (n : ℕ) (l : List UInt8) : Option (Vector UInt8 n) :=
  if h : l.length = n then some ⟨l.toArray, h⟩ else none

theorem array_toList {n : ℕ} (v : Vector UInt8 n) : array n v.toList = some v := by
  unfold array
  rw [dif_pos v.length_toList]
  rfl

theorem array_eq_some_iff {n : ℕ} {l : List UInt8} {v : Vector UInt8 n} :
    array n l = some v ↔ l = v.toList := by
  constructor
  · intro h
    unfold array at h
    split_ifs at h
    cases h
    rfl
  · rintro rfl
    exact array_toList v

/-! ### The bytewise order -/

/-- `a <= b` of two byte strings. -/
def keyLe (a b : List UInt8) : Prop := a.map UInt8.toNat ≤ b.map UInt8.toNat

instance : DecidableRel keyLe := fun a b =>
  inferInstanceAs (Decidable (a.map UInt8.toNat ≤ b.map UInt8.toNat))

theorem keyLe_total (a b : List UInt8) : keyLe a b ∨ keyLe b a := le_total _ _

theorem keyLe_trans {a b c : List UInt8} (h1 : keyLe a b) (h2 : keyLe b c) : keyLe a c :=
  le_trans h1 h2

/-- A byte string as the order sees it. -/
def keyOf (a : List UInt8) : List ℕ := a.map UInt8.toNat

theorem keyOf_injective : Function.Injective keyOf :=
  List.map_injective_iff.mpr fun _ _ h => UInt8.toNat_inj.mp h

theorem keyLe_antisymm {a b : List UInt8} (h1 : keyLe a b) (h2 : keyLe b a) : a = b :=
  keyOf_injective (le_antisymm h1 h2)

/-! ### Little-endian numbers -/

/-- The lowest `k` bytes of a number, the lowest first. -/
def toLe : ℕ → ℕ → List UInt8
  | 0, _ => []
  | k + 1, n => UInt8.ofNat n :: toLe k (n / 256)

/-- The number the bytes spell. -/
def ofLe : List UInt8 → ℕ
  | [] => 0
  | b :: bs => b.toNat + 256 * ofLe bs

theorem length_toLe : ∀ k n : ℕ, (toLe k n).length = k
  | 0, _ => rfl
  | k + 1, n => congrArg Nat.succ (length_toLe k (n / 256))

/-- **A number of `k` bytes is read back.** -/
theorem ofLe_toLe : ∀ {k n : ℕ}, n < 256 ^ k → ofLe (toLe k n) = n
  | 0, n, h => (Nat.lt_one_iff.mp h).symm
  | k + 1, n, h => by
    have hdiv : n / 256 < 256 ^ k := by
      rw [Nat.pow_succ] at h
      omega
    have ih := ofLe_toLe hdiv
    show (UInt8.ofNat n).toNat + 256 * ofLe (toLe k (n / 256)) = n
    rw [ih, UInt8.toNat_ofNat']
    omega

/-- The lowest `k` bytes of a number, the highest first. -/
def toBe (k n : ℕ) : List UInt8 := (toLe k n).reverse

theorem length_toBe (k n : ℕ) : (toBe k n).length = k :=
  List.length_reverse.trans (length_toLe k n)

theorem toBe_injOn (k : ℕ) : Set.InjOn (toBe k) {n | n < 256 ^ k} := by
  intro m hm n hn h
  rw [← ofLe_toLe hm, List.reverse_injective h, ofLe_toLe hn]

theorem ofLe_lt : ∀ l : List UInt8, ofLe l < 256 ^ l.length
  | [] => Nat.one_pos
  | b :: l => by
    have ih := ofLe_lt l
    have hb := b.toNat_lt
    rw [List.length_cons, Nat.pow_succ]
    show b.toNat + 256 * ofLe l < _
    omega

/-- **Bytes are spelled by their number.** -/
theorem toLe_ofLe : ∀ l : List UInt8, toLe l.length (ofLe l) = l
  | [] => rfl
  | b :: l => by
    have hb := b.toNat_lt
    have hlow : UInt8.ofNat (b.toNat + 256 * ofLe l) = b := by
      rw [← UInt8.toNat_inj, UInt8.toNat_ofNat']
      omega
    have hrest : (b.toNat + 256 * ofLe l) / 256 = ofLe l := by omega
    show UInt8.ofNat (b.toNat + 256 * ofLe l) ::
      toLe l.length ((b.toNat + 256 * ofLe l) / 256) = b :: l
    rw [hlow, hrest, toLe_ofLe l]

/-- The number the bytes spell, the highest first. -/
def ofBe (l : List UInt8) : ℕ := ofLe l.reverse

theorem ofBe_toBe {k n : ℕ} (h : n < 256 ^ k) : ofBe (toBe k n) = n := by
  unfold ofBe toBe
  rw [List.reverse_reverse, ofLe_toLe h]

theorem ofBe_lt (l : List UInt8) : ofBe l < 256 ^ l.length := by
  have h := ofLe_lt l.reverse
  rwa [List.length_reverse] at h

theorem toBe_ofBe (l : List UInt8) : toBe l.length (ofBe l) = l := by
  have h := toLe_ofLe l.reverse
  rw [List.length_reverse] at h
  unfold toBe ofBe
  rw [h, List.reverse_reverse]

theorem ofLe_append : ∀ l m : List UInt8, ofLe (l ++ m) = ofLe l + 256 ^ l.length * ofLe m
  | [], m => by
    rw [List.nil_append, List.length_nil, Nat.pow_zero, Nat.one_mul]
    exact (Nat.zero_add _).symm
  | b :: l, m => by
    show b.toNat + 256 * ofLe (l ++ m) = b.toNat + 256 * ofLe l + 256 ^ (l.length + 1) * ofLe m
    rw [ofLe_append l m, Nat.mul_add, Nat.pow_succ, Nat.mul_comm (256 ^ l.length) 256, Nat.mul_assoc,
      Nat.add_assoc]

theorem ofBe_cons (b : UInt8) (l : List UInt8) :
    ofBe (b :: l) = 256 ^ l.length * b.toNat + ofBe l := by
  unfold ofBe
  rw [List.reverse_cons, ofLe_append, List.length_reverse, Nat.add_comm]
  rfl

/-! ### Hexadecimal digits -/

/-- The lower case digits of a byte. -/
def hexByte (b : UInt8) : List UInt8 :=
  [byte (Nat.digitChar (b.toNat / 16)), byte (Nat.digitChar (b.toNat % 16))]

/-- The lower case digits of a byte string. -/
def toHex (data : List UInt8) : List UInt8 := data.flatMap hexByte

/-! ### Packed bits -/

/-- Sets bit `i`, counted from the lowest bit of the first byte, if the bytes reach that far. -/
def setBit (bits : List UInt8) (i : ℕ) : List UInt8 :=
  bits.modify (i / 8) fun b => b ||| 1 <<< UInt8.ofNat (i % 8)

def getBit (bits : List UInt8) (i : ℕ) : Bool :=
  match bits[i / 8]? with
  | some b => (b >>> UInt8.ofNat (i % 8)) &&& 1 == 1
  | none => false

theorem length_setBit (bits : List UInt8) (i : ℕ) : (setBit bits i).length = bits.length :=
  List.length_modify _ _ _

/-- A bit of one byte. -/
theorem byteBit_eq_testBit (b : UInt8) {k : ℕ} (hk : k < 8) :
    ((b >>> UInt8.ofNat k) &&& 1 == 1) = b.toNat.testBit k := by
  have hshift : (UInt8.ofNat k).toNat = k := by
    rw [UInt8.toNat_ofNat']
    omega
  have hand : ((b >>> UInt8.ofNat k) &&& 1).toNat = b.toNat >>> k % 2 := by
    rw [UInt8.toNat_and, UInt8.toNat_shiftRight, hshift, Nat.mod_eq_of_lt hk]
    exact Nat.and_one_is_mod _
  rw [Nat.testBit, Nat.and_comm, Nat.and_one_is_mod, ← hand, Bool.eq_iff_iff, beq_iff_eq, bne_iff_ne]
  have hle : ((b >>> UInt8.ofNat k) &&& 1).toNat < 2 := by
    rw [hand]
    exact Nat.mod_lt _ (by decide)
  rw [← UInt8.toNat_inj]
  show _ = 1 ↔ _ ≠ 0
  omega

theorem toNat_one_shiftLeft {k : ℕ} (hk : k < 8) : (1 <<< UInt8.ofNat k : UInt8).toNat = 2 ^ k := by
  have hshift : (UInt8.ofNat k).toNat = k := by
    rw [UInt8.toNat_ofNat']
    omega
  rw [UInt8.toNat_shiftLeft, hshift, Nat.mod_eq_of_lt hk]
  show 1 <<< k % 2 ^ 8 = 2 ^ k
  rw [Nat.shiftLeft_eq, Nat.one_mul]
  exact Nat.mod_eq_of_lt (Nat.pow_lt_pow_right (by decide) hk)

theorem testBit_setByteBit (b : UInt8) (j : ℕ) {k : ℕ} (hk : k < 8) :
    (b ||| 1 <<< UInt8.ofNat k).toNat.testBit j = (b.toNat.testBit j || decide (j = k)) := by
  rw [UInt8.toNat_or, Nat.testBit_or, toNat_one_shiftLeft hk, Nat.testBit_two_pow]
  congr 1
  rw [decide_eq_decide]
  exact eq_comm

/-- **Setting a bit** sets that bit, if it is there, and no other. -/
theorem getBit_setBit (bits : List UInt8) (i j : ℕ) :
    getBit (setBit bits i) j = (getBit bits j || decide (j = i ∧ i / 8 < bits.length)) := by
  have hi := Nat.mod_lt i (by decide : 0 < 8)
  have hj := Nat.mod_lt j (by decide : 0 < 8)
  unfold getBit setBit
  rw [List.getElem?_modify]
  rcases hb : bits[j / 8]? with _ | b
  · have hlen := List.getElem?_eq_none_iff.mp hb
    have hnot : ¬ (j = i ∧ i / 8 < bits.length) := by
      rintro ⟨rfl, hlt⟩
      omega
    rw [decide_eq_false hnot]
    rfl
  · have hlen := (List.getElem?_eq_some_iff.mp hb).1
    split_ifs with hij
    · show ((b ||| 1 <<< UInt8.ofNat (i % 8)) >>> UInt8.ofNat (j % 8) &&& 1 == 1) =
        ((b >>> UInt8.ofNat (j % 8) &&& 1 == 1) || _)
      rw [byteBit_eq_testBit _ hj, byteBit_eq_testBit _ hj, testBit_setByteBit b _ hi]
      congr 1
      rw [decide_eq_decide]
      omega
    · have hnot : ¬ (j = i ∧ i / 8 < bits.length) := by
        rintro ⟨rfl, -⟩
        exact hij rfl
      rw [decide_eq_false hnot, Bool.or_false]
      rfl

/-! ### UTF-8 -/

/-- A byte within the given bounds. -/
def within (lo hi b : UInt8) : Bool := lo ≤ b && b ≤ hi

theorem within_iff {lo hi b : UInt8} : within lo hi b = true ↔ lo.toNat ≤ b.toNat ∧ b.toNat ≤ hi.toNat := by
  unfold within
  rw [Bool.and_eq_true, decide_eq_true_eq, decide_eq_true_eq]
  exact Iff.rfl

/-- The bounds of the continuation bytes that a first byte asks for. -/
def leadByte (a : UInt8) : Option (List (UInt8 × UInt8)) :=
  if a < 0x80 then some []
  else if within 0xC2 0xDF a then some [(0x80, 0xBF)]
  else if a = 0xE0 then some [(0xA0, 0xBF), (0x80, 0xBF)]
  else if a = 0xED then some [(0x80, 0x9F), (0x80, 0xBF)]
  else if within 0xE1 0xEF a then some [(0x80, 0xBF), (0x80, 0xBF)]
  else if a = 0xF0 then some [(0x90, 0xBF), (0x80, 0xBF), (0x80, 0xBF)]
  else if a = 0xF4 then some [(0x80, 0x8F), (0x80, 0xBF), (0x80, 0xBF)]
  else if within 0xF1 0xF3 a then some [(0x80, 0xBF), (0x80, 0xBF), (0x80, 0xBF)]
  else none

/-- One byte of a UTF-8 sequence; the state is what is still asked for. -/
def utf8Step : List (UInt8 × UInt8) → UInt8 → Option (List (UInt8 × UInt8))
  | [], a => leadByte a
  | r :: rs, b => if within r.1 r.2 b then some rs else none

/-- The bytes are a sequence of whole characters. -/
def validUtf8 (l : List UInt8) : Bool := l.foldlM utf8Step [] == some []

theorem validUtf8_of_ascii {l : List UInt8} (h : ∀ b ∈ l, b < 0x80) : validUtf8 l = true := by
  have hfold : ∀ {l : List UInt8}, (∀ b ∈ l, b < 0x80) → l.foldlM utf8Step [] = some [] := by
    intro l
    induction l with
    | nil => intro _; rfl
    | cons a l ih =>
      intro h
      have ha : utf8Step [] a = some [] := if_pos (h a (by simp))
      rw [List.foldlM_cons, ha]
      exact ih fun b hb => h b (by simp [hb])
  unfold validUtf8
  rw [hfold h]
  rfl

example : validUtf8 [0xE2, 0x82, 0xAC] = true := by decide

/-- The replacement character. -/
def replacement : List UInt8 := [0xEF, 0xBF, 0xBD]

/-- `seen` is the beginning of the sequence that is being read, `asked` what it still asks for. -/
def lossyFrom : List UInt8 → List (UInt8 × UInt8) → List UInt8 → List UInt8
  | seen, _, [] => if seen = [] then [] else replacement
  | seen, asked, b :: l =>
    match utf8Step asked b with
    | some [] => seen ++ b :: lossyFrom [] [] l
    | some rs => lossyFrom (seen ++ [b]) rs l
    | none =>
      if seen = [] then replacement ++ lossyFrom [] [] l
      else
        replacement ++
          match leadByte b with
          | some [] => b :: lossyFrom [] [] l
          | some rs => lossyFrom [b] rs l
          | none => replacement ++ lossyFrom [] [] l

/-- The text with the replacement character for every sequence that breaks off and every byte that starts
none. -/
def fromUtf8Lossy (l : List UInt8) : List UInt8 := lossyFrom [] [] l

example : fromUtf8Lossy [0x61, 0xE2, 0x82, 0x62, 0xFF] = [0x61] ++ replacement ++ [0x62] ++ replacement := by
  decide

/-! ### White space -/

/-- The UTF-8 sequences of the white space characters. -/
def whitespace : List (List UInt8) :=
  [[0x09], [0x0A], [0x0B], [0x0C], [0x0D], [0x20], [0xC2, 0x85], [0xC2, 0xA0], [0xE1, 0x9A, 0x80]] ++
    (List.range 11).map (fun k => [0xE2, 0x80, 0x80 + UInt8.ofNat k]) ++
    [[0xE2, 0x80, 0xA8], [0xE2, 0x80, 0xA9], [0xE2, 0x80, 0xAF], [0xE2, 0x81, 0x9F], [0xE3, 0x80, 0x80]]

/-- Strips sequences of the list from the front, at most as many as the first argument says. -/
def stripStart (codes : List (List UInt8)) : ℕ → List UInt8 → List UInt8
  | 0, s => s
  | n + 1, s =>
    match codes.find? (fun code => code.isPrefixOf s) with
    | some code => stripStart codes n (s.drop code.length)
    | none => s

def trimStart (s : List UInt8) : List UInt8 := stripStart whitespace s.length s

def trimEnd (s : List UInt8) : List UInt8 :=
  (stripStart (whitespace.map List.reverse) s.length s.reverse).reverse

/-- The text without the white space at its ends. -/
def trim (s : List UInt8) : List UInt8 := trimEnd (trimStart s)

theorem stripStart_eq_self {codes : List (List UInt8)} {s : List UInt8}
    (h : ∀ code ∈ codes, ¬ code <+: s) : ∀ n, stripStart codes n s = s
  | 0 => rfl
  | n + 1 => by
    have hnone : codes.find? (fun code => code.isPrefixOf s) = none :=
      List.find?_eq_none.mpr fun code hcode hprefix => h code hcode (List.isPrefixOf_iff_prefix.mp hprefix)
    rw [stripStart, hnone]

/-- **A text without white space at its ends** is left as it is. -/
theorem trim_eq_self {s : List UInt8} (hstart : ∀ code ∈ whitespace, ¬ code <+: s)
    (hend : ∀ code ∈ whitespace, ¬ code <:+ s) : trim s = s := by
  have hreverse : ∀ code ∈ whitespace.map List.reverse, ¬ code <+: s.reverse := by
    intro code hcode hprefix
    obtain ⟨c, hc, rfl⟩ := List.mem_map.mp hcode
    exact hend c hc (List.reverse_prefix.mp hprefix)
  unfold trim trimEnd trimStart
  rw [stripStart_eq_self hstart, stripStart_eq_self hreverse, List.reverse_reverse]

theorem stripStart_suffix (codes : List (List UInt8)) : ∀ n s, stripStart codes n s <:+ s
  | 0, s => List.suffix_refl s
  | n + 1, s => by
    unfold stripStart
    split
    · exact (stripStart_suffix codes n _).trans (List.drop_suffix _ s)
    · exact List.suffix_refl s

theorem mem_of_mem_trim {s : List UInt8} {b : UInt8} (h : b ∈ trim s) : b ∈ s := by
  unfold trim trimEnd at h
  have hstart : b ∈ trimStart s :=
    List.mem_reverse.mp ((stripStart_suffix _ _ _).subset (List.mem_reverse.mp h))
  exact (stripStart_suffix _ _ s).subset hstart

example : trim (text " \ta b\n" ++ [0xE2, 0x80, 0x83]) = text "a b" := by decide

end CncContent.Lib.Bytes
