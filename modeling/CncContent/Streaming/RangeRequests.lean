import CncContent.Streaming.GatewaySpec

/-! # Range requests

What the range parser of the gateway accepts (`parse_ok`), and when a parsed range resolves to the bytes
that it asks for (`resolves_iff`): a suffix range is not checked against the content, as the two other
forms are. -/

namespace CncContent.Streaming.RangeRequests

open CncContent.Lib.Bounded CncContent.Lib.Bytes CncContent.Lib.Decimal CncContent.Streaming.Gateway

/-! ### The grammar -/

/-- The digits of a 64-bit number. -/
structure Spells (ds : List UInt8) (n : ℕ) : Prop where
  numeral : isNumeral ds = true
  value : value ds = n
  le : n ≤ u64Max

/-- The texts of a single byte range, with the numbers written there. -/
inductive ByteRangeText : List UInt8 → RangeRequest → Prop
  | bounded {ds es : List UInt8} {start stop : ℕ} (hstart : Spells ds start) (hstop : Spells es stop)
      (hle : start ≤ stop) : ByteRangeText (ds ++ byte '-' :: es) (.bounded start stop)
  | openEnded {ds : List UInt8} {start : ℕ} (hstart : Spells ds start) :
      ByteRangeText (ds ++ [byte '-']) (.openEnded start)
  | suffix {ds : List UInt8} {length : ℕ} (hlength : Spells ds length) :
      ByteRangeText (byte '-' :: ds) (.suffix length)

/-- A header with a byte range behind the unit, between white space. -/
def HeaderText (header : List UInt8) (request : RangeRequest) : Prop :=
  ∃ rest, header = text "bytes=" ++ rest ∧ ByteRangeText (trim rest) request

theorem Spells.ne_nil {ds : List UInt8} {n : ℕ} (h : Spells ds n) : ds ≠ [] :=
  (isNumeral_iff.mp h.numeral).1

theorem Spells.isDigit {ds : List UInt8} {n : ℕ} (h : Spells ds n) : ∀ b ∈ ds, isDigit b = true :=
  (isNumeral_iff.mp h.numeral).2

theorem Spells.not_mem {ds : List UInt8} {n : ℕ} (h : Spells ds n) {b : UInt8}
    (hb : Lib.Decimal.isDigit b = false) : b ∉ ds := fun hmem => by
  rw [h.isDigit b hmem] at hb
  cases hb

theorem Spells.parseNat {ds : List UInt8} {n : ℕ} (h : Spells ds n) : parseNat u64Max ds = some n := by
  rw [parseNat_eq_some_iff, stripPlus_of_isNumeral h.numeral]
  exact ⟨h.numeral, h.value, h.le⟩

/-- Without a plus sign the number parser reads digits. -/
theorem spells_of_parseNat {s : List UInt8} {n : ℕ} (h : parseNat u64Max s = some n)
    (hplus : byte '+' ∉ s) : Spells s n := by
  have hstrip : stripPlus s = s := by
    cases s with
    | nil => rfl
    | cons b ds => exact if_neg fun hb => hplus (List.mem_cons.mpr (Or.inl hb.symm))
  obtain ⟨hnum, hval, hle⟩ := parseNat_eq_some_iff.mp h
  rw [hstrip] at hnum hval
  exact ⟨hnum, hval, hle⟩

/-- A byte range consists of digits and a dash. -/
theorem ByteRangeText.mem {s : List UInt8} {request : RangeRequest} (h : ByteRangeText s request)
    {b : UInt8} (hb : b ∈ s) : isDigit b = true ∨ b = byte '-' := by
  cases h with
  | bounded hstart hstop _ =>
    rcases List.mem_append.mp hb with hb | hb
    · exact Or.inl (hstart.isDigit b hb)
    · rcases List.mem_cons.mp hb with rfl | hb
      · exact Or.inr rfl
      · exact Or.inl (hstop.isDigit b hb)
  | openEnded hstart =>
    rcases List.mem_append.mp hb with hb | hb
    · exact Or.inl (hstart.isDigit b hb)
    · exact Or.inr (List.mem_singleton.mp hb)
  | suffix hlength =>
    rcases List.mem_cons.mp hb with rfl | hb
    · exact Or.inr rfl
    · exact Or.inl (hlength.isDigit b hb)

/-! ### What the parser accepts -/

/-- What is behind the unit, left and right of the first dash. -/
def parseSides (left right : List UInt8) : Except RangeError RangeRequest :=
  if left = [] then
    match parseNat u64Max right with
    | none => .error (.invalidSyntax (quoted "invalid suffix length: " right))
    | some length => .ok (.suffix length)
  else
    match parseNat u64Max left with
    | none => .error (.invalidSyntax (quoted "invalid start: " left))
    | some start =>
      if right = [] then .ok (.openEnded start)
      else
        match parseNat u64Max right with
        | none => .error (.invalidSyntax (quoted "invalid end: " right))
        | some stop =>
          if stop < start then .error (.startGreaterThanEnd start stop) else .ok (.bounded start stop)

theorem parseRest_append {l r : List UInt8} (hl : byte '-' ∉ l) (hcomma : byte ',' ∉ l ++ byte '-' :: r) :
    RangeRequest.parseRest (l ++ byte '-' :: r) = parseSides l r := by
  have hpos : ∀ b ∈ l, decide (b ≠ byte '-') = true := fun b hb =>
    decide_eq_true fun he => hl (he ▸ hb)
  have hleft : (l ++ byte '-' :: r).takeWhile (· ≠ byte '-') = l := by
    refine takeWhile_append_stop hpos fun b hb => ?_
    cases hb
    exact decide_eq_false (not_not.mpr rfl)
  have hright : ((l ++ byte '-' :: r).dropWhile (· ≠ byte '-')).tail = r := by
    rw [List.dropWhile_append_of_pos hpos, List.dropWhile_cons_of_neg (by decide), List.tail_cons]
  have hdash : byte '-' ∈ l ++ byte '-' :: r := List.mem_append_right _ List.mem_cons_self
  unfold RangeRequest.parseRest
  rw [if_neg hcomma, if_neg (not_not.mpr hdash)]
  dsimp only
  rw [hleft, hright]
  rfl

theorem parseRest_of_text {s : List UInt8} {request : RangeRequest} (h : ByteRangeText s request) :
    RangeRequest.parseRest s = .ok request := by
  have hcomma : byte ',' ∉ s := fun hmem => by
    rcases h.mem hmem with hd | hd <;> exact absurd hd (by decide)
  cases h with
  | bounded hstart hstop hle =>
    rw [parseRest_append (hstart.not_mem (by decide)) hcomma, parseSides, if_neg hstart.ne_nil,
      hstart.parseNat]
    dsimp only
    rw [if_neg hstop.ne_nil, hstop.parseNat]
    exact if_neg (Nat.not_lt.mpr hle)
  | openEnded hstart =>
    rw [parseRest_append (hstart.not_mem (by decide)) hcomma, parseSides, if_neg hstart.ne_nil,
      hstart.parseNat]
    rfl
  | @suffix ds length hlength =>
    have hrest : RangeRequest.parseRest (byte '-' :: ds) = parseSides [] ds :=
      parseRest_append List.not_mem_nil hcomma
    rw [hrest, parseSides, if_pos rfl, hlength.parseNat]

/-- Without a plus sign the two sides of a range that is accepted are numbers, or one of them is missing. -/
theorem text_of_parseSides {left right : List UInt8} {request : RangeRequest}
    (h : parseSides left right = .ok request) (hleft : byte '+' ∉ left) (hright : byte '+' ∉ right) :
    ByteRangeText (left ++ byte '-' :: right) request := by
  unfold parseSides at h
  by_cases hnil : left = []
  · subst hnil
    rw [if_pos rfl] at h
    cases hlength : parseNat u64Max right with
    | none => rw [hlength] at h; cases h
    | some length =>
      rw [hlength] at h
      cases h
      exact .suffix (spells_of_parseNat hlength hright)
  · rw [if_neg hnil] at h
    cases hstart : parseNat u64Max left with
    | none => rw [hstart] at h; cases h
    | some start =>
      rw [hstart] at h
      dsimp only at h
      by_cases hopen : right = []
      · subst hopen
        cases h
        exact .openEnded (spells_of_parseNat hstart hleft)
      · rw [if_neg hopen] at h
        cases hstop : parseNat u64Max right with
        | none => rw [hstop] at h; cases h
        | some stop =>
          rw [hstop] at h
          dsimp only at h
          split_ifs at h with hlt
          cases h
          exact .bounded (spells_of_parseNat hstart hleft) (spells_of_parseNat hstop hright)
            (Nat.not_lt.mp hlt)

theorem text_of_parseRest {s : List UInt8} {request : RangeRequest}
    (h : RangeRequest.parseRest s = .ok request) (hplus : byte '+' ∉ s) :
    ByteRangeText s request := by
  have hcomma : byte ',' ∉ s := fun hmem => by
    rw [RangeRequest.parseRest, if_pos hmem] at h
    cases h
  have hdash : byte '-' ∈ s := by
    by_contra hnot
    rw [RangeRequest.parseRest, if_neg hcomma, if_pos hnot] at h
    cases h
  obtain ⟨left, right, rfl, hnot⟩ := List.eq_append_cons_of_mem hdash
  rw [parseRest_append hnot hcomma] at h
  refine text_of_parseSides h (fun hmem => hplus ?_) fun hmem => hplus ?_
  · exact List.mem_append_left _ hmem
  · exact List.mem_append_right _ (List.mem_cons_of_mem _ hmem)

/-- **What the parser accepts.** A header with a byte range between white space is parsed to the range,
and without a plus sign nothing else is. -/
theorem parse_ok (header : List UInt8) (request : RangeRequest) :
    (HeaderText header request → RangeRequest.parse header = .ok request) ∧
      (RangeRequest.parse header = .ok request → byte '+' ∉ header → HeaderText header request) := by
  constructor
  · rintro ⟨rest, rfl, hrest⟩
    rw [RangeRequest.parse, if_pos (List.prefix_append _ _), List.drop_left]
    exact parseRest_of_text hrest
  · intro h hplus
    unfold RangeRequest.parse at h
    split_ifs at h with hunit
    obtain ⟨rest, rfl⟩ := hunit
    rw [List.drop_left] at h
    refine ⟨rest, rfl, text_of_parseRest h fun hmem => hplus ?_⟩
    exact List.mem_append_right _ (mem_of_mem_trim hmem)

/-- A range between two spaces. -/
theorem parse_ok_spaces : HeaderText (text "bytes= 100-200 ") (.bounded 100 200) :=
  (parse_ok _ _).2 (by decide +kernel) (by decide)

/-- White space behind the unit is accepted, which is not in the grammar of a byte range. -/
theorem spaces_accepted :
    RangeRequest.parse (text "bytes= 100-200 ") = .ok (.bounded 100 200) ∧
      ¬ ∃ rest request, text "bytes= 100-200 " = text "bytes=" ++ rest ∧
        ByteRangeText rest request := by
  refine ⟨by decide +kernel, ?_⟩
  rintro ⟨rest, request, hrest, hrange⟩
  have hspace : byte ' ' ∈ rest := by
    rw [List.append_cancel_left (hrest : text "bytes=" ++ text " 100-200 " = text "bytes=" ++ rest).symm]
    decide
  rcases hrange.mem hspace with hd | hd <;> exact absurd hd (by decide)

/-! ### What a range resolves to -/

/-- The bytes of a range. -/
def Assigned (contentLength : ℕ) : RangeRequest → ℕ → Prop
  | .bounded start stop, i => start ≤ i ∧ i ≤ stop ∧ i < contentLength
  | .openEnded start, i => start ≤ i ∧ i < contentLength
  | .suffix length, i => contentLength ≤ i + length ∧ i < contentLength

/-- The slice has the bytes of the range, of which there is one at least. -/
structure Exact (contentLength : ℕ) (request : RangeRequest) (slice : ContentSlice) : Prop where
  nonempty : slice.start < slice.endExclusive
  le_length : slice.endExclusive ≤ contentLength
  bytes : ∀ i, slice.start ≤ i ∧ i < slice.endExclusive ↔ Assigned contentLength request i

/-- The metadata name the first and the last byte of a part of the content. -/
def Announces (contentLength : ℕ) (metadata : ResponseMeta) : Prop :=
  ∃ first last, metadata.contentRange = some (contentRangeText first last contentLength) ∧
    first ≤ last ∧ last < contentLength ∧ metadata.contentLength = last - first + 1

/-- A range resolves as it should. -/
structure Resolves (contentLength : ℕ) (request : RangeRequest) : Prop where
  exact : ∀ slice, request.resolve contentLength = .ok slice → Exact contentLength request slice
  unsatisfiable : (∀ i, ¬ Assigned contentLength request i) →
    ∃ e, request.resolve contentLength = .error e
  metadata : ∀ slice, request.resolve contentLength = .ok slice →
    Announces contentLength (.partialContent slice)

theorem announces_partialContent {contentLength : ℕ} {request : RangeRequest} {slice : ContentSlice}
    (h : Exact contentLength request slice) (hlength : slice.contentLength = contentLength) :
    Announces contentLength (.partialContent slice) := by
  have hlt := h.nonempty
  have hle := h.le_length
  refine ⟨slice.start, slice.endExclusive - 1, ?_, by omega, by omega, ?_⟩
  · rw [← hlength]
    rfl
  · show slice.endExclusive - slice.start = _
    omega

/-- A range that resolves to its bytes, if there are any. -/
theorem resolves_of_exact {contentLength : ℕ} {request : RangeRequest}
    (h : ∀ slice, request.resolve contentLength = .ok slice →
      Exact contentLength request slice ∧ slice.contentLength = contentLength) :
    Resolves contentLength request where
  exact slice hslice := (h slice hslice).1
  unsatisfiable hnone := by
    cases hresolve : request.resolve contentLength with
    | error e => exact ⟨e, rfl⟩
    | ok slice =>
      have hexact := (h slice hresolve).1
      exact absurd ((hexact.bytes slice.start).mp ⟨le_rfl, hexact.nonempty⟩) (hnone _)
  metadata slice hslice := announces_partialContent (h slice hslice).1 (h slice hslice).2

theorem resolves_bounded {start stop contentLength : ℕ} (hle : start ≤ stop)
    (hlength : contentLength ≤ u64Max) : Resolves contentLength (.bounded start stop) := by
  refine resolves_of_exact fun slice hslice => ?_
  unfold RangeRequest.resolve at hslice
  dsimp only at hslice
  split_ifs at hslice with hbeyond
  cases hslice
  unfold satAdd
  refine ⟨⟨?_, ?_, fun i => ?_⟩, rfl⟩
  · dsimp only
    omega
  · exact Nat.min_le_right _ _
  · simp only [Assigned]
    omega

theorem resolves_openEnded (start contentLength : ℕ) : Resolves contentLength (.openEnded start) := by
  refine resolves_of_exact fun slice hslice => ?_
  unfold RangeRequest.resolve at hslice
  dsimp only at hslice
  split_ifs at hslice with hbeyond
  cases hslice
  exact ⟨⟨Nat.not_le.mp hbeyond, le_rfl, fun i => Iff.rfl⟩, rfl⟩

/-- A suffix always resolves; the slice of one without bytes is empty. -/
theorem resolves_suffix_iff (length contentLength : ℕ) :
    Resolves contentLength (.suffix length) ↔ length ≠ 0 ∧ contentLength ≠ 0 := by
  constructor
  · intro h
    have hlt : contentLength - length < contentLength := (h.exact _ rfl).nonempty
    omega
  · intro hne
    refine resolves_of_exact fun slice hslice => ?_
    cases hslice
    refine ⟨⟨?_, le_rfl, fun i => ?_⟩, rfl⟩
    · dsimp only
      omega
    · simp only [Assigned]
      omega

/-- **The ranges that resolve to their bytes** are all but the suffixes of no bytes and the suffixes of an
empty content. -/
theorem resolves_iff {header : List UInt8} {request : RangeRequest} {contentLength : ℕ}
    (hparse : RangeRequest.parse header = .ok request) (hlength : contentLength ≤ u64Max) :
    Resolves contentLength request ↔
      ¬ ∃ length, request = .suffix length ∧ (length = 0 ∨ contentLength = 0) := by
  cases request with
  | bounded start stop =>
    exact iff_of_true (resolves_bounded (GatewaySpec.le_of_parse hparse) hlength) nofun
  | openEnded start => exact iff_of_true (resolves_openEnded start contentLength) nofun
  | suffix length =>
    rw [resolves_suffix_iff]
    constructor
    · rintro ⟨hlen, hcontent⟩ ⟨_, he, hzero⟩
      cases he
      exact hzero.elim hlen hcontent
    · exact fun hnot => ⟨fun hzero => hnot ⟨length, rfl, Or.inl hzero⟩,
        fun hzero => hnot ⟨length, rfl, Or.inr hzero⟩⟩

/-- A suffix of a content that is not empty. -/
theorem resolves_iff_suffix : Resolves 10 (.suffix 3) ↔
    ¬ ∃ length, RangeRequest.suffix 3 = .suffix length ∧ (length = 0 ∨ 10 = 0) :=
  resolves_iff (show RangeRequest.parse (text "bytes=-3") = .ok (.suffix 3) by decide +kernel)
    (by decide)

/-- A suffix of an empty content resolves to no bytes and announces one. -/
theorem suffix_of_empty :
    RangeRequest.parse (text "bytes=-5") = .ok (.suffix 5) ∧
      RangeRequest.resolve 0 (.suffix 5) = .ok ⟨0, 0, 0⟩ ∧
      ResponseMeta.partialContent ⟨0, 0, 0⟩ = ⟨206, 0, some (text "bytes 0-0/0")⟩ ∧
      ¬ Resolves 0 (.suffix 5) := by
  refine ⟨by decide +kernel, rfl, by decide +kernel, fun h => ?_⟩
  exact absurd (h.exact ⟨0, 0, 0⟩ rfl).nonempty (Nat.lt_irrefl 0)

end CncContent.Streaming.RangeRequests
