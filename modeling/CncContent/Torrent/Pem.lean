import CncContent.Lib.Chunks
import CncContent.Lib.Substrings
import CncContent.Torrent.Base64

/-! # PEM-armoured torrents

`encode` and `decode` of the source: the bytes of a torrent in Base64, on lines of 76 characters between
two markers. What is encoded is found and decoded within other text (`decode_within_text`). The decoder does
not return what the body spells in Base64 exactly if the body is one that it reads although it is not
canonical (`decode_exact_iff`). -/

namespace CncContent.Torrent.Pem

open CncContent.Lib.Bytes CncContent.Lib.Checks CncContent.Lib.Chunks
open CncContent.Lib.Sextets CncContent.Lib.Substrings CncContent.Torrent.Base64

def beginMarker : List UInt8 := text "-----BEGIN TORRENT-----"

def endMarker : List UInt8 := text "-----END TORRENT-----"

def lineWidth : ℕ := 76

def newline : UInt8 := byte '\n'

/-- `encode` of the source. -/
def encode (torrentData : List UInt8) : List UInt8 :=
  let b64 := base64Encode torrentData
  beginMarker ++ [newline] ++ (chunks lineWidth b64).flatMap (fun line => line ++ [newline]) ++
    endMarker ++ [newline]

/-- What stands between the markers. -/
def markedBody (pem : List UInt8) : Except PemError (List UInt8) := do
  let headerStart ← okOr (findSub beginMarker pem) .missingHeader
  let afterHeader := pem.drop (headerStart + beginMarker.length)
  let footerOffset ← okOr (findSub endMarker afterHeader) .missingFooter
  return afterHeader.take footerOffset

/-- `is_ascii_whitespace`. -/
def isAsciiWhitespace (b : UInt8) : Bool := b = 0x20 || b = 0x09 || b = 0x0A || b = 0x0C || b = 0x0D

def stripWhitespace (body : List UInt8) : List UInt8 := body.filter fun b => !isAsciiWhitespace b

/-- `decode` of the source. -/
def decode (pem : List UInt8) : Except PemError (List UInt8) := do
  let body ← markedBody pem
  base64Decode (stripWhitespace body)

/-! ### Lines -/

/-- The characters that the encoder writes. -/
theorem mem_base64Encode : ∀ {data : List UInt8} {ch : UInt8}, ch ∈ base64Encode data →
    (b64Value ch).isSome ∨ ch = pad
  | a :: b :: c :: data, ch, h => by
    obtain ⟨p, q, r, t, henc, hp, hq, hr, ht⟩ := encode_three a b c data
    rw [henc] at h
    simp only [List.mem_cons] at h
    rcases h with rfl | rfl | rfl | rfl | h
    · exact Or.inl (Option.isSome_of_eq_some hp)
    · exact Or.inl (Option.isSome_of_eq_some hq)
    · exact Or.inl (Option.isSome_of_eq_some hr)
    · exact Or.inl (Option.isSome_of_eq_some ht)
    · exact mem_base64Encode h
  | [a, b], ch, h => by
    obtain ⟨p, q, r, henc, hp, hq, hr⟩ := encode_two a b
    rw [henc] at h
    simp only [List.mem_cons, List.not_mem_nil, or_false] at h
    rcases h with rfl | rfl | rfl | h
    · exact Or.inl (Option.isSome_of_eq_some hp)
    · exact Or.inl (Option.isSome_of_eq_some hq)
    · exact Or.inl (Option.isSome_of_eq_some hr)
    · exact Or.inr h
  | [a], ch, h => by
    obtain ⟨p, q, henc, hp, hq⟩ := encode_one a
    rw [henc] at h
    simp only [List.mem_cons, List.not_mem_nil, or_false] at h
    rcases h with rfl | rfl | h | h
    · exact Or.inl (Option.isSome_of_eq_some hp)
    · exact Or.inl (Option.isSome_of_eq_some hq)
    · exact Or.inr h
    · exact Or.inr h
  | [], _, h => absurd h List.not_mem_nil

theorem clean_of_mem {data : List UInt8} {ch : UInt8} (h : ch ∈ base64Encode data) :
    isAsciiWhitespace ch = false ∧ ch ≠ byte '-' ∧ ch ≠ newline := by
  have hall : ∀ n < 256, (b64Value (UInt8.ofNat n)).isSome ∨ UInt8.ofNat n = pad →
      isAsciiWhitespace (UInt8.ofNat n) = false ∧ UInt8.ofNat n ≠ byte '-' ∧
        UInt8.ofNat n ≠ newline := by
    decide +kernel
  exact forall_byte (P := fun ch => (b64Value ch).isSome ∨ ch = pad →
    isAsciiWhitespace ch = false ∧ ch ≠ byte '-' ∧ ch ≠ newline) hall ch (mem_base64Encode h)

/-- Every line ends in a newline. -/
def closeLines (lines : List (List UInt8)) : List UInt8 := lines.flatMap fun line => line ++ [newline]

theorem closeLines_cons (line : List UInt8) (lines : List (List UInt8)) :
    closeLines (line :: lines) = line ++ newline :: closeLines lines := by
  show line ++ [newline] ++ closeLines lines = _
  rw [List.append_assoc]
  rfl

theorem stripWhitespace_closeLines : ∀ {lines : List (List UInt8)},
    (∀ ch ∈ lines.flatten, isAsciiWhitespace ch = false) →
    stripWhitespace (closeLines lines) = lines.flatten
  | [], _ => rfl
  | line :: lines, h => by
    have hline : stripWhitespace line = line :=
      List.filter_eq_self.mpr fun ch hch => by
        rw [h ch (List.mem_append_left _ hch)]
        rfl
    have ih := stripWhitespace_closeLines fun ch hch => h ch (List.mem_append_right _ hch)
    have hnewline : stripWhitespace (newline :: closeLines lines) =
        stripWhitespace (closeLines lines) := rfl
    rw [closeLines_cons, List.flatten_cons, ← ih, ← hnewline]
    show List.filter _ (line ++ _) = line ++ List.filter _ _
    rw [List.filter_append]
    exact congrArg (· ++ _) hline

theorem splitOn_closeLines : ∀ {lines : List (List UInt8)} (rest : List UInt8),
    (∀ ch ∈ lines.flatten, ch ≠ newline) →
    (closeLines lines ++ rest).splitOn newline = lines ++ rest.splitOn newline
  | [], _, _ => rfl
  | line :: lines, rest, h => by
    have hline : newline ∉ line := fun hmem => h newline (List.mem_append_left _ hmem) rfl
    have ih := splitOn_closeLines rest fun ch hch => h ch (List.mem_append_right _ hch)
    rw [closeLines_cons, List.append_assoc, List.cons_append,
      List.splitOn_append_cons_self_of_not_mem hline, ih]
    rfl

theorem not_mem_closeLines {lines : List (List UInt8)} {ch : UInt8} (hne : ch ≠ newline)
    (h : ch ∉ lines.flatten) : ch ∉ closeLines lines := by
  intro hmem
  obtain ⟨line, hline, hmem⟩ := List.mem_flatMap.mp hmem
  rcases List.mem_append.mp hmem with hmem | hmem
  · exact h (List.mem_flatten.mpr ⟨line, hline, hmem⟩)
  · exact hne (List.mem_singleton.mp hmem)

section Encode

variable (data : List UInt8)

/-- The lines of the encoded data. -/
def dataLines : List (List UInt8) := chunks lineWidth (base64Encode data)

theorem flatten_dataLines : (dataLines data).flatten = base64Encode data :=
  flatten_chunks (by decide) _

theorem encode_eq : encode data =
    beginMarker ++ newline :: (closeLines (dataLines data) ++ (endMarker ++ [newline])) := by
  show beginMarker ++ [newline] ++ closeLines (dataLines data) ++ endMarker ++ [newline] = _
  simp only [List.append_assoc, List.singleton_append]
  rfl

theorem encode_lines : (encode data).splitOn newline =
    beginMarker :: (dataLines data ++ [endMarker, []]) := by
  have hclean : ∀ ch ∈ (dataLines data).flatten, ch ≠ newline := fun ch hch =>
    (clean_of_mem (flatten_dataLines data ▸ hch)).2.2
  have hbegin : newline ∉ beginMarker := by decide
  have hend : newline ∉ endMarker := by decide
  rw [encode_eq, List.splitOn_append_cons_self_of_not_mem hbegin, splitOn_closeLines _ hclean,
    List.splitOn_append_cons_self_of_not_mem hend]
  rfl

end Encode

/-! ### Decoding -/

/-- The first begin marker is the one behind `before`. -/
theorem findSub_beginMarker {before rest : List UInt8}
    (hline : before = [] ∨ before.getLast? = some newline) (hbegin : ¬ beginMarker <:+: before) :
    findSub beginMarker (before ++ (beginMarker ++ rest)) = some before.length := by
  rcases hline with rfl | hlast
  · exact findSub_of_starts (List.prefix_append _ _)
  · obtain ⟨q, rfl⟩ := List.getLast?_eq_some_iff.mp hlast
    exact findSub_of_last (by decide) hbegin

/-- **What is encoded is decoded**, whatever stands before it on lines of their own without a begin
marker and whatever stands behind it; and its lines are short. -/
theorem decode_within_text (data before after : List UInt8)
    (hline : before = [] ∨ before.getLast? = some newline) (hbegin : ¬ beginMarker <:+: before) :
    decode (before ++ encode data ++ after) = .ok data ∧
      ∀ line ∈ (encode data).splitOn newline, line.length ≤ lineWidth := by
  constructor
  · have hpem : before ++ encode data ++ after = before ++ (beginMarker ++
        (newline :: closeLines (dataLines data) ++ (endMarker ++ (newline :: after)))) := by
      rw [encode_eq]
      simp only [List.append_assoc, List.cons_append, List.nil_append]
    have hdash : byte '-' ∉ newline :: closeLines (dataLines data) := by
      rw [List.mem_cons, not_or]
      refine ⟨by decide, not_mem_closeLines (by decide) fun hmem => ?_⟩
      exact (clean_of_mem (flatten_dataLines data ▸ hmem)).2.1 rfl
    have hbody : markedBody (before ++ encode data ++ after) =
        .ok (newline :: closeLines (dataLines data)) := by
      unfold markedBody
      rw [hpem, findSub_beginMarker hline hbegin]
      show (okOr (findSub endMarker (List.drop _ _)) _ >>= _) = _
      rw [← List.length_append, ← List.append_assoc, List.drop_left]
      have hfoot := findSub_of_head (n := endMarker.tail) (s := newline :: after) hdash
      rw [show endMarker = byte '-' :: endMarker.tail from rfl, hfoot]
      show Except.ok (List.take _ _) = _
      rw [List.take_left]
    have hstrip : stripWhitespace (newline :: closeLines (dataLines data)) = base64Encode data := by
      have hnewline : stripWhitespace (newline :: closeLines (dataLines data)) =
          stripWhitespace (closeLines (dataLines data)) := rfl
      rw [hnewline, stripWhitespace_closeLines, flatten_dataLines]
      exact fun ch hch => (clean_of_mem (flatten_dataLines data ▸ hch)).1
    unfold decode
    rw [hbody]
    show base64Decode (stripWhitespace (newline :: closeLines (dataLines data))) = _
    rw [hstrip]
    exact decodeFrom_encode data 0
  · intro line hmem
    rw [encode_lines] at hmem
    have hmarkers : ∀ marker ∈ [beginMarker, endMarker, []], marker.length ≤ lineWidth := by decide
    rcases List.mem_cons.mp hmem with rfl | hmem
    · exact hmarkers _ (by simp)
    · rcases List.mem_append.mp hmem with hmem | hmem
      · exact length_of_mem_chunks hmem
      · exact hmarkers line (List.mem_cons_of_mem _ hmem)

/-- A torrent in a message. -/
theorem decode_within_text_message :
    decode (text "Here is a torrent:\n" ++ encode (text "data") ++ text "\n-----BEGIN") =
        .ok (text "data") ∧
      ∀ line ∈ (encode (text "data")).splitOn newline, line.length ≤ lineWidth :=
  decode_within_text (text "data") (text "Here is a torrent:\n") (text "\n-----BEGIN")
    (Or.inr (by decide)) (by decide)

/-- **The body spells the result**, exactly if it is canonical or not read at all. -/
theorem decode_exact_iff (pem : List UInt8) :
    (∀ body data, markedBody pem = .ok body → decode pem = .ok data →
      stripWhitespace body = base64Encode data) ↔
    ∀ body, markedBody pem = .ok body → Decodable (stripWhitespace body) →
      Canonical (stripWhitespace body) := by
  have hdecode : ∀ {body}, markedBody pem = .ok body →
      decode pem = decodeFrom 0 (stripWhitespace body) := by
    intro body hbody
    unfold decode
    rw [hbody]
    rfl
  constructor
  · intro h body hbody hdec
    obtain ⟨data, hdata⟩ := exists_decodeFrom.mpr hdec
    have hspell := h body data hbody ((hdecode hbody).trans hdata)
    exact (encode_decodeFrom_iff hdata).mp hspell.symm
  · intro h body data hbody hdata
    rw [hdecode hbody] at hdata
    have hcanon := h body hbody (exists_decodeFrom.mp ⟨data, hdata⟩)
    exact ((encode_decodeFrom_iff hdata).mpr hcanon).symm

/-- A block that has lost its padding. -/
theorem truncated_block_decoded :
    let pem := text "-----BEGIN TORRENT-----\nTQ\n-----END TORRENT-----\n"
    decode pem = .ok (text "M") ∧ ¬ ∀ body data, markedBody pem = .ok body → decode pem = .ok data →
      stripWhitespace body = base64Encode data := by
  intro pem
  have hdecode : decode pem = .ok (text "M") := by decide +kernel
  have hbody : markedBody pem = .ok (text "\nTQ\n") := by decide +kernel
  refine ⟨hdecode, fun h => ?_⟩
  exact absurd (h _ _ hbody hdecode) (by decide +kernel)

end CncContent.Torrent.Pem
