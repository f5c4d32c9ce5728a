import CncContent.Lib.Bytes

/-! # The VDF parser

`parse` of the source with its tokenizer and its recursive parser of pairs. The tokenizer looks at bytes, the
unescaping at characters. When a pair fails, the loop of its section ends where the failure has left the
tokens, and the loops of the sections around it go on from there. -/

namespace CncContent.Vdf.Parser

open CncContent.Lib.Bytes

/-- The entries of a section are sorted by their keys: two sections are the same map exactly if they are equal. -/
inductive VdfValue
  | string (s : List UInt8)
  | nested (entries : List (List UInt8 × VdfValue))

abbrev VdfMap := List (List UInt8 × VdfValue)

/-- 2 MB. -/
def maxVdfInputSize : ℕ := 2 * 1024 * 1024

def maxVdfDepth : ℕ := 64

/-- `insert`: the value of the key, in place of the one that it has. -/
def insertEntry (key : List UInt8) (value : VdfValue) : VdfMap → VdfMap
  | [] => [(key, value)]
  | e :: m =>
    if key = e.1 then (key, value) :: m
    else if keyOf key < keyOf e.1 then (key, value) :: e :: m
    else e :: insertEntry key value m

inductive Token
  | quoted (s : List UInt8)
  | openBrace
  | closeBrace
deriving DecidableEq, Repr

/-! ### The tokenizer -/

def isContinuation (b : UInt8) : Bool := within 0x80 0xBF b

/-- A byte in front of the characters. -/
def consByte (b : UInt8) : List (List UInt8) → List (List UInt8)
  | [] => [[b]]
  | c :: cs => if c.head?.any isContinuation then (b :: c) :: cs else [b] :: c :: cs

/-- `chars`: a character is a byte with the continuation bytes behind it. -/
def chars (s : List UInt8) : List (List UInt8) := s.foldr consByte []

/-- The character behind a backslash stands for itself. -/
def unescape : List (List UInt8) → List UInt8
  | [] => []
  | [c] => if c = [byte '\\'] then [] else c
  | c :: next :: cs => if c = [byte '\\'] then next ++ unescape cs else c ++ unescape (next :: cs)

/-- The bytes up to the closing quote, whether some are escaped, and the rest from the quote on. -/
def scanString : List UInt8 → List UInt8 × Bool × List UInt8
  | [] => ([], false, [])
  | [b] => if b = byte '"' then ([], false, [b]) else ([b], false, [])
  | b :: next :: l =>
    if b = byte '"' then ([], false, b :: next :: l)
    else if b = byte '\\' then
      let r := scanString l
      (b :: next :: r.1, true, r.2.2)
    else
      let r := scanString (next :: l)
      (b :: r.1, r.2)

def quotedString (raw : List UInt8) (hasEscapes : Bool) : List UInt8 :=
  if hasEscapes then unescape (chars raw) else raw

/-- The loop over the bytes; each round takes at least one. -/
def tokenizeFrom : ℕ → List UInt8 → List Token
  | 0, _ => []
  | _ + 1, [] => []
  | n + 1, b :: l =>
    if b = byte '"' then
      let r := scanString l
      .quoted (quotedString r.1 r.2.1) :: tokenizeFrom n (r.2.2.drop 1)
    else if b = byte '{' then .openBrace :: tokenizeFrom n l
    else if b = byte '}' then .closeBrace :: tokenizeFrom n l
    else if b = byte '/' ∧ l.head? = some (byte '/') then tokenizeFrom n ((b :: l).dropWhile (· ≠ byte '\n'))
    else tokenizeFrom n l

def tokenize (input : List UInt8) : List Token := tokenizeFrom input.length input

/-! ### The parser -/

mutual

/-- The pair at the front of the tokens, and what it leaves of them. -/
def parsePair : ℕ → ℕ → List Token → Option (List UInt8 × VdfValue) × List Token
  | 0, _, tokens => (none, tokens)
  | _ + 1, _, [] => (none, [])
  | _ + 1, _, [.quoted _] => (none, [])
  | _ + 1, _, .quoted key :: .quoted s :: rest => (some (key, .string s), rest)
  | n + 1, depth, .quoted key :: .openBrace :: rest =>
    if maxVdfDepth ≤ depth then (none, .openBrace :: rest)
    else
      let r := parseSection n depth rest []
      (some (key, .nested r.1), r.2)
  | _ + 1, _, .quoted _ :: .closeBrace :: rest => (none, .closeBrace :: rest)
  | _ + 1, _, .openBrace :: rest => (none, rest)
  | _ + 1, _, .closeBrace :: rest => (none, rest)

/-- The loop of a section at a depth. -/
def parseSection : ℕ → ℕ → List Token → VdfMap → VdfMap × List Token
  | 0, _, tokens, entries => (entries, tokens)
  | _ + 1, _, [], entries => (entries, [])
  | _ + 1, _, .closeBrace :: rest, entries => (entries, rest)
  | n + 1, depth, token :: rest, entries =>
    match parsePair n (depth + 1) (token :: rest) with
    | (some (key, value), rest) => parseSection n depth rest (insertEntry key value entries)
    | (none, rest) => (entries, rest)

end

/-- A pair takes at most two steps for each token. -/
def pairFuel (tokens : List Token) : ℕ := 2 * tokens.length

/-- The loop of `parse`. -/
def parseTop : ℕ → List Token → VdfMap → VdfMap
  | 0, _, m => m
  | _ + 1, [], m => m
  | n + 1, token :: rest, m =>
    match parsePair (pairFuel (token :: rest)) 0 (token :: rest) with
    | (some (key, value), rest) => parseTop n rest (insertEntry key value m)
    | (none, _) => m

def parse (input : List UInt8) : Option VdfMap :=
  if maxVdfInputSize < input.length then none
  else
    let tokens := tokenize input
    let m := parseTop tokens.length tokens []
    if m.isEmpty then none else some m

end CncContent.Vdf.Parser
