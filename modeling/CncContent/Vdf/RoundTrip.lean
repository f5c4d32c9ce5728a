import CncContent.Lib.Keyed
import CncContent.Vdf.Parser
import Mathlib.Data.List.Lex
import Mathlib.Data.List.Forall2

/-! # A printed map is read back

A map may be printed with its entries in any order, with white space and comments between the tokens
(`Prints`). The tokenizer finds the tokens of each pair (`tokenize_quote`, `tokenize_gap`), the parser reads each
pair (`reads_of_prints`), and inserting the pairs in any order gives the map (`insertAll_perm`). So the map is
read back, if its sections are nested no deeper than the parser goes (`parse_print`). -/

namespace CncContent.Vdf.RoundTrip

open CncContent.Lib.Bytes CncContent.Lib.Keyed CncContent.Vdf.Parser

/-! ### Printing -/

/-- A double quote or a backslash is escaped. -/
def escapeByte (b : UInt8) : List UInt8 := if b = byte '"' ∨ b = byte '\\' then [byte '\\', b] else [b]

def escape (s : List UInt8) : List UInt8 := s.flatMap escapeByte

def quote (s : List UInt8) : List UInt8 := byte '"' :: (escape s ++ [byte '"'])

/-- White space and line comments. -/
inductive Gap : List UInt8 → Prop
  | nil : Gap []
  | space {w g : List UInt8} (hw : w ∈ whitespace) (hg : Gap g) : Gap (w ++ g)
  | comment {c g : List UInt8} (hc : byte '\n' ∉ c) (hg : Gap g) : Gap (text "//" ++ c ++ byte '\n' :: g)

/-- The text prints the entries in their order, and those of the sections in any order. -/
inductive Prints : VdfMap → List UInt8 → Prop
  | nil {g : List UInt8} (hg : Gap g) : Prints [] g
  | string {k s g g' rest : List UInt8} {l : VdfMap} (hg : Gap g) (hg' : Gap g') (hl : Prints l rest) :
    Prints ((k, .string s) :: l) (g ++ quote k ++ g' ++ quote s ++ rest)
  | nested {k g g' inner rest : List UInt8} {m l' l : VdfMap} (hg : Gap g) (hg' : Gap g') (hperm : l'.Perm m)
    (hinner : Prints l' inner) (hl : Prints l rest) :
    Prints ((k, .nested m) :: l) (g ++ quote k ++ g' ++ byte '{' :: inner ++ byte '}' :: rest)

/-- Sorted by the keys. -/
abbrev Sorted (m : VdfMap) : Prop := Increasing (fun e : List UInt8 × VdfValue => keyOf e.1) m

/-- The sections are sorted, and nested at most `n` deep. -/
def Nests : ℕ → VdfMap → Prop
  | 0, m => ∀ k inner, (k, VdfValue.nested inner) ∉ m
  | n + 1, m => ∀ k inner, (k, VdfValue.nested inner) ∈ m → Sorted inner ∧ Nests n inner

/-! ### Escapes -/

theorem unescape_cons {c : List UInt8} (h : c ≠ [byte '\\']) (cs : List (List UInt8)) :
    unescape (c :: cs) = c ++ unescape cs := by
  cases cs with
  | nil =>
    show (if c = [byte '\\'] then [] else c) = c ++ []
    rw [if_neg h, List.append_nil]
  | cons next cs => rw [unescape, if_neg h]

theorem consByte_cons (b : UInt8) (c : List UInt8) (cs : List (List UInt8)) : consByte b (c :: cs) =
    if c.head?.any isContinuation then (b :: c) :: cs else [b] :: c :: cs := rfl

theorem ne_backslash_of_continuation {c : List UInt8} (h : c.head?.any isContinuation = true) :
    c ≠ [byte '\\'] := by
  rintro rfl
  exact absurd h (by decide)

/-- A character before others, without its first byte. -/
theorem unescape_consByte {b : UInt8} (h : b ≠ byte '\\') (cs : List (List UInt8)) :
    unescape (consByte b cs) = b :: unescape cs := by
  have hne : ∀ c, b :: c ≠ [byte '\\'] := fun c hc => h (List.head_eq_of_cons_eq hc)
  cases cs with
  | nil => exact unescape_cons (hne []) []
  | cons c cs =>
    rw [consByte_cons]
    split_ifs with hcont
    · rw [unescape_cons (hne c), unescape_cons (ne_backslash_of_continuation hcont)]
      rfl
    · exact unescape_cons (hne []) _

/-- A backslash before a character. -/
theorem unescape_backslash {b : UInt8} (h : isContinuation b = false) (cs : List (List UInt8)) :
    unescape (consByte (byte '\\') (consByte b cs)) = b :: unescape cs := by
  have hhead : ∀ c, ((b :: c).head?.any isContinuation) = false := fun _ => h
  have hback : ∀ c ds, unescape (consByte (byte '\\') ((b :: c) :: ds)) = b :: c ++ unescape ds := by
    intro c ds
    have hnot : ¬ (b :: c).head?.any isContinuation = true := by rw [hhead c]; exact Bool.false_ne_true
    rw [consByte_cons, if_neg hnot, unescape, if_pos rfl]
  cases cs with
  | nil => exact hback [] []
  | cons c cs =>
    rw [consByte_cons b]
    split_ifs with hcont
    · rw [hback, unescape_cons (ne_backslash_of_continuation hcont)]
      rfl
    · exact hback [] _

theorem escape_cons (b : UInt8) (s : List UInt8) : escape (b :: s) = escapeByte b ++ escape s :=
  List.flatMap_cons

/-- **Unescaping inverts escaping.** -/
theorem unescape_escape (s : List UInt8) : unescape (chars (escape s)) = s := by
  induction s with
  | nil => rfl
  | cons b s ih =>
    rw [escape_cons]
    unfold escapeByte
    split_ifs with hspecial
    · have hcont : isContinuation b = false := by
        rcases hspecial with rfl | rfl <;> decide
      show unescape (consByte (byte '\\') (consByte b (chars (escape s)))) = b :: s
      rw [unescape_backslash hcont, ih]
    · show unescape (consByte b (chars (escape s))) = b :: s
      rw [unescape_consByte (fun h => hspecial (Or.inr h)), ih]

/-- Without a backslash nothing has been escaped. -/
theorem escape_of_not_mem {s : List UInt8} (h : byte '\\' ∉ escape s) : escape s = s := by
  induction s with
  | nil => rfl
  | cons b s ih =>
    rw [escape_cons] at h ⊢
    unfold escapeByte at h ⊢
    split_ifs at h ⊢ with hspecial
    · exact absurd (by simp) h
    · rw [ih fun hmem => h (by simp [hmem])]
      rfl

/-! ### Strings -/

theorem scanString_quote (t : List UInt8) : scanString (byte '"' :: t) = ([], false, byte '"' :: t) := by
  cases t with
  | nil => rfl
  | cons c t => rfl

theorem scanString_escaped (b : UInt8) (l : List UInt8) : scanString (byte '\\' :: b :: l) =
    (byte '\\' :: b :: (scanString l).1, true, (scanString l).2.2) := rfl

theorem scanString_cons {b : UInt8} (hquote : b ≠ byte '"') (hback : b ≠ byte '\\') {l : List UInt8}
    (hl : l ≠ []) : scanString (b :: l) = (b :: (scanString l).1, (scanString l).2) := by
  cases l with
  | nil => exact absurd rfl hl
  | cons c l => rw [scanString, if_neg hquote, if_neg hback]

/-- **An escaped string** is scanned up to its closing quote. -/
theorem scanString_escape (s t : List UInt8) : scanString (escape s ++ byte '"' :: t) =
    (escape s, decide (byte '\\' ∈ escape s), byte '"' :: t) := by
  induction s with
  | nil => exact scanString_quote t
  | cons b s ih =>
    rw [escape_cons]
    unfold escapeByte
    split_ifs with hspecial
    · show scanString (byte '\\' :: b :: (escape s ++ byte '"' :: t)) = _
      rw [scanString_escaped, ih]
      simp
    · obtain ⟨hquote, hback⟩ := not_or.mp hspecial
      show scanString (b :: (escape s ++ byte '"' :: t)) = _
      rw [scanString_cons hquote hback (by simp), ih]
      simp [Ne.symm hback]

theorem quotedString_escape (s : List UInt8) :
    quotedString (escape s) (decide (byte '\\' ∈ escape s)) = s := by
  unfold quotedString
  by_cases h : byte '\\' ∈ escape s
  · rw [decide_eq_true h, if_pos rfl]
    exact unescape_escape s
  · rw [decide_eq_false h, if_neg Bool.false_ne_true]
    exact escape_of_not_mem h

/-! ### Tokens -/

theorem length_scanString_le : ∀ l : List UInt8, (scanString l).2.2.length ≤ l.length
  | [] => Nat.le_refl _
  | [b] => by
    unfold scanString
    split_ifs
    · exact Nat.le_refl _
    · exact Nat.zero_le _
  | b :: next :: l => by
    have ih := length_scanString_le l
    have ih' := length_scanString_le (next :: l)
    unfold scanString
    split_ifs
    · exact Nat.le_refl _
    · exact Nat.le_trans ih (Nat.le_add_right _ 2)
    · exact Nat.le_trans ih' (Nat.le_succ _)

/-- The first byte is skipped with the rest of a comment. -/
theorem length_dropWhile_comment_le (l : List UInt8) :
    ((byte '/' :: l).dropWhile (· ≠ byte '\n')).length ≤ l.length := by
  have hdrop : (byte '/' :: l).dropWhile (· ≠ byte '\n') = l.dropWhile (· ≠ byte '\n') :=
    List.dropWhile_cons_of_pos (by decide)
  rw [hdrop]
  exact (List.dropWhile_sublist _).length_le

/-- A round of the loop for each byte is enough. -/
theorem tokenizeFrom_of_le : ∀ {n m : ℕ} {l : List UInt8}, l.length ≤ n → l.length ≤ m →
    tokenizeFrom n l = tokenizeFrom m l
  | 0, 0, [], _, _ => rfl
  | 0, _ + 1, [], _, _ => rfl
  | _ + 1, 0, [], _, _ => rfl
  | _ + 1, _ + 1, [], _, _ => rfl
  | n + 1, m + 1, b :: l, hn, hm => by
    have hl : l.length ≤ n := Nat.le_of_succ_le_succ hn
    have hl' : l.length ≤ m := Nat.le_of_succ_le_succ hm
    have ih : ∀ {l' : List UInt8}, l'.length ≤ l.length → tokenizeFrom n l' = tokenizeFrom m l' :=
      fun h => tokenizeFrom_of_le (Nat.le_trans h hl) (Nat.le_trans h hl')
    have hdrop : ((scanString l).2.2.drop 1).length ≤ l.length := by
      have := length_scanString_le l
      rw [List.length_drop]
      omega
    unfold tokenizeFrom
    dsimp only
    rw [ih hdrop, ih (Nat.le_refl _)]
    split_ifs with hquote hopen hclose hcomment
    · rfl
    · rfl
    · rfl
    · rw [hcomment.1]
      exact ih (length_dropWhile_comment_le l)
    · rfl

theorem tokenizeFrom_eq {n : ℕ} {l : List UInt8} (h : l.length ≤ n) : tokenizeFrom n l = tokenize l :=
  tokenizeFrom_of_le h (Nat.le_refl _)

/-- A byte that is no token and starts no comment. -/
theorem tokenize_skip {b : UInt8} {l : List UInt8} (hquote : b ≠ byte '"') (hopen : b ≠ byte '{')
    (hclose : b ≠ byte '}') (hslash : b ≠ byte '/') : tokenize (b :: l) = tokenize l := by
  have hcomment : ¬ (b = byte '/' ∧ l.head? = some (byte '/')) := fun h => hslash h.1
  show tokenizeFrom (l.length + 1) (b :: l) = tokenize l
  rw [tokenizeFrom, if_neg hquote, if_neg hopen, if_neg hclose, if_neg hcomment]
  rfl

theorem tokenize_open (l : List UInt8) : tokenize (byte '{' :: l) = .openBrace :: tokenize l := rfl

theorem tokenize_close (l : List UInt8) : tokenize (byte '}' :: l) = .closeBrace :: tokenize l := rfl

/-- **A printed string** is one token. -/
theorem tokenize_quote (s t : List UInt8) : tokenize (quote s ++ t) = .quoted s :: tokenize t := by
  have hquote : quote s ++ t = byte '"' :: (escape s ++ byte '"' :: t) := by
    unfold quote
    rw [List.cons_append, List.append_assoc]
    rfl
  have hdrop : ((byte '"' :: t).drop 1).length ≤ (escape s ++ byte '"' :: t).length := by
    rw [List.length_append, List.drop_one, List.tail_cons, List.length_cons]
    omega
  rw [hquote]
  show tokenizeFrom ((escape s ++ byte '"' :: t).length + 1) (byte '"' :: (escape s ++ byte '"' :: t)) = _
  rw [tokenizeFrom, if_pos rfl]
  dsimp only
  rw [scanString_escape, quotedString_escape, tokenizeFrom_eq hdrop]
  rfl

/-- A comment is skipped up to the end of its line. -/
theorem tokenize_comment {c t : List UInt8} (hc : byte '\n' ∉ c) :
    tokenize (text "//" ++ c ++ byte '\n' :: t) = tokenize t := by
  have hslashes : ∀ b ∈ text "//", decide (b ≠ byte '\n') = true := List.all_eq_true.mp (by decide)
  have hall : ∀ b ∈ text "//" ++ c, decide (b ≠ byte '\n') = true := fun b hb => by
    rcases List.mem_append.mp hb with hb | hb
    · exact hslashes b hb
    · exact decide_eq_true fun he => hc (he ▸ hb)
  have hdrop : (text "//" ++ c ++ byte '\n' :: t).dropWhile (· ≠ byte '\n') = byte '\n' :: t := by
    rw [List.dropWhile_append_of_pos hall]
    exact List.dropWhile_cons_of_neg (by decide)
  have hlen : (byte '\n' :: t).length ≤ (byte '/' :: (c ++ byte '\n' :: t)).length := by
    rw [List.length_cons, List.length_cons, List.length_append, List.length_cons]
    omega
  show tokenizeFrom ((byte '/' :: (c ++ byte '\n' :: t)).length + 1)
    (byte '/' :: byte '/' :: (c ++ byte '\n' :: t)) = tokenize t
  rw [tokenizeFrom, if_neg (by decide), if_neg (by decide), if_neg (by decide), if_pos ⟨rfl, rfl⟩]
  rw [show byte '/' :: byte '/' :: (c ++ byte '\n' :: t) = text "//" ++ c ++ byte '\n' :: t from rfl, hdrop,
    tokenizeFrom_eq hlen]
  exact tokenize_skip (by decide) (by decide) (by decide) (by decide)

/-- White space is skipped. -/
theorem tokenize_space {w : List UInt8} (hw : w ∈ whitespace) (t : List UInt8) :
    tokenize (w ++ t) = tokenize t := by
  have hplain : ∀ w ∈ whitespace, ∀ b ∈ w, b ≠ byte '"' ∧ b ≠ byte '{' ∧ b ≠ byte '}' ∧ b ≠ byte '/' := by
    have hall : (whitespace.all fun w => w.all fun b =>
        decide (b ≠ byte '"' ∧ b ≠ byte '{' ∧ b ≠ byte '}' ∧ b ≠ byte '/')) = true := by decide
    exact fun w hw b hb => of_decide_eq_true (List.all_eq_true.mp (List.all_eq_true.mp hall w hw) b hb)
  have hskip : ∀ l : List UInt8, (∀ b ∈ l, b ≠ byte '"' ∧ b ≠ byte '{' ∧ b ≠ byte '}' ∧ b ≠ byte '/') →
      tokenize (l ++ t) = tokenize t := by
    intro l
    induction l with
    | nil => intro _; rfl
    | cons b l ih =>
      intro h
      obtain ⟨⟨hquote, hopen, hclose, hslash⟩, hl⟩ := List.forall_mem_cons.mp h
      rw [List.cons_append, tokenize_skip hquote hopen hclose hslash, ih hl]
  exact hskip w (hplain w hw)

/-- **A gap** has no tokens. -/
theorem tokenize_gap {g : List UInt8} (hg : Gap g) (t : List UInt8) : tokenize (g ++ t) = tokenize t := by
  induction hg with
  | nil => rfl
  | space hw _ ih => rw [List.append_assoc, tokenize_space hw, ih]
  | comment hc _ ih =>
    rw [List.append_assoc, List.cons_append, tokenize_comment hc, ih]

/-! ### Maps -/

/-- The entries inserted one after the other. -/
def insertAll (l m : VdfMap) : VdfMap := l.foldl (fun m e => insertEntry e.1 e.2 m) m

/-- **A new key** goes to its place. -/
theorem insertEntry_spec {k : List UInt8} (v : VdfValue) : ∀ {m : VdfMap}, Sorted m → (∀ e ∈ m, e.1 ≠ k) →
    Sorted (insertEntry k v m) ∧ (insertEntry k v m).Perm ((k, v) :: m)
  | [], _, _ => ⟨List.pairwise_singleton _ _, List.Perm.refl _⟩
  | e :: m, hsorted, hnew => by
    obtain ⟨hne, hrest⟩ := List.forall_mem_cons.mp hnew
    obtain ⟨hlt, htail⟩ := increasing_cons.mp hsorted
    unfold insertEntry
    rw [if_neg (Ne.symm hne)]
    split_ifs with hbefore
    · exact ⟨increasing_cons.mpr ⟨hsorted.forall_lt hbefore, hsorted⟩, List.Perm.refl _⟩
    · obtain ⟨ih, hperm⟩ := insertEntry_spec v htail hrest
      have hkey : keyOf e.1 < keyOf k :=
        lt_of_le_of_ne (not_lt.mp hbefore) fun heq => hne (keyOf_injective heq)
      refine ⟨increasing_cons.mpr ⟨fun x hx => ?_, ih⟩, ?_⟩
      · rcases List.mem_cons.mp (hperm.mem_iff.mp hx) with rfl | hx
        · exact hkey
        · exact hlt x hx
      · exact (hperm.cons e).trans (List.Perm.swap _ _ _)

theorem insertAll_spec : ∀ {l m : VdfMap}, Sorted m → ((l ++ m).map Prod.fst).Nodup →
    Sorted (insertAll l m) ∧ (insertAll l m).Perm (l ++ m)
  | [], m, hsorted, _ => ⟨hsorted, List.Perm.refl _⟩
  | e :: l, m, hsorted, hnodup => by
    have hnew : ∀ x ∈ m, x.1 ≠ e.1 := fun x hx heq => by
      refine (List.nodup_cons.mp hnodup).1 (List.mem_map.mpr ⟨x, ?_, heq⟩)
      exact List.mem_append_right _ hx
    obtain ⟨hsorted', hperm⟩ := insertEntry_spec e.2 hsorted hnew
    have hmiddle : (l ++ insertEntry e.1 e.2 m).Perm (e :: l ++ m) :=
      (hperm.append_left l).trans List.perm_middle
    have hnodup' : ((l ++ insertEntry e.1 e.2 m).map Prod.fst).Nodup :=
      (hmiddle.map Prod.fst).nodup_iff.mpr hnodup
    obtain ⟨ih, hperm'⟩ := insertAll_spec hsorted' hnodup'
    exact ⟨ih, hperm'.trans hmiddle⟩

/-- **The entries of a map in any order** give the map. -/
theorem insertAll_perm {l m : VdfMap} (hm : Sorted m) (hperm : l.Perm m) : insertAll l [] = m := by
  have hnodup : (m.map Prod.fst).Nodup := hm.nodup_map fun _ => rfl
  have hl : ((l ++ []).map Prod.fst).Nodup := by
    rw [List.append_nil]
    exact (hperm.map Prod.fst).nodup_iff.mpr hnodup
  obtain ⟨hsorted, hperm'⟩ := insertAll_spec (l := l) List.Pairwise.nil hl
  rw [List.append_nil] at hperm'
  exact hsorted.eq_of_perm hm (hperm'.trans hperm)

/-! ### Pairs -/

/-- The tokens are read as the entry, in every section that is not too deep for `n` sections more. -/
def ReadsPair (n : ℕ) (e : List UInt8 × VdfValue) (tokens : List Token) : Prop :=
  (∃ tail, tokens = .quoted e.1 :: tail) ∧
    ∀ depth fuel rest, depth + n ≤ maxVdfDepth → pairFuel (tokens ++ rest) ≤ fuel →
      parsePair fuel depth (tokens ++ rest) = (some e, rest)

/-- A section is read up to its brace. -/
theorem parseSection_eq {n : ℕ} : ∀ {l : VdfMap} {chunks : List (List Token)},
    List.Forall₂ (ReadsPair n) l chunks → ∀ (depth fuel : ℕ) (rest : List Token) (m : VdfMap),
    depth + 1 + n ≤ maxVdfDepth → pairFuel (chunks.flatten ++ .closeBrace :: rest) < fuel →
    parseSection fuel depth (chunks.flatten ++ .closeBrace :: rest) m = (insertAll l m, rest)
  | [], [], .nil, depth, fuel, rest, m, _, hfuel => by
    obtain ⟨fuel, rfl⟩ := Nat.exists_eq_add_one.mpr (Nat.zero_lt_of_lt hfuel)
    rfl
  | e :: l, chunk :: chunks, .cons hread hl, depth, fuel, rest, m, hdepth, hfuel => by
    obtain ⟨fuel, rfl⟩ := Nat.exists_eq_add_one.mpr (Nat.zero_lt_of_lt hfuel)
    obtain ⟨⟨tail, rfl⟩, hpair⟩ := hread
    rw [List.flatten_cons, List.append_assoc] at hfuel ⊢
    have hfuel' : pairFuel (chunks.flatten ++ .closeBrace :: rest) < fuel := by
      unfold pairFuel at hfuel ⊢
      rw [List.length_append, List.length_cons] at hfuel
      omega
    have hread := hpair (depth + 1) fuel (chunks.flatten ++ .closeBrace :: rest) hdepth (by omega)
    have ih := parseSection_eq hl depth fuel rest (insertEntry e.1 e.2 m) hdepth hfuel'
    rw [List.cons_append] at hread ⊢
    rw [parseSection]
    · rw [hread]
      exact ih
    · nofun

/-- The pairs of the top level are read to the end. -/
theorem parseTop_eq : ∀ {l : VdfMap} {chunks : List (List Token)},
    List.Forall₂ (ReadsPair maxVdfDepth) l chunks → ∀ (fuel : ℕ) (m : VdfMap),
    chunks.flatten.length ≤ fuel → parseTop fuel chunks.flatten m = insertAll l m
  | [], [], .nil, 0, m, _ => rfl
  | [], [], .nil, _ + 1, m, _ => rfl
  | e :: l, chunk :: chunks, .cons hread hl, fuel, m, hfuel => by
    obtain ⟨⟨tail, rfl⟩, hpair⟩ := hread
    rw [List.flatten_cons] at hfuel ⊢
    have hread := hpair 0 _ chunks.flatten (Nat.le_of_eq (Nat.zero_add _)) (Nat.le_refl _)
    rw [List.cons_append] at hfuel hread ⊢
    rw [List.length_cons, List.length_append] at hfuel
    obtain ⟨fuel, rfl⟩ := Nat.exists_eq_add_one.mpr (show 0 < fuel by omega)
    have ih := parseTop_eq hl fuel (insertEntry e.1 e.2 m) (by omega)
    rw [parseTop, hread]
    exact ih

theorem readsPair_string (n : ℕ) (k s : List UInt8) :
    ReadsPair n (k, .string s) [.quoted k, .quoted s] := by
  refine ⟨⟨_, rfl⟩, fun depth fuel rest _ hfuel => ?_⟩
  have hpos : 0 < fuel := Nat.lt_of_lt_of_le (by unfold pairFuel; simp) hfuel
  obtain ⟨fuel, rfl⟩ := Nat.exists_eq_add_one.mpr hpos
  rfl

theorem readsPair_nested {n : ℕ} {k : List UInt8} {l m : VdfMap} (hsorted : Sorted m) (hperm : l.Perm m)
    {chunks : List (List Token)} (hreads : List.Forall₂ (ReadsPair n) l chunks) :
    ReadsPair (n + 1) (k, .nested m) (.quoted k :: .openBrace :: (chunks.flatten ++ [.closeBrace])) := by
  refine ⟨⟨_, rfl⟩, fun depth fuel rest hdepth hfuel => ?_⟩
  have htokens : Token.quoted k :: .openBrace :: (chunks.flatten ++ [.closeBrace]) ++ rest =
      .quoted k :: .openBrace :: (chunks.flatten ++ .closeBrace :: rest) := by
    simp only [List.cons_append, List.append_assoc, List.nil_append]
  rw [htokens] at hfuel ⊢
  unfold pairFuel at hfuel
  rw [List.length_cons, List.length_cons] at hfuel
  obtain ⟨fuel, rfl⟩ := Nat.exists_eq_add_one.mpr (show 0 < fuel by omega)
  have hin : ¬ maxVdfDepth ≤ depth := by omega
  have hsection := parseSection_eq hreads depth fuel rest [] (by omega) (by unfold pairFuel; omega)
  rw [parsePair, if_neg hin, hsection, insertAll_perm hsorted hperm]

/-! ### The round trip -/

theorem nests_of_perm {l m : VdfMap} (hperm : l.Perm m) : ∀ {n : ℕ}, Nests n m → Nests n l
  | 0, h => fun k inner hmem => h k inner (hperm.mem_iff.mp hmem)
  | _ + 1, h => fun k inner hmem => h k inner (hperm.mem_iff.mp hmem)

theorem nests_tail {e : List UInt8 × VdfValue} {l : VdfMap} : ∀ {n : ℕ}, Nests n (e :: l) → Nests n l
  | 0, h => fun k inner hmem => h k inner (List.mem_cons_of_mem _ hmem)
  | _ + 1, h => fun k inner hmem => h k inner (List.mem_cons_of_mem _ hmem)

/-- **The tokens of a printed text** are those of its pairs. -/
theorem reads_of_prints {l : VdfMap} {t : List UInt8} (h : Prints l t) : ∃ chunks : List (List Token),
    (∀ rest, tokenize (t ++ rest) = chunks.flatten ++ tokenize rest) ∧
      ∀ n, Nests n l → List.Forall₂ (ReadsPair n) l chunks := by
  induction h with
  | nil hg => exact ⟨[], fun rest => tokenize_gap hg rest, fun _ _ => .nil⟩
  | @string k s g g' _ l hg hg' _ ih =>
    obtain ⟨chunks, htokens, hreads⟩ := ih
    refine ⟨[.quoted k, .quoted s] :: chunks, fun rest => ?_, fun n hn =>
      .cons (readsPair_string n k s) (hreads n (nests_tail hn))⟩
    simp only [List.append_assoc]
    rw [tokenize_gap hg, tokenize_quote, tokenize_gap hg', tokenize_quote, htokens]
    rfl
  | @nested k g g' _ _ m l' l hg hg' hperm _ _ ihinner ih =>
    obtain ⟨inner, htokens', hreads'⟩ := ihinner
    obtain ⟨chunks, htokens, hreads⟩ := ih
    refine ⟨(.quoted k :: .openBrace :: (inner.flatten ++ [.closeBrace])) :: chunks, fun rest => ?_,
      fun n hn => ?_⟩
    · simp only [List.append_assoc, List.cons_append]
      rw [tokenize_gap hg, tokenize_quote, tokenize_gap hg', tokenize_open, htokens', tokenize_close, htokens]
      simp only [List.flatten_cons, List.cons_append, List.append_assoc, List.nil_append]
    · cases n with
      | zero => exact absurd List.mem_cons_self (hn k m)
      | succ n =>
        obtain ⟨hsorted, hnests⟩ := hn k m List.mem_cons_self
        exact .cons (readsPair_nested hsorted hperm (hreads' n (nests_of_perm hperm hnests)))
          (hreads (n + 1) (nests_tail hn))

/-- **A printed map is read back**, whatever its strings, the order of its entries, and the white space and
comments between the tokens. -/
theorem parse_print {m : VdfMap} (hne : m ≠ []) (hsorted : Sorted m) (hnests : Nests maxVdfDepth m)
    {l : VdfMap} (hperm : l.Perm m) {t : List UInt8} (ht : Prints l t) (hsize : t.length ≤ maxVdfInputSize) :
    parse t = some m := by
  obtain ⟨chunks, htokens, hreads⟩ := reads_of_prints ht
  have htokens' : tokenize t = chunks.flatten := by
    have h := htokens []
    rwa [List.append_nil, show tokenize [] = [] from rfl, List.append_nil] at h
  have htop : parseTop (tokenize t).length (tokenize t) [] = m := by
    rw [htokens', parseTop_eq (hreads maxVdfDepth (nests_of_perm hperm hnests)) _ _ (Nat.le_refl _),
      insertAll_perm hsorted hperm]
  have hnonempty : ¬ m.isEmpty = true := fun h => hne (List.isEmpty_iff.mp h)
  unfold parse
  rw [if_neg (Nat.not_lt.mpr hsize)]
  dsimp only
  rw [htop, if_neg hnonempty]

/-- A section behind a comment, and a value with a quote in it. -/
theorem parse_print_section : parse (text "//c\n\"b\" {}\"a\"\"\\\"\"\n") =
    some [(text "a", .string (text "\"")), (text "b", .nested [])] := by
  have hcomment : Gap (text "//c\n") := .comment (c := text "c") (g := []) (by decide) .nil
  have hspace : Gap (text " ") := .space (w := text " ") (g := []) (by decide) .nil
  have hend : Gap (text "\n") := .space (w := text "\n") (g := []) (by decide) .nil
  have hvalue : Prints [(text "a", .string (text "\""))] (text "\"a\"\"\\\"\"\n") :=
    .string (k := text "a") (s := text "\"") .nil .nil (.nil hend)
  have hall : Prints [(text "b", .nested []), (text "a", .string (text "\""))]
      (text "//c\n\"b\" {}\"a\"\"\\\"\"\n") :=
    .nested (k := text "b") hcomment hspace (List.Perm.refl _) (.nil .nil) hvalue
  have hsorted : Sorted [(text "a", .string (text "\"")), (text "b", .nested [])] :=
    increasing_cons.mpr ⟨fun b hb => by
      rw [List.mem_singleton.mp hb]
      show keyOf (text "a") < keyOf (text "b")
      decide, List.pairwise_singleton _ _⟩
  have hnests : Nests maxVdfDepth [(text "a", .string (text "\"")), (text "b", .nested [])] :=
    fun k inner hmem => by
      rcases List.mem_cons.mp hmem with hmem | hmem
      · cases hmem
      · cases List.mem_singleton.mp hmem
        exact ⟨List.Pairwise.nil, nofun⟩
  exact parse_print (List.cons_ne_nil _ _) hsorted hnests (List.Perm.swap _ _ _) hall (by decide)

end CncContent.Vdf.RoundTrip
