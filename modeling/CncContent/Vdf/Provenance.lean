import CncContent.Vdf.Parser
import Mathlib.Tactic.SplitIfs

/-! # Where the pairs of a parsed map come from

The recursion of the parser as a scan of the tokens with the path of the section whose loop is running (`reads`):
every string value of the result is one of the pairs that are read (`parse_reads`). Until a pair fails, the path is
that of the braces around the tokens. A pair that fails ends the loop of its section before the closing brace: from
then on the path is shorter than the braces are deep, and no pair is in place (`inPlace_iff`). -/

namespace CncContent.Vdf.Provenance

open CncContent.Lib.Bytes CncContent.Vdf.Parser

/-! ### Braces -/

/-- The names of the open braces, and the string directly before. -/
def chainStep (s : List (Option (List UInt8)) × Option (List UInt8)) :
    Token → List (Option (List UInt8)) × Option (List UInt8)
  | .quoted key => (s.1, some key)
  | .openBrace => (s.1 ++ [s.2], none)
  | .closeBrace => (s.1.dropLast, none)

/-- The names of the braces that are open behind the tokens; a brace has that of the string directly before it. -/
def chain (before : List Token) : List (Option (List UInt8)) := (before.foldl chainStep ([], none)).1

/-- The pair of strings stands in the tokens inside exactly the sections of the path. -/
def Occurs (tokens : List Token) (path : List (List UInt8)) (key value : List UInt8) : Prop :=
  ∃ i < tokens.length, tokens[i]? = some (.quoted key) ∧ tokens[i + 1]? = some (.quoted value) ∧
    chain (tokens.take i) = path.map some

instance (tokens : List Token) (path : List (List UInt8)) (key value : List UInt8) :
    Decidable (Occurs tokens path key value) := by unfold Occurs; infer_instance

/-- The map has the string at the key, in the section that the path leads to. -/
inductive Leaf : VdfMap → List (List UInt8) → List UInt8 → List UInt8 → Prop
  | here {m : VdfMap} {key value : List UInt8} (h : (key, .string value) ∈ m) : Leaf m [] key value
  | inside {m inner : VdfMap} {name : List UInt8} {path : List (List UInt8)} {key value : List UInt8}
    (h : (name, .nested inner) ∈ m) (hl : Leaf inner path key value) : Leaf m (name :: path) key value

/-- Every string value of the result is that of a pair inside exactly the sections that lead to it. -/
def Sound (input : List UInt8) : Prop :=
  ∀ m, parse input = some m → ∀ path key value, Leaf m path key value →
    Occurs (tokenize input) path key value

/-! ### Pairs that are read -/

/-- A pair that is read in the loop of the section at the path, with the tokens before it, and whether a pair has
failed before. -/
structure Read where
  path : List (List UInt8)
  before : List Token
  key : List UInt8
  value : List UInt8
  failed : Bool
deriving DecidableEq

/-- The braces around the pair are those of its section. -/
def Read.InPlace (r : Read) : Prop := chain r.before = r.path.map some

/-- The pairs that are read from the tokens on. A failure ends the loop, and the whole parse at the top level. -/
def reads (failed : Bool) (path : List (List UInt8)) (before : List Token) : List Token → List Read
  | [] => []
  | [.quoted _] => []
  | .quoted key :: .quoted value :: rest =>
    ⟨path, before, key, value, failed⟩ :: reads failed path (before ++ [.quoted key, .quoted value]) rest
  | .quoted key :: .openBrace :: rest =>
    if maxVdfDepth ≤ path.length then
      if path = [] then [] else reads true path.dropLast (before ++ [.quoted key]) (.openBrace :: rest)
    else reads failed (path ++ [key]) (before ++ [.quoted key, .openBrace]) rest
  | .quoted key :: .closeBrace :: rest =>
    if path = [] then [] else reads true path.dropLast (before ++ [.quoted key]) (.closeBrace :: rest)
  | .openBrace :: rest =>
    if path = [] then [] else reads true path.dropLast (before ++ [.openBrace]) rest
  | .closeBrace :: rest =>
    if path = [] then [] else reads failed path.dropLast (before ++ [.closeBrace]) rest

/-- The pairs that are read from an input. -/
def readsOf (input : List UInt8) : List Read :=
  if maxVdfInputSize < input.length then [] else reads false [] [] (tokenize input)

/-! ### In place -/

theorem foldl_chainStep_append (before l : List Token) :
    (before ++ l).foldl chainStep ([], none) = l.foldl chainStep (before.foldl chainStep ([], none)) :=
  List.foldl_append

section Chain

variable (before : List Token) (key value : List UInt8)

theorem chain_quoted : chain (before ++ [.quoted key]) = chain before := by
  unfold chain
  rw [foldl_chainStep_append]
  rfl

theorem chain_pair : chain (before ++ [.quoted key, .quoted value]) = chain before := by
  unfold chain
  rw [foldl_chainStep_append]
  rfl

theorem chain_named : chain (before ++ [.quoted key, .openBrace]) = chain before ++ [some key] := by
  unfold chain
  rw [foldl_chainStep_append]
  rfl

theorem length_chain_open : (chain (before ++ [.openBrace])).length = (chain before).length + 1 := by
  unfold chain
  rw [foldl_chainStep_append]
  exact List.length_append

theorem chain_close : chain (before ++ [.closeBrace]) = (chain before).dropLast := by
  unfold chain
  rw [foldl_chainStep_append]
  rfl

end Chain

/-- **Behind a failure** the path is shorter than the braces are deep, and stays so: no pair is in place. -/
theorem strayed : ∀ (tokens : List Token) {path : List (List UInt8)} {before : List Token},
    path.length < (chain before).length → ∀ r ∈ reads true path before tokens, r.failed = true ∧ ¬ r.InPlace
  | [], _, _, _, r, hr => by cases hr
  | [.quoted _], _, _, _, r, hr => by cases hr
  | .quoted key :: .quoted value :: rest, path, before, hlt, r, hr => by
    rcases List.mem_cons.mp hr with rfl | hr
    · refine ⟨rfl, fun hplace => ?_⟩
      have hlen := congrArg List.length (show chain before = path.map some from hplace)
      rw [List.length_map] at hlen
      omega
    · exact strayed rest (by rwa [chain_pair]) r hr
  | .quoted key :: .openBrace :: rest, path, before, hlt, r, hr => by
    rw [reads] at hr
    split_ifs at hr with hdepth hpath
    · cases hr
    · refine strayed (.openBrace :: rest) ?_ r hr
      rw [chain_quoted, List.length_dropLast]
      omega
    · refine strayed rest ?_ r hr
      rw [chain_named, List.length_append, List.length_append]
      exact Nat.add_lt_add_right hlt 1
  | .quoted key :: .closeBrace :: rest, path, before, hlt, r, hr => by
    rw [reads] at hr
    split_ifs at hr with hpath
    · cases hr
    · refine strayed (.closeBrace :: rest) ?_ r hr
      rw [chain_quoted, List.length_dropLast]
      omega
  | .openBrace :: rest, path, before, hlt, r, hr => by
    rw [reads] at hr
    split_ifs at hr with hpath
    · cases hr
    · refine strayed rest ?_ r hr
      rw [length_chain_open, List.length_dropLast]
      omega
  | .closeBrace :: rest, path, before, hlt, r, hr => by
    rw [reads] at hr
    split_ifs at hr with hpath
    · cases hr
    · have hpos := List.length_pos_iff.mpr hpath
      refine strayed rest ?_ r hr
      rw [chain_close, List.length_dropLast, List.length_dropLast]
      omega

/-- The failure of a pair in a section. -/
theorem strayed_of_failure {path : List (List UInt8)} {before : List Token} (hpath : path ≠ [])
    (hlen : path.length ≤ (chain before).length) (tokens : List Token) :
    ∀ r ∈ reads true path.dropLast before tokens, r.InPlace ↔ r.failed = false := by
  intro r hr
  have hpos := List.length_pos_iff.mpr hpath
  have hlt : path.dropLast.length < (chain before).length := by
    rw [List.length_dropLast]
    omega
  obtain ⟨hfailed, hnot⟩ := strayed tokens hlt r hr
  exact iff_of_false hnot (by rw [hfailed]; exact Bool.noConfusion)

/-- As long as the path is that of the braces, a pair that is read is in place exactly if no pair has failed. -/
theorem inPlace_iff : ∀ (tokens : List Token) {path : List (List UInt8)} {before : List Token},
    chain before = path.map some → ∀ r ∈ reads false path before tokens, (r.InPlace ↔ r.failed = false)
  | [], _, _, _, r, hr => by cases hr
  | [.quoted _], _, _, _, r, hr => by cases hr
  | .quoted key :: .quoted value :: rest, path, before, hchain, r, hr => by
    rcases List.mem_cons.mp hr with rfl | hr
    · exact iff_of_true hchain rfl
    · exact inPlace_iff rest (by rwa [chain_pair]) r hr
  | .quoted key :: .openBrace :: rest, path, before, hchain, r, hr => by
    have hlen := congrArg List.length hchain
    rw [List.length_map] at hlen
    rw [reads] at hr
    split_ifs at hr with hdepth hpath
    · cases hr
    · exact strayed_of_failure hpath (by rw [chain_quoted, hlen]) (.openBrace :: rest) r hr
    · refine inPlace_iff rest ?_ r hr
      rw [chain_named, hchain, List.map_append]
      rfl
  | .quoted key :: .closeBrace :: rest, path, before, hchain, r, hr => by
    have hlen := congrArg List.length hchain
    rw [List.length_map] at hlen
    rw [reads] at hr
    split_ifs at hr with hpath
    · cases hr
    · exact strayed_of_failure hpath (by rw [chain_quoted, hlen]) (.closeBrace :: rest) r hr
  | .openBrace :: rest, path, before, hchain, r, hr => by
    have hlen := congrArg List.length hchain
    rw [List.length_map] at hlen
    rw [reads] at hr
    split_ifs at hr with hpath
    · cases hr
    · exact strayed_of_failure hpath (by rw [length_chain_open]; omega) rest r hr
  | .closeBrace :: rest, path, before, hchain, r, hr => by
    rw [reads] at hr
    split_ifs at hr with hpath
    · cases hr
    · refine inPlace_iff rest ?_ r hr
      rw [chain_close, hchain, List.map_dropLast]

/-- The tokens of the pair follow those before it. -/
def StandsIn (tokens : List Token) (r : Read) : Prop :=
  ∃ after, tokens = r.before ++ .quoted r.key :: .quoted r.value :: after

/-- What has been skipped stands before what is left. -/
theorem standsIn_skip {before skipped rest : List Token} {r : Read}
    (h : StandsIn ((before ++ skipped) ++ rest) r) : StandsIn (before ++ (skipped ++ rest)) r := by
  rwa [List.append_assoc] at h

/-- A pair that is read stands in the tokens where its tokens before it end. -/
theorem reads_position : ∀ (tokens : List Token) {failed : Bool} {path : List (List UInt8)} {before : List Token},
    ∀ r ∈ reads failed path before tokens,
      StandsIn (before ++ tokens) r
  | [], _, _, _, r, hr => by cases hr
  | [.quoted _], _, _, _, r, hr => by cases hr
  | .quoted key :: .quoted value :: rest, failed, path, before, r, hr => by
    rcases List.mem_cons.mp hr with rfl | hr
    · exact ⟨rest, rfl⟩
    · exact standsIn_skip (reads_position rest r hr)
  | .quoted key :: .openBrace :: rest, failed, path, before, r, hr => by
    rw [reads] at hr
    split_ifs at hr with hdepth hpath
    · cases hr
    · exact standsIn_skip (reads_position (.openBrace :: rest) r hr)
    · exact standsIn_skip (reads_position rest r hr)
  | .quoted key :: .closeBrace :: rest, failed, path, before, r, hr => by
    rw [reads] at hr
    split_ifs at hr with hpath
    · cases hr
    · exact standsIn_skip (reads_position (.closeBrace :: rest) r hr)
  | .openBrace :: rest, failed, path, before, r, hr => by
    rw [reads] at hr
    split_ifs at hr with hpath
    · cases hr
    · exact standsIn_skip (reads_position rest r hr)
  | .closeBrace :: rest, failed, path, before, r, hr => by
    rw [reads] at hr
    split_ifs at hr with hpath
    · cases hr
    · exact standsIn_skip (reads_position rest r hr)

/-- A pair in place occurs in the tokens at its path. -/
theorem occurs_of_inPlace {tokens : List Token} {r : Read} (hr : r ∈ reads false [] [] tokens) (hplace : r.InPlace) :
    Occurs tokens r.path r.key r.value := by
  obtain ⟨after, hafter⟩ := reads_position tokens r hr
  rw [List.nil_append] at hafter
  subst hafter
  refine ⟨r.before.length, ?_, ?_, ?_, ?_⟩
  · rw [List.length_append]
    exact Nat.lt_add_of_pos_right (Nat.succ_pos _)
  · rw [List.getElem?_append_right le_rfl, Nat.sub_self]
    rfl
  · rw [List.getElem?_append_right (Nat.le_add_right _ 1), Nat.add_sub_cancel_left]
    rfl
  · rw [List.take_left]
    exact hplace

/-! ### The parser reads them -/

/-- Every string of the map, at the path, is one of the pairs. -/
def From (pairs : List Read) (path : List (List UInt8)) (m : VdfMap) : Prop :=
  ∀ p key value, Leaf m p key value → ∃ r ∈ pairs, r.path = path ++ p ∧ r.key = key ∧ r.value = value

/-- What the loop of the section at the path reads from the tokens on is among the pairs. -/
def GoesOn (pairs : List Read) (path : List (List UInt8)) (tokens : List Token) : Prop :=
  ∃ failed before, reads failed path before tokens ⊆ pairs

theorem mem_insertEntry {e : List UInt8 × VdfValue} {key : List UInt8} {value : VdfValue} :
    ∀ {m : VdfMap}, e ∈ insertEntry key value m → e = (key, value) ∨ e ∈ m
  | [], h => .inl (List.mem_singleton.mp h)
  | f :: m, h => by
    unfold insertEntry at h
    split_ifs at h with hkey hlt
    · exact (List.mem_cons.mp h).imp_right (List.mem_cons_of_mem f)
    · exact List.mem_cons.mp h
    · rcases List.mem_cons.mp h with rfl | h
      · exact .inr List.mem_cons_self
      · exact (mem_insertEntry h).imp_right (List.mem_cons_of_mem f)

section From

variable {pairs : List Read} {path : List (List UInt8)}

theorem from_nil : From pairs path [] := by
  intro p key value hl
  cases hl with
  | here h => cases h
  | inside h => cases h

/-- An entry put into a map. -/
theorem From.insertEntry {m : VdfMap} {key : List UInt8} {value : VdfValue} (hm : From pairs path m)
    (he : From pairs path [(key, value)]) : From pairs path (insertEntry key value m) := by
  intro p k v hl
  cases hl with
  | here h =>
    rcases mem_insertEntry h with h | h
    · exact he [] k v (.here (List.mem_singleton.mpr h))
    · exact hm [] k v (.here h)
  | inside h hl =>
    rcases mem_insertEntry h with h | h
    · exact he _ k v (.inside (List.mem_singleton.mpr h) hl)
    · exact hm _ k v (.inside h hl)

theorem from_string {r : Read} (hr : r ∈ pairs) (hpath : r.path = path) :
    From pairs path [(r.key, .string r.value)] := by
  intro p k v hl
  cases hl with
  | here h =>
    cases List.mem_singleton.mp h
    exact ⟨r, hr, by rw [hpath, List.append_nil], rfl, rfl⟩
  | inside h hl => cases List.mem_singleton.mp h

/-- A section under its name. -/
theorem From.nested {m : VdfMap} {name : List UInt8} (hm : From pairs (path ++ [name]) m) :
    From pairs path [(name, .nested m)] := by
  intro p k v hl
  cases hl with
  | here h => cases List.mem_singleton.mp h
  | inside h hl =>
    cases List.mem_singleton.mp h
    obtain ⟨r, hr, hpath, hkv⟩ := hm _ k v hl
    exact ⟨r, hr, by rw [hpath, List.append_assoc]; rfl, hkv⟩

end From

/-- What the loop of the section at the path may rely on when a pair returns. A failure ends the loop. -/
def Returns (pairs : List Read) (path : List (List UInt8)) (tokens : List Token) :
    Option (List UInt8 × VdfValue) × List Token → Prop
  | (some e, rest) => rest.length < tokens.length ∧ GoesOn pairs path rest ∧ From pairs path [e]
  | (none, rest) => rest.length ≤ tokens.length ∧ (path ≠ [] → GoesOn pairs path.dropLast rest)

/-- A pair at the front of the tokens of a loop. -/
def PairFits (n : ℕ) : Prop :=
  ∀ (pairs : List Read) (path : List (List UInt8)) (tokens : List Token), GoesOn pairs path tokens →
    pairFuel tokens ≤ n → Returns pairs path tokens (parsePair n path.length tokens)

/-- The loop of a section, and that of the section around it behind it. -/
def SectionFits (n : ℕ) : Prop :=
  ∀ (pairs : List Read) (path : List (List UInt8)) (name : List UInt8) (tokens : List Token) (entries : VdfMap),
    GoesOn pairs (path ++ [name]) tokens → pairFuel tokens < n → From pairs (path ++ [name]) entries →
      (parseSection n path.length tokens entries).2.length ≤ tokens.length ∧
        GoesOn pairs path (parseSection n path.length tokens entries).2 ∧
        From pairs (path ++ [name]) (parseSection n path.length tokens entries).1

theorem goesOn_nil (pairs : List Read) (path : List (List UInt8)) : GoesOn pairs path [] :=
  ⟨false, [], List.nil_subset _⟩

theorem pairFits_succ {n : ℕ} (ih : SectionFits n) : PairFits (n + 1) := by
  intro pairs path tokens hgo hfuel
  obtain ⟨failed, before, hsub⟩ := hgo
  match tokens with
  | [] =>
    rw [parsePair]
    exact ⟨le_rfl, fun _ => goesOn_nil _ _⟩
  | [.quoted key] =>
    rw [parsePair]
    exact ⟨Nat.zero_le _, fun _ => goesOn_nil _ _⟩
  | .quoted key :: .quoted value :: rest =>
    rw [reads] at hsub
    obtain ⟨hr, hsub⟩ := List.cons_subset.mp hsub
    rw [parsePair]
    exact ⟨Nat.lt_succ_of_lt (Nat.lt_succ_self _), ⟨failed, _, hsub⟩, from_string hr rfl⟩
  | .quoted key :: .openBrace :: rest =>
    rw [reads] at hsub
    rw [parsePair]
    split_ifs at hsub ⊢ with hdepth hpath
    · exact ⟨Nat.le_succ _, fun h => absurd hpath h⟩
    · exact ⟨Nat.le_succ _, fun _ => ⟨true, _, hsub⟩⟩
    · have hrest : pairFuel rest < n := by
        unfold pairFuel at hfuel ⊢
        rw [List.length_cons, List.length_cons] at hfuel
        omega
      obtain ⟨hlen, hgo, hfrom⟩ := ih pairs path key rest [] ⟨failed, _, hsub⟩ hrest from_nil
      exact ⟨Nat.lt_of_le_of_lt hlen (Nat.lt_succ_of_lt (Nat.lt_succ_self _)), hgo, hfrom.nested⟩
  | .quoted key :: .closeBrace :: rest =>
    rw [reads] at hsub
    rw [parsePair]
    refine ⟨Nat.le_succ _, fun hpath => ?_⟩
    rw [if_neg hpath] at hsub
    exact ⟨true, _, hsub⟩
  | .openBrace :: rest =>
    rw [reads] at hsub
    rw [parsePair]
    refine ⟨Nat.le_succ _, fun hpath => ?_⟩
    rw [if_neg hpath] at hsub
    exact ⟨true, _, hsub⟩
  | .closeBrace :: rest =>
    rw [reads] at hsub
    rw [parsePair]
    refine ⟨Nat.le_succ _, fun hpath => ?_⟩
    rw [if_neg hpath] at hsub
    exact ⟨failed, _, hsub⟩

theorem sectionFits_succ {n : ℕ} (ihpair : PairFits n) (ih : SectionFits n) : SectionFits (n + 1) := by
  intro pairs path name tokens entries hgo hfuel hentries
  have hne : path ++ [name] ≠ [] := List.concat_ne_nil _ _
  cases tokens with
  | nil =>
    rw [parseSection]
    exact ⟨le_rfl, goesOn_nil _ _, hentries⟩
  | cons token rest =>
    by_cases hclose : token = .closeBrace
    · subst hclose
      obtain ⟨failed, before, hsub⟩ := hgo
      rw [reads, if_neg hne, List.dropLast_concat] at hsub
      rw [parseSection]
      exact ⟨Nat.le_succ _, ⟨failed, _, hsub⟩, hentries⟩
    · have hlen : path.length + 1 = (path ++ [name]).length := by
        rw [List.length_append, List.length_singleton]
      have hpair := ihpair pairs (path ++ [name]) (token :: rest) hgo (Nat.lt_succ_iff.mp hfuel)
      rw [parseSection, hlen]
      · rcases hread : parsePair n (path ++ [name]).length (token :: rest) with ⟨_ | ⟨key, value⟩, rest'⟩
        · rw [hread] at hpair
          obtain ⟨hle, hgo'⟩ := hpair
          have hbehind := hgo' hne
          rw [List.dropLast_concat] at hbehind
          exact ⟨hle, hbehind, hentries⟩
        · rw [hread] at hpair
          obtain ⟨hlt, hgo', hentry⟩ := hpair
          have hfuel' : pairFuel rest' < n := by
            unfold pairFuel at hfuel ⊢
            omega
          obtain ⟨hle, hbehind, hfrom⟩ := ih pairs path name rest' _ hgo' hfuel' (hentries.insertEntry hentry)
          exact ⟨hle.trans hlt.le, hbehind, hfrom⟩
      · exact hclose

/-- The recursion of the pairs and the sections. -/
theorem fits : ∀ n, PairFits n ∧ SectionFits n
  | 0 => by
    refine ⟨fun pairs path tokens hgo hfuel => ?_, fun _ _ _ _ _ _ hfuel => absurd hfuel (Nat.not_lt_zero _)⟩
    cases tokens with
    | nil =>
      rw [parsePair]
      exact ⟨le_rfl, fun _ => goesOn_nil _ _⟩
    | cons token rest =>
      unfold pairFuel at hfuel
      rw [List.length_cons] at hfuel
      omega
  | n + 1 => ⟨pairFits_succ (fits n).2, sectionFits_succ (fits n).1 (fits n).2⟩

theorem parseTop_from {pairs : List Read} : ∀ (n : ℕ) {tokens : List Token} {m : VdfMap}, GoesOn pairs [] tokens →
    From pairs [] m → From pairs [] (parseTop n tokens m)
  | 0, _, _, _, hm => hm
  | _ + 1, [], _, _, hm => hm
  | n + 1, token :: rest, m, hgo, hm => by
    have hpair := (fits _).1 pairs [] (token :: rest) hgo le_rfl
    rw [List.length_nil] at hpair
    rw [parseTop]
    rcases hread : parsePair (pairFuel (token :: rest)) 0 (token :: rest) with ⟨_ | ⟨key, value⟩, rest'⟩
    · exact hm
    · rw [hread] at hpair
      obtain ⟨-, hgo', hentry⟩ := hpair
      exact parseTop_from n hgo' (hm.insertEntry hentry)

/-- **Every string value of the result** is that of a pair that is read, in the section of that pair. -/
theorem parse_reads {input : List UInt8} {m : VdfMap} (h : parse input = some m) : From (readsOf input) [] m := by
  unfold parse at h
  unfold readsOf
  split_ifs at h ⊢ with hsize
  dsimp only at h
  split_ifs at h with hempty
  cases h
  exact parseTop_from _ ⟨false, [], List.Subset.refl _⟩ from_nil

/-- **The parser moves no entry** into another section exactly if no pair is read behind the first failure inside a
section, and then every string value of the result stands in the input inside the sections that lead to it. What
the result has is among the pairs that are read for every input. -/
theorem parse_moves_none_iff (input : List UInt8) :
    ((∀ r ∈ readsOf input, r.InPlace) ↔ ∀ r ∈ readsOf input, r.failed = false) ∧
      (∀ m, parse input = some m → From (readsOf input) [] m) ∧
      ((∀ r ∈ readsOf input, r.failed = false) → Sound input) := by
  have hplace : ∀ r ∈ readsOf input, (r.InPlace ↔ r.failed = false) := by
    intro r hr
    unfold readsOf at hr
    split_ifs at hr with hsize
    · cases hr
    · exact inPlace_iff _ rfl r hr
  refine ⟨forall₂_congr hplace, fun m => parse_reads, fun hclean m hm path key value hl => ?_⟩
  obtain ⟨r, hr, hpath, hkey, hvalue⟩ := parse_reads hm path key value hl
  have hin := (hplace r hr).mpr (hclean r hr)
  rw [List.nil_append] at hpath
  rw [← hpath, ← hkey, ← hvalue]
  unfold readsOf at hr
  split_ifs at hr with hsize
  · cases hr
  · exact occurs_of_inPlace hr hin

/-- The pair of `k` stands inside a brace without a name, in the section `a`. -/
def strayText : List UInt8 := text "\"x\" \x7b \"a\" \x7b \x7b \"k\" \"v\" \x7d \x7d"

/-- The brace ends the loop of the section `a`: the pair is read in the section `x`. -/
theorem stray_value_in_outer_section : ¬ Sound strayText := by
  intro h
  have htokens : tokenize strayText = [.quoted (text "x"), .openBrace, .quoted (text "a"), .openBrace, .openBrace,
      .quoted (text "k"), .quoted (text "v"), .closeBrace, .closeBrace] := by decide +kernel
  have hparse : parse strayText =
      some [(text "x", .nested [(text "a", .nested []), (text "k", .string (text "v"))])] := by
    unfold parse
    rw [if_neg (by decide +kernel)]
    dsimp only
    rw [htokens]
    rfl
  have hoccurs := h _ hparse [text "x"] (text "k") (text "v")
    (.inside List.mem_cons_self (.here (List.mem_cons_of_mem _ List.mem_cons_self)))
  rw [htokens] at hoccurs
  revert hoccurs
  decide +kernel

end CncContent.Vdf.Provenance
