import Mathlib.Data.List.Infix
import Mathlib.Data.Set.Basic
import Mathlib.Tactic.SplitIfs

/-! # Trees of files

A tree says for every path below a root what is there: a file with its contents, a directory, or nothing. The
root is a directory. `makeParents`, `write` and `remove` are what a file system does for the calls of these
names, with what it refuses.

`Differ T A t t'` says how a tree differs from another one on which some of these calls have been made: at a
path of `T` a file has come, gone or changed, and at one of `A` there is a directory where nothing was. No two
of the kinds of change undo each other if `T` and `A` have no path in common (`Differ.trans`). -/

namespace CncContent.Lib.FileTree

inductive Node (β : Type)
  | file (contents : List β)
  | dir
deriving DecidableEq, Repr

/-- What is at a path below the root. -/
abbrev Tree (ν β : Type) := List ν → Option (Node β)

/-- Why a call fails. -/
inductive Refusal
  | notFound
  | isADirectory
  | notADirectory
deriving DecidableEq, Repr

variable {ν β : Type}

/-- What is at a path, the root included. -/
def node (t : Tree ν β) : List ν → Option (Node β)
  | [] => some .dir
  | a :: p => t (a :: p)

theorem node_of_ne_nil {t : Tree ν β} {p : List ν} (h : p ≠ []) : node t p = t p := by
  obtain ⟨a, p', rfl⟩ := List.exists_cons_of_ne_nil h
  rfl

theorem ne_nil_of_node {t : Tree ν β} {p : List ν} (h : node t p ≠ some .dir) : p ≠ [] := by
  rintro rfl
  exact h rfl

variable [DecidableEq ν]

/-- A directory on the way to the path. -/
def Above (q p : List ν) : Prop := q ≠ [] ∧ q <+: p ∧ q ≠ p

instance (q p : List ν) : Decidable (Above q p) := by unfold Above; infer_instance

def isFile : Option (Node β) → Bool
  | some (.file _) => true
  | _ => false

def isDir : Option (Node β) → Bool
  | some .dir => true
  | _ => false

omit [DecidableEq ν] in
theorem isDir_iff {n : Option (Node β)} : isDir n = true ↔ n = some .dir := by
  rcases n with _ | _ | _ <;> simp [isDir]

/-- A file stands where a directory is needed. -/
def Blocked (t : Tree ν β) (p : List ν) : Prop := ∃ q ∈ p.inits, Above q p ∧ isFile (t q) = true

instance (t : Tree ν β) (p : List ν) : Decidable (Blocked t p) := by unfold Blocked; infer_instance

omit [DecidableEq ν] in
theorem blocked_iff {t : Tree ν β} {p : List ν} : Blocked t p ↔ ∃ q, Above q p ∧ isFile (t q) = true :=
  ⟨fun ⟨q, _, h⟩ => ⟨q, h⟩, fun ⟨q, h⟩ => ⟨q, (List.mem_inits q p).mpr h.1.2.1, h⟩⟩

/-- The directories on the way to the path, those of at most `n` names. -/
def makeFirst (n : ℕ) (p : List ν) (t : Tree ν β) : Tree ν β := fun q =>
  if Above q p ∧ q.length ≤ n then some .dir else t q

/-- `create_dir_all` for the parent of the path. -/
def makeParents (p : List ν) (t : Tree ν β) : Except Refusal (Tree ν β) :=
  if Blocked t p then .error .notADirectory else .ok (makeFirst p.length p t)

/-- The tree with something else at one path. -/
def put (p : List ν) (n : Option (Node β)) (t : Tree ν β) : Tree ν β := fun q => if q = p then n else t q

/-- The file is created or cut to nothing, and then gets the contents. -/
def write (p : List ν) (contents : List β) (t : Tree ν β) : Except Refusal (Tree ν β) :=
  if isDir (node t p) then .error .isADirectory
  else if isDir (node t p.dropLast) then .ok (put p (some (.file contents)) t)
  else .error (if isFile (node t p.dropLast) then .notADirectory else .notFound)

/-- A file is removed if there is one. -/
def remove (p : List ν) (t : Tree ν β) : Except Refusal (Tree ν β) :=
  if isDir (node t p) then .error .isADirectory else .ok (put p none t)

/-! ### What the calls need -/

theorem makeParents_eq_ok_iff {p : List ν} {t t' : Tree ν β} :
    makeParents p t = .ok t' ↔ ¬ Blocked t p ∧ t' = makeFirst p.length p t := by
  unfold makeParents
  split_ifs with h
  · exact ⟨nofun, fun h' => absurd h h'.1⟩
  · exact ⟨fun h' => ⟨h, (Except.ok.inj h').symm⟩, fun h' => by rw [h'.2]⟩

theorem write_eq_ok_iff {p : List ν} {contents : List β} {t t' : Tree ν β} :
    write p contents t = .ok t' ↔
      node t p ≠ some .dir ∧ node t p.dropLast = some .dir ∧ t' = put p (some (.file contents)) t := by
  unfold write
  rw [Ne, ← isDir_iff, ← isDir_iff]
  split_ifs with hp hd
  · exact ⟨nofun, fun h => absurd hp h.1⟩
  · exact ⟨fun h => ⟨hp, hd, (Except.ok.inj h).symm⟩, fun h => by rw [h.2.2]⟩
  · exact ⟨nofun, fun h => absurd h.2.1 hd⟩

theorem remove_eq_ok_iff {p : List ν} {t t' : Tree ν β} :
    remove p t = .ok t' ↔ node t p ≠ some .dir ∧ t' = put p none t := by
  unfold remove
  rw [Ne, ← isDir_iff]
  split_ifs with hp
  · exact ⟨nofun, fun h => absurd hp h.1⟩
  · exact ⟨fun h => ⟨hp, (Except.ok.inj h).symm⟩, fun h => by rw [h.2]⟩

theorem makeFirst_of_above {p q : List ν} {t : Tree ν β} (h : Above q p) :
    makeFirst p.length p t q = some .dir := if_pos ⟨h, h.2.1.length_le⟩

theorem makeFirst_of_not_above {n : ℕ} {p q : List ν} {t : Tree ν β} (h : ¬ Above q p) :
    makeFirst n p t q = t q := if_neg fun h' => h h'.1

theorem put_self (p : List ν) (n : Option (Node β)) (t : Tree ν β) : put p n t p = n := if_pos rfl

theorem put_of_ne {p q : List ν} {n : Option (Node β)} {t : Tree ν β} (h : q ≠ p) : put p n t q = t q :=
  if_neg h

/-! ### What has changed -/

/-- How the trees differ at a path. -/
def DifferAt (T A : Set (List ν)) (t t' : Tree ν β) (q : List ν) : Prop :=
  t' q = t q ∨ (q ∈ T ∧ t q ≠ some .dir ∧ t' q ≠ some .dir) ∨ (q ∈ A ∧ t q = none ∧ t' q = some .dir)

/-- The trees differ in files at `T` and in directories at `A`. -/
def Differ (T A : Set (List ν)) (t t' : Tree ν β) : Prop := ∀ q, DifferAt T A t t' q

omit [DecidableEq ν] in
theorem Differ.refl (T A : Set (List ν)) (t : Tree ν β) : Differ T A t t := fun _ => Or.inl rfl

omit [DecidableEq ν] in
theorem DifferAt.mono {T A T' A' : Set (List ν)} {t t' : Tree ν β} {q : List ν}
    (h : DifferAt T A t t' q) (hT : q ∈ T → q ∈ T') (hA : q ∈ A → q ∈ A') : DifferAt T' A' t t' q := by
  rcases h with h | ⟨hq, h⟩ | ⟨hq, h⟩
  · exact Or.inl h
  · exact Or.inr (Or.inl ⟨hT hq, h⟩)
  · exact Or.inr (Or.inr ⟨hA hq, h⟩)

omit [DecidableEq ν] in
theorem Differ.mono {T A T' A' : Set (List ν)} {t t' : Tree ν β} (h : Differ T A t t') (hT : T ⊆ T')
    (hA : A ⊆ A') : Differ T' A' t t' := fun q => (h q).mono (@hT q) (@hA q)

omit [DecidableEq ν] in
/-- Neither kind of change undoes the other. -/
theorem DifferAt.trans {T A : Set (List ν)} {t u v : Tree ν β} {q : List ν} (hq : ¬ (q ∈ T ∧ q ∈ A))
    (h : DifferAt T A t u q) (h' : DifferAt T A u v q) : DifferAt T A t v q := by
  rcases h with h | ⟨hT, ht, hu⟩ | ⟨hA, ht, hu⟩
  · unfold DifferAt at h' ⊢
    rwa [← h]
  · rcases h' with h' | ⟨-, -, hv⟩ | ⟨hA, -, -⟩
    · exact Or.inr (Or.inl ⟨hT, ht, by rwa [h']⟩)
    · exact Or.inr (Or.inl ⟨hT, ht, hv⟩)
    · exact absurd ⟨hT, hA⟩ hq
  · rcases h' with h' | ⟨hT, -, -⟩ | ⟨-, hu', -⟩
    · exact Or.inr (Or.inr ⟨hA, ht, by rw [h', hu]⟩)
    · exact absurd ⟨hT, hA⟩ hq
    · rw [hu] at hu'
      cases hu'

omit [DecidableEq ν] in
theorem Differ.eq {t t' : Tree ν β} (h : Differ ∅ ∅ t t') : t' = t := by
  funext q
  rcases h q with h | ⟨hq, -⟩ | ⟨hq, -⟩
  · exact h
  · exact hq.elim
  · exact hq.elim

theorem makeFirst_differ {n : ℕ} {p : List ν} {t : Tree ν β} (h : ¬ Blocked t p) :
    Differ ∅ {q | Above q p} t (makeFirst n p t) := by
  intro q
  by_cases hq : Above q p ∧ q.length ≤ n
  · have hn : makeFirst n p t q = some .dir := if_pos hq
    rcases ht : t q with _ | contents | _
    · exact Or.inr (Or.inr ⟨hq.1, ht, hn⟩)
    · exact absurd (blocked_iff.mpr ⟨q, hq.1, by rw [ht]; rfl⟩) h
    · exact Or.inl (hn.trans ht.symm)
  · exact Or.inl (if_neg hq)

theorem put_differ {p : List ν} {n : Option (Node β)} {t : Tree ν β} (hp : node t p ≠ some .dir)
    (hn : n ≠ some .dir) : Differ {p} ∅ t (put p n t) := by
  intro q
  by_cases hq : q = p
  · subst hq
    refine Or.inr (Or.inl ⟨rfl, ?_, by rwa [put_self]⟩)
    rwa [node_of_ne_nil (ne_nil_of_node hp)] at hp
  · exact Or.inl (put_of_ne hq)

/-! ### Calls on trees that differ -/

section Congruence

variable {T A : Set (List ν)} {t t' : Tree ν β}

omit [DecidableEq ν] in
theorem Differ.node_eq_dir (h : Differ T A t t') {p : List ν} (hp : node t p = some .dir) :
    node t' p = some .dir := by
  rcases eq_or_ne p [] with rfl | hne
  · rfl
  rw [node_of_ne_nil hne] at hp ⊢
  rcases h p with h | ⟨-, h, -⟩ | ⟨-, -, h⟩
  · rw [h, hp]
  · exact absurd hp h
  · exact h

omit [DecidableEq ν] in
theorem Differ.node_ne_dir (h : Differ T A t t') {p : List ν} (hA : p ∉ A) (hp : node t p ≠ some .dir) :
    node t' p ≠ some .dir := by
  have hne := ne_nil_of_node hp
  rw [node_of_ne_nil hne] at hp ⊢
  rcases h p with h | ⟨-, -, h⟩ | ⟨h, -⟩
  · rwa [h]
  · exact h
  · exact absurd h hA

omit [DecidableEq ν] in
theorem Differ.not_blocked (h : Differ T A t t') {p : List ν} (hT : ∀ q ∈ T, ¬ Above q p)
    (hp : ¬ Blocked t p) : ¬ Blocked t' p := by
  rw [blocked_iff] at hp ⊢
  rintro ⟨q, hq, hfile⟩
  rcases h q with h | ⟨h, -⟩ | ⟨-, -, h⟩
  · exact hp ⟨q, hq, by rwa [← h]⟩
  · exact hT q h hq
  · rw [h] at hfile
    cases hfile

theorem Differ.put (h : Differ T A t t') (p : List ν) (n : Option (Node β)) :
    Differ (T \ {p}) A (put p n t) (put p n t') := by
  intro q
  by_cases hq : q = p
  · subst hq
    exact Or.inl (by rw [put_self, put_self])
  · have := h q
    unfold DifferAt at this ⊢
    rw [put_of_ne hq, put_of_ne hq]
    exact this.imp_right (Or.imp_left fun ⟨hT, h⟩ => ⟨⟨hT, hq⟩, h⟩)

theorem Differ.makeFirst (h : Differ T A t t') (p : List ν) :
    Differ T (A \ {q | Above q p}) (makeFirst p.length p t) (makeFirst p.length p t') := by
  intro q
  by_cases hq : Above q p
  · exact Or.inl (by rw [makeFirst_of_above hq, makeFirst_of_above hq])
  · have := h q
    unfold DifferAt at this ⊢
    rw [makeFirst_of_not_above hq, makeFirst_of_not_above hq]
    exact this.imp_right (Or.imp_right fun ⟨hA, h⟩ => ⟨⟨hA, hq⟩, h⟩)

end Congruence

end CncContent.Lib.FileTree
