import Mathlib.Data.List.Nodup

/-! # Finite maps and sets

A `Table` is a finite map and a `Members` a finite set, both as lists without repetition; the order of
the list stands for the order of iteration, which a hash map leaves open. What a table holds after a
change is said by `get?` (`get?_alter`, `get?_erase`, `get?_mapValues`), and its entries are the keys
with their values (`mem_entries_iff`). A table of counts has a sum (`total_alter`, `total_erase`). Both
can be collected from a list (`mem_collect`, `get?_collect_eq_some_iff`). Where the order of iteration
matters, it is an `Iteration`. -/

namespace CncContent.Lib.Maps

variable {κ α : Type*} [DecidableEq κ]

/-! ### Sets -/

structure Members (κ : Type*) where
  elems : List κ
  nodup : elems.Nodup
deriving DecidableEq

namespace Members

def empty : Members κ := ⟨[], List.nodup_nil⟩

/-- `insert`. -/
def add (s : Members κ) (k : κ) : Members κ := ⟨s.elems.insert k, s.nodup.insert⟩

/-- `remove`. -/
def remove (s : Members κ) (k : κ) : Members κ := ⟨s.elems.erase k, s.nodup.erase k⟩

instance : Membership κ (Members κ) := ⟨fun s k => k ∈ s.elems⟩

instance (k : κ) (s : Members κ) : Decidable (k ∈ s) := inferInstanceAs (Decidable (k ∈ s.elems))

omit [DecidableEq κ] in
theorem not_mem_empty {k : κ} : k ∉ (empty : Members κ) := List.not_mem_nil

theorem mem_add {s : Members κ} {k k' : κ} : k' ∈ s.add k ↔ k' = k ∨ k' ∈ s := List.mem_insert_iff

theorem mem_remove {s : Members κ} {k k' : κ} : k' ∈ s.remove k ↔ k' ≠ k ∧ k' ∈ s :=
  s.nodup.mem_erase_iff

/-- `collect`: the elements one after the other. -/
def collect (l : List κ) : Members κ := l.foldl add empty

theorem mem_foldl_add {k : κ} : ∀ {l : List κ} {s : Members κ}, k ∈ l.foldl add s ↔ k ∈ l ∨ k ∈ s
  | [], s => (or_iff_right List.not_mem_nil).symm
  | k' :: l, s => by
    rw [List.foldl_cons, mem_foldl_add, mem_add, List.mem_cons]
    exact or_left_comm.trans or_assoc.symm

theorem mem_collect {k : κ} {l : List κ} : k ∈ collect l ↔ k ∈ l :=
  mem_foldl_add.trans (or_iff_left not_mem_empty)

end Members

/-! ### Maps -/

@[ext] structure Table (κ α : Type*) where
  entries : List (κ × α)
  nodup : (entries.map Prod.fst).Nodup
deriving DecidableEq

/-- The value at the key. -/
def lookupKey : List (κ × α) → κ → Option α
  | [], _ => none
  | (k', v) :: l, k => if k' = k then some v else lookupKey l k

/-- The value at the key replaced, or a new entry at the end. -/
def alterKey (k : κ) (f : Option α → α) : List (κ × α) → List (κ × α)
  | [] => [(k, f none)]
  | (k', v) :: l => if k' = k then (k', f (some v)) :: l else (k', v) :: alterKey k f l

theorem mem_keys_alterKey {k k' : κ} {f : Option α → α} : ∀ {l : List (κ × α)},
    k' ∈ (alterKey k f l).map Prod.fst ↔ k' = k ∨ k' ∈ l.map Prod.fst
  | [] => by simp [alterKey]
  | (k'', v) :: l => by
    unfold alterKey
    split_ifs with h
    · subst h
      simp
    · rw [List.map_cons, List.mem_cons, mem_keys_alterKey, List.map_cons, List.mem_cons]
      exact or_left_comm

theorem nodup_alterKey {k : κ} {f : Option α → α} : ∀ {l : List (κ × α)},
    (l.map Prod.fst).Nodup → ((alterKey k f l).map Prod.fst).Nodup
  | [], _ => List.nodup_singleton _
  | (k', v) :: l, h => by
    obtain ⟨hnot, hl⟩ := List.nodup_cons.mp h
    unfold alterKey
    split_ifs with hk
    · exact List.nodup_cons.mpr ⟨hnot, hl⟩
    · refine List.nodup_cons.mpr ⟨?_, nodup_alterKey hl⟩
      rw [mem_keys_alterKey]
      exact fun hmem => hmem.elim hk hnot

theorem lookupKey_cons {k k' : κ} {v : α} {l : List (κ × α)} :
    lookupKey ((k', v) :: l) k = if k' = k then some v else lookupKey l k := rfl

theorem lookupKey_alterKey {k k' : κ} {f : Option α → α} : ∀ {l : List (κ × α)},
    lookupKey (alterKey k f l) k' = if k' = k then some (f (lookupKey l k)) else lookupKey l k'
  | [] => by
    rw [alterKey, lookupKey_cons]
    by_cases h : k' = k
    · rw [if_pos h, if_pos h.symm]
      rfl
    · rw [if_neg h, if_neg (Ne.symm h)]
  | (k'', v) :: l => by
    rw [alterKey, lookupKey_cons, lookupKey_cons]
    by_cases hk : k'' = k
    · subst hk
      rw [if_pos rfl, if_pos rfl, lookupKey_cons]
      by_cases h : k' = k''
      · rw [if_pos h, if_pos h.symm]
      · rw [if_neg h, if_neg (Ne.symm h), if_neg (Ne.symm h)]
    · rw [if_neg hk, if_neg hk, lookupKey_cons, lookupKey_alterKey]
      by_cases h : k'' = k'
      · rw [if_pos h, if_neg fun he => hk (h.trans he), if_pos h]
      · rw [if_neg h, if_neg h]

theorem lookupKey_filter {k k' : κ} : ∀ {l : List (κ × α)},
    lookupKey (l.filter fun e => e.1 ≠ k) k' = if k' = k then none else lookupKey l k'
  | [] => by
    split_ifs <;> rfl
  | (k'', v) :: l => by
    rw [lookupKey_cons]
    by_cases hk : k'' = k
    · rw [List.filter_cons_of_neg (by simp [hk]), lookupKey_filter]
      by_cases h : k' = k
      · rw [if_pos h, if_pos h]
      · rw [if_neg h, if_neg h, if_neg fun he => h (he.symm.trans hk)]
    · rw [List.filter_cons_of_pos (by simp [hk]), lookupKey_cons, lookupKey_filter]
      by_cases h : k'' = k'
      · rw [if_pos h, if_neg fun he => hk (h.trans he), if_pos h]
      · rw [if_neg h, if_neg h]

theorem lookupKey_mapKey {β : Type*} {f : κ → α → β} {k : κ} : ∀ {l : List (κ × α)},
    lookupKey (l.map fun e => (e.1, f e.1 e.2)) k = (lookupKey l k).map (f k)
  | [] => rfl
  | (k', v) :: l => by
    rw [List.map_cons, lookupKey_cons, lookupKey_cons, lookupKey_mapKey]
    split_ifs with h
    · subst h
      rfl
    · rfl

theorem length_alterKey_le {k : κ} {f : Option α → α} : ∀ {l : List (κ × α)},
    (alterKey k f l).length ≤ l.length + 1
  | [] => Nat.le_refl _
  | (k', v) :: l => by
    unfold alterKey
    split_ifs
    · exact Nat.le_succ _
    · exact Nat.succ_le_succ length_alterKey_le

theorem lookupKey_eq_none {k : κ} : ∀ {l : List (κ × α)}, k ∉ l.map Prod.fst → lookupKey l k = none
  | [], _ => rfl
  | (k', v) :: l, h => by
    obtain ⟨hk, hl⟩ := not_or.mp (mt List.mem_cons.mpr h)
    rw [lookupKey_cons, if_neg (Ne.symm hk), lookupKey_eq_none hl]

theorem lookupKey_retain {p : κ → α → Bool} {k : κ} : ∀ {l : List (κ × α)},
    (l.map Prod.fst).Nodup → lookupKey (l.filter fun e => p e.1 e.2) k = (lookupKey l k).filter (p k)
  | [], _ => rfl
  | (k', v) :: l, h => by
    obtain ⟨hnot, hl⟩ := List.nodup_cons.mp h
    rw [List.filter_cons, lookupKey_cons]
    by_cases hk : k' = k
    · subst hk
      rw [if_pos rfl, Option.filter_some]
      dsimp only
      split_ifs
      · rw [lookupKey_cons, if_pos rfl]
      · rw [lookupKey_retain hl, lookupKey_eq_none hnot]
        rfl
    · rw [if_neg hk]
      split_ifs
      · rw [lookupKey_cons, if_neg hk, lookupKey_retain hl]
      · exact lookupKey_retain hl

/-- The sum of the values. -/
def sumValues : List (κ × ℕ) → ℕ
  | [] => 0
  | e :: l => e.2 + sumValues l

omit [DecidableEq κ] in
theorem sumValues_cons {e : κ × ℕ} {l : List (κ × ℕ)} : sumValues (e :: l) = e.2 + sumValues l := rfl

omit [DecidableEq κ] in
theorem sumValues_le {m : ℕ} : ∀ {l : List (κ × ℕ)}, (∀ e ∈ l, e.2 ≤ m) →
    sumValues l ≤ l.length * m
  | [], _ => Nat.zero_le _
  | e :: l, h => by
    have ih := sumValues_le fun e' he' => h e' (List.mem_cons_of_mem e he')
    have he := h e List.mem_cons_self
    rw [sumValues_cons, List.length_cons, Nat.succ_mul]
    omega

theorem sumValues_alterKey {k : κ} {f : Option ℕ → ℕ} : ∀ {l : List (κ × ℕ)},
    sumValues (alterKey k f l) + (lookupKey l k).getD 0 = sumValues l + f (lookupKey l k)
  | [] => (Nat.zero_add _).symm
  | (k', v) :: l => by
    have ih := sumValues_alterKey (k := k) (f := f) (l := l)
    rw [alterKey, lookupKey_cons]
    split_ifs with h
    · rw [sumValues_cons, sumValues_cons, Option.getD_some]
      dsimp only
      omega
    · rw [sumValues_cons, sumValues_cons]
      dsimp only
      omega

theorem sumValues_filter {k : κ} : ∀ {l : List (κ × ℕ)}, (l.map Prod.fst).Nodup →
    sumValues (l.filter fun e => e.1 ≠ k) + (lookupKey l k).getD 0 = sumValues l
  | [], _ => rfl
  | (k', v) :: l, h => by
    obtain ⟨hnot, hl⟩ := List.nodup_cons.mp h
    rw [lookupKey_cons]
    by_cases hk : k' = k
    · subst hk
      have hsame : l.filter (fun e => e.1 ≠ k') = l := by
        refine List.filter_eq_self.mpr fun e he => decide_eq_true fun h => hnot ?_
        exact List.mem_map.mpr ⟨e, he, h⟩
      rw [List.filter_cons_of_neg (by simp), if_pos rfl, hsame, sumValues_cons, Option.getD_some]
      exact Nat.add_comm _ _
    · have ih := sumValues_filter (k := k) hl
      rw [List.filter_cons_of_pos (by simp [hk]), if_neg hk, sumValues_cons, sumValues_cons]
      omega

theorem mem_iff_lookupKey {k : κ} {v : α} : ∀ {l : List (κ × α)}, (l.map Prod.fst).Nodup →
    ((k, v) ∈ l ↔ lookupKey l k = some v)
  | [], _ => ⟨nofun, nofun⟩
  | (k', v') :: l, h => by
    obtain ⟨hnot, hl⟩ := List.nodup_cons.mp h
    rw [List.mem_cons, lookupKey_cons, mem_iff_lookupKey hl]
    split_ifs with hk
    · subst hk
      have hnone : lookupKey l k' ≠ some v := by
        rw [lookupKey_eq_none hnot]
        exact nofun
      rw [or_iff_left hnone, Prod.mk.injEq, Option.some.injEq]
      exact ⟨fun hc => hc.2.symm, fun hc => ⟨rfl, hc.symm⟩⟩
    · exact or_iff_right fun hc => hk (Prod.mk.inj hc).1.symm

namespace Table

variable (t : Table κ α)

def empty : Table κ α := ⟨[], List.nodup_nil⟩

/-- `get`. -/
def get? (k : κ) : Option α := lookupKey t.entries k

/-- The value at the key is changed; a key that is not there is added. -/
def alter (k : κ) (f : Option α → α) : Table κ α :=
  ⟨alterKey k f t.entries, nodup_alterKey t.nodup⟩

/-- `remove`. -/
def erase (k : κ) : Table κ α :=
  ⟨t.entries.filter fun e => e.1 ≠ k, t.nodup.sublist (List.filter_sublist.map _)⟩

omit [DecidableEq κ] in
theorem nodup_mapValues {β : Type*} (f : α → β) :
    ((t.entries.map fun e => (e.1, f e.2)).map Prod.fst).Nodup := by
  rw [List.map_map]
  exact t.nodup

/-- The values changed, one by one. -/
def mapValues {β : Type*} (f : α → β) : Table κ β :=
  ⟨t.entries.map fun e => (e.1, f e.2), t.nodup_mapValues f⟩

theorem nodup_modify (k : κ) (f : α → α) :
    ((t.entries.map fun e => (e.1, if e.1 = k then f e.2 else e.2)).map Prod.fst).Nodup := by
  rw [List.map_map]
  exact t.nodup

/-- The value at the key changed in place, as through `get_mut`; without the key nothing changes. -/
def modify (k : κ) (f : α → α) : Table κ α :=
  ⟨t.entries.map fun e => (e.1, if e.1 = k then f e.2 else e.2), t.nodup_modify k f⟩

/-- `retain`. -/
def retain (p : κ → α → Bool) : Table κ α :=
  ⟨t.entries.filter fun e => p e.1 e.2, t.nodup.sublist (List.filter_sublist.map _)⟩

/-- `len`. -/
def size : ℕ := t.entries.length

/-- `collect`: the entries one after the other, a later one in place of an earlier one. -/
def collect (l : List (κ × α)) : Table κ α := l.foldl (fun t e => t.alter e.1 fun _ => e.2) empty

variable {t}

theorem get?_empty (k : κ) : (empty : Table κ α).get? k = none := rfl

theorem get?_alter {k k' : κ} {f : Option α → α} :
    (t.alter k f).get? k' = if k' = k then some (f (t.get? k)) else t.get? k' :=
  lookupKey_alterKey

theorem get?_erase {k k' : κ} : (t.erase k).get? k' = if k' = k then none else t.get? k' :=
  lookupKey_filter

theorem get?_mapValues {β : Type*} {f : α → β} {k : κ} :
    (t.mapValues f).get? k = (t.get? k).map f :=
  lookupKey_mapKey (f := fun _ => f)

theorem get?_modify {k k' : κ} {f : α → α} :
    (t.modify k f).get? k' = if k' = k then (t.get? k).map f else t.get? k' := by
  unfold modify get?
  rw [lookupKey_mapKey (f := fun k'' v => if k'' = k then f v else v)]
  split_ifs with h
  · subst h
    rfl
  · exact Option.map_id'

theorem get?_retain {p : κ → α → Bool} {k : κ} : (t.retain p).get? k = (t.get? k).filter (p k) :=
  lookupKey_retain t.nodup

theorem size_alter_le {k : κ} {f : Option α → α} : (t.alter k f).size ≤ t.size + 1 :=
  length_alterKey_le

theorem size_erase_le {k : κ} : (t.erase k).size ≤ t.size := List.length_filter_le _ _

theorem size_modify {k : κ} {f : α → α} : (t.modify k f).size = t.size := List.length_map _

/-- **The entries** are the keys with their values. -/
theorem mem_entries_iff {k : κ} {v : α} : (k, v) ∈ t.entries ↔ t.get? k = some v :=
  mem_iff_lookupKey t.nodup

/-- The keys of the entries. -/
theorem mem_keys_iff {k : κ} : k ∈ t.entries.map Prod.fst ↔ (t.get? k).isSome := by
  rw [List.mem_map, Option.isSome_iff_exists]
  constructor
  · rintro ⟨⟨_, v⟩, he, rfl⟩
    exact ⟨v, mem_entries_iff.mp he⟩
  · rintro ⟨v, hv⟩
    exact ⟨(k, v), mem_entries_iff.mpr hv, rfl⟩

/-- A list of the keys has the size of the table. -/
theorem size_eq_length {l : List κ} (hl : l.Nodup) (hmem : ∀ k, k ∈ l ↔ (t.get? k).isSome) :
    t.size = l.length := by
  have hperm : (t.entries.map Prod.fst).Perm l :=
    (List.perm_ext_iff_of_nodup t.nodup hl).mpr fun k => mem_keys_iff.trans (hmem k).symm
  exact (List.length_map _).symm.trans hperm.length_eq

/-- The sum of the counts. -/
def total (t : Table κ ℕ) : ℕ := sumValues t.entries

theorem total_alter {t : Table κ ℕ} {k : κ} {f : Option ℕ → ℕ} :
    (t.alter k f).total + (t.get? k).getD 0 = t.total + f (t.get? k) := sumValues_alterKey

theorem total_erase {t : Table κ ℕ} {k : κ} : (t.erase k).total + (t.get? k).getD 0 = t.total :=
  sumValues_filter t.nodup

/-- A sum of bounded counts. -/
theorem total_le {t : Table κ ℕ} {m : ℕ} (h : ∀ k v, t.get? k = some v → v ≤ m) :
    t.total ≤ t.size * m :=
  sumValues_le fun _ he => h _ _ (mem_entries_iff.mp he)

/-- Two tables with the same values have the same entries. -/
theorem entries_perm {t' : Table κ α} (h : ∀ k, t.get? k = t'.get? k) :
    t.entries.Perm t'.entries := by
  refine (List.perm_ext_iff_of_nodup t.nodup.of_map t'.nodup.of_map).mpr fun ⟨k, v⟩ => ?_
  rw [mem_entries_iff, mem_entries_iff, h]

theorem mapValues_alter {β : Type*} {f : α → β} {k : κ} {v : α} :
    (t.alter k fun _ => v).mapValues f = (t.mapValues f).alter k fun _ => f v := by
  have hmap : ∀ l : List (κ × α), (alterKey k (fun _ => v) l).map (fun e => (e.1, f e.2)) =
      alterKey k (fun _ => f v) (l.map fun e => (e.1, f e.2)) := by
    intro l
    induction l with
    | nil => rfl
    | cons e l ih =>
      rw [List.map_cons, alterKey, alterKey]
      split_ifs
      · rfl
      · rw [List.map_cons, ih]
  exact Table.ext (hmap t.entries)

theorem mapValues_erase {β : Type*} {f : α → β} {k : κ} :
    (t.erase k).mapValues f = (t.mapValues f).erase k := by
  refine Table.ext ?_
  show (t.entries.filter _).map _ = (t.entries.map _).filter _
  rw [List.filter_map]
  rfl

/-- A change of the values that `f` does not see. -/
theorem mapValues_modify {β : Type*} {f : α → β} {k : κ} {g : α → α} (h : ∀ v, f (g v) = f v) :
    (t.modify k g).mapValues f = t.mapValues f := by
  refine Table.ext (List.map_map.trans (List.map_congr_left fun e _ => ?_))
  show (e.1, f (if e.1 = k then g e.2 else e.2)) = (e.1, f e.2)
  split_ifs
  · rw [h]
  · rfl

theorem get?_foldl_alter {k : κ} : ∀ {l : List (κ × α)} {t : Table κ α}, (l.map Prod.fst).Nodup →
    (l.foldl (fun t e => t.alter e.1 fun _ => e.2) t).get? k = (lookupKey l k).or (t.get? k)
  | [], _, _ => rfl
  | (k', v) :: l, t, h => by
    obtain ⟨hnot, hl⟩ := List.nodup_cons.mp h
    rw [List.foldl_cons, get?_foldl_alter hl, get?_alter, lookupKey_cons]
    by_cases hk : k' = k
    · subst hk
      rw [lookupKey_eq_none hnot, if_pos rfl, if_pos rfl]
      rfl
    · rw [if_neg hk, if_neg (Ne.symm hk)]

/-- **What is collected** is what was there, if no key was there twice. -/
theorem get?_collect_eq_some_iff {k : κ} {v : α} {l : List (κ × α)} (h : (l.map Prod.fst).Nodup) :
    (collect l).get? k = some v ↔ (k, v) ∈ l := by
  unfold collect
  rw [get?_foldl_alter h, get?_empty, Option.or_none, mem_iff_lookupKey h]

end Table

/-! ### Iteration -/

/-- An order of iteration: the entries of each table, in some order. -/
structure Iteration (κ α : Type*) where
  order : Table κ α → List (κ × α)
  perm : ∀ t, (order t).Perm t.entries

namespace Iteration

/-- The order in which the entries are listed. -/
def listed : Iteration κ α := ⟨fun t => t.entries, fun _ => List.Perm.refl _⟩

/-- The order in which the entries are listed, from the last one. -/
def reversed : Iteration κ α := ⟨fun t => t.entries.reverse, fun t => List.reverse_perm t.entries⟩

/-- The given order for one table. -/
def onTable [DecidableEq α] (t : Table κ α) (l : List (κ × α)) (h : l.Perm t.entries) : Iteration κ α where
  order t' := if t' = t then l else t'.entries
  perm t' := by
    split_ifs with he
    · exact he ▸ h
    · exact List.Perm.refl _

theorem order_onTable [DecidableEq α] {t : Table κ α} {l : List (κ × α)} (h : l.Perm t.entries) :
    (onTable t l h).order t = l := if_pos rfl

end Iteration

end CncContent.Lib.Maps
