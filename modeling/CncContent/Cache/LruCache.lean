import CncContent.Lib.Bounded
import CncContent.Lib.Maps
import CncContent.Lib.Recency
import CncContent.Lib.Runs

/-! # The LRU piece cache

`PieceCache` of the source, which keeps the sizes of the cached pieces and the order of their use. A
`History` is a cache with the uses of its pieces, the latest first, and the piece evicted by the last
call. What a cache promises (`Sound`) holds throughout a run unless something is inserted into a cache
of capacity 0 (`lru_sound_iff`): `insert` evicts before it adds, so that the piece added stays. -/

namespace CncContent.Cache.LruCache

open CncContent.Lib CncContent.Lib.Bounded CncContent.Lib.Maps CncContent.Lib.Recency

def defaultCacheCapacity : UInt32 := 1024

structure CacheEntry where
  sizeBytes : UInt32
  lastAccess : ℕ
deriving DecidableEq, Repr

structure PieceCache where
  capacity : UInt32
  entries : Table UInt32 CacheEntry
  lruOrder : List UInt32
  totalBytes : ℕ
deriving DecidableEq

namespace PieceCache

def withCapacity (capacity : UInt32) : PieceCache := ⟨capacity, Table.empty, [], 0⟩

def new : PieceCache := withCapacity defaultCacheCapacity

variable (c : PieceCache)

def contains (pieceIndex : UInt32) : Bool := (c.entries.get? pieceIndex).isSome

def len : ℕ := asU32 c.entries.size

def touch (pieceIndex : UInt32) (now : ℕ) : PieceCache :=
  match c.entries.get? pieceIndex with
  | some _ =>
    { c with
      entries := c.entries.modify pieceIndex fun e => { e with lastAccess := now }
      lruOrder := pieceIndex :: c.lruOrder.erase pieceIndex }
  | none => c

def remove (pieceIndex : UInt32) : Bool × PieceCache :=
  match c.entries.get? pieceIndex with
  | some entry =>
    (true, { c with
      entries := c.entries.erase pieceIndex
      totalBytes := c.totalBytes - entry.sizeBytes.toNat
      lruOrder := c.lruOrder.erase pieceIndex })
  | none => (false, c)

/-- `entries.remove`, with the byte count. -/
def dropEntry (pieceIndex : UInt32) : PieceCache :=
  match c.entries.get? pieceIndex with
  | some entry =>
    { c with
      entries := c.entries.erase pieceIndex
      totalBytes := c.totalBytes - entry.sizeBytes.toNat }
  | none => c

def evictLru : Option UInt32 × PieceCache :=
  match c.lruOrder.getLast? with
  | some evictedIdx =>
    (some evictedIdx, { c with lruOrder := c.lruOrder.dropLast }.dropEntry evictedIdx)
  | none => (none, c)

/-- The piece added as the most recently used. -/
def put (pieceIndex sizeBytes : UInt32) (now : ℕ) : PieceCache :=
  { c with
    entries := c.entries.alter pieceIndex fun _ => ⟨sizeBytes, now⟩
    lruOrder := pieceIndex :: c.lruOrder
    totalBytes := satAdd u64Max c.totalBytes sizeBytes.toNat }

def insert (pieceIndex sizeBytes : UInt32) (now : ℕ) : Option UInt32 × PieceCache :=
  if c.contains pieceIndex then (none, c.touch pieceIndex now)
  else
    let evicted := if c.capacity.toNat ≤ c.len then c.evictLru else (none, c)
    (evicted.1, evicted.2.put pieceIndex sizeBytes now)

/-- The sizes stored in the entries. -/
def sizes : Table UInt32 ℕ := c.entries.mapValues fun e => e.sizeBytes.toNat

end PieceCache

/-! ### Histories -/

inductive Call
  | insert (pieceIndex sizeBytes : UInt32) (now : ℕ)
  | touch (pieceIndex : UInt32) (now : ℕ)
  | remove (pieceIndex : UInt32)
deriving DecidableEq, Repr

def Call.isInsert : Call → Bool
  | .insert _ _ _ => true
  | .touch _ _ | .remove _ => false

/-- A cache, the uses of its pieces with the latest first, and what the last call has evicted. -/
structure History where
  cache : PieceCache
  uses : List UInt32
  evicted : Option UInt32
deriving DecidableEq

namespace History

def start (capacity : UInt32) : History := ⟨PieceCache.withCapacity capacity, [], none⟩

/-- One call. An insert uses its piece, and a touch does if the piece is cached. -/
def perform (h : History) : Call → History
  | .insert i size now => ⟨(h.cache.insert i size now).2, i :: h.uses, (h.cache.insert i size now).1⟩
  | .touch i now =>
    ⟨h.cache.touch i now, if h.cache.contains i then i :: h.uses else h.uses, none⟩
  | .remove i => ⟨(h.cache.remove i).2, h.uses, none⟩

/-- Every call is possible. -/
def step (h : History) (call : Call) : Option History := some (h.perform call)

theorem exists_step (h : History) (call : Call) : ∃ h', h.step call = some h' := ⟨_, rfl⟩

end History

/-- The order lists the cached pieces, each once, from the most to the least recently used, and the byte
count is the sum of the sizes. -/
structure Agrees (uses : List UInt32) (c : PieceCache) : Prop where
  nodup : c.lruOrder.Nodup
  mem_order : ∀ i, i ∈ c.lruOrder ↔ c.contains i
  used : ∀ i ∈ c.lruOrder, i ∈ uses
  order : ByRecency uses c.lruOrder
  bytes : c.totalBytes = c.sizes.total

/-- **What the cache promises**: order, entries and byte count agree, the capacity is not exceeded, and
what the last call has evicted was used less recently than all that remains. -/
structure Sound (h : History) : Prop extends Agrees h.uses h.cache where
  bounded : h.cache.entries.size ≤ h.cache.capacity.toNat
  evicted_least : ∀ i, h.evicted = some i →
    i ∈ h.uses ∧ h.cache.contains i = false ∧ ∀ j, h.cache.contains j → UsedLater h.uses j i

/-! ### Operations -/

section Operations

variable {c : PieceCache} {uses : List UInt32} {i size : UInt32} {now : ℕ}

theorem Agrees.size_eq (h : Agrees uses c) : c.entries.size = c.lruOrder.length :=
  Table.size_eq_length h.nodup h.mem_order

theorem agrees_start (capacity : UInt32) : Agrees [] (PieceCache.withCapacity capacity) where
  nodup := List.nodup_nil
  mem_order _ := ⟨nofun, nofun⟩
  used := nofun
  order := List.Pairwise.nil
  bytes := rfl

theorem get?_sizes : c.sizes.get? i = (c.entries.get? i).map fun e => e.sizeBytes.toNat :=
  Table.get?_mapValues

theorem sizes_total_le : c.sizes.total ≤ c.entries.size * u32Max := by
  have hsize : c.sizes.size = c.entries.size := List.length_map _
  rw [← hsize]
  refine Table.total_le fun k v hv => ?_
  rw [get?_sizes, Option.map_eq_some_iff] at hv
  obtain ⟨e, -, rfl⟩ := hv
  exact Nat.le_of_lt_succ e.sizeBytes.toNat_lt

theorem touch_of_contains (hi : c.contains i = true) : c.touch i now = { c with
    entries := c.entries.modify i fun e => { e with lastAccess := now }
    lruOrder := i :: c.lruOrder.erase i } := by
  obtain ⟨e, he⟩ := Option.isSome_iff_exists.mp hi
  unfold PieceCache.touch
  rw [he]

theorem touch_of_not_contains (hi : c.contains i = false) : c.touch i now = c := by
  unfold PieceCache.touch
  rw [Option.isSome_eq_false_iff.mp hi |> Option.isNone_iff_eq_none.mp]

theorem contains_touch (j : UInt32) : (c.touch i now).contains j = c.contains j := by
  rcases hi : c.contains i with _ | _
  · rw [touch_of_not_contains hi]
  · rw [touch_of_contains hi]
    unfold PieceCache.contains
    rw [Table.get?_modify]
    split_ifs with hij
    · rw [hij, Option.isSome_map]
    · rfl

/-- Touching a piece moves it to the front of the order. -/
theorem Agrees.touch (h : Agrees uses c) (hi : c.contains i = true) (now : ℕ) :
    Agrees (i :: uses) (c.touch i now) := by
  have hnot : i ∉ c.lruOrder.erase i := List.Nodup.not_mem_erase h.nodup
  have hmem : ∀ j, j ∈ i :: c.lruOrder.erase i ↔ j ∈ c.lruOrder := fun j =>
    (List.perm_cons_erase ((h.mem_order i).mpr hi)).mem_iff.symm
  have hlru : (c.touch i now).lruOrder = i :: c.lruOrder.erase i := by rw [touch_of_contains hi]
  constructor
  · rw [hlru]
    exact List.nodup_cons.mpr ⟨hnot, h.nodup.erase i⟩
  · intro j
    rw [hlru, hmem, h.mem_order, contains_touch]
  · intro j hj
    rw [hlru, hmem] at hj
    exact List.mem_cons_of_mem i (h.used j hj)
  · rw [hlru]
    exact (h.order.sublist List.erase_sublist).use hnot
  · have hsizes : (c.touch i now).sizes = c.sizes := by
      rw [touch_of_contains hi]
      show (c.entries.modify i fun e => { e with lastAccess := now }).mapValues _ = _
      exact Table.mapValues_modify fun e => rfl
    rw [hsizes, touch_of_contains hi]
    exact h.bytes

/-- The cache without a piece. -/
def PieceCache.without (c : PieceCache) (i : UInt32) : PieceCache :=
  { c.dropEntry i with lruOrder := c.lruOrder.erase i }

theorem dropEntry_eq {e : CacheEntry} (he : c.entries.get? i = some e) : c.dropEntry i = { c with
    entries := c.entries.erase i
    totalBytes := c.totalBytes - e.sizeBytes.toNat } := by
  unfold PieceCache.dropEntry
  rw [he]

theorem remove_of_contains (hi : c.contains i = true) : c.remove i = (true, c.without i) := by
  obtain ⟨e, he⟩ := Option.isSome_iff_exists.mp hi
  unfold PieceCache.remove PieceCache.without
  rw [dropEntry_eq he, he]

theorem remove_of_not_contains (hi : c.contains i = false) : c.remove i = (false, c) := by
  unfold PieceCache.remove
  rw [Option.isSome_eq_false_iff.mp hi |> Option.isNone_iff_eq_none.mp]

theorem contains_without (hi : c.contains i = true) (j : UInt32) :
    (c.without i).contains j = (decide (j ≠ i) && c.contains j) := by
  obtain ⟨e, he⟩ := Option.isSome_iff_exists.mp hi
  unfold PieceCache.without PieceCache.contains
  rw [dropEntry_eq he, Table.get?_erase]
  split_ifs with hij
  · rw [decide_eq_false fun hne => hne hij]
    rfl
  · rw [decide_eq_true hij]
    rfl

theorem capacity_without (i : UInt32) : (c.without i).capacity = c.capacity := by
  unfold PieceCache.without PieceCache.dropEntry
  split <;> rfl

theorem Agrees.without (h : Agrees uses c) (hi : c.contains i = true) : Agrees uses (c.without i) := by
  obtain ⟨e, he⟩ := Option.isSome_iff_exists.mp hi
  constructor
  · exact h.nodup.erase i
  · intro j
    rw [contains_without hi, Bool.and_eq_true, decide_eq_true_iff, ← h.mem_order]
    exact h.nodup.mem_erase_iff
  · exact fun j hj => h.used j (List.mem_of_mem_erase hj)
  · exact h.order.sublist List.erase_sublist
  · have htotal := Table.total_erase (t := c.sizes) (k := i)
    rw [get?_sizes, he] at htotal
    have hsizes : (c.without i).sizes = c.sizes.erase i := by
      unfold PieceCache.without PieceCache.sizes
      rw [dropEntry_eq he]
      exact Table.mapValues_erase
    rw [hsizes]
    unfold PieceCache.without
    rw [dropEntry_eq he]
    show c.totalBytes - e.sizeBytes.toNat = _
    rw [h.bytes, ← htotal]
    exact Nat.add_sub_cancel _ _

theorem length_without (h : Agrees uses c) (hi : c.contains i = true) :
    (c.without i).entries.size + 1 = c.entries.size := by
  have hmem := (h.mem_order i).mpr hi
  rw [(h.without hi).size_eq, h.size_eq]
  show (c.lruOrder.erase i).length + 1 = _
  rw [List.length_erase_of_mem hmem]
  exact Nat.sub_add_cancel (List.length_pos_of_mem hmem)

/-- **Evicting** removes the least recently used piece, if there is one. -/
theorem evictLru_cases (h : Agrees uses c) :
    (c.evictLru = (none, c) ∧ c.lruOrder = []) ∨
      ∃ i, c.evictLru = (some i, c.without i) ∧ c.contains i = true ∧
        ∀ j, (c.without i).contains j = true → UsedLater uses j i := by
  rcases List.eq_nil_or_concat' c.lruOrder with hnil | ⟨rest, i, hlru⟩
  · left
    unfold PieceCache.evictLru
    rw [hnil]
    exact ⟨rfl, rfl⟩
  · right
    have hmem : i ∈ c.lruOrder := hlru ▸ List.mem_append_right _ (List.mem_singleton_self i)
    have hi := (h.mem_order i).mp hmem
    have hnodup := h.nodup
    rw [hlru] at hnodup
    have hnot : i ∉ rest := fun hr =>
      List.disjoint_of_nodup_append hnodup hr (List.mem_singleton_self i)
    have hrest : c.lruOrder.erase i = rest := by
      rw [hlru, List.erase_append_right _ hnot, List.erase_cons_head, List.append_nil]
    refine ⟨i, ?_, hi, fun j hj => ?_⟩
    · unfold PieceCache.evictLru PieceCache.without
      rw [hrest, hlru, List.getLast?_concat, List.dropLast_concat]
      obtain ⟨e, he⟩ := Option.isSome_iff_exists.mp hi
      show (some i, PieceCache.dropEntry { c with lruOrder := rest } i) = _
      rw [dropEntry_eq he, dropEntry_eq (c := { c with lruOrder := rest }) he]
    · have hj' := ((h.without hi).mem_order j).mpr hj
      have horder := h.order
      rw [hlru] at horder
      exact horder.last (hrest ▸ hj')

theorem contains_put (j : UInt32) :
    (c.put i size now).contains j = (decide (j = i) || c.contains j) := by
  show ((c.entries.alter i _).get? j).isSome = _
  rw [Table.get?_alter]
  split_ifs with hij
  · rw [decide_eq_true hij]
    rfl
  · rw [decide_eq_false hij]
    rfl

/-- A piece that is not cached is put at the front of the order. -/
theorem Agrees.put (h : Agrees uses c) (hi : c.contains i = false)
    (hsize : c.entries.size + 1 < 2 ^ 32) (size : UInt32) (now : ℕ) :
    Agrees (i :: uses) (c.put i size now) := by
  have hget : c.entries.get? i = none :=
    Option.isSome_eq_false_iff.mp hi |> Option.isNone_iff_eq_none.mp
  have hnot : i ∉ c.lruOrder := by
    rw [h.mem_order, hi]
    exact Bool.false_ne_true
  constructor
  · exact List.nodup_cons.mpr ⟨hnot, h.nodup⟩
  · intro j
    rw [contains_put, Bool.or_eq_true, decide_eq_true_iff, ← h.mem_order]
    exact List.mem_cons
  · intro j hj
    rcases List.mem_cons.mp hj with rfl | hj
    · exact List.mem_cons_self
    · exact List.mem_cons_of_mem i (h.used j hj)
  · exact h.order.use hnot
  · have htotal := Table.total_alter (t := c.sizes) (k := i) (f := fun _ => size.toNat)
    rw [get?_sizes, hget] at htotal
    have hsizes : (c.put i size now).sizes.total = c.sizes.total + size.toNat := by
      refine (congrArg Table.total Table.mapValues_alter).trans ?_
      exact htotal
    have hle := sizes_total_le (c := c)
    have hbound : c.entries.size * u32Max ≤ (2 ^ 32 - 2) * u32Max :=
      Nat.mul_le_mul_right _ (by omega)
    have hnum : (2 ^ 32 - 2) * u32Max + 2 ^ 32 ≤ u64Max := by decide
    have hlt := size.toNat_lt
    rw [hsizes, ← h.bytes]
    refine satAdd_of_le ?_
    rw [h.bytes]
    omega

theorem size_put (h : Agrees uses c) (hi : c.contains i = false)
    (hsize : c.entries.size + 1 < 2 ^ 32) (size : UInt32) (now : ℕ) :
    (c.put i size now).entries.size = c.entries.size + 1 := by
  rw [(h.put hi hsize size now).size_eq, h.size_eq]
  rfl

theorem size_touch : (c.touch i now).entries.size = c.entries.size := by
  rcases hi : c.contains i with _ | _
  · rw [touch_of_not_contains hi]
  · rw [touch_of_contains hi]
    exact Table.size_modify

theorem capacity_touch : (c.touch i now).capacity = c.capacity := by
  rcases hi : c.contains i with _ | _
  · rw [touch_of_not_contains hi]
  · rw [touch_of_contains hi]

theorem len_eq (h : c.entries.size < 2 ^ 32) : c.len = c.entries.size := asU32_of_lt h

end Operations

/-! ### Runs -/

/-- What every history keeps: order, entries and byte count agree, and the capacity is exceeded by
nothing but a first piece. -/
structure Held (capacity : UInt32) (h : History) : Prop extends Agrees h.uses h.cache where
  capacity_eq : h.cache.capacity = capacity
  size_le : h.cache.entries.size ≤ max capacity.toNat 1

section Runs

variable {capacity : UInt32} {h : History}

theorem Held.size_lt (hh : Held capacity h) : h.cache.entries.size < 2 ^ 32 := by
  have hlt := capacity.toNat_lt
  have hle := hh.size_le
  omega

/-- An insert of a piece that is not cached: what is evicted, and the cache it is put into. -/
theorem insert_cases (hh : Held capacity h) {i : UInt32}
    (hi : h.cache.contains i = false) (size : UInt32) (now : ℕ) : ∃ evicted c, h.cache.insert i size now =
      (evicted, c.put i size now) ∧ Agrees h.uses c ∧ c.contains i = false ∧
      c.capacity = capacity ∧ c.entries.size + 1 ≤ max capacity.toNat 1 ∧
      ∀ j, evicted = some j → h.cache.contains j = true ∧ c.contains j = false ∧
        ∀ k, c.contains k = true → UsedLater h.uses k j := by
  have hinsert : ∀ p : Option UInt32 × PieceCache,
      (if h.cache.capacity.toNat ≤ h.cache.len then h.cache.evictLru else (none, h.cache)) = p →
      h.cache.insert i size now = (p.1, p.2.put i size now) := by
    rintro p rfl
    unfold PieceCache.insert
    rw [hi]
    rfl
  have hlen := len_eq hh.size_lt
  have hcap := hh.capacity_eq
  have hsize := hh.size_le
  by_cases hfull : h.cache.capacity.toNat ≤ h.cache.len
  · rcases evictLru_cases hh.toAgrees with ⟨hev, hnil⟩ | ⟨j, hev, hj, hleast⟩
    · refine ⟨none, h.cache, hinsert _ ((if_pos hfull).trans hev), hh.toAgrees, hi, hcap, ?_, nofun⟩
      rw [hh.size_eq, hnil]
      exact Nat.le_max_right _ _
    · have hout : (h.cache.without j).contains j = false := by
        rw [contains_without hj, decide_eq_false fun hne => hne rfl]
        rfl
      have hins := hinsert _ ((if_pos hfull).trans hev)
      refine ⟨some j, h.cache.without j, hins, hh.without hj, ?_, ?_, ?_, ?_⟩
      · rw [contains_without hj, hi, Bool.and_false]
      · exact (capacity_without j).trans hcap
      · rw [length_without hh.toAgrees hj]
        exact hsize
      · intro j' he
        cases he
        exact ⟨hj, hout, hleast⟩
  · refine ⟨none, h.cache, hinsert _ (if_neg hfull), hh.toAgrees, hi, hcap, ?_, nofun⟩
    rw [hlen, hcap] at hfull
    omega

theorem held_touch (hh : Held capacity h) (i : UInt32) (now : ℕ) :
    Held capacity (h.perform (.touch i now)) ∧
      (h.cache.entries.size ≤ capacity.toNat → Sound (h.perform (.touch i now))) := by
  have hcap : (h.cache.touch i now).capacity = capacity := capacity_touch.trans hh.capacity_eq
  have hagrees : Agrees (if h.cache.contains i then i :: h.uses else h.uses)
      (h.cache.touch i now) := by
    split_ifs with hi
    · exact hh.touch hi now
    · rw [touch_of_not_contains (Bool.eq_false_iff.mpr hi)]
      exact hh.toAgrees
  have hsize := Nat.le_trans (Nat.le_of_eq (size_touch : (h.cache.touch i now).entries.size = _)) hh.size_le
  refine ⟨⟨hagrees, hcap, hsize⟩, fun hle => ⟨hagrees, ?_, nofun⟩⟩
  show (h.cache.touch i now).entries.size ≤ (h.cache.touch i now).capacity.toNat
  rw [size_touch, hcap]
  exact hle

/-- To insert a cached piece is to touch it. -/
theorem perform_insert_of_contains {i : UInt32} (hi : h.cache.contains i = true) (size : UInt32)
    (now : ℕ) : h.perform (.insert i size now) = h.perform (.touch i now) := by
  have hins : h.cache.insert i size now = (none, h.cache.touch i now) := if_pos hi
  show History.mk _ _ _ = History.mk _ (if _ then _ else _) _
  rw [hins, if_pos hi]

theorem perform_insert {i size : UInt32} {now : ℕ} {evicted : Option UInt32} {c : PieceCache}
    (hins : h.cache.insert i size now = (evicted, c.put i size now)) :
    h.perform (.insert i size now) = ⟨c.put i size now, i :: h.uses, evicted⟩ := by
  show History.mk _ _ _ = _
  rw [hins]

/-- An insert keeps what the cache promises, up to its capacity. -/
theorem held_insert (hh : Held capacity h) (i size : UInt32) (now : ℕ) :
    Held capacity (h.perform (.insert i size now)) ∧
      (capacity ≠ 0 → Sound (h.perform (.insert i size now))) ∧
      0 < (h.perform (.insert i size now)).cache.entries.size := by
  have hone : capacity ≠ 0 → max capacity.toNat 1 ≤ capacity.toNat := fun hne => by
    have hpos : capacity.toNat ≠ 0 := fun h0 => hne (UInt32.toNat_inj.mp h0)
    omega
  rcases hi : h.cache.contains i with _ | _
  · obtain ⟨evicted, c, hins, hc, hic, hcap, hsize, hev⟩ := insert_cases hh hi size now
    have hlt := capacity.toNat_lt
    have hput := size_put hc hic (by omega) size now
    have hagrees := hc.put hic (by omega) size now
    rw [perform_insert hins]
    refine ⟨⟨hagrees, hcap, ?_⟩, fun hne => ⟨hagrees, ?_, fun j hj => ?_⟩, ?_⟩
    · show (c.put i size now).entries.size ≤ _
      omega
    · have hle := hone hne
      show (c.put i size now).entries.size ≤ c.capacity.toNat
      rw [hput, hcap]
      omega
    · obtain ⟨hin, hout, hleast⟩ := hev j hj
      have hne : j ≠ i := by
        rintro rfl
        rw [hi] at hin
        cases hin
      refine ⟨List.mem_cons_of_mem i (hh.used j ((hh.mem_order j).mpr hin)), ?_, fun k hk => ?_⟩
      · show (c.put i size now).contains j = false
        rw [contains_put, decide_eq_false hne, hout]
        rfl
      · rw [contains_put, Bool.or_eq_true, decide_eq_true_iff] at hk
        exact usedLater_cons.mpr ⟨hne, hk.imp_right (hleast k)⟩
    · show 0 < (c.put i size now).entries.size
      omega
  · obtain ⟨hheld, hsound⟩ := held_touch hh i now
    have hpos : 0 < h.cache.entries.size := by
      rw [hh.size_eq]
      exact List.length_pos_of_mem ((hh.mem_order i).mpr hi)
    rw [perform_insert_of_contains hi]
    refine ⟨hheld, fun hne => hsound (Nat.le_trans hh.size_le (hone hne)), ?_⟩
    exact Nat.lt_of_lt_of_eq hpos size_touch.symm

theorem held_remove (hh : Held capacity h) (i : UInt32) :
    Held capacity (h.perform (.remove i)) ∧
      (h.cache.entries.size ≤ capacity.toNat → Sound (h.perform (.remove i))) := by
  have hcap := hh.capacity_eq
  have hsize := hh.size_le
  rcases hi : h.cache.contains i with _ | _
  · have hperform : h.perform (.remove i) = ⟨h.cache, h.uses, none⟩ := by
      show History.mk _ _ _ = _
      rw [remove_of_not_contains hi]
    rw [hperform]
    exact ⟨⟨hh.toAgrees, hcap, hsize⟩, fun hle => ⟨hh.toAgrees, hcap ▸ hle, nofun⟩⟩
  · have hperform : h.perform (.remove i) = ⟨h.cache.without i, h.uses, none⟩ := by
      show History.mk _ _ _ = _
      rw [remove_of_contains hi]
    have hlen := length_without hh.toAgrees hi
    have hagrees := hh.without hi
    have hcap' : (h.cache.without i).capacity = capacity := (capacity_without i).trans hcap
    rw [hperform]
    refine ⟨⟨hagrees, hcap', ?_⟩, fun hle => ⟨hagrees, ?_, nofun⟩⟩
    · show (h.cache.without i).entries.size ≤ _
      omega
    · show (h.cache.without i).entries.size ≤ (h.cache.without i).capacity.toNat
      rw [hcap']
      omega

/-- **One call** keeps what the cache promises, unless it inserts into a cache of capacity 0. -/
theorem sound_perform_iff (hh : Held capacity h) (hs : Sound h) (call : Call) :
    Sound (h.perform call) ↔ capacity ≠ 0 ∨ call.isInsert = false := by
  have hle : h.cache.entries.size ≤ capacity.toNat := hh.capacity_eq ▸ hs.bounded
  cases call with
  | insert i size now =>
    obtain ⟨hheld, hsound, hpos⟩ := held_insert hh i size now
    refine ⟨fun hs' => Or.inl ?_, fun hc => hsound (hc.resolve_right nofun)⟩
    rintro rfl
    have hbounded := hs'.bounded
    rw [hheld.capacity_eq] at hbounded
    exact absurd hpos (Nat.not_lt.mpr hbounded)
  | touch i now => exact iff_of_true ((held_touch hh i now).2 hle) (Or.inr rfl)
  | remove i => exact iff_of_true ((held_remove hh i).2 hle) (Or.inr rfl)

theorem held_perform (hh : Held capacity h) (call : Call) : Held capacity (h.perform call) := by
  cases call with
  | insert i size now => exact (held_insert hh i size now).1
  | touch i now => exact (held_touch hh i now).1
  | remove i => exact (held_remove hh i).1

theorem held_start : Held capacity (History.start capacity) :=
  ⟨agrees_start capacity, rfl, Nat.zero_le _⟩

theorem sound_start : Sound (History.start capacity) := ⟨agrees_start capacity, Nat.zero_le _, nofun⟩

end Runs

/-- **The promise is kept** in every state of a run exactly when the capacity is not 0 or nothing is
inserted. -/
theorem lru_sound_iff (capacity : UInt32) (calls : List Call) :
    Runs.Always History.step Sound (History.start capacity) calls ↔
      capacity ≠ 0 ∨ ∀ call ∈ calls, call.isInsert = false := by
  have hmeets : Runs.Always History.step Sound (History.start capacity) calls ↔
      ∀ call ∈ calls, capacity ≠ 0 ∨ call.isInsert = false :=
    (Runs.always_iff_meets (I := Held capacity)
      (fun _ call _ hh _ hstep => Option.some.inj hstep ▸ held_perform hh call)
      (fun _ call _ hh hs hstep => Option.some.inj hstep ▸ sound_perform_iff hh hs call)
      (fun _ _ _ _ hnone => nomatch hnone) held_start sound_start).trans
    (Runs.meets_iff_forall History.exists_step)
  rw [hmeets]
  by_cases hcap : capacity = 0
  · subst hcap
    exact ⟨fun h => Or.inr fun call hc => (h call hc).resolve_left fun hne => hne rfl,
      fun h call hc => Or.inr (h.resolve_left (fun hne => hne rfl) call hc)⟩
  · exact iff_of_true (fun _ _ => Or.inl hcap) (Or.inl hcap)

/-- A cache of capacity 0 keeps the piece inserted. -/
theorem cached_at_capacity_zero :
    ¬ Runs.Always History.step Sound (History.start 0) [.insert 7 100 0] := by
  rintro ⟨-, h⟩
  exact absurd (h _ rfl).bounded (by decide)

end CncContent.Cache.LruCache
