import CncContent.Cache.PieceDataCache
import CncContent.Lib.Runs
import Mathlib.Data.Fintype.Card
import Mathlib.Data.List.Nodup
import Mathlib.Data.Finset.Dedup
import Mathlib.Algebra.BigOperators.Group.List.Basic
import Mathlib.Tactic.SplitIfs

/-! # The invariant of the ARC piece cache

`Core` is what every operation keeps, evictions included: no index occurs twice in the four lists,
the entries are those of T1 and T2, the mirrors mirror, the byte count is exact. `Consistent` adds
the three bounds. All operations return and keep it but one: `set_max_bytes` lowers the cap of the
ghost lists without cutting them, so a list that is longer stays longer unless the shrink happens to
evict into it (`Fits`). Throughout a run the cache is sound exactly if every change of the
budget fits (`sound_iff_fits`). -/

namespace CncContent.Cache.PieceDataCacheSpec

open CncContent.Lib.Bounded CncContent.Lib.Loop CncContent.Lib.Runs
open CncContent.Cache.PieceDataCache CncContent.Cache.PieceDataCache.Inner

/-! ### Sizes -/

/-- The bytes stored for the piece. -/
def sizeIn (entries : PieceIndex → Option Bytes) (i : PieceIndex) : ℕ := (entries i).elim 0 Bytes.len

/-- The bytes stored for the pieces of a list. -/
def total (entries : PieceIndex → Option Bytes) (l : List PieceIndex) : ℕ :=
  (l.map (sizeIn entries)).sum

section Total

variable {e : PieceIndex → Option Bytes} {i : PieceIndex} {l l' : List PieceIndex}

@[simp] theorem total_nil : total e [] = 0 := rfl

@[simp] theorem total_append : total e (l ++ l') = total e l + total e l' := by
  unfold total
  rw [List.map_append, List.sum_append]

theorem sizeIn_update_self (o : Option Bytes) :
    sizeIn (Function.update e i o) i = o.elim 0 Bytes.len := by
  unfold sizeIn
  rw [Function.update_self]

theorem total_update (o : Option Bytes) (h : i ∉ l) : total (Function.update e i o) l = total e l := by
  unfold total
  refine congrArg List.sum (List.map_congr_left fun j hj => ?_)
  unfold sizeIn
  rw [Function.update_of_ne]
  rintro rfl
  exact h hj

end Total

/-! ### The invariant -/

/-- How often the four lists hold the index. -/
def held (s : Inner) (i : PieceIndex) : ℕ :=
  s.t1.count i + s.t2.count i + s.b1.count i + s.b2.count i

/-- **The lists of the cache**: no index occurs twice, the entries are those of T1 and T2 and the
mirrors mirror. -/
structure Lists (s : Inner) : Prop where
  once : ∀ i, held s i ≤ 1
  entries : ∀ i, (s.entries i).isSome = true ↔ i ∈ s.t1 ∨ i ∈ s.t2
  b1Set : s.b1Set = s.b1.toFinset
  b2Set : s.b2Set = s.b2.toFinset

/-- What holds also while the cache is being shrunk. -/
structure Core (s : Inner) : Prop where
  once : ∀ i, held s i ≤ 1
  entries : ∀ i, (s.entries i).isSome = true ↔ i ∈ s.t1 ∨ i ∈ s.t2
  b1Set : s.b1Set = s.b1.toFinset
  b2Set : s.b2Set = s.b2.toFinset
  bytes : s.currentBytes = total s.entries (s.t1 ++ s.t2)

/-- **The cache is consistent.** -/
structure Consistent (s : Inner) : Prop extends Core s where
  budget : s.currentBytes ≤ s.maxBytes
  target : s.p ≤ s.ghostCap
  ghosts : s.b1.length ≤ s.ghostCap ∧ s.b2.length ≤ s.ghostCap

/-- The budget is below 2^50 and the cap is the one computed from it. -/
structure Sized (s : Inner) : Prop where
  maxBytes : s.maxBytes < 2 ^ 50
  ghostCap : s.ghostCap = ghostCapOf s.maxBytes

theorem ghostCapOf_eq {m : ℕ} (h : m < 2 ^ 50) : ghostCapOf m = max (m / (256 * 1024)) 16 := by
  unfold ghostCapOf asU32 u32Max
  omega

theorem Sized.cap_pos {s : Inner} (h : Sized s) : 0 < s.ghostCap ∧ s.ghostCap < 2 ^ 32 := by
  have hm := h.maxBytes
  rw [h.ghostCap, ghostCapOf_eq hm]
  omega

theorem Core.lists {s : Inner} (h : Core s) : Lists s := ⟨h.once, h.entries, h.b1Set, h.b2Set⟩

/-- Where bytes are stored there is a piece. -/
theorem Core.nonempty_of_pos {s : Inner} (h : Core s) (hpos : 0 < s.currentBytes) :
    s.t1 ≠ [] ∨ s.t2 ≠ [] := by
  by_contra hnil
  rw [not_or, not_not, not_not] at hnil
  have hzero : s.currentBytes = 0 := by rw [h.bytes, hnil.1, hnil.2]; rfl
  omega

theorem Lists.core {s : Inner} (h : Lists s) (hbytes : s.currentBytes = total s.entries (s.t1 ++ s.t2)) :
    Core s := ⟨h.once, h.entries, h.b1Set, h.b2Set, hbytes⟩

/-- **No index occurs twice in the four lists together.** -/
theorem Lists.nodup {s : Inner} (h : Lists s) : (s.t1 ++ s.t2 ++ s.b1 ++ s.b2).Nodup := by
  refine List.nodup_iff_count_le_one.mpr fun i => ?_
  have := h.once i
  unfold held at this
  simp only [List.count_append]
  omega

/-- A list that lacks an index is shorter than there are indices. -/
theorem length_lt_of_nodup_cons {i : PieceIndex} {l : List PieceIndex} (h : (i :: l).Nodup) :
    l.length < 2 ^ 32 := by
  have hcard := h.length_le_card
  rw [Fintype.card_fin, List.length_cons] at hcard
  omega

theorem Lists.t1_length_lt {s : Inner} (h : Lists s) (h2 : s.t2 ≠ []) : s.t1.length < 2 ^ 32 := by
  obtain ⟨i, l, hl⟩ := List.exists_cons_of_ne_nil h2
  have hn := h.nodup
  rw [List.append_assoc, List.append_assoc, hl] at hn
  have hmid : (i :: (s.t1 ++ (l ++ (s.b1 ++ s.b2)))).Nodup := List.nodup_middle.mp hn
  refine length_lt_of_nodup_cons (i := i) (hmid.sublist ?_)
  exact (List.sublist_append_left _ _).cons_cons i

/-! ### Ghost lists -/

theorem popBack_append {α : Type} (l : List α) (a : α) : popBack (l ++ [a]) = some (a, l) := by
  unfold popBack
  rw [List.getLast?_append, List.dropLast_concat]
  rfl

theorem eq_append_of_ne_nil {α : Type} {l : List α} (h : l ≠ []) : ∃ l' a, l = l' ++ [a] :=
  ⟨l.dropLast, l.getLast h, (List.dropLast_append_getLast h).symm⟩

/-- A cut of the list that still has what the loop is to leave. -/
structure Cut (cap : ℕ) (b : List PieceIndex) (x : List PieceIndex × Finset PieceIndex) : Prop where
  front : ∃ d, b = x.1 ++ d
  length : min (cap - 1) b.length ≤ x.1.length
  mirror : x.2 = x.1.toFinset

theorem erase_toFinset {l : List PieceIndex} {a : PieceIndex} (h : (l ++ [a]).Nodup) :
    (l ++ [a]).toFinset.erase a = l.toFinset := by
  have ha : a ∉ l := by
    intro hmem
    have hcount := List.nodup_iff_count_le_one.mp h a
    have hpos := List.count_pos_iff.mpr hmem
    rw [List.count_append, List.count_singleton_self] at hcount
    omega
  ext j
  simp only [List.toFinset_append, Finset.mem_erase, Finset.mem_union, List.mem_toFinset,
    List.mem_singleton]
  constructor
  · rintro ⟨hne, hj | hj⟩
    · exact hj
    · exact absurd hj hne
  · intro hj
    refine ⟨?_, Or.inl hj⟩
    rintro rfl
    exact ha hj

theorem trimGhost_spec {cap : ℕ} {b : List PieceIndex} (hcap : 0 < cap) (hb : b.length < 2 ^ 32)
    (hn : b.Nodup) {x : List PieceIndex × Finset PieceIndex} (hx : Cut cap b x) :
    (∃ y, trimGhost cap x = some (true, y) ∧ Cut cap b y ∧ y.1.length < x.1.length) ∨
    ∃ y, trimGhost cap x = some (false, y) ∧
      y = (b.take (cap - 1), (b.take (cap - 1)).toFinset) := by
  obtain ⟨l, m⟩ := x
  obtain ⟨⟨d, hd⟩, hlen, hm⟩ := hx
  dsimp only at hd hlen hm
  subst hd hm
  rw [List.length_append] at hb hlen
  have hmod : asU32 l.length = l.length := by unfold asU32 u32Max; omega
  unfold trimGhost
  dsimp only
  rw [hmod]
  by_cases hle : cap ≤ l.length
  · left
    obtain ⟨l', old, rfl⟩ :=
      eq_append_of_ne_nil (List.ne_nil_of_length_pos (by omega : 0 < l.length))
    rw [if_pos hle, popBack_append]
    rw [List.length_append, List.length_singleton] at hle hlen
    refine ⟨_, rfl, ⟨⟨old :: d, by simp⟩, ?_, erase_toFinset hn.of_append_left⟩, by simp⟩
    simp only [List.length_append, List.length_singleton]
    omega
  · right
    refine ⟨_, by rw [if_neg hle], ?_⟩
    have htake : (l ++ d).take (cap - 1) = l := by
      rcases Nat.lt_or_ge l.length (cap - 1) with hlt | hge
      · have hnil : d = [] := List.eq_nil_of_length_eq_zero (by omega)
        rw [hnil, List.append_nil]
        exact List.take_of_length_le hlt.le
      · exact List.take_left' (by omega)
    rw [htake]

/-- **What a ghost list is** after an entry has been added: it is cut to leave room for it. -/
theorem addToGhost_eq {cap : ℕ} {b : List PieceIndex} (i : PieceIndex) (hcap : 0 < cap)
    (hb : b.length < 2 ^ 32) (hn : b.Nodup) : addToGhost cap (b, b.toFinset) i =
      some (i :: b.take (cap - 1), insert i (b.take (cap - 1)).toFinset) := by
  have hstart : Cut cap b (b, b.toFinset) := ⟨⟨[], by simp⟩, min_le_right _ _, rfl⟩
  obtain ⟨t, ht, rfl⟩ := loop_total
    (fun x : List PieceIndex × Finset PieceIndex => x.1.length)
    (fun x hx => trimGhost_spec hcap hb hn hx) hstart
  unfold addToGhost
  dsimp only at ht ⊢
  rw [ht]
  rfl

/-! ### Evictions -/

/-- The lists of the resident pieces. Each has a ghost list for what is evicted from it. -/
inductive Queue
  | t1
  | t2
  deriving DecidableEq

def Queue.other : Queue → Queue
  | .t1 => .t2
  | .t2 => .t1

def resident (s : Inner) : Queue → List PieceIndex
  | .t1 => s.t1
  | .t2 => s.t2

def ghost (s : Inner) : Queue → List PieceIndex
  | .t1 => s.b1
  | .t2 => s.b2

def evictFrom (s : Inner) : Queue → Option (Bool × Inner)
  | .t1 => s.evictFromT1
  | .t2 => s.evictFromT2

/-- The cache after `x`, the last of the queue, has been evicted. -/
def evicted (s : Inner) (q : Queue) (l : List PieceIndex) (x : PieceIndex) : Inner :=
  let rest := (ghost s q).take (s.ghostCap - 1)
  let taken : Inner := { s with
    entries := Function.update s.entries x none
    currentBytes := s.currentBytes - sizeIn s.entries x
    evictions := satAdd u64Max s.evictions 1 }
  match q with
  | .t1 => { taken with t1 := l, b1 := x :: rest, b1Set := insert x rest.toFinset }
  | .t2 => { taken with t2 := l, b2 := x :: rest, b2Set := insert x rest.toFinset }

/-- Why `replace` evicts from the queue. -/
def Chosen (s : Inner) : Queue → Prop
  | .t1 => s.t2 = [] ∨ s.p < s.t1.length
  | .t2 => s.t1 = [] ∨ s.t1.length ≤ s.p

/-- The ghost lists are short enough for their lengths to be counted. -/
def Short (s : Inner) : Prop := s.b1.length < 2 ^ 32 ∧ s.b2.length < 2 ^ 32

section Evict

variable {s : Inner} {q : Queue} {l : List PieceIndex} {x : PieceIndex}

theorem removeEntry_eq {s : Inner} (h : (s.entries x).isSome = true) : s.removeEntry x =
    { s with entries := Function.update s.entries x none,
             currentBytes := s.currentBytes - sizeIn s.entries x } := by
  obtain ⟨data, hdata⟩ := Option.isSome_iff_exists.mp h
  unfold removeEntry sizeIn
  rw [hdata]
  rfl

/-- A ghost list with a cap of zero is never short enough. -/
theorem addToGhost_zero (b : List PieceIndex × Finset PieceIndex) (i : PieceIndex) :
    addToGhost 0 b i = none := by
  have hbody : ∀ b, ∃ t, trimGhost 0 b = some (true, t) := by
    intro b
    unfold trimGhost
    rw [if_pos (Nat.zero_le _)]
    rcases popBack b.1 with _ | ⟨old, rest⟩
    · exact ⟨_, rfl⟩
    · exact ⟨_, rfl⟩
  have hloop : ∀ (n : ℕ) (b : List PieceIndex × Finset PieceIndex), loop (trimGhost 0) n b = none := by
    intro n
    induction n with
    | zero => exact fun _ => rfl
    | succ n ih =>
      intro b
      obtain ⟨t, ht⟩ := hbody b
      rw [loop, ht]
      exact ih t
  unfold addToGhost
  rw [hloop]
  rfl

theorem held_eq (s : Inner) (q : Queue) (i : PieceIndex) : held s i = (resident s q).count i +
    (resident s q.other).count i + (ghost s q).count i + (ghost s q.other).count i := by
  unfold held
  cases q with
  | t1 => rfl
  | t2 =>
    show _ = s.t2.count i + s.t1.count i + s.b2.count i + s.b1.count i
    omega

theorem resident_perm (s : Inner) (q : Queue) :
    (resident s q ++ resident s q.other).Perm (s.t1 ++ s.t2) := by
  cases q with
  | t1 => exact .refl _
  | t2 => exact List.perm_append_comm

theorem evicted_perm (s : Inner) (q : Queue) (l : List PieceIndex) (x : PieceIndex) :
    (l ++ resident s q.other).Perm ((evicted s q l x).t1 ++ (evicted s q l x).t2) := by
  cases q with
  | t1 => exact .refl _
  | t2 => exact List.perm_append_comm

/-- The last of a queue is in no other place. -/
theorem Lists.last (hs : Lists s) (ht : resident s q = l ++ [x]) :
    (s.entries x).isSome = true ∧ x ∉ l ++ resident s q.other ∧ (x :: ghost s q).Nodup := by
  have hn : (resident s q ++ (resident s q.other ++ (ghost s q ++ ghost s q.other))).Nodup := by
    refine List.nodup_iff_count_le_one.mpr fun i => ?_
    have honce := hs.once i
    rw [held_eq s q] at honce
    simp only [List.count_append]
    omega
  rw [ht, List.append_assoc] at hn
  have hmid : (x :: (l ++ (resident s q.other ++ (ghost s q ++ ghost s q.other)))).Nodup :=
    List.nodup_middle.mp hn
  refine ⟨?_, fun hx => ?_, hmid.sublist ?_⟩
  · refine (hs.entries x).mpr (List.mem_append.mp ((resident_perm s q).mem_iff.mp ?_))
    rw [ht]
    exact List.mem_append_left _ (List.mem_append_right l (List.mem_singleton_self x))
  · refine hmid.notMem (List.Sublist.mem hx ?_)
    exact List.Sublist.append_left (List.sublist_append_left _ _) _
  · refine List.Sublist.cons_cons x (List.Sublist.trans ?_ (List.sublist_append_right _ _))
    exact (List.sublist_append_left _ _).trans (List.sublist_append_right _ _)

/-- Evicting from a queue returns unless the ghost list has to be cut to nothing. -/
theorem evictFrom_eq (hs : Lists s) (ht : resident s q = l ++ [x]) :
    evictFrom s q = if 0 < s.ghostCap then some (true, evicted s q l x) else none := by
  obtain ⟨hx, -, hn⟩ := hs.last ht
  have hghost : addToGhost s.ghostCap (ghost s q, (ghost s q).toFinset) x =
      if 0 < s.ghostCap then some (x :: (ghost s q).take (s.ghostCap - 1),
        insert x ((ghost s q).take (s.ghostCap - 1)).toFinset) else none := by
    split_ifs with hcap
    · exact addToGhost_eq x hcap (length_lt_of_nodup_cons hn) hn.of_cons
    · rw [Nat.eq_zero_of_not_pos hcap, addToGhost_zero]
  cases q with
  | t1 =>
    change s.t1 = l ++ [x] at ht
    change addToGhost s.ghostCap (s.b1, s.b1.toFinset) x = _ at hghost
    unfold evictFrom evictFromT1
    rw [ht, popBack_append]
    dsimp only
    rw [removeEntry_eq (s := { s with t1 := l }) hx]
    unfold addToGhostB1
    dsimp only
    rw [hs.b1Set, hghost]
    split_ifs <;> rfl
  | t2 =>
    change s.t2 = l ++ [x] at ht
    change addToGhost s.ghostCap (s.b2, s.b2.toFinset) x = _ at hghost
    unfold evictFrom evictFromT2
    rw [ht, popBack_append]
    dsimp only
    rw [removeEntry_eq (s := { s with t2 := l }) hx]
    unfold addToGhostB2
    dsimp only
    rw [hs.b2Set, hghost]
    split_ifs <;> rfl

theorem held_evicted (ht : resident s q = l ++ [x]) (i : PieceIndex) :
    held (evicted s q l x) i ≤ held s i := by
  have htake := (List.take_sublist (s.ghostCap - 1) (ghost s q)).count_le i
  have hlast : (resident s q).count i = l.count i + [x].count i := by rw [ht, List.count_append]
  have hghost : (ghost (evicted s q l x) q).count i =
      ((ghost s q).take (s.ghostCap - 1)).count i + [x].count i := by
    cases q
    all_goals
      change ([x] ++ _).count i = _
      rw [List.count_append]
      exact Nat.add_comm _ _
  have hrest : resident (evicted s q l x) q = l ∧
      resident (evicted s q l x) q.other = resident s q.other ∧
        ghost (evicted s q l x) q.other = ghost s q.other := by
    cases q <;> exact ⟨rfl, rfl, rfl⟩
  rw [held_eq s q, held_eq _ q, hghost, hrest.1, hrest.2.1, hrest.2.2]
  omega

/-- **Taking a resident piece out** keeps the lists and gives its bytes back. -/
theorem Lists.without {s' : Inner} (hs : Lists s) (hheld : ∀ i, held s' i ≤ held s i)
    (hx : x ∉ s'.t1 ++ s'.t2) (hperm : (x :: (s'.t1 ++ s'.t2)).Perm (s.t1 ++ s.t2))
    (hentries : s'.entries = Function.update s.entries x none)
    (hset : s'.b1Set = s'.b1.toFinset ∧ s'.b2Set = s'.b2.toFinset) : Lists s' ∧
    total s'.entries (s'.t1 ++ s'.t2) + sizeIn s.entries x = total s.entries (s.t1 ++ s.t2) := by
  refine ⟨⟨fun i => le_trans (hheld i) (hs.once i), fun i => ?_, hset.1, hset.2⟩, ?_⟩
  · rw [hentries, ← List.mem_append]
    by_cases hi : i = x
    · subst hi
      rw [Function.update_self]
      exact ⟨nofun, fun h => absurd h hx⟩
    · rw [Function.update_of_ne hi, hs.entries i, ← List.mem_append, ← hperm.mem_iff, List.mem_cons]
      exact ⟨fun h => h.resolve_left hi, Or.inr⟩
  · have hsum := (hperm.map (sizeIn s.entries)).sum_eq
    rw [List.map_cons, List.sum_cons] at hsum
    rw [hentries, total_update none hx]
    unfold total
    omega

theorem lists_evicted (hs : Lists s) (ht : resident s q = l ++ [x]) : Lists (evicted s q l x) ∧
    total (evicted s q l x).entries ((evicted s q l x).t1 ++ (evicted s q l x).t2) + sizeIn s.entries x =
      total s.entries (s.t1 ++ s.t2) := by
  have hperm := evicted_perm s q l x
  have hlast : (x :: (l ++ resident s q.other)).Perm (s.t1 ++ s.t2) := by
    refine List.Perm.trans ?_ (resident_perm s q)
    rw [ht, List.append_assoc]
    exact List.perm_middle.symm
  refine hs.without (held_evicted ht) (fun hx => ?_) ((hperm.symm.cons x).trans hlast) ?_ ?_
  · exact (hs.last ht).2.1 (hperm.mem_iff.mpr hx)
  · cases q <;> rfl
  · cases q with
    | t1 => exact ⟨List.toFinset_cons.symm, hs.b2Set⟩
    | t2 => exact ⟨hs.b1Set, List.toFinset_cons.symm⟩

theorem currentBytes_evicted (s : Inner) (q : Queue) (l : List PieceIndex) (x : PieceIndex) :
    (evicted s q l x).currentBytes = s.currentBytes - sizeIn s.entries x := by
  cases q <;> rfl

theorem limits_evicted (s : Inner) (q : Queue) (l : List PieceIndex) (x : PieceIndex) :
    (evicted s q l x).maxBytes = s.maxBytes ∧ (evicted s q l x).ghostCap = s.ghostCap := by
  cases q <;> exact ⟨rfl, rfl⟩

theorem core_evicted (hs : Core s) (ht : resident s q = l ++ [x]) : Core (evicted s q l x) := by
  obtain ⟨hlists, hbytes⟩ := lists_evicted hs.lists ht
  refine hlists.core ?_
  rw [currentBytes_evicted, hs.bytes]
  omega

/-- **What `replace` does** if anything is resident: it evicts the last of T1 if T2 is empty or T1
is longer than the target, else the last of T2. -/
theorem replace_cases (hs : Lists s) (hne : s.t1 ≠ [] ∨ s.t2 ≠ []) :
    ∃ q l x, resident s q = l ++ [x] ∧ Chosen s q ∧
      s.replace = if 0 < s.ghostCap then some (true, evicted s q l x) else none := by
  have evict : ∀ q, resident s q ≠ [] → Chosen s q → s.replace = evictFrom s q →
      ∃ q l x, resident s q = l ++ [x] ∧ Chosen s q ∧
        s.replace = if 0 < s.ghostCap then some (true, evicted s q l x) else none := by
    intro q h hwhy hreplace
    obtain ⟨l, x, ht⟩ := eq_append_of_ne_nil h
    exact ⟨q, l, x, ht, hwhy, hreplace.trans (evictFrom_eq hs ht)⟩
  by_cases h1 : s.t1 = []
  · refine evict .t2 (hne.resolve_left (not_not_intro h1)) (Or.inl h1) ?_
    simp [replace, evictFrom, h1]
  · by_cases h2 : s.t2 = []
    · refine evict .t1 h1 (Or.inl h2) ?_
      simp [replace, evictFrom, h1, h2]
    · have hmod : asU32 s.t1.length = s.t1.length := by
        have := hs.t1_length_lt h2
        unfold asU32 u32Max
        omega
      by_cases hp : s.p < s.t1.length
      · refine evict .t1 h1 (Or.inr hp) ?_
        simp [replace, evictFrom, h1, h2, hmod, hp]
      · refine evict .t2 h2 (Or.inr (Nat.le_of_not_lt hp)) ?_
        simp [replace, evictFrom, h1, h2, hmod, hp]

theorem Consistent.short (hs : Consistent s) (hz : Sized s) : Short s := by
  have h1 := hs.ghosts
  have h2 := hz.cap_pos
  exact ⟨by omega, by omega⟩

theorem length_cons_take_le (hcap : 0 < s.ghostCap) (b : List PieceIndex) :
    (x :: b.take (s.ghostCap - 1)).length ≤ s.ghostCap := by
  rw [List.length_cons, List.length_take]
  omega

theorem consistent_evicted (hs : Consistent s) (hcap : 0 < s.ghostCap) (ht : resident s q = l ++ [x]) :
    Consistent (evicted s q l x) := by
  have hcore := core_evicted hs.toCore ht
  cases q with
  | t1 =>
    exact ⟨hcore, le_trans (Nat.sub_le _ _) hs.budget, hs.target, length_cons_take_le hcap s.b1,
      hs.ghosts.2⟩
  | t2 =>
    exact ⟨hcore, le_trans (Nat.sub_le _ _) hs.budget, hs.target, hs.ghosts.1,
      length_cons_take_le hcap s.b2⟩

theorem evictable_evicted (ht : resident s q = l ++ [x]) : (evicted s q l x).evictable < s.evictable := by
  have hevicted := (evicted_perm s q l x).length_eq
  have hbefore := (resident_perm s q).length_eq
  unfold evictable
  rw [ht] at hbefore
  simp only [List.length_append, List.length_singleton] at hevicted hbefore
  omega

end Evict

/-! ### Making room -/

/-- The piece is in none of the lists and of a size that can be cached. -/
structure Insertable (i : PieceIndex) (n : ℕ) (s : Inner) : Prop extends Consistent s where
  sized : Sized s
  fresh : held s i = 0
  small : n ≤ s.maxBytes

theorem makeRoom_spec {i : PieceIndex} {n : ℕ} {s : Inner} (hs : Insertable i n s) :
    (∃ t, s.makeRoom n = some (true, t) ∧ Insertable i n t ∧ t.evictable < s.evictable) ∨
    ∃ t, s.makeRoom n = some (false, t) ∧ Insertable i n t ∧ t.currentBytes + n ≤ t.maxBytes := by
  have hmax := hs.sized.maxBytes
  have hcap := hs.sized.cap_pos.1
  have hsmall := hs.small
  unfold makeRoom
  by_cases hfull : s.maxBytes < satAdd u64Max s.currentBytes n
  · left
    have hpos : 0 < s.currentBytes := by
      unfold satAdd at hfull
      omega
    have hne := hs.toCore.nonempty_of_pos hpos
    rw [if_pos hfull]
    obtain ⟨q, l, x, ht, -, he⟩ := replace_cases hs.lists hne
    rw [if_pos hcap] at he
    obtain ⟨hm, hc⟩ := limits_evicted s q l x
    refine ⟨_, he, ⟨consistent_evicted hs.toConsistent hcap ht, ⟨hm ▸ hmax, ?_⟩, ?_, hm ▸ hsmall⟩,
      evictable_evicted ht⟩
    · rw [hm, hc]
      exact hs.sized.ghostCap
    · exact Nat.le_zero.mp (hs.fresh ▸ held_evicted ht i)
  · right
    refine ⟨s, if_neg hfull, hs, ?_⟩
    unfold satAdd u64Max at hfull
    omega

theorem ensureRoom_spec {i : PieceIndex} {n : ℕ} {s : Inner} (hs : Insertable i n s) :
    ∃ t, s.ensureRoom n = some t ∧ Insertable i n t ∧ t.currentBytes + n ≤ t.maxBytes :=
  loop_total evictable (fun _ h => makeRoom_spec h) hs

/-! ### Insertions -/

section Insert

variable {s : Inner} {i : PieceIndex} {data : Bytes}

theorem not_mem_of_held (h : held s i = 0) : i ∉ s.t1 ∧ i ∉ s.t2 ∧ i ∉ s.b1 ∧ i ∉ s.b2 := by
  unfold held at h
  refine ⟨?_, ?_, ?_, ?_⟩
  all_goals
    intro hmem
    have := List.count_pos_iff.mpr hmem
    omega

/-- **The cache with the piece put at the front** of T1 or of T2. -/
theorem lists_insertEntry (data : Bytes) {t1 t2 : List PieceIndex} (hs : Lists s) (hfresh : held s i = 0)
    (ht : (t1 = i :: s.t1 ∧ t2 = s.t2) ∨ (t1 = s.t1 ∧ t2 = i :: s.t2)) :
    Lists { s.insertEntry i data with t1 := t1, t2 := t2 } ∧
    total (Function.update s.entries i (some data)) (t1 ++ t2) =
      data.len + total s.entries (s.t1 ++ s.t2) := by
  obtain ⟨h1, h2, -, -⟩ := not_mem_of_held hfresh
  have hnot : i ∉ s.t1 ++ s.t2 := fun h => (List.mem_append.mp h).elim h1 h2
  have hperm : (t1 ++ t2).Perm (i :: (s.t1 ++ s.t2)) := by
    rcases ht with ⟨rfl, rfl⟩ | ⟨rfl, rfl⟩
    · exact List.Perm.refl _
    · exact List.perm_middle
  refine ⟨⟨fun j => ?_, fun j => ?_, hs.b1Set, hs.b2Set⟩, ?_⟩
  · have hj := hs.once j
    have hcount := hperm.count_eq j
    rw [List.count_append, List.count_cons, List.count_append] at hcount
    unfold held at hj hfresh ⊢
    dsimp only [insertEntry]
    by_cases hij : i = j
    · subst hij
      rw [if_pos (by simp)] at hcount
      omega
    · rw [if_neg (by simpa using hij)] at hcount
      omega
  · show (Function.update s.entries i (some data) j).isSome = true ↔ (j ∈ t1 ∨ j ∈ t2)
    rw [← List.mem_append, hperm.mem_iff, List.mem_cons, List.mem_append]
    by_cases hij : j = i
    · subst hij
      rw [Function.update_self]
      exact ⟨fun _ => Or.inl rfl, fun _ => rfl⟩
    · rw [Function.update_of_ne hij, hs.entries j]
      exact ⟨Or.inr, fun h => h.resolve_left hij⟩
  · have hsum := (hperm.map (sizeIn (Function.update s.entries i (some data)))).sum_eq
    rw [List.map_cons, List.sum_cons, sizeIn_update_self] at hsum
    rw [← total_update (some data) hnot]
    exact hsum

theorem consistent_insertEntry {t1 t2 : List PieceIndex} (hs : Insertable i data.len s)
    (hroom : s.currentBytes + data.len ≤ s.maxBytes)
    (ht : (t1 = i :: s.t1 ∧ t2 = s.t2) ∨ (t1 = s.t1 ∧ t2 = i :: s.t2)) :
    Consistent { s.insertEntry i data with t1 := t1, t2 := t2 } := by
  obtain ⟨hlists, htotal⟩ := lists_insertEntry data hs.lists hs.fresh ht
  have hmax := hs.sized.maxBytes
  have hcur : satAdd u64Max s.currentBytes data.len = s.currentBytes + data.len :=
    satAdd_of_le (by unfold u64Max; omega)
  refine ⟨hlists.core ?_, ?_, hs.target, hs.ghosts⟩
  · show satAdd u64Max s.currentBytes data.len = total (Function.update s.entries i (some data)) _
    rw [hcur, htotal, hs.bytes]
    omega
  · show satAdd u64Max s.currentBytes data.len ≤ s.maxBytes
    omega

/-- The cache with other ghost lists, another target and other counts of ghost hits. -/
def withGhosts (s : Inner) (b1 b2 : List PieceIndex) (p hits1 hits2 : ℕ) : Inner :=
  { s with b1 := b1, b1Set := b1.toFinset, b2 := b2, b2Set := b2.toFinset, p := p,
           ghostHitsB1 := hits1, ghostHitsB2 := hits2 }

/-- Taking pieces out of the ghost lists. -/
theorem lists_withGhosts (hs : Lists s) (p hits1 hits2 : ℕ) {b1 b2 : List PieceIndex}
    (h1 : b1.Sublist s.b1) (h2 : b2.Sublist s.b2) : Lists (withGhosts s b1 b2 p hits1 hits2) := by
  refine ⟨fun j => ?_, hs.entries, rfl, rfl⟩
  have hj := hs.once j
  have hc1 := h1.count_le j
  have hc2 := h2.count_le j
  unfold held at hj ⊢
  dsimp only [withGhosts]
  omega

theorem consistent_withGhosts (hs : Consistent s) {p : ℕ} (hp : p ≤ s.ghostCap) (hits1 hits2 : ℕ)
    {b1 b2 : List PieceIndex} (h1 : b1.Sublist s.b1) (h2 : b2.Sublist s.b2) :
    Consistent (withGhosts s b1 b2 p hits1 hits2) :=
  ⟨(lists_withGhosts hs.lists p hits1 hits2 h1 h2).core hs.bytes, hs.budget, hp,
    le_trans h1.length_le hs.ghosts.1, le_trans h2.length_le hs.ghosts.2⟩

theorem removeFromGhost_eq {b : List PieceIndex} (hb : b.Nodup) :
    removeFromGhost (b, b.toFinset) i = (b.erase i, (b.erase i).toFinset) := by
  unfold removeFromGhost
  refine Prod.ext rfl ?_
  ext j
  simp only [Finset.mem_erase, List.mem_toFinset]
  exact hb.mem_erase_iff.symm

theorem removeFromGhostB1_eq (hs : Lists s) : s.removeFromGhostB1 i =
    withGhosts s (s.b1.erase i) s.b2 s.p s.ghostHitsB1 s.ghostHitsB2 := by
  unfold removeFromGhostB1 withGhosts
  rw [hs.b1Set, removeFromGhost_eq hs.nodup.of_append_left.of_append_right, ← hs.b2Set]

theorem removeFromGhostB2_eq (hs : Lists s) : s.removeFromGhostB2 i =
    withGhosts s s.b1 (s.b2.erase i) s.p s.ghostHitsB1 s.ghostHitsB2 := by
  unfold removeFromGhostB2 withGhosts
  rw [hs.b2Set, removeFromGhost_eq hs.nodup.of_append_right, ← hs.b1Set]

/-- **A promotion** moves the piece from T1 to T2 or within T2. -/
theorem promoteToT2_cases (s : Inner) (i : PieceIndex) : ∃ t1 t2 : List PieceIndex,
    s.promoteToT2 i = { s with t1 := t1, t2 := t2 } ∧ (t1 ++ t2).Perm (s.t1 ++ s.t2) := by
  unfold promoteToT2
  split_ifs with h1 h2
  · exact ⟨_, _, rfl, List.perm_middle.trans ((List.perm_cons_erase h1).symm.append_right s.t2)⟩
  · exact ⟨_, _, rfl, (List.perm_cons_erase h2).symm.append_left s.t1⟩
  · exact ⟨_, _, rfl, List.Perm.refl _⟩

theorem lists_moved (hs : Lists s) {t1 t2 : List PieceIndex} (hperm : (t1 ++ t2).Perm (s.t1 ++ s.t2)) :
    Lists { s with t1 := t1, t2 := t2 } ∧
    total s.entries (t1 ++ t2) = total s.entries (s.t1 ++ s.t2) := by
  refine ⟨⟨fun j => ?_, fun j => ?_, hs.b1Set, hs.b2Set⟩, (hperm.map (sizeIn s.entries)).sum_eq⟩
  · have hj := hs.once j
    have hc := hperm.count_eq j
    rw [List.count_append, List.count_append] at hc
    unfold held at hj ⊢
    dsimp only
    omega
  · rw [hs.entries j, ← List.mem_append, ← List.mem_append]
    exact hperm.mem_iff.symm

theorem consistent_promoteToT2 (hs : Consistent s) : Consistent (s.promoteToT2 i) := by
  obtain ⟨t1, t2, heq, hperm⟩ := promoteToT2_cases s i
  obtain ⟨hlists, htotal⟩ := lists_moved hs.lists hperm
  rw [heq]
  exact ⟨hlists.core (hs.bytes.trans htotal.symm), hs.budget, hs.target, hs.ghosts⟩

/-- Making room and putting the piece at the front of a resident list. -/
theorem insertRoom_spec (hs : Insertable i data.len s) {front1 front2 : List PieceIndex}
    (hfront : (front1 = [i] ∧ front2 = []) ∨ (front1 = [] ∧ front2 = [i])) :
    ∃ u, ((s.ensureRoom data.len).map fun t =>
        { t.insertEntry i data with t1 := front1 ++ t.t1, t2 := front2 ++ t.t2 }) = some u ∧
      Consistent u ∧ Sized u := by
  obtain ⟨t, ht, hins, hroom⟩ := ensureRoom_spec hs
  refine ⟨_, by rw [ht]; rfl, consistent_insertEntry hins hroom ?_, ?_⟩
  · rcases hfront with ⟨rfl, rfl⟩ | ⟨rfl, rfl⟩
    · exact Or.inl ⟨rfl, rfl⟩
    · exact Or.inr ⟨rfl, rfl⟩
  · exact ⟨hins.sized.maxBytes, hins.sized.ghostCap⟩

theorem growTarget_le {p : ℕ} (h : s.growTarget = some p) : p ≤ s.ghostCap := by
  unfold growTarget at h
  dsimp only at h
  split_ifs at h
  cases h
  exact min_le_right _ _

theorem shrinkTarget_le {p : ℕ} (h : s.shrinkTarget = some p) : p ≤ s.p := by
  unfold shrinkTarget at h
  dsimp only at h
  split_ifs at h
  cases h
  exact Nat.sub_le _ _

/-- **An insertion of a piece that no list holds**. -/
theorem insert_miss (hs : Lists s) (hfresh : held s i = 0) (hsmall : data.len ≤ s.maxBytes) :
    s.insert i data =
      (s.ensureRoom data.len).map fun t => { t.insertEntry i data with t1 := i :: t.t1 } := by
  obtain ⟨h1, h2, h3, h4⟩ := not_mem_of_held hfresh
  have hres : ¬ (s.entries i).isSome = true := fun h => ((hs.entries i).mp h).elim h1 h2
  unfold PieceDataCache.Inner.insert
  rw [if_neg (Nat.not_lt.mpr hsmall), if_neg hres, if_neg (by rwa [hs.b1Set, List.mem_toFinset]),
    if_neg (by rwa [hs.b2Set, List.mem_toFinset])]

/-- **What an insertion does**: nothing, a promotion, a panic in the new target, or, with the piece
out of the ghost lists, it makes room for the piece and puts it at the front of a resident list. -/
theorem insert_cases (hs : Lists s) (i : PieceIndex) (data : Bytes) :
    s.insert i data = some s ∨ s.insert i data = some (s.promoteToT2 i) ∨
    ((s.growTarget = none ∨ s.shrinkTarget = none) ∧ s.insert i data = none) ∨
    ∃ (b1 b2 : List PieceIndex) (p hits1 hits2 : ℕ) (front1 front2 : List PieceIndex),
      data.len ≤ s.maxBytes ∧ b1.Sublist s.b1 ∧ b2.Sublist s.b2 ∧ p ≤ max s.p s.ghostCap ∧
      held (withGhosts s b1 b2 p hits1 hits2) i = 0 ∧
      ((front1 = [i] ∧ front2 = []) ∨ (front1 = [] ∧ front2 = [i])) ∧
      s.insert i data = ((withGhosts s b1 b2 p hits1 hits2).ensureRoom data.len).map fun t =>
        { t.insertEntry i data with t1 := front1 ++ t.t1, t2 := front2 ++ t.t2 } := by
  have honce := hs.once i
  unfold held at honce
  by_cases hbig : s.maxBytes < data.len
  · exact Or.inl (if_pos hbig)
  have hsmall := Nat.le_of_not_lt hbig
  by_cases hres : (s.entries i).isSome = true
  · refine Or.inr (Or.inl ?_)
    unfold PieceDataCache.Inner.insert
    rw [if_neg hbig, if_pos hres]
  refine Or.inr (Or.inr ?_)
  by_cases hb1 : i ∈ s.b1
  · have hinsert : s.insert i data = s.growTarget.bind fun p =>
        (({ s with ghostHitsB1 := satAdd u64Max s.ghostHitsB1 1, p := p } : Inner).removeFromGhostB1
          i |>.ensureRoom data.len).map fun t => { t.insertEntry i data with t2 := i :: t.t2 } := by
      unfold PieceDataCache.Inner.insert
      rw [if_neg hbig, if_neg hres, if_pos (by rwa [hs.b1Set, List.mem_toFinset])]
    rcases hp : s.growTarget with _ | p
    · exact Or.inl ⟨Or.inl rfl, by rw [hinsert, hp]; rfl⟩
    · have hlists : Lists { s with ghostHitsB1 := satAdd u64Max s.ghostHitsB1 1, p := p } :=
        ⟨hs.once, hs.entries, hs.b1Set, hs.b2Set⟩
      have hpos := List.count_pos_iff.mpr hb1
      refine Or.inr ⟨s.b1.erase i, s.b2, p, satAdd u64Max s.ghostHitsB1 1, s.ghostHitsB2, [], [i],
        hsmall, List.erase_sublist, List.Sublist.refl _, ?_, ?_, Or.inr ⟨rfl, rfl⟩, ?_⟩
      · exact le_trans (growTarget_le hp) (le_max_right _ _)
      · unfold held withGhosts
        dsimp only
        rw [List.count_erase_self]
        omega
      · rw [hinsert, hp, Option.bind_some, removeFromGhostB1_eq hlists]
        rfl
  by_cases hb2 : i ∈ s.b2
  · have hinsert : s.insert i data = s.shrinkTarget.bind fun p =>
        (({ s with ghostHitsB2 := satAdd u64Max s.ghostHitsB2 1, p := p } : Inner).removeFromGhostB2
          i |>.ensureRoom data.len).map fun t => { t.insertEntry i data with t2 := i :: t.t2 } := by
      unfold PieceDataCache.Inner.insert
      rw [if_neg hbig, if_neg hres, if_neg (by rwa [hs.b1Set, List.mem_toFinset]),
        if_pos (by rwa [hs.b2Set, List.mem_toFinset])]
    rcases hp : s.shrinkTarget with _ | p
    · exact Or.inl ⟨Or.inr rfl, by rw [hinsert, hp]; rfl⟩
    · have hlists : Lists { s with ghostHitsB2 := satAdd u64Max s.ghostHitsB2 1, p := p } :=
        ⟨hs.once, hs.entries, hs.b1Set, hs.b2Set⟩
      have hpos := List.count_pos_iff.mpr hb2
      refine Or.inr ⟨s.b1, s.b2.erase i, p, s.ghostHitsB1, satAdd u64Max s.ghostHitsB2 1, [], [i],
        hsmall, List.Sublist.refl _, List.erase_sublist, ?_, ?_, Or.inr ⟨rfl, rfl⟩, ?_⟩
      · exact le_trans (shrinkTarget_le hp) (le_max_left _ _)
      · unfold held withGhosts
        dsimp only
        rw [List.count_erase_self]
        omega
      · rw [hinsert, hp, Option.bind_some, removeFromGhostB2_eq hlists]
        rfl
  have hfresh : held s i = 0 := by
    rw [hs.entries i, not_or] at hres
    unfold held
    rw [List.count_eq_zero_of_not_mem hres.1, List.count_eq_zero_of_not_mem hres.2,
      List.count_eq_zero_of_not_mem hb1, List.count_eq_zero_of_not_mem hb2]
  have hself : withGhosts s s.b1 s.b2 s.p s.ghostHitsB1 s.ghostHitsB2 = s := by
    unfold withGhosts
    rw [← hs.b1Set, ← hs.b2Set]
  refine Or.inr ⟨s.b1, s.b2, s.p, s.ghostHitsB1, s.ghostHitsB2, [i], [], hsmall,
    List.Sublist.refl _, List.Sublist.refl _, le_max_left _ _, ?_, Or.inl ⟨rfl, rfl⟩, ?_⟩
  · rw [hself]
    exact hfresh
  · rw [hself]
    exact insert_miss hs hfresh hsmall

theorem growTarget_isSome (hs : Consistent s) (hz : Sized s) : s.growTarget ≠ none := by
  have hne : asU32 (max s.b1.length 1) ≠ 0 := by
    have := (hs.short hz).1
    unfold asU32 u32Max
    omega
  unfold growTarget
  dsimp only
  rw [if_neg hne]
  exact Option.some_ne_none _

theorem shrinkTarget_isSome (hs : Consistent s) (hz : Sized s) : s.shrinkTarget ≠ none := by
  have hne : asU32 (max s.b2.length 1) ≠ 0 := by
    have := (hs.short hz).2
    unfold asU32 u32Max
    omega
  unfold shrinkTarget
  dsimp only
  rw [if_neg hne]
  exact Option.some_ne_none _

theorem sized_promoteToT2 (hz : Sized s) : Sized (s.promoteToT2 i) := by
  unfold promoteToT2
  split_ifs
  all_goals exact ⟨hz.maxBytes, hz.ghostCap⟩

/-- **An insertion** returns and keeps the cache consistent. -/
theorem insert_spec (hs : Consistent s) (hz : Sized s) (i : PieceIndex) (data : Bytes) :
    ∃ t, s.insert i data = some t ∧ Consistent t ∧ Sized t := by
  rcases insert_cases hs.lists i data with h | h | ⟨h, -⟩ |
    ⟨b1, b2, p, hits1, hits2, front1, front2, hsmall, h1, h2, hp, hfresh, hfront, h⟩
  · exact ⟨s, h, hs, hz⟩
  · exact ⟨_, h, consistent_promoteToT2 hs, sized_promoteToT2 hz⟩
  · exact absurd h (not_or.mpr ⟨growTarget_isSome hs hz, shrinkTarget_isSome hs hz⟩)
  · have htarget : p ≤ s.ghostCap := le_trans hp (max_le hs.target le_rfl)
    obtain ⟨u, hu, hc⟩ := insertRoom_spec ⟨consistent_withGhosts hs htarget hits1 hits2 h1 h2,
      ⟨hz.maxBytes, hz.ghostCap⟩, hfresh, hsmall⟩ hfront
    exact ⟨u, h.trans hu, hc⟩

/-- A lookup changes no more than the order and the counters. -/
theorem consistent_get (hs : Consistent s) (i : PieceIndex) : Consistent (s.get i).2 := by
  unfold PieceDataCache.Inner.get
  split_ifs with h
  · obtain ⟨hc, h1, h2, h3⟩ := consistent_promoteToT2 (i := i) hs
    exact ⟨⟨hc.once, hc.entries, hc.b1Set, hc.b2Set, hc.bytes⟩, h1, h2, h3⟩
  · exact ⟨⟨hs.once, hs.entries, hs.b1Set, hs.b2Set, hs.bytes⟩, hs.budget, hs.target, hs.ghosts⟩

/-- **What a removal does**: it takes a resident piece out of its list and gives its bytes back, or
takes the piece out of the ghost lists. -/
theorem remove_cases (hs : Lists s) (i : PieceIndex) :
    (∃ t1 t2 : List PieceIndex, (s.remove i).2 = { s with
        t1 := t1, t2 := t2, entries := Function.update s.entries i none,
        currentBytes := s.currentBytes - sizeIn s.entries i } ∧
      t1.Sublist s.t1 ∧ t2.Sublist s.t2 ∧ i ∉ t1 ++ t2 ∧ (i :: (t1 ++ t2)).Perm (s.t1 ++ s.t2)) ∨
    (s.remove i).2 = withGhosts s (s.b1.erase i) (s.b2.erase i) s.p s.ghostHitsB1 s.ghostHitsB2 := by
  unfold PieceDataCache.Inner.remove
  by_cases hres : (s.entries i).isSome = true
  · left
    rw [if_pos hres, removeEntry_eq hres]
    dsimp only
    have hmem := (hs.entries i).mp hres
    have absent : ∀ {t1 t2 : List PieceIndex}, (i :: (t1 ++ t2)).Perm (s.t1 ++ s.t2) →
        i ∉ t1 ++ t2 := by
      intro t1 t2 hperm
      have hn : (s.t1 ++ s.t2).Nodup := hs.nodup.of_append_left.of_append_left
      exact (hperm.nodup_iff.mpr hn).notMem
    by_cases h1 : i ∈ s.t1
    · have hperm := (List.perm_cons_erase h1).symm.append_right s.t2
      rw [if_pos h1]
      exact ⟨_, _, rfl, List.erase_sublist, List.Sublist.refl s.t2, absent hperm, hperm⟩
    · have h2 := hmem.resolve_left h1
      have hperm := List.perm_middle.symm.trans ((List.perm_cons_erase h2).symm.append_left s.t1)
      rw [if_neg h1, if_pos h2]
      exact ⟨_, _, rfl, List.Sublist.refl s.t1, List.erase_sublist, absent hperm, hperm⟩
  · right
    rw [if_neg hres, removeFromGhostB1_eq hs, removeFromGhostB2_eq
      (lists_withGhosts hs s.p s.ghostHitsB1 s.ghostHitsB2 List.erase_sublist (List.Sublist.refl _))]
    rfl

/-- The cache without the resident piece, whose bytes are given back. -/
theorem lists_removeResident (hs : Lists s) {t1 t2 : List PieceIndex} (ht1 : t1.Sublist s.t1)
    (ht2 : t2.Sublist s.t2) (hnot : i ∉ t1 ++ t2) (hperm : (i :: (t1 ++ t2)).Perm (s.t1 ++ s.t2)) :
    Lists { s with t1 := t1, t2 := t2, entries := Function.update s.entries i none,
                   currentBytes := s.currentBytes - sizeIn s.entries i } ∧
    total (Function.update s.entries i none) (t1 ++ t2) + sizeIn s.entries i =
      total s.entries (s.t1 ++ s.t2) := by
  refine hs.without (x := i) (fun j => ?_) hnot hperm rfl ⟨hs.b1Set, hs.b2Set⟩
  have h1 := ht1.count_le j
  have h2 := ht2.count_le j
  unfold held
  dsimp only
  omega

/-- A removal takes the piece out of every list. -/
theorem consistent_remove (hs : Consistent s) (i : PieceIndex) : Consistent (s.remove i).2 := by
  rcases remove_cases hs.lists i with ⟨t1, t2, heq, ht1, ht2, hnot, hperm⟩ | heq
  · obtain ⟨hlists, htotal⟩ := lists_removeResident hs.lists ht1 ht2 hnot hperm
    rw [heq]
    refine ⟨hlists.core ?_, le_trans (Nat.sub_le _ _) hs.budget, hs.target, hs.ghosts⟩
    show s.currentBytes - sizeIn s.entries i = total (Function.update s.entries i none) (t1 ++ t2)
    rw [hs.bytes]
    omega
  · rw [heq]
    exact consistent_withGhosts hs hs.target _ _ List.erase_sublist List.erase_sublist

theorem sized_remove (hz : Sized s) (i : PieceIndex) : Sized (s.remove i).2 := by
  unfold PieceDataCache.Inner.remove removeEntry
  by_cases hres : (s.entries i).isSome = true
  · obtain ⟨data, hdata⟩ := Option.isSome_iff_exists.mp hres
    rw [if_pos hres, hdata]
    dsimp only
    split_ifs
    all_goals exact ⟨hz.maxBytes, hz.ghostCap⟩
  · rw [if_neg hres]
    exact ⟨hz.maxBytes, hz.ghostCap⟩

theorem sized_get (hz : Sized s) (i : PieceIndex) : Sized (s.get i).2 := by
  unfold PieceDataCache.Inner.get
  split_ifs
  · exact ⟨(sized_promoteToT2 hz).maxBytes, (sized_promoteToT2 hz).ghostCap⟩
  · exact ⟨hz.maxBytes, hz.ghostCap⟩

theorem consistent_clear (s : Inner) : Consistent s.clear :=
  ⟨⟨fun _ => Nat.zero_le _, fun _ => by simp [clear], rfl, rfl, rfl⟩, Nat.zero_le _, Nat.zero_le _,
    Nat.zero_le _, Nat.zero_le _⟩

end Insert

/-! ### A change of the budget -/

/-- The target under the new budget. -/
def targetOf (s : Inner) (n : ℕ) : ℕ := min s.p (ghostCapOf n)

/-- The change to the budget `n` evicts from T1. -/
def EvictsT1 (s : Inner) (n : ℕ) : Prop :=
  s.t1 ≠ [] ∧ n < s.currentBytes ∧ (targetOf s n < s.t1.length ∨ n < total s.entries s.t1)

/-- The change to the budget `n` evicts from T2: T1 is cut to the target at most before that. -/
def EvictsT2 (s : Inner) (n : ℕ) : Prop :=
  s.t2 ≠ [] ∧ n < total s.entries (s.t1.take (targetOf s n)) + total s.entries s.t2

/-- The change to the budget `n` evicts from the queue. -/
def Evicts (s : Inner) (n : ℕ) : Queue → Prop
  | .t1 => EvictsT1 s n
  | .t2 => EvictsT2 s n

/-- **The change of the budget fits**: each ghost list is within the new cap, or an eviction into it
cuts it. -/
def Fits (s : Inner) (n : ℕ) : Prop :=
  (s.b1.length ≤ ghostCapOf n ∨ EvictsT1 s n) ∧ (s.b2.length ≤ ghostCapOf n ∨ EvictsT2 s n)

/-- What holds in each round of the loop of `set_max_bytes`: `s` is what is left of `s₀`. -/
structure Shrinking (s₀ : Inner) (n : ℕ) (s : Inner) : Prop extends Core s where
  short : Short s
  maxBytes : s.maxBytes = n
  ghostCap : s.ghostCap = ghostCapOf n
  target : s.p = targetOf s₀ n
  front1 : ∃ d, s₀.t1 = s.t1 ++ d
  front2 : ∃ d, s₀.t2 = s.t2 ++ d
  same : ∀ i, i ∈ s.t1 ∨ i ∈ s.t2 → s.entries i = s₀.entries i
  ghost1 : (s.t1 = s₀.t1 ∧ s.b1 = s₀.b1) ∨ (EvictsT1 s₀ n ∧ s.b1.length ≤ s.ghostCap ∧
    (targetOf s₀ n ≤ s.t1.length ∨ s.t2 = []))
  ghost2 : (s.t2 = s₀.t2 ∧ s.b2 = s₀.b2) ∨ (EvictsT2 s₀ n ∧ s.b2.length ≤ s.ghostCap ∧
    s.t1.length ≤ targetOf s₀ n)

section Shrink

variable {s₀ s : Inner} {n : ℕ} {q : Queue} {l : List PieceIndex} {x : PieceIndex}

theorem total_congr {e e' : PieceIndex → Option Bytes} {l : List PieceIndex}
    (h : ∀ i ∈ l, e i = e' i) : total e l = total e' l := by
  unfold total sizeIn
  refine congrArg List.sum (List.map_congr_left fun i hi => ?_)
  rw [h i hi]

theorem total_take_le (e : PieceIndex → Option Bytes) (k : ℕ) (l : List PieceIndex) :
    total e (l.take k) ≤ total e l := by
  have h : total e (l.take k ++ l.drop k) = total e l := by rw [List.take_append_drop]
  rw [total_append] at h
  omega

theorem Shrinking.currentBytes_eq (hs : Shrinking s₀ n s) :
    s.currentBytes = total s₀.entries s.t1 + total s₀.entries s.t2 := by
  rw [hs.bytes, total_append, total_congr fun i hi => hs.same i (Or.inl hi),
    total_congr fun i hi => hs.same i (Or.inr hi)]

/-- T2 is evicted from when T1 is no longer than the target. -/
theorem Shrinking.within_target (hs : Shrinking s₀ n s) (hwhy : Chosen s .t2) :
    s.t1.length ≤ targetOf s₀ n := by
  rw [← hs.target]
  rcases hwhy with h1 | hp
  · rw [h1]
    exact Nat.zero_le _
  · exact hp

/-- What stays resident stays as it was. -/
theorem Shrinking.same_evicted (hs : Shrinking s₀ n s) (ht : resident s q = l ++ [x]) :
    ∀ i, i ∈ (evicted s q l x).t1 ∨ i ∈ (evicted s q l x).t2 → (evicted s q l x).entries i = s₀.entries i := by
  intro i hi
  have hentries : (evicted s q l x).entries = Function.update s.entries x none := by cases q <;> rfl
  have hne : i ≠ x := by
    rintro rfl
    have hsome := ((core_evicted hs.toCore ht).entries i).mpr hi
    rw [hentries, Function.update_self] at hsome
    cases hsome
  have hold : i ∈ s.t1 ∨ i ∈ s.t2 := by
    have hmem : i ∈ l → i ∈ resident s q := fun h => ht ▸ List.mem_append_left _ h
    cases q with
    | t1 => exact hi.imp_left hmem
    | t2 => exact hi.imp_right hmem
  rw [hentries, Function.update_of_ne hne]
  exact hs.same i hold

/-- **Why the loop evicts** from a queue is why the change of the budget does. -/
theorem Shrinking.evicts (h₀ : Core s₀) (hs : Shrinking s₀ n s) (hfull : n < s.currentBytes)
    (ht : resident s q = l ++ [x]) (hwhy : Chosen s q) : Evicts s₀ n q := by
  have hcur := hs.currentBytes_eq
  obtain ⟨d1, hd1⟩ := hs.front1
  obtain ⟨d2, hd2⟩ := hs.front2
  cases q with
  | t1 =>
    have hbytes := h₀.bytes
    rw [hd1, hd2] at hbytes
    simp only [total_append] at hbytes
    refine ⟨by rw [hd1, show s.t1 = _ from ht]; simp, by omega, ?_⟩
    rcases hwhy with h2 | hp
    · right
      rw [h2, total_nil] at hcur
      rw [hd1, total_append]
      omega
    · left
      rw [hs.target] at hp
      rw [hd1, List.length_append]
      omega
  | t2 =>
    have hle := hs.within_target hwhy
    refine ⟨by rw [hd2, show s.t2 = _ from ht]; simp, ?_⟩
    rw [hd1, List.take_append, List.take_of_length_le hle, hd2, total_append, total_append]
    omega

theorem shrinking_evicted (h₀ : Core s₀) (hn : n < 2 ^ 50) (hs : Shrinking s₀ n s) (hfull : n < s.currentBytes)
    (ht : resident s q = l ++ [x]) (hwhy : Chosen s q) : Shrinking s₀ n (evicted s q l x) := by
  have hcap : 0 < s.ghostCap ∧ s.ghostCap < 2 ^ 32 := by
    rw [hs.ghostCap, ghostCapOf_eq hn]
    omega
  have hcore := core_evicted hs.toCore ht
  have hsame := hs.same_evicted ht
  have hevicts := hs.evicts h₀ hfull ht hwhy
  have hlen := length_cons_take_le (s := s) (x := x) hcap.1 (ghost s q)
  obtain ⟨d1, hd1⟩ := hs.front1
  obtain ⟨d2, hd2⟩ := hs.front2
  cases q with
  | t1 =>
    change s.t1 = l ++ [x] at ht
    have hshort : l.length < s.t1.length := by simp [ht]
    refine ⟨hcore, ⟨lt_of_le_of_lt hlen hcap.2, hs.short.2⟩, hs.maxBytes, hs.ghostCap, hs.target,
      ⟨x :: d1, by rw [hd1, ht]; simp [evicted]⟩, ⟨d2, hd2⟩, hsame, Or.inr ⟨hevicts, hlen, ?_⟩, ?_⟩
    · unfold Chosen at hwhy
      rw [hs.target, ht, List.length_append, List.length_singleton] at hwhy
      exact hwhy.symm.imp Nat.le_of_lt_succ id
    · exact hs.ghost2.imp_right fun h => ⟨h.1, h.2.1, hshort.le.trans h.2.2⟩
  | t2 =>
    change s.t2 = l ++ [x] at ht
    refine ⟨hcore, ⟨hs.short.1, lt_of_le_of_lt hlen hcap.2⟩, hs.maxBytes, hs.ghostCap, hs.target,
      ⟨d1, hd1⟩, ⟨x :: d2, by rw [hd2, ht]; simp [evicted]⟩, hsame, ?_,
      Or.inr ⟨hevicts, hlen, hs.within_target hwhy⟩⟩
    -- T2 is not empty yet
    refine hs.ghost1.imp_right fun h => ⟨h.1, h.2.1, Or.inl (h.2.2.resolve_right ?_)⟩
    simp [ht]

/-- **A round of `set_max_bytes`**. -/
theorem shrink_spec (h₀ : Core s₀) (hn : n < 2 ^ 50) (hs : Shrinking s₀ n s) :
    (∃ t, s.shrink = some (true, t) ∧ Shrinking s₀ n t ∧ t.evictable < s.evictable) ∨
    ∃ t, s.shrink = some (false, t) ∧ Shrinking s₀ n t ∧ t.currentBytes ≤ n := by
  unfold shrink
  rw [hs.maxBytes]
  by_cases hfull : n < s.currentBytes
  · left
    have hcap : 0 < s.ghostCap := by
      rw [hs.ghostCap, ghostCapOf_eq hn]
      omega
    have hne := hs.toCore.nonempty_of_pos (Nat.zero_lt_of_lt hfull)
    have hany : s.evictAny = s.replace := by
      unfold evictAny
      rw [if_pos (by simpa [List.isEmpty_iff] using hne)]
    rw [if_pos hfull, hany]
    obtain ⟨q, l, x, ht, hwhy, he⟩ := replace_cases hs.lists hne
    rw [if_pos hcap] at he
    exact ⟨_, he, shrinking_evicted h₀ hn hs hfull ht hwhy, evictable_evicted ht⟩
  · right
    exact ⟨s, if_neg hfull, hs, Nat.le_of_not_lt hfull⟩

/-- **When the budget has been changed** the cache is consistent exactly if the change fits. -/
theorem Shrinking.consistent_iff (h₀ : Core s₀) (hs : Shrinking s₀ n s) (hle : s.currentBytes ≤ n) :
    Consistent s ↔ Fits s₀ n := by
  have hcur := hs.currentBytes_eq
  obtain ⟨d1, hd1⟩ := hs.front1
  have hb1 : s.b1.length ≤ s.ghostCap ↔ s₀.b1.length ≤ ghostCapOf n ∨ EvictsT1 s₀ n := by
    rcases hs.ghost1 with ⟨h1, hb⟩ | ⟨hev, hlen, -⟩
    · rw [hb, hs.ghostCap]
      refine ⟨Or.inl, fun h => h.resolve_right ?_⟩
      rintro ⟨-, hbig, hwhy⟩
      rw [h1] at hcur
      rcases hs.ghost2 with ⟨h2, -⟩ | ⟨-, -, hshort⟩
      · rw [h₀.bytes, total_append, ← h2] at hbig
        omega
      · rw [h1] at hshort
        omega
    · exact ⟨fun _ => Or.inr hev, fun _ => hlen⟩
  have hb2 : s.b2.length ≤ s.ghostCap ↔ s₀.b2.length ≤ ghostCapOf n ∨ EvictsT2 s₀ n := by
    rcases hs.ghost2 with ⟨h2, hb⟩ | ⟨hev, hlen, -⟩
    · rw [hb, hs.ghostCap]
      refine ⟨Or.inl, fun h => h.resolve_right ?_⟩
      rintro ⟨hne, hbig⟩
      rw [h2] at hcur
      have hprefix : total s₀.entries (s₀.t1.take (targetOf s₀ n)) ≤ total s₀.entries s.t1 := by
        rcases hs.ghost1 with ⟨h1, -⟩ | ⟨-, -, hlong | hnil⟩
        · rw [h1]
          exact total_take_le _ _ _
        · rw [hd1, List.take_append_of_le_length hlong]
          exact total_take_le _ _ _
        · exact absurd (h2 ▸ hnil) hne
      omega
    · exact ⟨fun _ => Or.inr hev, fun _ => hlen⟩
  have htarget : s.p ≤ s.ghostCap := by
    rw [hs.target, hs.ghostCap]
    exact min_le_right _ _
  unfold Fits
  rw [← hb1, ← hb2]
  exact ⟨fun h => h.ghosts, fun h => ⟨hs.toCore, by rw [hs.maxBytes]; exact hle, htarget, h⟩⟩

/-- **`set_max_bytes`** returns; the cache is consistent again exactly if the change fits. -/
theorem setMaxBytes_spec (hs : Consistent s) (hz : Sized s) (hn : n < 2 ^ 50) :
    ∃ t, s.setMaxBytes n = some t ∧ Sized t ∧ (Consistent t ↔ Fits s n) := by
  have hstart : Shrinking s n (s.withBudget n) :=
    ⟨⟨hs.once, hs.entries, hs.b1Set, hs.b2Set, hs.bytes⟩, hs.short hz, rfl, rfl, rfl,
      ⟨[], (List.append_nil _).symm⟩, ⟨[], (List.append_nil _).symm⟩, fun _ _ => rfl,
      Or.inl ⟨rfl, rfl⟩, Or.inl ⟨rfl, rfl⟩⟩
  obtain ⟨t, ht, hend, hle⟩ := loop_total evictable (fun _ h => shrink_spec hs.toCore hn h) hstart
  refine ⟨t, ht, ⟨by rw [hend.maxBytes]; exact hn, by rw [hend.ghostCap, hend.maxBytes]⟩, ?_⟩
  exact hend.consistent_iff hs.toCore hle

end Shrink

/-! ### Every run -/

/-- The condition on the state before an operation. -/
def Ready (s : Inner) : Op → Prop
  | .setMaxBytes newMax => Fits s newMax
  | _ => True

/-- **One operation** on a consistent cache returns, and leaves it consistent exactly if it is
ready for it. -/
theorem step_spec {s : Inner} (hs : Consistent s) (hz : Sized s) (op : Op) :
    ∃ t, step s op = some t ∧ Sized t ∧ (Consistent t ↔ Ready s op) := by
  cases op with
  | insert i data =>
    obtain ⟨t, ht, hc, hz'⟩ := insert_spec hs hz i data
    exact ⟨t, ht, hz', fun _ => trivial, fun _ => hc⟩
  | get i => exact ⟨_, rfl, sized_get hz i, fun _ => trivial, fun _ => consistent_get hs i⟩
  | remove i => exact ⟨_, rfl, sized_remove hz i, fun _ => trivial, fun _ => consistent_remove hs i⟩
  | clear => exact ⟨_, rfl, ⟨hz.maxBytes, hz.ghostCap⟩, fun _ => trivial, fun _ => consistent_clear s⟩
  | setMaxBytes newMax => exact setMaxBytes_spec hs hz newMax.isLt

/-- **The claim of one state**: the lists hold no index twice and are disjoint, the entries and
mirrors agree with them, the count is exact and within the budget, the target and the ghost lists
are within the cap, and every operation returns. -/
structure Sound (s : Inner) : Prop where
  nodup : (s.t1 ++ s.t2 ++ s.b1 ++ s.b2).Nodup
  entries : ∀ i, (s.entries i).isSome = true ↔ i ∈ s.t1 ∨ i ∈ s.t2
  mirrors : s.b1Set = s.b1.toFinset ∧ s.b2Set = s.b2.toFinset
  bytes : s.currentBytes = total s.entries (s.t1 ++ s.t2)
  budget : s.currentBytes ≤ s.maxBytes
  target : s.p ≤ s.ghostCap
  ghosts : s.b1.length ≤ s.ghostCap ∧ s.b2.length ≤ s.ghostCap
  returns : ∀ op, (step s op).isSome = true

theorem sound_iff {s : Inner} (hz : Sized s) : Sound s ↔ Consistent s := by
  constructor
  · intro h
    refine ⟨⟨fun i => ?_, h.entries, h.mirrors.1, h.mirrors.2, h.bytes⟩, h.budget, h.target,
      h.ghosts⟩
    have hcount := List.nodup_iff_count_le_one.mp h.nodup i
    rw [List.count_append, List.count_append, List.count_append] at hcount
    exact hcount
  · intro h
    refine ⟨h.lists.nodup, h.entries, ⟨h.b1Set, h.b2Set⟩, h.bytes, h.budget, h.target, h.ghosts, ?_⟩
    intro op
    obtain ⟨t, ht, -⟩ := step_spec h hz op
    rw [ht]
    rfl

/-- **The cache is sound throughout a run exactly if every change of the budget fits.** -/
theorem sound_iff_fits (maxBytes : Budget) (ops : List Op) :
    Always step Sound (Inner.new maxBytes) ops ↔ Meets step Ready (Inner.new maxBytes) ops := by
  have hz : Sized (Inner.new maxBytes) := ⟨maxBytes.isLt, rfl⟩
  have hstart : Consistent (Inner.new maxBytes) :=
    ⟨⟨fun _ => Nat.zero_le _, fun _ => by simp [Inner.new], rfl, rfl, rfl⟩, Nat.zero_le _,
      Nat.zero_le _, Nat.zero_le _, Nat.zero_le _⟩
  refine always_iff_meets (I := Sized) ?_ ?_ ?_ hz ((sound_iff hz).mpr hstart)
  · intro s op s' hz hs hop
    obtain ⟨t, ht, hz', -⟩ := step_spec ((sound_iff hz).mp hs) hz op
    rw [hop] at ht
    cases ht
    exact hz'
  · intro s op s' hz hs hop
    obtain ⟨t, ht, hz', hiff⟩ := step_spec ((sound_iff hz).mp hs) hz op
    rw [hop] at ht
    cases ht
    rw [sound_iff hz']
    exact hiff
  · intro s op hz hs hop
    obtain ⟨t, ht, -⟩ := step_spec ((sound_iff hz).mp hs) hz op
    rw [hop] at ht
    cases ht

/-- Seventeen pieces are evicted into B1 by a piece that fills the budget; that one is removed, and
the budget is set to zero. -/
def seventeenGhosts : List Op :=
  [.insert 0 ⟨1, fun _ => 0⟩, .insert 1 ⟨1, fun _ => 0⟩, .insert 2 ⟨1, fun _ => 0⟩,
    .insert 3 ⟨1, fun _ => 0⟩, .insert 4 ⟨1, fun _ => 0⟩, .insert 5 ⟨1, fun _ => 0⟩,
    .insert 6 ⟨1, fun _ => 0⟩, .insert 7 ⟨1, fun _ => 0⟩, .insert 8 ⟨1, fun _ => 0⟩,
    .insert 9 ⟨1, fun _ => 0⟩, .insert 10 ⟨1, fun _ => 0⟩, .insert 11 ⟨1, fun _ => 0⟩,
    .insert 12 ⟨1, fun _ => 0⟩, .insert 13 ⟨1, fun _ => 0⟩, .insert 14 ⟨1, fun _ => 0⟩,
    .insert 15 ⟨1, fun _ => 0⟩, .insert 16 ⟨1, fun _ => 0⟩, .insert 17 ⟨4456448, fun _ => 0⟩,
    .remove 17, .setMaxBytes 0]

theorem ghosts_over_cap : ¬ Always step Sound (Inner.new (4456448 : Budget)) seventeenGhosts := by
  intro h
  have hrun : ∃ s, run step (Inner.new (4456448 : Budget)) seventeenGhosts = some s ∧
      s.b1.length = 17 ∧ s.ghostCap = 16 := ⟨_, rfl, by decide, by decide⟩
  obtain ⟨s, hs, hlen, hcap⟩ := hrun
  have hghosts := (h.last hs).ghosts.1
  omega

end CncContent.Cache.PieceDataCacheSpec
