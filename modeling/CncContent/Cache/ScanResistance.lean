import CncContent.Cache.PieceDataCacheSpec

/-! # Scans of the ARC piece cache

A scan inserts pieces that no list holds. While the target is 0 and a piece is not larger than what
the pieces of T2 leave of the budget, `ensure_room` stops before T1 is empty, or with it, so that a
scan evicts from T1 alone, the piece that came first first (`scan_resistance`).

The budget is any `u64` here. A count of bytes that saturates stays below the bytes stored, which is
all that a scan needs (`Accounted`). A budget of 2^50 or more can have a ghost cap of 0, and then the
loop that cuts a ghost list does not end; the evictions are recorded as they start, so they are known
for such a call too. -/

namespace CncContent.Cache.ScanResistance

open CncContent.Lib.Bounded CncContent.Lib.Loop CncContent.Lib.Runs
open CncContent.Cache.PieceDataCache CncContent.Cache.PieceDataCache.Inner
open CncContent.Cache.PieceDataCacheSpec

/-! ### The calls -/

/-- A call of the cache, whose budget may be any `u64`. -/
inductive Call
  | insert (i : PieceIndex) (data : Bytes)
  | get (i : PieceIndex)
  | remove (i : PieceIndex)
  | clear
  | setMaxBytes (newMax : Fin (2 ^ 64))

/-- The cache after the call, if it returns. -/
def call (s : Inner) : Call → Option Inner
  | .insert i data => s.insert i data
  | .get i => some (s.get i).2
  | .remove i => some (s.remove i).2
  | .clear => some s.clear
  | .setMaxBytes newMax => s.setMaxBytes newMax

/-- The cache is what calls that return have made of a new one. -/
def Reachable (s : Inner) : Prop :=
  ∃ (maxBytes : Fin (2 ^ 64)) (calls : List Call), run call (Inner.new maxBytes) calls = some s

/-! ### What every call keeps -/

/-- The lists are in order and no byte is counted that is not stored. -/
structure Accounted (s : Inner) : Prop extends Lists s where
  bytes : s.currentBytes ≤ total s.entries (s.t1 ++ s.t2)

section Accounted

variable {s t : Inner} {i : PieceIndex} {data : Bytes}

theorem accounted_evicted (hs : Accounted s) {q : Queue} {l : List PieceIndex} {x : PieceIndex}
    (ht : resident s q = l ++ [x]) : Accounted (evicted s q l x) := by
  obtain ⟨hlists, hbytes⟩ := lists_evicted hs.toLists ht
  refine ⟨hlists, ?_⟩
  have hle := hs.bytes
  rw [currentBytes_evicted]
  omega

theorem replace_of_nil (h : ¬ (s.t1 ≠ [] ∨ s.t2 ≠ [])) : s.replace = some (false, s) := by
  rw [not_or, not_not, not_not] at h
  unfold replace evictFromT2
  rw [h.1, h.2]
  rfl

/-- **`replace`**, where it returns. -/
theorem accounted_replace (hs : Accounted s) {b : Bool} (h : s.replace = some (b, t)) :
    Accounted t ∧ ∀ i, held t i ≤ held s i := by
  by_cases hne : s.t1 ≠ [] ∨ s.t2 ≠ []
  · obtain ⟨q, l, x, ht, -, he⟩ := replace_cases hs.toLists hne
    rw [h] at he
    split_ifs at he
    cases he
    exact ⟨accounted_evicted hs ht, held_evicted ht⟩
  · rw [replace_of_nil hne] at h
    cases h
    exact ⟨hs, fun _ => le_rfl⟩

theorem accounted_ensureRoom (hs : Accounted s) {n : ℕ} (h : s.ensureRoom n = some t) :
    Accounted t ∧ ∀ i, held t i ≤ held s i := by
  refine loop_inv (I := fun t => Accounted t ∧ ∀ i, held t i ≤ held s i) ?_
    ⟨hs, fun _ => le_rfl⟩ h
  rintro u b v ⟨hu, hheld⟩ hround
  unfold makeRoom at hround
  split_ifs at hround
  · obtain ⟨hv, hle⟩ := accounted_replace hu hround
    exact ⟨hv, fun i => le_trans (hle i) (hheld i)⟩
  · cases hround
    exact ⟨hu, hheld⟩

theorem accounted_insertEntry (hs : Accounted s) (hfresh : held s i = 0) {t1 t2 : List PieceIndex}
    (ht : (t1 = i :: s.t1 ∧ t2 = s.t2) ∨ (t1 = s.t1 ∧ t2 = i :: s.t2)) :
    Accounted { s.insertEntry i data with t1 := t1, t2 := t2 } := by
  obtain ⟨hlists, htotal⟩ := lists_insertEntry data hs.toLists hfresh ht
  refine ⟨hlists, ?_⟩
  have := hs.bytes
  show satAdd u64Max s.currentBytes data.len ≤ total (Function.update s.entries i (some data)) _
  rw [htotal]
  unfold satAdd
  omega

theorem accounted_withGhosts (hs : Accounted s) (p hits1 hits2 : ℕ) {b1 b2 : List PieceIndex}
    (h1 : b1.Sublist s.b1) (h2 : b2.Sublist s.b2) : Accounted (withGhosts s b1 b2 p hits1 hits2) :=
  ⟨lists_withGhosts hs.toLists p hits1 hits2 h1 h2, hs.bytes⟩

theorem accounted_promoteToT2 (hs : Accounted s) : Accounted (s.promoteToT2 i) := by
  obtain ⟨t1, t2, heq, hperm⟩ := promoteToT2_cases s i
  obtain ⟨hlists, htotal⟩ := lists_moved hs.toLists hperm
  rw [heq]
  exact ⟨hlists, hs.bytes.trans htotal.ge⟩

theorem accounted_insert (hs : Accounted s) (h : s.insert i data = some t) : Accounted t := by
  rcases insert_cases hs.toLists i data with hi | hi | ⟨-, hi⟩ |
    ⟨b1, b2, p, hits1, hits2, front1, front2, -, h1, h2, -, hfresh, hfront, hi⟩
  all_goals rw [hi] at h
  · cases h
    exact hs
  · cases h
    exact accounted_promoteToT2 hs
  · cases h
  · obtain ⟨u, hu, rfl⟩ := Option.map_eq_some_iff.mp h
    obtain ⟨hacc, hle⟩ := accounted_ensureRoom (accounted_withGhosts hs p hits1 hits2 h1 h2) hu
    refine accounted_insertEntry hacc (Nat.le_zero.mp (hfresh ▸ hle i)) ?_
    rcases hfront with ⟨rfl, rfl⟩ | ⟨rfl, rfl⟩
    · exact Or.inl ⟨rfl, rfl⟩
    · exact Or.inr ⟨rfl, rfl⟩

theorem accounted_get (hs : Accounted s) (i : PieceIndex) : Accounted (s.get i).2 := by
  unfold PieceDataCache.Inner.get
  split_ifs with h
  · obtain ⟨hc, hb⟩ := accounted_promoteToT2 (i := i) hs
    exact ⟨⟨hc.once, hc.entries, hc.b1Set, hc.b2Set⟩, hb⟩
  · exact ⟨⟨hs.once, hs.entries, hs.b1Set, hs.b2Set⟩, hs.bytes⟩

theorem accounted_remove (hs : Accounted s) (i : PieceIndex) : Accounted (s.remove i).2 := by
  rcases remove_cases hs.toLists i with ⟨t1, t2, heq, ht1, ht2, hnot, hperm⟩ | heq
  · obtain ⟨hlists, htotal⟩ := lists_removeResident hs.toLists ht1 ht2 hnot hperm
    have := hs.bytes
    rw [heq]
    refine ⟨hlists, ?_⟩
    show s.currentBytes - sizeIn s.entries i ≤ total (Function.update s.entries i none) (t1 ++ t2)
    omega
  · rw [heq]
    exact accounted_withGhosts hs _ _ _ List.erase_sublist List.erase_sublist

theorem accounted_setMaxBytes (hs : Accounted s) {n : ℕ} (h : s.setMaxBytes n = some t) :
    Accounted t := by
  refine loop_inv (I := Accounted) ?_
    (⟨⟨hs.once, hs.entries, hs.b1Set, hs.b2Set⟩, hs.bytes⟩ : Accounted (s.withBudget n)) h
  intro u b v hu hround
  unfold shrink evictAny at hround
  split_ifs at hround
  · exact (accounted_replace hu hround).1
  · cases hround
    exact hu
  · cases hround
    exact hu

/-- **Every call** that returns keeps the lists in order. -/
theorem accounted_call (s : Inner) (c : Call) (t : Inner) (hs : Accounted s)
    (h : call s c = some t) : Accounted t := by
  cases c with
  | insert i data => exact accounted_insert hs h
  | get i =>
    cases h
    exact accounted_get hs i
  | remove i =>
    cases h
    exact accounted_remove hs i
  | clear =>
    cases h
    have hclear := consistent_clear s
    exact ⟨hclear.lists, hclear.bytes.le⟩
  | setMaxBytes newMax => exact accounted_setMaxBytes hs h

theorem Reachable.accounted (hs : Reachable s) : Accounted s := by
  obtain ⟨maxBytes, calls, hrun⟩ := hs
  refine inv_run accounted_call ?_ hrun
  exact ⟨⟨fun _ => Nat.zero_le _, fun _ => by simp [Inner.new], rfl, rfl⟩, Nat.zero_le _⟩

end Accounted

/-! ### Evictions -/

/-- The choice of `replace`. -/
def takesT1 (s : Inner) : Bool :=
  if s.t1.isEmpty then false
  else if s.t2.isEmpty then true
  else decide (s.p < asU32 s.t1.length)

/-- The list that `replace` evicts from, and the piece. -/
def victim (s : Inner) : Option (Queue × PieceIndex) :=
  if takesT1 s then s.t1.getLast?.map fun i => (Queue.t1, i)
  else s.t2.getLast?.map fun i => (Queue.t2, i)

/-- The evictions of `ensure_room`. -/
def roomEvictions (s : Inner) (pieceBytes : ℕ) : List (Queue × PieceIndex) :=
  (working (fun s => s.makeRoom pieceBytes) (s.evictable + 1) s).filterMap victim

/-- The evictions of `insert`. -/
def insertEvictions (s : Inner) (i : PieceIndex) (data : Bytes) : List (Queue × PieceIndex) :=
  if s.maxBytes < data.len then []
  else if (s.entries i).isSome then []
  else if i ∈ s.b1Set then
    s.growTarget.elim [] fun p => roomEvictions ({ s with p := p }.removeFromGhostB1 i) data.len
  else if i ∈ s.b2Set then
    s.shrinkTarget.elim [] fun p => roomEvictions ({ s with p := p }.removeFromGhostB2 i) data.len
  else roomEvictions s data.len

/-- The cache after the insertions, if all return. -/
def insertAll : Inner → List (PieceIndex × Bytes) → Option Inner :=
  run fun s x => s.insert x.1 x.2

/-- The evictions of the insertions, up to one that does not return. -/
def allEvictions : Inner → List (PieceIndex × Bytes) → List (Queue × PieceIndex)
  | _, [] => []
  | s, x :: xs => insertEvictions s x.1 x.2 ++
    match s.insert x.1 x.2 with
    | some t => allEvictions t xs
    | none => []

section Evictions

variable {s t : Inner} {n : ℕ}

/-- **What is evicted is the victim.** -/
theorem victim_of_replace (hs : Lists s) (h : s.replace = some (true, t)) :
    (∃ i, victim s = some (Queue.t1, i) ∧ s.t1 = t.t1 ++ [i] ∧ t.t2 = s.t2) ∨
    ∃ i, victim s = some (Queue.t2, i) ∧ s.t2 = t.t2 ++ [i] ∧ t.t1 = s.t1 := by
  have hreplace : s.replace = if takesT1 s then s.evictFromT1 else s.evictFromT2 := rfl
  rw [hreplace] at h
  unfold victim
  by_cases htakes : takesT1 s = true
  · left
    rw [if_pos htakes] at h ⊢
    by_cases hnil : s.t1 = []
    · simp [evictFromT1, popBack, hnil] at h
    · obtain ⟨l, x, hl⟩ := eq_append_of_ne_nil hnil
      rw [show s.evictFromT1 = _ from evictFrom_eq (q := .t1) hs hl] at h
      split_ifs at h
      cases h
      exact ⟨x, by rw [hl]; simp, hl, rfl⟩
  · right
    rw [if_neg htakes] at h ⊢
    by_cases hnil : s.t2 = []
    · simp [evictFromT2, popBack, hnil] at h
    · obtain ⟨l, x, hl⟩ := eq_append_of_ne_nil hnil
      rw [show s.evictFromT2 = _ from evictFrom_eq (q := .t2) hs hl] at h
      split_ifs at h
      cases h
      exact ⟨x, by rw [hl]; simp, hl, rfl⟩

/-! ### Scans -/

/-- What a scan leaves as it is: T2 and its pieces, the budget, the ghost cap and the target 0. -/
structure Kept (s t : Inner) : Prop where
  t2 : t.t2 = s.t2
  entries : ∀ i ∈ s.t2, t.entries i = s.entries i
  maxBytes : t.maxBytes = s.maxBytes
  ghostCap : t.ghostCap = s.ghostCap
  target : t.p = 0

theorem Kept.trans {u : Inner} (hst : Kept s t) (htu : Kept t u) : Kept s u :=
  ⟨htu.t2.trans hst.t2, fun i hi => (htu.entries i (hst.t2 ▸ hi)).trans (hst.entries i hi),
    htu.maxBytes.trans hst.maxBytes, htu.ghostCap.trans hst.ghostCap, htu.target⟩

theorem Kept.total_t2 (h : Kept s t) : total t.entries t.t2 = total s.entries s.t2 := by
  rw [h.t2]
  exact total_congr h.entries

/-- **A round of `ensure_room`** with the target 0: if T1 is empty the piece fits beside T2, so what
is evicted is the last of T1. -/
theorem makeRoom_scan (hs : Accounted s) (hp : s.p = 0) (hn : n + total s.entries s.t2 ≤ s.maxBytes) :
    s.makeRoom n = some (false, s) ∨ ∃ l x, s.t1 = l ++ [x] ∧ victim s = some (Queue.t1, x) ∧
      s.makeRoom n = if 0 < s.ghostCap then some (true, evicted s .t1 l x) else none := by
  have hbytes := hs.bytes
  rw [total_append] at hbytes
  unfold makeRoom
  by_cases hfull : s.maxBytes < satAdd u64Max s.currentBytes n
  · right
    have hne : s.t1 ≠ [] := by
      intro h
      rw [h, total_nil] at hbytes
      unfold satAdd at hfull
      omega
    have htakes : takesT1 s = true := by
      unfold takesT1
      by_cases h2 : s.t2 = []
      · simp [hne, h2]
      · have hlt := hs.t1_length_lt h2
        have hpos := List.length_pos_iff.mpr hne
        have hmod : asU32 s.t1.length = s.t1.length := by
          unfold asU32 u32Max
          omega
        simp [hne, h2, hmod, hp, hpos]
    have hreplace : s.replace = if takesT1 s then s.evictFromT1 else s.evictFromT2 := rfl
    obtain ⟨l, x, ht⟩ := eq_append_of_ne_nil hne
    refine ⟨l, x, ht, ?_, ?_⟩
    · unfold victim
      rw [if_pos htakes, ht]
      simp
    · rw [if_pos hfull, hreplace, if_pos htakes]
      exact evictFrom_eq (q := .t1) hs.toLists ht
  · exact Or.inl (if_neg hfull)

theorem kept_evictedT1 (hs : Accounted s) (hp : s.p = 0) {l : List PieceIndex} {x : PieceIndex}
    (ht : s.t1 = l ++ [x]) : Kept s (evicted s .t1 l x) := by
  refine ⟨rfl, fun i hi => Function.update_of_ne ?_ _ _, rfl, rfl, hp⟩
  rintro rfl
  exact (hs.last (q := .t1) ht).2.1 (List.mem_append_right _ hi)

/-- **What making room does in a scan**: some of the last pieces of T1 are evicted, the last first,
and the rest of T1 stays. -/
structure Cleared (s : Inner) (evicted : List (Queue × PieceIndex)) (result : Option Inner) : Prop where
  front : evicted <+: s.t1.reverse.map fun i => (Queue.t1, i)
  kept : ∀ t, result = some t → Accounted t ∧ Kept s t ∧ (∀ i, held t i ≤ held s i) ∧
    t.t1.reverse = s.t1.reverse.drop evicted.length
  returns : 0 < s.ghostCap → result ≠ none

theorem cleared_loop : ∀ {fuel : ℕ} {s : Inner}, Accounted s → s.p = 0 →
    n + total s.entries s.t2 ≤ s.maxBytes → s.evictable < fuel →
    Cleared s ((working (fun s => s.makeRoom n) fuel s).filterMap victim)
      (loop (fun s => s.makeRoom n) fuel s)
  | 0, _, _, _, _, hfuel => absurd hfuel (Nat.not_lt_zero _)
  | fuel + 1, s, hs, hp, hn, hfuel => by
    rw [working, loop]
    rcases makeRoom_scan hs hp hn with hstay | ⟨l, x, ht, hvictim, hround⟩
    · rw [hstay]
      refine ⟨List.nil_prefix, fun t h => ?_, fun _ => Option.some_ne_none _⟩
      cases h
      exact ⟨hs, ⟨rfl, fun _ _ => rfl, rfl, rfl, hp⟩, fun _ => le_rfl, rfl⟩
    · have hreverse : s.t1.reverse = x :: l.reverse := by rw [ht, List.reverse_append]; rfl
      rw [hround]
      split_ifs with hcap
      · have hkept := kept_evictedT1 hs hp ht
        have hroom : n + total (evicted s .t1 l x).entries (evicted s .t1 l x).t2 ≤
            (evicted s .t1 l x).maxBytes := by
          rw [hkept.total_t2]
          exact hn
        obtain ⟨hev, hrest, hret⟩ := cleared_loop (accounted_evicted (q := .t1) hs ht) hp hroom
          (lt_of_lt_of_le (evictable_evicted (q := .t1) ht) (Nat.le_of_lt_succ hfuel))
        refine ⟨?_, fun t h => ?_, fun _ => hret hcap⟩
        · rw [List.filterMap_cons, hvictim, hreverse]
          exact (List.prefix_cons_inj _).mpr hev
        · obtain ⟨hacc, hk, hle, hdrop⟩ := hrest t h
          refine ⟨hacc, hkept.trans hk, fun i => le_trans (hle i) (held_evicted (q := .t1) ht i), ?_⟩
          rw [List.filterMap_cons, hvictim, hreverse, hdrop]
          rfl
      · refine ⟨?_, fun t h => (by cases h), fun h => absurd h hcap⟩
        rw [List.filterMap_cons, hvictim, hreverse]
        exact (List.prefix_cons_inj _).mpr List.nil_prefix

/-- **One insertion of a scan.** -/
theorem insert_scan {i : PieceIndex} (data : Bytes) (hs : Accounted s) (hp : s.p = 0)
    (hfresh : held s i = 0) (hn : data.len + total s.entries s.t2 ≤ s.maxBytes) :
    insertEvictions s i data <+: (s.t1.reverse.map fun i => (Queue.t1, i)) ∧
    (∀ t, s.insert i data = some t → Accounted t ∧ Kept s t ∧ (∀ j ≠ i, held t j ≤ held s j) ∧
      t.t1.reverse = s.t1.reverse.drop (insertEvictions s i data).length ++ [i]) ∧
    (0 < s.ghostCap → s.insert i data ≠ none) := by
  have hsmall : data.len ≤ s.maxBytes := le_trans (Nat.le_add_right _ _) hn
  obtain ⟨h1, h2, h3, h4⟩ := not_mem_of_held hfresh
  have hevictions : insertEvictions s i data = roomEvictions s data.len := by
    unfold insertEvictions
    rw [if_neg (Nat.not_lt.mpr hsmall), if_neg fun h => ((hs.entries i).mp h).elim h1 h2,
      if_neg (by rwa [hs.b1Set, List.mem_toFinset]), if_neg (by rwa [hs.b2Set, List.mem_toFinset])]
  obtain ⟨hev, hkept, hret⟩ : Cleared s (roomEvictions s data.len) (s.ensureRoom data.len) :=
    cleared_loop hs hp hn (Nat.lt_succ_self _)
  rw [insert_miss hs.toLists hfresh hsmall, hevictions]
  refine ⟨hev, fun t ht => ?_, fun hcap h => hret hcap (Option.map_eq_none_iff.mp h)⟩
  obtain ⟨u, hu, rfl⟩ := Option.map_eq_some_iff.mp ht
  obtain ⟨hacc, hk, hle, hdrop⟩ := hkept u hu
  have hzero : held u i = 0 := Nat.le_zero.mp (hfresh ▸ hle i)
  refine ⟨accounted_insertEntry hacc hzero (Or.inl ⟨rfl, rfl⟩), ⟨hk.t2, fun j hj => ?_, hk.maxBytes,
    hk.ghostCap, hk.target⟩, fun j hj => ?_, ?_⟩
  · rw [← hk.entries j hj]
    refine Function.update_of_ne ?_ _ _
    rintro rfl
    exact h2 hj
  · refine le_trans ?_ (hle j)
    unfold held
    dsimp only [insertEntry]
    rw [List.count_cons_of_ne hj.symm]
  · rw [← hdrop]
    exact List.reverse_cons

/-- **Scan resistance.** The cache is reachable with the target 0, and distinct pieces are inserted
that no list holds and that fit beside the pieces of T2. What is evicted comes from T1, the pieces
that were inserted first first, those of the scan last. T2 and its pieces stay, the target stays 0,
and T1 is what is left of its pieces and the scan. Every insertion returns if the ghost cap is not 0. -/
theorem scan_resistance (s : Inner) (hs : Reachable s) (hp : s.p = 0)
    (scan : List (PieceIndex × Bytes)) (hdistinct : (scan.map Prod.fst).Nodup)
    (hfresh : ∀ x ∈ scan, x.1 ∉ s.t1 ∧ x.1 ∉ s.t2 ∧ x.1 ∉ s.b1 ∧ x.1 ∉ s.b2)
    (hsize : ∀ x ∈ scan, x.2.len + total s.entries s.t2 ≤ s.maxBytes) :
    allEvictions s scan <+: ((s.t1.reverse ++ scan.map Prod.fst).map fun i => (Queue.t1, i)) ∧
    (∀ t, insertAll s scan = some t → t.p = 0 ∧ t.t2 = s.t2 ∧
      (∀ i ∈ s.t2, t.entries i = s.entries i) ∧
      t.t1.reverse = (s.t1.reverse ++ scan.map Prod.fst).drop (allEvictions s scan).length) ∧
    (0 < s.ghostCap → ∃ t, insertAll s scan = some t) := by
  have hheld : ∀ x ∈ scan, held s x.1 = 0 := by
    intro x hx
    obtain ⟨h1, h2, h3, h4⟩ := hfresh x hx
    unfold held
    rw [List.count_eq_zero_of_not_mem h1, List.count_eq_zero_of_not_mem h2,
      List.count_eq_zero_of_not_mem h3, List.count_eq_zero_of_not_mem h4]
  have hacc := hs.accounted
  clear hs hfresh
  induction scan generalizing s with
  | nil =>
    refine ⟨List.nil_prefix, fun t ht => ?_, fun _ => ⟨s, rfl⟩⟩
    cases ht
    exact ⟨hp, rfl, fun _ _ => rfl, by simp [allEvictions]⟩
  | cons x xs ih =>
    obtain ⟨i, data⟩ := x
    rw [List.map_cons, List.nodup_cons] at hdistinct
    obtain ⟨hev, hkept, hret⟩ := insert_scan data hacc hp
      (hheld _ List.mem_cons_self) (hsize _ List.mem_cons_self)
    have hlen : (insertEvictions s i data).length ≤ s.t1.reverse.length := by
      have := hev.length_le
      rwa [List.length_map] at this
    have hprefix : insertEvictions s i data <+:
        (s.t1.reverse ++ i :: xs.map Prod.fst).map fun i => (Queue.t1, i) := by
      rw [List.map_append]
      exact hev.trans (List.prefix_append _ _)
    rw [List.map_cons, allEvictions, insertAll, run]
    dsimp only
    rcases ht : s.insert i data with _ | t
    · refine ⟨by rwa [List.append_nil], fun t h => (by cases h), fun hcap => absurd ht (hret hcap)⟩
    · obtain ⟨hacct, hk, hle, hrest⟩ := hkept t ht
      have hrest' : t.t1.reverse ++ xs.map Prod.fst =
          (s.t1.reverse ++ i :: xs.map Prod.fst).drop (insertEvictions s i data).length := by
        rw [hrest, List.drop_append_of_le_length hlen, List.append_assoc]
        rfl
      obtain ⟨hevs, hend, hreturns⟩ := ih t hk.target hdistinct.2
        (fun y hy => by
          rw [hk.total_t2, hk.maxBytes]
          exact hsize y (List.mem_cons_of_mem _ hy))
        (fun y hy => by
          refine Nat.le_zero.mp (hheld y (List.mem_cons_of_mem _ hy) ▸ hle y.1 ?_)
          rintro rfl
          exact hdistinct.1 (List.mem_map.mpr ⟨y, hy, rfl⟩))
        hacct
      rw [hrest'] at hevs
      refine ⟨?_, fun u hu => ?_, fun hcap => hreturns (hk.ghostCap ▸ hcap)⟩
      · rw [List.map_drop] at hevs
        obtain ⟨rest, hall⟩ := hprefix
        rw [← hall, List.drop_left] at hevs
        rw [← hall]
        exact (List.prefix_append_right_inj _).mpr hevs
      · obtain ⟨hpu, ht2, hentries, hdrop⟩ := hend u hu
        refine ⟨hpu, ht2.trans hk.t2, fun j hj => ?_, ?_⟩
        · rw [hentries j (hk.t2 ▸ hj), hk.entries j hj]
        · rw [hdrop, hrest', List.drop_drop, List.length_append]

/-- A piece of four bytes in T2 and one in T1, under a budget of ten bytes. -/
def hotAndCold (hot cold : PieceIndex) : List Call :=
  [.insert hot ⟨4, fun _ => 0⟩, .get hot, .insert cold ⟨4, fun _ => 0⟩]

/-- Two pieces that fit beside T2, but not together. -/
def twoPieces (i j : PieceIndex) : List (PieceIndex × Bytes) :=
  [(i, ⟨5, fun _ => 1⟩), (j, ⟨6, fun _ => 2⟩)]

theorem scan_resistance_two : ∃ s, run call (Inner.new 10) (hotAndCold 0 1) = some s ∧
    allEvictions s (twoPieces 2 3) = [(Queue.t1, 1), (Queue.t1, 2)] ∧
    allEvictions s (twoPieces 2 3) <+: ((s.t1.reverse ++ [2, 3]).map fun i => (Queue.t1, i)) ∧
    ∃ t, insertAll s (twoPieces 2 3) = some t ∧ t.t2 = [0] :=
  ⟨_, rfl, by decide, (scan_resistance _ ⟨10, hotAndCold 0 1, rfl⟩ rfl (twoPieces 2 3) (by decide)
    (by decide) (by decide)).1, _, rfl, rfl⟩

end Evictions

end CncContent.Cache.ScanResistance
