import CncContent.Dht.Distance
import CncContent.Lib.Ranking
import CncContent.Lib.Runs
import Mathlib.Data.List.Nodup
import Mathlib.Tactic.Tauto

/-! # Routing tables

`RoutingTable` of the source. A table is sound (`Sound`) if its buckets are not too long, every node
occurs once and in the bucket of the highest bit in which it differs from the local one, and the
closest nodes are the closest ones. `insert` keeps a table sound; `evict_and_insert` does not look for
the node in the bucket, and keeps it sound exactly if the node is not there, or is the oldest, which is
removed (`sound_iff_fresh`). -/

namespace CncContent.Dht.Buckets

open CncContent.Lib.Bytes CncContent.Lib.Ranking CncContent.Lib.Runs CncContent.Dht.Distance

/-- The most entries of a bucket. -/
def K : ℕ := 20

structure KBucketEntry where
  nodeId : NodeId
  addr : String
  lastSeenUnixSecs : ℕ
deriving DecidableEq, Repr

structure RoutingTable where
  localId : NodeId
  buckets : List (List KBucketEntry)
deriving DecidableEq, Repr

/-- The bucket with the entry at its tail, unless it is full. -/
def upsert (bucket : List KBucketEntry) (entry : KBucketEntry) : Option (List KBucketEntry) :=
  match bucket.findIdx? fun e => e.nodeId = entry.nodeId with
  | some pos => some (bucket.eraseIdx pos ++ [entry])
  | none => if bucket.length < K then some (bucket ++ [entry]) else none

namespace RoutingTable

def new (localId : NodeId) : RoutingTable := ⟨localId, List.replicate bucketCount []⟩

variable (t : RoutingTable)

def insert (entry : KBucketEntry) : RoutingTable × Bool :=
  match bucketIndex t.localId entry.nodeId with
  | none => (t, false)
  | some idx =>
    match t.buckets[idx]? with
    | none => (t, false)
    | some bucket =>
      match upsert bucket entry with
      | some bucket => ({ t with buckets := t.buckets.set idx bucket }, true)
      | none => (t, false)

def evictAndInsert (entry : KBucketEntry) : RoutingTable × Bool :=
  match bucketIndex t.localId entry.nodeId with
  | none => (t, false)
  | some idx =>
    match t.buckets[idx]? with
    | none => (t, false)
    | some bucket => ({ t with buckets := t.buckets.set idx (bucket.tail ++ [entry]) }, true)

/-- The entries of all buckets. -/
def entries : List KBucketEntry := t.buckets.flatten

/-- The entry of the node in its bucket, the first if there are several. -/
def find (id : NodeId) : Option KBucketEntry := do
  let idx ← bucketIndex t.localId id
  let bucket ← t.buckets[idx]?
  bucket.find? fun e => e.nodeId = id

/-- The order of `sort_by_key`, the bytewise one of the distances. -/
def Closer (target : NodeId) (e e' : KBucketEntry) : Prop :=
  keyLe (xorDistance target e.nodeId).toList (xorDistance target e'.nodeId).toList

instance (target : NodeId) : DecidableRel (Closer target) := fun _ _ =>
  inferInstanceAs (Decidable (keyLe _ _))

def closestNodes (target : NodeId) (count : ℕ) : List KBucketEntry :=
  firstBy (Closer target) count t.entries

def nodeCount : ℕ := (t.buckets.map List.length).sum

end RoutingTable

/-! ### Sound tables -/

instance (target : NodeId) : Std.Total (RoutingTable.Closer target) := ⟨fun _ _ => keyLe_total _ _⟩

instance (target : NodeId) : IsTrans KBucketEntry (RoutingTable.Closer target) :=
  ⟨fun _ _ _ => keyLe_trans⟩

/-- The nodes are closest to the target: as many as asked for, no node twice, sorted by their
distance, and no other node of the table closer. -/
structure Closest (t : RoutingTable) (target : NodeId) (count : ℕ) (nodes : List KBucketEntry) :
    Prop where
  length : nodes.length = min count t.nodeCount
  distinct : (nodes.map (·.nodeId)).Nodup
  known : ∀ e ∈ nodes, e ∈ t.entries
  sorted : nodes.Pairwise (RoutingTable.Closer target)
  omitted : ∀ e ∈ t.entries, e ∉ nodes → ∀ e' ∈ nodes, RoutingTable.Closer target e' e

structure Sound (t : RoutingTable) : Prop where
  capacity : ∀ bucket ∈ t.buckets, bucket.length ≤ K
  distinct : (t.entries.map (·.nodeId)).Nodup
  notLocal : ∀ e ∈ t.entries, e.nodeId ≠ t.localId
  placed : ∀ idx bucket, t.buckets[idx]? = some bucket → ∀ e ∈ bucket,
    HighestDifference t.localId e.nodeId idx
  closest : ∀ target count, Closest t target count (t.closestNodes target count)

/-- What one bucket has to be like. -/
structure BucketOk (localId : NodeId) (idx : ℕ) (bucket : List KBucketEntry) : Prop where
  capacity : bucket.length ≤ K
  distinct : (bucket.map (·.nodeId)).Nodup
  placed : ∀ e ∈ bucket, bucketIndex localId e.nodeId = some idx

/-- Every bucket is as it has to be. -/
def WellFormed (t : RoutingTable) : Prop :=
  ∀ idx bucket, t.buckets[idx]? = some bucket → BucketOk t.localId idx bucket

variable {t : RoutingTable}

/-- No node is in two buckets. -/
theorem WellFormed.distinct (h : WellFormed t) : (t.entries.map (·.nodeId)).Nodup := by
  unfold RoutingTable.entries
  rw [List.map_flatten, List.nodup_flatten]
  constructor
  · intro ids hids
    obtain ⟨bucket, hbucket, rfl⟩ := List.mem_map.mp hids
    obtain ⟨idx, hidx⟩ := List.mem_iff_getElem?.mp hbucket
    exact (h idx bucket hidx).distinct
  · rw [List.pairwise_map, List.pairwise_iff_getElem]
    intro i j hi hj hij id hid hid'
    obtain ⟨e, he, rfl⟩ := List.mem_map.mp hid
    obtain ⟨e', he', heq⟩ := List.mem_map.mp hid'
    have hplaced := (h i _ (List.getElem?_eq_getElem hi)).placed e he
    have hplaced' := (h j _ (List.getElem?_eq_getElem hj)).placed e' he'
    rw [heq, hplaced] at hplaced'
    exact absurd (Option.some.inj hplaced') (Nat.ne_of_lt hij)

/-- **A table with such buckets is sound.** -/
theorem WellFormed.sound (h : WellFormed t) : Sound t := by
  refine ⟨fun bucket hbucket => ?_, h.distinct, fun e he heq => ?_, fun idx bucket hidx e he => ?_,
    fun target count => ?_⟩
  · obtain ⟨idx, hidx⟩ := List.mem_iff_getElem?.mp hbucket
    exact (h idx bucket hidx).capacity
  · obtain ⟨bucket, hbucket, he⟩ := List.mem_flatten.mp he
    obtain ⟨idx, hidx⟩ := List.mem_iff_getElem?.mp hbucket
    have hplaced := (h idx bucket hidx).placed e he
    rw [heq, bucketIndex_self] at hplaced
    cases hplaced
  · exact bucketIndex_eq_some_iff.mp ((h idx bucket hidx).placed e he)
  · refine ⟨?_, nodup_map_firstBy h.distinct, fun e => mem_of_mem_firstBy, pairwise_firstBy,
      fun e he hnot e' he' => rel_of_not_mem_firstBy he' he hnot⟩
    exact length_firstBy.trans (congrArg (min count) List.length_flatten)

theorem Sound.wellFormed (h : Sound t) : WellFormed t := by
  intro idx bucket hidx
  have hmem := List.mem_of_getElem? hidx
  refine ⟨h.capacity bucket hmem, ?_, fun e he => ?_⟩
  · have hdistinct := h.distinct
    unfold RoutingTable.entries at hdistinct
    rw [List.map_flatten, List.nodup_flatten] at hdistinct
    exact hdistinct.1 _ (List.mem_map_of_mem hmem)
  · exact bucketIndex_eq_some_iff.mpr (h.placed idx bucket hidx e he)

/-! ### The two ways in -/

theorem wellFormed_new (localId : NodeId) : WellFormed (.new localId) := by
  intro idx bucket hidx
  have hmem := List.mem_of_getElem? hidx
  rw [List.eq_of_mem_replicate hmem]
  exact ⟨Nat.zero_le _, List.nodup_nil, nofun⟩

/-- One bucket is replaced. -/
theorem WellFormed.set (h : WellFormed t) {idx : ℕ} {bucket : List KBucketEntry}
    (hok : BucketOk t.localId idx bucket) :
    WellFormed { t with buckets := t.buckets.set idx bucket } := by
  intro j other hj
  change (t.buckets.set idx bucket)[j]? = some other at hj
  rw [List.getElem?_set] at hj
  split_ifs at hj with hij hlt
  · obtain rfl := Option.some.inj hj
    exact hij ▸ hok
  · exact h j other hj

theorem upsert_cases {bucket bucket' : List KBucketEntry} {entry : KBucketEntry}
    (h : upsert bucket entry = some bucket') :
    (∃ before old after, bucket = before ++ old :: after ∧ old.nodeId = entry.nodeId ∧
      (∀ e ∈ before, e.nodeId ≠ entry.nodeId) ∧ bucket' = before ++ after ++ [entry]) ∨
    (∀ e ∈ bucket, e.nodeId ≠ entry.nodeId) ∧ bucket.length < K ∧ bucket' = bucket ++ [entry] := by
  unfold upsert at h
  rcases hfind : bucket.findIdx? fun e => decide (e.nodeId = entry.nodeId) with _ | pos
  · rw [hfind] at h
    have hnone := List.findIdx?_eq_none_iff.mp hfind
    dsimp only at h
    split_ifs at h with hlen
    exact Or.inr ⟨fun e he => of_decide_eq_false (hnone e he), hlen, (Option.some.inj h).symm⟩
  · rw [hfind] at h
    obtain rfl := Option.some.inj h
    obtain ⟨hlt, hpos, hbefore⟩ := List.findIdx?_eq_some_iff_getElem.mp hfind
    refine Or.inl ⟨bucket.take pos, bucket[pos], bucket.drop (pos + 1), ?_, of_decide_eq_true hpos,
      fun e he => ?_, ?_⟩
    · rw [List.getElem_cons_drop, List.take_append_drop]
    · obtain ⟨i, hi, rfl⟩ := List.mem_iff_getElem.mp he
      rw [List.length_take] at hi
      have hne := hbefore i (by omega)
      rw [List.getElem_take]
      simpa using hne
    · rw [List.eraseIdx_eq_take_drop_succ]

/-- A node that is not among the entries kept is added at the tail. -/
theorem BucketOk.append {localId : NodeId} {idx : ℕ} {bucket kept : List KBucketEntry}
    {entry : KBucketEntry} (h : BucketOk localId idx bucket) (hkept : kept.Sublist bucket)
    (hroom : kept.length < K) (hnew : ∀ e ∈ kept, e.nodeId ≠ entry.nodeId)
    (hentry : bucketIndex localId entry.nodeId = some idx) :
    BucketOk localId idx (kept ++ [entry]) := by
  refine ⟨?_, ?_, fun e he => ?_⟩
  · rw [List.length_append]
    exact hroom
  · rw [List.map_append, List.nodup_append_comm]
    refine List.nodup_cons.mpr ⟨fun hid => ?_, h.distinct.sublist (hkept.map _)⟩
    obtain ⟨e, he, hsame⟩ := List.mem_map.mp hid
    exact hnew e he hsame
  · rcases List.mem_append.mp he with he | he
    · exact h.placed e (hkept.subset he)
    · rw [List.mem_singleton.mp he]
      exact hentry

/-- **`insert` keeps a bucket as it has to be.** -/
theorem BucketOk.upsert {localId : NodeId} {idx : ℕ} {bucket bucket' : List KBucketEntry}
    {entry : KBucketEntry} (h : BucketOk localId idx bucket)
    (hentry : bucketIndex localId entry.nodeId = some idx)
    (hupsert : upsert bucket entry = some bucket') : BucketOk localId idx bucket' := by
  rcases upsert_cases hupsert with ⟨before, old, after, rfl, hold, -, rfl⟩ | ⟨hnew, hlen, rfl⟩
  · have hcap := h.capacity
    have hdistinct := h.distinct
    rw [List.length_append, List.length_cons] at hcap
    rw [List.map_append, List.map_cons, List.nodup_middle, List.nodup_cons, ← List.map_append,
      hold] at hdistinct
    refine h.append ?_ ?_ (fun e he heq => hdistinct.1 (heq ▸ List.mem_map_of_mem he)) hentry
    · exact (List.sublist_cons_self old after).append_left before
    · rw [List.length_append]
      omega
  · exact h.append (List.Sublist.refl _) hlen hnew hentry

/-! ### Runs -/

inductive Action
  | insert (entry : KBucketEntry)
  | evictAndInsert (entry : KBucketEntry)
deriving DecidableEq, Repr

/-- The table after a call; every call is possible. -/
def step (t : RoutingTable) : Action → Option RoutingTable
  | .insert entry => some (t.insert entry).1
  | .evictAndInsert entry => some (t.evictAndInsert entry).1

/-- The node that is to replace the oldest of its bucket is not among the others. -/
def Fresh (t : RoutingTable) : Action → Prop
  | .insert _ => True
  | .evictAndInsert entry => ∀ idx bucket, bucketIndex t.localId entry.nodeId = some idx →
    t.buckets[idx]? = some bucket → ∀ e ∈ bucket.tail, e.nodeId ≠ entry.nodeId

/-- **What `insert` does**: nothing, or one bucket is changed. -/
theorem insert_cases (t : RoutingTable) (entry : KBucketEntry) :
    ((t.insert entry).1 = t ∧ t.find entry.nodeId = none) ∨
    ∃ idx bucket bucket', bucketIndex t.localId entry.nodeId = some idx ∧
      t.buckets[idx]? = some bucket ∧ upsert bucket entry = some bucket' ∧
      (t.insert entry).1 = { t with buckets := t.buckets.set idx bucket' } ∧
      t.find entry.nodeId = bucket.find? fun e => e.nodeId = entry.nodeId := by
  unfold RoutingTable.insert RoutingTable.find
  rcases hidx : bucketIndex t.localId entry.nodeId with _ | idx
  · exact Or.inl ⟨rfl, rfl⟩
  dsimp only
  rcases hbucket : t.buckets[idx]? with _ | bucket
  · exact Or.inl ⟨rfl, by rw [Option.bind_eq_bind, Option.bind_some, hbucket]; rfl⟩
  have hfind : (do
      let idx ← some idx
      let bucket ← t.buckets[idx]?
      bucket.find? fun e => e.nodeId = entry.nodeId) =
        bucket.find? fun e => e.nodeId = entry.nodeId := by
    rw [Option.bind_eq_bind, Option.bind_some, hbucket]
    rfl
  dsimp only
  rw [hfind]
  rcases hupsert : upsert bucket entry with _ | bucket'
  · refine Or.inl ⟨rfl, ?_⟩
    unfold upsert at hupsert
    rcases hpos : bucket.findIdx? fun e => decide (e.nodeId = entry.nodeId) with _ | pos
    · rw [List.find?_eq_none]
      intro e he
      rw [List.findIdx?_eq_none_iff.mp hpos e he]
      decide
    · rw [hpos] at hupsert
      cases hupsert
  · exact Or.inr ⟨idx, bucket, bucket', rfl, hbucket, hupsert, rfl, rfl⟩

theorem WellFormed.insert (h : WellFormed t) (entry : KBucketEntry) :
    WellFormed (t.insert entry).1 := by
  rcases insert_cases t entry with ⟨hsame, -⟩ | ⟨idx, bucket, bucket', hidx, hbucket, hupsert, hset, -⟩
  · rw [hsame]
    exact h
  · rw [hset]
    exact h.set ((h idx bucket hbucket).upsert hidx hupsert)

theorem mem_entries_iff {e : KBucketEntry} :
    e ∈ t.entries ↔
      ∃ (idx : ℕ) (bucket : List KBucketEntry), t.buckets[idx]? = some bucket ∧ e ∈ bucket := by
  unfold RoutingTable.entries
  rw [List.mem_flatten]
  constructor
  · rintro ⟨bucket, hbucket, he⟩
    obtain ⟨idx, hidx⟩ := List.mem_iff_getElem?.mp hbucket
    exact ⟨idx, bucket, hidx, he⟩
  · rintro ⟨idx, bucket, hidx, he⟩
    exact ⟨bucket, List.mem_of_getElem? hidx, he⟩

/-- **What `insert` keeps**: every entry but the one of the node it finds. -/
theorem mem_insert_of_mem {e : KBucketEntry} (he : e ∈ t.entries) (entry : KBucketEntry) :
    t.find entry.nodeId = some e ∨ e ∈ (t.insert entry).1.entries := by
  rcases insert_cases t entry with ⟨hsame, -⟩ | ⟨idx, bucket, bucket', -, hbucket, hupsert, hset, hfind⟩
  · rw [hsame]
    exact Or.inr he
  obtain ⟨j, other, hj, he⟩ := mem_entries_iff.mp he
  have hlt := (List.getElem?_eq_some_iff.mp hbucket).1
  rw [hset, hfind, mem_entries_iff]
  by_cases hij : idx = j
  · subst hij
    obtain rfl := Option.some.inj (hbucket.symm.trans hj)
    have hself : e ∈ bucket' → ∃ i b, (t.buckets.set idx bucket')[i]? = some b ∧ e ∈ b :=
      fun hmem => ⟨idx, bucket', List.getElem?_set_self hlt, hmem⟩
    rcases upsert_cases hupsert with ⟨before, old, after, rfl, hold, hbefore, rfl⟩ | ⟨-, -, rfl⟩
    · rcases List.mem_append.mp he with he | he
      · exact Or.inr (hself (by simp [he]))
      rcases List.mem_cons.mp he with rfl | he
      · left
        rw [List.find?_append, List.find?_eq_none.mpr fun x hx => by simpa using hbefore x hx]
        simp only [List.find?_cons, hold, decide_true, Option.none_or]
      · exact Or.inr (hself (by simp [he]))
    · exact Or.inr (hself (List.mem_append_left _ he))
  · exact Or.inr ⟨j, other, (List.getElem?_set_ne hij).trans hj, he⟩

/-- `insert` adds nothing but the entry. -/
theorem mem_of_mem_insert {e entry : KBucketEntry} (he : e ∈ (t.insert entry).1.entries) :
    e = entry ∨ e ∈ t.entries := by
  rcases insert_cases t entry with ⟨hsame, -⟩ | ⟨idx, bucket, bucket', -, hbucket, hupsert, hset, -⟩
  · rw [hsame] at he
    exact Or.inr he
  rw [hset, mem_entries_iff] at he
  obtain ⟨j, other, hj, he⟩ := he
  change (t.buckets.set idx bucket')[j]? = some other at hj
  rw [List.getElem?_set] at hj
  split_ifs at hj with hij hlt
  · obtain rfl := Option.some.inj hj
    have hsub : e = entry ∨ e ∈ bucket := by
      rcases upsert_cases hupsert with ⟨before, old, after, rfl, -, -, rfl⟩ | ⟨-, -, rfl⟩
      · simp only [List.mem_append, List.mem_cons, List.not_mem_nil, or_false] at he ⊢
        tauto
      · simp only [List.mem_append, List.mem_cons, List.not_mem_nil, or_false] at he
        exact he.symm
    exact hsub.imp_right fun hmem => mem_entries_iff.mpr ⟨idx, bucket, hbucket, hmem⟩
  · exact Or.inr (mem_entries_iff.mpr ⟨j, other, hj, he⟩)

/-- A node that is found is replaced. -/
theorem mem_insert_self {e : KBucketEntry} (entry : KBucketEntry)
    (h : t.find entry.nodeId = some e) :
    entry ∈ (t.insert entry).1.entries := by
  rcases insert_cases t entry with ⟨-, hnone⟩ | ⟨idx, bucket, bucket', -, hbucket, hupsert, hset, -⟩
  · rw [hnone] at h
    cases h
  have hlt := (List.getElem?_eq_some_iff.mp hbucket).1
  rw [hset, mem_entries_iff]
  refine ⟨idx, bucket', List.getElem?_set_self hlt, ?_⟩
  rcases upsert_cases hupsert with ⟨before, old, after, -, -, -, rfl⟩ | ⟨-, -, rfl⟩
  · exact List.mem_append_right _ List.mem_cons_self
  · exact List.mem_append_right _ List.mem_cons_self

/-- What is found is in the table. -/
theorem mem_of_find {id : NodeId} {e : KBucketEntry} (h : t.find id = some e) :
    e ∈ t.entries ∧ e.nodeId = id := by
  unfold RoutingTable.find at h
  simp only [Option.bind_eq_bind, Option.bind_eq_some_iff] at h
  obtain ⟨idx, -, bucket, hbucket, he⟩ := h
  exact ⟨mem_entries_iff.mpr ⟨idx, bucket, hbucket, List.mem_of_find?_eq_some he⟩,
    by simpa using List.find?_some he⟩

/-- **An eviction** keeps the buckets as they have to be exactly if the node is fresh. -/
theorem wellFormed_evictAndInsert_iff (h : WellFormed t) (entry : KBucketEntry) :
    WellFormed (t.evictAndInsert entry).1 ↔ Fresh t (.evictAndInsert entry) := by
  unfold RoutingTable.evictAndInsert Fresh
  rcases hidx : bucketIndex t.localId entry.nodeId with _ | idx
  · refine iff_of_true h fun idx' bucket' hidx' => ?_
    rw [hidx] at hidx'
    cases hidx'
  dsimp only
  rcases hbucket : t.buckets[idx]? with _ | bucket
  · refine iff_of_true h fun idx' bucket' hidx' hbucket' => ?_
    rw [hidx] at hidx'
    obtain rfl := Option.some.inj hidx'
    rw [hbucket] at hbucket'
    cases hbucket'
  dsimp only
  constructor
  · intro hafter idx' bucket' hidx' hbucket'
    rw [hidx] at hidx'
    obtain rfl := Option.some.inj hidx'
    rw [hbucket] at hbucket'
    obtain rfl := Option.some.inj hbucket'
    have hlt := (List.getElem?_eq_some_iff.mp hbucket).1
    have hok := hafter idx (bucket.tail ++ [entry]) (List.getElem?_set_self hlt)
    have hdistinct := hok.distinct
    rw [List.map_append, List.nodup_append] at hdistinct
    exact fun e he => hdistinct.2.2 _ (List.mem_map_of_mem he) _ List.mem_cons_self
  · intro hfresh
    have hok := h idx bucket hbucket
    refine h.set (hok.append (List.tail_sublist _) ?_ (hfresh idx bucket hidx hbucket) hidx)
    have hcap := hok.capacity
    rw [List.length_tail]
    unfold K at *
    omega

theorem sound_iff_wellFormed : Sound t ↔ WellFormed t := ⟨Sound.wellFormed, WellFormed.sound⟩

/-- **A run keeps the table sound exactly if every eviction is for a fresh node.** -/
theorem sound_iff_fresh (localId : NodeId) (actions : List Action) :
    Always step Sound (.new localId) actions ↔ Meets step Fresh (.new localId) actions := by
  refine always_iff_meets (I := fun _ => True) (fun _ _ _ _ _ _ => trivial) ?_ ?_ trivial
    (wellFormed_new localId).sound
  · intro t a t' _ hsound hstep
    have h := hsound.wellFormed
    cases a with
    | insert entry =>
      obtain rfl := Option.some.inj hstep
      exact iff_of_true (h.insert entry).sound trivial
    | evictAndInsert entry =>
      obtain rfl := Option.some.inj hstep
      exact sound_iff_wellFormed.trans (wellFormed_evictAndInsert_iff h entry)
  · rintro t (entry | entry) _ _ ⟨⟩

/-- A node of the highest bucket of the node zero. -/
def farNode (byte : UInt8) : KBucketEntry :=
  ⟨(Vector.replicate 32 0).set 0 (0x80 ||| byte), "", 0⟩

/-- **A node that is already there** is added a second time. -/
theorem node_twice : ∃ t, run step (.new (Vector.replicate 32 0))
      [.insert (farNode 0), .insert (farNode 1), .evictAndInsert (farNode 1)] = some t ∧
    t.entries = [farNode 1, farNode 1] :=
  ⟨_, rfl, by decide +kernel⟩

end CncContent.Dht.Buckets
