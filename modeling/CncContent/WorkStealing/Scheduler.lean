import CncContent.Lib.Bounded
import Mathlib.Data.List.Sort
import Mathlib.Tactic.SplitIfs

/-! # Work stealing

The model of `StealableTask` and `WorkStealingScheduler`. A task is a range of bytes that its owner
advances from below and a thief bisects from above. `midpoint` is what `steal` computes between its
loads and its `compare_exchange`; `steal` and `stealFromLargest` are the calls with no other thread
in between. -/

namespace CncContent.WorkStealing.Scheduler

open CncContent.Lib.Bounded

/-! ### A task -/

/-- The range `[currentStart, stop)`; the source calls the upper bound `end`. -/
structure StealableTask where
  currentStart : ℕ
  stop : ℕ
deriving DecidableEq, Repr

namespace StealableTask

def new (start stop : ℕ) : StealableTask := ⟨start, stop⟩

def remaining (t : StealableTask) : ℕ := t.stop - t.currentStart

def isEmpty (t : StealableTask) : Bool := t.remaining == 0

/-- `fetch_add`, which wraps. -/
def advance (t : StealableTask) (bytesWritten : ℕ) : StealableTask :=
  { t with currentStart := (t.currentStart + bytesWritten) % (u64Max + 1) }

def minSplittable (minChunkSize : ℕ) : ℕ := max (satMul u64Max minChunkSize 2) 2

/-- The point at which `steal` bisects the range it has read, if it does. -/
def midpoint (minChunkSize currentStart currentEnd : ℕ) : Option ℕ :=
  let remaining := currentEnd - currentStart
  if remaining < minSplittable minChunkSize then none
  else
    let rawMid := satAdd u64Max currentStart (remaining / 2)
    let mid :=
      if minChunkSize = 0 then rawMid
      else
        max (min (satAdd u64Max rawMid (minChunkSize - 1) / minChunkSize * minChunkSize)
          (currentEnd - 1)) (satAdd u64Max currentStart 1)
    if mid ≤ currentStart ∨ currentEnd ≤ mid then none else some mid

def steal (t : StealableTask) (minChunkSize : ℕ) : Option (ℕ × ℕ) × StealableTask :=
  match midpoint minChunkSize t.currentStart t.stop with
  | none => (none, t)
  | some mid => (some (mid, t.stop), { t with stop := mid })

/-- The sanity check leaves something for both sides. -/
theorem midpoint_spec {m s e mid : ℕ} (h : midpoint m s e = some mid) : s < mid ∧ mid < e := by
  unfold midpoint at h
  dsimp only at h
  split_ifs at h
  all_goals
    cases h
    omega

/-- A range that is large enough is always bisected. -/
theorem midpoint_eq_none_iff {m s e : ℕ} (he : e ≤ u64Max) :
    midpoint m s e = none ↔ e - s < minSplittable m := by
  unfold midpoint
  dsimp only
  by_cases hr : e - s < minSplittable m
  · rw [if_pos hr]
    exact ⟨fun _ => hr, fun _ => rfl⟩
  · rw [if_neg hr]
    have h2 : 2 ≤ minSplittable m := le_max_right _ _
    have hs : satAdd u64Max s 1 = s + 1 := satAdd_of_le (by omega)
    have hraw : satAdd u64Max s ((e - s) / 2) = s + (e - s) / 2 := satAdd_of_le (by omega)
    rw [hs, hraw]
    split_ifs with hm hbad hbad
    all_goals
      first
        | exact absurd hbad (by omega)
        | exact ⟨nofun, fun h => absurd h hr⟩

end StealableTask

open StealableTask

/-! ### The scheduler -/

structure WorkStealingScheduler where
  tasks : List StealableTask
  minChunkSize : ℕ
deriving DecidableEq, Repr

/-- No thread should get less than the minimal chunk. -/
def effectiveThreads (fileSize threadCount minChunkSize : ℕ) : ℕ :=
  if 0 < minChunkSize ∧ 0 < fileSize then min threadCount (max (fileSize / minChunkSize) 1)
  else threadCount

def segmentSize (fileSize effective : ℕ) : ℕ :=
  if 0 < effective ∧ 0 < fileSize then fileSize / effective else 0

/-- The segment of thread `i`: the last one gets the remainder, extra threads start empty. -/
def threadSegment (fileSize effective i : ℕ) : StealableTask :=
  if i < effective then
    StealableTask.new (i * segmentSize fileSize effective)
      (if i = effective - 1 then fileSize else (i + 1) * segmentSize fileSize effective)
  else StealableTask.new 0 0

/-- `none` is the panic for zero threads. -/
def WorkStealingScheduler.new (fileSize threadCount minChunkSize : ℕ) :
    Option WorkStealingScheduler :=
  if threadCount = 0 then none
  else
    let effective := effectiveThreads fileSize threadCount minChunkSize
    some ⟨(List.range threadCount).map (threadSegment fileSize effective), minChunkSize⟩

namespace WorkStealingScheduler

variable (s : WorkStealingScheduler)

/-- A sum of 64-bit values; of disjoint ranges within the file it does not overflow. -/
def totalRemaining : ℕ := (s.tasks.map StealableTask.remaining).sum

def isComplete : Bool := s.tasks.all StealableTask.isEmpty

/-- The other tasks large enough to be asked, the largest first. -/
def candidates (ownIndex : ℕ) : List (ℕ × ℕ) :=
  let others := s.tasks.zipIdx.filter fun p => p.2 ≠ ownIndex
  let sized := (others.map fun p => (p.2, p.1.remaining)).filter fun c =>
    satMul u64Max s.minChunkSize 2 ≤ c.2
  sized.insertionSort fun c c' => c'.2 ≤ c.2

/-- The loop over the candidates, which ends with the first one that is bisected. -/
def firstSteal : List (ℕ × ℕ) → Option (ℕ × ℕ) × WorkStealingScheduler
  | [] => (none, s)
  | (victimIdx, _) :: rest =>
    match s.tasks[victimIdx]? with
    | none => firstSteal rest
    | some task =>
      match task.steal s.minChunkSize with
      | (some stolen, task') => (some stolen, { s with tasks := s.tasks.set victimIdx task' })
      | (none, _) => firstSteal rest

def stealFromLargest (ownIndex : ℕ) : Option (ℕ × ℕ) × WorkStealingScheduler :=
  s.firstSteal (s.candidates ownIndex)

/-- Some task other than the caller's own is large enough to be bisected. -/
def CanSteal (ownIndex : ℕ) : Prop :=
  ∃ i t, s.tasks[i]? = some t ∧ i ≠ ownIndex ∧ minSplittable s.minChunkSize ≤ t.remaining

variable {s}

theorem mem_candidates {ownIndex : ℕ} {c : ℕ × ℕ} : c ∈ s.candidates ownIndex ↔
    ∃ t, s.tasks[c.1]? = some t ∧ c.1 ≠ ownIndex ∧ c.2 = t.remaining ∧
      satMul u64Max s.minChunkSize 2 ≤ t.remaining := by
  unfold candidates
  rw [List.mem_insertionSort, List.mem_filter, List.mem_map]
  simp only [List.mem_filter, List.mem_zipIdx_iff_getElem?, decide_eq_true_eq]
  constructor
  · rintro ⟨⟨⟨t, i⟩, ⟨hget, hne⟩, rfl⟩, hle⟩
    exact ⟨t, hget, hne, rfl, hle⟩
  · rintro ⟨t, hget, hne, hr, hle⟩
    refine ⟨⟨(t, c.1), ⟨hget, hne⟩, ?_⟩, by rw [hr]; exact hle⟩
    rw [← hr]

theorem firstSteal_spec (s : WorkStealingScheduler) : ∀ cs : List (ℕ × ℕ),
    ((s.firstSteal cs).1 = none ∧ (s.firstSteal cs).2 = s ∧
      ∀ c ∈ cs, ∀ t, s.tasks[c.1]? = some t →
        midpoint s.minChunkSize t.currentStart t.stop = none) ∨
    ∃ c ∈ cs, ∃ t mid, s.tasks[c.1]? = some t ∧
      midpoint s.minChunkSize t.currentStart t.stop = some mid ∧ s.firstSteal cs =
        (some (mid, t.stop), { s with tasks := s.tasks.set c.1 { t with stop := mid } })
  | [] => Or.inl ⟨rfl, rfl, by simp⟩
  | (i, r) :: cs => by
    unfold firstSteal
    rcases ht : s.tasks[i]? with _ | t
    · rcases firstSteal_spec s cs with ⟨h1, h2, h3⟩ | ⟨c, hc, h⟩
      · refine Or.inl ⟨h1, h2, fun c hc t hct => ?_⟩
        rcases List.mem_cons.mp hc with rfl | hc
        · rw [ht] at hct; cases hct
        · exact h3 c hc t hct
      · exact Or.inr ⟨c, List.mem_cons_of_mem _ hc, h⟩
    · dsimp only
      rcases hm : midpoint s.minChunkSize t.currentStart t.stop with _ | mid
      · rw [show t.steal s.minChunkSize = (none, t) by unfold StealableTask.steal; rw [hm]]
        rcases firstSteal_spec s cs with ⟨h1, h2, h3⟩ | ⟨c, hc, h⟩
        · refine Or.inl ⟨h1, h2, fun c hc t' hct => ?_⟩
          rcases List.mem_cons.mp hc with rfl | hc
          · rw [ht] at hct; cases hct; exact hm
          · exact h3 c hc t' hct
        · exact Or.inr ⟨c, List.mem_cons_of_mem _ hc, h⟩
      · rw [show t.steal s.minChunkSize = (some (mid, t.stop), { t with stop := mid }) by
          unfold StealableTask.steal; rw [hm]]
        exact Or.inr ⟨(i, r), by simp, t, mid, ht, hm, rfl⟩

/-- **What `steal_from_largest` does**: nothing, if no other task is large enough; else it bisects
one of the others. -/
theorem stealFromLargest_spec (hs : ∀ t ∈ s.tasks, t.stop ≤ u64Max) (ownIndex : ℕ) :
    (¬ s.CanSteal ownIndex ∧ s.stealFromLargest ownIndex = (none, s)) ∨
    (s.CanSteal ownIndex ∧ ∃ i t mid, s.tasks[i]? = some t ∧ t.currentStart < mid ∧ mid < t.stop ∧
      s.stealFromLargest ownIndex =
        (some (mid, t.stop), { s with tasks := s.tasks.set i { t with stop := mid } })) := by
  have hmid : ∀ {i : ℕ} {t : StealableTask}, s.tasks[i]? = some t →
      (midpoint s.minChunkSize t.currentStart t.stop = none ↔
        t.remaining < minSplittable s.minChunkSize) :=
    fun ht => midpoint_eq_none_iff (hs _ (List.mem_of_getElem? ht))
  unfold stealFromLargest
  rcases firstSteal_spec s (s.candidates ownIndex) with ⟨h1, h2, h3⟩ | h
  · refine Or.inl ⟨?_, Prod.ext h1 h2⟩
    rintro ⟨i, t, ht, hne, hle⟩
    have hsat : satMul u64Max s.minChunkSize 2 ≤ t.remaining := le_trans (le_max_left _ _) hle
    have hc := mem_candidates (c := (i, t.remaining)).mpr ⟨t, ht, hne, rfl, hsat⟩
    have hlt := (hmid ht).mp (h3 _ hc t ht)
    omega
  · obtain ⟨c, hc, t, mid, ht, hm, he⟩ := h
    obtain ⟨-, -, hne, -, -⟩ := mem_candidates.mp hc
    obtain ⟨hlo, hhi⟩ := midpoint_spec hm
    have hle : minSplittable s.minChunkSize ≤ t.remaining := by
      by_contra hlt
      rw [(hmid ht).mpr (Nat.lt_of_not_le hlt)] at hm
      cases hm
    exact Or.inr ⟨⟨c.1, t, ht, hne, hle⟩, c.1, t, mid, ht, hlo, hhi, he⟩

end WorkStealingScheduler

end CncContent.WorkStealing.Scheduler
