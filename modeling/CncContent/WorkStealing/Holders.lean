import CncContent.WorkStealing.Scheduler
import CncContent.Lib.CoverCount

/-! # Who holds which byte

A `Ledger` is a scheduler together with the ranges written so far and the ranges handed to thieves
that are still to be written. Every movement of bytes between the three is one of `advance`,
`take` and `download`; each lemma gives its effect on the number of holders of a byte
(`CoverCount.countAt`). A fresh scheduler partitions the file (`partitions_start`). -/

namespace CncContent.WorkStealing.Holders

open CncContent.Lib.Bounded CncContent.Lib.CoverCount
open CncContent.WorkStealing.Scheduler

/-- The range a task has not worked off. -/
def range (t : StealableTask) : ℕ × ℕ := (t.currentStart, t.stop)

structure Ledger where
  scheduler : WorkStealingScheduler
  written : List (ℕ × ℕ)
  stolen : List (ℕ × ℕ)
deriving DecidableEq

namespace Ledger

def start (scheduler : WorkStealingScheduler) : Ledger := ⟨scheduler, [], []⟩

variable (l : Ledger)

def remaining : List (ℕ × ℕ) := l.scheduler.tasks.map range

def ranges : List (ℕ × ℕ) := l.written ++ (l.stolen ++ l.remaining)

def setTask (i : ℕ) (t : StealableTask) : Ledger :=
  { l with scheduler := { l.scheduler with tasks := l.scheduler.tasks.set i t } }

/-- The owner of task `i`, which is `t`, writes `n` bytes and advances it. -/
def advance (i : ℕ) (t : StealableTask) (n : ℕ) : Ledger :=
  { l.setTask i (t.advance n) with
    written := l.written ++ [(t.currentStart, t.currentStart + n)] }

/-- A thief gets `[mid, t.stop)` of task `i`, whatever its start is by now. -/
def take (i : ℕ) (t : StealableTask) (mid : ℕ) : Ledger :=
  { l.setTask i { t with stop := mid } with stolen := l.stolen ++ [(mid, t.stop)] }

/-- The holder of the `j`-th stolen range, which is `r`, writes `n` bytes of it. -/
def download (j : ℕ) (r : ℕ × ℕ) (n : ℕ) : Ledger :=
  { l with
    stolen := l.stolen.set j (r.1 + n, r.2)
    written := l.written ++ [(r.1, r.1 + n)] }

variable {l}

theorem countAt_ranges (x : ℕ) : countAt l.ranges x =
    countAt l.written x + (countAt l.stolen x + countAt l.remaining x) := by
  rw [ranges, countAt_append, countAt_append]

theorem countAt_setTask {i : ℕ} {t : StealableTask} (t' : StealableTask) (x : ℕ)
    (h : l.scheduler.tasks[i]? = some t) :
    countAt (l.setTask i t').remaining x + hold (range t) x =
      countAt l.remaining x + hold (range t') x := by
  have hget : l.remaining[i]? = some (range t) := by
    rw [remaining, List.getElem?_map, h]
    rfl
  rw [← countAt_set (range t') x hget, remaining, remaining, setTask, List.map_set]

theorem countAt_advance {i : ℕ} {t : StealableTask} (n x : ℕ)
    (h : l.scheduler.tasks[i]? = some t) :
    countAt (l.advance i t n).ranges x + hold (range t) x =
      countAt l.ranges x + (hold (t.currentStart, t.currentStart + n) x +
        hold (range (t.advance n)) x) := by
  have hset := countAt_setTask (t.advance n) x h
  rw [countAt_ranges, countAt_ranges]
  show countAt (l.written ++ [_]) x +
    (countAt l.stolen x + countAt (l.setTask i (t.advance n)).remaining x) + _ = _
  rw [countAt_append, countAt_cons, countAt_nil]
  omega

theorem countAt_take {i : ℕ} {t : StealableTask} (mid x : ℕ)
    (h : l.scheduler.tasks[i]? = some t) :
    countAt (l.take i t mid).ranges x + hold (range t) x =
      countAt l.ranges x + (hold (t.currentStart, mid) x + hold (mid, t.stop) x) := by
  have hset := countAt_setTask { t with stop := mid } x h
  rw [countAt_ranges, countAt_ranges]
  show countAt l.written x + (countAt (l.stolen ++ [_]) x +
    countAt (l.setTask i { t with stop := mid }).remaining x) + _ = _
  rw [countAt_append, countAt_cons, countAt_nil]
  simp only [range] at hset ⊢
  omega

theorem countAt_download {j : ℕ} {r : ℕ × ℕ} {n : ℕ} (x : ℕ) (h : l.stolen[j]? = some r)
    (hn : n ≤ r.2 - r.1) : countAt (l.download j r n).ranges x = countAt l.ranges x := by
  have hset := countAt_set (r.1 + n, r.2) x h
  rw [countAt_ranges, countAt_ranges]
  show countAt (l.written ++ [_]) x +
    (countAt (l.stolen.set j (r.1 + n, r.2)) x + countAt l.remaining x) = _
  rw [countAt_append, countAt_cons, countAt_nil]
  have hsplit : hold (r.1, r.1 + n) x + hold (r.1 + n, r.2) x = hold r x := by
    by_cases hle : r.1 + n ≤ r.2
    · exact hold_split (Nat.le_add_right _ _) hle x
    · simp only [hold]
      split_ifs <;> omega
  omega

/-! ### The three movements and the partition -/

/-- The bounds fit their type. -/
def Bounded (l : Ledger) : Prop :=
  ∀ t ∈ l.scheduler.tasks, t.currentStart ≤ u64Max ∧ t.stop ≤ u64Max

theorem bounded_setTask {i : ℕ} {t : StealableTask} (hl : l.Bounded)
    (ht : t.currentStart ≤ u64Max ∧ t.stop ≤ u64Max) : (l.setTask i t).Bounded := by
  intro t' ht'
  rcases List.mem_or_eq_of_mem_set ht' with h | rfl
  · exact hl t' h
  · exact ht

theorem bounded_advance {i n : ℕ} {t : StealableTask} (hl : l.Bounded)
    (h : l.scheduler.tasks[i]? = some t) : (l.advance i t n).Bounded := by
  have ht := hl t (List.mem_of_getElem? h)
  have hmod : (t.currentStart + n) % (u64Max + 1) < u64Max + 1 :=
    Nat.mod_lt _ (Nat.succ_pos u64Max)
  exact bounded_setTask hl ⟨by show _ % _ ≤ _; omega, ht.2⟩

theorem bounded_take {i mid : ℕ} {t : StealableTask} (hl : l.Bounded)
    (h : l.scheduler.tasks[i]? = some t) (hmid : mid ≤ t.stop) : (l.take i t mid).Bounded := by
  have ht := hl t (List.mem_of_getElem? h)
  exact bounded_setTask hl ⟨ht.1, le_trans hmid ht.2⟩

/-- **An advance keeps the partition** exactly if it stays within the task's current range. -/
theorem partitions_advance_iff {size i n : ℕ} {t : StealableTask}
    (h : l.scheduler.tasks[i]? = some t) (hb : l.Bounded) (hl : Partitions l.ranges size) :
    Partitions (l.advance i t n).ranges size ↔ n = 0 ∨ t.currentStart + n ≤ t.stop := by
  constructor
  · intro h'
    by_contra hbad
    rw [not_or] at hbad
    -- the byte at `stop`, or at `currentStart` if that is larger, gets a second holder
    have hcount := countAt_advance n (max t.currentStart t.stop) h
    rw [h', hl] at hcount
    have hw : hold (t.currentStart, t.currentStart + n) (max t.currentStart t.stop) = 1 :=
      hold_of_mem (le_max_left _ _) (by dsimp only; omega)
    have hz : hold (range t) (max t.currentStart t.stop) = 0 :=
      if_neg (by dsimp only [range]; omega)
    omega
  · intro hn x
    obtain ⟨hs, he⟩ := hb t (List.mem_of_getElem? h)
    have hcount := countAt_advance n x h
    have hmod : (t.currentStart + n) % (u64Max + 1) = t.currentStart + n :=
      Nat.mod_eq_of_lt (by omega)
    have hsplit : hold (t.currentStart, t.currentStart + n) x + hold (range (t.advance n)) x =
        hold (range t) x := by
      simp only [range, StealableTask.advance, hmod]
      rcases hn with rfl | hn
      · simp [hold]
      · exact hold_split (Nat.le_add_right _ _) hn x
    rw [← hl x]
    omega

/-- **A steal keeps the partition** exactly if the task has not been advanced past the midpoint. -/
theorem partitions_take_iff {size i mid : ℕ} {t : StealableTask}
    (h : l.scheduler.tasks[i]? = some t) (hmid : mid < t.stop) (hl : Partitions l.ranges size) :
    Partitions (l.take i t mid).ranges size ↔ t.currentStart ≤ mid := by
  constructor
  · intro h'
    by_contra hbad
    -- the byte at the midpoint is the thief's, and not the owner's before
    have hcount := countAt_take mid mid h
    rw [h', hl] at hcount
    have hw : hold (mid, t.stop) mid = 1 := hold_of_mem le_rfl hmid
    have hz : hold (range t) mid = 0 := if_neg (by dsimp only [range]; omega)
    omega
  · intro hle x
    have hcount := countAt_take mid x h
    have hsplit : hold (t.currentStart, mid) x + hold (mid, t.stop) x = hold (range t) x :=
      hold_split hle hmid.le x
    rw [← hl x]
    omega

theorem partitions_download {size j n : ℕ} {r : ℕ × ℕ} (h : l.stolen[j]? = some r)
    (hn : n ≤ r.2 - r.1) (hl : Partitions l.ranges size) :
    Partitions (l.download j r n).ranges size :=
  fun x => (countAt_download x h hn).trans (hl x)

end Ledger

/-! ### A fresh scheduler -/

/-- The lower bounds of the segments, and the end of the file. -/
def bound (fileSize effective i : ℕ) : ℕ :=
  if i < effective then i * segmentSize fileSize effective else fileSize

theorem segmentSize_mul_le (fileSize effective : ℕ) :
    effective * segmentSize fileSize effective ≤ fileSize := by
  unfold segmentSize
  split_ifs
  · exact Nat.mul_div_le fileSize effective
  · exact Nat.zero_le _

theorem bound_monotone (fileSize effective : ℕ) : Monotone (bound fileSize effective) := by
  have hle := segmentSize_mul_le fileSize effective
  intro i j hij
  unfold bound
  split_ifs with hi hj hj
  · exact Nat.mul_le_mul_right _ hij
  · exact le_trans (Nat.mul_le_mul_right _ hi.le) hle
  · omega
  · exact le_rfl

theorem bound_le (fileSize effective i : ℕ) : bound fileSize effective i ≤ fileSize := by
  have h := bound_monotone fileSize effective (le_max_left i effective)
  have hlast : bound fileSize effective (max i effective) = fileSize := if_neg (by omega)
  rwa [hlast] at h

theorem range_threadSegment (fileSize : ℕ) {effective i : ℕ} (h : i < effective) :
    range (threadSegment fileSize effective i) =
      (bound fileSize effective i, bound fileSize effective (i + 1)) := by
  unfold threadSegment bound range StealableTask.new
  rw [if_pos h]
  by_cases hlast : i = effective - 1
  · rw [if_pos hlast, if_pos h, if_neg (by omega)]
  · rw [if_neg hlast, if_pos h, if_pos (by omega)]

theorem countAt_extra (fileSize effective x : ℕ) : ∀ n,
    countAt ((List.range n).map fun i => range (threadSegment fileSize effective (effective + i))) x = 0
  | 0 => rfl
  | n + 1 => by
    rw [List.range_succ, List.map_append, countAt_append, countAt_extra fileSize effective x n]
    simp [threadSegment, range, StealableTask.new, hold]

/-- **A fresh scheduler assigns every byte of the file to exactly one task.** -/
theorem partitions_start {fileSize threadCount minChunkSize : ℕ} {s : WorkStealingScheduler}
    (h : WorkStealingScheduler.new fileSize threadCount minChunkSize = some s) :
    Partitions (Ledger.start s).ranges fileSize := by
  unfold WorkStealingScheduler.new at h
  dsimp only at h
  split_ifs at h with hzero
  cases h
  have hle : effectiveThreads fileSize threadCount minChunkSize ≤ threadCount := by
    unfold effectiveThreads
    split_ifs <;> omega
  have hpos : 0 < effectiveThreads fileSize threadCount minChunkSize := by
    unfold effectiveThreads
    split_ifs <;> omega
  generalize effectiveThreads fileSize threadCount minChunkSize = effective at hle hpos
  obtain ⟨extra, rfl⟩ := Nat.exists_eq_add_of_le hle
  have hsegments : (List.range effective).map (fun i => range (threadSegment fileSize effective i)) =
      (List.range effective).map fun i =>
        (bound fileSize effective i, bound fileSize effective (i + 1)) :=
    List.map_congr_left fun i hi => range_threadSegment fileSize (List.mem_range.mp hi)
  have h0 : bound fileSize effective 0 = 0 := by
    unfold bound
    rw [if_pos hpos, Nat.zero_mul]
  have hn : bound fileSize effective effective = fileSize := if_neg (lt_irrefl _)
  intro x
  show countAt (((List.range (effective + extra)).map (threadSegment fileSize effective)).map range) x = _
  rw [List.map_map, List.range_add, List.map_append, List.map_map, countAt_append]
  have hextra := countAt_extra fileSize effective x extra
  have hmain := countAt_consecutive (bound_monotone fileSize effective) x effective
  rw [← hsegments, h0, hn] at hmain
  exact (congrArg₂ (· + ·) hmain hextra).trans (Nat.add_zero _)

theorem bounded_start {fileSize threadCount minChunkSize : ℕ} {s : WorkStealingScheduler}
    (h : WorkStealingScheduler.new fileSize threadCount minChunkSize = some s)
    (hsize : fileSize ≤ u64Max) : (Ledger.start s).Bounded := by
  unfold WorkStealingScheduler.new at h
  dsimp only at h
  split_ifs at h with hzero
  cases h
  intro t ht
  obtain ⟨i, -, rfl⟩ := List.mem_map.mp ht
  generalize effectiveThreads fileSize threadCount minChunkSize = effective
  by_cases hi : i < effective
  · have hlo := congrArg Prod.fst (range_threadSegment fileSize hi)
    have hhi := congrArg Prod.snd (range_threadSegment fileSize hi)
    have h1 := bound_le fileSize effective i
    have h2 := bound_le fileSize effective (i + 1)
    dsimp only [range] at hlo hhi
    omega
  · unfold threadSegment
    rw [if_neg hi]
    exact ⟨Nat.zero_le _, Nat.zero_le _⟩

end CncContent.WorkStealing.Holders
