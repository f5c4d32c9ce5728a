import CncContent.WorkStealing.Holders
import CncContent.Lib.Runs

/-! # The scheduler's own accounting

A sequential run: each thread advances its own task, calls `steal_from_largest` when that task is
empty, and downloads what it got. No byte is held twice or lost (`partitions_step`), but a stolen
range is in no task, so the scheduler loses sight of it: what its tasks say about the unwritten
bytes (`Accounted`) is right throughout a run exactly if no call finds a task large enough to be
bisected (`accounted_iff_no_steal`). -/

namespace CncContent.WorkStealing.Sequential

open CncContent.Lib.Bounded CncContent.Lib.CoverCount CncContent.Lib.Runs
open CncContent.WorkStealing.Scheduler CncContent.WorkStealing.Holders

inductive Action
  | advance (i n : ℕ)
  | stealFromLargest (ownIndex : ℕ)
  | download (j n : ℕ)
deriving DecidableEq

def setScheduler (l : Ledger) (stolen : Option (ℕ × ℕ)) (scheduler : WorkStealingScheduler) :
    Ledger :=
  { l with scheduler := scheduler, stolen := l.stolen ++ stolen.toList }

/-- A thread writes within the range of its task, steals only when its task is empty, and writes no
more of a stolen range than is left of it. -/
def step (l : Ledger) : Action → Option Ledger
  | .advance i n => l.scheduler.tasks[i]?.bind fun t =>
    if n ≤ t.remaining then some (l.advance i t n) else none
  | .stealFromLargest i => l.scheduler.tasks[i]?.bind fun t =>
    if t.isEmpty then
      some (setScheduler l (l.scheduler.stealFromLargest i).1 (l.scheduler.stealFromLargest i).2)
    else none
  | .download j n => l.stolen[j]?.bind fun r =>
    if n ≤ r.2 - r.1 then some (l.download j r n) else none

/-- The bytes of the file that have not been written. -/
def unwritten (l : Ledger) (fileSize : ℕ) : List ℕ :=
  (List.range fileSize).filter fun x => countAt l.written x = 0

/-- **What the tasks say about the unwritten bytes is right.** -/
structure Accounted (fileSize : ℕ) (l : Ledger) : Prop where
  assigned : ∀ x ∈ unwritten l fileSize, countAt l.remaining x = 1
  total : l.scheduler.totalRemaining = (unwritten l fileSize).length
  complete : l.scheduler.isComplete = true → unwritten l fileSize = []

/-- The call finds no task to bisect. -/
def StealsNothing (l : Ledger) : Action → Prop
  | .stealFromLargest i => ∀ t ∈ l.scheduler.tasks[i]?, t.isEmpty = true →
    ¬ l.scheduler.CanSteal i
  | _ => True

/-! ### The partition -/

/-- What a call of `steal_from_largest` does to the ledger. -/
theorem steal_cases {l : Ledger} (hb : l.Bounded) (i : ℕ) :
    (¬ l.scheduler.CanSteal i ∧ setScheduler l (l.scheduler.stealFromLargest i).1
      (l.scheduler.stealFromLargest i).2 = l) ∨
    (l.scheduler.CanSteal i ∧ ∃ v t mid, l.scheduler.tasks[v]? = some t ∧ t.currentStart < mid ∧
      mid < t.stop ∧ setScheduler l (l.scheduler.stealFromLargest i).1
        (l.scheduler.stealFromLargest i).2 = l.take v t mid) := by
  rcases WorkStealingScheduler.stealFromLargest_spec (fun t ht => (hb t ht).2) i with
    ⟨hno, he⟩ | ⟨hcan, v, t, mid, ht, h1, h2, he⟩
  · refine Or.inl ⟨hno, ?_⟩
    rw [he]
    show Ledger.mk _ _ (l.stolen ++ []) = l
    rw [List.append_nil]
  · refine Or.inr ⟨hcan, v, t, mid, ht, h1, h2, ?_⟩
    rw [he]
    rfl

structure Inv (fileSize : ℕ) (l : Ledger) : Prop where
  bounded : l.Bounded
  partitions : Partitions l.ranges fileSize

/-- **No byte is held twice or lost** in a sequential run. -/
theorem inv_step {fileSize : ℕ} {l l' : Ledger} {a : Action} (hl : Inv fileSize l)
    (h : step l a = some l') : Inv fileSize l' := by
  obtain ⟨hb, hp⟩ := hl
  cases a with
  | advance i n =>
    obtain ⟨t, ht, h'⟩ := Option.bind_eq_some_iff.mp h
    split_ifs at h' with hn
    cases h'
    refine ⟨Ledger.bounded_advance hb ht, (Ledger.partitions_advance_iff ht hb hp).mpr ?_⟩
    unfold StealableTask.remaining at hn
    omega
  | stealFromLargest i =>
    obtain ⟨t, -, h'⟩ := Option.bind_eq_some_iff.mp h
    split_ifs at h' with hempty
    cases h'
    rcases steal_cases hb i with ⟨-, he⟩ | ⟨-, v, t, mid, ht, h1, h2, he⟩
    · rw [he]
      exact ⟨hb, hp⟩
    · rw [he]
      exact ⟨Ledger.bounded_take hb ht h2.le, (Ledger.partitions_take_iff ht h2 hp).mpr h1.le⟩
  | download j n =>
    obtain ⟨r, hj, h'⟩ := Option.bind_eq_some_iff.mp h
    split_ifs at h' with hn
    cases h'
    exact ⟨hb, Ledger.partitions_download hj hn hp⟩

/-! ### The accounting -/

theorem stop_le {fileSize : ℕ} {l : Ledger} (hl : Inv fileSize l) :
    ∀ r ∈ l.remaining, r.1 < r.2 → r.2 ≤ fileSize := by
  intro r hr hlt
  have hcount := hl.partitions (r.2 - 1)
  rw [Ledger.countAt_ranges] at hcount
  have hle := hold_le_countAt hr (r.2 - 1)
  have hone : hold r (r.2 - 1) = 1 := hold_of_mem (by omega) (by omega)
  by_contra hgt
  have hzero : hold (0, fileSize) (r.2 - 1) = 0 := if_neg (by dsimp only; omega)
  omega

/-- **The accounting is right exactly if no stolen byte is still to be written.** -/
theorem accounted_iff {fileSize : ℕ} {l : Ledger} (hl : Inv fileSize l) :
    Accounted fileSize l ↔ ∀ x, countAt l.stolen x = 0 := by
  have hcount : ∀ x, countAt l.written x + (countAt l.stolen x + countAt l.remaining x) =
      hold (0, fileSize) x := fun x => by rw [← Ledger.countAt_ranges]; exact hl.partitions x
  constructor
  · intro h x
    by_contra hx
    have h1 := hcount x
    have h2 := hold_le_one (0, fileSize) x
    have hlt : x < fileSize := by
      by_contra hge
      rw [hold, if_neg (by dsimp only; omega)] at h1
      omega
    have hassigned := h.assigned x (List.mem_filter.mpr ⟨List.mem_range.mpr hlt, by simp; omega⟩)
    omega
  · intro h
    have hone : ∀ x ∈ List.range fileSize,
        countAt l.remaining x = if countAt l.written x = 0 then 1 else 0 := by
      intro x hx
      have h1 := hcount x
      have h2 := h x
      rw [hold_of_mem (Nat.zero_le x) (List.mem_range.mp hx)] at h1
      split_ifs <;> omega
    have htotal : l.scheduler.totalRemaining = (unwritten l fileSize).length := by
      unfold unwritten
      rw [length_filter_eq_sum (f := countAt l.remaining) (by simpa using hone),
        sum_countAt (stop_le hl)]
      unfold Ledger.remaining WorkStealingScheduler.totalRemaining
      rw [List.map_map]
      rfl
    refine ⟨fun x hx => ?_, htotal, fun hc => ?_⟩
    · obtain ⟨hmem, hw⟩ := List.mem_filter.mp hx
      rw [hone x hmem, if_pos (by simpa using hw)]
    · have hzero : l.scheduler.totalRemaining = 0 := by
        refine List.sum_eq_zero fun n hn => ?_
        obtain ⟨t, ht, rfl⟩ := List.mem_map.mp hn
        have := List.all_eq_true.mp hc t ht
        simpa [StealableTask.isEmpty] using this
      exact List.eq_nil_of_length_eq_zero (htotal ▸ hzero)

/-- **A step keeps the accounting** exactly if it steals nothing. -/
theorem accounted_step_iff {fileSize : ℕ} {l l' : Ledger} {a : Action} (hl : Inv fileSize l)
    (hacc : Accounted fileSize l) (h : step l a = some l') :
    Accounted fileSize l' ↔ StealsNothing l a := by
  have hzero := (accounted_iff hl).mp hacc
  rw [accounted_iff (inv_step hl h)]
  cases a with
  | advance i n =>
    obtain ⟨t, ht, h'⟩ := Option.bind_eq_some_iff.mp h
    split_ifs at h'
    cases h'
    exact ⟨fun _ => trivial, fun _ => hzero⟩
  | stealFromLargest i =>
    obtain ⟨t, ht, h'⟩ := Option.bind_eq_some_iff.mp h
    split_ifs at h' with hempty
    cases h'
    rcases steal_cases hl.bounded i with ⟨hno, he⟩ | ⟨hcan, v, t', mid, -, -, h2, he⟩
    · rw [he]
      exact ⟨fun _ _ _ _ => hno, fun _ => hzero⟩
    · rw [he]
      constructor
      · intro hstolen
        have hmid := hstolen mid
        rw [show (l.take v t' mid).stolen = l.stolen ++ [(mid, t'.stop)] from rfl, countAt_append,
          countAt_cons, hold_of_mem le_rfl h2] at hmid
        omega
      · intro hno
        exact absurd hcan (hno t ht hempty)
  | download j n =>
    obtain ⟨r, hj, h'⟩ := Option.bind_eq_some_iff.mp h
    split_ifs at h' with hn
    cases h'
    refine ⟨fun _ => trivial, fun _ x => ?_⟩
    have hset := countAt_set (r.1 + n, r.2) x hj
    have hx := hzero x
    have hle := hold_le_countAt (List.mem_of_getElem? hj) x
    have hsub : hold (r.1 + n, r.2) x ≤ hold r x := by
      unfold hold
      split_ifs <;> omega
    show countAt (l.stolen.set j (r.1 + n, r.2)) x = 0
    omega

theorem stealsNothing_of_none {l : Ledger} {a : Action} (h : step l a = none) :
    StealsNothing l a := by
  cases a with
  | stealFromLargest i =>
    intro t ht hempty
    have hnone := Option.bind_eq_none_iff.mp h t ht
    rw [if_pos hempty] at hnone
    cases hnone
  | _ => trivial

/-! ### Every run -/

/-- **The tasks account for the unwritten bytes** throughout a sequential run exactly if no call of
`steal_from_largest` finds a task it can bisect. -/
theorem accounted_iff_no_steal {fileSize threadCount minChunkSize : ℕ}
    {scheduler : WorkStealingScheduler} (hsize : fileSize ≤ u64Max)
    (h : WorkStealingScheduler.new fileSize threadCount minChunkSize = some scheduler)
    (actions : List Action) :
    Always step (Accounted fileSize) (Ledger.start scheduler) actions ↔
      Meets step StealsNothing (Ledger.start scheduler) actions := by
  have hinv : Inv fileSize (Ledger.start scheduler) := ⟨bounded_start h hsize, partitions_start h⟩
  exact always_iff_meets (I := Inv fileSize) (fun _ _ _ hl _ => inv_step hl)
    (fun _ _ _ => accounted_step_iff) (fun _ _ _ _ => stealsNothing_of_none) hinv
    ((accounted_iff hinv).mpr fun _ => rfl)

theorem accounted_iff_no_steal_two_threads :
    Always step (Accounted 4) (Ledger.start ⟨[⟨0, 2⟩, ⟨2, 4⟩], 1⟩)
        [.advance 0 2, .advance 1 1, .stealFromLargest 0] ↔
      Meets step StealsNothing (Ledger.start ⟨[⟨0, 2⟩, ⟨2, 4⟩], 1⟩)
        [.advance 0 2, .advance 1 1, .stealFromLargest 0] :=
  accounted_iff_no_steal (by decide)
    (by decide : WorkStealingScheduler.new 4 2 1 = some ⟨[⟨0, 2⟩, ⟨2, 4⟩], 1⟩) _

/-- Thread 0 steals `[6, 8)` and thread 1 finishes what is left to it: the scheduler is complete and
bytes `6` and `7` are not written. -/
theorem complete_before_stolen_is_written :
    WorkStealingScheduler.new 8 2 1 = some ⟨[⟨0, 4⟩, ⟨4, 8⟩], 1⟩ ∧
    ¬ Always step (Accounted 8) (Ledger.start ⟨[⟨0, 4⟩, ⟨4, 8⟩], 1⟩)
      [.advance 0 4, .stealFromLargest 0, .advance 1 2] := by
  refine ⟨by decide, fun h => ?_⟩
  have hlast := (h.last rfl).complete
  revert hlast
  decide

end CncContent.WorkStealing.Sequential
