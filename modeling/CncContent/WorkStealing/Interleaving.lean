import CncContent.WorkStealing.Holders
import CncContent.Lib.Runs

/-! # Owners and thieves, interleaved

A `System` is a ledger, what each owner last saw of its task, and the program counters of any number
of concurrent `steal` calls. Its steps are the owners' `remaining` and `advance`, the single loads
and the `compare_exchange` of the thieves, and the download of stolen ranges.

The `compare_exchange` of a thief protects the end of the range only. `InTime` is what it would have
to protect: that the owner has not passed the midpoint when the end is lowered to it, and that the
end has not been lowered below what the owner advances over. A run keeps the partition of the file
throughout exactly if every step is in time (`partitions_iff_inTime`). -/

namespace CncContent.WorkStealing.Interleaving

open CncContent.Lib.Bounded CncContent.Lib.CoverCount CncContent.Lib.Runs
open CncContent.WorkStealing.Scheduler CncContent.WorkStealing.Scheduler.StealableTask
open CncContent.WorkStealing.Holders

/-- Where a thief is in the loop of `steal`, with the values it has loaded. -/
inductive Thief
  | idle
  | loadEnd (task : ℕ)
  | loadStart (task currentEnd : ℕ)
  | compareExchange (task currentEnd currentStart : ℕ)
deriving DecidableEq

structure System where
  ledger : Ledger
  looked : List ℕ
  thieves : List Thief
deriving DecidableEq

inductive Action
  | look (i : ℕ)
  | advance (i n : ℕ)
  | steal (k task : ℕ)
  | thief (k : ℕ)
  | download (j n : ℕ)
deriving DecidableEq

namespace System

def start (scheduler : WorkStealingScheduler) (thiefCount : ℕ) : System :=
  ⟨Ledger.start scheduler, List.replicate scheduler.tasks.length 0,
    List.replicate thiefCount .idle⟩

variable (s : System)

def task? (i : ℕ) : Option StealableTask := s.ledger.scheduler.tasks[i]?

def goto (k : ℕ) (pc : Thief) : System := { s with thieves := s.thieves.set k pc }

/-- The next atomic operation of thief `k`. A failed exchange starts the loop again. -/
def thiefStep (k : ℕ) : Thief → Option System
  | .idle => none
  | .loadEnd i => (s.task? i).map fun t => s.goto k (.loadStart i t.stop)
  | .loadStart i e => (s.task? i).map fun t => s.goto k (.compareExchange i e t.currentStart)
  | .compareExchange i e start =>
    match midpoint s.ledger.scheduler.minChunkSize start e with
    | none => some (s.goto k .idle)
    | some mid => (s.task? i).map fun t =>
      if t.stop = e then { s.goto k .idle with ledger := s.ledger.take i t mid }
      else s.goto k (.loadEnd i)

/-- An owner advances by no more than it last saw in its range; a thief writes no more than what is
left of the range it got. -/
def step : Action → Option System
  | .look i => (s.task? i).map fun t => { s with looked := s.looked.set i t.remaining }
  | .advance i n => (s.task? i).bind fun t => s.looked[i]?.bind fun r =>
    if n ≤ r then some { s with ledger := s.ledger.advance i t n } else none
  | .steal k i => if s.thieves[k]? = some .idle then some (s.goto k (.loadEnd i)) else none
  | .thief k => s.thieves[k]?.bind (s.thiefStep k)
  | .download j n => s.ledger.stolen[j]?.bind fun r =>
    if n ≤ r.2 - r.1 then some { s with ledger := s.ledger.download j r n } else none

/-- Every byte of the file is written, or in one task's range, or in one stolen range, and in only
one of them. -/
def Partitioned (fileSize : ℕ) : Prop := Partitions s.ledger.ranges fileSize

/-- The exchange succeeds only while the owner is not past the midpoint. -/
def ExchangeInTime : Thief → Prop
  | .compareExchange i e start => ∀ mid ∈ midpoint s.ledger.scheduler.minChunkSize start e,
    ∀ t ∈ s.task? i, t.stop = e → t.currentStart ≤ mid
  | _ => True

/-- **The step is in time**: what it does still fits the range of the task as it is now. -/
def InTime : Action → Prop
  | .advance i n => ∀ t ∈ s.task? i, ∀ r ∈ s.looked[i]?, n ≤ r →
    n = 0 ∨ t.currentStart + n ≤ t.stop
  | .thief k => ∀ pc ∈ s.thieves[k]?, s.ExchangeInTime pc
  | _ => True

end System

/-! ### One step -/

/-- **A step of a thief** moves no byte, or it is a successful exchange. -/
theorem thiefStep_cases {s s' : System} {k : ℕ} {pc : Thief} (h : s.thiefStep k pc = some s') :
    (s'.ledger = s.ledger ∧ s.ExchangeInTime pc) ∨
    ∃ i e start mid t, pc = .compareExchange i e start ∧
      midpoint s.ledger.scheduler.minChunkSize start e = some mid ∧ s.task? i = some t ∧
      t.stop = e ∧ s'.ledger = s.ledger.take i t mid := by
  unfold System.thiefStep at h
  cases pc with
  | idle => cases h
  | loadEnd i =>
    obtain ⟨t, -, rfl⟩ := Option.map_eq_some_iff.mp h
    exact Or.inl ⟨rfl, trivial⟩
  | loadStart i e =>
    obtain ⟨t, -, rfl⟩ := Option.map_eq_some_iff.mp h
    exact Or.inl ⟨rfl, trivial⟩
  | compareExchange i e start =>
    dsimp only at h
    rcases hm : midpoint s.ledger.scheduler.minChunkSize start e with _ | mid
    · rw [hm] at h
      cases h
      refine Or.inl ⟨rfl, fun mid hmid => ?_⟩
      rw [hm] at hmid
      cases hmid
    · rw [hm] at h
      obtain ⟨t, ht, rfl⟩ := Option.map_eq_some_iff.mp h
      by_cases hstop : t.stop = e
      · rw [if_pos hstop]
        exact Or.inr ⟨i, e, start, mid, t, rfl, hm, ht, hstop, rfl⟩
      · rw [if_neg hstop]
        refine Or.inl ⟨rfl, fun _ _ t' ht' h' => ?_⟩
        rw [ht] at ht'
        cases ht'
        exact absurd h' hstop

/-- **What a step moves**: nothing, the bytes of an advance, of a steal or of a download. -/
theorem step_cases {s s' : System} {a : Action} (h : s.step a = some s') :
    (s'.ledger = s.ledger ∧ s.InTime a) ∨
    (∃ i n t r, a = .advance i n ∧ s.task? i = some t ∧ s.looked[i]? = some r ∧ n ≤ r ∧
      s'.ledger = s.ledger.advance i t n) ∨
    (∃ k i e start mid t, a = .thief k ∧ s.thieves[k]? = some (.compareExchange i e start) ∧
      midpoint s.ledger.scheduler.minChunkSize start e = some mid ∧ s.task? i = some t ∧
      t.stop = e ∧ s'.ledger = s.ledger.take i t mid) ∨
    ∃ j n r, a = .download j n ∧ s.ledger.stolen[j]? = some r ∧ n ≤ r.2 - r.1 ∧
      s'.ledger = s.ledger.download j r n := by
  cases a with
  | look i =>
    obtain ⟨t, -, rfl⟩ := Option.map_eq_some_iff.mp h
    exact Or.inl ⟨rfl, trivial⟩
  | advance i n =>
    obtain ⟨t, ht, h'⟩ := Option.bind_eq_some_iff.mp h
    obtain ⟨r, hr, h''⟩ := Option.bind_eq_some_iff.mp h'
    split_ifs at h'' with hn
    cases h''
    exact Or.inr (Or.inl ⟨i, n, t, r, rfl, ht, hr, hn, rfl⟩)
  | steal k i =>
    unfold System.step at h
    dsimp only at h
    split_ifs at h
    cases h
    exact Or.inl ⟨rfl, trivial⟩
  | thief k =>
    obtain ⟨pc, hpc, hstep⟩ := Option.bind_eq_some_iff.mp h
    rcases thiefStep_cases hstep with ⟨hl, hin⟩ | ⟨i, e, start, mid, t, rfl, hm, ht, he, hl⟩
    · refine Or.inl ⟨hl, fun pc' hpc' => ?_⟩
      rw [hpc] at hpc'
      cases hpc'
      exact hin
    · exact Or.inr (Or.inr (Or.inl ⟨k, i, e, start, mid, t, rfl, hpc, hm, ht, he, hl⟩))
  | download j n =>
    obtain ⟨r, hj, h'⟩ := Option.bind_eq_some_iff.mp h
    split_ifs at h' with hn
    cases h'
    exact Or.inr (Or.inr (Or.inr ⟨j, n, r, rfl, hj, hn, rfl⟩))

theorem bounded_step {s s' : System} {a : Action} (hb : s.ledger.Bounded)
    (h : s.step a = some s') : s'.ledger.Bounded := by
  rcases step_cases h with ⟨hl, -⟩ | ⟨i, n, t, r, -, ht, -, -, hl⟩ |
    ⟨k, i, e, start, mid, t, -, -, hm, ht, rfl, hl⟩ | ⟨j, n, r, -, -, -, hl⟩
  · rw [hl]
    exact hb
  · rw [hl]
    exact Ledger.bounded_advance hb ht
  · rw [hl]
    exact Ledger.bounded_take hb ht (midpoint_spec hm).2.le
  · rw [hl]
    exact hb

/-- **What a step does to the partition**: it is kept exactly if the step is in time. -/
theorem partitioned_step_iff {s s' : System} {a : Action} {fileSize : ℕ} (hb : s.ledger.Bounded)
    (hp : s.Partitioned fileSize) (h : s.step a = some s') :
    s'.Partitioned fileSize ↔ s.InTime a := by
  unfold System.Partitioned at hp ⊢
  rcases step_cases h with ⟨hl, hin⟩ | ⟨i, n, t, r, rfl, ht, hr, hn, hl⟩ |
    ⟨k, i, e, start, mid, t, rfl, hpc, hm, ht, rfl, hl⟩ | ⟨j, n, r, rfl, hj, hn, hl⟩
  · rw [hl]
    exact ⟨fun _ => hin, fun _ => hp⟩
  · rw [hl, Ledger.partitions_advance_iff ht hb hp]
    constructor
    · intro hle t' ht' _ _ _
      rw [ht] at ht'
      cases ht'
      exact hle
    · intro hin
      exact hin t ht r hr hn
  · rw [hl, Ledger.partitions_take_iff ht (midpoint_spec hm).2 hp]
    constructor
    · intro hle pc hpc'
      rw [hpc] at hpc'
      cases hpc'
      intro mid' hmid' t' ht' _
      rw [hm] at hmid'
      rw [ht] at ht'
      cases hmid'
      cases ht'
      exact hle
    · intro hin
      exact hin _ hpc mid hm t ht rfl
  · rw [hl]
    exact ⟨fun _ => trivial, fun _ => Ledger.partitions_download hj hn hp⟩

/-- A step that is not possible is not late. -/
theorem inTime_of_none {s : System} {a : Action} (h : s.step a = none) : s.InTime a := by
  cases a with
  | advance i n =>
    intro t ht r hr hn
    have hstep : s.step (.advance i n) = some { s with ledger := s.ledger.advance i t n } := by
      refine Option.bind_eq_some_iff.mpr ⟨t, ht, Option.bind_eq_some_iff.mpr ⟨r, hr, ?_⟩⟩
      rw [if_pos hn]
    rw [h] at hstep
    cases hstep
  | thief k =>
    intro pc hpc
    have hnone : s.thiefStep k pc = none := Option.bind_eq_none_iff.mp h pc hpc
    cases pc with
    | compareExchange i e start =>
      intro mid hmid t ht _
      unfold System.thiefStep at hnone
      dsimp only at hnone
      rw [show midpoint _ start e = some mid from hmid, show s.task? i = some t from ht] at hnone
      cases hnone
    | _ => trivial
  | _ => trivial

/-! ### Every run -/

/-- **The written bytes, the tasks' ranges and the stolen ranges partition the file** in every state
of a run exactly if every step of the run is in time. -/
theorem partitions_iff_inTime {fileSize threadCount minChunkSize : ℕ}
    {scheduler : WorkStealingScheduler} (hsize : fileSize ≤ u64Max)
    (h : WorkStealingScheduler.new fileSize threadCount minChunkSize = some scheduler)
    (thiefCount : ℕ) (actions : List Action) :
    Always System.step (System.Partitioned · fileSize) (System.start scheduler thiefCount) actions ↔
      Meets System.step System.InTime (System.start scheduler thiefCount) actions :=
  always_iff_meets (I := fun s => s.ledger.Bounded) (fun _ _ _ hb _ => bounded_step hb)
    (fun _ _ _ => partitioned_step_iff) (fun _ _ _ _ => inTime_of_none)
    (bounded_start h hsize) (partitions_start h)

theorem partitions_iff_inTime_two_thieves :
    Always System.step (System.Partitioned · 10) (System.start ⟨[⟨0, 5⟩, ⟨5, 10⟩], 1⟩ 2)
        [.steal 0 1, .thief 0, .look 1, .thief 0] ↔
      Meets System.step System.InTime (System.start ⟨[⟨0, 5⟩, ⟨5, 10⟩], 1⟩ 2)
        [.steal 0 1, .thief 0, .look 1, .thief 0] :=
  partitions_iff_inTime (by decide)
    (by decide : WorkStealingScheduler.new 10 2 1 = some ⟨[⟨0, 5⟩, ⟨5, 10⟩], 1⟩) 2 _

/-- The owner advances over its whole range between the thief's load of the start and its exchange:
bytes `4..8` are written and handed out. -/
theorem advance_before_exchange :
    WorkStealingScheduler.new 8 1 1 = some ⟨[⟨0, 8⟩], 1⟩ ∧
    ¬ Always System.step (System.Partitioned · 8) (System.start ⟨[⟨0, 8⟩], 1⟩ 1)
      [.look 0, .steal 0 0, .thief 0, .thief 0, .advance 0 8, .thief 0] := by
  refine ⟨by decide, fun h => ?_⟩
  have hlast := h.last rfl 4
  revert hlast
  decide

end CncContent.WorkStealing.Interleaving
