import CncContent.Lib.Averages
import CncContent.Peers.Tracker

/-! # Bandwidth

`BandwidthEstimator` of the source: two moving averages of the rates of the samples, of which the smaller
one is the safe estimate. The estimates are exact rationals, a duration is a number of nanoseconds. The
time to buffer a number of bytes is converted to a duration, which panics from `2 ^ 64` seconds on; the
number of bytes is a floating point number by then, and the largest one is rounded up to `2 ^ 64`. So there
is a time for every number of bytes exactly if the safe estimate is zero or above one byte a second
(`estimates_iff`). -/

namespace CncContent.Streaming.Bandwidth

open CncContent.Lib.Averages CncContent.Lib.Bounded CncContent.Peers.Tracker

def fastAlpha : ℚ := 1 / 2
def slowAlpha : ℚ := 1 / 10

theorem fastAlpha_mem : 0 ≤ fastAlpha ∧ fastAlpha ≤ 1 := by decide +kernel

theorem slowAlpha_mem : 0 ≤ slowAlpha ∧ slowAlpha ≤ 1 := by decide +kernel

/-- A millisecond. -/
def minSampleDuration : ℕ := 10 ^ 6

structure BandwidthEstimator where
  fastBps : ℚ
  slowBps : ℚ
  sampleCount : ℕ
  totalBytes : ℕ
  totalDuration : ℕ
  lastSampleAt : Option ℕ
deriving DecidableEq

/-- The arguments of a call of `record_sample`. -/
structure Sample where
  bytes : ℕ
  duration : ℕ
  now : ℕ
deriving DecidableEq, Repr

/-- The rate of a sample. -/
def Sample.bps (sample : Sample) : ℚ := sample.bytes / asSecsF64 (max sample.duration minSampleDuration)

/-- An integer `as f64`: rounded to 53 significant bits, ties to the even one. -/
def asF64 (n : ℕ) : ℕ :=
  let e := Nat.log2 n - 52
  let half := 2 ^ e / 2
  let q := n / 2 ^ e
  if half < n % 2 ^ e ∨ (0 < e ∧ n % 2 ^ e = half ∧ q % 2 = 1) then (q + 1) * 2 ^ e else q * 2 ^ e

/-- What `time_to_buffer` ends with: the time in seconds, if there is an estimate. -/
inductive TimeToBuffer
  | unknown
  | after (secs : ℚ)
  | panicked
deriving DecidableEq

namespace BandwidthEstimator

def new : BandwidthEstimator := ⟨0, 0, 0, 0, 0, none⟩

variable (e : BandwidthEstimator)

def recordSample (sample : Sample) : BandwidthEstimator where
  fastBps :=
    if e.sampleCount = 0 then sample.bps
    else fastAlpha * sample.bps + (1 - fastAlpha) * e.fastBps
  slowBps :=
    if e.sampleCount = 0 then sample.bps
    else slowAlpha * sample.bps + (1 - slowAlpha) * e.slowBps
  sampleCount := satAdd u64Max e.sampleCount 1
  totalBytes := satAdd u64Max e.totalBytes sample.bytes
  totalDuration := satAdd durationMax e.totalDuration (max sample.duration minSampleDuration)
  lastSampleAt := some sample.now

def safeEstimateBytesPerSec : ℚ := if e.sampleCount = 0 then 0 else min e.fastBps e.slowBps

/-- `from_secs_f64` panics if the seconds do not fit in 64 bits. -/
def timeToBuffer (byteCount : ℕ) : TimeToBuffer :=
  let safe := e.safeEstimateBytesPerSec
  if safe ≤ 0 then .unknown
  else
    let secs : ℚ := asF64 byteCount / safe
    if 2 ^ 64 ≤ secs then .panicked else .after secs

/-- A history of samples. -/
def record (samples : List Sample) : BandwidthEstimator := samples.foldl recordSample new

end BandwidthEstimator

/-- What the estimates after some samples should be. -/
structure Estimates (samples : List Sample) : Prop where
  fast : (∃ s ∈ samples, s.bps ≤ (BandwidthEstimator.record samples).fastBps) ∧
    ∃ s ∈ samples, (BandwidthEstimator.record samples).fastBps ≤ s.bps
  slow : (∃ s ∈ samples, s.bps ≤ (BandwidthEstimator.record samples).slowBps) ∧
    ∃ s ∈ samples, (BandwidthEstimator.record samples).slowBps ≤ s.bps
  safe : (BandwidthEstimator.record samples).safeEstimateBytesPerSec ≤
      (BandwidthEstimator.record samples).fastBps ∧
    (BandwidthEstimator.record samples).safeEstimateBytesPerSec ≤
      (BandwidthEstimator.record samples).slowBps
  returns : ∀ n ≤ u64Max, (BandwidthEstimator.record samples).timeToBuffer n ≠ .panicked

/-- The smaller one of the two weighted averages of the rates. -/
def safeAverage (first : Sample) (rest : List Sample) : ℚ :=
  min (weightedAverage fastAlpha first.bps (rest.map Sample.bps))
    (weightedAverage slowAlpha first.bps (rest.map Sample.bps))

/-! ### The estimates -/

/-- **The two estimates** are moving averages of the rates. -/
theorem record_cons (first : Sample) (rest : List Sample) :
    0 < (BandwidthEstimator.record (first :: rest)).sampleCount ∧
    (BandwidthEstimator.record (first :: rest)).fastBps =
      movingAverage fastAlpha first.bps (rest.map Sample.bps) ∧
    (BandwidthEstimator.record (first :: rest)).slowBps =
      movingAverage slowAlpha first.bps (rest.map Sample.bps) := by
  induction rest using List.reverseRecOn with
  | nil =>
    refine ⟨?_, rfl, rfl⟩
    show 0 < min 1 u64Max
    decide
  | append_singleton rest s ih =>
    obtain ⟨hcount, hfast, hslow⟩ := ih
    have hstep : BandwidthEstimator.record (first :: (rest ++ [s])) =
        (BandwidthEstimator.record (first :: rest)).recordSample s := by
      rw [← List.cons_append]
      exact List.foldl_append
    rw [hstep, List.map_append, List.map_singleton, movingAverage_append_singleton,
      movingAverage_append_singleton, ← hfast, ← hslow]
    refine ⟨?_, if_neg hcount.ne', if_neg hcount.ne'⟩
    show 0 < min (_ + 1) u64Max
    exact lt_min (Nat.succ_pos _) (by decide)

theorem safeEstimate_eq (first : Sample) (rest : List Sample) :
    (BandwidthEstimator.record (first :: rest)).safeEstimateBytesPerSec = safeAverage first rest := by
  obtain ⟨hcount, hfast, hslow⟩ := record_cons first rest
  unfold BandwidthEstimator.safeEstimateBytesPerSec safeAverage
  rw [if_neg hcount.ne', hfast, hslow, movingAverage_eq, movingAverage_eq]

theorem bps_nonneg (s : Sample) : 0 ≤ s.bps :=
  div_nonneg (Nat.cast_nonneg _) (div_nonneg (Nat.cast_nonneg _) (by decide))

/-- A moving average of the rates lies between two of them. -/
theorem between_of_eq {α average : ℚ} (hα : 0 ≤ α ∧ α ≤ 1) {first : Sample} {rest : List Sample}
    (h : average = movingAverage α first.bps (rest.map Sample.bps)) :
    (∃ s ∈ first :: rest, s.bps ≤ average) ∧ ∃ s ∈ first :: rest, average ≤ s.bps := by
  have hlow := exists_le_movingAverage hα.1 hα.2 first.bps (rest.map Sample.bps)
  have hhigh := exists_movingAverage_le hα.1 hα.2 first.bps (rest.map Sample.bps)
  rw [← h, ← List.map_cons] at hlow hhigh
  simpa only [List.mem_map, exists_exists_and_eq_and] using And.intro hlow hhigh

/-- Every rate is at least zero, and so is the safe estimate. -/
theorem safeAverage_nonneg (first : Sample) (rest : List Sample) : 0 ≤ safeAverage first rest := by
  obtain ⟨-, hfast, hslow⟩ := record_cons first rest
  unfold safeAverage
  rw [← movingAverage_eq, ← movingAverage_eq, ← hfast, ← hslow]
  obtain ⟨⟨s, -, hs⟩, -⟩ := between_of_eq fastAlpha_mem hfast
  obtain ⟨⟨t, -, ht⟩, -⟩ := between_of_eq slowAlpha_mem hslow
  exact le_min ((bps_nonneg s).trans hs) ((bps_nonneg t).trans ht)

/-! ### The time to buffer -/

theorem asF64_of_lt {n : ℕ} (h : n < 2 ^ 53) : asF64 n = n := by
  have hlog : Nat.log2 n - 52 = 0 := by
    rcases Nat.eq_zero_or_pos n with rfl | hpos
    · decide
    · have hlt := (Nat.log2_lt hpos.ne').mpr h
      omega
  unfold asF64
  rw [hlog]
  dsimp only
  rw [pow_zero, Nat.mod_one, Nat.div_one, if_neg (by omega), Nat.mul_one]

/-- A power of two is a floating point number, so that no smaller integer is rounded above it. -/
theorem asF64_le {n k : ℕ} (h : n < 2 ^ k) : asF64 n ≤ 2 ^ k := by
  by_cases hsmall : n < 2 ^ 53
  · rw [asF64_of_lt hsmall]
    exact h.le
  · have hne : n ≠ 0 := by
      rintro rfl
      exact hsmall (by decide)
    have hlog : 53 ≤ Nat.log2 n := (Nat.le_log2 hne).mpr (not_lt.mp hsmall)
    have hlt : Nat.log2 n < k := (Nat.log2_lt hne).mpr h
    have hq : n / 2 ^ (Nat.log2 n - 52) < 2 ^ 53 := by
      refine Nat.div_lt_of_lt_mul ?_
      rw [← pow_add, show Nat.log2 n - 52 + 53 = Nat.log2 n + 1 by omega]
      exact Nat.lt_log2_self
    have hup : (n / 2 ^ (Nat.log2 n - 52) + 1) * 2 ^ (Nat.log2 n - 52) ≤ 2 ^ k :=
      calc (n / 2 ^ (Nat.log2 n - 52) + 1) * 2 ^ (Nat.log2 n - 52)
          ≤ 2 ^ 53 * 2 ^ (Nat.log2 n - 52) := Nat.mul_le_mul_right _ hq
        _ = 2 ^ (Nat.log2 n + 1) := by rw [← pow_add, show 53 + (Nat.log2 n - 52) = Nat.log2 n + 1 by omega]
        _ ≤ 2 ^ k := Nat.pow_le_pow_right (by decide) hlt
    unfold asF64
    dsimp only
    split_ifs
    · exact hup
    · exact (Nat.mul_le_mul_right _ (Nat.le_succ _)).trans hup

/-- Ties go to the even number. -/
example : asF64 (2 ^ 53 + 1) = 2 ^ 53 ∧ asF64 (2 ^ 53 + 3) = 2 ^ 53 + 4 := by decide +kernel

/-- The largest number of bytes is rounded up. -/
theorem asF64_u64Max : asF64 u64Max = 2 ^ 64 := by decide +kernel

/-- The time for every number of bytes fits exactly if the time for the largest number does. -/
theorem timeToBuffer_iff (e : BandwidthEstimator) (h : 0 ≤ e.safeEstimateBytesPerSec) :
    (∀ n ≤ u64Max, e.timeToBuffer n ≠ .panicked) ↔
      e.safeEstimateBytesPerSec = 0 ∨ 1 < e.safeEstimateBytesPerSec := by
  rcases h.eq_or_lt with hzero | hpos
  · refine iff_of_true (fun n _ => ?_) (Or.inl hzero.symm)
    rw [BandwidthEstimator.timeToBuffer, if_pos hzero.ge]
    exact nofun
  · have hfits : ∀ n : ℕ, e.timeToBuffer n ≠ .panicked ↔
        (asF64 n : ℚ) < 2 ^ 64 * e.safeEstimateBytesPerSec := fun n => by
      rw [BandwidthEstimator.timeToBuffer, if_neg (not_le.mpr hpos), ← div_lt_iff₀ hpos, ← not_le]
      dsimp only
      split_ifs with hle
      · exact iff_of_false (fun hne => hne rfl) (fun hnot => hnot hle)
      · exact iff_of_true nofun hle
    have hmax : (asF64 u64Max : ℚ) = 2 ^ 64 := by rw [asF64_u64Max]; norm_num
    simp only [hfits, or_iff_right hpos.ne']
    constructor
    · intro hall
      have hlt := hall u64Max le_rfl
      rw [hmax] at hlt
      exact (lt_mul_iff_one_lt_right (by norm_num)).mp hlt
    · intro hone n hn
      have hle : (asF64 n : ℚ) ≤ asF64 u64Max := by
        rw [asF64_u64Max]
        exact Nat.cast_le.mpr (asF64_le (Nat.lt_of_le_of_lt hn (by decide)))
      rw [hmax] at hle
      exact lt_of_le_of_lt hle ((lt_mul_iff_one_lt_right (by norm_num)).mpr hone)

/-- **The histories after which every time is returned** are those after which the safe estimate is zero
or above one byte a second. The estimates lie between the rates after all of them. -/
theorem estimates_iff (first : Sample) (rest : List Sample) : Estimates (first :: rest) ↔
    safeAverage first rest = 0 ∨ 1 < safeAverage first rest := by
  obtain ⟨hcount, hfast, hslow⟩ := record_cons first rest
  have hnonneg := safeAverage_nonneg first rest
  rw [← safeEstimate_eq] at hnonneg ⊢
  rw [← timeToBuffer_iff _ hnonneg]
  refine ⟨fun h => h.returns, fun h => ⟨between_of_eq fastAlpha_mem hfast,
    between_of_eq slowAlpha_mem hslow, ?_, h⟩⟩
  unfold BandwidthEstimator.safeEstimateBytesPerSec
  rw [if_neg hcount.ne']
  exact ⟨min_le_left _ _, min_le_right _ _⟩

/-- After one byte in two seconds the time for the largest number of bytes does not fit. -/
theorem slow_sample_panics :
    (BandwidthEstimator.record [⟨1, 2 * 10 ^ 9, 0⟩]).timeToBuffer u64Max = .panicked ∧
      ¬ Estimates [⟨1, 2 * 10 ^ 9, 0⟩] := by
  have hpanic : (BandwidthEstimator.record [⟨1, 2 * 10 ^ 9, 0⟩]).timeToBuffer u64Max = .panicked := by
    decide +kernel
  exact ⟨hpanic, fun h => h.returns u64Max le_rfl hpanic⟩

end CncContent.Streaming.Bandwidth
