import CncContent.Limits.Throttle
import Mathlib.Algebra.Order.Archimedean.Basic

/-! # When a throttled request is granted

A request that a `BandwidthThrottle` refuses is granted later, if it is not larger than the bucket: as
long as nothing is consumed the level, as an exact number, is at least what the rate alone has added, or
the bucket is full (`level_polls`). The bucket of a throttle with a limit holds at least a typical piece request, whatever
has been done with it (`burst_ge`). -/

namespace CncContent.Limits.Delays

open CncContent.Limits.Throttle
open CncContent.Limits.Throttle.BandwidthThrottle
open CncContent.Peers.Tracker (asSecsF64 durationSince)

/-- An operation on a throttle. -/
inductive Operation
  | call (c : Call)
  | setRate (rateBytesPerSec now : ℕ)
deriving DecidableEq, Repr

def applyCall (b : BandwidthThrottle) : Call → BandwidthThrottle
  | .request byteCount now => (b.request byteCount now).2
  | .consume byteCount now => b.consume byteCount now
  | .available now => (b.readAvailable now).2

def apply (b : BandwidthThrottle) : Operation → BandwidthThrottle
  | .call c => applyCall b c
  | .setRate rateBytesPerSec now => b.setRate rateBytesPerSec now

/-- A throttle as it can be after any operations. -/
def Reachable (b : BandwidthThrottle) : Prop :=
  ∃ start : BandwidthThrottle, ((∃ rate now, start = .new rate now) ∨
    ∃ rate burst now, start = .withBurst rate burst now) ∧ ∃ ops : List Operation, b = ops.foldl apply start

/-! ### The size of the bucket -/

/-- A throttle with a limit has a bucket for a piece request. -/
def Roomy (b : BandwidthThrottle) : Prop := 0 < b.rateBytesPerSec → minBurstBytes ≤ b.burstBytes

/-- The bucket of the constructors, of any size that is asked for. -/
theorem le_bucket {rate size : ℕ} (hrate : 0 < rate) :
    minBurstBytes ≤ if rate = 0 then 0 else max size minBurstBytes := by
  rw [if_neg hrate.ne']
  exact le_max_right _ _

theorem roomy_new (rate now : ℕ) : Roomy (.new rate now) := fun hrate => le_bucket hrate

theorem roomy_withBurst (rate burst now : ℕ) : Roomy (.withBurst rate burst now) :=
  fun hrate => le_bucket hrate

theorem Roomy.setRate (b : BandwidthThrottle) (rate now : ℕ) : Roomy (b.setRate rate now) := by
  unfold BandwidthThrottle.setRate
  dsimp only
  by_cases hrate : rate = 0
  · rw [if_pos hrate]
    exact fun h => absurd h (Nat.lt_irrefl 0)
  · rw [if_neg hrate]
    exact fun _ => le_max_right _ _

/-- The calls keep the rate and the size of the bucket. -/
theorem applyCall_limits (b : BandwidthThrottle) (c : Call) :
    (applyCall b c).rateBytesPerSec = b.rateBytesPerSec ∧ (applyCall b c).burstBytes = b.burstBytes := by
  cases c with
  | request byteCount now =>
    unfold applyCall BandwidthThrottle.request
    split_ifs <;> exact ⟨rfl, rfl⟩
  | consume byteCount now =>
    unfold applyCall BandwidthThrottle.consume
    split_ifs <;> exact ⟨rfl, rfl⟩
  | available now => exact ⟨rfl, rfl⟩

theorem Roomy.apply {b : BandwidthThrottle} (h : Roomy b) (op : Operation) : Roomy (apply b op) := by
  cases op with
  | call c =>
    obtain ⟨hrate, hburst⟩ := applyCall_limits b c
    unfold Roomy
    show 0 < (applyCall b c).rateBytesPerSec → minBurstBytes ≤ (applyCall b c).burstBytes
    rw [hrate, hburst]
    exact h
  | setRate rate now => exact Roomy.setRate b rate now

/-- **A bucket with a limit** holds at least a typical piece request. -/
theorem Reachable.roomy {b : BandwidthThrottle} (h : Reachable b) : Roomy b := by
  obtain ⟨start, hstart, ops, rfl⟩ := h
  have hroomy : Roomy start := by
    rcases hstart with ⟨rate, now, rfl⟩ | ⟨rate, burst, now, rfl⟩
    · exact roomy_new rate now
    · exact roomy_withBurst rate burst now
  clear hstart
  induction ops generalizing start with
  | nil => exact hroomy
  | cons op ops ih => exact ih _ (hroomy.apply op)

/-! ### Waiting -/

/-- The call consumes nothing. -/
def Poll : Call → Prop
  | .request _ _ | .available _ => True
  | .consume _ _ => False

variable {b : BandwidthThrottle}

theorem applyCall_of_poll (hrate : 0 < b.rateBytesPerSec) {c : Call} (hc : Poll c) :
    applyCall b c = b.refill c.now := by
  cases c with
  | request byteCount now => exact congrArg Prod.snd (if_neg hrate.ne')
  | consume byteCount now => exact hc.elim
  | available now => rfl

/-- What the rate adds in a time. -/
def gained (b : BandwidthThrottle) (now : ℕ) : ℚ :=
  asSecsF64 (durationSince now b.lastRefill) * b.rateBytesPerSec

theorem gained_nonneg (b : BandwidthThrottle) (now : ℕ) : 0 ≤ gained b now :=
  mul_nonneg (asSecsF64_nonneg _) (Nat.cast_nonneg _)

/-- A refill in between loses no time. -/
theorem gained_le (b : BandwidthThrottle) (t now : ℕ) :
    gained b now ≤ gained b t + gained (b.refill t) now := by
  have htime : asSecsF64 (durationSince now b.lastRefill) ≤
      asSecsF64 (durationSince t b.lastRefill) + asSecsF64 (durationSince now t) := by
    have hle : durationSince now b.lastRefill ≤
        durationSince t b.lastRefill + durationSince now t := by
      unfold durationSince
      omega
    unfold asSecsF64
    rw [← add_div, div_le_div_iff_of_pos_right (by norm_num)]
    exact_mod_cast hle
  calc gained b now ≤ (asSecsF64 (durationSince t b.lastRefill) + asSecsF64 (durationSince now t)) *
        b.rateBytesPerSec := mul_le_mul_of_nonneg_right htime (Nat.cast_nonneg _)
    _ = gained b t + gained (b.refill t) now := add_mul _ _ _

/-- **The level while nothing is consumed**: full, or at least what the rate alone has added. -/
theorem level_polls {now : ℕ} : ∀ {polls : List Call} {b : BandwidthThrottle}, 0 < b.rateBytesPerSec →
    (∀ c ∈ polls, Poll c) → min (b.available + gained b now) b.burstBytes ≤
      ((polls.foldl applyCall b).refill now).available
  | [], b, _, _ => le_rfl
  | c :: polls, b, hrate, hpolls => by
    obtain ⟨hc, hpolls⟩ := List.forall_mem_cons.mp hpolls
    rw [List.foldl_cons, applyCall_of_poll hrate hc]
    refine le_trans (le_min ?_ (min_le_right _ _)) (level_polls (b := b.refill c.now) hrate hpolls)
    have havailable : (b.refill c.now).available = min (b.available + gained b c.now) b.burstBytes := rfl
    have hgain := gained_nonneg (b.refill c.now) now
    have hsplit := gained_le b c.now now
    rw [havailable]
    rcases le_total (b.available + gained b c.now) b.burstBytes with h | h
    · rw [min_eq_left h]
      exact (min_le_left _ _).trans (by linarith)
    · rw [min_eq_right h]
      exact (min_le_right _ _).trans (by linarith)

theorem foldl_applyCall_limits : ∀ (calls : List Call) (b : BandwidthThrottle),
    (calls.foldl applyCall b).rateBytesPerSec = b.rateBytesPerSec ∧
      (calls.foldl applyCall b).burstBytes = b.burstBytes
  | [], _ => ⟨rfl, rfl⟩
  | c :: calls, b => by
    obtain ⟨hrate, hburst⟩ := applyCall_limits b c
    obtain ⟨hrate', hburst'⟩ := foldl_applyCall_limits calls (applyCall b c)
    exact ⟨hrate'.trans hrate, hburst'.trans hburst⟩

theorem request_fst {byteCount now : ℕ} (hrate : 0 < b.rateBytesPerSec) :
    (b.request byteCount now).1 = decide ((byteCount : ℚ) ≤ (b.refill now).available) :=
  congrArg Prod.fst (if_neg hrate.ne')

/-- From some time on the rate has added any number of bytes. -/
theorem exists_gained (hrate : 0 < b.rateBytesPerSec) (q : ℚ) :
    ∃ T, ∀ now, T ≤ now → q ≤ gained b now := by
  obtain ⟨n, hn⟩ := exists_nat_ge (q * 10 ^ 9)
  refine ⟨b.lastRefill + n, fun now hnow => ?_⟩
  have hone : (1 : ℚ) ≤ b.rateBytesPerSec := by exact_mod_cast hrate
  have hwait : (n : ℚ) ≤ (durationSince now b.lastRefill : ℕ) := by
    have hle : n ≤ durationSince now b.lastRefill := by
      unfold durationSince
      omega
    exact_mod_cast hle
  have hsecs : q ≤ asSecsF64 (durationSince now b.lastRefill) := by
    unfold asSecsF64
    rw [le_div_iff₀ (by norm_num)]
    exact hn.trans hwait
  calc q ≤ asSecsF64 (durationSince now b.lastRefill) * 1 := by rw [mul_one]; exact hsecs
    _ ≤ gained b now := mul_le_mul_of_nonneg_left hone (asSecsF64_nonneg _)

/-- A request larger than the bucket is refused at all times. -/
theorem refused_of_burst_lt (hrate : 0 < b.rateBytesPerSec) {byteCount : ℕ}
    (hlt : b.burstBytes < byteCount) (now : ℕ) : (b.request byteCount now).1 = false := by
  have hburst : (b.burstBytes : ℚ) < byteCount := by exact_mod_cast hlt
  rw [request_fst hrate, decide_eq_false_iff_not, not_le]
  exact (refill_le_burst now).trans_lt hburst

end CncContent.Limits.Delays
