import CncContent.Lib.TokenBucket
import CncContent.Peers.Tracker
import Mathlib.Algebra.Order.Field.Basic
import Mathlib.Data.Rat.Cast.Order

/-! # Bandwidth throttles

`BandwidthThrottle` of the source: a bucket of bytes that is filled at a rate. The bytes available are
an exact rational number, where the source has an `f64` that loses an addition which is small beside
it; an instant is a number of nanoseconds. Who only consumes what has been granted before
(`Disciplined`) keeps to the rate in every window, up to one full bucket (`consumed_le`). -/

namespace CncContent.Limits.Throttle

open CncContent.Lib.Bounded CncContent.Lib.TokenBucket
open CncContent.Peers.Tracker (asSecsF64 durationSince)

def defaultBurstFactor : ℕ := 2

def minBurstBytes : ℕ := 16384

structure BandwidthThrottle where
  rateBytesPerSec : ℕ
  burstBytes : ℕ
  available : ℚ
  lastRefill : ℕ
  totalConsumed : ℕ
deriving DecidableEq, Repr

namespace BandwidthThrottle

def new (rateBytesPerSec now : ℕ) : BandwidthThrottle :=
  let burstBytes := if rateBytesPerSec = 0 then 0
    else max (satMul u64Max rateBytesPerSec defaultBurstFactor) minBurstBytes
  ⟨rateBytesPerSec, burstBytes, burstBytes, now, 0⟩

def withBurst (rateBytesPerSec burstBytes now : ℕ) : BandwidthThrottle :=
  let burst := if rateBytesPerSec = 0 then 0 else max burstBytes minBurstBytes
  ⟨rateBytesPerSec, burst, burst, now, 0⟩

variable (b : BandwidthThrottle)

def refill (now : ℕ) : BandwidthThrottle :=
  let added := asSecsF64 (durationSince now b.lastRefill) * b.rateBytesPerSec
  { b with available := min (b.available + added) b.burstBytes, lastRefill := now }

def request (byteCount now : ℕ) : Bool × BandwidthThrottle :=
  if b.rateBytesPerSec = 0 then (true, b)
  else (decide ((byteCount : ℚ) ≤ (b.refill now).available), b.refill now)

def consume (byteCount now : ℕ) : BandwidthThrottle :=
  if b.rateBytesPerSec = 0 then
    { b with totalConsumed := satAdd u64Max b.totalConsumed byteCount }
  else { b.refill now with
    available := (b.refill now).available - byteCount
    totalConsumed := satAdd u64Max b.totalConsumed byteCount }

/-- `available` of the source. -/
def readAvailable (now : ℕ) : ℚ × BandwidthThrottle := ((b.refill now).available, b.refill now)

def setRate (rateBytesPerSec now : ℕ) : BandwidthThrottle :=
  let b := b.refill now
  if rateBytesPerSec = 0 then
    { b with rateBytesPerSec := 0, burstBytes := 0, available := 0 }
  else
    let burstBytes := max (satMul u64Max rateBytesPerSec defaultBurstFactor) minBurstBytes
    { b with
      rateBytesPerSec := rateBytesPerSec
      burstBytes := burstBytes
      available := if (burstBytes : ℚ) < b.available then burstBytes else b.available }

end BandwidthThrottle

/-! ### Calls -/

inductive Call
  | request (byteCount now : ℕ)
  | consume (byteCount now : ℕ)
  | available (now : ℕ)
deriving DecidableEq, Repr

namespace Call

def now : Call → ℕ
  | .request _ now | .consume _ now | .available now => now

/-- The bytes consumed by the call. -/
def taken : Call → ℕ
  | .consume byteCount _ => byteCount
  | .request _ _ | .available _ => 0

end Call

/-- Every amount consumed has been granted since the amount before was consumed. -/
def Disciplined : List ℕ → BandwidthThrottle → List Call → Prop
  | _, _, [] => True
  | granted, b, .request byteCount now :: calls =>
    Disciplined (if (b.request byteCount now).1 then byteCount :: granted else granted)
      (b.request byteCount now).2 calls
  | granted, b, .consume byteCount now :: calls =>
    byteCount ∈ granted ∧ Disciplined [] (b.consume byteCount now) calls
  | granted, b, .available now :: calls => Disciplined granted (b.readAvailable now).2 calls

instance decidableDisciplined : ∀ granted b calls, Decidable (Disciplined granted b calls)
  | _, _, [] => inferInstanceAs (Decidable True)
  | _, _, .request _ _ :: calls => decidableDisciplined _ _ calls
  | granted, b, .consume byteCount now :: calls =>
    have := decidableDisciplined [] (b.consume byteCount now) calls
    inferInstanceAs (Decidable (byteCount ∈ granted ∧ _))
  | _, _, .available _ :: calls => decidableDisciplined _ _ calls

/-- The bytes consumed from `s` to `t`. -/
def consumedIn (s t : ℕ) (calls : List Call) : ℕ :=
  ((calls.filter fun c => s ≤ c.now ∧ c.now ≤ t).map Call.taken).sum

/-- The call as an event of a bucket. -/
def event (c : Call) : ℚ × ℚ := (asSecsF64 c.now, c.taken)

/-! ### Refills -/

theorem asSecsF64_nonneg (d : ℕ) : 0 ≤ asSecsF64 d := by
  unfold asSecsF64
  positivity

theorem asSecsF64_le_iff {s t : ℕ} : asSecsF64 s ≤ asSecsF64 t ↔ s ≤ t := by
  unfold asSecsF64
  rw [div_le_div_iff_of_pos_right (by norm_num), Nat.cast_le]

theorem asSecsF64_sub {s t : ℕ} (h : s ≤ t) : asSecsF64 (t - s) = asSecsF64 t - asSecsF64 s := by
  unfold asSecsF64
  rw [Nat.cast_sub h, sub_div]

namespace BandwidthThrottle

variable {b : BandwidthThrottle}

theorem refill_le_burst (now : ℕ) : (b.refill now).available ≤ b.burstBytes := min_le_right _ _

theorem refill_le {now : ℕ} (h : b.lastRefill ≤ now) : (b.refill now).available ≤
    b.available + b.rateBytesPerSec * (asSecsF64 now - asSecsF64 b.lastRefill) := by
  refine (min_le_left _ _).trans (le_of_eq ?_)
  rw [durationSince, asSecsF64_sub h, mul_comm]

/-- What was granted is still there. -/
theorem le_refill {n : ℚ} (now : ℕ) (havailable : n ≤ b.available) (hburst : n ≤ b.burstBytes) :
    n ≤ (b.refill now).available := by
  have hadded : 0 ≤ asSecsF64 (durationSince now b.lastRefill) * b.rateBytesPerSec :=
    mul_nonneg (asSecsF64_nonneg _) (Nat.cast_nonneg _)
  exact le_min (by linarith) hburst

end BandwidthThrottle

/-- What has been granted is there. -/
def Backed (granted : List ℕ) (b : BandwidthThrottle) : Prop :=
  ∀ n ∈ granted, (n : ℚ) ≤ b.available ∧ (n : ℚ) ≤ b.burstBytes

theorem Backed.refill {granted : List ℕ} {b : BandwidthThrottle} (h : Backed granted b) (now : ℕ) :
    Backed granted (b.refill now) := fun n hn =>
  ⟨BandwidthThrottle.le_refill now (h n hn).1 (h n hn).2, (h n hn).2⟩

/-- **Disciplined calls** are the events of a bucket: the level is the number of bytes available after
the last call. -/
theorem metered_of_disciplined {rate : ℕ} (hrate : rate ≠ 0) : ∀ {calls : List Call}
    {granted : List ℕ} {b : BandwidthThrottle} {level u : ℚ}, b.rateBytesPerSec = rate →
    Disciplined granted b calls → Backed granted b → (calls.Pairwise fun c c' => c.now ≤ c'.now) →
    (∀ c ∈ calls.head?, (b.refill c.now).available ≤ level + rate * (asSecsF64 c.now - u)) →
    Metered rate b.burstBytes level u (calls.map event)
  | [], _, _, _, _, _, _, _, _, _ => trivial
  | c :: calls, granted, b, level, u, hb, hdisc, hback, htimes, hlevel => by
    obtain ⟨hlater, hrest⟩ := List.pairwise_cons.mp htimes
    have hne : b.rateBytesPerSec ≠ 0 := hb ▸ hrate
    have hback' := hback.refill c.now
    -- from the call on the level is what is available
    have hnext : ∀ (b' : BandwidthThrottle), b'.rateBytesPerSec = rate → b'.lastRefill = c.now →
        ∀ c' ∈ calls.head?, (b'.refill c'.now).available ≤
          b'.available + rate * (asSecsF64 c'.now - asSecsF64 c.now) := by
      intro b' hrate' hlast c' hc'
      have hle : b'.lastRefill ≤ c'.now := hlast ▸ hlater c' (List.mem_of_mem_head? hc')
      have hrefill := BandwidthThrottle.refill_le hle
      rw [hrate', hlast] at hrefill
      exact hrefill
    have hlevel' := hlevel c rfl
    cases c with
    | request byteCount now =>
      unfold Disciplined BandwidthThrottle.request at hdisc
      rw [if_neg hne] at hdisc
      refine .idle Nat.cast_zero (BandwidthThrottle.refill_le_burst now) hlevel'
        (metered_of_disciplined hrate (b := b.refill now) hb hdisc ?_ hrest (hnext _ hb rfl))
      split_ifs with hgrant
      · refine List.forall_mem_cons.mpr ⟨⟨?_, ?_⟩, hback'⟩
        · exact of_decide_eq_true hgrant
        · exact (of_decide_eq_true hgrant).trans (BandwidthThrottle.refill_le_burst now)
      · exact hback'
    | consume byteCount now =>
      obtain ⟨hmem, hdisc⟩ := hdisc
      refine .take (Nat.cast_nonneg _) (hback' byteCount hmem).1
        (BandwidthThrottle.refill_le_burst now) hlevel' ?_
      have hconsume : b.consume byteCount now = { b.refill now with
          available := (b.refill now).available - byteCount
          totalConsumed := satAdd u64Max b.totalConsumed byteCount } := if_neg hne
      have hlater := metered_of_disciplined hrate (b := b.consume byteCount now) (hconsume ▸ hb)
        hdisc (List.forall_mem_nil _) hrest (hnext _ (hconsume ▸ hb) (hconsume ▸ rfl))
      rw [hconsume] at hlater
      exact hlater
    | available now =>
      exact .idle Nat.cast_zero (BandwidthThrottle.refill_le_burst now) hlevel'
        (metered_of_disciplined hrate (b := b.refill now) hb hdisc hback' hrest (hnext _ hb rfl))

theorem consumedIn_cons_of_mem {s t : ℕ} {c : Call} {calls : List Call} (h : s ≤ c.now ∧ c.now ≤ t) :
    consumedIn s t (c :: calls) = c.taken + consumedIn s t calls := by
  simp [consumedIn, h]

theorem consumedIn_cons_of_notMem {s t : ℕ} {c : Call} {calls : List Call}
    (h : ¬ (s ≤ c.now ∧ c.now ≤ t)) : consumedIn s t (c :: calls) = consumedIn s t calls := by
  simp [consumedIn, h]

theorem spent_events (s t : ℕ) : ∀ calls : List Call,
    spent (asSecsF64 s) (asSecsF64 t) (calls.map event) = consumedIn s t calls
  | [] => rfl
  | c :: calls => by
    have ih := spent_events s t calls
    rw [List.map_cons, event]
    by_cases hw : s ≤ c.now ∧ c.now ≤ t
    · rw [spent_cons_of_mem (asSecsF64_le_iff.mpr hw.1) (asSecsF64_le_iff.mpr hw.2), ih,
        consumedIn_cons_of_mem hw, Nat.cast_add]
    · rw [spent_cons_of_notMem, ih, consumedIn_cons_of_notMem hw]
      exact fun h => hw ⟨asSecsF64_le_iff.mp h.1, asSecsF64_le_iff.mp h.2⟩

end CncContent.Limits.Throttle
