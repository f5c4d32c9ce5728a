import CncContent.Lib.Maps
import CncContent.Limits.Throttle

/-! # Rate limiters

`TokenBucket` and `RateLimiterMap` of the source: a bucket of tokens for each key, made full when the
key is first used. Token counts are exact rational numbers, an instant is a number of nanoseconds. A
bucket that has not been refilled for the time in which an empty one fills up is full whenever it is
used again (`Replenished`), so that dropping it and making a new one later is not seen by the key
(`answers_eq`). With that, no key gets more than a full bucket and what the rate allows in any window
(`limiter_le`). -/

namespace CncContent.Limits.RateLimiter

open CncContent.Lib.Maps CncContent.Lib.TokenBucket CncContent.Limits.Throttle
open CncContent.Peers.Tracker (asSecsF64 durationSince)

structure TokenBucket where
  burst : ℕ
  refillRate : ℚ
  tokens : ℚ
  lastRefill : ℕ
deriving DecidableEq, Repr

namespace TokenBucket

def new (burst : ℕ) (refillRate : ℚ) (now : ℕ) : TokenBucket := ⟨burst, refillRate, burst, now⟩

variable (b : TokenBucket)

def refill (now : ℕ) : TokenBucket :=
  let newTokens := asSecsF64 (durationSince now b.lastRefill) * b.refillRate
  if 0 < newTokens then { b with tokens := min (b.tokens + newTokens) b.burst, lastRefill := now }
  else b

def tryConsume (now : ℕ) : Bool × TokenBucket :=
  let b' := b.refill now
  if 1 ≤ b'.tokens then (true, { b' with tokens := b'.tokens - 1 }) else (false, b')

end TokenBucket

structure RateLimiterMap (K : Type*) where
  buckets : Table K TokenBucket
  defaultBurst : ℕ
  defaultRefillRate : ℚ
deriving DecidableEq

variable {K : Type*} [DecidableEq K]

namespace RateLimiterMap

def new (defaultBurst : ℕ) (defaultRefillRate : ℚ) : RateLimiterMap K :=
  ⟨.empty, defaultBurst, defaultRefillRate⟩

variable (m : RateLimiterMap K)

/-- The bucket of the key, or a new one. -/
def bucketOf (key : K) (now : ℕ) : TokenBucket :=
  (m.buckets.get? key).getD (.new m.defaultBurst m.defaultRefillRate now)

def tryConsume (key : K) (now : ℕ) : Bool × RateLimiterMap K :=
  (((m.bucketOf key now).tryConsume now).1,
    { m with buckets := m.buckets.alter key fun _ => ((m.bucketOf key now).tryConsume now).2 })

def remove (key : K) : RateLimiterMap K := { m with buckets := m.buckets.erase key }

def evictStale (staleBefore : ℕ) : RateLimiterMap K :=
  { m with buckets := m.buckets.retain fun _ bucket => staleBefore ≤ bucket.lastRefill }

end RateLimiterMap

/-! ### Calls -/

/-- A call with the time at which it is made. -/
inductive Call (K : Type*)
  | tryConsume (key : K) (now : ℕ)
  | remove (key : K) (now : ℕ)
  | evictStale (staleBefore now : ℕ)
deriving DecidableEq, Repr

namespace Call

def now : Call K → ℕ
  | .tryConsume _ now | .remove _ now | .evictStale _ now => now

def IsRequest : Call K → Prop
  | .tryConsume _ _ => True
  | .remove _ _ | .evictStale _ _ => False

instance : DecidablePred (IsRequest (K := K))
  | .tryConsume _ _ => isTrue trivial
  | .remove _ _ | .evictStale _ _ => isFalse id

/-- No bucket is removed, and buckets are only dropped after the time in which they fill up. -/
def Late (burst : ℕ) (rate : ℚ) : Call K → Prop
  | .tryConsume _ _ => True
  | .remove _ _ => False
  | .evictStale staleBefore now => asSecsF64 staleBefore ≤ asSecsF64 now - burst / rate

instance (burst : ℕ) (rate : ℚ) : DecidablePred (Late (K := K) burst rate)
  | .tryConsume _ _ => isTrue trivial
  | .remove _ _ => isFalse id
  | .evictStale _ _ => inferInstanceAs (Decidable (_ ≤ _))

end Call

/-- The map after a call. -/
def apply (m : RateLimiterMap K) : Call K → RateLimiterMap K
  | .tryConsume key now => (m.tryConsume key now).2
  | .remove key _ => m.remove key
  | .evictStale staleBefore _ => m.evictStale staleBefore

def perform (m : RateLimiterMap K) (calls : List (Call K)) : RateLimiterMap K := calls.foldl apply m

/-- A request with its time and its answer. -/
abbrev Answer (K : Type*) := K × ℕ × Bool

/-- The requests and what they are answered. -/
def answers : RateLimiterMap K → List (Call K) → List (Answer K)
  | _, [] => []
  | m, .tryConsume key now :: calls =>
    (key, now, (m.tryConsume key now).1) :: answers (m.tryConsume key now).2 calls
  | m, .remove key _ :: calls => answers (m.remove key) calls
  | m, .evictStale staleBefore _ :: calls => answers (m.evictStale staleBefore) calls

/-- How often the key is allowed something from `s` to `t`. -/
def allowedIn (key : K) (s t : ℕ) (log : List (Answer K)) : ℕ :=
  (log.filter fun a => a.1 = key ∧ (s ≤ a.2.1 ∧ a.2.1 ≤ t) ∧ a.2.2 = true).length

/-! ### Buckets -/

/-- The bucket has the capacity and the rate of the map, and not more tokens than it holds. -/
structure Consistent (burst : ℕ) (rate : ℚ) (b : TokenBucket) : Prop where
  burstEq : b.burst = burst
  rateEq : b.refillRate = rate
  nonneg : 0 ≤ b.tokens
  le : b.tokens ≤ burst

/-- From now on the bucket is full when it is refilled. -/
def Replenished (burst : ℕ) (rate : ℚ) (b : TokenBucket) (now : ℕ) : Prop :=
  ∀ now' ≥ now, b.refill now' = .new burst rate now'

variable {burst : ℕ} {rate : ℚ} {b : TokenBucket}

theorem consistent_new (now : ℕ) : Consistent burst rate (.new burst rate now) :=
  ⟨rfl, rfl, Nat.cast_nonneg _, le_rfl⟩

theorem refill_new (now : ℕ) :
    (TokenBucket.new burst rate now).refill now = .new burst rate now := by
  have hzero : asSecsF64 (durationSince now now) = 0 := by
    rw [durationSince, Nat.sub_self, asSecsF64, Nat.cast_zero, zero_div]
  exact if_neg (by
    change ¬ 0 < asSecsF64 (durationSince now now) * rate
    rw [hzero, zero_mul]
    exact lt_irrefl 0)

theorem Consistent.refill (h : Consistent burst rate b) (now : ℕ) :
    Consistent burst rate (b.refill now) := by
  unfold TokenBucket.refill
  dsimp only
  split_ifs with hpos
  · have hnonneg := h.nonneg
    refine ⟨h.burstEq, h.rateEq, le_min (by linarith) (Nat.cast_nonneg _), ?_⟩
    exact (min_le_right _ _).trans (le_of_eq (congrArg _ h.burstEq))
  · exact h

theorem Consistent.tryConsume (h : Consistent burst rate b) (now : ℕ) :
    Consistent burst rate (b.tryConsume now).2 := by
  have hrefill := h.refill now
  unfold TokenBucket.tryConsume
  dsimp only
  split_ifs with htoken
  · refine ⟨hrefill.burstEq, hrefill.rateEq, ?_, ?_⟩
    · change 0 ≤ (b.refill now).tokens - 1
      linarith
    · change (b.refill now).tokens - 1 ≤ burst
      linarith [hrefill.le]
  · exact hrefill

/-- **A stale bucket** is full from now on. -/
theorem replenished_of_stale (h : Consistent burst rate b) (hrate : 0 < rate) {staleBefore now : ℕ}
    (hstale : b.lastRefill < staleBefore)
    (hlate : asSecsF64 staleBefore ≤ asSecsF64 now - burst / rate) :
    Replenished burst rate b now := by
  intro now' hnow
  have hlast : asSecsF64 b.lastRefill < asSecsF64 staleBefore :=
    lt_of_not_ge fun hle => Nat.not_le_of_lt hstale (asSecsF64_le_iff.mp hle)
  have hlater : asSecsF64 now ≤ asSecsF64 now' := asSecsF64_le_iff.mpr hnow
  have hfill : 0 ≤ (burst : ℚ) / rate := div_nonneg (Nat.cast_nonneg _) hrate.le
  have hle : b.lastRefill ≤ now' := asSecsF64_le_iff.mp (by linarith)
  have helapsed : (burst : ℚ) / rate < asSecsF64 (durationSince now' b.lastRefill) := by
    rw [durationSince, asSecsF64_sub hle]
    linarith
  have htokens : (burst : ℚ) < asSecsF64 (durationSince now' b.lastRefill) * rate :=
    (div_lt_iff₀ hrate).mp helapsed
  have hburst : (0 : ℚ) ≤ burst := Nat.cast_nonneg _
  obtain ⟨_, _, tokens, lastRefill⟩ := b
  obtain ⟨rfl, rfl, hnonneg, -⟩ := h
  have hpos := lt_of_le_of_lt hburst htokens
  unfold TokenBucket.refill
  rw [if_pos hpos, TokenBucket.new, TokenBucket.mk.injEq]
  refine ⟨rfl, rfl, min_eq_right ?_, rfl⟩
  dsimp only at hnonneg htokens ⊢
  linarith

theorem Replenished.mono {now now' : ℕ} (h : Replenished burst rate b now) (hle : now ≤ now') :
    Replenished burst rate b now' := fun now'' hnow => h now'' (hle.trans hnow)

/-- A full bucket serves as a new one does. -/
theorem Replenished.tryConsume_eq {now : ℕ} (h : Replenished burst rate b now) :
    b.tryConsume now = (TokenBucket.new burst rate now).tryConsume now := by
  unfold TokenBucket.tryConsume
  rw [h now le_rfl, refill_new]

theorem le_lastRefill_refill (h : Consistent burst rate b) (hrate : 0 < rate) (now : ℕ) :
    now ≤ (b.refill now).lastRefill := by
  unfold TokenBucket.refill
  dsimp only
  split_ifs with hpos
  · exact le_rfl
  · -- without new tokens the last refill is not in the past
    by_contra hlt
    refine hpos (mul_pos ?_ (h.rateEq ▸ hrate))
    have hsecs : asSecsF64 b.lastRefill < asSecsF64 now :=
      lt_of_not_ge fun hle => hlt (asSecsF64_le_iff.mp hle)
    rw [durationSince, asSecsF64_sub (Nat.le_of_not_le hlt)]
    linarith

/-- What is gained from one time to another. -/
theorem tokens_refill_le (h : Consistent burst rate b) (hrate : 0 < rate) {now now' : ℕ}
    (hlast : now ≤ b.lastRefill) (hnow : now ≤ now') :
    (b.refill now').tokens ≤ b.tokens + rate * (asSecsF64 now' - asSecsF64 now) := by
  have hgain : asSecsF64 (durationSince now' b.lastRefill) * b.refillRate ≤
      rate * (asSecsF64 now' - asSecsF64 now) := by
    rw [h.rateEq, mul_comm, ← asSecsF64_sub hnow]
    exact mul_le_mul_of_nonneg_left
      (asSecsF64_le_iff.mpr (Nat.sub_le_sub_left hlast now')) hrate.le
  unfold TokenBucket.refill
  dsimp only
  split_ifs with hpos
  · exact (min_le_left _ _).trans (by linarith)
  · have hlater := asSecsF64_le_iff.mpr hnow
    have hnonneg : 0 ≤ rate * (asSecsF64 now' - asSecsF64 now) :=
      mul_nonneg hrate.le (by linarith)
    linarith

/-- What a request takes. -/
theorem tokens_tryConsume (b : TokenBucket) (now : ℕ) : (b.tryConsume now).2.tokens =
    (b.refill now).tokens - if (b.tryConsume now).1 then 1 else 0 := by
  unfold TokenBucket.tryConsume
  by_cases htoken : 1 ≤ (b.refill now).tokens
  · simp [htoken]
  · simp [htoken]

theorem lastRefill_tryConsume (b : TokenBucket) (now : ℕ) :
    (b.tryConsume now).2.lastRefill = (b.refill now).lastRefill := by
  unfold TokenBucket.tryConsume
  dsimp only
  split_ifs <;> rfl

/-- A token is only taken if it is there. -/
theorem one_le_of_tryConsume {now : ℕ} (h : (b.tryConsume now).1 = true) :
    1 ≤ (b.refill now).tokens := by
  unfold TokenBucket.tryConsume at h
  dsimp only at h
  split_ifs at h with htoken
  exact htoken

/-! ### Maps -/

/-- All buckets are made alike. -/
structure WellFormed (burst : ℕ) (rate : ℚ) (m : RateLimiterMap K) : Prop where
  defaultBurst : m.defaultBurst = burst
  defaultRate : m.defaultRefillRate = rate
  buckets : ∀ k b, m.buckets.get? k = some b → Consistent burst rate b

/-- The second map has the buckets of the first, and those that the first has dropped are full from now
on. -/
def Follows (burst : ℕ) (rate : ℚ) (now : ℕ) (m n : RateLimiterMap K) : Prop :=
  ∀ k, m.buckets.get? k = n.buckets.get? k ∨
    m.buckets.get? k = none ∧ ∃ b, n.buckets.get? k = some b ∧ Replenished burst rate b now

section Maps

variable {m n : RateLimiterMap K}

theorem get?_tryConsume {key k : K} {now : ℕ} : (m.tryConsume key now).2.buckets.get? k =
    if k = key then some ((m.bucketOf key now).tryConsume now).2 else m.buckets.get? k :=
  Table.get?_alter

theorem bucketOf_tryConsume {key : K} {now now' : ℕ} :
    (m.tryConsume key now).2.bucketOf key now' = ((m.bucketOf key now).tryConsume now).2 := by
  rw [RateLimiterMap.bucketOf, get?_tryConsume, if_pos rfl, Option.getD_some]

theorem bucketOf_tryConsume_of_ne {key k : K} {now now' : ℕ} (h : k ≠ key) :
    (m.tryConsume key now).2.bucketOf k now' = m.bucketOf k now' := by
  rw [RateLimiterMap.bucketOf, get?_tryConsume, if_neg h]
  rfl

theorem WellFormed.bucketOf (hm : WellFormed burst rate m) (key : K) (now : ℕ) :
    Consistent burst rate (m.bucketOf key now) := by
  unfold RateLimiterMap.bucketOf
  rcases hb : m.buckets.get? key with _ | b
  · rw [hm.defaultBurst, hm.defaultRate]
    exact consistent_new now
  · exact hm.buckets key b hb

theorem wellFormed_new : WellFormed burst rate (.new burst rate : RateLimiterMap K) :=
  ⟨rfl, rfl, nofun⟩

theorem WellFormed.apply (hm : WellFormed burst rate m) (call : Call K) :
    WellFormed burst rate (apply m call) := by
  refine ⟨?_, ?_, fun k b hb => ?_⟩
  · cases call <;> exact hm.defaultBurst
  · cases call <;> exact hm.defaultRate
  · cases call with
    | tryConsume key now =>
      have hget := get?_tryConsume.symm.trans hb
      split_ifs at hget with hk
      · cases hget
        exact (hm.bucketOf key now).tryConsume now
      · exact hm.buckets k b hget
    | remove key now =>
      have hget := Table.get?_erase.symm.trans hb
      split_ifs at hget
      exact hm.buckets k b hget
    | evictStale staleBefore now =>
      have hget := Table.get?_retain.symm.trans hb
      exact hm.buckets k b (Option.filter_eq_some_iff.mp hget).1

theorem WellFormed.perform (hm : WellFormed burst rate m) (calls : List (Call K)) :
    WellFormed burst rate (perform m calls) := by
  induction calls generalizing m with
  | nil => exact hm
  | cons call calls ih => exact ih (hm.apply call)

/-- Both maps serve a key alike. -/
theorem Follows.serve_eq {now now' : ℕ} (hm : WellFormed burst rate m) (hn : WellFormed burst rate n)
    (h : Follows burst rate now m n) (hnow : now ≤ now') (key : K) :
    (m.bucketOf key now').tryConsume now' = (n.bucketOf key now').tryConsume now' := by
  unfold RateLimiterMap.bucketOf
  rw [hm.defaultBurst, hm.defaultRate, hn.defaultBurst, hn.defaultRate]
  rcases h key with heq | ⟨hnone, b, hb, hfull⟩
  · rw [heq]
  · rw [hnone, hb]
    exact (hfull.mono hnow).tryConsume_eq.symm

theorem Follows.mono {now now' : ℕ} (h : Follows burst rate now m n) (hnow : now ≤ now') :
    Follows burst rate now' m n := fun k =>
  (h k).imp_right fun ⟨hnone, b, hb, hfull⟩ => ⟨hnone, b, hb, hfull.mono hnow⟩

/-- A request leaves the key with the same bucket in both maps. -/
theorem Follows.tryConsume {now now' : ℕ} (hm : WellFormed burst rate m)
    (hn : WellFormed burst rate n) (h : Follows burst rate now m n) (hnow : now ≤ now') (key : K) :
    Follows burst rate now' (m.tryConsume key now').2 (n.tryConsume key now').2 := by
  intro k
  rw [get?_tryConsume, get?_tryConsume, h.serve_eq hm hn hnow key]
  split_ifs with hk
  · exact Or.inl rfl
  · exact h.mono hnow k

/-- **An eviction** drops only what is full from now on. -/
theorem Follows.evictStale {staleBefore now now' : ℕ} (hrate : 0 < rate)
    (hm : WellFormed burst rate m) (h : Follows burst rate now m n) (hnow : now ≤ now')
    (hlate : asSecsF64 staleBefore ≤ asSecsF64 now' - burst / rate) :
    Follows burst rate now' (m.evictStale staleBefore) n := by
  intro k
  have hget : (m.evictStale staleBefore).buckets.get? k =
      (m.buckets.get? k).filter fun b => staleBefore ≤ b.lastRefill := Table.get?_retain
  rw [hget]
  rcases hb : m.buckets.get? k with _ | b
  · have hk := h.mono hnow k
    rw [hb] at hk
    exact hk
  · rw [Option.filter_some]
    have heq : some b = n.buckets.get? k := by
      rcases h k with heq | ⟨hnone, -⟩
      · exact hb.symm.trans heq
      · cases hb.symm.trans hnone
    split_ifs with hkeep
    · exact Or.inl heq
    · have hstale := Nat.lt_of_not_le fun hle => hkeep (decide_eq_true hle)
      exact Or.inr ⟨rfl, b, heq.symm,
        replenished_of_stale (hm.buckets k b hb) hrate hstale hlate⟩

/-- **Evictions are not seen**: without them the answers are the same. -/
theorem answers_eq (hrate : 0 < rate) : ∀ {calls : List (Call K)} {m n : RateLimiterMap K} {now : ℕ},
    WellFormed burst rate m → WellFormed burst rate n → Follows burst rate now m n →
    (∀ c ∈ calls, c.Late burst rate) → (∀ c ∈ calls, now ≤ c.now) →
    (calls.Pairwise fun c c' => c.now ≤ c'.now) →
    answers m calls = answers n (calls.filter (·.IsRequest))
  | [], _, _, _, _, _, _, _, _, _ => rfl
  | c :: calls, m, n, now, hm, hn, h, hlate, hnow, htimes => by
    obtain ⟨hfirst, hlate'⟩ := List.forall_mem_cons.mp hlate
    obtain ⟨hnow', -⟩ := List.forall_mem_cons.mp hnow
    obtain ⟨hlater, htimes'⟩ := List.pairwise_cons.mp htimes
    cases c with
    | tryConsume key now' =>
      have ih := answers_eq hrate (hm.apply (.tryConsume key now'))
        (hn.apply (.tryConsume key now')) (h.tryConsume hm hn hnow' key) hlate' hlater htimes'
      have hserve := congrArg Prod.fst (h.serve_eq hm hn hnow' key)
      have hfilter : (Call.tryConsume key now' :: calls).filter (·.IsRequest) =
          .tryConsume key now' :: calls.filter (·.IsRequest) := rfl
      rw [hfilter, answers, answers]
      exact congrArg₂ List.cons (congrArg (fun b => (key, now', b)) hserve) ih
    | remove => exact absurd hfirst id
    | evictStale staleBefore now' =>
      have ih := answers_eq hrate (hm.apply (.evictStale staleBefore now')) hn
        (h.evictStale hrate hm hnow' hfirst) hlate' hlater htimes'
      exact ih

/-! ### Windows -/

/-- The answer as an event of the key's bucket. -/
def event (a : Answer K) : ℚ × ℚ := (asSecsF64 a.2.1, if a.2.2 then 1 else 0)

omit [DecidableEq K] in
/-- One answer. -/
theorem metered_cons {level u : ℚ} {es : List (ℚ × ℚ)} (hb : Consistent burst rate b) (key : K)
    {now : ℕ} (hlevel : (b.refill now).tokens ≤ level + rate * (asSecsF64 now - u))
    (h : Metered rate burst (b.tryConsume now).2.tokens (asSecsF64 now) es) :
    Metered rate burst level u (event (key, now, (b.tryConsume now).1) :: es) := by
  rw [tokens_tryConsume] at h
  rcases hallowed : (b.tryConsume now).1 with _ | _ <;> rw [hallowed] at h
  · exact .idle rfl (hb.refill now).le hlevel (sub_zero (b.refill now).tokens ▸ h)
  · exact .take zero_le_one (one_le_of_tryConsume hallowed) (hb.refill now).le hlevel h

/-- **The answers to a key** are the events of a bucket: the level is the number of tokens after the
last answer. -/
theorem metered_answers (hrate : 0 < rate) (key : K) : ∀ {calls : List (Call K)}
    {n : RateLimiterMap K} {level u : ℚ}, WellFormed burst rate n → (∀ c ∈ calls, c.IsRequest) →
    (calls.Pairwise fun c c' => c.now ≤ c'.now) →
    (∀ c ∈ calls, ((n.bucketOf key c.now).refill c.now).tokens ≤
      level + rate * (asSecsF64 c.now - u)) →
    Metered rate burst level u (((answers n calls).filter (·.1 = key)).map event)
  | [], _, _, _, _, _, _, _ => trivial
  | c :: calls, n, level, u, hn, hrequests, htimes, hlevel => by
    obtain ⟨hrequest, hrequests'⟩ := List.forall_mem_cons.mp hrequests
    obtain ⟨hlater, htimes'⟩ := List.pairwise_cons.mp htimes
    obtain ⟨hfirst, hlevel'⟩ := List.forall_mem_cons.mp hlevel
    cases c with
    | remove | evictStale => exact absurd hrequest id
    | tryConsume k now =>
      have hn' := hn.apply (.tryConsume k now)
      rw [answers]
      by_cases hk : k = key
      · subst hk
        have hbucket := hn.bucketOf k now
        have hkeep : (((k, now, (n.tryConsume k now).1) :: answers (n.tryConsume k now).2 calls).filter
            (·.1 = k)) = (k, now, (n.tryConsume k now).1) ::
              (answers (n.tryConsume k now).2 calls).filter (·.1 = k) :=
          List.filter_cons_of_pos (decide_eq_true rfl)
        rw [hkeep, List.map_cons]
        refine metered_cons hbucket k hfirst ?_
        refine metered_answers hrate k hn' hrequests' htimes' fun c hc => ?_
        rw [bucketOf_tryConsume]
        refine tokens_refill_le (hbucket.tryConsume now) hrate ?_ (hlater c hc)
        rw [lastRefill_tryConsume]
        exact le_lastRefill_refill hbucket hrate now
      · have hdrop : (((k, now, (n.tryConsume k now).1) :: answers (n.tryConsume k now).2 calls).filter
            (·.1 = key)) = (answers (n.tryConsume k now).2 calls).filter (·.1 = key) :=
          List.filter_cons_of_neg fun hd => hk (of_decide_eq_true hd)
        rw [hdrop]
        refine metered_answers hrate key hn' hrequests' htimes' fun c hc => ?_
        rw [bucketOf_tryConsume_of_ne (Ne.symm hk)]
        exact hlevel' c hc

theorem allowedIn_cons {key : K} {s t : ℕ} {a : Answer K} {log : List (Answer K)} :
    allowedIn key s t (a :: log) =
      (if a.1 = key ∧ (s ≤ a.2.1 ∧ a.2.1 ≤ t) ∧ a.2.2 = true then 1 else 0) +
        allowedIn key s t log := by
  unfold allowedIn
  rw [List.filter_cons]
  by_cases h : a.1 = key ∧ (s ≤ a.2.1 ∧ a.2.1 ≤ t) ∧ a.2.2 = true
  · rw [if_pos (decide_eq_true h), if_pos h, List.length_cons, Nat.add_comm]
  · rw [if_neg fun hd => h (of_decide_eq_true hd), if_neg h, Nat.zero_add]

theorem spent_events (key : K) (s t : ℕ) : ∀ log : List (Answer K),
    spent (asSecsF64 s) (asSecsF64 t) ((log.filter (·.1 = key)).map event) = allowedIn key s t log
  | [] => rfl
  | (k, now, allowed) :: log => by
    have ih := spent_events key s t log
    rw [allowedIn_cons, List.filter_cons]
    by_cases hk : k = key
    · rw [if_pos (decide_eq_true hk), List.map_cons, event]
      by_cases hw : s ≤ now ∧ now ≤ t
      · rw [spent_cons_of_mem (asSecsF64_le_iff.mpr hw.1) (asSecsF64_le_iff.mpr hw.2), ih]
        cases allowed <;> simp [hk, hw]
      · rw [spent_cons_of_notMem, ih, if_neg fun h => hw h.2.1, Nat.zero_add]
        exact fun h => hw ⟨asSecsF64_le_iff.mp h.1, asSecsF64_le_iff.mp h.2⟩
    · rw [if_neg fun hd => hk (of_decide_eq_true hd), ih, if_neg fun h => hk h.1, Nat.zero_add]

/-- **No key gets more than its share**, and evictions are not seen: whatever has happened to the map
before, in every window of a run in which buckets are dropped only after the time in which they fill
up a key is allowed at most one full bucket and what the rate allows; and the answers are those of the
run without evictions. -/
theorem limiter_le (burst : ℕ) {rate : ℚ} (hrate : 0 < rate) (history : List (Call K))
    {calls : List (Call K)} (hlate : ∀ c ∈ calls, c.Late burst rate)
    (htimes : calls.Pairwise fun c c' => c.now ≤ c'.now) (key : K) {s t : ℕ} (hst : s ≤ t) :
    let m := perform (.new burst rate) history
    (allowedIn key s t (answers m calls) : ℚ) ≤ burst + rate * asSecsF64 (t - s) ∧
      answers m calls = answers m (calls.filter (·.IsRequest)) := by
  intro m
  have hm : WellFormed burst rate m := wellFormed_new.perform history
  have heq : answers m calls = answers m (calls.filter (·.IsRequest)) :=
    answers_eq hrate hm hm (fun _ => Or.inl rfl) hlate (fun _ _ => Nat.zero_le _) htimes
  refine ⟨?_, heq⟩
  have hmetered : Metered rate burst burst 0
      (((answers m (calls.filter (·.IsRequest))).filter (·.1 = key)).map event) := by
    refine metered_answers hrate key hm (fun c hc => of_decide_eq_true (List.mem_filter.mp hc).2)
      (htimes.filter _) fun c _ => ?_
    have hgain : 0 ≤ rate * (asSecsF64 c.now - 0) :=
      mul_nonneg hrate.le (by linarith [asSecsF64_nonneg c.now])
    linarith [((hm.bucketOf key c.now).refill c.now).le]
  rw [heq, ← spent_events, asSecsF64_sub hst]
  exact hmetered.spent_le hrate.le (Nat.cast_nonneg _) (asSecsF64_le_iff.mpr hst)

end Maps

theorem limiter_le_after_eviction :
    let m : RateLimiterMap ℕ := perform (.new 2 1) []
    let calls : List (Call ℕ) := [.tryConsume 7 0, .tryConsume 7 0, .tryConsume 7 0,
      .evictStale 1 (3 * 10 ^ 9), .tryConsume 7 (3 * 10 ^ 9)]
    (allowedIn 7 0 (3 * 10 ^ 9) (answers m calls) : ℚ) ≤ (2 : ℕ) + 1 * asSecsF64 (3 * 10 ^ 9 - 0) ∧
      answers m calls = answers m (calls.filter (·.IsRequest)) :=
  limiter_le 2 one_pos [] (by decide +kernel) (by decide +kernel) 7 (by decide +kernel)

end CncContent.Limits.RateLimiter
