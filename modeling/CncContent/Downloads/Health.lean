import CncContent.Lib.Bounded
import CncContent.Lib.Bytes
import CncContent.Lib.Maps
import CncContent.Lib.Ranking
import Mathlib.Data.List.Induction
import Mathlib.Data.NNRat.Floor

/-! # Health of download mirrors

`MirrorHealth` and `MirrorHealthTracker` of the source: what is known of a mirror from the attempts to
use it, and the order in which mirrors are tried. A mirror that fails is in cool-off for a time that
doubles with each failure in a row (`isCoolingOff_iff`). The mirrors are ordered by a whole number, which
is zero in cool-off but also for mirrors that are out of it and have hardly ever been of use. Ties are
left as they are, so that mirrors in cool-off come last exactly if none of them is listed before such a
mirror (`rankedWell_iff`). An instant is a number of nanoseconds, a speed a rational number. -/

namespace CncContent.Downloads.Health

open CncContent.Lib.Bounded CncContent.Lib.Bytes CncContent.Lib.Maps CncContent.Lib.Ranking

/-- In seconds. -/
def baseCooloff : ℕ := 300

/-- In seconds. -/
def maxCooloff : ℕ := 3600

structure MirrorHealth where
  successCount : ℕ
  failureCount : ℕ
  consecutiveFailures : ℕ
  avgSpeedBps : ℚ≥0
  lastSuccess : Option ℕ
  lastFailure : Option ℕ
  cooloffUntil : Option ℕ
deriving DecidableEq

/-- How an attempt ends. -/
inductive Outcome
  | success (speedBps : ℚ≥0)
  | failure
deriving DecidableEq

/-- A call of `record_success` or `record_failure`. -/
structure Attempt where
  url : List UInt8
  outcome : Outcome
  now : ℕ
deriving DecidableEq

variable (latest : ℕ)

namespace MirrorHealth

def new : MirrorHealth := ⟨0, 0, 0, 0, none, none, none⟩

def recordSuccess (h : MirrorHealth) (speedBps : ℚ≥0) (now : ℕ) : MirrorHealth :=
  { h with
    successCount := satAdd u32Max h.successCount 1
    consecutiveFailures := 0
    cooloffUntil := none
    lastSuccess := some now
    avgSpeedBps :=
      if h.avgSpeedBps = 0 then speedBps else 3 / 10 * speedBps + 7 / 10 * h.avgSpeedBps }

/-- `latest` is the latest instant there is. -/
def recordFailure (h : MirrorHealth) (now : ℕ) : MirrorHealth :=
  let consecutiveFailures := satAdd u32Max h.consecutiveFailures 1
  let exponent := min (consecutiveFailures - 1) 6
  let cooloffSecs := min (satMul u64Max baseCooloff (2 ^ exponent)) maxCooloff
  { h with
    failureCount := satAdd u32Max h.failureCount 1
    consecutiveFailures
    lastFailure := some now
    cooloffUntil := checkedAdd latest now (cooloffSecs * 10 ^ 9) }

def record (h : MirrorHealth) (a : Attempt) : MirrorHealth :=
  match a.outcome with
  | .success speedBps => h.recordSuccess speedBps a.now
  | .failure => h.recordFailure latest a.now

variable (h : MirrorHealth) (now : ℕ)

def isCoolingOff : Bool :=
  match h.cooloffUntil with
  | some t => now < t
  | none => false

def successRate : ℚ≥0 :=
  let total := satAdd u32Max h.successCount h.failureCount
  if 0 < total then h.successCount / total else 1 / 2

/-- The score before it is cut to a whole number. -/
def rawScore : ℚ≥0 := h.successRate * 500 + min (h.avgSpeedBps / 100000000) 1 * 500

def healthScore : ℕ := if h.isCoolingOff now then 0 else ⌊h.rawScore⌋₊

end MirrorHealth

/-! ### The tracker -/

abbrev MirrorHealthTracker := Table (List UInt8) MirrorHealth

namespace MirrorHealthTracker

/-- The entry of the mirror is made if there is none. -/
def record (t : MirrorHealthTracker) (a : Attempt) : MirrorHealthTracker :=
  t.alter a.url fun h => (h.getD .new).record latest a

/-- The tracker after the calls. -/
def after (history : List Attempt) : MirrorHealthTracker :=
  history.foldl (record latest) Table.empty

variable (t : MirrorHealthTracker) (urls : List (List UInt8)) (now : ℕ)

def isCoolingOff (url : List UInt8) : Bool :=
  match t.get? url with
  | some h => h.isCoolingOff now
  | none => false

def score (url : List UInt8) : ℕ :=
  match t.get? url with
  | some h => h.healthScore now
  | none => 250

/-- `sort_by_key` is stable. -/
def rankedUrls : List (List UInt8) :=
  let scored := urls.map fun url => (url, t.score now url)
  (scored.insertionSort fun a b => b.2 ≤ a.2).map Prod.fst

def filterAvailable : List (List UInt8) := urls.filter fun url => !t.isCoolingOff now url

end MirrorHealthTracker

/-! ### Histories -/

/-- The attempts to use a mirror. -/
def attempts (history : List Attempt) (url : List UInt8) : List Attempt :=
  history.filter fun a => a.url = url

def Attempt.failed (a : Attempt) : Bool := a.outcome = .failure

/-- The failures since the last success. -/
def failuresInARow (l : List Attempt) : ℕ := (l.reverse.takeWhile Attempt.failed).length

/-- How long a mirror is not used after `n` failures in a row. -/
def cooloff (n : ℕ) : ℕ := min (baseCooloff * 2 ^ (n - 1)) maxCooloff * 10 ^ 9

/-- The last attempt has failed, and the time for it is not over. The time has an end only if that is an
instant. -/
def InCoolOff (l : List Attempt) (now : ℕ) : Prop :=
  ∃ a ∈ l.getLast?, a.failed = true ∧ a.now + cooloff (failuresInARow l) ≤ latest ∧
    now < a.now + cooloff (failuresInARow l)

instance (l : List Attempt) (now : ℕ) : Decidable (InCoolOff latest l now) :=
  decidable_of_iff ((l.getLast?.any fun a => a.failed && decide (
    a.now + cooloff (failuresInARow l) ≤ latest ∧ now < a.now + cooloff (failuresInARow l))) = true)
      (by unfold InCoolOff; cases l.getLast? <;> simp)

/-- There were attempts, and none has failed. -/
def AlwaysSucceeded (l : List Attempt) : Prop := l ≠ [] ∧ ∀ a ∈ l, a.failed = false

section Histories

variable {latest : ℕ} {history l : List Attempt} {url : List UInt8} {now : ℕ}

theorem get?_foldl : ∀ (history : List Attempt) (t : MirrorHealthTracker),
    Table.get? (history.foldl (MirrorHealthTracker.record latest) t) url =
      (attempts history url).foldl (fun h a => some ((h.getD .new).record latest a)) (t.get? url)
  | [], t => rfl
  | a :: history, t => by
    rw [List.foldl_cons, get?_foldl history, MirrorHealthTracker.record, Table.get?_alter]
    by_cases ha : a.url = url
    · have hcons : attempts (a :: history) url = a :: attempts history url :=
        List.filter_cons_of_pos (decide_eq_true ha)
      rw [hcons, List.foldl_cons, if_pos ha.symm, ha]
    · have hcons : attempts (a :: history) url = attempts history url :=
        List.filter_cons_of_neg (fun h => ha (of_decide_eq_true h))
      rw [hcons, if_neg fun h => ha h.symm]

/-- **The entry of a mirror** is made of the attempts to use it. -/
theorem get?_after : (MirrorHealthTracker.after latest history).get? url =
    if attempts history url = [] then none
    else some ((attempts history url).foldl (MirrorHealth.record latest) .new) := by
  have hsome : ∀ (l : List Attempt) (h : MirrorHealth),
      l.foldl (fun h a => some ((h.getD .new).record latest a)) (some h) =
        some (l.foldl (MirrorHealth.record latest) h) := by
    intro l
    induction l with
    | nil => exact fun h => rfl
    | cons a l ih => exact fun h => ih (h.record latest a)
  rw [MirrorHealthTracker.after, get?_foldl]
  cases hl : attempts history url with
  | nil => rfl
  | cons a l =>
    rw [if_neg (List.cons_ne_nil a l)]
    exact hsome l (MirrorHealth.new.record latest a)

theorem failuresInARow_append {a : Attempt} :
    failuresInARow (l ++ [a]) = if a.failed then failuresInARow l + 1 else 0 := by
  unfold failuresInARow
  rw [List.reverse_append, List.reverse_singleton, List.singleton_append, List.takeWhile_cons]
  split_ifs <;> rfl

theorem consecutiveFailures_eq : (l.foldl (MirrorHealth.record latest) .new).consecutiveFailures =
    min (failuresInARow l) u32Max := by
  induction l using List.reverseRecOn with
  | nil => rfl
  | append_singleton l a ih =>
    rw [List.foldl_append, List.foldl_cons, List.foldl_nil, failuresInARow_append]
    cases houtcome : a.outcome with
    | success speed => simp [MirrorHealth.record, Attempt.failed, houtcome, MirrorHealth.recordSuccess]
    | failure =>
      simp only [MirrorHealth.record, Attempt.failed, houtcome, MirrorHealth.recordFailure, ih,
        decide_true, if_true]
      exact satAdd_min _ _ _

theorem record_of_failure {h : MirrorHealth} {a : Attempt} (ha : a.outcome = .failure) :
    h.record latest a = h.recordFailure latest a.now := by
  rw [MirrorHealth.record, ha]

theorem record_of_success {h : MirrorHealth} {a : Attempt} {speed : ℚ≥0} (ha : a.outcome = .success speed) :
    h.record latest a = h.recordSuccess speed a.now := by
  rw [MirrorHealth.record, ha]

/-- The exponent is cut where the longest time is reached. -/
theorem cooloffSecs_eq (n : ℕ) :
    min (satMul u64Max baseCooloff (2 ^ min (min n u32Max - 1) 6)) maxCooloff =
      min (baseCooloff * 2 ^ (n - 1)) maxCooloff := by
  rcases Nat.lt_or_ge (n - 1) 6 with hsmall | hlarge
  · have hexp : min (min n u32Max - 1) 6 = n - 1 := by
      have hu32 : u32Max = 4294967295 := rfl
      omega
    have hpow : 2 ^ (n - 1) ≤ 2 ^ 6 := Nat.pow_le_pow_right (by decide) hsmall.le
    have hu64 : baseCooloff * 2 ^ (n - 1) ≤ u64Max :=
      le_trans (Nat.mul_le_mul_left baseCooloff hpow) (by decide)
    rw [hexp, satMul, Nat.min_eq_left hu64]
  · have hexp : min (min n u32Max - 1) 6 = 6 := by
      have hu32 : u32Max = 4294967295 := rfl
      omega
    have hpow : 2 ^ 6 ≤ 2 ^ (n - 1) := Nat.pow_le_pow_right (by decide) hlarge
    have hmax : maxCooloff ≤ baseCooloff * 2 ^ (n - 1) :=
      le_trans (by decide) (Nat.mul_le_mul_left baseCooloff hpow)
    rw [hexp, Nat.min_eq_right hmax]
    decide

/-- **A mirror is in cool-off** for a time that follows from the failures in a row. -/
theorem isCoolingOff_iff : (l.foldl (MirrorHealth.record latest) .new).isCoolingOff now = true ↔
    InCoolOff latest l now := by
  induction l using List.reverseRecOn with
  | nil => exact iff_of_false Bool.false_ne_true (by rintro ⟨a, ha, -⟩; cases ha)
  | append_singleton l a _ =>
    have hlast : (l ++ [a]).getLast? = some a := List.getLast?_concat
    unfold InCoolOff
    rw [hlast, List.foldl_append, List.foldl_cons, List.foldl_nil, failuresInARow_append]
    cases houtcome : a.outcome with
    | success speed =>
      simp [MirrorHealth.record, houtcome, MirrorHealth.recordSuccess, MirrorHealth.isCoolingOff,
        Attempt.failed]
    | failure =>
      have hfailed : a.failed = true := decide_eq_true houtcome
      have huntil : ((l.foldl (MirrorHealth.record latest) .new).record latest a).cooloffUntil =
          checkedAdd latest a.now (cooloff (failuresInARow l + 1)) := by
        rw [record_of_failure houtcome, cooloff, ← cooloffSecs_eq, ← satAdd_min, ← consecutiveFailures_eq]
        unfold MirrorHealth.recordFailure
        dsimp only
      unfold MirrorHealth.isCoolingOff
      rw [huntil, checkedAdd]
      split_ifs with hend
      · simp [hfailed, hend]
      · simp [hfailed, hend]

theorem isCoolingOff_after :
    (MirrorHealthTracker.after latest history).isCoolingOff now url = true ↔
      InCoolOff latest (attempts history url) now := by
  unfold MirrorHealthTracker.isCoolingOff
  rw [get?_after]
  split_ifs with hnone
  · rw [hnone]
    exact iff_of_false id (by rintro ⟨a, ha, -⟩; cases ha)
  · exact isCoolingOff_iff

/-! ### Scores -/

/-- Mirrors that have always succeeded. -/
theorem foldl_of_succeeded (h : ∀ a ∈ l, a.failed = false) :
    (l.foldl (MirrorHealth.record latest) .new).failureCount = 0 ∧
      (l.foldl (MirrorHealth.record latest) .new).cooloffUntil = none ∧
      (l ≠ [] → 1 ≤ (l.foldl (MirrorHealth.record latest) .new).successCount) := by
  induction l using List.reverseRecOn with
  | nil => exact ⟨rfl, rfl, fun hne => absurd rfl hne⟩
  | append_singleton l a ih =>
    rw [List.forall_mem_append, List.forall_mem_singleton] at h
    obtain ⟨hfailures, -, -⟩ := ih h.1
    rw [List.foldl_append, List.foldl_cons, List.foldl_nil]
    cases houtcome : a.outcome with
    | failure => exact absurd h.2 (by simp [Attempt.failed, houtcome])
    | success speed =>
      rw [record_of_success houtcome]
      refine ⟨hfailures, rfl, fun _ => ?_⟩
      exact le_min (Nat.le_add_left 1 _) (by decide)

theorem rawScore_of_succeeded {h : MirrorHealth} (hsuccess : 1 ≤ h.successCount)
    (hfailure : h.failureCount = 0) : 500 ≤ h.rawScore := by
  have htotal : satAdd u32Max h.successCount h.failureCount = min h.successCount u32Max := by
    rw [hfailure, satAdd, Nat.add_zero]
  have hpos : 0 < min h.successCount u32Max := lt_min hsuccess (by decide)
  have hrate : 1 ≤ h.successRate := by
    unfold MirrorHealth.successRate
    rw [htotal]
    show (1 : ℚ≥0) ≤ if 0 < min h.successCount u32Max then _ else _
    rw [if_pos hpos, one_le_div (Nat.cast_pos.mpr hpos)]
    exact Nat.cast_le.mpr (Nat.min_le_left _ _)
  calc (500 : ℚ≥0) = 1 * 500 := (one_mul _).symm
    _ ≤ h.successRate * 500 := mul_le_mul_left hrate 500
    _ ≤ h.rawScore := le_self_add

theorem score_of_untried (h : attempts history url = []) :
    (MirrorHealthTracker.after latest history).score now url = 250 := by
  unfold MirrorHealthTracker.score
  rw [get?_after, if_pos h]

theorem score_of_succeeded (h : AlwaysSucceeded (attempts history url)) :
    500 ≤ (MirrorHealthTracker.after latest history).score now url := by
  obtain ⟨hfailure, hcooloff, hsuccess⟩ := @foldl_of_succeeded latest _ h.2
  unfold MirrorHealthTracker.score
  rw [get?_after, if_neg h.1]
  have hout : ((attempts history url).foldl (MirrorHealth.record latest) .new).isCoolingOff now = false := by
    rw [MirrorHealth.isCoolingOff, hcooloff]
  show 500 ≤ MirrorHealth.healthScore _ now
  rw [MirrorHealth.healthScore, hout]
  exact Nat.le_floor (rawScore_of_succeeded (hsuccess h.1) hfailure)

theorem score_of_inCoolOff (h : InCoolOff latest (attempts history url) now) :
    (MirrorHealthTracker.after latest history).score now url = 0 := by
  have hcooling := isCoolingOff_after.mpr h
  unfold MirrorHealthTracker.isCoolingOff at hcooling
  unfold MirrorHealthTracker.score
  split at hcooling
  · exact if_pos hcooling
  · cases hcooling

/-- The score is zero out of cool-off. -/
theorem score_eq_zero_iff (h : ¬ InCoolOff latest (attempts history url) now) :
    (MirrorHealthTracker.after latest history).score now url = 0 ↔
      ∃ m, (MirrorHealthTracker.after latest history).get? url = some m ∧ m.rawScore < 1 := by
  rw [← isCoolingOff_after] at h
  unfold MirrorHealthTracker.isCoolingOff at h
  unfold MirrorHealthTracker.score
  cases hentry : (MirrorHealthTracker.after latest history).get? url with
  | none =>
    have hne : 250 ≠ 0 := by decide
    exact iff_of_false hne (by rintro ⟨m, hm, -⟩; cases hm)
  | some m =>
    rw [hentry] at h
    show m.healthScore now = 0 ↔ _
    rw [MirrorHealth.healthScore, if_neg h, Nat.floor_eq_zero]
    exact ⟨fun hlt => ⟨m, rfl, hlt⟩, fun ⟨_, hm, hlt⟩ => by cases hm; exact hlt⟩

/-! ### The order -/

/-- What is expected of the order and of the filter. -/
structure RankedWell (latest : ℕ) (history : List Attempt) (urls : List (List UInt8)) (now : ℕ) : Prop where
  perm : ((MirrorHealthTracker.after latest history).rankedUrls urls now).Perm urls
  coolOffLast : ((MirrorHealthTracker.after latest history).rankedUrls urls now).Pairwise fun u v =>
    InCoolOff latest (attempts history u) now → InCoolOff latest (attempts history v) now
  untriedLater : ((MirrorHealthTracker.after latest history).rankedUrls urls now).Pairwise fun u v =>
    attempts history u = [] → ¬ AlwaysSucceeded (attempts history v)
  available : (MirrorHealthTracker.after latest history).filterAvailable urls now =
    urls.filter fun u => ¬ InCoolOff latest (attempts history u) now

theorem rankedUrls_eq (t : MirrorHealthTracker) (urls : List (List UInt8)) :
    t.rankedUrls urls now = urls.insertionSort fun u v => t.score now v ≤ t.score now u := by
  unfold MirrorHealthTracker.rankedUrls
  dsimp only
  rw [← List.map_insertionSort (r := fun u v => t.score now v ≤ t.score now u), List.map_map]
  · exact List.map_id _
  · exact fun _ _ _ _ => Iff.rfl

instance (t : MirrorHealthTracker) (now : ℕ) :
    Std.Total fun u v : List UInt8 => t.score now v ≤ t.score now u := ⟨fun _ _ => le_total _ _⟩

instance (t : MirrorHealthTracker) (now : ℕ) :
    IsTrans (List UInt8) fun u v => t.score now v ≤ t.score now u := ⟨fun _ _ _ h h' => h'.trans h⟩

theorem available_eq (urls : List (List UInt8)) :
    (MirrorHealthTracker.after latest history).filterAvailable urls now =
      urls.filter fun u => ¬ InCoolOff latest (attempts history u) now := by
  refine List.filter_congr fun u _ => ?_
  by_cases h : InCoolOff latest (attempts history u) now
  · rw [isCoolingOff_after.mpr h, decide_eq_false (not_not.mpr h)]
    rfl
  · rw [Bool.eq_false_iff.mpr (mt isCoolingOff_after.mp h), decide_eq_true h]
    rfl

/-- **The order of mirrors**: those in cool-off come last exactly if none of them is listed before one
that is not in cool-off and has a score below one. All else holds of every list. -/
theorem rankedWell_iff (latest : ℕ) (history : List Attempt) (urls : List (List UInt8)) (now : ℕ) :
    RankedWell latest history urls now ↔ ∀ u v, [u, v].Sublist urls →
      InCoolOff latest (attempts history u) now → ¬ InCoolOff latest (attempts history v) now →
        ∀ m, (MirrorHealthTracker.after latest history).get? v = some m → 1 ≤ m.rawScore := by
  have hlast := pairwise_last_iff (l := urls)
    (r := fun u v => (MirrorHealthTracker.after latest history).score now v ≤
      (MirrorHealthTracker.after latest history).score now u)
    (p := fun u => InCoolOff latest (attempts history u) now)
    (fun u v hu _ => (score_of_inCoolOff hu).trans_le (Nat.zero_le _))
  have hcond : (∀ u v, [u, v].Sublist urls →
      InCoolOff latest (attempts history u) now → ¬ InCoolOff latest (attempts history v) now →
        ¬ (MirrorHealthTracker.after latest history).score now v ≤
          (MirrorHealthTracker.after latest history).score now u) ↔
      ∀ u v, [u, v].Sublist urls →
        InCoolOff latest (attempts history u) now → ¬ InCoolOff latest (attempts history v) now →
          ∀ m, (MirrorHealthTracker.after latest history).get? v = some m → 1 ≤ m.rawScore := by
    refine forall₂_congr fun u v => forall_congr' fun _ => forall_congr' fun hu => forall_congr' fun hv => ?_
    rw [score_of_inCoolOff hu, Nat.le_zero, score_eq_zero_iff hv]
    push Not
    exact Iff.rfl
  rw [← hcond, ← hlast, ← rankedUrls_eq]
  refine ⟨fun h => h.coolOffLast, fun h => ⟨?_, h, ?_, available_eq urls⟩⟩
  · rw [rankedUrls_eq]
    exact List.perm_insertionSort _ urls
  · rw [rankedUrls_eq]
    refine (List.pairwise_insertionSort _ urls).imp fun {u v} hle hu hv => ?_
    have hgood := (@score_of_succeeded latest history v now hv).trans hle
    rw [score_of_untried hu] at hgood
    exact absurd hgood (by decide)

/-- One mirror has failed long ago, another one just now. -/
def twoFailures : List Attempt :=
  [⟨text "https://a.example/f", .failure, 0⟩, ⟨text "https://b.example/f", .failure, 400 * 10 ^ 9⟩]

/-- The mirror in cool-off stays first. -/
theorem not_rankedWell : ¬ RankedWell (10 ^ 27) twoFailures
    [text "https://b.example/f", text "https://a.example/f"] (401 * 10 ^ 9) := by
  intro h
  have hranked : (MirrorHealthTracker.after (10 ^ 27) twoFailures).rankedUrls
      [text "https://b.example/f", text "https://a.example/f"] (401 * 10 ^ 9) =
        [text "https://b.example/f", text "https://a.example/f"] := by decide +kernel
  have hpair := h.coolOffLast
  rw [hranked, List.pairwise_pair] at hpair
  exact absurd (hpair (by decide +kernel)) (by decide +kernel)

end Histories

end CncContent.Downloads.Health
