import CncContent.Downloads.SegmentedSpec
import CncContent.Lib.Shares

/-! # The progress that a segmented download reports

The threads of `segmented_download` count the bytes they have written in one shared counter,
`total_downloaded`, and `on_bytes` gets it when they have been joined. What a failed attempt has counted stays
counted when another mirror takes the segment over, which it does from the start. So the counter is the sum of
what the last attempts have written and of what the attempts before them had (`Accounted`), and the reports of
a download that succeeds are the size of the file together with the latter (`reports_of_success`). They are
right if no failed attempt that is followed by another one had counted a byte (`reports_faithful`). -/

namespace CncContent.Downloads.Progress

open CncContent.Lib.Bounded CncContent.Lib.Bytes CncContent.Lib.Runs CncContent.Lib.Shares
open CncContent.Downloads.Segmented CncContent.Downloads.SegmentedSpec

/-! ### The counter -/

/-- The download with `total_downloaded` and the calls of `on_bytes`. Of each thread, `attempts` has the
bytes that its present or last attempt has counted; `overtaken` are those of the attempts before. -/
structure Tracked where
  download : Download
  totalDownloaded : ℕ
  attempts : List ℕ
  overtaken : ℕ
  reports : List (ℕ × Option ℕ)

/-- The bytes that a step of the thread adds to the counter. -/
def fetched (w : Worker) : Event → ℕ
  | .wrote none =>
    match w.phase with
    | .write chunk _ _ _ => chunk.length
    | _ => 0
  | _ => 0

/-- The thread turns to the next mirror. -/
def fallsBack (failed : Bool) (w : Worker) : Event → Bool
  | .looked =>
    match w.phase with
    | .failed _ => !w.fallbackUrls.isEmpty && !failed
    | _ => false
  | _ => false

namespace Tracked

def begin (urls : List (List UInt8)) (fileSize : ℕ) : Tracked := ⟨.begin urls fileSize, 0, [], 0, []⟩

variable (s : Tracked)

/-- The bytes counted by an attempt that another mirror takes over in this step. -/
def overtakes : Action → ℕ
  | .thread i event =>
    match s.download.workers[i]?, s.attempts[i]? with
    | some w, some written => if fallsBack s.download.failed w event then written else 0
    | _, _ => 0
  | _ => 0

def onThread (i : ℕ) (event : Event) : Tracked :=
  match s.download.workers[i]?, s.attempts[i]? with
  | some w, some written =>
    { s with
      totalDownloaded := wrappingAdd u64Max s.totalDownloaded (fetched w event)
      attempts := s.attempts.set i
        (if fallsBack s.download.failed w event then 0 else written + fetched w event)
      overtaken := s.overtaken + s.overtakes (.thread i event) }
  | _, _ => s

/-- The last report of the threads' scope, if there is something to report, and that before the assembly. -/
def onJoin : Tracked :=
  let report := (s.totalDownloaded, some s.download.fileSize)
  { s with reports := s.reports ++ (if 0 < s.totalDownloaded then [report] else []) ++ [report] }

def count : Action → Tracked
  | .probe true => { s with attempts := (segments s.download.urls.length s.download.fileSize).map fun _ => 0 }
  | .thread i event => s.onThread i event
  | .join => s.onJoin
  | _ => s

def step (s : Tracked) (a : Action) : Option Tracked :=
  match s.download.step a with
  | none => none
  | some download => some { s.count a with download := download }

end Tracked

theorem fetched_of_fallsBack {failed : Bool} {w : Worker} {event : Event}
    (h : fallsBack failed w event = true) : fetched w event = 0 := by
  cases event with
  | looked => rfl
  | responded _ | created _ | read _ | wrote _ | flushed _ | panicked => cases h

theorem tracked_cases {s t : Tracked} {a : Action} (h : s.step a = some t) :
    ∃ d, s.download.step a = some d ∧ t = { s.count a with download := d } := by
  unfold Tracked.step at h
  split at h
  · cases h
  · cases h
    exact ⟨_, ‹_›, rfl⟩

/-! ### What a thread has counted -/

/-- The thread has counted `n` bytes in its present or last attempt. -/
def Counted (w : Worker) (n : ℕ) : Prop :=
  match w.phase with
  | .request _ | .create _ => n = 0
  | .read _ _ written | .flush written => n = written ∧ written ≤ w.segment.expectedLen
  | .write chunk _ _ written => n = written ∧ written + chunk.length ≤ w.segment.expectedLen
  | .failed _ | .finished (.error _) => n ≤ w.segment.expectedLen
  | .finished (.ok _) => n = w.segment.expectedLen

section Threads

variable {w : Worker} {n : ℕ}

/-- An attempt does not count more than the segment. -/
theorem Counted.le (h : Counted w n) : n ≤ w.segment.expectedLen := by
  unfold Counted at h
  split at h <;> omega

theorem counted_onResponse (url : List UInt8) (result : Except (List UInt8) Response) :
    Counted (w.onResponse url result) 0 := by
  cases result with
  | error e => exact Nat.zero_le _
  | ok response =>
    unfold Counted Worker.onResponse
    by_cases hstatus : response.status = 206
    · simp only [if_pos hstatus]
    · simp only [if_neg hstatus, Nat.zero_le]

theorem counted_onCreated (response : Response) (e : Option (List UInt8)) :
    Counted (w.onCreated response e) 0 := by
  cases e with
  | some e => exact Nat.zero_le _
  | none => exact ⟨rfl, Nat.zero_le _⟩

theorem counted_onRead {written : ℕ} (hle : written ≤ w.segment.expectedLen) (unread : List UInt8)
    (broken : Option (List UInt8)) (count : ℕ) : Counted (w.onRead unread broken written count) written := by
  unfold Worker.onRead
  dsimp only
  split_ifs with hremaining hempty
  · exact ⟨rfl, hle⟩
  · cases broken with
    | some e => exact hle
    | none => exact ⟨rfl, hle⟩
  · refine ⟨rfl, ?_⟩
    have hlen := List.length_take_le (min (max 1 count) (min (w.segment.expectedLen - written) Worker.bufLen))
      unread
    show written + _ ≤ w.segment.expectedLen
    omega

/-- The counter is advanced once the chunk is in the file. -/
theorem counted_onWrote {chunk : List UInt8} {written : ℕ}
    (hle : written + chunk.length ≤ w.segment.expectedLen) (unread : List UInt8)
    (broken : Option (List UInt8)) :
    Counted (w.onWrote chunk unread broken written none) (written + chunk.length) := by
  have hmax : w.segment.expectedLen ≤ u64Max := Nat.min_le_right _ _
  have hsum : satAdd u64Max written chunk.length = written + chunk.length := satAdd_of_le (by omega)
  unfold Worker.onWrote
  rw [hsum]
  exact ⟨rfl, hle⟩

theorem counted_onFlushed {written : ℕ} (hle : written ≤ w.segment.expectedLen) (e : Option (List UInt8)) :
    Counted (w.onFlushed written e) written := by
  cases e with
  | some e => exact hle
  | none =>
    unfold Worker.onFlushed
    dsimp only
    split_ifs with hlength
    · exact hle
    · exact not_not.mp hlength

/-- A thread that gives up has counted what its last attempt had; one that does not starts over. -/
theorem counted_onFailed (hle : n ≤ w.segment.expectedLen) {e : SegmentError} (hphase : w.phase = .failed e)
    (failed : Bool) : Counted (w.onFailed failed e).1 (if fallsBack failed w .looked then 0 else n) := by
  unfold Worker.onFailed fallsBack
  rw [hphase]
  cases w.fallbackUrls with
  | nil => exact hle
  | cons url urls =>
    cases failed with
    | true => exact hle
    | false => exact rfl

/-- **A step of a thread**, and what it has counted then. -/
theorem counted_advance (h : Counted w n) {failed : Bool} {event : Event} {w' : Worker} {failed' : Bool}
    (hw : w.advance failed event = some (w', failed')) :
    Counted w' (if fallsBack failed w event then 0 else n + fetched w event) := by
  have hle := h.le
  unfold Worker.advance at hw
  unfold Counted at h
  split at hw
  case h_1 => cases hw
  case h_2 =>
    cases hw
    exact hle
  case h_3 hphase =>
    rw [hphase] at h
    cases hw
    rw [h]
    exact counted_onResponse _ _
  case h_4 hphase =>
    rw [hphase] at h
    cases hw
    rw [h]
    exact counted_onCreated _ _
  case h_5 hphase =>
    rw [hphase] at h
    cases hw
    rw [h.1]
    exact counted_onRead h.2 _ _ _
  case h_6 e hphase =>
    rw [hphase] at h
    cases hw
    obtain ⟨rfl, hfit⟩ := h
    cases e with
    | some e => exact hle
    | none =>
      unfold fetched
      rw [hphase]
      exact counted_onWrote hfit _ _
  case h_7 hphase =>
    rw [hphase] at h
    cases hw
    rw [h.1]
    exact counted_onFlushed h.2 _
  case h_8 hphase =>
    obtain rfl := congrArg Prod.fst (Option.some.inj hw)
    exact counted_onFailed hle hphase _
  case h_9 => cases hw

end Threads

/-! ### The whole download -/

/-- The counter is what the last attempts have counted, together with what those before them had. -/
structure Accounted (urls : List (List UInt8)) (fileSize : ℕ) (s : Tracked) : Prop where
  inv : SegmentedSpec.Inv urls fileSize s.download
  counter : s.totalDownloaded = (s.overtaken + s.attempts.sum) % (u64Max + 1)
  sum_le : s.attempts.sum ≤ fileSize
  reports : ∀ r ∈ s.reports, r = (s.totalDownloaded, some fileSize)
  probing : s.download.main = .probing → s.attempts = [] ∧ s.reports = []
  joining : s.download.main = .joining → List.Forall₂ Counted s.download.workers s.attempts ∧ s.reports = []
  joined : Joined s.download.main → s.reports ≠ [] ∧ s.attempts.sum = fileSize

section Steps

variable {urls : List (List UInt8)} {fileSize : ℕ} {s : Tracked}

theorem accounted_begin (hurls : urls ≠ []) (fileSize : ℕ) :
    Accounted urls fileSize (.begin urls fileSize) := by
  have hmain : (Tracked.begin urls fileSize).download.main = .probing := if_neg hurls
  refine ⟨inv_begin hurls fileSize, rfl, Nat.zero_le _, fun r hr => absurd hr List.not_mem_nil,
    fun _ => ⟨rfl, rfl⟩, fun h => absurd (hmain.symm.trans h) nofun, fun h => ?_⟩
  rw [hmain] at h
  exact h.elim

/-- A thread that has just been spawned has counted nothing. -/
theorem counted_spawn (urls : List (List UInt8)) (l : List Segment) :
    List.Forall₂ Counted (l.map (Worker.spawn urls)) (l.map fun _ => 0) := by
  rw [List.forall₂_map_left_iff, List.forall₂_map_right_iff, List.forall₂_same]
  exact fun _ _ => rfl

theorem accounted_onProbe (h : Accounted urls fileSize s) (hmain : s.download.main = .probing)
    (supports : Bool) (hinv : SegmentedSpec.Inv urls fileSize (s.download.onProbe supports)) :
    Accounted urls fileSize { s.count (.probe supports) with download := s.download.onProbe supports } := by
  obtain ⟨hattempts, hreports⟩ := h.probing hmain
  cases supports with
  | false => exact ⟨hinv, h.counter, h.sum_le, h.reports, nofun, nofun, nofun⟩
  | true =>
    have hzero : ((segments s.download.urls.length s.download.fileSize).map fun _ => 0).sum = 0 :=
      List.sum_eq_zero fun n hn => by
        obtain ⟨segment, -, rfl⟩ := List.mem_map.mp hn
        rfl
    have hcounter := h.counter
    rw [hattempts, List.sum_nil, ← hzero] at hcounter
    exact ⟨hinv, hcounter, hzero.trans_le (Nat.zero_le _), h.reports, nofun,
      fun _ => ⟨counted_spawn _ _, hreports⟩, nofun⟩

theorem spawned_of_inv {d : Download} (h : SegmentedSpec.Inv urls fileSize d) (hmain : d.main = .joining) :
    d.workers.map Worker.segment = segments urls.length fileSize := by
  have hspawned := h.main
  unfold MainInv at hspawned
  rw [hmain] at hspawned
  unfold Spawned at hspawned
  rwa [h.urls, h.fileSize] at hspawned

/-- The lengths of the segments of the threads add up to that of the file. -/
theorem sum_segments (hurls : 0 < urls.length) (hpos : 0 < fileSize) (hmax : fileSize ≤ u64Max) {d : Download}
    (h : SegmentedSpec.Inv urls fileSize d) (hmain : d.main = .joining) :
    (d.workers.map fun w => w.segment.expectedLen).sum = fileSize := by
  have hmap : d.workers.map (fun w => w.segment.expectedLen) =
      (d.workers.map Worker.segment).map Segment.expectedLen := by
    rw [List.map_map]
    rfl
  rw [hmap, spawned_of_inv h hmain, sum_expectedLen hurls hpos hmax]

/-- What a step counts goes to the attempts. -/
theorem sum_onThread {w : Worker} {i written : ℕ} (hwritten : s.attempts[i]? = some written) (failed : Bool)
    (event : Event) :
    (s.overtaken + if fallsBack failed w event then written else 0) +
      (s.attempts.set i (if fallsBack failed w event then 0 else written + fetched w event)).sum =
      s.overtaken + s.attempts.sum + fetched w event := by
  have hsum := sum_set_add hwritten (if fallsBack failed w event then 0 else written + fetched w event)
  by_cases hfalls : fallsBack failed w event = true
  · rw [if_pos hfalls] at hsum
    rw [if_pos hfalls, if_pos hfalls, fetched_of_fallsBack hfalls]
    omega
  · rw [if_neg hfalls] at hsum
    rw [if_neg hfalls, if_neg hfalls]
    omega

theorem overtakes_thread {w : Worker} {i written : ℕ} (hi : s.download.workers[i]? = some w)
    (hwritten : s.attempts[i]? = some written) (event : Event) : s.overtakes (.thread i event) =
      if fallsBack s.download.failed w event then written else 0 := by
  unfold Tracked.overtakes
  dsimp only
  rw [hi, hwritten]

theorem count_thread {w : Worker} {i written : ℕ} (hi : s.download.workers[i]? = some w)
    (hwritten : s.attempts[i]? = some written) (event : Event) :
    s.count (.thread i event) = { s with
      totalDownloaded := wrappingAdd u64Max s.totalDownloaded (fetched w event)
      attempts := s.attempts.set i
        (if fallsBack s.download.failed w event then 0 else written + fetched w event)
      overtaken := s.overtaken + if fallsBack s.download.failed w event then written else 0 } := by
  show s.onThread i event = _
  unfold Tracked.onThread
  rw [overtakes_thread hi hwritten, hi, hwritten]

/-- **A step of a thread.** -/
theorem accounted_onThread (hurls : 0 < urls.length) (hpos : 0 < fileSize) (hmax : fileSize ≤ u64Max)
    (h : Accounted urls fileSize s) (hmain : s.download.main = .joining) {i : ℕ} {event : Event}
    {d : Download} (hd : s.download.threadStep i event = some d) (hinv : SegmentedSpec.Inv urls fileSize d) :
    Accounted urls fileSize { s.count (.thread i event) with download := d } := by
  obtain ⟨hshares, hreports⟩ := h.joining hmain
  obtain ⟨w, w', failed, hi, hadv, rfl⟩ := threadStep_cases hd
  obtain ⟨written, hwritten, hcounted⟩ := exists_share hshares hi
  have hshares' := forall₂_set hshares (counted_advance hcounted hadv) i
  have hle := sum_le_of_bounded hshares' fun _ _ => Counted.le
  rw [sum_segments hurls hpos hmax hinv hmain] at hle
  have hcounter : wrappingAdd u64Max s.totalDownloaded (fetched w event) =
      (s.overtaken + s.attempts.sum + fetched w event) % (u64Max + 1) := by
    unfold wrappingAdd
    rw [h.counter, Nat.mod_add_mod]
  rw [← sum_onThread hwritten s.download.failed event] at hcounter
  rw [count_thread hi hwritten]
  refine ⟨hinv, hcounter, hle, fun r hr => ?_, fun hp => ?_, fun _ => ⟨hshares', hreports⟩, fun hj => ?_⟩
  · exact absurd (hreports ▸ hr) List.not_mem_nil
  · exact absurd (hmain.symm.trans hp) nofun
  · dsimp only at hj
    rw [hmain] at hj
    exact hj.elim

/-- Every report is the counter. -/
theorem mem_onJoin {r : ℕ × Option ℕ} (hreports : s.reports = []) (hr : r ∈ s.onJoin.reports) :
    r = (s.totalDownloaded, some s.download.fileSize) := by
  unfold Tracked.onJoin at hr
  dsimp only at hr
  rw [hreports, List.nil_append, List.mem_append, List.mem_singleton] at hr
  rcases hr with hr | hr
  · split_ifs at hr
    · exact List.mem_singleton.mp hr
    · exact absurd hr List.not_mem_nil
  · exact hr

theorem onJoin_ne_nil : s.onJoin.reports ≠ [] := List.append_ne_nil_of_right_ne_nil _ (List.cons_ne_nil _ _)

/-- **The threads are joined.** Those that have succeeded have counted their segments. -/
theorem accounted_onJoin (hurls : 0 < urls.length) (hpos : 0 < fileSize) (hmax : fileSize ≤ u64Max)
    (h : Accounted urls fileSize s) (hmain : s.download.main = .joining) {d : Download}
    (hd : s.download.join = some d) (hinv : SegmentedSpec.Inv urls fileSize d) :
    Accounted urls fileSize { s.count .join with download := d } := by
  obtain ⟨hshares, hreports⟩ := h.joining hmain
  have hall : ∀ r ∈ s.onJoin.reports, r = (s.totalDownloaded, some fileSize) := fun r hr =>
    (mem_onJoin hreports hr).trans (by rw [h.inv.fileSize])
  rcases join_cases hd with ⟨e, rfl⟩ | ⟨hdone, rfl⟩
  · exact ⟨hinv, h.counter, h.sum_le, hall, nofun, nofun, nofun⟩
  · have hfull : ∀ w ∈ s.download.workers, ∀ n, Counted w n → n = w.segment.expectedLen := by
      intro w hw n hn
      unfold Counted at hn
      rwa [hdone w hw] at hn
    have hsum := sum_eq_of_full hshares hfull
    rw [sum_segments hurls hpos hmax h.inv hmain] at hsum
    exact ⟨hinv, h.counter, h.sum_le, hall, nofun, nofun, fun _ => ⟨onJoin_ne_nil, hsum⟩⟩

/-- The assembly begins when the threads have been joined, and goes on until it fails or returns. -/
theorem joined_assemble {d d' : Download} {outcome : Outcome} (hd : d.assemble outcome = some d') :
    Joined d.main ∧ (Joined d'.main ∨ ∃ e, d'.main = .returned (.error e)) := by
  rcases assemble_cases hd with ⟨e, output, hjoined, rfl⟩ | ⟨hphase, rfl⟩ | ⟨hphase, rfl⟩ |
    ⟨_, _, _, hphase, -, rfl⟩ | ⟨_, hphase, rfl⟩ | ⟨_, _, _, hphase, rfl⟩ | ⟨hphase, rfl⟩
  · exact ⟨hjoined, Or.inr ⟨e, rfl⟩⟩
  all_goals exact ⟨hphase ▸ trivial, Or.inl trivial⟩

theorem accounted_assemble (h : Accounted urls fileSize s) {outcome : Outcome} {d : Download}
    (hd : s.download.assemble outcome = some d) (hinv : SegmentedSpec.Inv urls fileSize d) :
    Accounted urls fileSize { s with download := d } := by
  obtain ⟨hjoined, hjoined' | ⟨e, he⟩⟩ := joined_assemble hd
  · refine ⟨hinv, h.counter, h.sum_le, h.reports, fun hp => ?_, fun hp => ?_, fun _ => h.joined hjoined⟩ <;>
    · dsimp only at hp
      rw [hp] at hjoined'
      exact hjoined'.elim
  · refine ⟨hinv, h.counter, h.sum_le, h.reports, fun hp => ?_, fun hp => ?_, fun hj => ?_⟩
    · exact absurd (he.symm.trans hp) nofun
    · exact absurd (he.symm.trans hp) nofun
    · dsimp only at hj
      rw [he] at hj
      exact hj.elim

theorem accounted_step (hurls : 0 < urls.length) (hpos : 0 < fileSize) (hmax : fileSize ≤ u64Max)
    (h : Accounted urls fileSize s) {a : Action} {t : Tracked} (ht : s.step a = some t) :
    Accounted urls fileSize t := by
  obtain ⟨d, hd, rfl⟩ := tracked_cases ht
  have hinv := inv_step h.inv hurls hpos hmax hd
  rcases step_cases hd with ⟨supports, rfl, hmain, rfl⟩ | ⟨i, event, rfl, hmain, hd'⟩ | ⟨rfl, hmain, hd'⟩ |
    ⟨outcome, rfl, hd'⟩
  · exact accounted_onProbe h hmain supports hinv
  · exact accounted_onThread hurls hpos hmax h hmain hd' hinv
  · exact accounted_onJoin hurls hpos hmax h hmain hd' hinv
  · exact accounted_assemble h hd' hinv

end Steps

/-! ### The reports -/

/-- Without mirrors nothing happens. -/
theorem step_begin_nil (fileSize : ℕ) (a : Action) : (Tracked.begin [] fileSize).step a = none := by
  cases a <;> rfl

/-- **What a download that succeeds has reported**, in every run: the size of the file, and what the attempts
that another mirror has taken over had counted, as far as a 64-bit counter goes. -/
theorem reports_of_success {urls : List (List UInt8)} (hurls : urls ≠ []) {fileSize : ℕ} (hpos : 0 < fileSize)
    (hmax : fileSize ≤ u64Max) (actions : List Action) :
    Always Tracked.step (fun s => ∀ hashed, s.download.main = .returned (.ok hashed) →
      ∀ r ∈ s.reports, r = ((s.overtaken + fileSize) % 2 ^ 64, some fileSize))
      (.begin urls fileSize) actions := by
  have hlen : 0 < urls.length := List.length_pos_iff.mpr hurls
  refine (always_of_inv (fun _ _ _ h ht => accounted_step hlen hpos hmax h ht)
    (accounted_begin hurls fileSize)).mono fun s h hashed hmain r hr => ?_
  obtain ⟨-, hsum⟩ := h.joined (hmain ▸ trivial)
  rw [h.reports r hr, h.counter, hsum]
  rfl

/-- All reports name the size of the file as the total and do not exceed it, and those of a download that
succeeds are that size. -/
structure Faithful (fileSize : ℕ) (s : Tracked) : Prop where
  total : ∀ r ∈ s.reports, r.2 = some fileSize
  le : ∀ r ∈ s.reports, r.1 ≤ fileSize
  success : ∀ hashed, s.download.main = .returned (.ok hashed) →
    s.reports ≠ [] ∧ ∀ r ∈ s.reports, r.1 = fileSize

theorem faithful_of_accounted {urls : List (List UInt8)} {fileSize : ℕ} (hmax : fileSize ≤ u64Max)
    {s : Tracked} (h : Accounted urls fileSize s) (hzero : s.overtaken = 0) : Faithful fileSize s := by
  have hle := h.sum_le
  have hcounter : s.totalDownloaded = s.attempts.sum := by
    rw [h.counter, hzero, Nat.zero_add, Nat.mod_eq_of_lt (by omega)]
  refine ⟨fun r hr => by rw [h.reports r hr], fun r hr => ?_, fun hashed hmain => ?_⟩
  · rw [h.reports r hr, hcounter]
    exact hle
  · obtain ⟨hne, hsum⟩ := h.joined (hmain ▸ trivial)
    refine ⟨hne, fun r hr => ?_⟩
    rw [h.reports r hr, hcounter, hsum]

/-- The attempt that the step hands to another mirror, if it does, has not counted a byte. -/
def CleanFallback (s : Tracked) (a : Action) : Prop := s.overtakes a = 0

instance (s : Tracked) (a : Action) : Decidable (CleanFallback s a) := inferInstanceAs (Decidable (_ = 0))

theorem overtaken_count (s : Tracked) (a : Action) :
    (s.count a).overtaken = s.overtaken ∨ (s.count a).overtaken = s.overtaken + s.overtakes a := by
  cases a with
  | probe supports => cases supports <;> exact Or.inl rfl
  | thread i event =>
    show (s.onThread i event).overtaken = _ ∨ (s.onThread i event).overtaken = _
    unfold Tracked.onThread
    split
    · exact Or.inr rfl
    · exact Or.inl rfl
  | join => exact Or.inl rfl
  | assemble outcome => exact Or.inl rfl

/-- **The progress of a segmented download**: whatever the mirrors, the file system and the order of the
threads do, the reports are right in every run in which a mirror takes over only from attempts that have
counted nothing. -/
theorem reports_faithful (urls : List (List UInt8)) {fileSize : ℕ} (hpos : 0 < fileSize)
    (hmax : fileSize ≤ u64Max) {actions : List Action}
    (h : Meets Tracked.step CleanFallback (.begin urls fileSize) actions) :
    Always Tracked.step (Faithful fileSize) (.begin urls fileSize) actions := by
  by_cases hurls : urls = []
  · have hbegin : Faithful fileSize (.begin [] fileSize) := ⟨nofun, nofun, nofun⟩
    rw [hurls]
    cases actions with
    | nil => exact hbegin
    | cons a actions => exact ⟨hbegin, fun t ht => by cases (step_begin_nil fileSize a).symm.trans ht⟩
  · have hlen : 0 < urls.length := List.length_pos_iff.mpr hurls
    refine (always_of_meets (P := fun s => Accounted urls fileSize s ∧ s.overtaken = 0) ?_
      ⟨accounted_begin hurls fileSize, rfl⟩ h).mono fun s hs => faithful_of_accounted hmax hs.1 hs.2
    rintro s a t ⟨haccounted, hzero⟩ hclean ht
    refine ⟨accounted_step hlen hpos hmax haccounted ht, ?_⟩
    obtain ⟨d, -, rfl⟩ := tracked_cases ht
    unfold CleanFallback at hclean
    show (s.count a).overtaken = 0
    rcases overtaken_count s a with hcount | hcount
    · rw [hcount, hzero]
    · rw [hcount, hzero, hclean]

/-- The first mirror refuses the segment, the second sends it. -/
def refusedRun : List Action :=
  [.probe true, .thread 0 (.responded (.ok ⟨404, [], none⟩)), .thread 0 .looked,
    .thread 0 (.responded (.ok ⟨206, [7, 8], none⟩)), .thread 0 (.created none), .thread 0 (.read 2),
    .thread 0 (.wrote none), .thread 0 (.read 1), .thread 0 (.flushed none), .join, .assemble (.succeeds 0),
    .assemble (.succeeds 0), .assemble (.succeeds 2), .assemble (.succeeds 1), .assemble (.succeeds 0),
    .assemble (.succeeds 0)]

theorem reports_faithful_refused :
    Always Tracked.step (Faithful 2) (.begin [text "a", text "b"] 2) refusedRun :=
  reports_faithful _ (by decide) (by decide) (by decide)

/-- The first mirror fails in the middle of the segment, the second sends it from the start. -/
def takenOverRun : List Action :=
  [.probe true, .thread 0 (.responded (.ok ⟨206, [7], some (text "reset")⟩)), .thread 0 (.created none),
    .thread 0 (.read 2), .thread 0 (.wrote none), .thread 0 (.read 2), .thread 0 .looked,
    .thread 0 (.responded (.ok ⟨206, [7, 8], none⟩)), .thread 0 (.created none), .thread 0 (.read 2),
    .thread 0 (.wrote none), .thread 0 (.read 1), .thread 0 (.flushed none), .join]

/-- A byte is counted twice: three bytes of two are reported. -/
theorem byte_counted_twice :
    ¬ Always Tracked.step (Faithful 2) (.begin [text "a", text "b"] 2) takenOverRun := by
  intro h
  obtain ⟨s, hrun, hreport⟩ : ∃ s, run Tracked.step (.begin [text "a", text "b"] 2) takenOverRun = some s ∧
      (3, some 2) ∈ s.reports := ⟨_, rfl, List.mem_cons_self⟩
  exact absurd ((h.last hrun).le _ hreport) (by decide)

end CncContent.Downloads.Progress
