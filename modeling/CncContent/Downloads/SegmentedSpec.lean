import CncContent.Downloads.Segmented
import Mathlib.Algebra.Order.Ring.Nat

/-! # What a segmented download assembles

The segments tile the file (`segments_tile`). The temporary file of a thread holds the beginning of the last
partial response it has got, and a thread that succeeds has as many bytes of it as the segment (`PhaseInv`),
whatever the mirrors deliver and however the threads interleave. So the assembled file consists of one such
beginning for each segment, and has the length of the file (`segmented_download_sound`). -/

namespace CncContent.Downloads.SegmentedSpec

open CncContent.Lib.Bounded CncContent.Lib.Bytes CncContent.Lib.Runs CncContent.Lib.Tiling
open CncContent.Downloads.Segmented

/-! ### Segments -/

/-- The segments follow each other from the start of the file to its end. -/
def Partition (l : List Segment) (fileSize : ℕ) : Prop :=
  Tiles Segment.start (fun segment => segment.stop + 1) 0 l fileSize

theorem effectiveMirrors_bounds {mirrorCount fileSize : ℕ} (hmirrors : 0 < mirrorCount) (hsize : 0 < fileSize) :
    0 < effectiveMirrors mirrorCount fileSize ∧ effectiveMirrors mirrorCount fileSize ≤ fileSize := by
  have hdiv := Nat.div_le_self fileSize minSegmentSize
  unfold effectiveMirrors
  omega

/-- Where `n` segments of a size are cut, the last one with the remainder. -/
def cut (fileSize n size i : ℕ) : ℕ := if i = n then fileSize else i * size

/-- **The segments partition the file.** -/
theorem segments_tile {mirrorCount fileSize : ℕ} (hmirrors : 0 < mirrorCount) (hsize : 0 < fileSize) :
    Partition (segments mirrorCount fileSize) fileSize := by
  obtain ⟨hpos, hle⟩ := effectiveMirrors_bounds hmirrors hsize
  unfold segments
  generalize effectiveMirrors mirrorCount fileSize = n at hpos hle
  dsimp only
  have hquot : 0 < fileSize / n := Nat.div_pos hle hpos
  have hprod : n * (fileSize / n) ≤ fileSize := Nat.mul_div_le fileSize n
  generalize fileSize / n = size at hquot hprod ⊢
  have hzero : cut fileSize n size 0 = 0 := by
    unfold cut
    rw [if_neg (Nat.ne_of_lt hpos), Nat.zero_mul]
  have hend : cut fileSize n size (0 + n) = fileSize := by
    rw [Nat.zero_add]
    exact if_pos rfl
  unfold Partition
  rw [← hzero, List.range_eq_range']
  refine Eq.mp (congrArg _ hend) (tiles_range' fun i _ hi => ?_)
  rw [Nat.zero_add] at hi
  have hsucc : (i + 1) * size = i * size + size := Nat.succ_mul i size
  unfold cut
  dsimp only
  rw [if_neg (Nat.ne_of_lt hi)]
  by_cases hlast : i + 1 = n
  · have hi' : i = n - 1 := by omega
    have hfit : (i + 1) * size ≤ fileSize := by rwa [hlast]
    rw [if_pos hi', if_pos hlast]
    omega
  · have hi' : i ≠ n - 1 := by omega
    rw [if_neg hi', if_neg hlast]
    omega

theorem expectedLen_eq {mirrorCount fileSize : ℕ} (hmirrors : 0 < mirrorCount) (hsize : 0 < fileSize)
    (hmax : fileSize ≤ u64Max) {segment : Segment} (h : segment ∈ segments mirrorCount fileSize) :
    segment.expectedLen = segment.stop + 1 - segment.start := by
  obtain ⟨hlt, hle⟩ := (segments_tile hmirrors hsize).of_mem segment h
  unfold Segment.expectedLen satAdd
  omega

/-- The lengths of the segments add up to that of the file. -/
theorem sum_expectedLen {mirrorCount fileSize : ℕ} (hmirrors : 0 < mirrorCount) (hsize : 0 < fileSize)
    (hmax : fileSize ≤ u64Max) :
    ((segments mirrorCount fileSize).map Segment.expectedLen).sum = fileSize := by
  have hsum := (segments_tile hmirrors hsize).sum_length
  rw [Nat.zero_add] at hsum
  rw [List.map_congr_left fun segment h => expectedLen_eq hmirrors hsize hmax h]
  exact hsum

/-! ### Threads -/

/-- The file of the thread is made of the first `n` bytes of a partial response that it has got. -/
structure Delivered (w : Worker) (response : Response) (n : ℕ) : Prop where
  mem : response ∈ w.responses
  status : response.status = 206
  le_length : n ≤ response.body.length
  file : w.file = some (response.body.take n)

def PhaseInv (w : Worker) : Prop :=
  match w.phase with
  | .request _ | .failed _ | .finished (.error _) => True
  | .create response => response ∈ w.responses ∧ response.status = 206
  | .read unread _ written => ∃ response, Delivered w response written ∧
      unread = response.body.drop written ∧ written ≤ w.segment.expectedLen
  | .write chunk unread _ written => ∃ response, Delivered w response written ∧
      chunk ++ unread = response.body.drop written ∧ written + chunk.length ≤ w.segment.expectedLen
  | .flush written => ∃ response, Delivered w response written
  | .finished (.ok _) => ∃ response, Delivered w response w.segment.expectedLen

/-- What a step of a thread keeps: what is known of its file, and its segment. -/
def Kept (w w' : Worker) : Prop := PhaseInv w' ∧ w'.segment = w.segment

section Steps

variable {w : Worker}

theorem kept_onResponse (url : List UInt8) (result : Except (List UInt8) Response) :
    Kept w (w.onResponse url result) := by
  cases result with
  | error e => exact ⟨trivial, rfl⟩
  | ok response =>
    refine ⟨?_, rfl⟩
    unfold PhaseInv Worker.onResponse
    by_cases hstatus : response.status = 206
    · simp only [if_pos hstatus]
      exact ⟨by simp, hstatus⟩
    · simp only [if_neg hstatus]

theorem kept_onCreated {response : Response} (hmem : response ∈ w.responses)
    (hstatus : response.status = 206) (e : Option (List UInt8)) : Kept w (w.onCreated response e) := by
  cases e with
  | some e => exact ⟨trivial, rfl⟩
  | none => exact ⟨⟨response, ⟨hmem, hstatus, Nat.zero_le _, rfl⟩, rfl, Nat.zero_le _⟩, rfl⟩

theorem kept_onRead {response : Response} {written : ℕ} (h : Delivered w response written)
    (hle : written ≤ w.segment.expectedLen) (broken : Option (List UInt8)) (count : ℕ) :
    Kept w (w.onRead (response.body.drop written) broken written count) := by
  have hflush : Kept w (w.goTo (.flush written)) := ⟨⟨response, h.mem, h.status, h.le_length, h.file⟩, rfl⟩
  unfold Worker.onRead
  dsimp only
  split_ifs with hremaining hempty
  · exact hflush
  · cases broken with
    | some e => exact ⟨trivial, rfl⟩
    | none => exact hflush
  · refine ⟨⟨response, ⟨h.mem, h.status, h.le_length, h.file⟩, List.take_append_drop _ _, ?_⟩, rfl⟩
    have hlen := List.length_take_le (min (max 1 count) (min (w.segment.expectedLen - written) Worker.bufLen))
      (response.body.drop written)
    show written + _ ≤ w.segment.expectedLen
    omega

/-- The file grows by the chunk, which is what comes next in the body. -/
theorem kept_onWrote {response : Response} {chunk unread : List UInt8} {written : ℕ}
    (h : Delivered w response written) (hchunk : chunk ++ unread = response.body.drop written)
    (hle : written + chunk.length ≤ w.segment.expectedLen) (broken : Option (List UInt8))
    (e : Option (ℕ × List UInt8)) : Kept w (w.onWrote chunk unread broken written e) := by
  cases e with
  | some e => exact ⟨trivial, rfl⟩
  | none =>
    have hmax : w.segment.expectedLen ≤ u64Max := Nat.min_le_right _ _
    have hlen := congrArg List.length hchunk
    rw [List.length_append, List.length_drop] at hlen
    have hsum : satAdd u64Max written chunk.length = written + chunk.length := satAdd_of_le (by omega)
    unfold Worker.onWrote
    rw [hsum]
    have hle_length := h.le_length
    refine ⟨⟨response, ⟨h.mem, h.status, by omega, ?_⟩, ?_, hle⟩, rfl⟩
    · show w.file.map _ = _
      rw [h.file, List.take_add, ← hchunk, List.take_left]
      rfl
    · rw [← List.drop_drop, ← hchunk, List.drop_left]

theorem kept_onFlushed {response : Response} {written : ℕ} (h : Delivered w response written)
    (e : Option (List UInt8)) : Kept w (w.onFlushed written e) := by
  cases e with
  | some e => exact ⟨trivial, rfl⟩
  | none =>
    unfold Worker.onFlushed
    dsimp only
    split_ifs with hlength
    · exact ⟨trivial, rfl⟩
    · obtain rfl : written = w.segment.expectedLen := not_not.mp hlength
      exact ⟨⟨response, h.mem, h.status, h.le_length, h.file⟩, rfl⟩

theorem kept_onFailed (failed : Bool) (e : SegmentError) : Kept w (w.onFailed failed e).1 := by
  unfold Worker.onFailed
  dsimp only
  split
  · split_ifs <;> exact ⟨trivial, rfl⟩
  · exact ⟨trivial, rfl⟩

/-- **A step of a thread**, whatever it meets. -/
theorem kept_advance (h : PhaseInv w) {failed : Bool} {event : Event} {w' : Worker} {failed' : Bool}
    (hw : w.advance failed event = some (w', failed')) : Kept w w' := by
  unfold Worker.advance at hw
  unfold PhaseInv at h
  split at hw
  case h_1 => cases hw
  case h_2 =>
    cases hw
    exact ⟨trivial, rfl⟩
  case h_3 =>
    cases hw
    exact kept_onResponse _ _
  case h_4 hphase =>
    rw [hphase] at h
    cases hw
    exact kept_onCreated h.1 h.2 _
  case h_5 hphase =>
    rw [hphase] at h
    obtain ⟨response, hdelivered, rfl, hle⟩ := h
    cases hw
    exact kept_onRead hdelivered hle _ _
  case h_6 hphase =>
    rw [hphase] at h
    obtain ⟨response, hdelivered, hchunk, hle⟩ := h
    cases hw
    exact kept_onWrote hdelivered hchunk hle _ _
  case h_7 hphase =>
    rw [hphase] at h
    obtain ⟨response, hdelivered⟩ := h
    cases hw
    exact kept_onFlushed hdelivered _
  case h_8 =>
    obtain rfl := congrArg Prod.fst (Option.some.inj hw)
    exact kept_onFailed _ _
  case h_9 => cases hw

end Steps

/-! ### What the steps do -/

/-- The thread has succeeded. -/
def Done (w : Worker) : Prop := w.phase = .finished (.ok ())

/-- The threads have been joined without an error. -/
def Joined : Main → Prop
  | .creating | .opening _ | .copying _ _ | .flushing | .returned (.ok _) => True
  | .probing | .racing | .joining | .returned (.error _) => False

/-- Threads that have finished without an error have succeeded. -/
theorem done_of_errors_nil {l : List Worker} (hfinished : l.all Download.isFinished = true)
    (hnone : (l.filterMap Download.errorOf).getLast? = none) : ∀ w ∈ l, Done w := by
  intro w hw
  have hfin := List.all_eq_true.mp hfinished w hw
  have herr : Download.errorOf w = none :=
    List.filterMap_eq_nil_iff.mp (List.getLast?_eq_none_iff.mp hnone) w hw
  unfold Download.isFinished at hfin
  unfold Download.errorOf at herr
  unfold Done
  cases hphase : w.phase with
  | finished result =>
    rw [hphase] at herr
    cases result with
    | ok u => rfl
    | error e => cases herr
  | request _ | create _ | read _ _ _ | write _ _ _ _ | flush _ | failed _ =>
    rw [hphase] at hfin
    cases hfin

section Cases

variable {s t : Download}

/-- A step of a thread changes that thread, and the flag. -/
theorem threadStep_cases {i : ℕ} {event : Event} (h : s.threadStep i event = some t) :
    ∃ w w' failed, s.workers[i]? = some w ∧ w.advance s.failed event = some (w', failed) ∧
      t = { s with workers := s.workers.set i w', failed := failed } := by
  unfold Download.threadStep at h
  cases hi : s.workers[i]? with
  | none =>
    rw [hi] at h
    cases h
  | some w =>
    rw [hi] at h
    dsimp only at h
    cases hadv : w.advance s.failed event with
    | none =>
      rw [hadv] at h
      cases h
    | some r =>
      rw [hadv] at h
      cases h
      exact ⟨w, r.1, r.2, rfl, hadv, rfl⟩

/-- A thread keeps its segment. -/
theorem map_segment_set {l : List Worker} {i : ℕ} {w w' : Worker} (hi : l[i]? = some w)
    (hsegment : w'.segment = w.segment) : (l.set i w').map Worker.segment = l.map Worker.segment := by
  obtain ⟨hlt, hget⟩ := List.getElem?_eq_some_iff.mp hi
  rw [List.map_set, hsegment, ← hget, ← List.getElem_map Worker.segment, List.set_getElem_self]
  rwa [List.length_map]

/-- The threads are joined: one of them has failed, or all have succeeded. -/
theorem join_cases (h : s.join = some t) : (∃ e, t = { s with main := .returned (.error e) }) ∨
    (∀ w ∈ s.workers, Done w) ∧ t = { s with main := .creating } := by
  unfold Download.join at h
  split_ifs at h with hfinished
  split at h
  · cases h
    exact Or.inl ⟨_, rfl⟩
  · cases h
    exact Or.inr ⟨done_of_errors_nil hfinished ‹_›, rfl⟩

/-- **A step of the assembly**: it fails, or the next file is opened or copied further, or all are copied. -/
theorem assemble_cases {outcome : Outcome} (h : s.assemble outcome = some t) :
    (∃ e output, Joined s.main ∧ t = { s with main := .returned (.error e), output := output }) ∨
    (s.main = .creating ∧ t = { s with output := [], hashed := [], main := .opening s.workers }) ∨
    (s.main = .opening [] ∧ t = { s with main := .flushing }) ∨
    (∃ w left data, s.main = .opening (w :: left) ∧ w.file = some data ∧
      t = { s with main := .copying data left }) ∨
    (∃ left, s.main = .copying [] left ∧ t = { s with main := .opening left }) ∨
    (∃ unread left n, s.main = .copying unread left ∧
      t = { s with
        hashed := s.hashed ++ unread.take n
        output := s.output ++ unread.take n
        main := .copying (unread.drop n) left }) ∨
    s.main = .flushing ∧ t = { s with main := .returned (.ok s.hashed) } := by
  unfold Download.assemble at h
  split at h
  case h_1 hphase | h_4 hphase | h_6 hphase | h_8 hphase =>
    cases h
    exact Or.inl ⟨_, _, hphase ▸ trivial, rfl⟩
  case h_2 hphase =>
    cases h
    exact Or.inr (Or.inl ⟨hphase, rfl⟩)
  case h_3 hphase =>
    cases h
    exact Or.inr (Or.inr (Or.inl ⟨hphase, rfl⟩))
  case h_5 w left _ hphase =>
    split at h
    · cases h
    · cases h
      exact Or.inr (Or.inr (Or.inr (Or.inl ⟨w, left, _, hphase, ‹_›, rfl⟩)))
  case h_7 unread left count hphase =>
    split_ifs at h with hempty
    · cases h
      rw [hempty] at hphase
      exact Or.inr (Or.inr (Or.inr (Or.inr (Or.inl ⟨left, hphase, rfl⟩))))
    · cases h
      exact Or.inr (Or.inr (Or.inr (Or.inr (Or.inr (Or.inl ⟨unread, left, _, hphase, rfl⟩)))))
  case h_9 hphase =>
    cases h
    exact Or.inr (Or.inr (Or.inr (Or.inr (Or.inr (Or.inr ⟨hphase, rfl⟩)))))
  case h_10 => cases h

/-- **A step of the download** belongs to the stage that it is in. -/
theorem step_cases {a : Action} (h : s.step a = some t) :
    (∃ supports, a = .probe supports ∧ s.main = .probing ∧ t = s.onProbe supports) ∨
    (∃ i event, a = .thread i event ∧ s.main = .joining ∧ s.threadStep i event = some t) ∨
    (a = .join ∧ s.main = .joining ∧ s.join = some t) ∨
    ∃ outcome, a = .assemble outcome ∧ s.assemble outcome = some t := by
  unfold Download.step at h
  cases a with
  | probe supports =>
    dsimp only at h
    split at h
    · cases h
      exact Or.inl ⟨supports, rfl, ‹_›, rfl⟩
    · cases h
  | thread i event =>
    dsimp only at h
    split at h
    · exact Or.inr (Or.inl ⟨i, event, rfl, ‹_›, h⟩)
    · cases h
  | join =>
    dsimp only at h
    split at h
    · exact Or.inr (Or.inr (Or.inl ⟨rfl, ‹_›, h⟩))
    · cases h
  | assemble outcome => exact Or.inr (Or.inr (Or.inr ⟨outcome, rfl, h⟩))

end Cases

/-! ### The whole download -/

/-- The file of the thread, as far as it is there. -/
def contents (w : Worker) : List UInt8 := w.file.getD []

/-- The threads are those of the segments. -/
def Spawned (s : Download) : Prop := s.workers.map Worker.segment = segments s.urls.length s.fileSize

/-- The output consists of the beginning of one partial response for each segment, as long as the segment, and
has the length of the file. -/
structure Assembled (s : Download) : Prop where
  spawned : Spawned s
  length : s.output.length = s.fileSize
  parts : ∃ chosen : Worker → Response,
    (∀ w ∈ s.workers, chosen w ∈ w.responses ∧ (chosen w).status = 206 ∧
      w.segment.expectedLen ≤ (chosen w).body.length) ∧
    s.output = s.workers.flatMap fun w => (chosen w).body.take w.segment.expectedLen

/-- A download that has succeeded has assembled the file, and hashed it. -/
def Sound (s : Download) : Prop :=
  match s.main with
  | .returned (.ok hashed) => Assembled s ∧ hashed = s.output
  | _ => True

/-- Part of the files is copied; the rest is `unread` and the files of `left`. -/
structure Copied (s : Download) (unread : List UInt8) (left : List Worker) : Prop where
  spawned : Spawned s
  done : ∀ w ∈ s.workers, Done w
  files : s.output ++ (unread ++ left.flatMap contents) = s.workers.flatMap contents
  hashed : s.hashed = s.output

def MainInv (s : Download) : Prop :=
  match s.main with
  | .probing | .racing | .returned (.error _) => True
  | .joining => Spawned s
  | .creating => Spawned s ∧ ∀ w ∈ s.workers, Done w
  | .opening left => Copied s [] left
  | .copying unread left => Copied s unread left
  | .flushing => Copied s [] []
  | .returned (.ok hashed) => Assembled s ∧ hashed = s.output

/-- The invariant, with what is fixed. -/
structure Inv (urls : List (List UInt8)) (fileSize : ℕ) (s : Download) : Prop where
  urls : s.urls = urls
  fileSize : s.fileSize = fileSize
  workers : ∀ w ∈ s.workers, PhaseInv w
  main : MainInv s

section Main

variable {urls : List (List UInt8)} {fileSize : ℕ} {s : Download}

/-- A step that leaves the threads as they are. -/
theorem inv_of_main (h : Inv urls fileSize s) {t : Download} (hurls : t.urls = s.urls)
    (hsize : t.fileSize = s.fileSize) (hworkers : t.workers = s.workers) (hmain : MainInv t) :
    Inv urls fileSize t :=
  ⟨hurls.trans h.urls, hsize.trans h.fileSize, hworkers ▸ h.workers, hmain⟩

theorem inv_begin (hurls : urls ≠ []) (fileSize : ℕ) : Inv urls fileSize (.begin urls fileSize) := by
  refine ⟨rfl, rfl, fun w hw => absurd hw List.not_mem_nil, ?_⟩
  unfold MainInv Download.begin
  dsimp only
  rw [if_neg hurls]
  trivial

theorem inv_onProbe (h : Inv urls fileSize s) (supports : Bool) : Inv urls fileSize (s.onProbe supports) := by
  cases supports with
  | false => exact inv_of_main h rfl rfl rfl trivial
  | true =>
    refine ⟨h.urls, h.fileSize, fun w hw => ?_, ?_⟩
    · obtain ⟨segment, -, rfl⟩ := List.mem_map.mp hw
      trivial
    · show ((segments _ _).map (Worker.spawn s.urls)).map Worker.segment = _
      rw [List.map_map]
      exact List.map_id _

theorem inv_threadStep (h : Inv urls fileSize s) (hmain : s.main = .joining) {i : ℕ} {event : Event}
    {t : Download} (ht : s.threadStep i event = some t) : Inv urls fileSize t := by
  obtain ⟨w, w', failed, hi, hadv, rfl⟩ := threadStep_cases ht
  obtain ⟨hphase, hsegment⟩ := kept_advance (h.workers w (List.mem_of_getElem? hi)) hadv
  refine ⟨h.urls, h.fileSize, fun x hx => ?_, ?_⟩
  · rcases List.mem_or_eq_of_mem_set hx with hx | rfl
    · exact h.workers x hx
    · exact hphase
  · have hspawned := h.main
    unfold MainInv at hspawned ⊢
    dsimp only
    rw [hmain] at hspawned ⊢
    exact (map_segment_set hi hsegment).trans hspawned

theorem inv_join (h : Inv urls fileSize s) (hmain : s.main = .joining) {t : Download}
    (ht : s.join = some t) : Inv urls fileSize t := by
  rcases join_cases ht with ⟨e, rfl⟩ | ⟨hdone, rfl⟩
  · exact inv_of_main h rfl rfl rfl trivial
  · have hspawned := h.main
    unfold MainInv at hspawned
    rw [hmain] at hspawned
    exact inv_of_main h rfl rfl rfl ⟨hspawned, hdone⟩

/-- **What has been copied entirely** is assembled. -/
theorem assembled_of_copied (h : Inv urls fileSize s) (hurls : 0 < urls.length) (hpos : 0 < fileSize)
    (hmax : fileSize ≤ u64Max) (hcopied : Copied s [] []) : Assembled s := by
  have hdelivered : ∀ w, ∃ response, w ∈ s.workers → Delivered w response w.segment.expectedLen := fun w => by
    by_cases hw : w ∈ s.workers
    · have hphase := h.workers w hw
      unfold PhaseInv at hphase
      rw [hcopied.done w hw] at hphase
      obtain ⟨response, hr⟩ := hphase
      exact ⟨response, fun _ => hr⟩
    · exact ⟨⟨0, [], none⟩, fun hw' => absurd hw' hw⟩
  choose chosen hchosen using hdelivered
  have hfile : ∀ w ∈ s.workers, contents w = (chosen w).body.take w.segment.expectedLen := fun w hw => by
    unfold contents
    rw [(hchosen w hw).file]
    rfl
  have houtput : s.output = s.workers.flatMap fun w => (chosen w).body.take w.segment.expectedLen := by
    have hfiles := hcopied.files
    rw [List.flatMap_nil, List.append_nil, List.append_nil] at hfiles
    rw [hfiles]
    exact List.flatMap_congr hfile
  refine ⟨hcopied.spawned, ?_, chosen, fun w hw => ?_, houtput⟩
  · have hlengths : ∀ w ∈ s.workers, ((chosen w).body.take w.segment.expectedLen).length =
        w.segment.expectedLen := fun w hw => List.length_take_of_le (hchosen w hw).le_length
    have hspawned := hcopied.spawned
    unfold Spawned at hspawned
    rw [h.urls, h.fileSize] at hspawned
    rw [houtput, List.length_flatMap, List.map_congr_left hlengths, h.fileSize,
      ← sum_expectedLen hurls hpos hmax, ← hspawned, List.map_map]
    rfl
  · exact ⟨(hchosen w hw).mem, (hchosen w hw).status, (hchosen w hw).le_length⟩

theorem inv_assemble (h : Inv urls fileSize s) (hurls : 0 < urls.length) (hpos : 0 < fileSize)
    (hmax : fileSize ≤ u64Max) {outcome : Outcome} {t : Download} (ht : s.assemble outcome = some t) :
    Inv urls fileSize t := by
  have hmain := h.main
  unfold MainInv at hmain
  rcases assemble_cases ht with ⟨e, output, -, rfl⟩ | ⟨hphase, rfl⟩ | ⟨hphase, rfl⟩ |
    ⟨w, left, data, hphase, hfile, rfl⟩ | ⟨left, hphase, rfl⟩ | ⟨unread, left, n, hphase, rfl⟩ |
    ⟨hphase, rfl⟩
  · exact inv_of_main h rfl rfl rfl trivial
  · rw [hphase] at hmain
    exact inv_of_main h rfl rfl rfl ⟨hmain.1, hmain.2, rfl, rfl⟩
  · rw [hphase] at hmain
    exact inv_of_main h rfl rfl rfl ⟨hmain.spawned, hmain.done, hmain.files, hmain.hashed⟩
  · rw [hphase] at hmain
    have hdata : contents w = data := by
      unfold contents
      rw [hfile]
      rfl
    have hfiles := hmain.files
    rw [List.flatMap_cons, hdata, List.nil_append] at hfiles
    exact inv_of_main h rfl rfl rfl ⟨hmain.spawned, hmain.done, hfiles, hmain.hashed⟩
  · rw [hphase] at hmain
    exact inv_of_main h rfl rfl rfl ⟨hmain.spawned, hmain.done, hmain.files, hmain.hashed⟩
  · rw [hphase] at hmain
    refine inv_of_main h rfl rfl rfl ⟨hmain.spawned, hmain.done, ?_, ?_⟩
    · dsimp only
      rw [List.append_assoc, ← List.append_assoc (List.take _ unread), List.take_append_drop]
      exact hmain.files
    · dsimp only
      rw [hmain.hashed]
  · rw [hphase] at hmain
    obtain ⟨hspawned, hlength, hparts⟩ := assembled_of_copied h hurls hpos hmax hmain
    exact inv_of_main h rfl rfl rfl ⟨⟨hspawned, hlength, hparts⟩, hmain.hashed⟩

theorem inv_step (h : Inv urls fileSize s) (hurls : 0 < urls.length) (hpos : 0 < fileSize)
    (hmax : fileSize ≤ u64Max) {a : Action} {t : Download} (ht : s.step a = some t) : Inv urls fileSize t := by
  rcases step_cases ht with ⟨supports, rfl, -, rfl⟩ | ⟨i, event, rfl, hmain, ht'⟩ | ⟨rfl, hmain, ht'⟩ |
    ⟨outcome, rfl, ht'⟩
  · exact inv_onProbe h supports
  · exact inv_threadStep h hmain ht'
  · exact inv_join h hmain ht'
  · exact inv_assemble h hurls hpos hmax ht'

theorem sound_of_inv (h : Inv urls fileSize s) : Sound s := by
  have hmain := h.main
  unfold MainInv at hmain
  unfold Sound
  split
  · rename_i hphase
    rw [hphase] at hmain
    exact hmain
  · trivial

end Main

/-- **A segmented download** cuts the file into segments that partition it, and whatever the mirrors, the file
system and the order of the threads do, it succeeds only with an output that consists of the beginning of one
partial response for each segment, as long as the segment. -/
theorem segmented_download_sound {urls : List (List UInt8)} (hurls : urls ≠ []) {fileSize : ℕ}
    (hpos : 0 < fileSize) (hmax : fileSize ≤ u64Max) (actions : List Action) :
    Partition (segments urls.length fileSize) fileSize ∧
      Always Download.step Sound (.begin urls fileSize) actions := by
  have hlen : 0 < urls.length := List.length_pos_iff.mpr hurls
  refine ⟨segments_tile hlen hpos, ?_⟩
  exact (always_of_inv (fun _ _ _ h ht => inv_step h hlen hpos hmax ht)
    (inv_begin hurls fileSize)).mono fun _ => sound_of_inv

/-- One mirror sends the byte that it is asked for. -/
theorem segmented_download_one_byte : Partition (segments [text "a"].length 1) 1 ∧
    Always Download.step Sound (.begin [text "a"] 1)
      [.probe true, .thread 0 (.responded (.ok ⟨206, [7], none⟩)), .thread 0 (.created none),
        .thread 0 (.read 1), .thread 0 (.wrote none), .thread 0 (.read 1), .thread 0 (.flushed none), .join,
        .assemble (.succeeds 0), .assemble (.succeeds 0), .assemble (.succeeds 1), .assemble (.succeeds 1),
        .assemble (.succeeds 0), .assemble (.succeeds 0)] :=
  segmented_download_sound (by decide) (by decide) (by decide) _

/-- A download that has succeeded consists of whole bodies of partial responses. -/
def WholeBodies (s : Download) : Prop :=
  match s.main with
  | .returned (.ok _) => ∃ chosen : Worker → Response,
    (∀ w ∈ s.workers, chosen w ∈ w.responses ∧ (chosen w).status = 206) ∧
    s.output = s.workers.flatMap fun w => (chosen w).body
  | _ => True

/-- A mirror is asked for one byte and sends two. -/
def overlongRun : List Action :=
  [.probe true, .thread 0 (.responded (.ok ⟨206, [7, 8], none⟩)), .thread 0 (.created none),
    .thread 0 (.read 1), .thread 0 (.wrote none), .thread 0 (.read 1), .thread 0 (.flushed none), .join,
    .assemble (.succeeds 0), .assemble (.succeeds 0), .assemble (.succeeds 1), .assemble (.succeeds 1),
    .assemble (.succeeds 0), .assemble (.succeeds 0)]

/-- A body that goes on behind the segment is cut. -/
theorem overlong_body_cut : ¬ Always Download.step WholeBodies (.begin [text "a"] 1) overlongRun := by
  intro h
  let w : Worker := ⟨⟨0, 0, 0⟩, [], none, .finished (.ok ()), some [7], [⟨206, [7, 8], none⟩]⟩
  have hrun : run Download.step (.begin [text "a"] 1) overlongRun =
    some ⟨[text "a"], 1, [w], false, .returned (.ok [7]), [7], [7]⟩ := rfl
  obtain ⟨chosen, hmem, houtput⟩ := h.last hrun
  obtain ⟨hresponse, -⟩ := hmem w List.mem_cons_self
  have hbody : [7] = (chosen w).body := by rwa [List.flatMap_singleton] at houtput
  rw [List.mem_singleton.mp hresponse] at hbody
  cases hbody

end CncContent.Downloads.SegmentedSpec
