import CncContent.Storage.Backend
import CncContent.Torrent.Info

/-! # Scrubbing

`StorageScrubber` of the source: every piece is read from a storage and compared with its hash, until a
deadline or the first error. The storage is in any state at each read and the clock shows any time at
each check. The verdicts are right (`scrub_report`): the offsets and lengths of the scan, computed anew,
are those of the pieces. -/

namespace CncContent.Storage.Scrub

open CncContent.Lib.Bounded CncContent.Storage.Backend CncContent.Torrent.Info

structure ScrubConfig where
  continueOnError : Bool
  deadline : Option ℕ
deriving DecidableEq, Repr

inductive PieceHealth
  | healthy
  | corrupt (expected actual : List UInt8)
  | unreadable (detail : String)
  | skipped
deriving DecidableEq, Repr

inductive StopReason
  | firstError
  | deadlineReached
deriving DecidableEq, Repr

inductive ScrubProgress
  | pieceChecked (pieceIndex : ℕ) (health : PieceHealth) (checked total : ℕ)
  | stopped (checked total : ℕ) (reason : StopReason)
deriving DecidableEq, Repr

structure ScrubReport where
  pieces : List PieceHealth
  elapsed : ℕ
deriving DecidableEq, Repr

/-- What a pass ends with. -/
inductive Scrubbed
  | report (r : ScrubReport)
  | noPieceHashes
  | panicked
deriving DecidableEq, Repr

/-- What a pass works with: the torrent, the storage with its state when each piece is read, and the time
since the start when each piece is about to be checked, and at the end. -/
structure StorageScrubber (σ : Type) where
  info : TorrentInfo
  config : ScrubConfig
  sha1 : List UInt8 → List UInt8
  storage : PieceStorage σ
  state : ℕ → σ
  elapsed : ℕ → ℕ
  finished : ℕ

namespace StorageScrubber

variable {σ : Type} (s : StorageScrubber σ)

/-- A buffer that exceeds the largest size of an allocation panics. -/
def verifyPiece (pieceIndex offset length : ℕ) : Option PieceHealth :=
  if isizeMax < length then none
  else
    match s.storage.readPiece (s.state pieceIndex) offset length with
    | .error e =>
      let source := e.display
      some (.unreadable s!"I/O error reading piece {pieceIndex}: {source}")
    | .ok buf =>
      let n := buf.length
      if n ≠ length then
        some (.unreadable s!"short read for piece {pieceIndex}: expected {length} bytes, got {n}")
      else
        let actual := s.sha1 buf
        match s.info.pieceHash pieceIndex with
        | none => some (.unreadable s!"no expected hash for piece {pieceIndex}")
        | some expected => some (if actual = expected then .healthy else .corrupt expected actual)

/-- The last piece may be shorter. -/
def thisPieceLen (i : ℕ) : ℕ :=
  let offset := satMul u64Max i s.info.pieceLength
  if i = s.info.pieceCount - 1 then min (s.info.fileSize - offset) s.info.pieceLength
  else s.info.pieceLength

/-- The deadline is over when the piece is about to be checked. -/
def Expired (i : ℕ) : Prop := ∃ deadline ∈ s.config.deadline, deadline ≤ s.elapsed i

instance (i : ℕ) : Decidable (s.Expired i) := by unfold Expired; infer_instance

/-- The remaining pieces are filled in as skipped. -/
def stop (results : List PieceHealth) : Scrubbed :=
  .report ⟨results ++ List.replicate (s.info.pieceCount - results.length) .skipped, s.finished⟩

/-- The loop over the pieces from `i` on, with the results and the progress events so far. -/
def scrubFrom : ℕ → ℕ → List PieceHealth → List ScrubProgress → Scrubbed × List ScrubProgress
  | 0, _, results, events => (.report ⟨results, s.finished⟩, events)
  | n + 1, i, results, events =>
    if s.Expired i then
      (s.stop results, events ++ [.stopped i s.info.pieceCount .deadlineReached])
    else
      match s.verifyPiece i (satMul u64Max i s.info.pieceLength) (s.thisPieceLen i) with
      | none => (.panicked, events)
      | some health =>
        let results := results ++ [health]
        let events := events ++ [.pieceChecked i health (i + 1) s.info.pieceCount]
        if health ≠ .healthy ∧ s.config.continueOnError = false then
          (s.stop results, events ++ [.stopped (i + 1) s.info.pieceCount .firstError])
        else scrubFrom n (i + 1) results events

def scrub : Scrubbed × List ScrubProgress :=
  if s.info.pieceCount = 0 then (.noPieceHashes, []) else s.scrubFrom s.info.pieceCount 0 [] []

end StorageScrubber

/-! ### Verdicts -/

namespace StorageScrubber

variable {σ : Type} (s : StorageScrubber σ)

/-- The length of a piece, not cut to 32 bits. -/
def pieceBytes (i : ℕ) : ℕ := min (s.info.fileSize - s.info.pieceOffset i) s.info.pieceLength

/-- The piece was read in full. -/
def ReadInFull (i : ℕ) (buf : List UInt8) : Prop :=
  s.storage.readPiece (s.state i) (s.info.pieceOffset i) (s.pieceBytes i) = .ok buf ∧
    buf.length = s.pieceBytes i

/-- What a piece is reported as, and why. -/
structure Verdict (i : ℕ) (health : PieceHealth) : Prop where
  healthy : health = .healthy ↔
    ∃ buf, s.ReadInFull i buf ∧ s.info.pieceHash i = some (s.sha1 buf)
  corrupt : ∀ expected actual, health = .corrupt expected actual ↔
    ∃ buf, s.ReadInFull i buf ∧ s.info.pieceHash i = some expected ∧ s.sha1 buf = actual ∧
      expected ≠ actual
  unreadable : (∃ detail, health = .unreadable detail) ↔ ¬ ∃ buf, s.ReadInFull i buf

/-- The report of a pass: the verdicts of the pieces that were checked, then the skipped ones. -/
structure Reports (report : ScrubReport) (checked : ℕ) : Prop where
  length : report.pieces.length = s.info.pieceCount
  checked_le : checked ≤ s.info.pieceCount
  verdict : ∀ i < checked, ∃ health, report.pieces[i]? = some health ∧ s.Verdict i health
  skipped : ∀ i, checked ≤ i → i < s.info.pieceCount → report.pieces[i]? = some .skipped
  all : s.config.continueOnError = true → s.config.deadline = none → checked = s.info.pieceCount
  firstError : s.config.continueOnError = false →
    ∀ i, i + 1 < checked → report.pieces[i]? = some .healthy

variable {s}

/-- **The offsets and lengths of the scan** are those of the pieces. -/
theorem thisPieceLen_eq (h : s.info.WellFormed) {i : ℕ} (hi : i < s.info.pieceCount) :
    s.thisPieceLen i = s.pieceBytes i := by
  obtain ⟨hoff, hlt⟩ := TorrentInfo.pieceOffset_eq h hi
  unfold thisPieceLen pieceBytes
  dsimp only
  split_ifs with hlast
  · rfl
  · -- The next piece starts in the file, so that this one is full.
    have hnext := (TorrentInfo.pieceOffset_eq h (show i + 1 < s.info.pieceCount by omega)).2
    rw [Nat.succ_mul] at hnext
    omega

theorem pieceSize_eq (i : ℕ) (h : s.pieceBytes i < 2 ^ 32) : s.info.pieceSize i = s.pieceBytes i :=
  asU32_of_lt h

theorem ReadInFull.unique {i : ℕ} {buf buf' : List UInt8} (h : s.ReadInFull i buf)
    (h' : s.ReadInFull i buf') : buf = buf' :=
  Except.ok.inj (h.1.symm.trans h'.1)

theorem verdict_of_not_read {i : ℕ} (h : ¬ ∃ buf, s.ReadInFull i buf) (detail : String) :
    s.Verdict i (.unreadable detail) where
  healthy := ⟨nofun, fun ⟨buf, hread, _⟩ => absurd ⟨buf, hread⟩ h⟩
  corrupt _ _ := ⟨nofun, fun ⟨buf, hread, _⟩ => absurd ⟨buf, hread⟩ h⟩
  unreadable := ⟨fun _ => h, fun _ => ⟨detail, rfl⟩⟩

theorem verdict_of_read {i : ℕ} {buf hash : List UInt8} (hread : s.ReadInFull i buf)
    (hhash : s.info.pieceHash i = some hash) :
    s.Verdict i (if s.sha1 buf = hash then .healthy else .corrupt hash (s.sha1 buf)) := by
  split_ifs with hsame
  · refine ⟨⟨fun _ => ⟨buf, hread, hsame ▸ hhash⟩, fun _ => rfl⟩, fun expected actual => ⟨nofun, ?_⟩,
      ⟨nofun, fun hnot => absurd ⟨buf, hread⟩ hnot⟩⟩
    rintro ⟨buf', hread', hhash', rfl, hne⟩
    rw [← hread.unique hread', hsame] at hne
    exact absurd (Option.some.inj (hhash'.symm.trans hhash)) hne
  · refine ⟨⟨nofun, ?_⟩, fun expected actual => ⟨?_, ?_⟩,
      ⟨nofun, fun hnot => absurd ⟨buf, hread⟩ hnot⟩⟩
    · rintro ⟨buf', hread', hhash'⟩
      rw [← hread.unique hread'] at hhash'
      exact absurd (Option.some.inj (hhash'.symm.trans hhash)) hsame
    · intro he
      cases he
      exact ⟨buf, hread, hhash, rfl, Ne.symm hsame⟩
    · rintro ⟨buf', hread', hhash', rfl, -⟩
      rw [← hread.unique hread', Option.some.inj (hhash'.symm.trans hhash)]

/-- A piece that can be read into a buffer has a verdict. -/
theorem verifyPiece_spec (h : s.info.WellFormed) {i : ℕ} (hi : i < s.info.pieceCount)
    (hfit : s.pieceBytes i ≤ isizeMax) : ∃ health, s.verifyPiece i
      (satMul u64Max i s.info.pieceLength) (s.thisPieceLen i) = some health ∧ s.Verdict i health := by
  obtain ⟨hash, hhash⟩ := TorrentInfo.exists_pieceHash hi
  have hoff : satMul u64Max i s.info.pieceLength = s.info.pieceOffset i := rfl
  rw [thisPieceLen_eq h hi, hoff, verifyPiece, if_neg (Nat.not_lt.mpr hfit)]
  cases hread : s.storage.readPiece (s.state i) (s.info.pieceOffset i) (s.pieceBytes i) with
  | error e =>
    refine ⟨_, rfl, verdict_of_not_read ?_ _⟩
    rintro ⟨buf, hbuf, -⟩
    rw [hread] at hbuf
    cases hbuf
  | ok buf =>
    dsimp only
    by_cases hlen : buf.length = s.pieceBytes i
    · rw [if_neg (not_not.mpr hlen), hhash]
      exact ⟨_, rfl, verdict_of_read ⟨hread, hlen⟩ hhash⟩
    · rw [if_pos hlen]
      refine ⟨_, rfl, verdict_of_not_read ?_ _⟩
      rintro ⟨buf', hbuf, hlen'⟩
      rw [hread] at hbuf
      cases hbuf
      exact hlen hlen'

/-! ### The pass -/

variable (s) in
/-- What the loop has found about the pieces in front of the next one. -/
structure Scanned (results : List PieceHealth) : Prop where
  length_le : results.length ≤ s.info.pieceCount
  verdict : ∀ i health, results[i]? = some health → s.Verdict i health
  firstError : s.config.continueOnError = false →
    ∀ i, i + 1 < results.length → results[i]? = some .healthy

/-- **The report of the results so far**: the remaining pieces are skipped. -/
theorem reports_stop {results : List PieceHealth} (h : s.Scanned results)
    (hall : s.config.continueOnError = true → s.config.deadline = none →
      results.length = s.info.pieceCount) :
    ∃ report, s.stop results = .report report ∧ s.Reports report results.length := by
  refine ⟨_, rfl, ?_, h.length_le, fun i hi => ?_, fun i hle hlt => ?_, hall, fun hfalse i hi => ?_⟩
  · rw [List.length_append, List.length_replicate]
    have := h.length_le
    omega
  · rw [List.getElem?_append_left hi, List.getElem?_eq_getElem hi]
    exact ⟨_, rfl, h.verdict i _ (List.getElem?_eq_getElem hi)⟩
  · rw [List.getElem?_append_right hle, List.getElem?_replicate, if_pos (by omega)]
  · rw [List.getElem?_append_left (Nat.lt_of_succ_lt hi)]
    exact h.firstError hfalse i hi

/-- The deadline has passed. -/
theorem reports_expired {results : List PieceHealth} (h : s.Scanned results) {i : ℕ} (hexp : s.Expired i) :
    ∃ report, s.stop results = .report report ∧ s.Reports report results.length :=
  reports_stop h fun _ hnone => by
    obtain ⟨deadline, hmem, -⟩ := hexp
    rw [hnone] at hmem
    cases hmem

/-- The pass stops at the first piece that is bad. -/
theorem reports_bad {results : List PieceHealth} (h : s.Scanned results)
    (hfalse : s.config.continueOnError = false) :
    ∃ report, s.stop results = .report report ∧ s.Reports report results.length :=
  reports_stop h fun htrue => by
    rw [hfalse] at htrue
    cases htrue

/-- There are no pieces left. -/
theorem reports_all {results : List PieceHealth} (h : s.Scanned results)
    (hlen : results.length = s.info.pieceCount) :
    s.Reports ⟨results, s.finished⟩ results.length := by
  obtain ⟨report, hreport, hspec⟩ := reports_stop h fun _ _ => hlen
  rw [stop, hlen, Nat.sub_self, List.replicate_zero, List.append_nil] at hreport
  cases hreport
  exact hspec

variable (s) in
/-- No piece was bad, if a bad one stops the pass. -/
def Unstopped (results : List PieceHealth) : Prop :=
  s.config.continueOnError = false → ∀ health ∈ results, health = .healthy

theorem Unstopped.append {results : List PieceHealth} (h : s.Unstopped results) {health : PieceHealth}
    (hgood : ¬ (health ≠ .healthy ∧ s.config.continueOnError = false)) :
    s.Unstopped (results ++ [health]) := by
  intro hfalse health' hmem
  rcases List.mem_append.mp hmem with hmem | hmem
  · exact h hfalse health' hmem
  · rw [List.mem_singleton.mp hmem]
    by_contra hbad
    exact hgood ⟨hbad, hfalse⟩

/-- One piece more. -/
theorem Scanned.append {results : List PieceHealth} (h : s.Scanned results)
    (hlt : results.length < s.info.pieceCount) (hunstopped : s.Unstopped results)
    {health : PieceHealth} (hverdict : s.Verdict results.length health) :
    s.Scanned (results ++ [health]) where
  length_le := by
    rw [List.length_append, List.length_singleton]
    exact hlt
  verdict i health' hget := by
    rcases Nat.lt_or_ge i results.length with hi | hi
    · rw [List.getElem?_append_left hi] at hget
      exact h.verdict i health' hget
    · rw [List.getElem?_append_right hi, List.getElem?_singleton] at hget
      split_ifs at hget with hzero
      cases hget
      rwa [show i = results.length by omega]
  firstError hfalse i hi := by
    rw [List.length_append, List.length_singleton] at hi
    have hi' : i < results.length := by omega
    rw [List.getElem?_append_left hi', List.getElem?_eq_getElem hi',
      hunstopped hfalse _ (List.getElem_mem hi')]

/-- **The loop**, by induction on the number of pieces that are left. -/
theorem scrubFrom_spec (hwf : s.info.WellFormed)
    (hfit : ∀ i < s.info.pieceCount, s.pieceBytes i ≤ isizeMax) :
    ∀ (n : ℕ) (results : List PieceHealth) (events : List ScrubProgress), s.Scanned results →
      s.Unstopped results → results.length + n = s.info.pieceCount →
      ∃ report checked, (s.scrubFrom n results.length results events).1 = .report report ∧
        s.Reports report checked := by
  intro n
  induction n with
  | zero => exact fun results events h _ hlen => ⟨_, _, rfl, reports_all h hlen⟩
  | succ n ih =>
    intro results events h hunstopped hlen
    have hlt : results.length < s.info.pieceCount := by omega
    unfold scrubFrom
    by_cases hexp : s.Expired results.length
    · rw [if_pos hexp]
      obtain ⟨report, hreport, hspec⟩ := reports_expired h hexp
      exact ⟨report, _, hreport, hspec⟩
    · obtain ⟨health, hcheck, hverdict⟩ := verifyPiece_spec hwf hlt (hfit _ hlt)
      have happend := h.append hlt hunstopped hverdict
      rw [if_neg hexp, hcheck]
      dsimp only
      split_ifs with herror
      · obtain ⟨report, hreport, hspec⟩ := reports_bad happend herror.2
        exact ⟨report, _, hreport, hspec⟩
      · have hlen' : (results ++ [health]).length = results.length + 1 := List.length_append
        have hnext := ih (results ++ [health])
          (events ++ [.pieceChecked results.length health (results.length + 1) s.info.pieceCount])
          happend (hunstopped.append herror) (by omega)
        rwa [hlen'] at hnext

end StorageScrubber

/-- **What a pass reports.** A torrent without pieces is refused; for every other one whose pieces fit in
memory each verdict is that of the piece. -/
theorem scrub_report {σ : Type} (s : StorageScrubber σ) (hwf : s.info.WellFormed) :
    (s.info.pieceCount = 0 → s.scrub.1 = .noPieceHashes) ∧
      (s.info.pieceCount ≠ 0 → min s.info.fileSize s.info.pieceLength ≤ isizeMax →
        ∃ report checked, s.scrub.1 = .report report ∧ s.Reports report checked) ∧
      ∀ i, s.pieceBytes i < 2 ^ 32 → s.info.pieceSize i = s.pieceBytes i := by
  unfold StorageScrubber.scrub
  refine ⟨fun hzero => by rw [if_pos hzero], fun hne hfit => ?_,
    fun i => StorageScrubber.pieceSize_eq i⟩
  rw [if_neg hne]
  refine StorageScrubber.scrubFrom_spec hwf (fun i _ => ?_) s.info.pieceCount [] [] ?_ nofun
    (Nat.zero_add _)
  · unfold StorageScrubber.pieceBytes
    omega
  · exact ⟨Nat.zero_le _, nofun, nofun⟩

/-- The digest of the bytes 1, 2, 3 and 4. -/
def digest1234 : List UInt8 :=
  [0x12, 0xda, 0xda, 0x1f, 0xff, 0x4d, 0x47, 0x87, 0xad, 0xe3,
    0x33, 0x31, 0x47, 0x20, 0x2c, 0x3b, 0x44, 0x3e, 0x37, 0x6f]

/-- A torrent of two pieces, of which the storage has lost the second one. -/
def halfLost : StorageScrubber (List UInt8) where
  info := ⟨4, digest1234 ++ List.replicate 20 0, 6⟩
  config := ⟨true, none⟩
  sha1 d := if d = [1, 2, 3, 4] then digest1234 else List.replicate 20 0
  storage := memoryStorage
  state _ := [1, 2, 3, 4]
  elapsed _ := 0
  finished := 0

theorem scrub_report_halfLost : ∃ report checked, halfLost.scrub.1 = .report report ∧
    halfLost.Reports report checked :=
  (scrub_report halfLost ⟨by decide, by decide, by decide⟩).2.1 (by decide) (by decide)

/-- A torrent without pieces. -/
def noPieces : StorageScrubber (List UInt8) := { halfLost with info := ⟨4, [], 0⟩ }

/-- A well-formed torrent without pieces has no report. -/
theorem noPieces_refused : noPieces.info.WellFormed ∧ noPieces.scrub.1 = .noPieceHashes ∧
    ¬ ∃ report, noPieces.scrub.1 = .report report := by
  have hrefused : noPieces.scrub.1 = .noPieceHashes := by decide
  refine ⟨⟨by decide, by decide, by decide⟩, hrefused, ?_⟩
  rintro ⟨report, hreport⟩
  rw [hrefused] at hreport
  cases hreport

end CncContent.Storage.Scrub
