import CncContent.Coordinator.Delivery
import CncContent.Streaming.ReaderSpec

/-! # Playback during a download

A streaming reader over the file that a coordinator downloads in streaming mode. A worker that has marked its
piece done announces the range of it to the reader before it goes on, and any steps of the other workers and of
the reader may come between. What is announced are pieces that are done (`Inv`), so that the reader returns bytes
of the file only (`playback_genuine`); when the workers have stopped, all pieces they have fetched are announced
(`playback_available_iff`). -/

namespace CncContent.Streaming.Playback

open CncContent.Lib.Bounded CncContent.Lib.Bytes CncContent.Lib.Chunks CncContent.Lib.Overlay CncContent.Lib.Runs
open CncContent.Storage.File CncContent.Torrent.Info CncContent.Torrent.PieceMap
open CncContent.Coordinator CncContent.Coordinator.Worker CncContent.Coordinator.Run CncContent.Coordinator.Steps
open CncContent.Coordinator.Ownership CncContent.Coordinator.Contents CncContent.Coordinator.Resumption
open CncContent.Coordinator.Delivery
open CncContent.Streaming.ByteRanges CncContent.Streaming.ByteRangeSpec CncContent.Streaming.Reader
open CncContent.Streaming.ReaderSpec

/-! ### The system -/

/-- The download, the reader, and for each worker the range that it has still to announce. -/
structure Playing where
  download : State FileStorage
  reader : StreamingReader
  announcing : ℕ → Option ByteRange

inductive Action
  | worker (w : ℕ) (world : World)
  /-- The caller sets the cancel flag of the download. -/
  | stop
  | announce (w : ℕ)
  /-- A step of the reader, or its cancellation. -/
  | play (a : Reader.Action)

/-- What the range `piece_completed` is called with. -/
def completedRange (info : TorrentInfo) (p : ℕ) (data : List UInt8) : ByteRange :=
  ⟨info.pieceOffset p, satAdd u64Max (info.pieceOffset p) data.length⟩

/-- The range that a worker has to announce after its next step. -/
def toAnnounce (d : Download) : Option Pc → Option ByteRange
  | some (.markDone p data) => if d.config.streaming then some (completedRange d.info p data) else none
  | _ => none

/-- The reader is opened on the file that the download starts with. -/
def opened (d : Download) (s₀ : State FileStorage) (mapSize : ℕ) (ranges : List ByteRange) : Playing :=
  ⟨s₀, .newStreaming d.info.fileSize (view s₀.storage) mapSize ranges, fun _ => none⟩

/-- The actions of the player. -/
def ofPlayer : Reader.Action → Bool
  | .read _ | .advance .. | .seek _ | .cancel => true
  | .pieceCompleted _ | .markComplete | .store _ => false

def step (d : Download) (s : Playing) : Action → Option Playing
  | .worker w world =>
    if (s.announcing w).isSome then none
    else do
      let download ← Worker.step d.setup s.download (.worker w world)
      let reader ← s.reader.step (.store (view download.storage))
      return ⟨download, reader, fun v => if v = w then toAnnounce d s.download.workers[w]? else s.announcing v⟩
  | .stop => do
    let download ← Worker.step d.setup s.download .cancel
    return { s with download }
  | .announce w => do
    let range ← s.announcing w
    let reader ← s.reader.step (.pieceCompleted range)
    return { s with reader, announcing := fun v => if v = w then none else s.announcing v }
  | .play a =>
    if ofPlayer a then do
      let reader ← s.reader.step a
      return { s with reader }
    else none

/-! ### The steps of a worker -/

section Workers

variable {d : Download} {s₀ t t' : State FileStorage} {w : ℕ} {world : World}

/-- The range of the piece. -/
def pieceRange (info : TorrentInfo) (p : ℕ) : ByteRange :=
  ⟨info.pieceOffset p, info.pieceOffset p + info.pieceSize p⟩

/-- The download is in a state of a run from `s₀`. -/
def Reached (d : Download) (s₀ t : State FileStorage) : Prop :=
  ∃ actions, run (Worker.step d.setup) s₀ actions = some t

theorem Reached.step (h : Reached d s₀ t) {a : Worker.Action} (hs : Worker.step d.setup t a = some t') :
    Reached d s₀ t' := by
  obtain ⟨actions, hr⟩ := h
  exact ⟨actions ++ [a], run_concat hr hs⟩

/-- A piece becomes done when its worker marks it, and the other workers stay where they are. -/
theorem marked_of_step (hs : Worker.step d.setup t (.worker w world) = some t') :
    (∀ i, t.pieceMap.get i ≠ .done → t'.pieceMap.get i = .done → ∃ data, t.workers[w]? = some (.markDone i data)) ∧
      ∀ v, v ≠ w → t'.workers[v]? = t.workers[v]? := by
  rcases step_cases hs with ⟨hcancel, -⟩ | ⟨_, _, pc, pc', e, ha, hm⟩
  · cases hcancel
  cases ha
  refine ⟨fun i hne hdone => ?_, fun v hv => ?_⟩
  · rw [hm.pieceMap] at hdone
    obtain ⟨data, rfl⟩ := done_enables hne hdone hm.enables
    exact ⟨data, hm.worker⟩
  · rw [hm.workers]
    exact List.getElem?_set_ne (Ne.symm hv)

variable {verifiedPieces : Option (List Bool)} {checkpoint : Option (List UInt8)}
  (hbegin : begin d.setup verifiedPieces checkpoint = .ok s₀)

include hbegin

theorem done_of_reached (h : Reached d s₀ t) {i : ℕ} (hi : s₀.pieceMap.get i = .done) :
    t.pieceMap.get i = .done := by
  obtain ⟨actions, hr⟩ := h
  refine (inv_run (P := fun t => Safety.Inv d.setup t ∧ t.pieceMap.get i = .done) ?_ ⟨?_, hi⟩ hr).2
  · rintro t a t' ⟨hinv, hdone⟩ hs
    exact ⟨Safety.inv_step hinv hs, Safety.done_stays hinv hs hdone⟩
  · exact Safety.inv_start hbegin

theorem done_of_step (h : Reached d s₀ t) {a : Worker.Action} (hs : Worker.step d.setup t a = some t') {i : ℕ}
    (hi : t.pieceMap.get i = .done) : t'.pieceMap.get i = .done := by
  obtain ⟨actions, hr⟩ := h
  exact Safety.done_stays (Safety.inv_reachable hbegin hr) hs hi

/-- A worker that marks its piece has the range of it to announce. -/
theorem marks (hwf : d.info.WellFormed) (hgen : d.info.Genuine d.sha1) (h : Reached d s₀ t) {p : ℕ}
    {data : List UInt8} (hw : t.workers[w]? = some (.markDone p data))
    (hs : Worker.step d.setup t (.worker w world) = some t') :
    p < d.info.pieceCount ∧ t.pieceMap.get p ≠ .done ∧ t'.pieceMap.get p = .done ∧
      t'.workers[w]? = some (.success data) ∧ completedRange d.info p data = pieceRange d.info p := by
  obtain ⟨actions, hr⟩ := h
  have hi := Safety.inv_reachable hbegin hr
  have hp : p < d.info.pieceCount := hi.lt_of_holds hw rfl
  have hflight : t.pieceMap.get p = .inFlight := hi.owned.get_eq hw rfl
  have hstep : Worker.step d.setup t (.worker w world) =
      some { t with pieceMap := t.pieceMap.markDone p, workers := t.workers.set w (.success data) } := by
    unfold Worker.step
    dsimp only
    rw [hw]
    rfl
  obtain rfl := Option.some.inj (hstep.symm.trans hs)
  have hsize : data.length = d.info.pieceSize p :=
    length_of_verifyPiece (c := d.setup) hgen hp (hi.history.verifyPiece_of_lastEvents hw List.mem_cons_self)
  refine ⟨hp, ?_, ?_, ?_, ?_⟩
  · rw [hflight]
    decide
  · have hcount : t.pieceMap.pieceCount = d.info.pieceCount := hi.pieceCount
    exact SharedPieceMap.get_store_self (hcount ▸ hp) _
  · exact List.getElem?_set_self (List.getElem?_eq_some_iff.mp hw).1
  · have hend := (TorrentInfo.piece_end_le hwf hp).trans hwf.fileSize
    unfold completedRange pieceRange
    rw [hsize, satAdd_of_le hend]

end Workers

/-! ### The steps of the player -/

section Player

variable {r r' : StreamingReader}

theorem advance_frame {timeUp : Bool} {diskRead : Option ℕ} (hs : r.advance timeUp diskRead = some r') :
    r'.content = r.content ∧ r'.fileSize = r.fileSize ∧ r'.announced = r.announced := by
  unfold StreamingReader.advance at hs
  rcases hphase : r.phase with _ | ⟨n, k⟩ | ⟨n, k⟩ | ⟨n, k, timedOut⟩ | ⟨n, k⟩
  · rw [hphase] at hs
    cases hs
  · rw [hphase] at hs
    cases hs
    unfold StreamingReader.checkMap
    split_ifs <;> exact ⟨rfl, rfl, rfl⟩
  · rw [hphase] at hs
    cases hs
    unfold StreamingReader.wakeUp
    split_ifs <;> exact ⟨rfl, rfl, rfl⟩
  · rw [hphase] at hs
    cases hs
    unfold StreamingReader.afterWait
    split_ifs <;> exact ⟨rfl, rfl, rfl⟩
  · rw [hphase] at hs
    cases hs
    unfold StreamingReader.readFromDisk
    split_ifs
    · exact ⟨rfl, rfl, rfl⟩
    rcases diskRead with _ | count
    · exact ⟨rfl, rfl, rfl⟩
    dsimp only
    cases checkedAdd u64Max r.position (r.bytesRead k count).length <;> exact ⟨rfl, rfl, rfl⟩

/-- The player changes neither the file nor what has been announced. -/
theorem play_frame {a : Reader.Action} (ha : ofPlayer a = true) (hs : r.step a = some r') :
    r'.content = r.content ∧ r'.fileSize = r.fileSize ∧ r'.announced = r.announced := by
  cases a with
  | read bufLen =>
    unfold StreamingReader.step at hs
    split_ifs at hs
    cases hs
    unfold StreamingReader.read
    dsimp only
    split_ifs <;> exact ⟨rfl, rfl, rfl⟩
  | advance timeUp diskRead => exact advance_frame hs
  | seek pos =>
    unfold StreamingReader.step at hs
    split_ifs at hs
    cases hs
    unfold StreamingReader.seek
    cases r.newPos pos <;> exact ⟨rfl, rfl, rfl⟩
  | cancel =>
    cases hs
    exact ⟨rfl, rfl, rfl⟩
  | pieceCompleted range => cases ha
  | markComplete => cases ha
  | store content => cases ha

/-- What a read returns is sound, whatever seek calls there have been. -/
theorem soundRead_of_step (h : ReaderSpec.Inv r) {a : Reader.Action} (hs : r.step a = some r') {bufLen position : ℕ}
    {bytes : List UInt8} (hl : r'.last = some (.read bufLen position (.ok bytes))) :
    SoundRead r' bufLen position bytes := by
  have hsound : Negatable r a → SoundRead r' bufLen position bytes := by
    intro hneg
    have hlast := (step_spec h hs).2.mpr hneg
    unfold ReaderSpec.Sound at hlast
    rw [hl] at hlast
    exact hlast
  cases a with
  | seek pos =>
    unfold StreamingReader.step at hs
    split_ifs at hs
    cases hs
    unfold StreamingReader.seek at hl
    cases hp : r.newPos pos with
    | ok n =>
      rw [hp] at hl
      cases hl
    | err e =>
      rw [hp] at hl
      cases hl
    | overflow =>
      rw [hp] at hl
      cases hl
  | _ => exact hsound trivial

end Player

/-! ### The invariant -/

section Inv

/-- A piece that the workers have fetched. -/
def Fetched (d : Download) (s₀ t : State FileStorage) (r : ByteRange) : Prop :=
  ∃ i < d.info.pieceCount, s₀.pieceMap.get i ≠ .done ∧ t.pieceMap.get i = .done ∧ r = pieceRange d.info i

/-- What is announced, or will be, are the first ranges and the pieces that have been fetched. -/
structure Inv (d : Download) (s₀ : State FileStorage) (ranges : List ByteRange) (s : Playing) : Prop where
  reached : Reached d s₀ s.download
  reader : ReaderSpec.Inv s.reader
  content : s.reader.content = view s.download.storage
  fileSize : s.reader.fileSize = d.info.fileSize
  first : ∀ r ∈ ranges, r ∈ s.reader.announced
  announced : ∀ r ∈ s.reader.announced, r ∈ ranges ∨ Fetched d s₀ s.download r
  announcing : ∀ w r, s.announcing w = some r →
    Fetched d s₀ s.download r ∧ ∃ data, s.download.workers[w]? = some (.success data)
  told : d.config.streaming = true → ∀ i < d.info.pieceCount, s₀.pieceMap.get i ≠ .done →
    s.download.pieceMap.get i = .done →
      pieceRange d.info i ∈ s.reader.announced ∨ ∃ w, s.announcing w = some (pieceRange d.info i)

variable {d : Download} {s₀ : State FileStorage} {ranges : List ByteRange} {s s' : Playing}
  {verifiedPieces : Option (List Bool)} {checkpoint : Option (List UInt8)}
  (hbegin : begin d.setup verifiedPieces checkpoint = .ok s₀)

theorem inv_opened (hwf : d.info.WellFormed) (mapSize : ℕ) : Inv d s₀ ranges (opened d s₀ mapSize ranges) := by
  refine ⟨⟨[], rfl⟩, inv_newStreaming hwf.fileSize _ _ _, rfl, rfl, fun r hr => hr, fun r hr => Or.inl hr, nofun,
    fun _ i _ hne hdone => ?_⟩
  exact absurd hdone hne

include hbegin in
theorem Fetched.step {t t' : State FileStorage} {r : ByteRange} (h : Fetched d s₀ t r) (hr : Reached d s₀ t)
    {a : Worker.Action} (hs : Worker.step d.setup t a = some t') : Fetched d s₀ t' r := by
  obtain ⟨i, hi, hne, hdone, rfl⟩ := h
  exact ⟨i, hi, hne, done_of_step hbegin hr hs hdone, rfl⟩

include hbegin in
/-- What a worker has to announce after its step is the piece that it has marked. -/
theorem fetched_of_toAnnounce (hwf : d.info.WellFormed) (hgen : d.info.Genuine d.sha1) {t t' : State FileStorage}
    (h : Reached d s₀ t) {w : ℕ} {world : World} (hs : Worker.step d.setup t (.worker w world) = some t')
    {r : ByteRange} (hr : toAnnounce d t.workers[w]? = some r) :
    Fetched d s₀ t' r ∧ ∃ data, t'.workers[w]? = some (.success data) := by
  rcases hpc : t.workers[w]? with _ | pc
  · rw [hpc] at hr
    cases hr
  rw [hpc] at hr
  cases pc with
  | markDone p data =>
    obtain ⟨hp, hbefore, hafter, hsuccess, hrange⟩ := marks hbegin hwf hgen h hpc hs
    unfold toAnnounce at hr
    dsimp only at hr
    split_ifs at hr
    cases hr
    have hstart : s₀.pieceMap.get p ≠ .done := fun hdone => hbefore (done_of_reached hbegin h hdone)
    exact ⟨⟨p, hp, hstart, hafter, hrange⟩, data, hsuccess⟩
  | _ => cases hr

include hbegin in
/-- **A worker moves.** -/
theorem inv_worker (hwf : d.info.WellFormed) (hgen : d.info.Genuine d.sha1) (h : Inv d s₀ ranges s) {w : ℕ}
    {world : World} (hs : step d s (.worker w world) = some s') : Inv d s₀ ranges s' := by
  unfold step at hs
  dsimp only at hs
  split_ifs at hs with hfree
  obtain ⟨download, hdownload, hs⟩ := Option.bind_eq_some_iff.mp hs
  obtain ⟨reader, hreader, hs⟩ := Option.bind_eq_some_iff.mp hs
  cases hs
  cases hreader
  have hnone : s.announcing w = none := Option.not_isSome_iff_eq_none.mp hfree
  obtain ⟨hmarked, hothers⟩ := marked_of_step hdownload
  have hmono : ∀ r, Fetched d s₀ s.download r → Fetched d s₀ download r :=
    fun r hr => hr.step hbegin h.reached hdownload
  have hreader := (step_spec h.reader (a := .store (view download.storage)) rfl).1
  refine ⟨h.reached.step hdownload, hreader, rfl, h.fileSize, h.first,
    fun r hr => (h.announced r hr).imp_right (hmono r), fun v r hv => ?_, fun hstreaming i hi hne hdone => ?_⟩
  · dsimp only at hv
    split_ifs at hv with hvw
    · subst hvw
      exact fetched_of_toAnnounce hbegin hwf hgen h.reached hdownload hv
    · obtain ⟨hfetched, data, hdata⟩ := h.announcing v r hv
      exact ⟨hmono r hfetched, data, (hothers v hvw).trans hdata⟩
  · by_cases hbefore : s.download.pieceMap.get i = .done
    · rcases h.told hstreaming i hi hne hbefore with hmem | ⟨v, hv⟩
      · exact Or.inl hmem
      · have hvw : v ≠ w := by
          rintro rfl
          rw [hnone] at hv
          cases hv
        exact Or.inr ⟨v, (if_neg hvw).trans hv⟩
    · obtain ⟨data, hpc⟩ := hmarked i hbefore hdone
      obtain ⟨-, -, -, -, hrange⟩ := marks hbegin hwf hgen h.reached hpc hdownload
      refine Or.inr ⟨w, (if_pos rfl).trans ?_⟩
      rw [hpc]
      show (if d.config.streaming = true then some (completedRange d.info i data) else none) = _
      rw [if_pos hstreaming, hrange]

theorem inv_announce (h : Inv d s₀ ranges s) {w : ℕ} (hs : step d s (.announce w) = some s') :
    Inv d s₀ ranges s' := by
  obtain ⟨range, hrange, hs⟩ := Option.bind_eq_some_iff.mp hs
  obtain ⟨reader, hreader, hs⟩ := Option.bind_eq_some_iff.mp hs
  cases hs
  have hinv := (step_spec h.reader hreader).1
  change s.reader.pieceCompleted range = some reader at hreader
  unfold StreamingReader.pieceCompleted at hreader
  split_ifs at hreader
  cases hreader
  refine ⟨h.reached, hinv, h.content, h.fileSize, fun r hr => ?_, fun r hr => ?_, fun v r hv => ?_,
    fun hstreaming i hi hne hdone => ?_⟩
  · exact List.mem_append_left _ (h.first r hr)
  · rcases List.mem_append.mp hr with hr | hr
    · exact h.announced r hr
    · rw [List.mem_singleton.mp hr]
      exact Or.inr (h.announcing w range hrange).1
  · dsimp only at hv
    split_ifs at hv
    exact h.announcing v r hv
  · rcases h.told hstreaming i hi hne hdone with hmem | ⟨v, hv⟩
    · exact Or.inl (List.mem_append_left _ hmem)
    · by_cases hvw : v = w
      · subst hvw
        obtain rfl := Option.some.inj (hrange.symm.trans hv)
        exact Or.inl (List.mem_append_right _ List.mem_cons_self)
      · exact Or.inr ⟨v, (if_neg hvw).trans hv⟩

theorem inv_play (h : Inv d s₀ ranges s) {a : Reader.Action} (hs : step d s (.play a) = some s') :
    Inv d s₀ ranges s' := by
  unfold step at hs
  dsimp only at hs
  split_ifs at hs with ha
  obtain ⟨reader, hreader, hs⟩ := Option.bind_eq_some_iff.mp hs
  cases hs
  obtain ⟨hcontent, hsize, hannounced⟩ := play_frame ha hreader
  refine ⟨h.reached, (step_spec h.reader hreader).1, hcontent.trans h.content, hsize.trans h.fileSize, ?_, ?_,
    h.announcing, ?_⟩
  · dsimp only
    rw [hannounced]
    exact h.first
  · dsimp only
    rw [hannounced]
    exact h.announced
  · dsimp only
    rw [hannounced]
    exact h.told

theorem inv_stop (h : Inv d s₀ ranges s) (hs : step d s .stop = some s') : Inv d s₀ ranges s' := by
  have hcancel : Worker.step d.setup s.download .cancel = some { s.download with cancelFlag := true } := rfl
  have hreached := h.reached.step hcancel
  cases hs
  exact ⟨hreached, h.reader, h.content, h.fileSize, h.first, h.announced, h.announcing, h.told⟩

include hbegin in
/-- **Every step keeps the invariant.** -/
theorem inv_step (hwf : d.info.WellFormed) (hgen : d.info.Genuine d.sha1) {a : Action} (h : Inv d s₀ ranges s)
    (hs : step d s a = some s') : Inv d s₀ ranges s' := by
  cases a with
  | worker w world => exact inv_worker hbegin hwf hgen h hs
  | stop => exact inv_stop h hs
  | announce w => exact inv_announce h hs
  | play a => exact inv_play h hs

end Inv

/-! ### What is played -/

section Played

variable {sha1 : List UInt8 → Vector UInt8 20} {pieceLength : ℕ} {content : List UInt8} {d : Download}
  {checkpoint : Option (List UInt8)} {s₀ t : State FileStorage} {ranges : List ByteRange} {mapSize : ℕ}
  {actions : List Action} {s s' : Playing}

/-- A byte of a piece that is right is the byte of the file. -/
theorem getElem?_of_right (hfile : DownloadsFile sha1 pieceLength content d) {v : ℕ → UInt8} {i x : ℕ}
    (hi : i < d.info.pieceCount) (hright : Right d.setup v i) (hx : (pieceRange d.info i).Has x) :
    content[x]? = some (v x) := by
  obtain ⟨hstart, hstop⟩ := hx
  change d.info.pieceOffset i ≤ x at hstart
  change x < d.info.pieceOffset i + d.info.pieceSize i at hstop
  have hhash : d.info.pieceHash i = some (d.sha1 (pieceBytes d.info v i)) := hright
  rw [hfile.info] at hi hstart hstop
  obtain ⟨hoff, hlt, hblock⟩ := @block_of_lt sha1 _ _ hfile.pos hfile.length hfile.count i hi
  rw [hfile.info, hfile.digest, hblock] at hhash
  have hbytes := hfile.noCollision.eq hfile.pos hlt (Option.some.inj hhash).symm
  have hsize := @pieceSize_ofContent sha1 _ _ hfile.pos hfile.max hfile.length hfile.count i hi
  unfold pieceBytes at hbytes
  rw [hoff] at hstart hstop hbytes
  rw [hsize] at hstop hbytes
  have hk : x - i * pieceLength < min (content.length - i * pieceLength) pieceLength := by omega
  have hget := congrArg (fun l : List UInt8 => l[x - i * pieceLength]?) hbytes
  unfold window at hget
  rw [List.getElem?_map, List.getElem?_range hk, Option.map_some, List.getElem?_take_of_lt (by omega),
    List.getElem?_drop, Nat.add_sub_cancel' hstart] at hget
  exact hget.symm

/-- What the last step has read is sound. -/
def Sounding (s : Playing) : Prop :=
  ∀ bufLen position bytes, s.reader.last = some (.read bufLen position (.ok bytes)) →
    SoundRead s.reader bufLen position bytes

theorem sounding_step (h : Inv d s₀ ranges s) (hsound : Sounding s) {a : Action} (hs : step d s a = some s') :
    Sounding s' := by
  intro bufLen position bytes hlast
  cases a with
  | worker w world =>
    unfold step at hs
    dsimp only at hs
    split_ifs at hs
    obtain ⟨download, -, hs⟩ := Option.bind_eq_some_iff.mp hs
    obtain ⟨reader, hreader, hs⟩ := Option.bind_eq_some_iff.mp hs
    cases hs
    exact soundRead_of_step h.reader hreader hlast
  | stop =>
    cases hs
    exact hsound bufLen position bytes hlast
  | announce w =>
    obtain ⟨range, -, hs⟩ := Option.bind_eq_some_iff.mp hs
    obtain ⟨reader, hreader, hs⟩ := Option.bind_eq_some_iff.mp hs
    cases hs
    exact soundRead_of_step h.reader hreader hlast
  | play a =>
    unfold step at hs
    dsimp only at hs
    split_ifs at hs
    obtain ⟨reader, hreader, hs⟩ := Option.bind_eq_some_iff.mp hs
    cases hs
    exact soundRead_of_step h.reader hreader hlast

theorem inv_played (hwf : d.info.WellFormed) (hgen : d.info.Genuine d.sha1)
    {verifiedPieces : Option (List Bool)} (hbegin : begin d.setup verifiedPieces checkpoint = .ok s₀)
    (hrun : run (step d) (opened d s₀ mapSize ranges) actions = some s) : Inv d s₀ ranges s ∧ Sounding s := by
  refine inv_run (P := fun s => Inv d s₀ ranges s ∧ Sounding s) ?_ ⟨inv_opened hwf mapSize, nofun⟩ hrun
  rintro s a s' ⟨h, hsound⟩ hs
  exact ⟨inv_step hbegin hwf hgen h hs, sounding_step h hsound hs⟩

/-- **What can be played when the workers have stopped**, for whatever reason: the first ranges, and the pieces that
have been fetched. -/
theorem playback_available_iff (hfile : DownloadsFile sha1 pieceLength content d)
    {verifiedPieces : Option (List Bool)} (hbegin : begin d.setup verifiedPieces checkpoint = .ok s₀)
    (hstreaming : d.config.streaming = true)
    (hrun : run (step d) (opened d s₀ mapSize ranges) actions = some s) (hstopped : Stopped s.download) (x : ℕ) :
    s.reader.rangeMap.Available x ↔ (∃ r ∈ ranges, r.Has x) ∨ ∃ i < d.info.pieceCount,
      s₀.pieceMap.get i ≠ .done ∧ s.download.pieceMap.get i = .done ∧ (pieceRange d.info i).Has x := by
  obtain ⟨hinv, -⟩ := inv_played hfile.wellFormed hfile.genuine hbegin hrun
  rw [hinv.reader.available_iff]
  constructor
  · rintro ⟨r, hr, hx⟩
    rcases hinv.announced r hr with hfirst | ⟨i, hi, hne, hdone, rfl⟩
    · exact Or.inl ⟨r, hfirst, hx⟩
    · exact Or.inr ⟨i, hi, hne, hdone, hx⟩
  · rintro (⟨r, hr, hx⟩ | ⟨i, hi, hne, hdone, hx⟩)
    · exact ⟨r, hinv.first r hr, hx⟩
    · rcases hinv.told hstreaming i hi hne hdone with hmem | ⟨w, hw⟩
      · exact ⟨_, hmem, hx⟩
      · -- a worker that has a range to announce has not stopped
        obtain ⟨-, data, hpc⟩ := hinv.announcing w _ hw
        obtain ⟨held, hheld⟩ := hstopped _ (List.mem_of_getElem? hpc)
        cases hheld

/-! ### A file of two bytes -/

/-- Its download in streaming mode. -/
def twoByteStream (existing : Option (List UInt8)) : Download :=
  { twoByteCopy existing with config := ⟨2, 2, 0, 0, 0, true, true⟩ }

theorem downloadsFile_twoBytes {existing : Option (List UInt8)} :
    DownloadsFile sha1TwoBytes 1 [0xAA, 0xBB] (twoByteStream existing) :=
  ⟨rfl, rfl, by decide, by decide, by decide, by decide, noCollision_twoBytes⟩

/-- The first run has finished the first piece. -/
theorem sessions_twoByteStream :
    Sessions (twoByteStream (some [0xAA, 0x00])) (some [0xAA, 0x00]) (some firstDone) := by
  have hbegin :
      begin ((twoByteStream (some [0xAA, 0x00])).over none 2 ⟨none, none, none, none⟩ []).setup none none =
        .ok (start (twoByteStream none).setup (.new 2) ⟨[0x00, 0x00], []⟩ none) := rfl
  obtain ⟨s, hrun, hbytes, hcheckpoint⟩ : ∃ s, run (Worker.step (twoByteStream none).setup)
      (start (twoByteStream none).setup (.new 2) ⟨[0x00, 0x00], []⟩ none) (seeded 0 0xAA 25) = some s ∧
      s.storage.bytes = [0xAA, 0x00] ∧ s.checkpoint = some firstDone := ⟨_, rfl, rfl, rfl⟩
  exact sessions_of_run hbegin hrun hbytes hcheckpoint

def streamStart : State FileStorage :=
  start (twoByteStream (some [0xAA, 0x00])).setup ⟨[.done, .needed]⟩ ⟨[0xAA, 0x00], []⟩ (some firstDone)

theorem begin_streamStart :
    begin (twoByteStream (some [0xAA, 0x00])).setup none (some firstDone) = .ok streamStart := rfl

/-- The reader is opened with the range of the first piece. -/
def streamOpened : Playing := opened (twoByteStream (some [0xAA, 0x00])) streamStart 1 [⟨0, 1⟩]

/-- So many steps of a worker, with the second piece selected and fetched from a web seed. -/
def downloading (w n : ℕ) : List Action :=
  List.replicate n (.worker w ⟨[webSeed, webSeed], some 1, some [0xBB], true⟩)

/-- The reader reads the first byte, and waits for the second one until it is announced. -/
def waiting : List Action :=
  [.play (.read 1), .play (.advance false none), .play (.advance false (some 1)), .play (.read 4),
      .play (.advance false none)] ++ downloading 1 20 ++
    [.announce 1, .play (.advance false none), .play (.advance false none), .play (.advance false (some 1))]

theorem playback_available_iff_two_bytes : ∃ s,
    run (step (twoByteStream (some [0xAA, 0x00]))) streamOpened
      (waiting ++ downloading 1 8 ++ downloading 0 4) = some s ∧
    s.reader.rangeMap.Available 0 ∧ s.reader.rangeMap.Available 1 := by
  obtain ⟨s, hrun, hworkers, hdone⟩ : ∃ s,
      run (step (twoByteStream (some [0xAA, 0x00]))) streamOpened
        (waiting ++ downloading 1 8 ++ downloading 0 4) = some s ∧
      s.download.workers = List.replicate 2 (.stopped none) ∧ s.download.pieceMap.get 1 = .done :=
    ⟨_, rfl, rfl, rfl⟩
  have havailable := playback_available_iff downloadsFile_twoBytes begin_streamStart rfl hrun
    (stopped_of_workers hworkers)
  exact ⟨s, hrun, (havailable 0).mpr (Or.inl ⟨⟨0, 1⟩, List.mem_singleton_self _, by decide⟩),
    (havailable 1).mpr (Or.inr ⟨1, by decide, by decide, hdone, by decide⟩)⟩

end Played

end CncContent.Streaming.Playback
