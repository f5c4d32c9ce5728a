import CncContent.Storage.Coalescing
import CncContent.Lib.Runs
import Mathlib.Data.List.Sort

/-! # What a flush vouches for

In a run whose calls never lose an accepted write (`KeepsAccepted`), a successful `flush` vouches
for every accepted write: the inner storage has performed it, and if the writes are pairwise
disjoint the bytes are those of the accepted writes in call order (`flush_vouches`). The accounting
is by multisets: what was accepted is contained in what has been delivered and what is still
buffered (`Accounted`). A drain cut short by the inner storage breaks it: the rest of the buffer is
dropped, and the next flush returns `Ok` on an empty buffer (`flush_after_failed_flush`).

The buffer stays under the threshold unless that is 0 and a write carries bytes
(`under_threshold_iff`). -/

namespace CncContent.Storage.CoalescingSpec

open CncContent.Lib.Bounded CncContent.Lib.Overlay CncContent.Lib.Runs
open CncContent.Storage.Backend CncContent.Storage.Coalescing

variable {σ : Type} {S : PieceStorage σ}

/-- The writes of a list, as an overlay. -/
abbrev applyAll (c : ℕ → UInt8) (ws : List BufferedWrite) : ℕ → UInt8 :=
  overlayAll BufferedWrite.offset BufferedWrite.data c ws

/-- The write covers the byte. -/
abbrev Touches (w : BufferedWrite) (x : ℕ) : Prop :=
  CoversAt BufferedWrite.offset BufferedWrite.data w x

/-! ### The drain -/

theorem perm_sortByOffset (ws : List BufferedWrite) : (sortByOffset ws).Perm ws :=
  List.perm_insertionSort _ _

/-- The part of a drain that is delivered. -/
def deliveredPart (S : PieceStorage σ) : σ → List BufferedWrite → List BufferedWrite
  | _, [] => []
  | inner, w :: ws =>
    match S.writePiece inner w.pieceIndex w.offset w.data with
    | (.ok _, inner') => w :: deliveredPart S inner' ws
    | (.error _, _) => []

theorem deliveredPart_append : ∀ (ws : List BufferedWrite) (inner : σ),
    deliveredPart S inner ws ++ undelivered S inner ws = ws
  | [], _ => rfl
  | w :: ws, inner => by
    unfold deliveredPart undelivered
    rcases S.writePiece inner w.pieceIndex w.offset w.data with ⟨_ | _, inner'⟩
    · rfl
    · simp only [List.cons_append]
      rw [deliveredPart_append ws inner']

/-- **One drain**: the inner storage gets the delivered part, and the loop returns `Ok` exactly if
nothing is left over. -/
theorem drain_logged : ∀ (ws : List BufferedWrite) (inner : σ) (log : List BufferedWrite),
    (drain (logged S) (inner, log) ws).2.2 = log ++ deliveredPart S inner ws ∧
      ((drain (logged S) (inner, log) ws).1 = .ok () ↔ undelivered S inner ws = [])
  | [], _, _ => by simp [drain, deliveredPart, undelivered]
  | w :: ws, inner, log => by
    unfold drain deliveredPart undelivered logged
    dsimp only
    rcases S.writePiece inner w.pieceIndex w.offset w.data with ⟨e | u, inner'⟩
    · simp
    · obtain ⟨h1, h2⟩ := drain_logged ws inner' (log ++ [w])
      simp only [logged] at h1 h2
      exact ⟨by rw [h1]; simp, h2⟩

/-- **The bytes after a drain** are those of the delivered part, outside what was not delivered. -/
theorem view_drain {view : σ → ℕ → UInt8} (hS : S.Lawful view) {x : ℕ} :
    ∀ (ws : List BufferedWrite) (inner : σ) (log : List BufferedWrite),
      (∀ w ∈ undelivered S inner ws, ¬ Touches w x) →
        view (drain (logged S) (inner, log) ws).2.1 x =
          applyAll (view inner) (deliveredPart S inner ws) x
  | [], _, _, _ => rfl
  | w :: ws, inner, log, h => by
    have hok := hS.write_ok inner w.pieceIndex w.offset w.data
    have herr := hS.write_error inner w.pieceIndex w.offset w.data x
    unfold drain logged
    unfold deliveredPart
    unfold undelivered at h
    dsimp only
    rcases hw : S.writePiece inner w.pieceIndex w.offset w.data with ⟨e | u, inner'⟩
    · rw [hw] at h herr
      exact herr (h w (by simp))
    · rw [hw] at h hok
      have ih := view_drain hS ws inner' (log ++ [w]) h
      rw [hok rfl] at ih
      exact ih

/-! ### The buffer -/

/-- What `flush_buffer` does, drain and final flush together. -/
theorem flushBuffer_spec (st : CoalescingStorage (σ × List BufferedWrite)) :
    let ws := sortByOffset st.buffer
    let st' := (flushBuffer (logged S) st).2
    st'.inner.2 = st.inner.2 ++ deliveredPart S st.inner.1 ws ∧ st'.buffer = [] ∧
      st'.flushThreshold = st.flushThreshold ∧
      ((flushBuffer (logged S) st).1 = .ok () → undelivered S st.inner.1 ws = []) ∧
      ∀ view : σ → ℕ → UInt8, S.Lawful view → ∀ x,
        (∀ w ∈ undelivered S st.inner.1 ws, ¬ Touches w x) →
          view st'.inner.1 x = applyAll (view st.inner.1) (deliveredPart S st.inner.1 ws) x := by
  obtain ⟨⟨inner, log⟩, buffer, thr⟩ := st
  obtain ⟨hlog, hok⟩ := drain_logged (S := S) (sortByOffset buffer) inner log
  have hview := fun (view : σ → ℕ → UInt8) (hS : S.Lawful view) (x : ℕ) =>
    view_drain hS (x := x) (sortByOffset buffer) inner log
  unfold flushBuffer
  dsimp only
  split_ifs with hnil
  · subst hnil
    simp [sortByOffset, deliveredPart, undelivered]
  · rcases hd : drain (logged S) (inner, log) (sortByOffset buffer) with ⟨e | u, inner', log'⟩
    · rw [hd] at hlog hview
      exact ⟨hlog, rfl, rfl, by simp, hview⟩
    · rw [hd] at hlog hok hview
      refine ⟨hlog, rfl, rfl, fun _ => hok.mp rfl, fun view hS x hx => ?_⟩
      show view (S.flush inner').2 x = _
      rw [hS.flush]
      exact hview view hS x hx

/-! ### The accounting -/

/-- **The accounting**, by occurrences: what was accepted has been delivered or is still buffered,
nothing else is, and outside the rejected writes the bytes are those of the delivered ones. -/
structure Accounted (S : PieceStorage σ) (inner₀ : σ) (s : Session σ) : Prop where
  kept : ∀ w, s.accepted.count w ≤ s.delivered.count w + s.storage.buffer.count w
  known : ∀ w, s.delivered.count w + s.storage.buffer.count w ≤
    s.accepted.count w + s.rejected.count w
  flushed : s.flushed = true → s.storage.buffer = []
  bytes : ∀ view : σ → ℕ → UInt8, S.Lawful view → ∀ x, (∀ w ∈ s.rejected, ¬ Touches w x) →
    view s.storage.inner.1 x = applyAll (view inner₀) s.delivered x

theorem accounted_start (inner₀ : σ) (thr : ℕ) : Accounted S inner₀ (Session.start inner₀ thr) :=
  ⟨fun _ => Nat.zero_le _, fun _ => le_rfl, nofun, fun _ _ _ _ => rfl⟩

/-- The accounting of a call that drains the buffer `ws`, the old one with the writes `acc` and
`rej`, and loses none but those of `rej`. -/
theorem accounted_drain {inner₀ : σ} {s s' : Session σ} (h : Accounted S inner₀ s)
    {ws : List BufferedWrite} (acc rej : List BufferedWrite)
    (hacc : s'.accepted = s.accepted ++ acc) (hrej : s'.rejected = s.rejected ++ rej)
    (hstorage : s'.storage = (flushBuffer (logged S) { s.storage with buffer := ws }).2)
    (hws : ws = s.storage.buffer ++ (acc ++ rej))
    (hun : (undelivered S s.storage.inner.1 (sortByOffset ws)).Subperm rej) :
    Accounted S inner₀ s' := by
  obtain ⟨hlog, hbuf, -, -, hview⟩ := flushBuffer_spec (S := S) { s.storage with buffer := ws }
  rw [← hstorage] at hlog hbuf hview
  dsimp only at hlog hview
  set part := deliveredPart S s.storage.inner.1 (sortByOffset ws) with hpart
  have hdel : s'.delivered = s.delivered ++ part := hlog
  have hcount : ∀ w, part.count w +
      (undelivered S s.storage.inner.1 (sortByOffset ws)).count w =
        s.storage.buffer.count w + (acc.count w + rej.count w) := by
    intro w
    rw [← List.count_append, ← List.count_append, ← List.count_append, ← hws, hpart,
      deliveredPart_append, (perm_sortByOffset ws).count_eq]
  have hlost : ∀ w, (undelivered S s.storage.inner.1 (sortByOffset ws)).count w ≤ rej.count w :=
    fun w => hun.count_le w
  refine ⟨fun w => ?_, fun w => ?_, fun _ => hbuf, fun view hS x hx => ?_⟩
  · have h1 := h.kept w
    have h2 := hcount w
    have h3 := hlost w
    rw [hacc, hdel, hbuf, List.count_append, List.count_append, List.count_nil]
    omega
  · have h1 := h.known w
    have h2 := hcount w
    rw [hacc, hrej, hdel, hbuf, List.count_append, List.count_append, List.count_append,
      List.count_nil]
    omega
  · have hold : ∀ w ∈ s.rejected, ¬ Touches w x := fun w hw => hx w (by rw [hrej]; simp [hw])
    have hnew : ∀ w ∈ undelivered S s.storage.inner.1 (sortByOffset ws), ¬ Touches w x :=
      fun w hw => hx w (by rw [hrej]; exact List.mem_append_right _ (hun.subset hw))
    rw [hview view hS x hnew, hdel]
    show _ = overlayAll _ _ _ (s.delivered ++ part) x
    rw [overlayAll_append]
    exact overlayAll_base part (h.bytes view hS x hold)

/-- **A call that loses no accepted write** keeps the accounting. -/
theorem accounted_call {inner₀ : σ} {s : Session σ} {op : Op} (h : Accounted S inner₀ s)
    (hop : KeepsAccepted S s op) : Accounted S inner₀ (s.call S op) := by
  cases op with
  | flush =>
    have hun : (undelivered S s.storage.inner.1 (sortByOffset s.storage.buffer)).Subperm [] := by
      rw [show undelivered S _ _ = [] from hop]
    unfold Session.call coalescing
    dsimp only
    rcases hf : flushBuffer (logged S) s.storage with ⟨_ | _, st⟩
    all_goals
      refine accounted_drain h [] [] (by simp) (by simp) ?_ (by simp) hun
      show st = (flushBuffer (logged S) s.storage).2
      rw [hf]
  | writePiece w =>
    unfold Session.call coalescing writePiece
    dsimp only
    split_ifs with hauto
    · obtain ⟨-, -, -, hok, -⟩ := flushBuffer_spec (S := S)
        { s.storage with buffer := s.storage.buffer ++ [w] }
      rcases hf : flushBuffer (logged S) { s.storage with buffer := s.storage.buffer ++ [w] }
        with ⟨_ | _, st⟩
      · refine accounted_drain h [] [w] (by simp) rfl ?_ rfl (hop hauto).subperm
        exact (congrArg Prod.snd hf).symm
      · refine accounted_drain h [w] [] rfl (by simp) ?_ rfl ?_
        · exact (congrArg Prod.snd hf).symm
        · have hnil := hok (by rw [hf])
          dsimp only at hnil
          rw [List.append_nil, hnil]
    · refine ⟨fun w' => ?_, fun w' => ?_, nofun, h.bytes⟩
      · have := h.kept w'
        show (s.accepted ++ [w]).count w' ≤ s.delivered.count w' +
          (s.storage.buffer ++ [w]).count w'
        rw [List.count_append, List.count_append]
        omega
      · have := h.known w'
        show s.delivered.count w' + (s.storage.buffer ++ [w]).count w' ≤
          (s.accepted ++ [w]).count w' + s.rejected.count w'
        rw [List.count_append, List.count_append]
        omega

/-! ### What a successful flush vouches for -/

/-- **Every accepted write has been applied**: the inner storage has performed it, and if the writes
are pairwise disjoint the bytes, outside the rejected writes, are those of the accepted writes
applied directly in call order. -/
structure Vouched (S : PieceStorage σ) (inner₀ : σ) (s : Session σ) : Prop where
  delivered : s.accepted.Subperm s.delivered
  bytes : ∀ view : σ → ℕ → UInt8, S.Lawful view →
    (s.accepted ++ s.rejected).Pairwise (Apart BufferedWrite.offset BufferedWrite.data) →
      ∀ x, (∀ w ∈ s.rejected, ¬ Touches w x) →
        view s.storage.inner.1 x = applyAll (view inner₀) s.accepted x

theorem Accounted.vouched {inner₀ : σ} {s : Session σ} (h : Accounted S inner₀ s)
    (hs : s.flushed = true) : Vouched S inner₀ s := by
  have hnil : ∀ w, s.storage.buffer.count w = 0 := fun w => by rw [h.flushed hs, List.count_nil]
  have hle : ∀ w, s.accepted.count w ≤ s.delivered.count w := by
    intro w
    have h1 := h.kept w
    have h2 := hnil w
    omega
  have hge : s.delivered.Subperm (s.accepted ++ s.rejected) := by
    refine List.subperm_ext_iff.mpr fun w _ => ?_
    have h1 := h.known w
    rw [List.count_append]
    omega
  refine ⟨List.subperm_ext_iff.mpr fun w _ => hle w, fun view hS hapart x hx => ?_⟩
  rw [h.bytes view hS x hx]
  refine overlayAll_congr (view inner₀) hapart hge (List.sublist_append_left _ _).subperm ?_
  intro w hw
  constructor
  · intro hmem
    rcases List.mem_append.mp (hge.subset hmem) with h' | h'
    · exact h'
    · exact absurd hw (hx w h')
  · intro hmem
    have h1 := List.count_pos_iff.mpr hmem
    have h2 := hle w
    exact List.count_pos_iff.mp (by omega)

/-- **A successful flush vouches for every accepted write**, in every state of every run whose calls
lose no accepted write. -/
theorem flush_vouches (inner₀ : σ) (thr : ℕ) (ops : List Op)
    (h : Meets (Session.step S) (KeepsAccepted S) (Session.start inner₀ thr) ops) :
    Always (Session.step S) (fun s => s.flushed = true → Vouched S inner₀ s)
      (Session.start inner₀ thr) ops := by
  have hstep : ∀ (s : Session σ) (op : Op) (s' : Session σ), Accounted S inner₀ s →
      KeepsAccepted S s op → Session.step S s op = some s' → Accounted S inner₀ s' := by
    intro s op s' hs hop he
    cases he
    exact accounted_call hs hop
  exact (always_of_meets hstep (accounted_start inner₀ thr) h).mono fun s hs => hs.vouched

theorem flush_vouches_memory :
    Always (Session.step memoryStorage)
      (fun s => s.flushed = true → Vouched memoryStorage [0, 0, 0, 0] s)
      (Session.start [0, 0, 0, 0] 0)
      [.writePiece ⟨2, 1, [7, 8]⟩, .writePiece ⟨0, 0, [5]⟩, .flush] :=
  flush_vouches _ _ _ (by decide)

/-- A memory storage whose first write fails. -/
def flakyStorage : PieceStorage (Bool × List UInt8) where
  writePiece s i off data :=
    if s.1 then (.error (.io off ⟨"StorageFull", "no space left on device"⟩), false, s.2)
    else ((memoryStorage.writePiece s.2 i off data).1, false,
      (memoryStorage.writePiece s.2 i off data).2)
  readPiece s off len := memoryStorage.readPiece s.2 off len
  flush s := (.ok (), s)

/-- The first flush drops both writes; the second finds an empty buffer and returns `Ok`. -/
theorem flush_after_failed_flush :
    ¬ Always (Session.step flakyStorage)
      (fun s => s.flushed = true → Vouched flakyStorage (true, [0, 0]) s)
      (Session.start (true, [0, 0]) 0)
      [.writePiece ⟨0, 0, [5]⟩, .writePiece ⟨1, 1, [7]⟩, .flush, .flush] := by
  intro h
  have hv := h.last rfl rfl
  have hd := hv.delivered.length_le
  revert hd
  decide

/-! ### How much is buffered -/

/-- The bytes that are still buffered. -/
def buffered (st : CoalescingStorage σ) : ℕ := (st.buffer.map fun w => w.data.length).sum

/-- Fewer bytes are buffered than the threshold, and none if it is 0. -/
def UnderThreshold (st : CoalescingStorage σ) : Prop :=
  (0 < st.flushThreshold → buffered st < st.flushThreshold) ∧
    (st.flushThreshold = 0 → buffered st = 0)

/-- A call of `write_piece`, which may fail. -/
def writeStep (S : PieceStorage σ) (st : CoalescingStorage σ) (w : BufferedWrite) :
    Option (CoalescingStorage σ) :=
  some (writePiece S st w.pieceIndex w.offset w.data).2

/-- **A flush leaves nothing in the buffer**, whether it fails or not. -/
theorem flushBuffer_buffer (st : CoalescingStorage σ) :
    (flushBuffer S st).2.buffer = [] ∧ (flushBuffer S st).2.flushThreshold = st.flushThreshold := by
  unfold flushBuffer
  split_ifs with hnil
  · exact ⟨hnil, rfl⟩
  · rcases drain S st.inner (sortByOffset st.buffer) with ⟨_ | _, _⟩
    · exact ⟨rfl, rfl⟩
    · exact ⟨rfl, rfl⟩

theorem writePiece_flushThreshold (st : CoalescingStorage σ) (i off : ℕ) (data : List UInt8) :
    (writePiece S st i off data).2.flushThreshold = st.flushThreshold := by
  unfold writePiece
  split_ifs
  · exact (flushBuffer_buffer _).2
  · rfl

/-- **One write**: with a threshold the buffer is flushed in time, and without one it never is. -/
theorem buffered_writePiece (st : CoalescingStorage σ) (hthr : st.flushThreshold ≤ u64Max)
    (w : BufferedWrite) :
    (0 < st.flushThreshold →
      buffered (writePiece S st w.pieceIndex w.offset w.data).2 < st.flushThreshold) ∧
    (st.flushThreshold = 0 →
      buffered (writePiece S st w.pieceIndex w.offset w.data).2 = buffered st + w.data.length) := by
  have hmore : buffered { st with buffer := st.buffer ++ [⟨w.offset, w.pieceIndex, w.data⟩] } =
      buffered st + w.data.length := by
    unfold buffered
    rw [List.map_append, List.sum_append]
    rfl
  unfold writePiece
  split_ifs with hauto
  · unfold autoFlush at hauto
    rw [Bool.and_eq_true, decide_eq_true_eq] at hauto
    refine ⟨fun hpos => ?_, fun hzero => absurd hzero (Nat.ne_of_gt hauto.1)⟩
    unfold buffered
    rw [(flushBuffer_buffer _).1]
    exact hpos
  · rw [hmore]
    refine ⟨fun hpos => ?_, fun _ => rfl⟩
    unfold autoFlush at hauto
    rw [decide_eq_true hpos, Bool.true_and, decide_eq_true_eq] at hauto
    unfold satAdd at hauto
    show (st.buffer.map fun w => w.data.length).sum + w.data.length < _
    omega

/-- **When the buffer stays under the threshold** in a run of writes: if the threshold is not 0, or
no write carries a byte. -/
theorem under_threshold_iff (S : PieceStorage σ) (inner : σ) (thr : Fin (2 ^ 64))
    (ws : List BufferedWrite) :
    Always (writeStep S) UnderThreshold (new inner thr) ws ↔
      0 < thr.val ∨ ∀ w ∈ ws, w.data = [] := by
  have hposs : ∀ (st : CoalescingStorage σ) (w : BufferedWrite), ∃ t, writeStep S st w = some t :=
    fun _ _ => ⟨_, rfl⟩
  have hmeets : Meets (writeStep S) (fun _ w => 0 < thr.val ∨ w.data = []) (new inner thr.val) ws ↔
      0 < thr.val ∨ ∀ w ∈ ws, w.data = [] := by
    rw [meets_iff_forall hposs]
    constructor
    · intro h
      rcases Nat.eq_zero_or_pos thr.val with h0 | h0
      · exact Or.inr fun w hw => (h w hw).resolve_left (Nat.not_lt.mpr h0.le)
      · exact Or.inl h0
    · intro h w hw
      exact h.imp_right fun hall => hall w hw
  rw [← hmeets]
  refine always_iff_meets (I := fun st => st.flushThreshold = thr.val) ?_ ?_ ?_ rfl
    ⟨id, fun _ => rfl⟩
  · intro st w st' hI _ h
    cases h
    rw [writePiece_flushThreshold, hI]
  · intro st w st' hI hP h
    cases h
    have hthr : st.flushThreshold ≤ u64Max := by
      rw [hI]
      exact Nat.le_of_lt_succ thr.isLt
    obtain ⟨hpos, hzero⟩ := buffered_writePiece (S := S) st hthr w
    unfold UnderThreshold at hP ⊢
    rw [writePiece_flushThreshold]
    rw [hI] at hP hpos hzero ⊢
    constructor
    · rintro ⟨-, hnone⟩
      rcases Nat.eq_zero_or_pos thr.val with h0 | h0
      · have hsum := hnone h0
        rw [hzero h0] at hsum
        exact Or.inr (List.eq_nil_of_length_eq_zero (by omega))
      · exact Or.inl h0
    · intro hC
      refine ⟨hpos, fun h0 => ?_⟩
      rw [hzero h0, hP.2 h0, hC.resolve_left (by omega)]
      rfl
  · intro st w _ _ h
    cases h

/-- A storage that never fails, and keeps nothing. -/
def sink : PieceStorage Unit where
  writePiece s _ _ _ := (.ok (), s)
  readPiece _ _ _ := .ok []
  flush s := (.ok (), s)

/-- With the threshold 0 the byte stays in the buffer. -/
theorem buffered_at_zero : ¬ Always (writeStep sink) UnderThreshold (new () 0) [⟨0, 0, [5]⟩] := by
  intro h
  have hend := (h.last rfl).2 rfl
  revert hend
  decide

end CncContent.Storage.CoalescingSpec
