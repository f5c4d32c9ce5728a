import CncContent.Lib.Runs
import CncContent.Metadata.Exchange

/-! # Verified metadata

An exchange is honest if it reports to be complete only with all blocks received and the right hash
(`Honest`). Nothing resets the `verified` flag, so that a size or other bytes after the verification may
leave the flag behind. A run in which the metadata stays as it is once it is verified (`Unchanging`) is
honest throughout (`honest_of_unchanging`). -/

namespace CncContent.Metadata.Verified

open CncContent.Lib.Bounded CncContent.Lib.Runs CncContent.Metadata.Exchange

variable {sha1 : List UInt8 → Digest} {ex : MetadataExchange}

/-- There is a block for every part of the metadata, and none before the size is known. -/
structure WellFormed (ex : MetadataExchange) : Prop where
  unsized : ex.metadataSize = none → ex.blocks = [] ∧ ex.verified = false
  sized : ∀ n, ex.metadataSize = some n →
    MetadataExchange.SizeOk n ∧ ex.blocks.length = blocksFor n ∧ ex.buffer.length = n

/-- The metadata is reported complete only if it is. -/
def Honest (sha1 : List UInt8 → Digest) (ex : MetadataExchange) : Prop :=
  ex.isComplete = true → (∀ b ∈ ex.blocks, b = .received) ∧ sha1 ex.buffer = ex.infoHash

/-- After the verification no size is set, and a block that is stored has the bytes that are there. -/
def Unchanging (ex : MetadataExchange) : Call → Prop
  | .setMetadataSize size => ex.verified = true → ¬ MetadataExchange.SizeOk size
  | .receiveBlock piece totalSize payload => ex.verified = true → ex.Fits piece totalSize payload →
    (ex.buffer.drop (MetadataExchange.offset piece)).take payload.length = payload
  | _ => True

instance (ex : MetadataExchange) (piece totalSize : ℕ) (payload : List UInt8) :
    Decidable (ex.Fits piece totalSize payload) :=
  decidable_of_iff (totalSize = ex.metadataSize.getD 0 ∧ piece < ex.blocks.length ∧
      payload.length = ex.expectedLen piece)
    ⟨fun h => ⟨h.1, h.2.1, h.2.2⟩, fun h => ⟨h.size, h.index, h.length⟩⟩

instance : ∀ (ex : MetadataExchange) (c : Call), Decidable (Unchanging ex c)
  | _, .setMetadataSize _ => inferInstanceAs (Decidable (_ → _))
  | _, .receiveBlock _ _ _ => inferInstanceAs (Decidable (_ → _ → _))
  | _, .markPending _ => isTrue trivial
  | _, .handleReject _ => isTrue trivial
  | _, .verify => isTrue trivial

/-- The exchange as a system in which every call is possible. -/
def step (sha1 : List UInt8 → Digest) (ex : MetadataExchange) (c : Call) :
    Option MetadataExchange :=
  some (ex.apply sha1 c)

/-! ### The invariant -/

theorem length_copyInto (buffer : List UInt8) (offset : ℕ) (bytes : List UInt8) :
    (copyInto buffer offset bytes).length = buffer.length := by
  unfold copyInto
  split_ifs with h
  · rw [List.length_append, List.length_append, List.length_take, List.length_drop]
    omega
  · rfl

theorem blocksFor_pos {n : ℕ} (h : 0 < n) : 0 < blocksFor n := by
  unfold blocksFor metadataBlockSize
  omega

theorem wellFormed_sized {size : ℕ} (h : MetadataExchange.SizeOk size) :
    WellFormed (ex.sized size) := by
  refine ⟨nofun, ?_⟩
  rintro n ⟨⟩
  exact ⟨h, List.length_replicate, List.length_replicate⟩

/-- Only the states of the blocks change. -/
theorem WellFormed.modify (h : WellFormed ex) (piece : ℕ) (f : BlockStatus → BlockStatus) :
    WellFormed { ex with blocks := ex.blocks.modify piece f } := by
  refine ⟨fun hnone => ?_, fun n hn => ?_⟩
  · obtain ⟨hblocks, hverified⟩ := h.unsized hnone
    refine ⟨?_, hverified⟩
    show ex.blocks.modify piece f = []
    rw [hblocks, List.modify_nil]
  · obtain ⟨hok, hblocks, hbuffer⟩ := h.sized n hn
    exact ⟨hok, (List.length_modify _ _ _).trans hblocks, hbuffer⟩

theorem WellFormed.storeBlock (h : WellFormed ex) (piece : ℕ) (payload : List UInt8) :
    WellFormed (ex.storeBlock piece payload) := by
  obtain ⟨hunsized, hsized⟩ := h.modify piece fun _ => .received
  exact ⟨hunsized, fun n hn => ⟨(hsized n hn).1, (hsized n hn).2.1,
    (length_copyInto _ _ _).trans (hsized n hn).2.2⟩⟩

theorem WellFormed.adopted (h : WellFormed ex) (totalSize : ℕ) :
    WellFormed (ex.adopted totalSize) := by
  unfold MetadataExchange.adopted
  split_ifs with hc
  · exact wellFormed_sized hc.2
  · exact h

theorem WellFormed.receiveBlock (h : WellFormed ex) (piece totalSize : ℕ) (payload : List UInt8) :
    WellFormed (ex.receiveBlock piece totalSize payload).1 := by
  rcases ex.receiveBlock_cases piece totalSize payload with ⟨-, hrec⟩ | ⟨-, e, hrec⟩
  · rw [hrec]
    exact (h.adopted totalSize).storeBlock piece payload
  · rw [hrec]
    exact h.adopted totalSize

theorem allBlocksReceived_eq_true_iff :
    ex.allBlocksReceived = true ↔ ex.blocks ≠ [] ∧ ∀ b ∈ ex.blocks, b = .received := by
  unfold MetadataExchange.allBlocksReceived
  rw [Bool.and_eq_true, Bool.not_eq_true', List.isEmpty_eq_false_iff, List.all_eq_true]
  simp only [decide_eq_true_eq]

/-- The outcomes of a verification. -/
theorem verify_cases (ex : MetadataExchange) (sha1 : List UInt8 → Digest) :
    (ex.allBlocksReceived = false ∧ ex.verify sha1 =
      (ex, .error (.incomplete ex.receivedCount (asU32 ex.blocks.length)))) ∨
    (ex.allBlocksReceived = true ∧ sha1 ex.buffer ≠ ex.infoHash ∧ ex.verify sha1 =
      ({ ex with blocks := ex.blocks.map fun _ => .missing },
        .error (.hashMismatch ex.infoHash (sha1 ex.buffer)))) ∨
    (ex.allBlocksReceived = true ∧ sha1 ex.buffer = ex.infoHash ∧ ex.verify sha1 =
      ({ ex with verified := true }, .ok ex.buffer)) := by
  unfold MetadataExchange.verify
  cases hall : ex.allBlocksReceived with
  | false => exact Or.inl ⟨rfl, by rw [if_pos rfl]⟩
  | true =>
    right
    rw [if_neg (by decide)]
    by_cases hhash : sha1 ex.buffer = ex.infoHash
    · exact Or.inr ⟨rfl, hhash, by rw [if_neg (not_not.mpr hhash)]⟩
    · exact Or.inl ⟨rfl, hhash, by rw [if_pos hhash]⟩

theorem WellFormed.verify (h : WellFormed ex) : WellFormed (ex.verify sha1).1 := by
  rcases verify_cases ex sha1 with ⟨-, hv⟩ | ⟨-, -, hv⟩ | ⟨hall, -, hv⟩
  · rw [hv]
    exact h
  · rw [hv]
    refine ⟨fun hnone => ?_, fun n hn => ?_⟩
    · obtain ⟨hblocks, hverified⟩ := h.unsized hnone
      exact ⟨List.map_eq_nil_iff.mpr hblocks, hverified⟩
    · obtain ⟨hok, hblocks, hbuffer⟩ := h.sized n hn
      exact ⟨hok, List.length_map _ |>.trans hblocks, hbuffer⟩
  · rw [hv]
    refine ⟨fun hnone => ?_, h.sized⟩
    exact absurd (h.unsized hnone).1 (allBlocksReceived_eq_true_iff.mp hall).1

/-- **The invariant of the calls.** -/
theorem WellFormed.apply (h : WellFormed ex) (c : Call) : WellFormed (ex.apply sha1 c) := by
  cases c with
  | setMetadataSize size =>
    rw [ex.apply_setMetadataSize]
    split_ifs with hok
    · exact wellFormed_sized hok
    · exact h
  | markPending piece => exact h.modify piece _
  | receiveBlock piece totalSize payload => exact h.receiveBlock piece totalSize payload
  | handleReject piece => exact h.modify piece _
  | verify => exact h.verify

/-! ### Honesty -/

theorem forall_mem_modify {α : Type} {P : α → Prop} {f : α → α} {l : List α} {i : ℕ}
    (h : ∀ a ∈ l, P a) (hf : ∀ a, P a → P (f a)) : ∀ b ∈ l.modify i f, P b := by
  intro b hb
  obtain ⟨j, hj⟩ := List.mem_iff_getElem?.mp hb
  rw [List.getElem?_modify] at hj
  obtain ⟨a, ha, rfl⟩ := Option.map_eq_some_iff.mp hj
  have hPa := h a (List.mem_of_getElem? ha)
  split_ifs
  · exact hf a hPa
  · exact hPa

/-- Changes of blocks that leave received ones alone. -/
theorem Honest.modify (h : Honest sha1 ex) {f : BlockStatus → BlockStatus}
    (hf : f .received = .received) (piece : ℕ) :
    Honest sha1 { ex with blocks := ex.blocks.modify piece f } := by
  intro hcomplete
  obtain ⟨hblocks, hhash⟩ := h hcomplete
  exact ⟨forall_mem_modify hblocks (fun _ ha => ha ▸ hf), hhash⟩

theorem verified_adopted (ex : MetadataExchange) (totalSize : ℕ) :
    (ex.adopted totalSize).verified = ex.verified := by
  unfold MetadataExchange.adopted
  split_ifs <;> rfl

theorem verified_receiveBlock (ex : MetadataExchange) (piece totalSize : ℕ)
    (payload : List UInt8) :
    (ex.receiveBlock piece totalSize payload).1.verified = ex.verified := by
  rcases ex.receiveBlock_cases piece totalSize payload with ⟨-, hrec⟩ | ⟨-, e, hrec⟩
  · rw [hrec]
    exact verified_adopted ex totalSize
  · rw [hrec]
    exact verified_adopted ex totalSize

/-- A verification is honest. -/
theorem Honest.verify (h : Honest sha1 ex) : Honest sha1 (ex.verify sha1).1 := by
  rcases verify_cases ex sha1 with ⟨-, hv⟩ | ⟨-, hne, hv⟩ | ⟨hall, hhash, hv⟩
  · rw [hv]
    exact h
  · rw [hv]
    exact fun hcomplete => absurd (h hcomplete).2 hne
  · rw [hv]
    exact fun _ => ⟨(allBlocksReceived_eq_true_iff.mp hall).2, hhash⟩

/-- Bytes that are there already. -/
theorem copyInto_eq_self {buffer bytes : List UInt8} {offset : ℕ}
    (h : (buffer.drop offset).take bytes.length = bytes) : copyInto buffer offset bytes = buffer := by
  unfold copyInto
  split_ifs
  · calc buffer.take offset ++ bytes ++ buffer.drop (offset + bytes.length)
        = buffer.take offset ++ ((buffer.drop offset).take bytes.length ++
            (buffer.drop offset).drop bytes.length) := by
          rw [h, List.append_assoc, List.drop_drop]
      _ = buffer := by rw [List.take_append_drop, List.take_append_drop]
  · rfl

/-- A block whose bytes are there already, if the metadata is verified. -/
theorem Honest.receiveBlock (hwf : WellFormed ex) (h : Honest sha1 ex) {piece totalSize : ℕ}
    {payload : List UInt8} (hc : Unchanging ex (.receiveBlock piece totalSize payload)) :
    Honest sha1 (ex.receiveBlock piece totalSize payload).1 := by
  by_cases hverified : ex.verified = true
  · -- the size is known, so that the block is stored or refused
    obtain ⟨n, hn⟩ : ∃ n, ex.metadataSize = some n := by
      cases hsize : ex.metadataSize with
      | some n => exact ⟨n, rfl⟩
      | none => exact absurd hverified (by rw [(hwf.unsized hsize).2]; decide)
    have hstored := ex.receiveBlock_cases piece totalSize payload
    rw [ex.adopted_of_sized hn] at hstored
    rcases hstored with ⟨hfits, hrec⟩ | ⟨-, e, hrec⟩
    · rw [hrec]
      obtain ⟨hblocks, hhash⟩ := h hverified
      have hbuffer := copyInto_eq_self (hc hverified hfits)
      refine fun _ => ⟨forall_mem_modify hblocks fun _ _ => rfl, ?_⟩
      exact (congrArg sha1 hbuffer).trans hhash
    · rw [hrec]
      exact h
  · intro hcomplete
    rw [MetadataExchange.isComplete, verified_receiveBlock] at hcomplete
    exact absurd hcomplete hverified

/-- **One call** that leaves verified metadata alone keeps the exchange honest. -/
theorem Honest.apply (hwf : WellFormed ex) (h : Honest sha1 ex) (c : Call) (hc : Unchanging ex c) :
    Honest sha1 (ex.apply sha1 c) := by
  cases c with
  | markPending piece => exact h.modify rfl piece
  | handleReject piece => exact h.modify rfl piece
  | verify => exact h.verify
  | receiveBlock piece totalSize payload => exact h.receiveBlock hwf hc
  | setMetadataSize size =>
    rw [ex.apply_setMetadataSize]
    split_ifs with hok
    · exact fun hcomplete => absurd hok (hc hcomplete)
    · exact h

/-- **A run that leaves verified metadata alone is honest throughout.** -/
theorem honest_of_unchanging (sha1 : List UInt8 → Digest) (infoHash : Digest) (calls : List Call)
    (h : Meets (step sha1) Unchanging (.new infoHash) calls) :
    Always (step sha1) (Honest sha1) (.new infoHash) calls := by
  have hinv : Always (step sha1) (fun ex => WellFormed ex ∧ Honest sha1 ex) (.new infoHash) calls := by
    refine always_of_meets ?_ ⟨⟨fun _ => ⟨rfl, rfl⟩, nofun⟩, nofun⟩ h
    rintro ex c ex' ⟨hwf, hhonest⟩ hc ⟨⟩
    exact ⟨hwf.apply c, hhonest.apply hwf c hc⟩
  exact hinv.mono fun _ => And.right

/-! ### A second size -/

/-- SHA-1 of `07`, `00` and `00 00`. -/
def sha1Of (bytes : List UInt8) : Digest :=
  if bytes = [7] then
    #v[93, 27, 231, 233, 221, 161, 238, 136, 150, 190, 91, 126, 52, 168, 94, 225, 100, 82, 167, 180]
  else if bytes = [0] then
    #v[91, 169, 60, 157, 176, 207, 249, 63, 82, 181, 33, 215, 66, 14, 67, 246, 237, 162, 120, 79]
  else if bytes = [0, 0] then
    #v[20, 137, 249, 35, 196, 220, 167, 41, 23, 139, 62, 50, 51, 69, 133, 80, 216, 221, 223, 41]
  else Vector.replicate 20 0

/-- The metadata is received and verified, and its block comes once more. -/
theorem honest_of_unchanging_repeated : Always (step sha1Of) (Honest sha1Of) (.new (sha1Of [7]))
    [.markPending 0, .receiveBlock 0 1 [7], .verify, .receiveBlock 0 1 [7], .receiveBlock 0 2 [7, 8]] :=
  honest_of_unchanging sha1Of (sha1Of [7]) _ (by decide)

/-- The exchange is verified and then given a size again. -/
def resized : MetadataExchange :=
  [.receiveBlock 0 1 [7], .verify, .setMetadataSize 1].foldl (·.apply sha1Of)
    (.new (sha1Of [7]))

/-- **A complete exchange without a block.** -/
theorem resized_not_honest : resized.isComplete = true ∧ resized.blocks = [.missing] ∧
    sha1Of resized.buffer ≠ resized.infoHash := by decide

end CncContent.Metadata.Verified
