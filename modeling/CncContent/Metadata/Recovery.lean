import CncContent.Metadata.Verified

/-! # Recovery from bad peers

After a failed verification the blocks are requested again, but the size that the exchange adopted
from the first message stays (`metadataSize_after`). Honest peers can then complete the exchange
exactly if that size is the true one (`recovers_iff`): their blocks replace everything in the buffer
(`Progress.complete`), or none of them is accepted. -/

namespace CncContent.Metadata.Recovery

open CncContent.Lib.Bounded CncContent.Metadata.Exchange CncContent.Metadata.Verified

/-! ### The attack -/

/-- The calls that messages of peers lead to, and the verifications in between. -/
def Call.FromPeers : Call → Prop
  | .setMetadataSize _ => False
  | _ => True

instance : DecidablePred Call.FromPeers
  | .setMetadataSize _ => isFalse id
  | .markPending _ | .receiveBlock _ _ _ | .handleReject _ | .verify => isTrue trivial

/-- The state after the calls. -/
def after (sha1 : List UInt8 → Digest) (ex : MetadataExchange) (calls : List Call) :
    MetadataExchange :=
  calls.foldl (·.apply sha1) ex

/-- No call so far has delivered a block that was accepted. -/
def NoneAccepted (sha1 : List UInt8 → Digest) (ex : MetadataExchange) (calls : List Call) : Prop :=
  ∀ before piece totalSize payload rest,
    calls = before ++ .receiveBlock piece totalSize payload :: rest →
      ∃ e, ((after sha1 ex before).receiveBlock piece totalSize payload).2 = .error e

/-- The last call is a verification that found the wrong hash. -/
def EndsInMismatch (sha1 : List UInt8 → Digest) (ex : MetadataExchange) (calls : List Call) : Prop :=
  ∃ before expected actual, calls = before ++ [.verify] ∧
    ((after sha1 ex before).verify sha1).2 = .error (.hashMismatch expected actual)

/-- The size that a call offers, if it can be adopted. -/
def offeredSize : Call → Option ℕ
  | .receiveBlock _ totalSize _ =>
    if MetadataExchange.SizeOk totalSize then some totalSize else none
  | _ => none

/-- The size of the first message whose size can be adopted. -/
def firstSize (calls : List Call) : Option ℕ := calls.findSome? offeredSize

/-! ### Honest peers -/

/-- A block of the metadata. -/
def blockOf (data : List UInt8) (i : ℕ) : List UInt8 :=
  (data.drop (i * metadataBlockSize)).take metadataBlockSize

/-- The exchange after honest peers have sent the blocks, in the order given. -/
def feed (data : List UInt8) (ex : MetadataExchange) (order : List ℕ) : MetadataExchange :=
  order.foldl (fun ex i => (ex.receiveBlock i data.length (blockOf data i)).1) ex

variable {sha1 : List UInt8 → Digest} {ex : MetadataExchange}

/-! ### After the attack -/

theorem wellFormed_after (h : WellFormed ex) : ∀ calls : List Call,
    WellFormed (after sha1 ex calls) := by
  intro calls
  induction calls generalizing ex with
  | nil => exact h
  | cons c calls ih => exact ih (h.apply c)

theorem infoHash_receiveBlock (ex : MetadataExchange) (piece totalSize : ℕ)
    (payload : List UInt8) :
    (ex.receiveBlock piece totalSize payload).1.infoHash = ex.infoHash := by
  have hadopted : (ex.adopted totalSize).infoHash = ex.infoHash := by
    unfold MetadataExchange.adopted
    split_ifs <;> rfl
  rcases ex.receiveBlock_cases piece totalSize payload with ⟨-, hrec⟩ | ⟨-, e, hrec⟩
  · rw [hrec]
    exact hadopted
  · rw [hrec]
    exact hadopted

theorem infoHash_apply (ex : MetadataExchange) (c : Call) :
    (ex.apply sha1 c).infoHash = ex.infoHash := by
  cases c with
  | setMetadataSize size =>
    rw [ex.apply_setMetadataSize]
    split_ifs <;> rfl
  | markPending piece => rfl
  | handleReject piece => rfl
  | receiveBlock piece totalSize payload => exact infoHash_receiveBlock ex piece totalSize payload
  | verify =>
    show (ex.verify sha1).1.infoHash = ex.infoHash
    rcases verify_cases ex sha1 with ⟨-, hv⟩ | ⟨-, -, hv⟩ | ⟨-, -, hv⟩ <;> rw [hv]

theorem infoHash_after (calls : List Call) : (after sha1 ex calls).infoHash = ex.infoHash := by
  induction calls generalizing ex with
  | nil => rfl
  | cons c calls ih => exact ih.trans (infoHash_apply ex c)

theorem metadataSize_adopted (ex : MetadataExchange) (totalSize : ℕ) :
    (ex.adopted totalSize).metadataSize = ex.metadataSize.or
      (if MetadataExchange.SizeOk totalSize then some totalSize else none) := by
  unfold MetadataExchange.adopted
  cases hsize : ex.metadataSize with
  | some n =>
    rw [if_neg fun hc => nomatch hc.1]
    exact hsize
  | none =>
    by_cases hok : MetadataExchange.SizeOk totalSize
    · rw [if_pos ⟨rfl, hok⟩, if_pos hok]
      rfl
    · rw [if_neg fun hc => hok hc.2, if_neg hok]
      exact hsize

theorem metadataSize_apply {c : Call} (hc : Call.FromPeers c) (ex : MetadataExchange) :
    (ex.apply sha1 c).metadataSize = ex.metadataSize.or (offeredSize c) := by
  cases c with
  | setMetadataSize size => exact hc.elim
  | markPending piece => exact Option.or_none.symm
  | handleReject piece => exact Option.or_none.symm
  | receiveBlock piece totalSize payload =>
    show (ex.receiveBlock piece totalSize payload).1.metadataSize = _
    rcases ex.receiveBlock_cases piece totalSize payload with ⟨-, hrec⟩ | ⟨-, e, hrec⟩
    · rw [hrec]
      exact metadataSize_adopted ex totalSize
    · rw [hrec]
      exact metadataSize_adopted ex totalSize
  | verify =>
    show (ex.verify sha1).1.metadataSize = ex.metadataSize.or none
    rw [Option.or_none]
    rcases verify_cases ex sha1 with ⟨-, hv⟩ | ⟨-, -, hv⟩ | ⟨-, -, hv⟩ <;> rw [hv]

/-- **The adopted size** is that of the first message, whatever has happened since. -/
theorem metadataSize_after {calls : List Call} (hcalls : ∀ c ∈ calls, Call.FromPeers c) :
    (after sha1 ex calls).metadataSize = ex.metadataSize.or (firstSize calls) := by
  induction calls generalizing ex with
  | nil => exact Option.or_none.symm
  | cons c calls ih =>
    obtain ⟨hc, hcalls⟩ := List.forall_mem_cons.mp hcalls
    have hfirst : firstSize (c :: calls) = (offeredSize c).or (firstSize calls) := by
      unfold firstSize
      rw [List.findSome?_cons]
      cases offeredSize c <;> rfl
    rw [hfirst, ← Option.or_assoc, ← metadataSize_apply hc]
    exact ih hcalls

/-! ### Nothing received -/

/-- No block counts as received. -/
def NoneReceived (ex : MetadataExchange) : Prop := ∀ b ∈ ex.blocks, b ≠ .received

theorem NoneReceived.adopted (h : NoneReceived ex) (totalSize : ℕ) :
    NoneReceived (ex.adopted totalSize) := by
  unfold MetadataExchange.adopted
  split_ifs with hc
  · intro b hb
    rw [List.eq_of_mem_replicate hb]
    decide
  · exact h

theorem NoneReceived.allBlocksReceived (h : NoneReceived ex) : ex.allBlocksReceived = false := by
  rw [← Bool.not_eq_true, allBlocksReceived_eq_true_iff]
  rintro ⟨hne, hall⟩
  obtain ⟨b, hb⟩ := List.exists_mem_of_ne_nil _ hne
  exact h b hb (hall b hb)

theorem noneReceived_verify (h : NoneReceived ex) : NoneReceived (ex.verify sha1).1 := by
  rcases verify_cases ex sha1 with ⟨-, hv⟩ | ⟨hall, -⟩ | ⟨hall, -⟩
  · rw [hv]
    exact h
  · rw [h.allBlocksReceived] at hall
    cases hall
  · rw [h.allBlocksReceived] at hall
    cases hall

/-- As long as no block is accepted, none counts as received. -/
theorem noneReceived_after {calls : List Call} (h : NoneReceived ex)
    (hcalls : ∀ c ∈ calls, Call.FromPeers c) (hnone : NoneAccepted sha1 ex calls) :
    NoneReceived (after sha1 ex calls) := by
  induction calls generalizing ex with
  | nil => exact h
  | cons c calls ih =>
    obtain ⟨hc, hcalls⟩ := List.forall_mem_cons.mp hcalls
    have hnext : NoneReceived (ex.apply sha1 c) := by
      cases c with
      | setMetadataSize size => exact hc.elim
      | markPending piece | handleReject piece =>
        refine forall_mem_modify h fun b hb => ?_
        split_ifs
        · decide
        · exact hb
      | verify => exact noneReceived_verify h
      | receiveBlock piece totalSize payload =>
        obtain ⟨e, he⟩ := hnone [] piece totalSize payload calls rfl
        show NoneReceived (ex.receiveBlock piece totalSize payload).1
        rcases ex.receiveBlock_cases piece totalSize payload with ⟨-, hrec⟩ | ⟨-, e', hrec⟩
        · change (ex.receiveBlock piece totalSize payload).2 = _ at he
          rw [hrec] at he
          cases he
        · rw [hrec]
          exact h.adopted totalSize
    refine ih hnext hcalls fun before piece totalSize payload rest heq => ?_
    exact hnone (c :: before) piece totalSize payload rest (congrArg (c :: ·) heq)

/-- After a verification with the wrong hash no block counts as received. -/
theorem noneReceived_of_mismatch {calls : List Call} (h : EndsInMismatch sha1 ex calls) :
    NoneReceived (after sha1 ex calls) := by
  obtain ⟨before, expected, actual, rfl, hverify⟩ := h
  have hlast : after sha1 ex (before ++ [.verify]) = ((after sha1 ex before).verify sha1).1 := by
    unfold after
    rw [List.foldl_append]
    rfl
  rw [hlast]
  rcases verify_cases (after sha1 ex before) sha1 with ⟨-, hv⟩ | ⟨-, -, hv⟩ | ⟨-, -, hv⟩
  · rw [hv] at hverify
    cases hverify
  · rw [hv]
    intro b hb
    obtain ⟨_, -, rfl⟩ := List.mem_map.mp hb
    decide
  · rw [hv] at hverify
    cases hverify

/-! ### Feeding the true blocks -/

section Feed

variable {data : List UInt8}

theorem feed_cons (ex : MetadataExchange) (i : ℕ) (order : List ℕ) : feed data ex (i :: order) =
    feed data (ex.receiveBlock i data.length (blockOf data i)).1 order := rfl

/-- Peers whose size is not accepted change nothing. -/
theorem feed_of_unfit (hadopted : ex.adopted data.length = ex)
    (hunfit : ∀ i, ¬ ex.Fits i data.length (blockOf data i)) :
    ∀ order : List ℕ, feed data ex order = ex
  | [] => rfl
  | i :: order => by
    have hrec := ex.receiveBlock_cases i data.length (blockOf data i)
    rw [hadopted] at hrec
    obtain ⟨hfits, -⟩ | ⟨-, e, hrec⟩ := hrec
    · exact absurd hfits (hunfit i)
    · rw [feed_cons, hrec]
      exact feed_of_unfit hadopted hunfit order

theorem infoHash_feed : ∀ (order : List ℕ) (ex : MetadataExchange),
    (feed data ex order).infoHash = ex.infoHash
  | [], _ => rfl
  | i :: order, ex => (infoHash_feed order _).trans (infoHash_receiveBlock ex i _ _)

theorem length_blockOf (data : List UInt8) (i : ℕ) :
    (blockOf data i).length = min metadataBlockSize (data.length - i * metadataBlockSize) := by
  unfold blockOf
  rw [List.length_take, List.length_drop]

theorem getElem?_blockOf {i k : ℕ} (hk : k < metadataBlockSize) :
    (blockOf data i)[k]? = data[i * metadataBlockSize + k]? := by
  unfold blockOf
  rw [List.getElem?_take_of_lt hk, List.getElem?_drop]

theorem lt_blocksFor_iff {i n : ℕ} : i < blocksFor n ↔ i * metadataBlockSize < n := by
  unfold blocksFor metadataBlockSize
  omega

theorem offset_eq {i n : ℕ} (hn : MetadataExchange.SizeOk n) (hi : i < blocksFor n) :
    MetadataExchange.offset i = i * metadataBlockSize := by
  have hlt := lt_blocksFor_iff.mp hi
  have hmax : n ≤ 10485760 := hn.2
  unfold MetadataExchange.offset satMul u64Max
  omega

/-- A block of the data makes the buffer agree with the data there and changes nothing elsewhere. -/
theorem getElem?_copyInto_blockOf {buffer : List UInt8} (hlen : buffer.length = data.length)
    {i k : ℕ} (h : buffer[k]? = data[k]? ∨ k / metadataBlockSize = i) :
    (copyInto buffer (i * metadataBlockSize) (blockOf data i))[k]? = data[k]? := by
  have hblock := length_blockOf data i
  unfold copyInto
  split_ifs with hrange
  · rw [List.append_assoc, List.getElem?_append, List.length_take, Nat.min_eq_left (by omega)]
    split_ifs with hbefore
    · rcases h with h | rfl
      · rwa [List.getElem?_take_of_lt hbefore]
      · have := Nat.div_mul_le_self k metadataBlockSize
        omega
    rw [List.getElem?_append]
    split_ifs with hin
    · rw [getElem?_blockOf (by omega)]
      congr 1
      omega
    · rw [List.getElem?_drop]
      rcases h with h | rfl
      · rw [← h]
        congr 1
        omega
      · -- the last block, which the data ends
        have hk := Nat.lt_div_mul_add (a := k) (b := metadataBlockSize) (by decide)
        rw [List.getElem?_eq_none (by omega), List.getElem?_eq_none (by omega)]
  · -- the block lies behind the end of the data, where there is nothing to read
    rcases h with h | rfl
    · exact h
    · have hle := Nat.div_mul_le_self k metadataBlockSize
      rw [List.getElem?_eq_none (by omega), List.getElem?_eq_none (by omega)]

/-- The blocks received so far are those of the data. -/
structure Progress (data : List UInt8) (ex : MetadataExchange) (done : List ℕ) : Prop where
  wellFormed : WellFormed ex
  size : ex.metadataSize = some data.length
  received : ∀ i ∈ done, ex.blocks[i]? = some .received
  agrees : ∀ k, k / metadataBlockSize ∈ done → ex.buffer[k]? = data[k]?

theorem Progress.receiveBlock {done : List ℕ} (h : Progress data ex done) {i : ℕ}
    (hi : i < blocksFor data.length) :
    Progress data (ex.receiveBlock i data.length (blockOf data i)).1 (i :: done) := by
  obtain ⟨hok, hblocks, hbuffer⟩ := h.wellFormed.sized _ h.size
  have hoffset := offset_eq hok hi
  have hfits : ex.Fits i data.length (blockOf data i) := by
    refine ⟨by rw [h.size]; rfl, by omega, ?_⟩
    unfold MetadataExchange.expectedLen
    rw [length_blockOf, hoffset, h.size]
    rfl
  have hrec := ex.receiveBlock_cases i data.length (blockOf data i)
  rw [ex.adopted_of_sized h.size] at hrec
  rcases hrec with ⟨-, hrec⟩ | ⟨hnot, -⟩
  · rw [hrec]
    refine ⟨h.wellFormed.storeBlock _ _, h.size, ?_, fun k hk => ?_⟩
    · intro j hj
      show (ex.blocks.modify i fun _ => BlockStatus.received)[j]? = _
      rw [List.getElem?_modify]
      by_cases hij : i = j
      · rw [List.getElem?_eq_getElem (by omega)]
        exact congrArg some (if_pos hij)
      · rw [h.received j ((List.mem_cons.mp hj).resolve_left (Ne.symm hij))]
        exact congrArg some (if_neg hij)
    · show (copyInto ex.buffer (MetadataExchange.offset i) (blockOf data i))[k]? = _
      rw [hoffset]
      refine getElem?_copyInto_blockOf hbuffer ?_
      exact (List.mem_cons.mp hk).symm.imp_left (h.agrees k)
  · exact absurd hfits (hnot.resolve_left (by rw [h.size]; exact Option.some_ne_none _))

theorem Progress.feed : ∀ {order done : List ℕ} {ex : MetadataExchange}, Progress data ex done →
    (∀ i ∈ order, i < blocksFor data.length) →
      ∃ done', Progress data (feed data ex order) done' ∧ order ⊆ done' ∧ done ⊆ done'
  | [], done, _, h, _ => ⟨done, h, List.nil_subset _, List.Subset.refl _⟩
  | i :: order, done, _, h, horder => by
    obtain ⟨hi, horder⟩ := List.forall_mem_cons.mp horder
    obtain ⟨done', h', hsub, hdone⟩ := Progress.feed (h.receiveBlock hi) horder
    obtain ⟨hmem, hdone⟩ := List.cons_subset.mp hdone
    exact ⟨done', h', List.cons_subset.mpr ⟨hmem, hsub⟩, hdone⟩

/-- **When all blocks have been received**, the buffer is the data. -/
theorem Progress.complete {done : List ℕ} (h : Progress data ex done)
    (hdone : ∀ i, i < blocksFor data.length → i ∈ done) :
    ex.allBlocksReceived = true ∧ ex.buffer = data := by
  obtain ⟨hok, hblocks, hbuffer⟩ := h.wellFormed.sized _ h.size
  constructor
  · rw [allBlocksReceived_eq_true_iff]
    refine ⟨List.ne_nil_of_length_pos (hblocks ▸ blocksFor_pos hok.1), fun b hb => ?_⟩
    obtain ⟨i, hi⟩ := List.mem_iff_getElem?.mp hb
    have hlt := (List.getElem?_eq_some_iff.mp hi).1
    rw [h.received i (hdone i (by omega))] at hi
    exact (Option.some.inj hi).symm
  · refine List.ext_getElem? fun k => ?_
    by_cases hk : k < data.length
    · refine h.agrees k (hdone _ (lt_blocksFor_iff.mpr ?_))
      exact Nat.lt_of_le_of_lt (Nat.div_mul_le_self _ _) hk
    · rw [List.getElem?_eq_none (by omega), List.getElem?_eq_none (by omega)]

/-- The size is adopted with the first block. -/
theorem feed_adopted {order : List ℕ} (h : order ≠ []) (ex : MetadataExchange) :
    feed data ex order = feed data (ex.adopted data.length) order := by
  obtain ⟨i, order, rfl⟩ := List.exists_cons_of_ne_nil h
  rw [feed_cons, feed_cons]
  congr 1
  rcases ex.adoptSize_cases data.length with hadopt | ⟨hsame, -⟩
  · have hagain : (ex.adopted data.length).adoptSize data.length =
        .ok (ex.adopted data.length) := by
      unfold MetadataExchange.adopted
      split_ifs with hc
      · rfl
      · unfold MetadataExchange.adopted at hadopt
        rwa [if_neg hc] at hadopt
    unfold MetadataExchange.receiveBlock
    rw [hadopt, hagain]
  · rw [hsame]

end Feed

/-! ### Recovery -/

variable {sha1 : List UInt8 → Digest} {data : List UInt8} {ex : MetadataExchange} {order : List ℕ}

/-- The true size is adopted, or has been, if it can be and no other one has been. -/
theorem metadataSize_adopted_iff (hwf : WellFormed ex) :
    (ex.adopted data.length).metadataSize = some data.length ↔
      MetadataExchange.SizeOk data.length ∧ ∀ n, ex.metadataSize = some n → n = data.length := by
  constructor
  · intro hadopted
    refine ⟨((hwf.adopted data.length).sized _ hadopted).1, fun n hn => ?_⟩
    rw [ex.adopted_of_sized hn, hn] at hadopted
    exact Option.some.inj hadopted
  · rintro ⟨hok, hfirst⟩
    rw [metadataSize_adopted, if_pos hok]
    cases hknown : ex.metadataSize with
    | none => rfl
    | some n => exact congrArg some (hfirst n hknown)

/-- With the true size every block is stored. -/
theorem verify_feed_of_adopted (hwf : WellFormed ex) (hhash : ex.infoHash = sha1 data)
    (horder : ∀ i, i ∈ order ↔ i < blocksFor data.length)
    (hadopted : (ex.adopted data.length).metadataSize = some data.length) :
    ((feed data ex order).verify sha1).2 = .ok data := by
  have hstart : Progress data (ex.adopted data.length) [] :=
    ⟨hwf.adopted _, hadopted, nofun, nofun⟩
  have hok := ((hwf.adopted data.length).sized _ hadopted).1
  have hne : order ≠ [] := List.ne_nil_of_mem ((horder 0).mpr (blocksFor_pos hok.1))
  obtain ⟨done, hprogress, hsub, -⟩ := hstart.feed fun i hi => (horder i).mp hi
  obtain ⟨hall, hbuffer⟩ := hprogress.complete fun i hi => hsub ((horder i).mpr hi)
  rw [← feed_adopted hne] at hall hbuffer
  rcases verify_cases (feed data ex order) sha1 with ⟨hnot, -⟩ | ⟨-, hwrong, -⟩ | ⟨-, -, hv⟩
  · rw [hall] at hnot
    cases hnot
  · rw [hbuffer, infoHash_feed, hhash] at hwrong
    exact absurd rfl hwrong
  · rw [hv]
    exact congrArg Except.ok hbuffer

/-- With another size, or none that can be adopted, no block fits. -/
theorem unfit_of_not_adopted (hwf : WellFormed ex)
    (hnot : (ex.adopted data.length).metadataSize ≠ some data.length) :
    ex.adopted data.length = ex ∧ ∀ i, ¬ ex.Fits i data.length (blockOf data i) := by
  cases hknown : ex.metadataSize with
  | some n =>
    rw [ex.adopted_of_sized hknown, hknown] at hnot
    refine ⟨ex.adopted_of_sized hknown _, fun i hfits => hnot ?_⟩
    have hlen := hfits.size
    rw [hknown] at hlen
    rw [hlen]
    rfl
  | none =>
    have hrefused : ¬ MetadataExchange.SizeOk data.length := fun hok =>
      hnot ((metadataSize_adopted_iff hwf).mpr ⟨hok, fun n hn => by rw [hknown] at hn; cases hn⟩)
    refine ⟨if_neg fun hc => hrefused hc.2, fun i hfits => ?_⟩
    have hindex := hfits.index
    rw [(hwf.unsized hknown).1] at hindex
    exact Nat.not_lt_zero _ hindex

/-- **The verification succeeds** exactly if the true size is adopted with the first block. -/
theorem verify_feed_iff (hwf : WellFormed ex) (hnone : NoneReceived ex)
    (hhash : ex.infoHash = sha1 data) (horder : ∀ i, i ∈ order ↔ i < blocksFor data.length) :
    ((feed data ex order).verify sha1).2 = .ok data ↔
      (ex.adopted data.length).metadataSize = some data.length := by
  refine ⟨fun hverify => ?_, verify_feed_of_adopted hwf hhash horder⟩
  by_contra hnot
  obtain ⟨hsame, hunfit⟩ := unfit_of_not_adopted hwf hnot
  rw [feed_of_unfit hsame hunfit] at hverify
  rcases verify_cases ex sha1 with ⟨-, hv⟩ | ⟨hall, -⟩ | ⟨hall, -⟩
  · rw [hv] at hverify
    cases hverify
  · rw [hnone.allBlocksReceived] at hall
    cases hall
  · rw [hnone.allBlocksReceived] at hall
    cases hall

/-- **Honest peers complete the exchange exactly if the true size has been adopted**, or none yet:
from every state after a verification with the wrong hash, or in which no block has been accepted. -/
theorem recovers_iff (sha1 : List UInt8 → Digest) (data : List UInt8) (attack : List Call)
    (hattack : ∀ c ∈ attack, Call.FromPeers c)
    (hrestart : EndsInMismatch sha1 (.new (sha1 data)) attack ∨
      NoneAccepted sha1 (.new (sha1 data)) attack)
    (order : List ℕ) (horder : ∀ i, i ∈ order ↔ i < blocksFor data.length) :
    ((feed data (after sha1 (.new (sha1 data)) attack) order).verify sha1).2 = .ok data ↔
      MetadataExchange.SizeOk data.length ∧
        ∀ n, firstSize attack = some n → n = data.length := by
  have hnew : WellFormed (.new (sha1 data)) := ⟨fun _ => ⟨rfl, rfl⟩, nofun⟩
  have hwf : WellFormed (after sha1 (.new (sha1 data)) attack) := wellFormed_after hnew attack
  have hsize : (after sha1 (.new (sha1 data)) attack).metadataSize = firstSize attack :=
    metadataSize_after hattack
  have hhash : (after sha1 (.new (sha1 data)) attack).infoHash = sha1 data := infoHash_after attack
  have hnone : NoneReceived (after sha1 (.new (sha1 data)) attack) := by
    rcases hrestart with h | h
    · exact noneReceived_of_mismatch h
    · exact noneReceived_after nofun hattack h
  rw [verify_feed_iff hwf hnone hhash horder, metadataSize_adopted_iff hwf, hsize]

theorem recovers_iff_one_byte :
    ((feed [7] (after sha1Of (.new (sha1Of [7])) [.receiveBlock 0 1 [0], .verify])
      [0]).verify sha1Of).2 = .ok [7] := by
  have hmismatch : EndsInMismatch sha1Of (.new (sha1Of [7])) [.receiveBlock 0 1 [0], .verify] :=
    ⟨[.receiveBlock 0 1 [0]], _, _, rfl, rfl⟩
  have horder : ∀ i, i ∈ [0] ↔ i < blocksFor ([7] : List UInt8).length := by
    intro i
    rw [List.mem_singleton]
    exact Nat.lt_one_iff.symm
  refine (recovers_iff sha1Of [7] _ (by decide) (Or.inl hmismatch) [0] horder).mpr ⟨by decide, ?_⟩
  intro n hn
  cases hn
  rfl

/-- **A false size stays**: after the mismatch the true block is refused. -/
theorem false_size_stays :
    EndsInMismatch sha1Of (.new (sha1Of [7])) [.receiveBlock 0 2 [0, 0], .verify] ∧
    ((feed [7] (after sha1Of (.new (sha1Of [7])) [.receiveBlock 0 2 [0, 0], .verify])
      [0]).verify sha1Of).2 = .error (.incomplete 0 1) :=
  ⟨⟨[.receiveBlock 0 2 [0, 0]], _, _, rfl, rfl⟩, by decide⟩

end CncContent.Metadata.Recovery
