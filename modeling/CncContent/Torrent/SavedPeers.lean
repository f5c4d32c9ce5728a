import CncContent.Peers.Tracker
import CncContent.Torrent.Resume

/-! # The file of peer states

The companion of the resume file: a header and an entry of 66 bytes for every peer. What has been
saved is loaded again, with as many exclusion counts as peers, and what is loaded is read from the
entries that the header counts and from nothing else (`load_save_and_exact`). -/

namespace CncContent.Torrent.SavedPeers

open CncContent.Lib.Bounded CncContent.Lib.Bytes CncContent.Lib.Checks
open CncContent.Peers.Tracker CncContent.Torrent.Resume

/-- `PEER_MAGIC`. -/
def peerMagic : List UInt8 := ['P', '2', 'P', 'P'].map byte

def peerVersion : UInt8 := 0x01

def peerEntrySize : ℕ := 66

def peerHeaderSize : ℕ := 9

structure PeerState where
  reputations : List PeerReputation
  exclusionCounts : List ℕ
deriving DecidableEq, Repr

def trustLevelToU8 : TrustLevel → UInt8
  | .untested => 0
  | .probationary => 1
  | .established => 2
  | .trusted => 3

def trustLevelFromU8 (b : UInt8) : TrustLevel :=
  if b = 0 then .untested
  else if b = 1 then .probationary
  else if b = 2 then .established
  else if b = 3 then .trusted
  else .untested

/-- `PeerId::from_bytes`. -/
def fromBytes (bytes : Vector UInt8 32) : PeerId := ⟨bytes, .random⟩

/-! ### Saving -/

/-- An entry, with its exclusion count. -/
def entryBytes (rep : PeerReputation) (exc : ℕ) : List UInt8 :=
  rep.peerId.bytes.toList ++ trustLevelToU8 rep.trustLevel ::
    (toLe 8 rep.lifetimePiecesServed ++ (toLe 4 rep.lifetimeCorruptionCount ++
      (toLe 8 rep.avgSpeedBytesPerSec ++ (toLe 8 rep.lastSeenUnixSecs ++
        (if rep.banned then 1 else 0) :: toLe 4 exc))))

/-- The loop of `save` over the reputations, from the index on. -/
def entriesFrom (exclusionCounts : List ℕ) : ℕ → List PeerReputation → List UInt8
  | _, [] => []
  | i, rep :: reps =>
    entryBytes rep (exclusionCounts[i]?.getD 0) ++ entriesFrom exclusionCounts (i + 1) reps

/-- The bytes `save` writes. -/
def save (st : PeerState) : List UInt8 :=
  peerMagic ++ peerVersion :: (toLe 4 (asU32 st.reputations.length) ++
    entriesFrom st.exclusionCounts 0 st.reputations)

/-! ### Loading -/

/-- One round of the loop of `load`. -/
def parseEntry (truncated : ResumeError) (entry : List UInt8) :
    Except ResumeError (PeerReputation × ℕ) := do
  let idBytes ← okOr (slice entry 0 32) truncated
  let peerId ← okOr (array 32 idBytes) truncated
  let trustByte ← okOr entry[32]? truncated
  let lps ← okOr (slice entry 33 41) truncated
  let lcc ← okOr (slice entry 41 45) truncated
  let avgSpeed ← okOr (slice entry 45 53) truncated
  let lastSeen ← okOr (slice entry 53 61) truncated
  let excCount ← okOr (slice entry 62 66) truncated
  return (⟨fromBytes peerId, trustLevelFromU8 trustByte, ofLe lps, ofLe lcc, ofLe avgSpeed,
    ofLe lastSeen, entry[61]?.getD 0 != 0⟩, ofLe excCount)

/-- The loop of `load`, with so many entries to read. -/
def parseEntries (data : List UInt8) (truncated : ResumeError) :
    ℕ → ℕ → Except ResumeError (List (PeerReputation × ℕ))
  | 0, _ => .ok []
  | k + 1, offset => do
    let entry ← okOr (slice data offset (satAdd u64Max offset peerEntrySize)) truncated
    let x ← parseEntry truncated entry
    let xs ← parseEntries data truncated k (satAdd u64Max offset peerEntrySize)
    return x :: xs

def expectedSize (entryCount : ℕ) : ℕ :=
  satAdd u64Max peerHeaderSize (satMul u64Max entryCount peerEntrySize)

/-- `load`, from the bytes of the file. -/
def load (data : List UInt8) : Except ResumeError PeerState := do
  let truncated := ResumeError.truncated peerHeaderSize data.length
  refuse (data.length < peerHeaderSize) truncated
  let magic ← okOr (slice data 0 4) truncated
  refuse (magic ≠ peerMagic) (.invalidMagic magic)
  let v ← okOr data[4]? truncated
  refuse (v ≠ peerVersion) (.unsupportedVersion v)
  let ecBytes ← okOr (slice data 5 9) truncated
  let size := expectedSize (ofLe ecBytes)
  refuse (data.length < size) (.truncated size data.length)
  let entries ← parseEntries data (.truncated size data.length) (ofLe ecBytes) peerHeaderSize
  return ⟨entries.map Prod.fst, entries.map Prod.snd⟩

/-! ### Entries -/

/-- The numbers fit the types of their fields. -/
structure Fits (rep : PeerReputation) : Prop where
  pieces : rep.lifetimePiecesServed ≤ u64Max
  corruptions : rep.lifetimeCorruptionCount ≤ u32Max
  speed : rep.avgSpeedBytesPerSec ≤ u64Max
  lastSeen : rep.lastSeenUnixSecs ≤ u64Max

/-- The reputation as it is loaded again: how the identity was derived is not stored. -/
def asLoaded (rep : PeerReputation) : PeerReputation :=
  { rep with peerId := fromBytes rep.peerId.bytes }

/-- `==` of two reputations. -/
def reputationEq (a b : PeerReputation) : Bool :=
  a.peerId.eq b.peerId && decide (a.trustLevel = b.trustLevel) &&
    decide (a.lifetimePiecesServed = b.lifetimePiecesServed) &&
    decide (a.lifetimeCorruptionCount = b.lifetimeCorruptionCount) &&
    decide (a.avgSpeedBytesPerSec = b.avgSpeedBytesPerSec) &&
    decide (a.lastSeenUnixSecs = b.lastSeenUnixSecs) && a.banned == b.banned

theorem reputationEq_asLoaded (rep : PeerReputation) : reputationEq (asLoaded rep) rep = true := by
  simp [reputationEq, asLoaded, fromBytes, PeerId.eq]

theorem trustLevelFromU8_toU8 (level : TrustLevel) :
    trustLevelFromU8 (trustLevelToU8 level) = level := by
  cases level <;> decide

section Entries

variable {rep : PeerReputation} {exc : ℕ}

theorem length_entryBytes (rep : PeerReputation) (exc : ℕ) :
    (entryBytes rep exc).length = peerEntrySize := by
  unfold entryBytes
  simp only [List.length_append, List.length_cons, length_toLe, Vector.length_toList]
  rfl

/-- **An entry is read back.** -/
theorem parseEntry_entryBytes (hrep : Fits rep) (hexc : exc ≤ u32Max) (truncated : ResumeError) :
    parseEntry truncated (entryBytes rep exc) = .ok (asLoaded rep, exc) := by
  obtain ⟨hpieces, hcorruptions, hspeed, hseen⟩ := hrep
  have h64 : u64Max < 256 ^ 8 := by decide
  have h32 : u32Max < 256 ^ 4 := by decide
  have hlps := ofLe_toLe (lt_of_le_of_lt hpieces h64)
  have hlcc := ofLe_toLe (lt_of_le_of_lt hcorruptions h32)
  have havg := ofLe_toLe (lt_of_le_of_lt hspeed h64)
  have hlast := ofLe_toLe (lt_of_le_of_lt hseen h64)
  have hcount := ofLe_toLe (lt_of_le_of_lt hexc h32)
  have hentry : entryBytes rep exc = rep.peerId.bytes.toList ++ trustLevelToU8 rep.trustLevel ::
    (toLe 8 rep.lifetimePiecesServed ++ (toLe 4 rep.lifetimeCorruptionCount ++
      (toLe 8 rep.avgSpeedBytesPerSec ++ (toLe 8 rep.lastSeenUnixSecs ++
        (if rep.banned then 1 else 0) :: toLe 4 exc)))) := rfl
  have l0 : rep.peerId.bytes.toList.length = 32 := Vector.length_toList
  have l1 := length_toLe 8 rep.lifetimePiecesServed
  have l2 := length_toLe 4 rep.lifetimeCorruptionCount
  have l3 := length_toLe 8 rep.avgSpeedBytesPerSec
  have l4 := length_toLe 8 rep.lastSeenUnixSecs
  have l5 := length_toLe 4 exc
  have harray : array 32 rep.peerId.bytes.toList = some rep.peerId.bytes := array_toList _
  set id := rep.peerId.bytes.toList
  set lps := toLe 8 rep.lifetimePiecesServed
  set lcc := toLe 4 rep.lifetimeCorruptionCount
  set avg := toLe 8 rep.avgSpeedBytesPerSec
  set last := toLe 8 rep.lastSeenUnixSecs
  set count := toLe 4 exc
  set trust := trustLevelToU8 rep.trustLevel with htrust
  set banned : UInt8 := if rep.banned then 1 else 0 with hbanned
  have s0 : slice (entryBytes rep exc) 0 32 = some id := slice_of_eq (l := []) hentry rfl (by rw [l0])
  have s1 : slice (entryBytes rep exc) 33 41 = some lps :=
    slice_of_eq (l := id ++ [trust]) (r := lcc ++ (avg ++ (last ++ banned :: count)))
      (by rw [hentry]; simp) (by simp [l0]) (by rw [l1])
  have s2 : slice (entryBytes rep exc) 41 45 = some lcc :=
    slice_of_eq (l := id ++ trust :: lps) (r := avg ++ (last ++ banned :: count))
      (by rw [hentry]; simp) (by simp [l0, l1]) (by rw [l2])
  have s3 : slice (entryBytes rep exc) 45 53 = some avg :=
    slice_of_eq (l := id ++ trust :: (lps ++ lcc)) (r := last ++ banned :: count)
      (by rw [hentry]; simp) (by simp [l0, l1, l2]) (by rw [l3])
  have s4 : slice (entryBytes rep exc) 53 61 = some last :=
    slice_of_eq (l := id ++ trust :: (lps ++ (lcc ++ avg))) (r := banned :: count)
      (by rw [hentry]; simp) (by simp [l0, l1, l2, l3]) (by rw [l4])
  have s5 : slice (entryBytes rep exc) 62 66 = some count :=
    slice_of_eq (l := id ++ trust :: (lps ++ (lcc ++ (avg ++ (last ++ [banned]))))) (r := [])
      (by rw [hentry]; simp) (by simp [l0, l1, l2, l3, l4]) (by rw [l5])
  have hbyte : (entryBytes rep exc)[32]? = some trust := by
    rw [hentry, List.getElem?_append_right (by omega), l0]
    rfl
  have hflag : (entryBytes rep exc)[61]? = some banned := by
    have hsplit : entryBytes rep exc =
        (id ++ trust :: (lps ++ (lcc ++ (avg ++ last)))) ++ banned :: count := by
      rw [hentry]
      simp
    have hlen : (id ++ trust :: (lps ++ (lcc ++ (avg ++ last)))).length = 61 := by
      simp [l0, l1, l2, l3, l4]
    rw [hsplit, List.getElem?_append_right hlen.le, hlen]
    rfl
  have hflagBool : (banned != 0) = rep.banned := by
    rw [hbanned]
    cases rep.banned <;> rfl
  unfold parseEntry
  simp only [bind_eq_ok, okOr_eq_ok]
  refine ⟨id, s0, rep.peerId.bytes, harray, trust, hbyte, lps, s1, lcc, s2, avg, s3, last, s4,
    count, s5, ?_⟩
  rw [hlps, hlcc, havg, hlast, hcount, hflag, Option.getD_some, hflagBool, htrust,
    trustLevelFromU8_toU8]
  rfl

end Entries

/-! ### The whole file -/

/-- What is loaded from the entries of the reputations, from the index on. -/
def loadedFrom (exclusionCounts : List ℕ) : ℕ → List PeerReputation → List (PeerReputation × ℕ)
  | _, [] => []
  | i, rep :: reps =>
    (asLoaded rep, exclusionCounts[i]?.getD 0) :: loadedFrom exclusionCounts (i + 1) reps

section File

variable {exclusionCounts : List ℕ} {data : List UInt8} {truncated truncated' : ResumeError}

theorem map_fst_loadedFrom : ∀ (reps : List PeerReputation) (i : ℕ),
    (loadedFrom exclusionCounts i reps).map Prod.fst = reps.map asLoaded
  | [], _ => rfl
  | _ :: reps, i => congrArg _ (map_fst_loadedFrom reps (i + 1))

/-- The exclusion counts are padded with 0 or cut. -/
theorem map_snd_loadedFrom : ∀ (reps : List PeerReputation) (i : ℕ),
    (loadedFrom exclusionCounts i reps).map Prod.snd = (exclusionCounts.drop i).takeD reps.length 0
  | [], _ => rfl
  | _ :: reps, i => by
    have ih := map_snd_loadedFrom reps (i + 1)
    rw [List.length_cons, List.takeD_succ, List.tail_drop, ← ih, List.head?_drop]
    rfl

theorem getD_le_of_forall_le (h : ∀ c ∈ exclusionCounts, c ≤ u32Max) (i : ℕ) :
    exclusionCounts[i]?.getD 0 ≤ u32Max := by
  rcases hc : exclusionCounts[i]? with _ | c
  · exact Nat.zero_le _
  · exact h c (List.mem_of_getElem? hc)

theorem length_entriesFrom : ∀ (reps : List PeerReputation) (i : ℕ),
    (entriesFrom exclusionCounts i reps).length = reps.length * peerEntrySize
  | [], _ => by
    rw [List.length_nil, Nat.zero_mul]
    rfl
  | _ :: reps, i => by
    rw [entriesFrom, List.length_append, length_entryBytes, length_entriesFrom reps (i + 1),
      List.length_cons, Nat.succ_mul, Nat.add_comm]

/-- **The entries are read back**, one after the other. -/
theorem parseEntries_entriesFrom (hcounts : ∀ c ∈ exclusionCounts, c ≤ u32Max) :
    ∀ {reps : List PeerReputation} (before : List UInt8) (i : ℕ), (∀ rep ∈ reps, Fits rep) →
      before.length + reps.length * peerEntrySize ≤ u64Max →
      parseEntries (before ++ entriesFrom exclusionCounts i reps) truncated reps.length before.length =
        .ok (loadedFrom exclusionCounts i reps)
  | [], _, _, _, _ => rfl
  | rep :: reps, before, i, hfit, hlen => by
    rw [List.length_cons, Nat.succ_mul] at hlen
    obtain ⟨hrep, hreps⟩ := List.forall_mem_cons.mp hfit
    set entry := entryBytes rep (exclusionCounts[i]?.getD 0) with hentry
    have hsize : entry.length = peerEntrySize := length_entryBytes rep _
    have hnext : satAdd u64Max before.length peerEntrySize = (before ++ entry).length := by
      rw [satAdd_of_le (by omega), List.length_append, hsize]
    have hbytes : before ++ entriesFrom exclusionCounts i (rep :: reps) =
        (before ++ entry) ++ entriesFrom exclusionCounts (i + 1) reps :=
      (List.append_assoc _ _ _).symm
    have hslice : slice (before ++ entriesFrom exclusionCounts i (rep :: reps)) before.length
        (satAdd u64Max before.length peerEntrySize) = some entry :=
      slice_of_eq rfl rfl (by rw [hnext, List.length_append])
    have hrest := parseEntries_entriesFrom hcounts (before ++ entry) (i + 1) hreps
      (by rw [List.length_append, hsize]; omega)
    rw [List.length_cons, parseEntries]
    simp only [bind_eq_ok, okOr_eq_ok]
    refine ⟨entry, hslice, _, parseEntry_entryBytes hrep (getD_le_of_forall_le hcounts i) truncated,
      _, ?_, rfl⟩
    rw [hnext, hbytes]
    exact hrest

/-- **What has been saved is loaded.** -/
theorem load_save {reputations : List PeerReputation} (hreps : reputations.length < 2 ^ 32)
    (hfit : ∀ rep ∈ reputations, Fits rep) (hcounts : ∀ c ∈ exclusionCounts, c ≤ u32Max) :
    load (save ⟨reputations, exclusionCounts⟩) =
      .ok ⟨reputations.map asLoaded, exclusionCounts.takeD reputations.length 0⟩ := by
  have hcount : ofLe (toLe 4 reputations.length) = reputations.length := ofLe_toLe (by omega)
  have hexpected : expectedSize reputations.length =
      peerHeaderSize + reputations.length * peerEntrySize := by
    unfold expectedSize satMul satAdd peerHeaderSize peerEntrySize u64Max
    omega
  have h4 := length_toLe 4 reputations.length
  have hsave : save ⟨reputations, exclusionCounts⟩ = peerMagic ++ peerVersion ::
      (toLe 4 reputations.length ++ entriesFrom exclusionCounts 0 reputations) := by
    unfold save
    rw [asU32_of_lt hreps]
  set count := toLe 4 reputations.length with hcountBytes
  clear_value count
  have hsplit : save ⟨reputations, exclusionCounts⟩ = (peerMagic ++ peerVersion :: count) ++
      entriesFrom exclusionCounts 0 reputations := by
    rw [hsave]
    simp
  have hheader : (peerMagic ++ peerVersion :: count).length = peerHeaderSize := by
    rw [List.length_append, List.length_cons, h4]
    rfl
  have hlen : (save ⟨reputations, exclusionCounts⟩).length =
      peerHeaderSize + reputations.length * peerEntrySize := by
    rw [hsplit, List.length_append, hheader, length_entriesFrom]
  have hmagic : slice (save ⟨reputations, exclusionCounts⟩) 0 4 = some peerMagic :=
    slice_of_eq (l := []) hsave rfl rfl
  have hversion : (save ⟨reputations, exclusionCounts⟩)[4]? = some peerVersion := by
    rw [hsave]
    rfl
  have hcountSlice : slice (save ⟨reputations, exclusionCounts⟩) 5 9 = some count :=
    slice_of_eq (l := peerMagic ++ [peerVersion]) (r := entriesFrom exclusionCounts 0 reputations)
      (by rw [hsave]; simp) rfl (by rw [h4])
  unfold load
  simp only [bind_eq_ok, okOr_eq_ok, refuse_eq_ok, decide_eq_false_iff_not]
  refine ⟨(), by omega, peerMagic, hmagic, (), by simp, peerVersion, hversion, (), by simp, count,
    hcountSlice, (), ?_, loadedFrom exclusionCounts 0 reputations, ?_, ?_⟩
  · rw [hcount, hexpected, hlen]
    exact lt_irrefl _
  · rw [hcount, hsplit, ← hheader]
    refine parseEntries_entriesFrom hcounts _ 0 hfit ?_
    rw [hheader]
    unfold peerHeaderSize peerEntrySize u64Max
    omega
  · rw [map_fst_loadedFrom, map_snd_loadedFrom]
    rfl

/-- The text of the error does not matter to what is read. -/
theorem parseEntry_ok_iff {entry : List UInt8} {x : PeerReputation × ℕ} :
    parseEntry truncated entry = .ok x ↔ parseEntry truncated' entry = .ok x := by
  unfold parseEntry
  simp only [bind_eq_ok, okOr_eq_ok]

theorem length_of_parseEntries : ∀ {k offset : ℕ} {xs : List (PeerReputation × ℕ)},
    parseEntries data truncated k offset = .ok xs → xs.length = k
  | 0, _, _, h => by
    cases h
    rfl
  | k + 1, offset, xs, h => by
    unfold parseEntries at h
    simp only [bind_eq_ok] at h
    obtain ⟨_, -, x, -, ys, hys, hxs⟩ := h
    cases hxs
    exact congrArg Nat.succ (length_of_parseEntries hys)

/-- **The entries are read from their place and from nothing else.** -/
theorem parseEntries_exact {n : ℕ} (hle : n ≤ data.length) (rest : List UInt8) :
    ∀ {k offset : ℕ} {xs : List (PeerReputation × ℕ)}, parseEntries data truncated k offset = .ok xs →
      offset + k * peerEntrySize ≤ n → offset + k * peerEntrySize ≤ u64Max →
        parseEntries (data.take n ++ rest) truncated' k offset = .ok xs
  | 0, _, _, h, _, _ => h
  | k + 1, offset, xs, h, hn, hmax => by
    rw [Nat.succ_mul] at hn hmax
    have hnext : satAdd u64Max offset peerEntrySize = offset + peerEntrySize :=
      satAdd_of_le (by omega)
    unfold parseEntries at h ⊢
    simp only [bind_eq_ok, okOr_eq_ok] at h ⊢
    obtain ⟨entry, hslice, x, hx, ys, hys, hxs⟩ := h
    rw [hnext] at hslice hys ⊢
    rw [slice_take_append (by omega) hle]
    exact ⟨entry, hslice, x, parseEntry_ok_iff.mp hx, ys,
      parseEntries_exact hle rest hys (by omega) (by omega), hxs⟩

/-- **What `load` reads**: the header, as many entries as it counts, and nothing behind them. -/
theorem load_exact {st : PeerState} (h : load data = .ok st) : ∃ count, slice data 5 9 = some count ∧
    peerHeaderSize + peerEntrySize * ofLe count ≤ data.length ∧ st.reputations.length = ofLe count ∧
    st.exclusionCounts.length = ofLe count ∧ ∀ rest : List UInt8,
      load (data.take (peerHeaderSize + peerEntrySize * ofLe count) ++ rest) = .ok st := by
  unfold load at h
  simp only [bind_eq_ok, okOr_eq_ok, refuse_eq_ok, decide_eq_false_iff_not] at h
  obtain ⟨-, hlen, magic, hmagic, -, hm, v, hv, -, hver, count, hcount, -, hsize, entries, hentries,
    hst⟩ := h
  cases hst
  have hlt := ofLe_lt count
  have hcountLen : count.length = 4 := by
    obtain ⟨-, hb, -⟩ := slice_eq_some_iff.mp hcount
    omega
  rw [hcountLen] at hlt
  have hexpected : expectedSize (ofLe count) = peerHeaderSize + peerEntrySize * ofLe count := by
    unfold expectedSize satMul satAdd peerHeaderSize peerEntrySize u64Max
    omega
  rw [hexpected] at hsize
  have hle := Nat.le_of_not_lt hsize
  have hmul : ofLe count * peerEntrySize = peerEntrySize * ofLe count := Nat.mul_comm _ _
  have hmax : peerHeaderSize + ofLe count * peerEntrySize ≤ u64Max := by
    unfold peerHeaderSize peerEntrySize u64Max
    omega
  have hheader : 9 ≤ peerHeaderSize + peerEntrySize * ofLe count := Nat.le_add_right _ _
  refine ⟨count, hcount, hle, ?_, ?_, fun rest => ?_⟩
  · rw [List.length_map]
    exact length_of_parseEntries hentries
  · rw [List.length_map]
    exact length_of_parseEntries hentries
  · have htake : (data.take (peerHeaderSize + peerEntrySize * ofLe count)).length =
        peerHeaderSize + peerEntrySize * ofLe count := List.length_take_of_le hle
    unfold load
    simp only [bind_eq_ok, okOr_eq_ok, refuse_eq_ok, decide_eq_false_iff_not]
    rw [slice_take_append (by omega) hle, slice_take_append hheader hle,
      List.getElem?_append_left (by omega), List.getElem?_take_of_lt (by omega), List.length_append,
      htake]
    refine ⟨(), by unfold peerHeaderSize; omega, magic, hmagic, (), hm, v, hv, (), hver, count,
      hcount, (), ?_, entries, ?_, rfl⟩
    · rw [hexpected]
      omega
    · exact parseEntries_exact hle rest hentries (by omega) hmax

end File

/-- **Saving and loading.** Fewer than 2^32 reputations are loaded as they were saved, by the equality
of reputations, and with them the exclusion counts, padded with 0 or cut. What is loaded from any bytes
is read from the header and from the entries it counts. -/
theorem load_save_and_exact (reputations : List PeerReputation) (exclusionCounts : List ℕ)
    (hreps : reputations.length < 2 ^ 32) (hfit : ∀ rep ∈ reputations, Fits rep)
    (hcounts : ∀ c ∈ exclusionCounts, c ≤ u32Max) :
    (∃ loaded, load (save ⟨reputations, exclusionCounts⟩) = .ok loaded ∧
      List.Forall₂ (fun a b => reputationEq a b = true) loaded.reputations reputations ∧
      loaded.exclusionCounts = exclusionCounts.takeD reputations.length 0) ∧
    ∀ data st, load data = .ok st → ∃ count, slice data 5 9 = some count ∧
      peerHeaderSize + peerEntrySize * ofLe count ≤ data.length ∧
      st.reputations.length = ofLe count ∧ st.exclusionCounts.length = ofLe count ∧
      ∀ rest : List UInt8,
        load (data.take (peerHeaderSize + peerEntrySize * ofLe count) ++ rest) = .ok st := by
  refine ⟨⟨_, load_save hreps hfit hcounts, ?_, rfl⟩, fun data st => load_exact⟩
  rw [List.forall₂_map_left_iff, List.forall₂_same]
  exact fun rep _ => reputationEq_asLoaded rep

/-- A peer that is trusted and banned. -/
def onePeer : PeerReputation :=
  ⟨⟨Vector.replicate 32 7, .hashed⟩, .trusted, 500, 2, 50000, 1700000000, true⟩

theorem load_save_and_exact_two : ∃ loaded, load (save ⟨[onePeer, onePeer], [3]⟩) = .ok loaded ∧
    loaded.exclusionCounts = [3, 0] := by
  have hfit : Fits onePeer := ⟨by decide, by decide, by decide, by decide⟩
  obtain ⟨⟨loaded, hload, -, hcounts⟩, -⟩ := load_save_and_exact [onePeer, onePeer] [3] (by decide)
    (List.forall_mem_cons.mpr ⟨hfit, List.forall_mem_singleton.mpr hfit⟩)
    (List.forall_mem_singleton.mpr (by decide))
  exact ⟨loaded, hload, hcounts⟩

end CncContent.Torrent.SavedPeers
