import CncContent.Lib.FirstMatch
import CncContent.Lib.Runs
import CncContent.Peers.Tracker
import Mathlib.Data.List.MinMax
import Mathlib.Data.List.Nodup

/-! # The peer pool

`PeerPool` of the source: the peers that are connected, those that have been and may come back after a
while, and those that are banned. An instant is a number of nanoseconds, a duration too.

No peer is in the pool twice. A new peer is only taken in while fewer than `maxPeers` are active, but
one that comes back after a disconnection is taken in however many are active; the limit is kept
exactly by the runs in which nobody comes back to a full pool (`limit_iff`). -/

namespace CncContent.Peers.Pool

open CncContent.Lib.Bounded CncContent.Lib.FirstMatch CncContent.Lib.Runs
open CncContent.Peers.Tracker (durationMax durationSince)

def defaultMaxPeers : ℕ := 55

def initialBackoff : ℕ := 5 * 10 ^ 9

def maxBackoff : ℕ := 300 * 10 ^ 9

def backoffMultiplier : ℕ := 2

def evictionScoreThreshold : ℕ := 100

def minActiveDuration : ℕ := 30 * 10 ^ 9

structure PeerPoolConfig where
  maxPeers : ℕ
  evictionThreshold : ℕ
  minActiveDuration : ℕ
deriving DecidableEq, Repr

def PeerPoolConfig.default : PeerPoolConfig :=
  ⟨defaultMaxPeers, evictionScoreThreshold, Pool.minActiveDuration⟩

abbrev PeerId := Vector UInt8 32

inductive PeerState
  | active
  | disconnected
  | banned
deriving DecidableEq, Repr

structure PeerEntry where
  peerId : PeerId
  state : PeerState
  score : ℕ
  disconnectCount : ℕ
  stateChangedAt : ℕ
  reconnectAfter : Option ℕ
deriving DecidableEq, Repr

/-- The time until a peer may come back after so many disconnections. -/
def backoff (disconnectCount : ℕ) : ℕ :=
  min (satMul durationMax initialBackoff (satPow u32Max backoffMultiplier (disconnectCount - 1)))
    maxBackoff

namespace PeerEntry

def newActive (peerId : PeerId) (now : ℕ) : PeerEntry := ⟨peerId, .active, 0, 0, now, none⟩

variable (e : PeerEntry)

def timeInState (now : ℕ) : ℕ := durationSince now e.stateChangedAt

def canReconnect (now : ℕ) : Bool :=
  match e.state with
  | .disconnected => (e.reconnectAfter.map fun deadline => decide (deadline ≤ now)).getD true
  | .active | .banned => false

/-- The entry after a disconnection; a ban stays. -/
def disconnect (now : ℕ) : PeerEntry :=
  if e.state = .banned then e
  else
    let count := satAdd u32Max e.disconnectCount 1
    { e with
      disconnectCount := count
      state := .disconnected
      stateChangedAt := now
      reconnectAfter := some (now + backoff count) }

end PeerEntry

inductive PoolFullError
  | atCapacity (maxPeers : ℕ)
  | backoffActive
  | banned
deriving DecidableEq, Repr

structure PeerPool where
  config : PeerPoolConfig
  entries : List PeerEntry
deriving DecidableEq, Repr

namespace PeerPool

def new (config : PeerPoolConfig) : PeerPool := ⟨config, []⟩

def withDefaults : PeerPool := new .default

variable (pool : PeerPool)

def get? (peerId : PeerId) : Option PeerEntry := pool.entries.find? (·.peerId = peerId)

/-- The entry of the peer changed, if there is one. -/
def update (peerId : PeerId) (f : PeerEntry → PeerEntry) : PeerPool :=
  { pool with entries := updateFirst (·.peerId = peerId) f pool.entries }

def activeCount : ℕ := pool.entries.countP (·.state = .active)

def tryAdd (peerId : PeerId) (now : ℕ) : Except PoolFullError Unit × PeerPool :=
  match pool.get? peerId with
  | some entry =>
    match entry.state with
    | .banned => (.error .banned, pool)
    | .active => (.ok (), pool)
    | .disconnected =>
      if entry.canReconnect now then
        (.ok (), pool.update peerId fun e => { e with state := .active, stateChangedAt := now })
      else (.error .backoffActive, pool)
  | none =>
    if pool.config.maxPeers ≤ pool.activeCount then
      (.error (.atCapacity pool.config.maxPeers), pool)
    else (.ok (), { pool with entries := pool.entries ++ [.newActive peerId now] })

def recordDisconnect (peerId : PeerId) (now : ℕ) : PeerPool :=
  pool.update peerId fun e => e.disconnect now

def ban (peerId : PeerId) (now : ℕ) : PeerPool :=
  pool.update peerId fun e =>
    { e with state := .banned, stateChangedAt := now, reconnectAfter := none }

def updateScore (peerId : PeerId) (score : ℕ) : PeerPool :=
  pool.update peerId fun e => { e with score := score }

/-- Of several candidates with the lowest score the first one goes, as `min_by_key` returns it. -/
def evictWorst (now : ℕ) : Option PeerId × PeerPool :=
  let candidates := pool.entries.zipIdx.filter fun c => c.1.state = .active ∧
    pool.config.minActiveDuration ≤ c.1.timeInState now ∧ c.1.score < pool.config.evictionThreshold
  match candidates.argmin (·.1.score) with
  | some (entry, idx) => (some entry.peerId, { pool with entries := pool.entries.eraseIdx idx })
  | none => (none, pool)

def pruneStale (staleThreshold now : ℕ) : PeerPool :=
  { pool with entries := pool.entries.filter fun e =>
      if e.state = .disconnected then decide (e.timeInState now < staleThreshold) else true }

end PeerPool

/-! ### Calls -/

inductive Call
  | tryAdd (peerId : PeerId) (now : ℕ)
  | recordDisconnect (peerId : PeerId) (now : ℕ)
  | updateScore (peerId : PeerId) (score : ℕ)
  | ban (peerId : PeerId) (now : ℕ)
  | evictWorst (now : ℕ)
  | pruneStale (staleThreshold now : ℕ)
deriving DecidableEq, Repr

/-- The pool after a call. -/
def apply (pool : PeerPool) : Call → PeerPool
  | .tryAdd peerId now => (pool.tryAdd peerId now).2
  | .recordDisconnect peerId now => pool.recordDisconnect peerId now
  | .updateScore peerId score => pool.updateScore peerId score
  | .ban peerId now => pool.ban peerId now
  | .evictWorst now => (pool.evictWorst now).2
  | .pruneStale staleThreshold now => pool.pruneStale staleThreshold now

def step (pool : PeerPool) (call : Call) : Option PeerPool := some (apply pool call)

/-- The peers in the pool. -/
def ids (pool : PeerPool) : List PeerId := pool.entries.map (·.peerId)

/-- No peer is in the pool twice, and the limit is kept. -/
structure Limited (pool : PeerPool) : Prop where
  nodup : (ids pool).Nodup
  active : pool.activeCount ≤ pool.config.maxPeers

/-- A disconnected peer comes back although as many as allowed are active. -/
def ReturnsToFull (pool : PeerPool) : Call → Prop
  | .tryAdd peerId now => (∃ e, pool.get? peerId = some e ∧ e.canReconnect now = true) ∧
    pool.config.maxPeers ≤ pool.activeCount
  | _ => False

/-! ### What the calls do -/

variable {pool : PeerPool}

theorem canReconnect_iff {e : PeerEntry} {now : ℕ} : e.canReconnect now = true ↔
    e.state = .disconnected ∧ ∀ deadline, e.reconnectAfter = some deadline → deadline ≤ now := by
  unfold PeerEntry.canReconnect
  rcases hs : e.state with _ | _ | _
  · exact ⟨nofun, nofun⟩
  · rcases e.reconnectAfter with _ | deadline
    · exact ⟨fun _ => ⟨rfl, nofun⟩, fun _ => rfl⟩
    · refine ⟨fun h => ⟨rfl, ?_⟩, fun h => decide_eq_true (h.2 deadline rfl)⟩
      rintro _ ⟨⟩
      exact of_decide_eq_true h
  · exact ⟨nofun, nofun⟩

theorem peerId_disconnect (e : PeerEntry) (now : ℕ) : (e.disconnect now).peerId = e.peerId := by
  unfold PeerEntry.disconnect
  split_ifs <;> rfl

theorem disconnect_of_banned {e : PeerEntry} (h : e.state = .banned) (now : ℕ) :
    e.disconnect now = e := if_pos h

theorem state_disconnect (e : PeerEntry) (now : ℕ) : (e.disconnect now).state ≠ .active := by
  unfold PeerEntry.disconnect
  split_ifs with hs
  · rw [hs]
    exact nofun
  · exact nofun

theorem ids_update {p : PeerId} {f : PeerEntry → PeerEntry} (hf : ∀ e, (f e).peerId = e.peerId) :
    ids (pool.update p f) = ids pool := map_updateFirst fun e _ => hf e

/-- An update that activates nobody. -/
theorem activeCount_update_le {p : PeerId} {f : PeerEntry → PeerEntry}
    (hf : ∀ e, (f e).state = .active → e.state = .active) :
    (pool.update p f).activeCount ≤ pool.activeCount := by
  change (updateFirst (·.peerId = p) f pool.entries).countP (·.state = .active) ≤
    pool.entries.countP (·.state = .active)
  rcases hfind : pool.entries.find? (·.peerId = p) with _ | e
  · rw [updateFirst_of_find?_eq_none hfind]
  · have hcount := countP_updateFirst (f := f) (q := (·.state = .active)) hfind
    by_cases he : (f e).state = .active
    · rw [if_pos (decide_eq_true he), if_pos (decide_eq_true (hf e he))] at hcount
      omega
    · rw [if_neg fun hd => he (of_decide_eq_true hd)] at hcount
      omega

/-- The update of an active entry of a peer that was not active. -/
theorem activeCount_update_of_active {p : PeerId} {f : PeerEntry → PeerEntry} {e : PeerEntry}
    (he : pool.get? p = some e) (hbefore : e.state ≠ .active) (hafter : (f e).state = .active) :
    (pool.update p f).activeCount = pool.activeCount + 1 := by
  have hcount := countP_updateFirst (f := f) (q := (·.state = .active)) he
  rw [if_pos (decide_eq_true hafter), if_neg fun hd => hbefore (of_decide_eq_true hd)] at hcount
  exact hcount

/-- What an attempt to add a peer does. -/
inductive Added (pool : PeerPool) (p : PeerId) (now : ℕ) :
    Except PoolFullError Unit × PeerPool → Prop
  | refused {error : PoolFullError}
      (hno : ∀ e, pool.get? p = some e → e.canReconnect now ≠ true) :
      Added pool p now (.error error, pool)
  | there (hactive : ∃ e, pool.get? p = some e ∧ e.state = .active) : Added pool p now (.ok (), pool)
  | returned {e : PeerEntry} (he : pool.get? p = some e) (hback : e.canReconnect now = true) :
      Added pool p now
        (.ok (), pool.update p fun e => { e with state := .active, stateChangedAt := now })
  | new (hnone : pool.get? p = none) (hroom : pool.activeCount < pool.config.maxPeers) :
      Added pool p now (.ok (), { pool with entries := pool.entries ++ [.newActive p now] })

theorem added_tryAdd (pool : PeerPool) (p : PeerId) (now : ℕ) :
    Added pool p now (pool.tryAdd p now) := by
  have hno : ∀ {e}, pool.get? p = some e → e.state ≠ .disconnected →
      ∀ e', pool.get? p = some e' → e'.canReconnect now ≠ true := by
    intro e he hs e' he' hback
    cases he.symm.trans he'
    exact hs (canReconnect_iff.mp hback).1
  unfold PeerPool.tryAdd
  rcases he : pool.get? p with _ | e
  · dsimp only
    split_ifs with hfull
    · exact .refused (by rw [he]; exact nofun)
    · exact .new he (Nat.lt_of_not_le hfull)
  · dsimp only
    split
    case h_1 hs => exact .refused (hno he (hs ▸ nofun))
    case h_2 hs => exact .there ⟨e, he, hs⟩
    case h_3 hs =>
      split_ifs with hback
      · exact .returned he hback
      · refine .refused fun e' he' => ?_
        cases he.symm.trans he'
        exact hback

/-- An eviction takes an active peer. -/
theorem evictWorst_cases (pool : PeerPool) (now : ℕ) : (pool.evictWorst now).2 = pool ∨
    ∃ idx e, pool.entries[idx]? = some e ∧ e.state = .active ∧
      (pool.evictWorst now).2 = { pool with entries := pool.entries.eraseIdx idx } := by
  unfold PeerPool.evictWorst
  dsimp only
  split
  case h_1 e idx hmin =>
    obtain ⟨hmem, hcandidate⟩ := List.mem_filter.mp (List.argmin_mem hmin)
    exact Or.inr ⟨idx, e, List.mk_mem_zipIdx_iff_getElem?.mp hmem,
      (of_decide_eq_true hcandidate).1, rfl⟩
  case h_2 => exact Or.inl rfl

theorem entries_evictWorst (now : ℕ) :
    ((pool.evictWorst now).2.entries).Sublist pool.entries := by
  rcases evictWorst_cases pool now with h | ⟨idx, e, -, -, h⟩
  · rw [h]
  · rw [h]
    exact List.eraseIdx_sublist _ _

theorem config_apply (pool : PeerPool) (call : Call) : (apply pool call).config = pool.config := by
  cases call with
  | tryAdd p now =>
    have hadd := added_tryAdd pool p now
    rw [apply]
    generalize pool.tryAdd p now = r at hadd
    cases hadd <;> rfl
  | evictWorst now =>
    rw [apply]
    rcases evictWorst_cases pool now with h | ⟨idx, e, -, -, h⟩ <;> rw [h]
  | recordDisconnect | updateScore | ban | pruneStale => rfl

theorem notMem_ids {p : PeerId} (h : pool.get? p = none) : p ∉ ids pool := by
  intro hmem
  obtain ⟨e, he, hp⟩ := List.mem_map.mp hmem
  exact List.find?_eq_none.mp h e he (decide_eq_true hp)

/-- The entry of a peer is the one that is found. -/
theorem get?_of_mem (h : (ids pool).Nodup) {e : PeerEntry} (he : e ∈ pool.entries) :
    pool.get? e.peerId = some e := by
  rcases hget : pool.get? e.peerId with _ | e'
  · exact absurd (List.mem_map_of_mem he) (notMem_ids hget)
  · have hid : decide (e'.peerId = e.peerId) = true :=
      List.find?_some (p := fun e' : PeerEntry => decide (e'.peerId = e.peerId)) hget
    rw [List.inj_on_of_nodup_map h (List.mem_of_find?_eq_some hget) he (of_decide_eq_true hid)]

theorem ids_sublist_of_update {p : PeerId} {f : PeerEntry → PeerEntry}
    (hf : ∀ e, (f e).peerId = e.peerId) : (ids (pool.update p f)).Sublist (ids pool) := by
  rw [ids_update hf]

/-- **What a call does to the peers in the pool**: some may leave, or a new one comes in while there is
room. -/
theorem ids_apply (pool : PeerPool) (call : Call) : (ids (apply pool call)).Sublist (ids pool) ∨
    ∃ p, pool.get? p = none ∧ pool.activeCount < pool.config.maxPeers ∧
      ids (apply pool call) = ids pool ++ [p] := by
  cases call with
  | recordDisconnect p now => exact Or.inl (ids_sublist_of_update (peerId_disconnect · now))
  | updateScore p score =>
    refine Or.inl (ids_sublist_of_update ?_)
    exact fun _ => rfl
  | ban p now =>
    refine Or.inl (ids_sublist_of_update ?_)
    exact fun _ => rfl
  | pruneStale threshold now => exact Or.inl (List.filter_sublist.map _)
  | evictWorst now => exact Or.inl ((entries_evictWorst now).map _)
  | tryAdd p now =>
    have hadd := added_tryAdd pool p now
    rw [apply]
    generalize pool.tryAdd p now = r at hadd
    cases hadd with
    | refused | there => exact Or.inl (List.Sublist.refl _)
    | returned =>
      refine Or.inl (ids_sublist_of_update ?_)
      exact fun _ => rfl
    | new hnone hroom => exact Or.inr ⟨p, hnone, hroom, List.map_append⟩

/-- **No peer is in the pool twice.** -/
theorem nodup_apply (h : (ids pool).Nodup) (call : Call) : (ids (apply pool call)).Nodup := by
  rcases ids_apply pool call with hsub | ⟨p, hnone, -, hids⟩
  · exact h.sublist hsub
  · rw [hids, List.nodup_append_comm]
    exact List.nodup_cons.mpr ⟨notMem_ids hnone, h⟩

/-- An attempt to add a peer keeps the limit unless the peer comes back to a full pool. -/
theorem activeCount_tryAdd_iff (h : pool.activeCount ≤ pool.config.maxPeers) (p : PeerId) (now : ℕ) :
    (apply pool (.tryAdd p now)).activeCount ≤ pool.config.maxPeers ↔
      ¬ ReturnsToFull pool (.tryAdd p now) := by
  have hadd := added_tryAdd pool p now
  rw [apply]
  generalize pool.tryAdd p now = r at hadd
  cases hadd with
  | refused hno => exact iff_of_true h fun ⟨⟨e, he, hback⟩, _⟩ => hno e he hback
  | there hactive =>
    obtain ⟨e, he, hs⟩ := hactive
    refine iff_of_true h fun ⟨⟨e', he', hback⟩, _⟩ => ?_
    cases he.symm.trans he'
    cases hs.symm.trans (canReconnect_iff.mp hback).1
  | @returned e he hback =>
    have hstate : e.state ≠ .active := by
      rw [(canReconnect_iff.mp hback).1]
      exact nofun
    dsimp only
    rw [activeCount_update_of_active he hstate rfl, Nat.succ_le_iff, ← Nat.not_le]
    exact not_congr ⟨fun hfull => ⟨⟨_, he, hback⟩, hfull⟩, And.right⟩
  | new hnone hroom =>
    refine iff_of_true ?_ fun hfull => Nat.not_le_of_lt hroom hfull.2
    change (pool.entries ++ [PeerEntry.newActive p now]).countP _ ≤ pool.config.maxPeers
    rw [List.countP_append]
    exact hroom

/-- **A call keeps the limit** unless a peer comes back to a full pool. -/
theorem activeCount_apply_iff (h : pool.activeCount ≤ pool.config.maxPeers) (call : Call) :
    (apply pool call).activeCount ≤ pool.config.maxPeers ↔ ¬ ReturnsToFull pool call := by
  cases call with
  | recordDisconnect p now =>
    refine iff_of_true ((activeCount_update_le fun e he => ?_).trans h) id
    exact absurd he (state_disconnect e now)
  | updateScore p score =>
    have hle : (pool.updateScore p score).activeCount ≤ pool.activeCount :=
      activeCount_update_le fun _ => id
    exact iff_of_true (hle.trans h) id
  | ban p now =>
    refine iff_of_true ((activeCount_update_le ?_).trans h) id
    exact fun _ hbanned => by cases hbanned
  | pruneStale threshold now => exact iff_of_true (List.filter_sublist.countP_le.trans h) id
  | evictWorst now => exact iff_of_true ((entries_evictWorst now).countP_le.trans h) id
  | tryAdd p now => exact activeCount_tryAdd_iff h p now

theorem limited_new (config : PeerPoolConfig) : Limited (.new config) :=
  ⟨List.nodup_nil, Nat.zero_le _⟩

/-- **The limit, exactly**: in every state of a run no peer is in the pool twice and at most `maxPeers`
are active, if and only if nobody comes back to a full pool. -/
theorem limit_iff (config : PeerPoolConfig) (calls : List Call) :
    Always step Limited (.new config) calls ↔
      Meets step (fun pool call => ¬ ReturnsToFull pool call) (.new config) calls := by
  refine always_iff_meets (I := fun _ => True) (fun _ _ _ _ _ _ => trivial) ?_ nofun trivial
    (limited_new config)
  rintro pool call _ - h ⟨⟩
  rw [← activeCount_apply_iff h.active call, ← config_apply pool call]
  exact ⟨Limited.active, fun hactive => ⟨nodup_apply h.nodup call, hactive⟩⟩

/-- A pool for one peer: a second one is taken in while the first is away. -/
theorem two_in_pool_of_one :
    let peer (n : UInt8) : PeerId := Vector.replicate 32 n
    let calls : List Call := [.tryAdd (peer 1) 0, .recordDisconnect (peer 1) 0, .tryAdd (peer 2) 0,
      .tryAdd (peer 1) initialBackoff]
    ¬ Always step Limited (.new ⟨1, 0, 0⟩) calls := by
  intro peer calls h
  have hrun : ∃ pool, run step (.new ⟨1, 0, 0⟩) calls = some pool ∧ pool.activeCount = 2 ∧
      pool.config.maxPeers = 1 := ⟨_, rfl, by decide +kernel, rfl⟩
  obtain ⟨pool, hrun, hactive, hmax⟩ := hrun
  have hlimit := (h.last hrun).active
  omega

end CncContent.Peers.Pool
