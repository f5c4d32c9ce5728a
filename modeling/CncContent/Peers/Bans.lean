import CncContent.Peers.Pool

/-! # Bans

A ban is a state of the peer's entry. The entry of a banned peer is never evicted, pruned or changed
back (`bannedIn_apply`), so that the peer is refused for good. A peer without an entry, because it never
was in the pool or has been evicted or pruned, has nothing that the ban could be written to: it gets in
as soon as there is room (`ban_holds_iff`). -/

namespace CncContent.Peers.Bans

open CncContent.Lib.FirstMatch CncContent.Peers.Pool

/-- The pool after the calls. -/
def perform (pool : PeerPool) (calls : List Call) : PeerPool := calls.foldl apply pool

/-- No attempt to add the peer succeeds, whatever happens before it. -/
def KeptOut (pool : PeerPool) (p : PeerId) : Prop :=
  ∀ later now, ((perform pool later).tryAdd p now).1 ≠ .ok ()

/-- The peer has an entry, and is banned. -/
def BannedIn (p : PeerId) (pool : PeerPool) : Prop :=
  ∃ e ∈ pool.entries, e.peerId = p ∧ e.state = .banned

variable {pool : PeerPool} {p : PeerId}

theorem nodup_perform (h : (ids pool).Nodup) (calls : List Call) :
    (ids (perform pool calls)).Nodup := by
  induction calls generalizing pool with
  | nil => exact h
  | cons call calls ih => exact ih (nodup_apply h call)

theorem config_perform (pool : PeerPool) (calls : List Call) :
    (perform pool calls).config = pool.config := by
  induction calls generalizing pool with
  | nil => rfl
  | cons call calls ih => exact (ih (apply pool call)).trans (config_apply pool call)

/-! ### Banned peers stay banned -/

/-- A change that lifts no ban. -/
theorem BannedIn.update (h : (ids pool).Nodup) (hb : BannedIn p pool) {q : PeerId}
    {f : PeerEntry → PeerEntry}
    (hf : ∀ e, e.state = .banned → (f e).peerId = e.peerId ∧ (f e).state = .banned) :
    BannedIn p (pool.update q f) := by
  obtain ⟨e, he, rfl, hs⟩ := hb
  by_cases hq : e.peerId = q
  · subst hq
    exact ⟨f e, mem_updateFirst_of_find? (get?_of_mem h he), hf e hs⟩
  · exact ⟨e, mem_updateFirst_of_neg he fun hd => hq (of_decide_eq_true hd), rfl, hs⟩

theorem tryAdd_of_banned (h : (ids pool).Nodup) (hb : BannedIn p pool) (now : ℕ) :
    pool.tryAdd p now = (.error .banned, pool) := by
  obtain ⟨e, he, rfl, hs⟩ := hb
  unfold PeerPool.tryAdd
  rw [get?_of_mem h he]
  dsimp only
  rw [hs]

theorem BannedIn.evictWorst (hb : BannedIn p pool) (now : ℕ) :
    BannedIn p (pool.evictWorst now).2 := by
  rcases evictWorst_cases pool now with h | ⟨idx, e', he', hactive, h⟩
  · rw [h]
    exact hb
  · obtain ⟨e, he, hp, hs⟩ := hb
    obtain ⟨i, hi⟩ := List.mem_iff_getElem?.mp he
    rw [h]
    refine ⟨e, List.mem_eraseIdx_iff_getElem?.mpr ⟨i, ?_, hi⟩, hp, hs⟩
    -- the one that goes is active
    rintro rfl
    cases he'.symm.trans hi
    cases hs.symm.trans hactive

/-- **A ban lasts.** -/
theorem bannedIn_apply (h : (ids pool).Nodup) (hb : BannedIn p pool) (call : Call) :
    BannedIn p (apply pool call) := by
  cases call with
  | recordDisconnect q now =>
    refine hb.update h fun e hs => ?_
    rw [disconnect_of_banned hs]
    exact ⟨rfl, hs⟩
  | updateScore q score => exact hb.update h fun e hs => ⟨rfl, hs⟩
  | ban q now => exact hb.update h fun e _ => ⟨rfl, rfl⟩
  | evictWorst now => exact hb.evictWorst now
  | pruneStale threshold now =>
    obtain ⟨e, he, hp, hs⟩ := hb
    refine ⟨e, List.mem_filter.mpr ⟨he, ?_⟩, hp, hs⟩
    rw [if_neg (hs ▸ nofun)]
  | tryAdd q now =>
    have hadd := added_tryAdd pool q now
    rw [apply]
    generalize pool.tryAdd q now = r at hadd
    cases hadd with
    | refused | there => exact hb
    | @returned e' he' hback =>
      obtain ⟨e, he, hp, hs⟩ := hb
      refine ⟨e, mem_updateFirst_of_neg he fun hd => ?_, hp, hs⟩
      -- who comes back was not banned
      have heq := (of_decide_eq_true hd : e.peerId = q) ▸ get?_of_mem h he
      cases he'.symm.trans heq
      cases hs.symm.trans (canReconnect_iff.mp hback).1
    | new =>
      obtain ⟨e, he, hp, hs⟩ := hb
      exact ⟨e, List.mem_append_left _ he, hp, hs⟩

theorem keptOut_of_banned (h : (ids pool).Nodup) (hb : BannedIn p pool) : KeptOut pool p := by
  intro later now
  induction later generalizing pool with
  | nil =>
    rw [perform, List.foldl_nil, tryAdd_of_banned h hb now]
    exact nofun
  | cons call later ih => exact ih (nodup_apply h call) (bannedIn_apply h hb call)

/-! ### Peers without an entry -/

/-- Whoever can leave the active ones does. -/
def disconnectAll (l : List PeerId) : List Call := l.map (.recordDisconnect · 0)

/-- After its disconnection a peer is not active. -/
theorem active_recordDisconnect (h : (ids pool).Nodup) {q : PeerId} {now : ℕ} {e : PeerEntry}
    (he : e ∈ (pool.recordDisconnect q now).entries) (hs : e.state = .active) :
    e ∈ pool.entries ∧ e.peerId ≠ q := by
  rcases mem_of_mem_updateFirst he with hmem | ⟨a, -, rfl⟩
  · refine ⟨hmem, fun hq => ?_⟩
    subst hq
    have hnew : e.disconnect now ∈ (pool.recordDisconnect e.peerId now).entries :=
      mem_updateFirst_of_find? (get?_of_mem h hmem)
    have hnodup := nodup_apply h (.recordDisconnect e.peerId now)
    have heq := List.inj_on_of_nodup_map hnodup he hnew (peerId_disconnect e now).symm
    exact state_disconnect e now (heq ▸ hs)
  · exact absurd hs (state_disconnect a now)

theorem active_disconnectAll : ∀ {l : List PeerId} {pool : PeerPool} {e : PeerEntry},
    (ids pool).Nodup → e ∈ (perform pool (disconnectAll l)).entries → e.state = .active →
    e ∈ pool.entries ∧ e.peerId ∉ l
  | [], _, _, _, he, _ => ⟨he, List.not_mem_nil⟩
  | q :: l, pool, e, h, he, hs => by
    obtain ⟨hmem, hl⟩ := active_disconnectAll (nodup_apply h (.recordDisconnect q 0)) he hs
    obtain ⟨hold, hq⟩ := active_recordDisconnect h hmem hs
    exact ⟨hold, fun hin => (List.mem_cons.mp hin).elim hq hl⟩

theorem ids_disconnectAll (l : List PeerId) :
    ids (perform pool (disconnectAll l)) = ids pool := by
  induction l generalizing pool with
  | nil => rfl
  | cons q l ih =>
    have hq : ids (pool.recordDisconnect q 0) = ids pool :=
      ids_update fun e => peerId_disconnect e 0
    exact ih.trans hq

theorem get?_eq_none (h : p ∉ ids pool) : pool.get? p = none :=
  List.find?_eq_none.mpr fun _ he hd => h (List.mem_map.mpr ⟨_, he, of_decide_eq_true hd⟩)

/-- **A peer without an entry** gets in when the others have left. -/
theorem not_keptOut (h : (ids pool).Nodup) (hp : p ∉ ids pool) (hmax : pool.config.maxPeers ≠ 0) :
    ¬ KeptOut pool p := by
  intro hkept
  refine hkept (disconnectAll (ids pool)) 0 ?_
  have hactive : (perform pool (disconnectAll (ids pool))).activeCount = 0 := by
    refine List.countP_eq_zero.mpr fun e he hs => ?_
    obtain ⟨hold, hnot⟩ := active_disconnectAll h he (of_decide_eq_true hs)
    exact hnot (List.mem_map_of_mem hold)
  have hnone := get?_eq_none ((ids_disconnectAll (ids pool)).symm ▸ hp)
  unfold PeerPool.tryAdd
  rw [hnone, hactive, config_perform]
  dsimp only
  rw [if_neg (by omega)]

/-- In a pool for nobody nobody gets an entry. -/
theorem ids_sublist_of_no_room (hmax : pool.config.maxPeers = 0) (call : Call) :
    (ids (apply pool call)).Sublist (ids pool) := by
  rcases ids_apply pool call with hsub | ⟨-, -, hroom, -⟩
  · exact hsub
  · omega

theorem keptOut_of_no_room (hp : p ∉ ids pool) (hmax : pool.config.maxPeers = 0) :
    KeptOut pool p := by
  intro later now
  induction later generalizing pool with
  | nil =>
    rw [perform, List.foldl_nil]
    unfold PeerPool.tryAdd
    rw [get?_eq_none hp]
    dsimp only
    rw [if_pos (by omega)]
    exact nofun
  | cons call later ih =>
    exact ih (fun h => hp ((ids_sublist_of_no_room hmax call).subset h))
      (config_apply pool call ▸ hmax)

/-- **Bans, exactly**: whatever has happened before, a banned peer is kept out for good if and only if
it has an entry in the pool when it is banned, or nobody is ever taken in. -/
theorem ban_holds_iff (config : PeerPoolConfig) (history : List Call) (p : PeerId) (now : ℕ) :
    let pool := perform (.new config) history
    KeptOut (pool.ban p now) p ↔ p ∈ ids pool ∨ config.maxPeers = 0 := by
  intro pool
  have hnodup : (ids pool).Nodup := nodup_perform (limited_new config).nodup history
  have hconfig : pool.config = config := config_perform _ history
  have hids : ids (pool.ban p now) = ids pool := ids_update fun _ => rfl
  by_cases hp : p ∈ ids pool
  · refine iff_of_true (keptOut_of_banned (hids.symm ▸ hnodup) ?_) (Or.inl hp)
    obtain ⟨e, he, rfl⟩ := List.mem_map.mp hp
    exact ⟨_, mem_updateFirst_of_find? (get?_of_mem hnodup he), rfl, rfl⟩
  · rw [or_iff_right hp]
    constructor
    · intro hkept
      by_contra hmax
      exact not_keptOut (hids.symm ▸ hnodup) (hids.symm ▸ hp) (hconfig.symm ▸ hmax) hkept
    · intro hmax
      exact keptOut_of_no_room (hids.symm ▸ hp) (hconfig.symm ▸ hmax)

/-- A peer that is banned before it is ever added. -/
theorem banned_before_added :
    ¬ KeptOut (PeerPool.withDefaults.ban (Vector.replicate 32 1) 0) (Vector.replicate 32 1) :=
  fun h => h [] 0 (by decide +kernel)

end CncContent.Peers.Bans
