import CncContent.Session.Manager

/-! # Activation

Every round of the loop of `activate_queued` moves one entry from the queue to a slot, and the loop ends
when there is no free slot or no entry that waits (`filled_activateQueued`). The entry has the highest
priority, and of that priority the earliest time. New entries are pushed at the end, so places and times
agree on who was added first; but of several entries with one time `max_by_key` takes the last one. So
an activation is fair exactly if no two entries share the first place in the queue (`fair_iff`). -/

namespace CncContent.Session.Activation

open CncContent.Lib.Greatest CncContent.Lib.Loop CncContent.Session.Manager

variable {s t : BasicSession}

/-! ### The queue -/

/-- The keys of the Queued entries. -/
def waiting (s : BasicSession) : List (ℤ ×ₗ ℕᵒᵈ) :=
  (s.entries.filter (·.state = .queued)).map key

/-- Which downloads have been added when. -/
def stamps (s : BasicSession) : List (DownloadHandle × ℕ) :=
  s.entries.map fun e => (e.handle, e.addedAt)

def times (s : BasicSession) : List ℕ := (stamps s).map Prod.snd

theorem map_key_queue (s : BasicSession) : s.queue.map (fun v => key v.1) = waiting s := by
  conv_rhs => rw [waiting, ← List.zipIdx_map_fst 0 s.entries, List.filter_map, List.map_map]
  rfl

theorem mem_queue {v : DownloadEntry × ℕ} :
    v ∈ s.queue ↔ s.entries[v.2]? = some v.1 ∧ v.1.state = .queued := by
  rw [BasicSession.queue, List.mem_filter, List.mem_zipIdx_iff_getElem?, decide_eq_true_iff]

theorem candidate_eq_none : s.candidate = none ↔ waiting s = [] := by
  rw [BasicSession.candidate, maxByKey_eq_none, ← map_key_queue, List.map_eq_nil_iff]

/-- The places in the queue increase. -/
theorem pairwise_queue : s.queue.Pairwise fun v w => v.2 < w.2 := by
  refine List.Pairwise.filter _ (List.pairwise_map.mp ?_)
  rw [List.zipIdx_map_snd]
  exact List.pairwise_lt_range'

/-- Over ordered times those in the queue are ordered. -/
theorem pairwise_times_queue (h : (times s).Pairwise (· ≤ ·)) :
    s.queue.Pairwise fun v w => v.1.addedAt ≤ w.1.addedAt := by
  refine List.Pairwise.filter _ (List.pairwise_map.mp ?_)
  rw [times, stamps, List.map_map, ← List.zipIdx_map_fst 0 s.entries, List.map_map] at h
  exact h

/-! ### Fair activations -/

/-- The entry that is activated comes first: every Queued entry has a lower priority, or the same one
and has not been added before it. -/
def Fair (s : BasicSession) : Prop :=
  ∀ v ∈ s.candidate, ∀ w ∈ s.queue,
    w.1.priority < v.1.priority ∨ w.1.priority = v.1.priority ∧ v.2 ≤ w.2

instance : DecidablePred Fair := fun s =>
  inferInstanceAs (Decidable (∀ v ∈ s.candidate, ∀ w ∈ s.queue,
    w.1.priority < v.1.priority ∨ w.1.priority = v.1.priority ∧ v.2 ≤ w.2))

/-- Two places in the queue have the greatest key. -/
def Tied (keys : List (ℤ ×ₗ ℕᵒᵈ)) : Prop :=
  ∃ k ∈ keys, (∀ k' ∈ keys, k' ≤ k) ∧ 2 ≤ keys.count k

theorem not_tied_of_length {keys : List (ℤ ×ₗ ℕᵒᵈ)} (h : keys.length ≤ 1) : ¬ Tied keys := by
  rintro ⟨k, -, -, hk⟩
  have := List.count_le_length (a := k) (l := keys)
  omega

theorem key_le {a b : DownloadEntry} :
    key a ≤ key b ↔ a.priority < b.priority ∨ a.priority = b.priority ∧ b.addedAt ≤ a.addedAt :=
  Prod.Lex.toLex_le_toLex

theorem key_lt {a b : DownloadEntry} :
    key a < key b ↔ a.priority < b.priority ∨ a.priority = b.priority ∧ b.addedAt < a.addedAt :=
  Prod.Lex.toLex_lt_toLex

/-- The list is tied at `k` if it is the greatest key and once more before its last occurrence. -/
theorem tied_iff {l₁ l₂ : List (ℤ ×ₗ ℕᵒᵈ)} {k : ℤ ×ₗ ℕᵒᵈ} (hl₁ : ∀ k' ∈ l₁, k' ≤ k)
    (hl₂ : ∀ k' ∈ l₂, k' < k) : Tied (l₁ ++ k :: l₂) ↔ k ∈ l₁ := by
  have hcount : (l₁ ++ k :: l₂).count k = l₁.count k + 1 := by
    rw [List.count_append, List.count_cons_self,
      List.count_eq_zero.mpr fun hk => (hl₂ k hk).false]
  have hle : ∀ k' ∈ l₁ ++ k :: l₂, k' ≤ k := by
    intro k' hk'
    rcases List.mem_append.mp hk' with hk' | hk'
    · exact hl₁ k' hk'
    · exact (List.mem_cons.mp hk').elim (·.le) fun hk' => (hl₂ k' hk').le
  have hmem : k ∈ l₁ ++ k :: l₂ := List.mem_append_right _ List.mem_cons_self
  constructor
  · rintro ⟨k', hk', hmax, htwo⟩
    obtain rfl := (hle k' hk').antisymm (hmax k hmem)
    exact List.count_pos_iff.mp (by omega)
  · intro hk
    exact ⟨k, hmem, hle, hcount ▸ Nat.succ_le_succ (List.count_pos_iff.mpr hk)⟩

/-- **An activation is fair** exactly if no two entries share the first place. -/
theorem fair_iff (htimes : (times s).Pairwise (· ≤ ·)) : Fair s ↔ ¬ Tied (waiting s) := by
  rcases hv : s.candidate with _ | v
  · rw [candidate_eq_none.mp hv]
    exact iff_of_true (fun w hw => by rw [hv] at hw; cases hw) (not_tied_of_length (Nat.zero_le 1))
  obtain ⟨l₁, l₂, hq, hl₁, hl₂⟩ := maxByKey_split hv
  have hplaces := pairwise_queue (s := s)
  have hordered := pairwise_times_queue htimes
  rw [hq, List.pairwise_append] at hplaces hordered
  have hkeys := map_key_queue s
  rw [hq, List.map_append, List.map_cons] at hkeys
  rw [← hkeys, tied_iff (List.forall_mem_map.mpr hl₁) (List.forall_mem_map.mpr hl₂)]
  unfold Fair
  rw [hv, hq]
  constructor
  · -- an entry before the candidate with its key has been added before it
    intro hfair hk
    obtain ⟨w, hw, hkw⟩ := List.mem_map.mp hk
    have hlt := hplaces.2.2 w hw v List.mem_cons_self
    have hprio : w.1.priority = v.1.priority := congrArg (fun k => (ofLex k).1) hkw
    rcases hfair v rfl w (List.mem_append_left _ hw) with h | ⟨-, h⟩ <;> omega
  · intro hk v' hv' w hw
    cases hv'
    rcases List.mem_append.mp hw with hw | hw
    · -- an earlier entry of the same priority would have the same key
      have hle := hordered.2.2 w hw v List.mem_cons_self
      rcases key_le.mp (hl₁ w hw) with h | ⟨hprio, htime⟩
      · exact Or.inl h
      · refine absurd (List.mem_map.mpr ⟨w, hw, ?_⟩) hk
        exact congrArg toLex (Prod.ext hprio (congrArg OrderDual.toDual (hle.antisymm htime)))
    · rcases List.mem_cons.mp hw with rfl | hw
      · exact Or.inr ⟨rfl, le_rfl⟩
      · have hlt := (List.pairwise_cons.mp hplaces.2.1).1 w hw
        exact (key_lt.mp (hl₂ w hw)).imp_right fun h => ⟨h.1, hlt.le⟩

/-! ### The loop of `activate_queued` -/

/-- At most all slots are taken, and an entry only waits while all are. -/
def Filled (s : BasicSession) : Prop :=
  s.activeCount ≤ s.config.maxActiveDownloads ∧
    ∀ e ∈ s.entries, e.state = .queued → s.activeCount = s.config.maxActiveDownloads

instance : DecidablePred Filled := fun s =>
  inferInstanceAs (Decidable (s.activeCount ≤ s.config.maxActiveDownloads ∧
    ∀ e ∈ s.entries, e.state = .queued → s.activeCount = s.config.maxActiveDownloads))

theorem waiting_eq_nil : waiting s = [] ↔ ∀ e ∈ s.entries, e.state ≠ .queued := by
  rw [waiting, List.map_eq_nil_iff, List.filter_eq_nil_iff]
  simp only [decide_eq_true_iff, ne_eq]

theorem filled_iff :
    Filled s ↔ s.activeCount ≤ s.config.maxActiveDownloads ∧
      (s.activeCount < s.config.maxActiveDownloads → waiting s = []) := by
  refine and_congr_right fun hle => ?_
  rw [waiting_eq_nil]
  constructor
  · intro h hlt e he hq
    have := h e he hq
    omega
  · intro h e he hq
    by_contra hne
    exact h (by omega) e he hq

section

variable {l₁ l₂ m : List DownloadEntry} {e : DownloadEntry}

/-- The taken slots if one entry is replaced. -/
theorem activeCount_replace (hs : s.entries = l₁ ++ e :: l₂) (ht : t.entries = l₁ ++ m ++ l₂) :
    t.activeCount + (if e.state = .downloading then 1 else 0) =
      s.activeCount + m.countP (·.state = .downloading) := by
  simp only [BasicSession.activeCount, hs, ht, List.countP_append, List.countP_cons,
    decide_eq_true_iff]
  omega

theorem length_waiting (s : BasicSession) :
    (waiting s).length = s.entries.countP (·.state = .queued) := by
  rw [waiting, List.length_map, List.countP_eq_length_filter]

/-- The waiting entries if one is replaced. -/
theorem length_waiting_replace (hs : s.entries = l₁ ++ e :: l₂)
    (ht : t.entries = l₁ ++ m ++ l₂) :
    (waiting t).length + (if e.state = .queued then 1 else 0) =
      (waiting s).length + m.countP (·.state = .queued) := by
  simp only [length_waiting, hs, ht, List.countP_append, List.countP_cons, decide_eq_true_iff]
  omega

end

theorem activateNext_eq_none :
    s.activateNext = none ↔
      (s.activeCount < s.config.maxActiveDownloads → waiting s = []) := by
  unfold BasicSession.activateNext
  split_ifs with h
  · rw [Option.map_eq_none_iff, candidate_eq_none]
    exact ⟨fun hw _ => hw, fun hw => hw h⟩
  · exact iff_of_true rfl fun h' => absurd h' h

/-- What a round leaves as it is. -/
structure Same (s t : BasicSession) : Prop where
  config : t.config = s.config
  stamps : stamps t = stamps s

/-- **One round** moves one entry from the queue to a slot. -/
theorem activateNext_cases (h : s.activateNext = some t) :
    s.activeCount < s.config.maxActiveDownloads ∧ t.activeCount = s.activeCount + 1 ∧
      (waiting t).length + 1 = (waiting s).length ∧ Same s t := by
  unfold BasicSession.activateNext at h
  split_ifs at h with hlt
  obtain ⟨v, hv, rfl⟩ := Option.map_eq_some_iff.mp h
  obtain ⟨l₁, l₂, hq, -⟩ := maxByKey_split hv
  obtain ⟨hplace, hstate⟩ := mem_queue.mp (hq ▸ List.mem_append_right l₁ List.mem_cons_self)
  obtain ⟨hlen, hget⟩ := List.getElem?_eq_some_iff.mp hplace
  obtain ⟨m₁, e, m₂, hs, hm, hmod⟩ := List.exists_of_modify
    (fun e : DownloadEntry => { e with state := .downloading }) hlen
  obtain rfl : e = v.1 := by
    rw [← hget]
    simp only [hs, ← hm, List.getElem_append_right le_rfl, Nat.sub_self, List.getElem_cons_zero]
  generalize ht : BasicSession.mk _ (s.entries.modify v.2 _) _ _ = t
  have hentries : t.entries = m₁ ++ [{ v.1 with state := .downloading }] ++ m₂ := by
    rw [← ht, List.append_assoc]
    exact hmod
  have hactive := activeCount_replace hs hentries
  have hwaiting := length_waiting_replace hs hentries
  rw [hstate] at hactive hwaiting
  refine ⟨hlt, hactive, hwaiting, ?_, ?_⟩
  · rw [← ht]
  · simp only [stamps, hentries, hs, List.map_append, List.map_cons, List.append_assoc,
      List.singleton_append]

theorem length_waiting_le : (waiting s).length ≤ s.entries.length :=
  length_waiting s ▸ List.countP_le_length

/-- The loop of `activate_queued` ends. -/
theorem activateNext_activateQueued (s : BasicSession) : s.activateQueued.activateNext = none :=
  next_exhaust (m := fun s => (waiting s).length)
    (fun _ _ h => by have := (activateNext_cases h).2.2.1; omega) length_waiting_le

theorem same_activateQueued (s : BasicSession) : Same s s.activateQueued := by
  refine exhaust_inv (I := Same s) (fun t u ht hu => ?_) _ ⟨rfl, rfl⟩
  obtain ⟨-, -, -, hsame⟩ := activateNext_cases hu
  exact ⟨hsame.config.trans ht.config, hsame.stamps.trans ht.stamps⟩

/-- **After the loop** no slot is free while an entry waits. -/
theorem filled_activateQueued (h : s.activeCount ≤ s.config.maxActiveDownloads) :
    Filled s.activateQueued := by
  refine filled_iff.mpr ⟨?_, activateNext_eq_none.mp (activateNext_activateQueued s)⟩
  refine exhaust_inv (I := fun t : BasicSession => t.activeCount ≤ t.config.maxActiveDownloads)
    (fun t u _ hu => ?_) _ h
  obtain ⟨hlt, hactive, -, hsame⟩ := activateNext_cases hu
  rw [hactive, hsame.config]
  exact hlt

/-- **A loop that has at most one entry to activate** is fair exactly if it has no slot for it or no two
entries share the first place. -/
theorem fair_activations (htimes : (times s).Pairwise (· ≤ ·))
    (hone : (waiting s).length ≤ 1 ∨ s.config.maxActiveDownloads ≤ s.activeCount + 1) :
    (∀ r ∈ s.activations, Fair r) ↔
      (s.activeCount < s.config.maxActiveDownloads → ¬ Tied (waiting s)) := by
  rcases hs : s.activateNext with _ | t
  · rw [BasicSession.activations, rounds_of_none hs]
    refine iff_of_true nofun fun hlt => ?_
    rw [activateNext_eq_none.mp hs hlt]
    exact not_tied_of_length (Nat.zero_le 1)
  · obtain ⟨hlt, hactive, hwaiting, hsame⟩ := activateNext_cases hs
    have ht : t.activateNext = none := by
      refine activateNext_eq_none.mpr fun hroom => List.eq_nil_of_length_eq_zero ?_
      rw [hactive, hsame.config] at hroom
      omega
    have hlen : s.entries.length = s.entries.length - 1 + 1 := by
      have := length_waiting_le (s := s)
      omega
    rw [BasicSession.activations, hlen, rounds_of_some hs ht, List.forall_mem_singleton,
      fair_iff htimes]
    exact ⟨fun h _ => h, fun h => h hlt⟩

end CncContent.Session.Activation
