import CncContent.Limits.Uploads

/-! # Peers that leave the upload queue

What `release_slot` does for a peer that is gone. A peer comes among those with a slot and those in the
queue by its own request only (`present_apply`), so that one that had a slot and gives it up is not heard
of again. One that waits keeps its place: all slots are taken then and nothing changes
(`releaseSlot_of_waiting`), and as the others give up their slots it gets one (`promoted_later`). -/

namespace CncContent.Limits.Departures

open CncContent.Limits.Uploads CncContent.Limits.Uploads.UploadQueue

/-- The call is a request of the peer. -/
def Requests (p : PeerId) : Call → Prop
  | .requestSlot q _ => q = p
  | .releaseSlot _ | .cancelQueue _ | .evictStale _ _ => False

instance (p : PeerId) : DecidablePred (Requests p)
  | .requestSlot q _ => inferInstanceAs (Decidable (q = p))
  | .releaseSlot _ | .cancelQueue _ | .evictStale _ _ => inferInstanceAs (Decidable False)

/-- The peer has a slot or waits for one. -/
def Present (p : PeerId) (u : UploadQueue) : Prop := p ∈ u.active ∨ p ∈ u.queue

/-- Once the slot is released, the peer has none until it asks again. -/
def Departs (p : PeerId) (u : UploadQueue) : Prop :=
  ∀ calls : List Call, (∀ c ∈ calls, ¬ Requests p c) →
    p ∉ (calls.foldl apply (u.releaseSlot p).2).active

variable {p : PeerId} {u : UploadQueue}

/-! ### Who is not there -/

theorem present_promote (h : Present p u.promote.2) : Present p u := by
  unfold promote at h
  split_ifs at h
  · rcases hfirst : u.waiting with _ | ⟨entry, rest⟩
    · rw [hfirst] at h
      exact h
    · rw [hfirst] at h
      have hqueue : u.queue = entry.peerId :: rest.map (·.peerId) := congrArg _ hfirst
      rcases h with h | h
      · rcases List.mem_append.mp h with h | h
        · exact Or.inl h
        · rw [List.mem_singleton] at h
          exact Or.inr (hqueue ▸ h ▸ List.mem_cons_self)
      · exact Or.inr (hqueue ▸ List.mem_cons_of_mem _ h)
  · exact h

theorem present_requestSlot {q : PeerId} {now : ℕ} (hq : q ≠ p)
    (h : Present p (u.requestSlot q now).2) : Present p u := by
  unfold requestSlot at h
  by_cases hactive : u.active.contains q
  · rw [if_pos hactive] at h
    exact h
  rw [if_neg hactive] at h
  rcases hpos : u.waiting.findIdx? (·.peerId = q) with _ | pos
  · rw [hpos] at h
    dsimp only at h
    split_ifs at h
    · rcases h with h | h
      · rcases List.mem_append.mp h with h | h
        · exact Or.inl h
        · exact absurd (List.mem_singleton.mp h).symm hq
      · exact Or.inr h
    · refine h.imp_right fun h => ?_
      obtain ⟨entry, hentry, rfl⟩ := List.mem_map.mp h
      rcases List.mem_append.mp hentry with hentry | hentry
      · exact List.mem_map_of_mem hentry
      · rw [List.mem_singleton.mp hentry] at hq
        exact absurd rfl hq
    · exact h
  · rw [hpos] at h
    exact h

/-- **Only a request brings a peer in.** -/
theorem present_apply {c : Call} (hc : ¬ Requests p c) (h : Present p (u.apply c)) : Present p u := by
  cases c with
  | requestSlot q now => exact present_requestSlot hc h
  | releaseSlot q =>
    exact (present_promote h).imp_left List.mem_of_mem_erase
  | cancelQueue q => exact h.imp_right fun h => (List.eraseP_sublist.map _).subset h
  | evictStale now maxWait => exact h.imp_right fun h => (List.filter_sublist.map _).subset h

/-- **A peer that is not there** stays away. -/
theorem not_present_foldl : ∀ {calls : List Call} {u : UploadQueue}, ¬ Present p u →
    (∀ c ∈ calls, ¬ Requests p c) → ¬ Present p (calls.foldl apply u)
  | [], _, h, _ => h
  | c :: calls, u, h, hcalls => by
    obtain ⟨hc, hcalls⟩ := List.forall_mem_cons.mp hcalls
    exact not_present_foldl (u := u.apply c) (fun h' => h (present_apply hc h')) hcalls

/-! ### Who waits -/

section Waiting

variable {maxSlots maxQueue : ℕ} {r : Log} (hv : Log.Valid maxSlots maxQueue r)
include hv

/-- A peer that does not wait is gone when it has released its slot. -/
theorem not_present_releaseSlot (hp : p ∉ r.upload.queue) :
    ¬ Present p (r.upload.releaseSlot p).2 := by
  intro h
  rcases present_promote h with h | h
  · exact hv.nodup.not_mem_erase h
  · exact hp h

/-- While somebody waits, a slot that is released goes to the first in the queue. -/
theorem releaseSlot_of_active {q : PeerId} {entry : QueueEntry} {rest : List QueueEntry}
    (hq : q ∈ r.upload.active) (hfirst : r.upload.waiting = entry :: rest) :
    (r.upload.releaseSlot q).2 = { r.upload with
      active := r.upload.active.erase q ++ [entry.peerId], waiting := rest } := by
  have hfull := hv.full (hfirst ▸ List.cons_ne_nil _ _)
  have hpos := List.length_pos_of_mem hq
  have hslots := hv.slots
  have hlength := List.length_erase_of_mem hq
  unfold releaseSlot promote
  dsimp only
  rw [if_pos (by omega), hfirst]

/-- Nothing changes for a peer that waits. -/
theorem releaseSlot_of_waiting (hp : p ∈ r.upload.queue) : (r.upload.releaseSlot p).2 = r.upload := by
  have hactive : p ∉ r.upload.active := fun h => hv.disjoint p h hp
  have hne : r.upload.waiting ≠ [] := fun h => by
    have hmem : p ∈ r.upload.waiting.map (·.peerId) := hp
    rw [h] at hmem
    cases hmem
  have hfull := hv.full hne
  have hslots := hv.slots
  have hkept : ¬ r.upload.active.length < r.upload.maxSlots := by omega
  unfold releaseSlot promote
  rw [List.erase_of_not_mem hactive]
  exact congrArg Prod.snd (if_neg hkept)

end Waiting

/-- **A peer that waits** gets a slot when enough others give theirs up. -/
theorem promoted_later {maxSlots maxQueue : ℕ} (hslots : 0 < maxSlots) {n : ℕ} : ∀ {r : Log},
    Log.Valid maxSlots maxQueue r → r.upload.queue.length = n → p ∈ r.upload.queue →
    ∃ calls : List Call, (∀ c ∈ calls, ¬ Requests p c) ∧ p ∈ (calls.foldl apply r.upload).active := by
  induction n with
  | zero =>
    intro r _ hn hp
    rw [List.eq_nil_of_length_eq_zero hn] at hp
    cases hp
  | succ n ih =>
    intro r hv hn hp
    obtain ⟨entry, rest, hfirst⟩ : ∃ entry rest, r.upload.waiting = entry :: rest := by
      refine List.exists_cons_of_length_pos ?_
      rw [← List.length_map (·.peerId)]
      exact List.length_pos_of_mem hp
    have hqueue : r.upload.queue = entry.peerId :: rest.map (·.peerId) := congrArg _ hfirst
    have hfull := hv.full (hfirst ▸ List.cons_ne_nil _ _)
    obtain ⟨q, active, hq⟩ := List.exists_cons_of_length_pos (by omega : 0 < r.upload.active.length)
    have hrelease := releaseSlot_of_active hv (hq ▸ List.mem_cons_self : q ∈ r.upload.active) hfirst
    have hstep : (r.step (.releaseSlot q)).upload = (r.upload.releaseSlot q).2 := rfl
    rw [hqueue, List.mem_cons] at hp
    rcases hp with rfl | hp
    · refine ⟨[.releaseSlot q], by simp [Requests], ?_⟩
      show _ ∈ (r.upload.releaseSlot q).2.active
      rw [hrelease]
      exact List.mem_append_right _ (List.mem_singleton_self _)
    · have hrest : (r.step (.releaseSlot q)).upload.queue = rest.map (·.peerId) := by
        rw [hstep, hrelease]
        rfl
      have hlength : (rest.map (·.peerId)).length = n := by
        rw [hqueue, List.length_cons] at hn
        omega
      obtain ⟨calls, hcalls, hmem⟩ := ih (hv.step (.releaseSlot q)) (hrest ▸ hlength) (hrest ▸ hp)
      refine ⟨.releaseSlot q :: calls, List.forall_mem_cons.mpr ⟨id, hcalls⟩, hmem⟩

/-! ### Departures -/

theorem upload_perform (r : Log) (calls : List Call) :
    (r.perform calls).upload = calls.foldl apply r.upload := by
  induction calls generalizing r with
  | nil => rfl
  | cons c calls ih => exact ih (r.step c)

/-- **When a departed peer is never promoted**, in every state that the calls lead to: exactly if it does
not wait when it releases its slot, or if there are no slots. -/
theorem departs_iff (maxSlots maxQueue : ℕ) (calls : List Call) (p : PeerId) :
    Departs p (calls.foldl apply (new maxSlots maxQueue)) ↔
      p ∉ (calls.foldl apply (new maxSlots maxQueue)).queue ∨ maxSlots = 0 := by
  have hv := (Log.valid_start maxSlots maxQueue).perform calls
  have hupload : ((Log.start maxSlots maxQueue).perform calls).upload =
      calls.foldl apply (new maxSlots maxQueue) := upload_perform _ calls
  set r := (Log.start maxSlots maxQueue).perform calls
  rw [← hupload]
  constructor
  · intro h
    by_contra hnot
    rw [not_or, not_not] at hnot
    obtain ⟨calls', hcalls', hmem⟩ := promoted_later (Nat.pos_of_ne_zero hnot.2) hv rfl hnot.1
    refine h calls' hcalls' ?_
    rw [releaseSlot_of_waiting hv hnot.1]
    exact hmem
  · rintro (hp | rfl) calls' hcalls' hmem
    · exact not_present_foldl (not_present_releaseSlot hv hp) hcalls' (Or.inl hmem)
    · have hlater := (hv.step (.releaseSlot p)).perform calls'
      have hnone : (calls'.foldl apply (r.upload.releaseSlot p).2).active.length ≤ 0 :=
        upload_perform (r.step (.releaseSlot p)) calls' ▸ hlater.active
      rw [List.eq_nil_of_length_eq_zero (Nat.le_zero.mp hnone)] at hmem
      cases hmem

/-- The second of two peers waits, leaves, and gets the slot of the first. -/
theorem waiting_peer_promoted :
    let p : PeerId := Vector.replicate 32 1
    let q : PeerId := Vector.replicate 32 2
    let u := [Call.requestSlot p 0, .requestSlot q 0].foldl apply (new 1 1)
    q ∈ ([Call.releaseSlot p].foldl apply (u.releaseSlot q).2).active := by
  decide

end CncContent.Limits.Departures
