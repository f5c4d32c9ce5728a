import CncContent.Lib.Arrivals
import Mathlib.Data.List.Nodup

/-! # Upload slots

`UploadQueue` of the source: a fixed number of upload slots and a queue for those who find them taken.
A peer is its 32 bytes, which alone decide whether two identities are equal; an instant is a number of
nanoseconds, and the time since a later instant is zero.

While somebody waits all slots are taken (`Valid.full`), so that a slot that is granted at once passes
nobody by, and a slot that is released goes to the first in the queue. So the slots go to the peers in
the order in which they came (`first_come_first_served`). -/

namespace CncContent.Limits.Uploads

open CncContent.Lib.Arrivals

abbrev PeerId := Vector UInt8 32

inductive SlotResult
  | granted
  | queued (position peersAhead : ℕ)
  | queueFull (maxQueue : ℕ)
deriving DecidableEq, Repr

structure QueueEntry where
  peerId : PeerId
  queuedAt : ℕ
deriving DecidableEq, Repr

structure UploadQueue where
  maxSlots : ℕ
  maxQueue : ℕ
  active : List PeerId
  waiting : List QueueEntry
deriving DecidableEq, Repr

namespace UploadQueue

def new (maxSlots maxQueue : ℕ) : UploadQueue := ⟨maxSlots, maxQueue, [], []⟩

variable (u : UploadQueue)

def requestSlot (peerId : PeerId) (now : ℕ) : SlotResult × UploadQueue :=
  if u.active.contains peerId then (.granted, u)
  else
    match u.waiting.findIdx? (·.peerId = peerId) with
    | some pos => (.queued (pos + 1) pos, u)
    | none =>
      if u.active.length < u.maxSlots then (.granted, { u with active := u.active ++ [peerId] })
      else if u.waiting.length < u.maxQueue then
        let position := u.waiting.length + 1
        (.queued position (position - 1), { u with waiting := u.waiting ++ [⟨peerId, now⟩] })
      else (.queueFull u.maxQueue, u)

/-- The first in the queue gets a slot, if one is free. -/
def promote : Option PeerId × UploadQueue :=
  if u.active.length < u.maxSlots then
    match u.waiting with
    | [] => (none, u)
    | entry :: rest =>
      (some entry.peerId, { u with active := u.active ++ [entry.peerId], waiting := rest })
  else (none, u)

def releaseSlot (peerId : PeerId) : Option PeerId × UploadQueue :=
  promote { u with active := u.active.erase peerId }

def cancelQueue (peerId : PeerId) : Bool × UploadQueue :=
  (u.waiting.any (·.peerId = peerId),
    { u with waiting := u.waiting.eraseP (·.peerId = peerId) })

def evictStale (now maxWait : ℕ) : UploadQueue :=
  { u with waiting := u.waiting.filter fun entry => now - entry.queuedAt < maxWait }

end UploadQueue

/-! ### Calls -/

inductive Call
  | requestSlot (peerId : PeerId) (now : ℕ)
  | releaseSlot (peerId : PeerId)
  | cancelQueue (peerId : PeerId)
  | evictStale (now maxWait : ℕ)
deriving DecidableEq, Repr

namespace UploadQueue

/-- The queue after a call. -/
def apply (u : UploadQueue) : Call → UploadQueue
  | .requestSlot peerId now => (u.requestSlot peerId now).2
  | .releaseSlot peerId => (u.releaseSlot peerId).2
  | .cancelQueue peerId => (u.cancelQueue peerId).2
  | .evictStale now maxWait => u.evictStale now maxWait

/-- The peers in the queue. -/
def queue (u : UploadQueue) : List PeerId := u.waiting.map (·.peerId)

/-- What a call does. -/
inductive Effect (u : UploadQueue) : UploadQueue → Prop
  | kept : Effect u u
  | granted {p : PeerId} (hactive : p ∉ u.active) (hqueue : p ∉ u.queue)
      (hfree : u.active.length < u.maxSlots) : Effect u { u with active := u.active ++ [p] }
  | queued {p : PeerId} {now : ℕ} (hactive : p ∉ u.active) (hqueue : p ∉ u.queue)
      (htaken : u.maxSlots ≤ u.active.length) (hroom : u.waiting.length < u.maxQueue) :
      Effect u { u with waiting := u.waiting ++ [⟨p, now⟩] }
  | left {waiting : List QueueEntry} (hsub : waiting.Sublist u.waiting) :
      Effect u { u with waiting := waiting }
  | released {p : PeerId}
      (hnone : (u.active.erase p).length < u.maxSlots → u.waiting = []) :
      Effect u { u with active := u.active.erase p }
  | promoted {p : PeerId} {entry : QueueEntry} {rest : List QueueEntry}
      (hfree : (u.active.erase p).length < u.maxSlots) (hfirst : u.waiting = entry :: rest) :
      Effect u { u with active := u.active.erase p ++ [entry.peerId], waiting := rest }

variable {u u' : UploadQueue}

theorem notMem_queue {p : PeerId} (h : u.waiting.findIdx? (·.peerId = p) = none) : p ∉ u.queue := by
  intro hmem
  obtain ⟨entry, hentry, hp⟩ := List.mem_map.mp hmem
  have hno := List.findIdx?_eq_none_iff.mp h entry hentry
  exact of_decide_eq_false hno hp

theorem effect_requestSlot (p : PeerId) (now : ℕ) : Effect u (u.requestSlot p now).2 := by
  unfold requestSlot
  by_cases hactive : p ∈ u.active
  · rw [if_pos (List.contains_iff_mem.mpr hactive)]
    exact .kept
  rw [if_neg fun h => hactive (List.contains_iff_mem.mp h)]
  split
  case h_1 => exact .kept
  case h_2 hpos =>
    have hqueue := notMem_queue hpos
    split_ifs with hfree hroom
    · exact .granted hactive hqueue hfree
    · exact .queued hactive hqueue (Nat.le_of_not_lt hfree) hroom
    · exact .kept

theorem effect_releaseSlot (p : PeerId) : Effect u (u.releaseSlot p).2 := by
  unfold releaseSlot promote
  dsimp only
  split_ifs with hfree
  · rcases hfirst : u.waiting with _ | ⟨entry, rest⟩
    · have hreleased := Effect.released (u := u) (p := p) fun _ => hfirst
      rw [hfirst] at hreleased
      exact hreleased
    · exact .promoted hfree hfirst
  · exact .released fun h => absurd h hfree

/-- **Every call** has one of the effects. -/
theorem effect_apply (u : UploadQueue) (call : Call) : Effect u (u.apply call) := by
  cases call with
  | requestSlot p now => exact effect_requestSlot p now
  | releaseSlot p => exact effect_releaseSlot p
  | cancelQueue p => exact .left List.eraseP_sublist
  | evictStale now maxWait => exact .left List.filter_sublist

end UploadQueue

/-! ### The order of arrival -/

/-- A queue with its past: the number of calls so far, and for each waiting peer the number of the call
by which it got into the queue. -/
structure Log where
  upload : UploadQueue
  calls : ℕ
  since : PeerId → ℕ

namespace Log

def start (maxSlots maxQueue : ℕ) : Log := ⟨.new maxSlots maxQueue, 0, fun _ => 0⟩

def step (r : Log) (call : Call) : Log :=
  ⟨r.upload.apply call, r.calls + 1, stamp r.calls r.upload.queue r.since⟩

def perform (r : Log) (calls : List Call) : Log := calls.foldl step r

/-- Slots and queue within their limits and without repetition, the queue in the order of arrival and
empty while a slot is free. -/
structure Valid (maxSlots maxQueue : ℕ) (r : Log) : Prop where
  slots : r.upload.maxSlots = maxSlots
  places : r.upload.maxQueue = maxQueue
  nodup : r.upload.active.Nodup
  inOrder : InOrder r.calls r.since r.upload.queue
  disjoint : ∀ p ∈ r.upload.active, p ∉ r.upload.queue
  active : r.upload.active.length ≤ maxSlots
  waiting : r.upload.waiting.length ≤ maxQueue
  full : r.upload.waiting ≠ [] → r.upload.active.length = maxSlots

variable {maxSlots maxQueue : ℕ} {r : Log}

theorem valid_start (maxSlots maxQueue : ℕ) : Valid maxSlots maxQueue (start maxSlots maxQueue) :=
  ⟨rfl, rfl, List.nodup_nil, inOrder_nil, nofun, Nat.zero_le _, Nat.zero_le _,
    fun h => absurd rfl h⟩

open UploadQueue

/-- Nobody waits while a slot is free. -/
theorem Valid.waiting_eq_nil (hv : Valid maxSlots maxQueue r)
    (hfree : r.upload.active.length < r.upload.maxSlots) : r.upload.waiting = [] := by
  by_contra hne
  have hslots := hv.slots
  have hfull := hv.full hne
  omega

/-- A peer that releases its slot makes it free; one without a slot changes nothing. -/
theorem erase_cases (active : List PeerId) (p : PeerId) :
    (active.erase p).length + 1 = active.length ∨ active.erase p = active := by
  by_cases hp : p ∈ active
  · have hlength := List.length_erase_of_mem hp
    have hpos := List.length_pos_of_mem hp
    exact Or.inl (by omega)
  · exact Or.inr (List.erase_of_not_mem hp)

theorem nodup_concat {l : List PeerId} {p : PeerId} (h : l.Nodup) (hp : p ∉ l) :
    (l ++ [p]).Nodup := List.nodup_append_comm.mpr (List.nodup_cons.mpr ⟨hp, h⟩)

/-- The record after a call that leaves the queue `u'`. -/
def next (r : Log) (u' : UploadQueue) : Log :=
  ⟨u', r.calls + 1, stamp r.calls r.upload.queue r.since⟩

theorem Valid.kept (hv : Valid maxSlots maxQueue r) : Valid maxSlots maxQueue (r.next r.upload) :=
  { hv with inOrder := hv.inOrder.sublist (List.Sublist.refl _) }

theorem Valid.granted (hv : Valid maxSlots maxQueue r) {p : PeerId} (hp : p ∉ r.upload.active)
    (hq : p ∉ r.upload.queue) (hfree : r.upload.active.length < r.upload.maxSlots) :
    Valid maxSlots maxQueue (r.next { r.upload with active := r.upload.active ++ [p] }) := by
  have hslots := hv.slots
  have hlength : (r.upload.active ++ [p]).length ≤ maxSlots := by
    rw [List.length_append, List.length_singleton]
    omega
  refine { hv.kept with
    nodup := nodup_concat hv.nodup hp
    disjoint := fun a ha => ?_
    active := hlength
    full := fun h => absurd (hv.waiting_eq_nil hfree) h }
  rcases List.mem_append.mp ha with ha | ha
  · exact hv.disjoint a ha
  · exact List.mem_singleton.mp ha ▸ hq

theorem Valid.queued (hv : Valid maxSlots maxQueue r) {p : PeerId} {now : ℕ}
    (hp : p ∉ r.upload.active) (hq : p ∉ r.upload.queue)
    (htaken : r.upload.maxSlots ≤ r.upload.active.length)
    (hroom : r.upload.waiting.length < r.upload.maxQueue) :
    Valid maxSlots maxQueue (r.next { r.upload with waiting := r.upload.waiting ++ [⟨p, now⟩] }) := by
  have hplaces := hv.places
  have hqueue : (r.upload.waiting ++ [QueueEntry.mk p now]).map (·.peerId) =
      r.upload.queue ++ [p] := List.map_append
  have hlength : (r.upload.waiting ++ [QueueEntry.mk p now]).length ≤ maxQueue := by
    rw [List.length_append, List.length_singleton]
    omega
  refine { hv with
    inOrder := ?_
    disjoint := fun a ha hmem => ?_
    waiting := hlength
    full := fun _ => Nat.le_antisymm hv.active (hv.slots ▸ htaken) }
  · change InOrder _ _ ((r.upload.waiting ++ [QueueEntry.mk p now]).map (·.peerId))
    rw [hqueue]
    exact hv.inOrder.concat hq
  · change a ∈ (r.upload.waiting ++ [QueueEntry.mk p now]).map (·.peerId) at hmem
    rw [hqueue] at hmem
    rcases List.mem_append.mp hmem with hmem | hmem
    · exact hv.disjoint a ha hmem
    · exact hp (List.mem_singleton.mp hmem ▸ ha)

theorem Valid.left (hv : Valid maxSlots maxQueue r) {waiting : List QueueEntry}
    (hsub : waiting.Sublist r.upload.waiting) :
    Valid maxSlots maxQueue (r.next { r.upload with waiting := waiting }) := by
  have hqueue : (waiting.map (·.peerId)).Sublist r.upload.queue := hsub.map _
  exact { hv with
    inOrder := hv.inOrder.sublist hqueue
    disjoint := fun a ha hmem => hv.disjoint a ha (hqueue.subset hmem)
    waiting := Nat.le_trans hsub.length_le hv.waiting
    full := fun h => hv.full fun hnil => h (List.sublist_nil.mp (hnil ▸ hsub)) }

/-- Nobody waits for the slot that is released. -/
theorem Valid.released (hv : Valid maxSlots maxQueue r) {p : PeerId}
    (hnone : (r.upload.active.erase p).length < r.upload.maxSlots → r.upload.waiting = []) :
    Valid maxSlots maxQueue (r.next { r.upload with active := r.upload.active.erase p }) := by
  have hslots := hv.slots
  have hle : (r.upload.active.erase p).length ≤ r.upload.active.length := List.length_erase_le
  refine { hv.kept with
    nodup := hv.nodup.erase p
    disjoint := fun a ha => hv.disjoint a (List.mem_of_mem_erase ha)
    active := Nat.le_trans hle hv.active
    full := fun h => ?_ }
  have hfull := hv.full h
  have hkept : ¬ (r.upload.active.erase p).length < r.upload.maxSlots := fun hlt => h (hnone hlt)
  change (r.upload.active.erase p).length = maxSlots
  omega

/-- The first in the queue gets the slot that is released. -/
theorem Valid.promoted (hv : Valid maxSlots maxQueue r) {p : PeerId} {entry : QueueEntry}
    {rest : List QueueEntry} (hfree : (r.upload.active.erase p).length < r.upload.maxSlots)
    (hfirst : r.upload.waiting = entry :: rest) :
    Valid maxSlots maxQueue (r.next { r.upload with
      active := r.upload.active.erase p ++ [entry.peerId], waiting := rest }) := by
  have hslots := hv.slots
  have hqueue : r.upload.queue = entry.peerId :: rest.map (·.peerId) := congrArg _ hfirst
  have hrest : (rest.map (·.peerId)).Sublist r.upload.queue := hqueue ▸ List.sublist_cons_self _ _
  have hentry : entry.peerId ∉ r.upload.active := fun hmem =>
    hv.disjoint _ hmem (hqueue ▸ List.mem_cons_self)
  have hfull := hv.full (hfirst ▸ List.cons_ne_nil _ _)
  have hlength : (r.upload.active.erase p ++ [entry.peerId]).length = maxSlots := by
    rw [List.length_append, List.length_singleton]
    rcases erase_cases r.upload.active p with herase | herase
    · omega
    · rw [herase] at hfree
      omega
  have hwaiting := hv.waiting
  rw [hfirst, List.length_cons] at hwaiting
  refine { hv with
    nodup := nodup_concat (hv.nodup.erase p) fun h => hentry (List.mem_of_mem_erase h)
    inOrder := hv.inOrder.sublist hrest
    disjoint := fun a ha hmem => ?_
    active := Nat.le_of_eq hlength
    waiting := Nat.le_of_succ_le hwaiting
    full := fun _ => hlength }
  rcases List.mem_append.mp ha with ha | ha
  · exact hv.disjoint a (List.mem_of_mem_erase ha) (hrest.subset hmem)
  · -- the first in the queue is not in the rest of it
    have hnodup := hqueue ▸ hv.inOrder.nodup
    rw [List.mem_singleton.mp ha] at hmem
    exact (List.nodup_cons.mp hnodup).1 hmem

/-- **What a call keeps.** -/
theorem Valid.effect (hv : Valid maxSlots maxQueue r) {u' : UploadQueue} (h : Effect r.upload u') :
    Valid maxSlots maxQueue (r.next u') := by
  cases h with
  | kept => exact hv.kept
  | granted hp hq hfree => exact hv.granted hp hq hfree
  | queued hp hq htaken hroom => exact hv.queued hp hq htaken hroom
  | left hsub => exact hv.left hsub
  | released hnone => exact hv.released hnone
  | promoted hfree hfirst => exact hv.promoted hfree hfirst

theorem Valid.step (hv : Valid maxSlots maxQueue r) (call : Call) :
    Valid maxSlots maxQueue (r.step call) := hv.effect (effect_apply r.upload call)

theorem Valid.perform (hv : Valid maxSlots maxQueue r) (calls : List Call) :
    Valid maxSlots maxQueue (r.perform calls) := by
  induction calls generalizing r with
  | nil => exact hv
  | cons call calls ih => exact ih (hv.step call)

/-- **Who gets a slot** has come before all who still wait. -/
theorem Valid.since_lt (hv : Valid maxSlots maxQueue r) {u' : UploadQueue} (h : Effect r.upload u')
    {p q : PeerId} (hp : p ∉ r.upload.active) (hp' : p ∈ u'.active) (hq : q ∈ u'.queue) :
    stamp r.calls r.upload.queue r.since p < stamp r.calls r.upload.queue r.since q := by
  cases h with
  | kept | queued | left => exact absurd hp' hp
  | released => exact absurd (List.mem_of_mem_erase hp') hp
  | granted _ _ hfree =>
    have hmem : q ∈ r.upload.waiting.map (·.peerId) := hq
    rw [hv.waiting_eq_nil hfree] at hmem
    cases hmem
  | @promoted p' entry rest hfree hfirst =>
    have hqueue : r.upload.queue = entry.peerId :: rest.map (·.peerId) := congrArg _ hfirst
    rcases List.mem_append.mp hp' with hp' | hp'
    · exact absurd (List.mem_of_mem_erase hp') hp
    · have hin := hqueue ▸ hv.inOrder
      change q ∈ rest.map (·.peerId) at hq
      rw [List.mem_singleton.mp hp', hqueue, stamp_of_mem List.mem_cons_self,
        stamp_of_mem (List.mem_cons_of_mem _ hq)]
      exact hin.head q hq

/-- **First come, first served**: whatever calls are made, no peer is twice among those with a slot and
those in the queue, both are within their limits, nobody waits while a slot is free, and a peer that
gets a slot has come before everybody who still waits. -/
theorem first_come_first_served (maxSlots maxQueue : ℕ) (calls : List Call) :
    let r := (start maxSlots maxQueue).perform calls
    (r.upload.active.Nodup ∧ r.upload.queue.Nodup ∧ ∀ p ∈ r.upload.active, p ∉ r.upload.queue) ∧
      (r.upload.active.length ≤ maxSlots ∧ r.upload.waiting.length ≤ maxQueue) ∧
      (r.upload.waiting ≠ [] → r.upload.active.length = maxSlots) ∧
      ∀ call p, p ∉ r.upload.active → p ∈ (r.step call).upload.active →
        ∀ q ∈ (r.step call).upload.queue, (r.step call).since p < (r.step call).since q := by
  intro r
  have hv : Valid maxSlots maxQueue r := (valid_start maxSlots maxQueue).perform calls
  exact ⟨⟨hv.nodup, hv.inOrder.nodup, hv.disjoint⟩, ⟨hv.active, hv.waiting⟩, hv.full,
    fun call _ hp hp' _ hq => hv.since_lt (effect_apply r.upload call) hp hp' hq⟩

end Log

end CncContent.Limits.Uploads
