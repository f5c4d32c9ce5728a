import CncContent.Lib.Runs
import CncContent.Lib.Tallies
import CncContent.Peers.Tracker
import Mathlib.Data.List.Sort

/-! # Relay circuits

`RelayRegistry` of the source: the relay nodes, the circuits that run through them and the hole-punch
attempts. The score by which candidates are compared is a floating point number; it is a parameter,
and `selectionScore` is its exact value. Every relay tallies its circuits (`lawful_of_length`). -/

namespace CncContent.Peers.Relay

open CncContent.Lib CncContent.Lib.Bounded CncContent.Lib.FirstMatch CncContent.Lib.Tallies
open CncContent.Peers.Tracker (durationSince)

def holePunchTimeout : ℕ := 3 * 10 ^ 9

def defaultMaxCircuitsPerRelay : UInt32 := 128

def circuitIdleTimeout : ℕ := 120 * 10 ^ 9

def maxRelayNodes : ℕ := 64

/-- `[u8; 20]`. -/
abbrev NodeId := Vector UInt8 20

/-! ### Relays -/

structure RelayNode where
  id : NodeId
  maxCircuits : UInt32
  activeCircuits : ℕ
  region : Option (List UInt8)
  latency : Option ℕ
  verified : Bool
deriving DecidableEq

namespace RelayNode

def new (id : NodeId) : RelayNode := ⟨id, defaultMaxCircuitsPerRelay, 0, none, none, false⟩

variable (r : RelayNode)

def withMaxCircuits (max : UInt32) : RelayNode := { r with maxCircuits := max }

def hasCapacity : Bool := decide (r.activeCircuits < r.maxCircuits.toNat)

def loadFactor : ℚ :=
  if r.maxCircuits = 0 then 1 else (r.activeCircuits : ℚ) / r.maxCircuits.toNat

def recordHeartbeat (latency : ℕ) : RelayNode := { r with latency := some latency, verified := true }

def selectionScore : ℚ :=
  let capacityScore := 1 - r.loadFactor
  let latencyScore : ℚ := match r.latency with
    | some d => 1 - min ((d / 10 ^ 6 : ℕ) / 500) 1
    | none => 1 / 2
  let verifiedBonus : ℚ := if r.verified then 1 / 10 else 0
  min (capacityScore * (4 / 10) + latencyScore * (5 / 10) + verifiedBonus) 1

end RelayNode

/-! ### Circuits and hole punching -/

structure RelayCircuit where
  circuitId : ℕ
  relayId : NodeId
  localPeer : NodeId
  remotePeer : NodeId
  lastActivity : ℕ
deriving DecidableEq

def RelayCircuit.isIdle (c : RelayCircuit) (now : ℕ) : Bool :=
  decide (circuitIdleTimeout ≤ durationSince now c.lastActivity)

inductive HolePunchState
  | waitingForAddress
  | punching
  | succeeded
  | failed
deriving DecidableEq, Repr

structure HolePunchAttempt where
  remotePeer : NodeId
  startedAt : ℕ
  state : HolePunchState
deriving DecidableEq

namespace HolePunchAttempt

def new (remotePeer : NodeId) (now : ℕ) : HolePunchAttempt := ⟨remotePeer, now, .waitingForAddress⟩

def isTimedOut (a : HolePunchAttempt) (now : ℕ) : Bool :=
  decide (holePunchTimeout ≤ durationSince now a.startedAt ∧ a.state ≠ .succeeded)

end HolePunchAttempt

/-! ### The registry -/

structure RelayRegistry where
  relays : List RelayNode
  circuits : List RelayCircuit
  punchAttempts : List HolePunchAttempt
  nextCircuitId : ℕ
deriving DecidableEq

inductive RelayError
  | registryFull (max : ℕ)
  | duplicateRelay (id : NodeId)
  | noRelaysAvailable
  | circuitNotFound (circuitId : ℕ)
deriving DecidableEq

structure CleanupResult where
  expiredPunches : ℕ
  closedIdleCircuits : ℕ
deriving DecidableEq, Repr

/-- Whether the relay is in the preferred region. -/
def regionMatch (preferredRegion : Option (List UInt8)) (r : RelayNode) : Bool :=
  match preferredRegion with
  | some pr => decide (r.region = some pr)
  | none => false

/-- The order of the candidates: `a` is not behind `b`. -/
def NotBehind (score : RelayNode → ℚ) (preferredRegion : Option (List UInt8)) (a b : RelayNode) :
    Prop :=
  match regionMatch preferredRegion a, regionMatch preferredRegion b with
  | true, false => True
  | false, true => False
  | true, true | false, false => score b ≤ score a

instance {score : RelayNode → ℚ} {preferredRegion : Option (List UInt8)} :
    DecidableRel (NotBehind score preferredRegion) := fun a b => by
  unfold NotBehind
  split <;> infer_instance

namespace RelayRegistry

def new : RelayRegistry := ⟨[], [], [], 1⟩

variable (score : RelayNode → ℚ) (g : RelayRegistry)

def addRelay (relay : RelayNode) : Except RelayError Unit × RelayRegistry :=
  if maxRelayNodes ≤ g.relays.length then (.error (.registryFull maxRelayNodes), g)
  else if g.relays.any (fun r => decide (r.id = relay.id)) then (.error (.duplicateRelay relay.id), g)
  else (.ok (), { g with relays := g.relays ++ [relay] })

/-- The relays with capacity, only those verified if there are any. -/
def candidates : List RelayNode :=
  let verified := g.relays.filter fun r => r.hasCapacity && r.verified
  if verified.isEmpty then g.relays.filter RelayNode.hasCapacity else verified

def selectRelay (preferredRegion : Option (List UInt8)) : Option RelayNode :=
  (g.candidates.insertionSort (NotBehind score preferredRegion)).head?

def createCircuit (localPeer remotePeer : NodeId) (preferredRegion : Option (List UInt8)) (now : ℕ) :
    Except RelayError ℕ × RelayRegistry :=
  match g.selectRelay score preferredRegion with
  | none => (.error .noRelaysAvailable, g)
  | some relay =>
    (.ok g.nextCircuitId, { g with
      nextCircuitId := satAdd u64Max g.nextCircuitId 1
      circuits := g.circuits ++ [⟨g.nextCircuitId, relay.id, localPeer, remotePeer, now⟩]
      relays := updateFirst (fun r => decide (r.id = relay.id))
        (fun r => { r with activeCircuits := satAdd u32Max r.activeCircuits 1 }) g.relays })

def closeCircuit (circuitId : ℕ) : Except RelayError Unit × RelayRegistry :=
  match g.circuits.find? fun c => decide (c.circuitId = circuitId) with
  | none => (.error (.circuitNotFound circuitId), g)
  | some circuit =>
    (.ok (), { g with
      circuits := g.circuits.eraseP fun c => decide (c.circuitId = circuitId)
      relays := updateFirst (fun r => decide (r.id = circuit.relayId))
        (fun r => { r with activeCircuits := r.activeCircuits - 1 }) g.relays })

def startHolePunch (remotePeer : NodeId) (now : ℕ) : RelayRegistry :=
  { g with
    punchAttempts :=
      g.punchAttempts.filter (fun a => decide (a.remotePeer ≠ remotePeer)) ++ [.new remotePeer now] }

/-- A new state of a pending attempt, as through `get_punch_attempt`. -/
def setPunchState (remotePeer : NodeId) (state : HolePunchState) : RelayRegistry :=
  { g with
    punchAttempts :=
      updateFirst (fun a => decide (a.remotePeer = remotePeer)) (fun a => { a with state := state })
        g.punchAttempts }

/-- A heartbeat of a relay, as through `get_relay_mut`. -/
def heartbeat (id : NodeId) (latency : ℕ) : RelayRegistry :=
  { g with
    relays := updateFirst (fun r => decide (r.id = id)) (fun r => r.recordHeartbeat latency) g.relays }

def cleanup (now : ℕ) : CleanupResult × RelayRegistry :=
  let punches := g.punchAttempts.filter fun a =>
    !(a.isTimedOut now || decide (a.state = .succeeded) || decide (a.state = .failed))
  let idleIds := (g.circuits.filter fun c => c.isIdle now).map RelayCircuit.circuitId
  (⟨g.punchAttempts.length - punches.length, idleIds.length⟩,
    idleIds.foldl (fun g id => (g.closeCircuit id).2) { g with punchAttempts := punches })

end RelayRegistry

/-! ### Calls -/

inductive Call
  | addRelay (relay : { r : RelayNode // r.activeCircuits = 0 })
  | createCircuit (localPeer remotePeer : NodeId) (preferredRegion : Option (List UInt8)) (now : ℕ)
  | closeCircuit (circuitId : ℕ)
  | cleanup (now : ℕ)
  | startHolePunch (remotePeer : NodeId) (now : ℕ)
  | setPunchState (remotePeer : NodeId) (state : HolePunchState)
  | heartbeat (id : NodeId) (latency : ℕ)

def RelayRegistry.perform (score : RelayNode → ℚ) (g : RelayRegistry) : Call → RelayRegistry
  | .addRelay relay => (g.addRelay relay).2
  | .createCircuit localPeer remotePeer preferredRegion now =>
    (g.createCircuit score localPeer remotePeer preferredRegion now).2
  | .closeCircuit circuitId => (g.closeCircuit circuitId).2
  | .cleanup now => (g.cleanup now).2
  | .startHolePunch remotePeer now => g.startHolePunch remotePeer now
  | .setPunchState remotePeer state => g.setPunchState remotePeer state
  | .heartbeat id latency => g.heartbeat id latency

def step (score : RelayNode → ℚ) (g : RelayRegistry) (call : Call) : Option RelayRegistry :=
  some (g.perform score call)

/-! ### Invariants -/

/-- The relays tally their circuits, within their limits, and no id is given twice. -/
structure Counted (g : RelayRegistry) : Prop where
  relays_nodup : (g.relays.map RelayNode.id).Nodup
  relays_le : g.relays.length ≤ maxRelayNodes
  circuits_nodup : (g.circuits.map RelayCircuit.circuitId).Nodup
  tallied : Tallied RelayNode.id RelayNode.activeCircuits g.relays
    (g.circuits.map RelayCircuit.relayId)
  within : ∀ r ∈ g.relays, r.activeCircuits ≤ r.maxCircuits.toNat

/-- **What the registry promises**: its counts are right, and a relay that is selected has a free
circuit. -/
structure Lawful (score : RelayNode → ℚ) (g : RelayRegistry) : Prop extends Counted g where
  selects_free : ∀ preferredRegion r, g.selectRelay score preferredRegion = some r →
    r ∈ g.relays ∧ r.activeCircuits < r.maxCircuits.toNat

/-- Moreover every circuit runs through a known relay, and its id has been given already. -/
structure Consistent (g : RelayRegistry) : Prop extends Counted g where
  known : ∀ c ∈ g.circuits, c.relayId ∈ g.relays.map RelayNode.id
  below : ∀ c ∈ g.circuits, c.circuitId < g.nextCircuitId

variable {score : RelayNode → ℚ} {g : RelayRegistry}

theorem consistent_new : Consistent RelayRegistry.new where
  relays_nodup := List.nodup_nil
  relays_le := Nat.zero_le _
  circuits_nodup := List.nodup_nil
  tallied := nofun
  within := nofun
  known := nofun
  below := nofun

/-- Relays that are selected are known and have a free circuit. -/
theorem selectRelay_spec {preferredRegion : Option (List UInt8)} {r : RelayNode}
    (h : g.selectRelay score preferredRegion = some r) :
    r ∈ g.relays ∧ r.activeCircuits < r.maxCircuits.toNat := by
  have hmem : r ∈ g.candidates :=
    (List.mem_insertionSort _).mp (List.mem_of_mem_head? h)
  unfold RelayRegistry.candidates at hmem
  dsimp only at hmem
  split_ifs at hmem
  · obtain ⟨hr, hcap⟩ := List.mem_filter.mp hmem
    exact ⟨hr, of_decide_eq_true hcap⟩
  · obtain ⟨hr, hcap⟩ := List.mem_filter.mp hmem
    exact ⟨hr, of_decide_eq_true (Bool.and_eq_true_iff.mp hcap).1⟩

theorem Consistent.lawful (h : Consistent g) : Lawful score g :=
  ⟨h.toCounted, fun _ _ => selectRelay_spec⟩

theorem Counted.id_inj (h : Counted g) {r s : RelayNode} (hr : r ∈ g.relays) (hs : s ∈ g.relays)
    (he : r.id = s.id) : r = s :=
  List.inj_on_of_nodup_map h.relays_nodup hr hs he

/-! ### Operations -/

/-- A registry whose relays of one id and whose circuits have changed. -/
theorem Consistent.of_update {g' : RelayRegistry} {id : NodeId} {f : RelayNode → RelayNode}
    (h : Consistent g)
    (hrelays : g'.relays = updateFirst (fun r => decide (r.id = id)) f g.relays)
    (hid : ∀ r, (f r).id = r.id) (hmax : ∀ r, (f r).maxCircuits = r.maxCircuits)
    (hf : ∀ r ∈ g.relays, r.id = id → (f r).activeCircuits ≤ r.maxCircuits.toNat ∧
      (f r).activeCircuits = namings id (g'.circuits.map RelayCircuit.relayId))
    (hother : ∀ id', id' ≠ id → namings id' (g'.circuits.map RelayCircuit.relayId) =
      namings id' (g.circuits.map RelayCircuit.relayId))
    (hnodup : (g'.circuits.map RelayCircuit.circuitId).Nodup)
    (hknown : ∀ c ∈ g'.circuits, c.relayId ∈ g.relays.map RelayNode.id)
    (hbelow : ∀ c ∈ g'.circuits, c.circuitId < g'.nextCircuitId) : Consistent g' := by
  have hids : g'.relays.map RelayNode.id = g.relays.map RelayNode.id := by
    rw [hrelays]
    exact map_updateFirst fun r _ => hid r
  constructor
  · constructor
    · rw [hids]
      exact h.relays_nodup
    · have hlen := congrArg List.length hids
      rw [List.length_map, List.length_map] at hlen
      exact hlen ▸ h.relays_le
    · exact hnodup
    · rw [hrelays]
      exact h.tallied.update h.relays_nodup hid (fun r hr he => (hf r hr he).2) hother
    · intro r hr
      rw [hrelays] at hr
      rcases mem_updateFirst_key h.relays_nodup hr with ⟨hr, -⟩ | ⟨s, hs, he, rfl⟩
      · exact h.within r hr
      · rw [hmax]
        exact (hf s hs he).1
  · rw [hids]
    exact hknown
  · exact hbelow

theorem consistent_addRelay (h : Consistent g) {relay : RelayNode} (h0 : relay.activeCircuits = 0) :
    Consistent (g.addRelay relay).2 := by
  unfold RelayRegistry.addRelay
  split_ifs with hfull hdup
  · exact h
  · exact h
  · have hnew : relay.id ∉ g.relays.map RelayNode.id := by
      intro hmem
      obtain ⟨r, hr, he⟩ := List.mem_map.mp hmem
      exact hdup (List.any_eq_true.mpr ⟨r, hr, decide_eq_true he⟩)
    constructor
    · constructor
      · rw [List.map_append, List.nodup_append_comm]
        exact List.nodup_cons.mpr ⟨hnew, h.relays_nodup⟩
      · rw [List.length_append]
        exact Nat.lt_of_not_le hfull
      · exact h.circuits_nodup
      · intro r hr
        rcases List.mem_append.mp hr with hr | hr
        · exact h.tallied r hr
        · rw [List.mem_singleton.mp hr, h0]
          refine (namings_eq_zero fun hmem => hnew ?_).symm
          obtain ⟨c, hc, he⟩ := List.mem_map.mp hmem
          exact he ▸ h.known c hc
      · intro r hr
        rcases List.mem_append.mp hr with hr | hr
        · exact h.within r hr
        · rw [List.mem_singleton.mp hr, h0]
          exact Nat.zero_le _
    · intro c hc
      rw [List.map_append]
      exact List.mem_append_left _ (h.known c hc)
    · exact h.below

theorem consistent_createCircuit (h : Consistent g) (hnext : g.nextCircuitId < u64Max)
    (localPeer remotePeer : NodeId) (preferredRegion : Option (List UInt8)) (now : ℕ) :
    Consistent (g.createCircuit score localPeer remotePeer preferredRegion now).2 := by
  unfold RelayRegistry.createCircuit
  rcases hsel : g.selectRelay score preferredRegion with _ | relay
  · exact h
  obtain ⟨hmem, hfree⟩ := selectRelay_spec hsel
  have hsat : satAdd u64Max g.nextCircuitId 1 = g.nextCircuitId + 1 := satAdd_of_le hnext
  refine h.of_update rfl (fun _ => rfl) (fun _ => rfl) ?_ ?_ ?_ ?_ ?_
  · rintro r hr he
    obtain rfl := h.id_inj hr hmem he
    have hlt := r.maxCircuits.toNat_lt
    have hinc : satAdd u32Max r.activeCircuits 1 = r.activeCircuits + 1 :=
      satAdd_of_le (by unfold u32Max; omega)
    have htally := h.tallied r hr
    dsimp only
    rw [hinc, List.map_append, namings_append, ← htally, List.map_singleton, namings_cons, if_pos rfl]
    exact ⟨hfree, rfl⟩
  · intro id' hne
    rw [List.map_append, namings_append, List.map_singleton, namings_cons, if_neg (Ne.symm hne)]
    rfl
  · rw [List.map_append, List.nodup_append_comm]
    refine List.nodup_cons.mpr ⟨fun hc => ?_, h.circuits_nodup⟩
    obtain ⟨c, hc, he⟩ := List.mem_map.mp hc
    exact absurd (h.below c hc) (Nat.not_lt.mpr he.ge)
  · intro c hc
    rcases List.mem_append.mp hc with hc | hc
    · exact h.known c hc
    · rw [List.mem_singleton.mp hc]
      exact List.mem_map_of_mem hmem
  · intro c hc
    dsimp only
    rw [hsat]
    rcases List.mem_append.mp hc with hc | hc
    · exact Nat.lt_succ_of_lt (h.below c hc)
    · rw [List.mem_singleton.mp hc]
      exact Nat.lt_succ_self _

theorem consistent_closeCircuit (h : Consistent g) (circuitId : ℕ) :
    Consistent (g.closeCircuit circuitId).2 := by
  unfold RelayRegistry.closeCircuit
  split
  case h_1 => exact h
  case h_2 circuit hfind =>
    obtain ⟨l₁, l₂, hsplit, herase⟩ := eraseP_split hfind
    have hsub : (l₁ ++ l₂).Sublist g.circuits := by
      rw [hsplit]
      exact List.Sublist.append_left (List.sublist_cons_self _ _) _
    have hcount : ∀ id, namings id ((l₁ ++ l₂).map RelayCircuit.relayId) +
        (if circuit.relayId = id then 1 else 0) = namings id (g.circuits.map RelayCircuit.relayId) := by
      intro id
      rw [hsplit]
      simp only [List.map_append, List.map_cons, namings_append, namings_cons]
      omega
    refine h.of_update rfl (fun _ => rfl) (fun _ => rfl) ?_ ?_ ?_ ?_ ?_ <;> dsimp only <;> rw [herase]
    · intro r hr he
      have htally := h.tallied r hr
      have hwithin := h.within r hr
      have hc := hcount circuit.relayId
      rw [if_pos rfl, ← he, ← htally] at hc
      rw [← he]
      omega
    · intro id' hne
      have hc := hcount id'
      rw [if_neg (Ne.symm hne)] at hc
      exact hc
    · exact h.circuits_nodup.sublist (hsub.map _)
    · exact fun c hc => h.known c (hsub.subset hc)
    · exact fun c hc => h.below c (hsub.subset hc)

theorem consistent_heartbeat (h : Consistent g) (id : NodeId) (latency : ℕ) :
    Consistent (g.heartbeat id latency) := by
  refine h.of_update rfl (fun _ => rfl) (fun _ => rfl) (fun r hr he => ⟨h.within r hr, ?_⟩)
    (fun _ _ => rfl) h.circuits_nodup h.known h.below
  exact he ▸ h.tallied r hr

/-- The hole-punch attempts play no part. -/
theorem Consistent.punchAttempts (h : Consistent g) (attempts : List HolePunchAttempt) :
    Consistent { g with punchAttempts := attempts } :=
  ⟨⟨h.relays_nodup, h.relays_le, h.circuits_nodup, h.tallied, h.within⟩, h.known, h.below⟩

theorem consistent_closeAll : ∀ (ids : List ℕ) {g : RelayRegistry}, Consistent g →
    Consistent (ids.foldl (fun g id => (g.closeCircuit id).2) g)
  | [], _, h => h
  | id :: ids, _, h => consistent_closeAll ids (consistent_closeCircuit h id)

theorem consistent_perform (h : Consistent g) (hnext : g.nextCircuitId < u64Max) (call : Call) :
    Consistent (g.perform score call) := by
  cases call with
  | addRelay relay => exact consistent_addRelay h relay.2
  | createCircuit localPeer remotePeer preferredRegion now =>
    exact consistent_createCircuit h hnext localPeer remotePeer preferredRegion now
  | closeCircuit circuitId => exact consistent_closeCircuit h circuitId
  | cleanup now => exact consistent_closeAll _ (h.punchAttempts _)
  | startHolePunch remotePeer now => exact h.punchAttempts _
  | setPunchState remotePeer state => exact h.punchAttempts _
  | heartbeat id latency => exact consistent_heartbeat h id latency

/-! ### Runs -/

theorem nextCircuitId_closeCircuit (circuitId : ℕ) :
    (g.closeCircuit circuitId).2.nextCircuitId = g.nextCircuitId := by
  unfold RelayRegistry.closeCircuit
  split <;> rfl

theorem nextCircuitId_closeAll : ∀ (ids : List ℕ) {g : RelayRegistry},
    (ids.foldl (fun g id => (g.closeCircuit id).2) g).nextCircuitId = g.nextCircuitId
  | [], _ => rfl
  | id :: ids, _ => (nextCircuitId_closeAll ids).trans (nextCircuitId_closeCircuit id)

/-- A call gives at most one id. -/
theorem nextCircuitId_perform_le (score : RelayNode → ℚ) (call : Call) :
    (g.perform score call).nextCircuitId ≤ g.nextCircuitId + 1 := by
  cases call with
  | addRelay relay =>
    show (g.addRelay _).2.nextCircuitId ≤ _
    unfold RelayRegistry.addRelay
    split_ifs <;> exact Nat.le_succ _
  | createCircuit localPeer remotePeer preferredRegion now =>
    show (g.createCircuit score _ _ _ _).2.nextCircuitId ≤ _
    unfold RelayRegistry.createCircuit
    split
    · exact Nat.le_succ _
    · exact Nat.min_le_left _ _
  | closeCircuit circuitId => exact (nextCircuitId_closeCircuit circuitId).trans_le (Nat.le_succ _)
  | cleanup now => exact (nextCircuitId_closeAll _).trans_le (Nat.le_succ _)
  | startHolePunch remotePeer now => exact Nat.le_succ _
  | setPunchState remotePeer state => exact Nat.le_succ _
  | heartbeat id latency => exact Nat.le_succ _

theorem always_lawful : ∀ {calls : List Call} {g : RelayRegistry}, Consistent g →
    g.nextCircuitId + calls.length ≤ u64Max → Runs.Always (step score) (Lawful score) g calls
  | [], _, h, _ => h.lawful
  | call :: calls, g, h, hlen => by
    have hlen' : g.nextCircuitId + (calls.length + 1) ≤ u64Max := hlen
    refine ⟨h.lawful, fun g' hg' => ?_⟩
    obtain rfl := Option.some.inj hg'
    have hnext := nextCircuitId_perform_le (g := g) score call
    exact always_lawful (consistent_perform h (by omega) call) (by omega)

/-- **Every relay tallies its circuits** throughout a run in which the circuit ids do not run out. -/
theorem lawful_of_length (score : RelayNode → ℚ) (calls : List Call)
    (h : calls.length < 2 ^ 64 - 1) :
    Runs.Always (step score) (Lawful score) RelayRegistry.new calls :=
  always_lawful consistent_new (by
    show 1 + calls.length ≤ 2 ^ 64 - 1
    omega)

/-- Two circuits through a relay of one: the second is refused until the first is idle. -/
theorem lawful_of_length_one_relay :
    let relay : RelayNode := (RelayNode.new (Vector.replicate 20 1)).withMaxCircuits 1
    let peer : NodeId := Vector.replicate 20 2
    let calls : List Call := [.addRelay ⟨relay, rfl⟩, .createCircuit peer peer none 0,
      .createCircuit peer peer none 0, .cleanup circuitIdleTimeout, .createCircuit peer peer none 0]
    let score := RelayNode.selectionScore
    (Runs.run (step score) .new calls).map (fun g => g.circuits.map RelayCircuit.circuitId) =
        some [2] ∧
      Runs.Always (step score) (Lawful score) .new calls :=
  ⟨by decide +kernel, lawful_of_length _ _ (by decide)⟩

end CncContent.Peers.Relay
