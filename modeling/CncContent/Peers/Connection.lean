import CncContent.Lib.Bounded
import CncContent.Lib.Milestones

/-! # The life of a connection

`ConnectionState` of the source: the phase of a connection to a peer, and two timers. The one for the
handshake runs from the creation of the connection and counts in the phases before the handshake is
complete, the one for the keep-alive runs from the last message and counts when the connection is
ready. The phase between these two, the exchange of the bitfields, is watched by neither
(`noneEscapes_iff`). An instant is a number of nanoseconds. -/

namespace CncContent.Peers.Connection

open CncContent.Lib.Bounded CncContent.Lib.Milestones

def defaultHandshakeTimeoutSecs : ℕ := 30

def defaultKeepaliveIntervalSecs : ℕ := 120

inductive CloseReason
  | normal
  | handshakeTimeout
  | infoHashMismatch
  | protocolError
  | remoteClosed
  | ioError
  | keepAliveTimeout
deriving DecidableEq

def CloseReason.display : CloseReason → String
  | normal => "normal shutdown"
  | handshakeTimeout => "handshake timeout"
  | infoHashMismatch => "info hash mismatch"
  | protocolError => "protocol error"
  | remoteClosed => "remote closed"
  | ioError => "I/O error"
  | keepAliveTimeout => "keep-alive timeout"

inductive ConnectionPhase
  | connecting
  | handshaking
  | bitfieldExchange
  | ready
  | closing (reason : CloseReason)
  | closed
deriving DecidableEq

def ConnectionPhase.display : ConnectionPhase → String
  | connecting => "connecting"
  | handshaking => "handshaking"
  | bitfieldExchange => "bitfield exchange"
  | ready => "ready"
  | closing reason => "closing (" ++ reason.display ++ ")"
  | closed => "closed"

inductive ConnectionError
  | invalidTransition (fromPhase toPhase : String)
deriving DecidableEq

structure ConnectionState where
  phase : ConnectionPhase
  createdAt : ℕ
  lastTransition : ℕ
  lastMessageReceived : ℕ
  amChoking : Bool
  amInterested : Bool
  peerChoking : Bool
  peerInterested : Bool
  fastExtension : Bool
deriving DecidableEq

namespace ConnectionState

def new (now : ℕ) : ConnectionState where
  phase := .connecting
  createdAt := now
  lastTransition := now
  lastMessageReceived := now
  amChoking := true
  amInterested := false
  peerChoking := true
  peerInterested := false
  fastExtension := false

variable (c : ConnectionState)

def isReady : Bool := c.phase = .ready

def isTerminal : Bool :=
  match c.phase with
  | .closing _ | .closed => true
  | _ => false

/-! ### Transitions -/

/-- A transition to the phase `target`, which an error calls `toPhase`. -/
def transition (allowed : Bool) (target : ConnectionPhase) (toPhase : String) (now : ℕ) :
    Except ConnectionError ConnectionState :=
  if allowed then .ok { c with phase := target, lastTransition := now }
  else .error (.invalidTransition c.phase.display toPhase)

def transitionToHandshaking (now : ℕ) : Except ConnectionError ConnectionState :=
  c.transition (c.phase = .connecting) .handshaking "handshaking" now

def transitionToBitfieldExchange (now : ℕ) : Except ConnectionError ConnectionState :=
  c.transition (c.phase = .handshaking) .bitfieldExchange "bitfield exchange" now

def transitionToReady (now : ℕ) : Except ConnectionError ConnectionState :=
  c.transition (c.phase = .bitfieldExchange) .ready "ready" now

def transitionToClosing (reason : CloseReason) (now : ℕ) : Except ConnectionError ConnectionState :=
  c.transition (!c.isTerminal) (.closing reason) "closing" now

def transitionToClosed (now : ℕ) : Except ConnectionError ConnectionState :=
  c.transition (match c.phase with | .closing _ => true | _ => false) .closed "closed" now

/-! ### Choking and interest -/

def setAmChoking (choking : Bool) : ConnectionState := { c with amChoking := choking }

def setAmInterested (interested : Bool) : ConnectionState := { c with amInterested := interested }

def setPeerChoking (choking : Bool) : ConnectionState := { c with peerChoking := choking }

def setPeerInterested (interested : Bool) : ConnectionState := { c with peerInterested := interested }

def setFastExtension (supported : Bool) : ConnectionState := { c with fastExtension := supported }

def canRequest : Bool := c.isReady && !c.peerChoking && c.amInterested

def canServe : Bool := c.isReady && !c.amChoking && c.peerInterested

/-! ### Timing -/

def recordMessageReceived (now : ℕ) : ConnectionState := { c with lastMessageReceived := now }

/-- The whole seconds from `earlier` to `now`, zero if `now` is the earlier one. -/
def secsSince (now earlier : ℕ) : ℕ := (now - earlier) / 10 ^ 9

def isHandshakeTimedOut (now : ℕ) : Bool :=
  match c.phase with
  | .connecting | .handshaking => secsSince now c.createdAt > defaultHandshakeTimeoutSecs
  | _ => false

def isKeepaliveTimedOut (now : ℕ) : Bool :=
  c.isReady &&
    secsSince now c.lastMessageReceived > satMul u64Max defaultKeepaliveIntervalSecs 2

end ConnectionState

open ConnectionState

/-! ## Runs -/

/-- A call that changes a connection. -/
inductive Action
  | transitionToHandshaking
  | transitionToBitfieldExchange
  | transitionToReady
  | transitionToClosing (reason : CloseReason)
  | transitionToClosed
  | setAmChoking (choking : Bool)
  | setAmInterested (interested : Bool)
  | setPeerChoking (choking : Bool)
  | setPeerInterested (interested : Bool)
  | setFastExtension (supported : Bool)
  | recordMessageReceived
deriving DecidableEq

/-- A call and the instant at which it is made. -/
structure Call where
  action : Action
  now : ℕ
deriving DecidableEq

/-- A transition that fails leaves the connection as it is. -/
def orElseKept (c : ConnectionState) : Except ConnectionError ConnectionState → ConnectionState
  | .ok c' => c'
  | .error _ => c

def perform (c : ConnectionState) (call : Call) : ConnectionState :=
  match call.action with
  | .transitionToHandshaking => orElseKept c (c.transitionToHandshaking call.now)
  | .transitionToBitfieldExchange => orElseKept c (c.transitionToBitfieldExchange call.now)
  | .transitionToReady => orElseKept c (c.transitionToReady call.now)
  | .transitionToClosing reason => orElseKept c (c.transitionToClosing reason call.now)
  | .transitionToClosed => orElseKept c (c.transitionToClosed call.now)
  | .setAmChoking choking => c.setAmChoking choking
  | .setAmInterested interested => c.setAmInterested interested
  | .setPeerChoking choking => c.setPeerChoking choking
  | .setPeerInterested interested => c.setPeerInterested interested
  | .setFastExtension supported => c.setFastExtension supported
  | .recordMessageReceived => c.recordMessageReceived call.now

/-- The connection that was created at `t0`, after the calls. -/
def after (t0 : ℕ) (calls : List Call) : ConnectionState := calls.foldl perform (new t0)

/-- The instants of the calls do not decrease. -/
def InOrder (t0 : ℕ) (calls : List Call) : Prop := (t0 :: calls.map Call.now).Pairwise (· ≤ ·)

theorem after_concat (t0 : ℕ) (calls : List Call) (call : Call) :
    after t0 (calls ++ [call]) = perform (after t0 calls) call := by
  unfold after
  rw [List.foldl_append, List.foldl_cons, List.foldl_nil]

theorem orElseKept_transition (c : ConnectionState) (allowed : Bool) (target : ConnectionPhase)
    (toPhase : String) (now : ℕ) :
    orElseKept c (c.transition allowed target toPhase now) =
      if allowed then { c with phase := target, lastTransition := now } else c := by
  cases allowed <;> rfl

/-! ### The instants -/

/-- What a call changes of the instants that the timers read. -/
theorem instants_perform (c : ConnectionState) (call : Call) :
    (perform c call).createdAt = c.createdAt ∧ (perform c call).lastMessageReceived =
      if call.action = .recordMessageReceived then call.now else c.lastMessageReceived := by
  obtain ⟨action, now⟩ := call
  have htrans : ∀ allowed target toPhase,
      (orElseKept c (c.transition allowed target toPhase now)).createdAt = c.createdAt ∧
        (orElseKept c (c.transition allowed target toPhase now)).lastMessageReceived =
          c.lastMessageReceived := by
    intro allowed target toPhase
    rw [orElseKept_transition]
    split_ifs <;> exact ⟨rfl, rfl⟩
  cases action with
  | transitionToHandshaking => exact htrans ..
  | transitionToBitfieldExchange => exact htrans ..
  | transitionToReady => exact htrans ..
  | transitionToClosing reason => exact htrans ..
  | transitionToClosed => exact htrans ..
  | _ => exact ⟨rfl, rfl⟩

theorem createdAt_after (t0 : ℕ) (calls : List Call) : (after t0 calls).createdAt = t0 := by
  induction calls using List.reverseRecOn with
  | nil => rfl
  | append_singleton calls call ih => rw [after_concat, (instants_perform _ call).1, ih]

/-- The last message is one of those recorded, if there is one. -/
theorem lastMessageReceived_after (t0 : ℕ) (calls : List Call) :
    (after t0 calls).lastMessageReceived = t0 ∨
      ∃ call ∈ calls, call.action = .recordMessageReceived ∧
        (after t0 calls).lastMessageReceived = call.now := by
  induction calls using List.reverseRecOn with
  | nil => exact Or.inl rfl
  | append_singleton calls call ih =>
    rw [after_concat, (instants_perform _ call).2]
    by_cases hrec : call.action = .recordMessageReceived
    · rw [if_pos hrec]
      exact Or.inr ⟨call, List.mem_append_right _ (List.mem_singleton_self call), hrec, rfl⟩
    · rw [if_neg hrec]
      rcases ih with h | ⟨m, hm, hact, hnow⟩
      · exact Or.inl h
      · exact Or.inr ⟨m, List.mem_append_left _ hm, hact, hnow⟩

/-! ### The phases -/

/-- The transitions of a connection that is not being closed, in their order. -/
def milestones : List Action :=
  [.transitionToHandshaking, .transitionToBitfieldExchange, .transitionToReady]

def Action.closes : Action → Bool
  | .transitionToClosing _ => true
  | _ => false

/-- The number of milestones in front of a phase, if the connection is not being closed in it. -/
def ConnectionPhase.stage : ConnectionPhase → Option ℕ
  | connecting => some 0
  | handshaking => some 1
  | bitfieldExchange => some 2
  | ready => some 3
  | closing _ | closed => none

/-- **One call** moves the connection on exactly if it is the milestone that is next. -/
theorem stage_perform (c : ConnectionState) (call : Call) :
    (perform c call).phase.stage =
      if call.action.closes then none else c.phase.stage.map (advance milestones · call.action) := by
  obtain ⟨action, now⟩ := call
  obtain ⟨phase, _⟩ := c
  cases action <;> cases phase <;> rfl

/-- **A run** has passed the milestones that can be picked from its calls, until a call closes. -/
theorem stage_after (t0 : ℕ) (calls : List Call) :
    (after t0 calls).phase.stage =
      if calls.any (·.action.closes) then none
      else some (reached milestones (calls.map Call.action)) := by
  induction calls using List.reverseRecOn with
  | nil => rfl
  | append_singleton calls call ih =>
    rw [after_concat, stage_perform, ih, List.any_append, List.any_cons, List.any_nil, Bool.or_false,
      List.map_append, List.map_singleton, reached_concat]
    cases call.action.closes with
    | true => rw [if_pos rfl, Bool.or_true, if_pos rfl]
    | false =>
      rw [if_neg Bool.false_ne_true, Bool.or_false]
      split_ifs <;> rfl

theorem stage_after_eq_some_iff {t0 n : ℕ} {calls : List Call} :
    (after t0 calls).phase.stage = some n ↔
      reached milestones (calls.map Call.action) = n ∧ ∀ call ∈ calls, call.action.closes = false := by
  rw [stage_after]
  by_cases hany : calls.any (·.action.closes)
  · rw [if_pos hany]
    refine iff_of_false nofun fun h => ?_
    obtain ⟨call, hmem, hcloses⟩ := List.any_eq_true.mp hany
    rw [h.2 call hmem] at hcloses
    cases hcloses
  · have hopen : ∀ call ∈ calls, call.action.closes = false := fun call hmem =>
      Bool.eq_false_iff.mpr fun h => hany (List.any_eq_true.mpr ⟨call, hmem, h⟩)
    rw [if_neg hany, Option.some.injEq]
    exact ⟨fun h => ⟨h, hopen⟩, And.left⟩

/-- A connection is ready when all milestones have come in their order and nothing has closed it. -/
theorem isReady_iff (t0 : ℕ) (calls : List Call) : (after t0 calls).isReady = true ↔
    milestones.Sublist (calls.map Call.action) ∧ ∀ call ∈ calls, call.action.closes = false := by
  have hstage : (after t0 calls).isReady = true ↔ (after t0 calls).phase.stage = some 3 := by
    unfold isReady
    cases (after t0 calls).phase <;> simp [ConnectionPhase.stage]
  rw [hstage, stage_after_eq_some_iff]
  exact and_congr_left fun _ => reached_eq_length_iff milestones _

/-- Requests are made and served only behind the handshake and the exchange of the bitfields. -/
theorem sublist_of_request {t0 : ℕ} {calls : List Call}
    (h : (after t0 calls).canRequest = true ∨ (after t0 calls).canServe = true) :
    milestones.Sublist (calls.map Call.action) := by
  have hready : (after t0 calls).isReady = true := by
    unfold canRequest canServe at h
    simp only [Bool.and_eq_true] at h
    rcases h with h | h
    · exact h.1.1
    · exact h.1.1
  exact ((isReady_iff t0 calls).mp hready).1

/-- The calls that leave a connection in the exchange of the bitfields: a transition to handshaking,
one to the exchange behind it and none to ready behind that one, and none to closing. -/
structure Exchanging (calls : List Call) : Prop where
  begun : [.transitionToHandshaking, .transitionToBitfieldExchange].Sublist (calls.map Call.action)
  pending : ¬ [.transitionToHandshaking, .transitionToBitfieldExchange, .transitionToReady].Sublist
    (calls.map Call.action)
  opened : ∀ call ∈ calls, call.action.closes = false

theorem phase_eq_bitfieldExchange_iff (t0 : ℕ) (calls : List Call) :
    (after t0 calls).phase = .bitfieldExchange ↔ Exchanging calls := by
  have hstage : (after t0 calls).phase = .bitfieldExchange ↔
      (after t0 calls).phase.stage = some 2 := by
    cases (after t0 calls).phase <;> simp [ConnectionPhase.stage]
  rw [hstage, stage_after_eq_some_iff, reached_eq_iff milestones _ (by decide)]
  constructor
  · rintro ⟨⟨hbegun, hpending⟩, hopen⟩
    exact ⟨hbegun, hpending, hopen⟩
  · rintro ⟨hbegun, hpending, hopen⟩
    exact ⟨⟨hbegun, hpending⟩, hopen⟩

/-! ## Connections that stall -/

/-- Two intervals of the keep-alive and a second. -/
def patience : ℕ := (2 * defaultKeepaliveIntervalSecs + 1) * 10 ^ 9

/-- The connection is that old, and no message has been received for as long. -/
structure Silent (t0 : ℕ) (calls : List Call) (now : ℕ) : Prop where
  old : t0 + patience < now
  silent : ∀ call ∈ calls, call.action = .recordMessageReceived → call.now + patience ≤ now

/-- A moment of a run: the calls made before, and those that come later. -/
structure Moment (t0 : ℕ) (before later : List Call) (now : ℕ) : Prop where
  created : t0 ≤ now
  past : ∀ call ∈ before, call.now ≤ now
  future : ∀ call ∈ later, now ≤ call.now

def TimedOut (c : ConnectionState) (now : ℕ) : Prop :=
  c.isHandshakeTimedOut now = true ∨ c.isKeepaliveTimedOut now = true

/-- Whenever the connection has stalled, one of the timers has run out. -/
def NoneEscapes (t0 : ℕ) (calls : List Call) : Prop :=
  ∀ before later now, before ++ later = calls → Moment t0 before later now →
    (after t0 before).isTerminal = false → Silent t0 before now → TimedOut (after t0 before) now

section
variable {t0 now : ℕ} {calls : List Call}

theorem secsSince_of_silent {earlier : ℕ} (h : earlier + patience ≤ now) :
    2 * defaultKeepaliveIntervalSecs + 1 ≤ secsSince now earlier := by
  unfold secsSince
  rw [Nat.le_div_iff_mul_le (by decide)]
  exact Nat.le_sub_of_add_le' h

/-- When nothing is heard, each timer has run out exactly in the phases it counts in. -/
theorem timedOut_iff (h : Silent t0 calls now) (hopen : (after t0 calls).isTerminal = false) :
    TimedOut (after t0 calls) now ↔ (after t0 calls).phase ≠ .bitfieldExchange := by
  have hcreated : 241 ≤ secsSince now (after t0 calls).createdAt := by
    rw [createdAt_after]
    exact secsSince_of_silent (Nat.le_of_lt h.old)
  have hmessage : 241 ≤ secsSince now (after t0 calls).lastMessageReceived := by
    rcases lastMessageReceived_after t0 calls with hlast | ⟨call, hmem, hact, hlast⟩
    · rw [hlast]
      exact secsSince_of_silent (Nat.le_of_lt h.old)
    · rw [hlast]
      exact secsSince_of_silent (h.silent call hmem hact)
  have hhandshake : secsSince now (after t0 calls).createdAt > defaultHandshakeTimeoutSecs :=
    Nat.lt_of_lt_of_le (by decide) hcreated
  have hkeepalive : secsSince now (after t0 calls).lastMessageReceived >
      satMul u64Max defaultKeepaliveIntervalSecs 2 := Nat.lt_of_lt_of_le (by decide) hmessage
  unfold TimedOut isHandshakeTimedOut isKeepaliveTimedOut isReady
  unfold isTerminal at hopen
  cases hphase : (after t0 calls).phase with
  | connecting => simp [hhandshake]
  | handshaking => simp [hhandshake]
  | bitfieldExchange => simp
  | ready => simp [hkeepalive]
  | closing reason => rw [hphase] at hopen; cases hopen
  | closed => rw [hphase] at hopen; cases hopen

end

/-- **A stalled connection escapes the timers exactly if it has stalled in the exchange of the
bitfields.** -/
theorem noneEscapes_iff (t0 : ℕ) (calls : List Call) :
    NoneEscapes t0 calls ↔ ∀ before later now, before ++ later = calls →
      Moment t0 before later now → Silent t0 before now → ¬ Exchanging before := by
  constructor
  · intro h before later now heq hmoment hsilent hex
    have hphase := (phase_eq_bitfieldExchange_iff t0 before).mpr hex
    have hopen : (after t0 before).isTerminal = false := by
      unfold isTerminal
      rw [hphase]
    exact (timedOut_iff hsilent hopen).mp (h before later now heq hmoment hopen hsilent) hphase
  · intro h before later now heq hmoment hopen hsilent
    rw [timedOut_iff hsilent hopen, Ne, phase_eq_bitfieldExchange_iff]
    exact h before later now heq hmoment hsilent

/-- The handshake is made, and nothing after it. -/
def handshakeOnly : List Call :=
  [⟨.transitionToHandshaking, 0⟩, ⟨.transitionToBitfieldExchange, 0⟩]

/-- A peer that stops answering after the handshake is kept for ever. -/
theorem stalled_after_handshake : InOrder 0 handshakeOnly ∧ ¬ NoneEscapes 0 handshakeOnly := by
  refine ⟨by unfold InOrder; decide, fun h => ?_⟩
  have hmoment : Moment 0 handshakeOnly [] (1000 * 10 ^ 9) := ⟨by decide, by decide, nofun⟩
  have hsilent : Silent 0 handshakeOnly (1000 * 10 ^ 9) := ⟨by decide, by decide⟩
  rcases h _ [] _ rfl hmoment rfl hsilent with hhandshake | hkeepalive
  · cases hhandshake
  · cases hkeepalive

end CncContent.Peers.Connection
