import CncContent.Dht.Buckets
import CncContent.Lib.Maps

/-! # DHT nodes

`DhtNode` and its handling of messages. A message from the node's own network that is not a mere reply
enters its sender into the routing table, without an address and last seen at 0, also if the table
knew an address. The contacts of a table are kept by a message exactly if its sender had no address to
lose (`contacts_kept_iff_harmless`). -/

namespace CncContent.Dht.Node

open CncContent.Lib.Maps CncContent.Lib.Runs CncContent.Dht.Distance CncContent.Dht.Buckets

abbrev NetworkId := Vector UInt8 32

/-- The key of a stored value. -/
abbrev Key := Vector UInt8 32

inductive DhtMessage
  | ping (networkId : NetworkId) (sender : NodeId)
  | pong (networkId : NetworkId) (sender : NodeId)
  | findNode (networkId : NetworkId) (sender target : NodeId)
  | foundNode (networkId : NetworkId) (sender : NodeId) (nodes : List KBucketEntry)
  | store (networkId : NetworkId) (sender : NodeId) (key : Key) (value : String)
  | findValue (networkId : NetworkId) (sender : NodeId) (key : Key)
  | foundValue (networkId : NetworkId) (sender : NodeId) (value : Option String)
      (nodes : List KBucketEntry)
  | unknown (networkId : NetworkId) (sender : NodeId) (typeId : UInt8) (payload : List UInt8)
deriving DecidableEq, Repr

structure DhtNode where
  localId : NodeId
  networkId : NetworkId
  routingTable : RoutingTable
  store : Table Key String
deriving DecidableEq

namespace DhtNode

def new (localId : NodeId) (networkId : NetworkId) : DhtNode :=
  ⟨localId, networkId, .new localId, .empty⟩

variable (node : DhtNode)

/-- The sender is entered into the routing table. -/
def heardFrom (sender : NodeId) : DhtNode :=
  { node with routingTable := (node.routingTable.insert ⟨sender, "", 0⟩).1 }

def storeLocal (key : Key) (value : String) : DhtNode :=
  { node with store := node.store.alter key fun _ => value }

/-- The node after the message and its reply. -/
def handleMessage : DhtMessage → DhtNode × Option DhtMessage
  | .ping networkId sender =>
    if networkId ≠ node.networkId then (node, none)
    else (node.heardFrom sender, some (.pong node.networkId node.localId))
  | .pong networkId sender =>
    if networkId ≠ node.networkId then (node, none)
    else (node.heardFrom sender, none)
  | .findNode networkId sender target =>
    if networkId ≠ node.networkId then (node, none)
    else
      let node := node.heardFrom sender
      (node, some (.foundNode node.networkId node.localId (node.routingTable.closestNodes target K)))
  | .store networkId sender key value =>
    if networkId ≠ node.networkId then (node, none)
    else ((node.heardFrom sender).storeLocal key value, none)
  | .findValue networkId sender key =>
    if networkId ≠ node.networkId then (node, none)
    else
      let node := node.heardFrom sender
      let value := node.store.get? key
      let nodes := if value.isNone then node.routingTable.closestNodes key K else []
      (node, some (.foundValue node.networkId node.localId value nodes))
  | .foundNode networkId _ _ | .foundValue networkId _ _ _ =>
    if networkId ≠ node.networkId then (node, none) else (node, none)
  | .unknown networkId sender _ _ =>
    if networkId ≠ node.networkId then (node, none)
    else (node.heardFrom sender, none)

end DhtNode

def DhtMessage.networkId : DhtMessage → NetworkId
  | .ping n _ | .pong n _ | .findNode n _ _ | .foundNode n _ _ | .store n _ _ _ | .findValue n _ _
  | .foundValue n _ _ _ | .unknown n _ _ _ => n

/-- The sender of a message that enters it into the routing table. -/
def DhtMessage.introduces : DhtMessage → Option NodeId
  | .foundNode _ _ _ | .foundValue _ _ _ _ => none
  | .ping _ s | .pong _ s | .findNode _ s _ | .store _ s _ _ | .findValue _ s _
  | .unknown _ s _ _ => some s

/-! ### What a message does -/

/-- The node is of the message's network, and hears from its sender. -/
def Hears (node : DhtNode) (m : DhtMessage) (sender : NodeId) : Prop :=
  m.networkId = node.networkId ∧ m.introduces = some sender

variable {node : DhtNode} {m : DhtMessage}

/-- **A message of another network** changes nothing. -/
theorem handleMessage_foreign (h : m.networkId ≠ node.networkId) :
    node.handleMessage m = (node, none) := by
  cases m <;> exact if_pos h

/-- The routing table after a message. -/
theorem handleMessage_cases (node : DhtNode) (m : DhtMessage) :
    (∃ sender, Hears node m sender ∧ (node.handleMessage m).1.routingTable =
      (node.routingTable.insert ⟨sender, "", 0⟩).1) ∨
    (∀ sender, ¬ Hears node m sender) ∧ (node.handleMessage m).1 = node := by
  by_cases hown : m.networkId = node.networkId
  · cases hintro : m.introduces with
    | some sender =>
      refine Or.inl ⟨sender, ⟨hown, hintro⟩, ?_⟩
      cases m <;> cases hintro <;> dsimp only [DhtMessage.networkId] at hown <;> subst hown <;>
        simp [DhtNode.handleMessage, DhtNode.heardFrom, DhtNode.storeLocal]
    | none =>
      refine Or.inr ⟨fun sender h => ?_, ?_⟩
      · have hnone := hintro.symm.trans h.2
        cases hnone
      · cases m <;> cases hintro <;> exact congrArg Prod.fst (ite_self _)
  · exact Or.inr ⟨fun _ h => hown h.1, by rw [handleMessage_foreign hown]⟩

/-! ### Contacts -/

/-- Every node with a known address keeps it, and was last seen no earlier. -/
def KeepsContacts (before after : DhtNode) : Prop :=
  ∀ e ∈ before.routingTable.entries, e.addr ≠ "" → ∃ e' ∈ after.routingTable.entries,
    e'.nodeId = e.nodeId ∧ e'.addr = e.addr ∧ e.lastSeenUnixSecs ≤ e'.lastSeenUnixSecs

/-- The sender, if the node hears from it, has no address in the routing table. -/
def Harmless (node : DhtNode) (m : DhtMessage) : Prop :=
  ∀ sender, Hears node m sender → ∀ e, node.routingTable.find sender = some e → e.addr = ""

/-- The node after a message; every message is handled. -/
def step (node : DhtNode) (m : DhtMessage) : Option DhtNode := some (node.handleMessage m).1

/-- **A harmless message** leaves every contact where it is. -/
theorem Harmless.keeps {start : DhtNode} (hkeeps : KeepsContacts start node) (h : Harmless node m) :
    KeepsContacts start (node.handleMessage m).1 := by
  intro e he haddr
  obtain ⟨e', hmem, hid, haddr', hseen⟩ := hkeeps e he haddr
  refine ⟨e', ?_, hid, haddr', hseen⟩
  rcases handleMessage_cases node m with ⟨sender, hhears, htable⟩ | ⟨-, hsame⟩
  · rw [htable]
    rcases mem_insert_of_mem hmem ⟨sender, "", 0⟩ with hfind | hmem
    · exact absurd (haddr'.symm.trans (h sender hhears e' hfind)) haddr
    · exact hmem
  · rw [hsame]
    exact hmem

/-- What the messages keep: the buckets are as they have to be, and every contact is one of the
start. -/
structure Inv (start node : DhtNode) : Prop where
  wellFormed : WellFormed node.routingTable
  old : ∀ e ∈ node.routingTable.entries, e.addr ≠ "" → e ∈ start.routingTable.entries

theorem Inv.step {start : DhtNode} (h : Inv start node) (m : DhtMessage) :
    Inv start (node.handleMessage m).1 := by
  rcases handleMessage_cases node m with ⟨sender, -, htable⟩ | ⟨-, hsame⟩
  · refine ⟨htable ▸ h.wellFormed.insert _, fun e he haddr => ?_⟩
    rw [htable] at he
    rcases mem_of_mem_insert he with rfl | he
    · exact absurd rfl haddr
    · exact h.old e he haddr
  · rw [hsame]
    exact h

/-- A contact that sends a message is lost. -/
theorem Inv.harmless {start : DhtNode} (h : Inv start node)
    (hkeeps : KeepsContacts start (node.handleMessage m).1) : Harmless node m := by
  intro sender hhears e hfind
  by_contra haddr
  obtain ⟨he, hid⟩ := mem_of_find hfind
  obtain ⟨e', he', hid', haddr', -⟩ := hkeeps e (h.old e he haddr) haddr
  have hafter := (h.step m).wellFormed.distinct
  rcases handleMessage_cases node m with ⟨sender', hhears', htable⟩ | ⟨hnot, -⟩
  · obtain rfl := Option.some.inj (hhears.2.symm.trans hhears'.2)
    rw [htable] at he' hafter
    have hself := mem_insert_self ⟨sender, "", 0⟩ hfind
    have hsame := List.inj_on_of_nodup_map hafter he' hself (hid'.trans hid)
    rw [hsame] at haddr'
    exact haddr haddr'.symm
  · exact hnot sender hhears

/-- **The contacts are kept through the messages whose senders have no address to lose**, and, if the
table is as it has to be, through no others. A message of another network changes nothing. -/
theorem contacts_kept_iff_harmless (node : DhtNode) (messages : List DhtMessage) :
    (∀ m : DhtMessage, m.networkId ≠ node.networkId → node.handleMessage m = (node, none)) ∧
    (Meets step Harmless node messages → Always step (KeepsContacts node) node messages) ∧
    (WellFormed node.routingTable →
      Always step (KeepsContacts node) node messages → Meets step Harmless node messages) := by
  have hrefl : KeepsContacts node node := fun e he _ => ⟨e, he, rfl, rfl, le_rfl⟩
  refine ⟨fun m => handleMessage_foreign, always_of_meets (fun s m s' hkeeps hharmless hstep => ?_) hrefl,
    fun hwf => ?_⟩
  · obtain rfl := Option.some.inj hstep
    exact hharmless.keeps hkeeps
  · refine (always_iff_meets (I := Inv node) (fun s m s' hinv _ hstep => ?_)
      (fun s m s' hinv hkeeps hstep => ?_) (fun _ _ _ _ => nofun) ⟨hwf, fun _ he _ => he⟩ hrefl).mp
    · obtain rfl := Option.some.inj hstep
      exact hinv.step m
    · obtain rfl := Option.some.inj hstep
      exact ⟨hinv.harmless, fun h => h.keeps hkeeps⟩

/-- A node of the highest bucket, known at an address. -/
def knownNode : KBucketEntry := ⟨(farNode 0x40).nodeId, "10.0.0.1:6881", 100⟩

/-- The node zero of the network zero, which knows one other. -/
def zeroNode : DhtNode :=
  ⟨Vector.replicate 32 0, Vector.replicate 32 0,
    ((RoutingTable.new (Vector.replicate 32 0)).insert knownNode).1, .empty⟩

theorem contacts_kept_iff_harmless_stranger : Always step (KeepsContacts zeroNode) zeroNode
    [.ping (Vector.replicate 32 0) (farNode 0).nodeId] := by
  refine (contacts_kept_iff_harmless zeroNode _).2.1 ⟨?_, fun _ _ => trivial⟩
  rintro sender ⟨-, hintro⟩ e hfind
  cases hintro
  have hnone : zeroNode.routingTable.find (farNode 0).nodeId = none := by
    decide +kernel
  rw [hnone] at hfind
  cases hfind

/-- **A ping of a known node** loses its address and the time it was seen. -/
theorem ping_loses_contact : zeroNode.routingTable.entries = [knownNode] ∧
    (zeroNode.handleMessage (.ping (Vector.replicate 32 0) knownNode.nodeId)).1.routingTable.entries =
      [⟨knownNode.nodeId, "", 0⟩] := by
  decide +kernel

end CncContent.Dht.Node
