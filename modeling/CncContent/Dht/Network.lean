import CncContent.Dht.Node

/-! # Networks of DHT nodes

Nodes of any number of networks, and the messages that have been sent. A message is delivered to any node, any
number of times and in any order, or never; a reply joins the messages. The messages of one network are all
that its nodes ever react to (`network_isolated`), and what a node stores is what the last write to the key
says that has reached it (`stored_is_last_write`). -/

namespace CncContent.Dht.Network

open CncContent.Lib.Maps CncContent.Lib.Runs CncContent.Dht.Buckets CncContent.Dht.Node

variable {ι : Type} [DecidableEq ι]

structure State (ι : Type) where
  nodes : ι → DhtNode
  flight : List DhtMessage

inductive Event (ι : Type)
  | send (m : DhtMessage)
  | deliver (i : ι) (m : DhtMessage)
  | storeLocal (i : ι) (key : Key) (value : String)
  | learn (i : ι) (entry : KBucketEntry)
  | evict (i : ι) (entry : KBucketEntry)
deriving DecidableEq

/-- `routing_table_mut().insert`. -/
def learnEntry (node : DhtNode) (entry : KBucketEntry) : DhtNode :=
  { node with routingTable := (node.routingTable.insert entry).1 }

/-- `routing_table_mut().evict_and_insert`. -/
def evictEntry (node : DhtNode) (entry : KBucketEntry) : DhtNode :=
  { node with routingTable := (node.routingTable.evictAndInsert entry).1 }

/-- The state with another node at `i`. -/
def State.setNode (s : State ι) (i : ι) (node : DhtNode) : State ι :=
  { s with nodes := Function.update s.nodes i node }

theorem setNode_self (s : State ι) (i : ι) (node : DhtNode) : (s.setNode i node).nodes i = node := by
  unfold State.setNode
  exact Function.update_self i node s.nodes

theorem setNode_of_ne (s : State ι) {i j : ι} (h : j ≠ i) (node : DhtNode) :
    (s.setNode i node).nodes j = s.nodes j := by
  unfold State.setNode
  exact Function.update_of_ne h node s.nodes

theorem setNode_same (s : State ι) (i : ι) : s.setNode i (s.nodes i) = s := by
  unfold State.setNode
  rw [Function.update_eq_self]

/-- Clients, and whoever else can reach a node, send what they like; only what has been sent is delivered. -/
def step (s : State ι) : Event ι → Option (State ι)
  | .send m => some { s with flight := s.flight ++ [m] }
  | .deliver i m =>
    if m ∈ s.flight then
      let (node, reply) := (s.nodes i).handleMessage m
      some { s.setNode i node with flight := s.flight ++ reply.toList }
    else none
  | .storeLocal i key value => some (s.setNode i ((s.nodes i).storeLocal key value))
  | .learn i entry => some (s.setNode i (learnEntry (s.nodes i) entry))
  | .evict i entry => some (s.setNode i (evictEntry (s.nodes i) entry))

theorem step_deliver {s s' : State ι} {i : ι} {m : DhtMessage} (h : step s (.deliver i m) = some s') :
    m ∈ s.flight ∧ s' = { s.setNode i ((s.nodes i).handleMessage m).1 with
      flight := s.flight ++ ((s.nodes i).handleMessage m).2.toList } := by
  unfold step at h
  dsimp only at h
  split_ifs at h with hm
  exact ⟨hm, (Option.some.inj h).symm⟩

/-! ### Networks -/

theorem networkId_handleMessage (node : DhtNode) (m : DhtMessage) :
    (node.handleMessage m).1.networkId = node.networkId := by
  by_cases h : m.networkId = node.networkId
  · cases m <;> dsimp only [DhtMessage.networkId] at h <;> subst h <;>
      simp [DhtNode.handleMessage, DhtNode.heardFrom, DhtNode.storeLocal]
  · rw [handleMessage_foreign h]

/-- A reply is of the network of the node. -/
theorem networkId_reply {node : DhtNode} {m r : DhtMessage} (h : (node.handleMessage m).2 = some r) :
    r.networkId = node.networkId := by
  by_cases hm : m.networkId = node.networkId
  · cases m <;> dsimp only [DhtMessage.networkId] at hm <;> subst hm <;>
      simp [DhtNode.handleMessage, DhtNode.heardFrom] at h <;> subst h <;> rfl
  · rw [handleMessage_foreign hm] at h
    cases h

/-- The events that concern a network, if `nets` says of which network each node is. -/
def concerns (nets : ι → NetworkId) (n : NetworkId) : Event ι → Bool
  | .send m => m.networkId = n
  | .deliver i m => nets i = n ∧ m.networkId = n
  | .storeLocal i _ _ => nets i = n
  | .learn i _ => nets i = n
  | .evict i _ => nets i = n

/-- The messages of a network. -/
def ofNetwork (n : NetworkId) (flight : List DhtMessage) : List DhtMessage :=
  flight.filter fun m => m.networkId = n

/-- The same nodes of a network, and the same messages of it. -/
structure SameNetwork (nets : ι → NetworkId) (n : NetworkId) (s t : State ι) : Prop where
  networks : ∀ i, (s.nodes i).networkId = nets i
  nodes : ∀ i, nets i = n → t.nodes i = s.nodes i
  flight : t.flight = ofNetwork n s.flight

theorem mem_ofNetwork {n : NetworkId} {flight : List DhtMessage} {m : DhtMessage} :
    m ∈ ofNetwork n flight ↔ m ∈ flight ∧ m.networkId = n := by
  unfold ofNetwork
  rw [List.mem_filter, decide_eq_true_eq]

theorem ofNetwork_append (n : NetworkId) (l l' : List DhtMessage) :
    ofNetwork n (l ++ l') = ofNetwork n l ++ ofNetwork n l' := List.filter_append l l'

theorem ofNetwork_of_all {n : NetworkId} {l : List DhtMessage} (h : ∀ m ∈ l, m.networkId = n) :
    ofNetwork n l = l := List.filter_eq_self.mpr fun m hm => decide_eq_true (h m hm)

theorem ofNetwork_of_none {n : NetworkId} {l : List DhtMessage} (h : ∀ m ∈ l, m.networkId ≠ n) :
    ofNetwork n l = [] := List.filter_eq_nil_iff.mpr fun m hm => by
  rw [decide_eq_true_eq]
  exact h m hm

namespace SameNetwork

variable {nets : ι → NetworkId} {n : NetworkId} {s t : State ι}

/-- A node of the network does the same in both. -/
theorem setNode (h : SameNetwork nets n s t) {i : ι} {node : DhtNode} (hnet : node.networkId = nets i) :
    SameNetwork nets n (s.setNode i node) (t.setNode i node) := by
  refine ⟨fun j => ?_, fun j hj => ?_, h.flight⟩
  · rcases eq_or_ne j i with rfl | hji
    · rw [setNode_self, hnet]
    · rw [setNode_of_ne s hji, h.networks]
  · rcases eq_or_ne j i with rfl | hji
    · rw [setNode_self, setNode_self]
    · rw [setNode_of_ne s hji, setNode_of_ne t hji, h.nodes j hj]

/-- A node of the network is changed in both. -/
theorem change (h : SameNetwork nets n s t) {i : ι} (hi : nets i = n) {f : DhtNode → DhtNode}
    (hf : (f (s.nodes i)).networkId = nets i) :
    SameNetwork nets n (s.setNode i (f (s.nodes i))) (t.setNode i (f (t.nodes i))) := by
  rw [h.nodes i hi]
  exact h.setNode hf

/-- A node of another network changes nothing. -/
theorem setOther (h : SameNetwork nets n s t) {i : ι} {node : DhtNode} (hnet : node.networkId = nets i)
    (hi : nets i ≠ n) : SameNetwork nets n (s.setNode i node) t := by
  refine ⟨fun j => ?_, fun j hj => ?_, h.flight⟩
  · rcases eq_or_ne j i with rfl | hji
    · rw [setNode_self, hnet]
    · rw [setNode_of_ne s hji, h.networks]
  · have hji : j ≠ i := by
      rintro rfl
      exact hi hj
    rw [setNode_of_ne s hji, h.nodes j hj]

omit [DecidableEq ι] in
/-- Messages of the network join it in both, others in neither. -/
theorem send (h : SameNetwork nets n s t) (ms : List DhtMessage) :
    SameNetwork nets n { s with flight := s.flight ++ ms } { t with flight := t.flight ++ ofNetwork n ms } :=
  ⟨h.networks, h.nodes, by rw [ofNetwork_append, h.flight]⟩

theorem follow (h : SameNetwork nets n s t) {e : Event ι} (hkeep : concerns nets n e = true) {s' : State ι}
    (hs : step s e = some s') : ∃ t', step t e = some t' ∧ SameNetwork nets n s' t' := by
  cases e with
  | send m =>
    cases hs
    have hm : m.networkId = n := of_decide_eq_true hkeep
    have hsend := h.send [m]
    rw [ofNetwork_of_all (List.forall_mem_singleton.mpr hm)] at hsend
    exact ⟨_, rfl, hsend⟩
  | deliver i m =>
    obtain ⟨hm, rfl⟩ := step_deliver hs
    obtain ⟨hi, hmn⟩ := of_decide_eq_true hkeep
    have hmt : m ∈ t.flight := by
      rw [h.flight]
      exact mem_ofNetwork.mpr ⟨hm, hmn⟩
    have hreply : ∀ r ∈ ((s.nodes i).handleMessage m).2.toList, r.networkId = n := fun r hr => by
      rw [networkId_reply (Option.mem_toList.mp hr), h.networks, hi]
    have hset := (h.setNode ((networkId_handleMessage (s.nodes i) m).trans (h.networks i))).send
      ((s.nodes i).handleMessage m).2.toList
    rw [ofNetwork_of_all hreply] at hset
    refine ⟨_, ?_, hset⟩
    unfold step
    dsimp only
    rw [if_pos hmt, h.nodes i hi]
    rfl
  | storeLocal i key value =>
    cases hs
    have hi : nets i = n := of_decide_eq_true hkeep
    exact ⟨_, rfl, h.change hi (f := fun node => node.storeLocal key value) (h.networks i)⟩
  | learn i entry =>
    cases hs
    have hi : nets i = n := of_decide_eq_true hkeep
    exact ⟨_, rfl, h.change hi (f := fun node => learnEntry node entry) (h.networks i)⟩
  | evict i entry =>
    cases hs
    have hi : nets i = n := of_decide_eq_true hkeep
    exact ⟨_, rfl, h.change hi (f := fun node => evictEntry node entry) (h.networks i)⟩

theorem ignore (h : SameNetwork nets n s t) {e : Event ι} (hkeep : concerns nets n e = false) {s' : State ι}
    (hs : step s e = some s') : SameNetwork nets n s' t := by
  cases e with
  | send m =>
    cases hs
    have hm : m.networkId ≠ n := of_decide_eq_false hkeep
    have hsend := h.send [m]
    rw [ofNetwork_of_none (List.forall_mem_singleton.mpr hm), List.append_nil] at hsend
    exact hsend
  | deliver i m =>
    obtain ⟨hm, rfl⟩ := step_deliver hs
    by_cases hi : nets i = n
    · have hmn : m.networkId ≠ (s.nodes i).networkId := fun heq =>
        of_decide_eq_false hkeep ⟨hi, heq.trans ((h.networks i).trans hi)⟩
      rw [handleMessage_foreign hmn, setNode_same]
      have hsend := h.send []
      rw [ofNetwork_of_none (List.forall_mem_nil _), List.append_nil t.flight] at hsend
      exact hsend
    · have hreply : ∀ r ∈ ((s.nodes i).handleMessage m).2.toList, r.networkId ≠ n := fun r hr => by
        rwa [networkId_reply (Option.mem_toList.mp hr), h.networks]
      have hset := (h.setOther ((networkId_handleMessage (s.nodes i) m).trans (h.networks i)) hi).send
        ((s.nodes i).handleMessage m).2.toList
      rwa [ofNetwork_of_none hreply, List.append_nil] at hset
  | storeLocal i key value =>
    cases hs
    exact h.setOther (h.networks i) (of_decide_eq_false hkeep)
  | learn i entry =>
    cases hs
    exact h.setOther (h.networks i) (of_decide_eq_false hkeep)
  | evict i entry =>
    cases hs
    exact h.setOther (h.networks i) (of_decide_eq_false hkeep)

end SameNetwork

/-- The state with the messages of one network only. -/
def State.restrict (n : NetworkId) (s : State ι) : State ι := { s with flight := ofNetwork n s.flight }

/-- The events of a run that concern a network. -/
def eventsOf (s : State ι) (n : NetworkId) (events : List (Event ι)) : List (Event ι) :=
  events.filter (concerns (fun i => (s.nodes i).networkId) n)

/-- **A network is isolated.** Its nodes go through every run as through the run of the events that concern
them alone: whatever is sent to them from other networks, and whatever becomes of it, they end as they do
without it, and send the same messages. -/
theorem network_isolated {s s' : State ι} {events : List (Event ι)} (h : run step s events = some s')
    (n : NetworkId) :
    ∃ t, run step (s.restrict n) (eventsOf s n events) = some t ∧
      (∀ i, (s.nodes i).networkId = n → t.nodes i = s'.nodes i) ∧ t.flight = ofNetwork n s'.flight := by
  have hstart : SameNetwork (fun i => (s.nodes i).networkId) n s (s.restrict n) :=
    ⟨fun _ => rfl, fun _ _ => rfl, rfl⟩
  obtain ⟨t, ht, hsame⟩ := run_filter (fun _ _ _ _ h hk hs => h.follow hk hs)
    (fun _ _ _ _ h hk hs => h.ignore hk hs) hstart h
  exact ⟨t, ht, hsame.nodes, hsame.flight⟩

/-! ### Stored values -/

/-- What a message writes to the key of a node of the network. -/
def writtenBy (n : NetworkId) (key : Key) : DhtMessage → Option String
  | .store n' _ k value => if n' = n ∧ k = key then some value else none
  | _ => none

/-- What an event writes to the key of a node. -/
def writes (nets : ι → NetworkId) (i : ι) (key : Key) : Event ι → Option String
  | .storeLocal j k value => if j = i ∧ k = key then some value else none
  | .deliver j m => if j = i then writtenBy (nets i) key m else none
  | _ => none

theorem get?_storeLocal (node : DhtNode) (k key : Key) (value : String) :
    (node.storeLocal k value).store.get? key =
      (if k = key then some value else none).or (node.store.get? key) := by
  unfold DhtNode.storeLocal
  rw [Table.get?_alter]
  by_cases h : k = key
  · rw [if_pos h, if_pos h.symm]
    rfl
  · rw [if_neg h, if_neg (Ne.symm h), Option.none_or]

/-- Only a `Store` message of the node's own network changes what it stores. -/
theorem get?_handleMessage (node : DhtNode) (m : DhtMessage) (key : Key) :
    (node.handleMessage m).1.store.get? key = (writtenBy node.networkId key m).or (node.store.get? key) := by
  by_cases h : m.networkId = node.networkId
  · cases m with
    | store n sender k value =>
      dsimp only [DhtMessage.networkId] at h
      subst h
      simp only [DhtNode.handleMessage, ne_eq, not_true_eq_false, if_false]
      rw [get?_storeLocal]
      simp only [writtenBy, true_and]
      rfl
    | _ =>
      dsimp only [DhtMessage.networkId] at h
      subst h
      simp [DhtNode.handleMessage, DhtNode.heardFrom, writtenBy]
  · rw [handleMessage_foreign h]
    cases m with
    | store n sender k value =>
      have hn : ¬ (n = node.networkId ∧ k = key) := fun hn => h hn.1
      simp only [writtenBy, if_neg hn, Option.none_or]
    | _ => rfl

/-- The nodes keep their networks. -/
def NetworksAre (nets : ι → NetworkId) (s : State ι) : Prop := ∀ i, (s.nodes i).networkId = nets i

theorem NetworksAre.setNode {nets : ι → NetworkId} {s : State ι} (h : NetworksAre nets s) {i : ι}
    {node : DhtNode} (hnode : node.networkId = (s.nodes i).networkId) : NetworksAre nets (s.setNode i node) := by
  intro j
  rcases eq_or_ne j i with rfl | hji
  · rw [setNode_self, hnode, h]
  · rw [setNode_of_ne s hji, h]

theorem NetworksAre.step {nets : ι → NetworkId} {s s' : State ι} {e : Event ι} (h : NetworksAre nets s)
    (hs : step s e = some s') : NetworksAre nets s' := by
  cases e with
  | send m =>
    cases hs
    exact h
  | deliver i m =>
    obtain ⟨-, rfl⟩ := step_deliver hs
    exact h.setNode (networkId_handleMessage (s.nodes i) m)
  | storeLocal i key value =>
    cases hs
    exact h.setNode rfl
  | learn i entry =>
    cases hs
    exact h.setNode rfl
  | evict i entry =>
    cases hs
    exact h.setNode rfl

theorem get?_setNode {s : State ι} {i j : ι} {key : Key} {node : DhtNode} {w : Option String}
    (hnode : node.store.get? key = w.or ((s.nodes j).store.get? key)) :
    ((s.setNode j node).nodes i).store.get? key =
      (if j = i then w else none).or ((s.nodes i).store.get? key) := by
  rcases eq_or_ne j i with rfl | hji
  · rw [setNode_self, if_pos rfl, hnode]
  · rw [setNode_of_ne s (Ne.symm hji), if_neg hji, Option.none_or]

theorem NetworksAre.get?_step {nets : ι → NetworkId} {s s' : State ι} {e : Event ι} (h : NetworksAre nets s)
    (hs : Network.step s e = some s') (i : ι) (key : Key) :
    (s'.nodes i).store.get? key = (writes nets i key e).or ((s.nodes i).store.get? key) := by
  cases e with
  | send m =>
    cases hs
    rfl
  | deliver j m =>
    obtain ⟨-, rfl⟩ := step_deliver hs
    refine (get?_setNode (get?_handleMessage (s.nodes j) m key)).trans ?_
    simp only [writes]
    rcases eq_or_ne j i with rfl | hji
    · rw [if_pos rfl, if_pos rfl, h]
    · rw [if_neg hji, if_neg hji]
  | storeLocal j k value =>
    cases hs
    refine (get?_setNode (get?_storeLocal (s.nodes j) k key value)).trans ?_
    simp only [writes]
    rw [ite_and]
  | learn j entry =>
    cases hs
    have hset : ((s.setNode j (learnEntry (s.nodes j) entry)).nodes i).store.get? key = _ :=
      get?_setNode (w := none) rfl
    rwa [ite_self] at hset
  | evict j entry =>
    cases hs
    have hset : ((s.setNode j (evictEntry (s.nodes j) entry)).nodes i).store.get? key = _ :=
      get?_setNode (w := none) rfl
    rwa [ite_self] at hset

/-! ### Where messages come from -/

/-- The messages that nodes send as replies. -/
def DhtMessage.isReply : DhtMessage → Bool
  | .pong _ _ | .foundNode _ _ _ | .foundValue _ _ _ _ => true
  | _ => false

theorem isReply_handleMessage {node : DhtNode} {m r : DhtMessage} (h : (node.handleMessage m).2 = some r) :
    DhtMessage.isReply r = true := by
  by_cases hm : m.networkId = node.networkId
  · cases m <;> dsimp only [DhtMessage.networkId] at hm <;> subst hm <;>
      simp [DhtNode.handleMessage, DhtNode.heardFrom] at h <;> subst h <;> rfl
  · rw [handleMessage_foreign hm] at h
    cases h

/-- A step keeps the messages, and adds a reply or one that is sent. -/
theorem mem_flight_step {s s' : State ι} {e : Event ι} (h : step s e = some s') {m : DhtMessage} :
    (m ∈ s.flight → m ∈ s'.flight) ∧
      (m ∈ s'.flight → DhtMessage.isReply m = false → m ∈ s.flight ∨ e = .send m) := by
  cases e with
  | send m' =>
    cases h
    refine ⟨List.mem_append_left _, fun hm _ => (List.mem_append.mp hm).imp_right fun hm => ?_⟩
    rw [List.mem_singleton.mp hm]
  | deliver i m' =>
    obtain ⟨-, rfl⟩ := step_deliver h
    refine ⟨List.mem_append_left _, fun hm hr => (List.mem_append.mp hm).imp_right fun hm => ?_⟩
    rw [isReply_handleMessage (Option.mem_toList.mp hm)] at hr
    cases hr
  | storeLocal i key value =>
    cases h
    exact ⟨id, fun hm _ => Or.inl hm⟩
  | learn i entry =>
    cases h
    exact ⟨id, fun hm _ => Or.inl hm⟩
  | evict i entry =>
    cases h
    exact ⟨id, fun hm _ => Or.inl hm⟩

/-- A message that is no reply and is delivered has been sent, unless it was there at first. -/
theorem sent_of_delivered : ∀ {events : List (Event ι)} {s s' : State ι}, run step s events = some s' →
    ∀ {i : ι} {m : DhtMessage}, .deliver i m ∈ events → DhtMessage.isReply m = false →
      m ∈ s.flight ∨ .send m ∈ events
  | e :: events, s, s', h, i, m, hmem, hr => by
    obtain ⟨t, ht, hrun⟩ := run_cons_some h
    rcases List.mem_cons.mp hmem with rfl | hmem
    · exact Or.inl (step_deliver ht).1
    · rcases sent_of_delivered hrun hmem hr with hm | hm
      · rcases (mem_flight_step ht).2 hm hr with hm | rfl
        · exact Or.inl hm
        · exact Or.inr List.mem_cons_self
      · exact Or.inr (List.mem_cons_of_mem _ hm)

theorem get?_run {nets : ι → NetworkId} {s s' : State ι} {events : List (Event ι)} (hnets : NetworksAre nets s)
    (h : run step s events = some s') (i : ι) (key : Key) :
    (s'.nodes i).store.get? key =
      ((events.filterMap (writes nets i key)).getLast?).or ((s.nodes i).store.get? key) := by
  have hinv : ∀ (s : State ι) (e : Event ι) (s' : State ι), NetworksAre nets s → step s e = some s' →
      NetworksAre nets s' := fun _ _ _ hI hs => hI.step hs
  have hstep : ∀ (s : State ι) (e : Event ι) (s' : State ι), NetworksAre nets s → step s e = some s' →
      (s'.nodes i).store.get? key = (writes nets i key e).or ((s.nodes i).store.get? key) :=
    fun _ _ _ hI hs => hI.get?_step hs i key
  exact run_getLast hinv hstep hnets h

/-- **A node stores what was last written.** After any run a key has the value of the last write that has
reached the node: by `store_local`, or by a `Store` message of its own network, which somebody has sent. No
reply writes anything. -/
theorem stored_is_last_write {s s' : State ι} {events : List (Event ι)} (h : run step s events = some s')
    (i : ι) (key : Key) :
    (s'.nodes i).store.get? key =
        ((events.filterMap (writes (fun j => (s.nodes j).networkId) i key)).getLast?).or
          ((s.nodes i).store.get? key) ∧
      ∀ sender value, .deliver i (.store (s.nodes i).networkId sender key value) ∈ events →
        .store (s.nodes i).networkId sender key value ∈ s.flight ∨
          .send (.store (s.nodes i).networkId sender key value) ∈ events := by
  exact ⟨get?_run (fun _ => rfl) h i key, fun sender value hmem => sent_of_delivered h hmem rfl⟩

/-! ### Two networks -/

def networkOf (b : UInt8) : NetworkId := Vector.replicate 32 b

/-- Node 0 is of the network 0, node 1 of the network 1. -/
def twoNetworks : State Bool where
  nodes := fun b => if b then .new (farNode 0x40).nodeId (networkOf 1) else .new (farNode 0x20).nodeId (networkOf 0)
  flight := []

/-- A value for each of the networks, both of which reach both nodes. -/
def crossTalk : List (Event Bool) :=
  let store0 : DhtMessage := .store (networkOf 0) (farNode 0x01).nodeId (networkOf 7) "left"
  let store1 : DhtMessage := .store (networkOf 1) (farNode 0x01).nodeId (networkOf 7) "right"
  [.send store0, .send store1, .deliver false store1, .deliver false store0, .deliver true store0,
    .deliver true store1]

theorem crossTalk_possible : (run step twoNetworks crossTalk).isSome = true := by decide +kernel

theorem network_isolated_crossTalk : ∃ s' t, run step twoNetworks crossTalk = some s' ∧
    run step (twoNetworks.restrict (networkOf 0)) (eventsOf twoNetworks (networkOf 0) crossTalk) = some t ∧
    t.nodes false = s'.nodes false := by
  obtain ⟨s', hs'⟩ := Option.isSome_iff_exists.mp crossTalk_possible
  obtain ⟨t, ht, hnodes, -⟩ := network_isolated hs' (networkOf 0)
  exact ⟨s', t, hs', ht, hnodes false rfl⟩

theorem stored_is_last_write_crossTalk : ∃ s', run step twoNetworks crossTalk = some s' ∧
    (s'.nodes false).store.get? (networkOf 7) = some "left" := by
  obtain ⟨s', hs'⟩ := Option.isSome_iff_exists.mp crossTalk_possible
  refine ⟨s', hs', (stored_is_last_write hs' false (networkOf 7)).1.trans ?_⟩
  decide +kernel

end CncContent.Dht.Network
