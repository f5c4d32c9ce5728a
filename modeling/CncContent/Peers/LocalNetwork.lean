import CncContent.Lib.FirstMatch
import CncContent.Lib.Runs
import CncContent.Peers.LocalDiscovery

/-! # Services of local peer discovery on one network

Any number of services on one network segment. A service sends the announcements that are due as packets; a
packet is delivered to any service, its sender included, any number of times and in any order, or never. Others
may send what they like. A peer that a service lists has subscribed to the hash with the port it is listed
under (`lan_peers_genuine`), and a service announces a hash at most once in five minutes
(`announces_spaced`). -/

namespace CncContent.Peers.LocalNetwork

open CncContent.Lib.FirstMatch CncContent.Lib.Runs CncContent.Peers.LocalDiscovery

/-! ### The service -/

structure LpdPeer where
  ip : List UInt8
  port : UInt16
  discoveredAt : ℕ
  lastSeen : ℕ
deriving DecidableEq

namespace LpdPeer

def new (ip : List UInt8) (port : UInt16) (now : ℕ) : LpdPeer := ⟨ip, port, now, now⟩

def isStale (p : LpdPeer) (now : ℕ) : Bool := peerStaleTimeout < now - p.lastSeen

def refresh (now : ℕ) (p : LpdPeer) : LpdPeer := { p with lastSeen := now }

/-- The address and the port. -/
def key (p : LpdPeer) : List UInt8 × UInt16 := (p.ip, p.port)

end LpdPeer

structure LpdSubscription where
  infoHash : InfoHash
  port : UInt16
  lastAnnounce : Option ℕ
  peers : List LpdPeer
deriving DecidableEq

namespace LpdSubscription

def isDue (now : ℕ) (sub : LpdSubscription) : Bool :=
  match sub.lastAnnounce with
  | some last => announceInterval ≤ now - last
  | none => true

/-- What `handle_announce` does to the subscription it has found. -/
def hear (port : UInt16) (sourceIp : List UInt8) (now : ℕ) (sub : LpdSubscription) : LpdSubscription :=
  match sub.peers.find? fun p => p.ip = sourceIp ∧ p.port = port with
  | some _ =>
    { sub with peers := updateFirst (fun p => p.ip = sourceIp ∧ p.port = port) (LpdPeer.refresh now) sub.peers }
  | none =>
    if maxLpdPeers ≤ sub.peers.length then sub
    else { sub with peers := sub.peers ++ [.new sourceIp port now] }

def mark (now : ℕ) (sub : LpdSubscription) : LpdSubscription := { sub with lastAnnounce := some now }

def prune (now : ℕ) (sub : LpdSubscription) : LpdSubscription :=
  { sub with peers := sub.peers.filter fun p => !p.isStale now }

end LpdSubscription

structure LpdService where
  subscriptions : List LpdSubscription
deriving DecidableEq

namespace LpdService

def new : LpdService := ⟨[]⟩

def subscribe (s : LpdService) (infoHash : InfoHash) (port : UInt16) : LpdService :=
  if s.subscriptions.any (·.infoHash = infoHash) then s
  else ⟨s.subscriptions ++ [⟨infoHash, port, none, []⟩]⟩

def unsubscribe (s : LpdService) (infoHash : InfoHash) : LpdService :=
  ⟨s.subscriptions.filter (·.infoHash ≠ infoHash)⟩

def pendingAnnounces (s : LpdService) (now : ℕ) : List LpdAnnounce :=
  (s.subscriptions.filter (·.isDue now)).map fun sub => ⟨sub.infoHash, sub.port⟩

def markAnnounced (s : LpdService) (infoHash : InfoHash) (now : ℕ) : LpdService :=
  ⟨updateFirst (·.infoHash = infoHash) (·.mark now) s.subscriptions⟩

def handleAnnounce (s : LpdService) (announce : LpdAnnounce) (sourceIp : List UInt8) (now : ℕ) : LpdService :=
  ⟨updateFirst (·.infoHash = announce.infoHash) (·.hear announce.port sourceIp now) s.subscriptions⟩

def peersFor (s : LpdService) (infoHash : InfoHash) : List LpdPeer :=
  match s.subscriptions.find? (·.infoHash = infoHash) with
  | some sub => sub.peers
  | none => []

/-- The service without the stale peers, and how many they were. -/
def pruneStale (s : LpdService) (now : ℕ) : LpdService × ℕ :=
  (⟨s.subscriptions.map (·.prune now)⟩,
    (s.subscriptions.map fun sub => sub.peers.length - (sub.prune now).peers.length).sum)

/-- Everything that is due is sent, and marked as sent. -/
def announceDue (s : LpdService) (now : ℕ) : LpdService :=
  (s.pendingAnnounces now).foldl (fun s a => s.markAnnounced a.infoHash now) s

end LpdService

/-! ### The network -/

structure Packet where
  source : List UInt8
  data : List UInt8
deriving DecidableEq

variable {ι : Type} [DecidableEq ι]

/-- The packets are all that have been sent. -/
structure Lan (ι : Type) where
  services : ι → LpdService
  packets : List Packet

inductive Event (ι : Type)
  | subscribe (i : ι) (infoHash : InfoHash) (port : UInt16)
  | unsubscribe (i : ι) (infoHash : InfoHash)
  | announce (i : ι) (now : ℕ)
  | deliver (i : ι) (packet : Packet) (now : ℕ)
  | prune (i : ι) (now : ℕ)
  | inject (packet : Packet)
deriving DecidableEq

def Lan.start : Lan ι := ⟨fun _ => .new, []⟩

def Lan.setService (s : Lan ι) (i : ι) (service : LpdService) : Lan ι :=
  { s with services := Function.update s.services i service }

/-- What a service does with a packet. -/
def receive (service : LpdService) (packet : Packet) (now : ℕ) : LpdService :=
  match fromBytes packet.data with
  | some a => service.handleAnnounce a packet.source now
  | none => service

/-- `addr` is the address of a service. -/
def step (addr : ι → List UInt8) (s : Lan ι) : Event ι → Option (Lan ι)
  | .subscribe i infoHash port => some (s.setService i ((s.services i).subscribe infoHash port))
  | .unsubscribe i infoHash => some (s.setService i ((s.services i).unsubscribe infoHash))
  | .announce i now =>
    some { s.setService i ((s.services i).announceDue now) with
      packets := s.packets ++ ((s.services i).pendingAnnounces now).map fun a => ⟨addr i, a.toBytes⟩ }
  | .deliver i packet now =>
    if packet ∈ s.packets then some (s.setService i (receive (s.services i) packet now)) else none
  | .prune i now => some (s.setService i ((s.services i).pruneStale now).1)
  | .inject packet => some { s with packets := s.packets ++ [packet] }

/-! ### The hashes of a service -/

namespace LpdService

variable (s : LpdService)

def hashes : List InfoHash := s.subscriptions.map (·.infoHash)

theorem hashes_subscribe (infoHash : InfoHash) (port : UInt16) :
    (s.subscribe infoHash port).hashes = if infoHash ∈ s.hashes then s.hashes else s.hashes ++ [infoHash] := by
  have hany : s.subscriptions.any (·.infoHash = infoHash) = true ↔ infoHash ∈ s.hashes := by
    unfold hashes
    rw [List.any_eq_true, List.mem_map]
    simp only [decide_eq_true_eq]
  unfold subscribe
  by_cases h : infoHash ∈ s.hashes
  · rw [if_pos (hany.mpr h), if_pos h]
  · rw [if_neg (mt hany.mp h), if_neg h]
    exact List.map_append

theorem hashes_unsubscribe (infoHash : InfoHash) :
    (s.unsubscribe infoHash).hashes = s.hashes.filter (· ≠ infoHash) := by
  unfold hashes unsubscribe
  rw [List.filter_map]
  rfl

theorem hashes_markAnnounced (infoHash : InfoHash) (now : ℕ) : (s.markAnnounced infoHash now).hashes = s.hashes :=
  map_updateFirst (f := LpdSubscription.mark now) fun _ _ => rfl

theorem infoHash_hear (port : UInt16) (ip : List UInt8) (now : ℕ) (sub : LpdSubscription) :
    (sub.hear port ip now).infoHash = sub.infoHash := by
  unfold LpdSubscription.hear
  split
  · rfl
  · split_ifs <;> rfl

theorem hashes_handleAnnounce (a : LpdAnnounce) (ip : List UInt8) (now : ℕ) :
    (s.handleAnnounce a ip now).hashes = s.hashes := map_updateFirst fun sub _ => infoHash_hear a.port ip now sub

theorem hashes_pruneStale (now : ℕ) : (s.pruneStale now).1.hashes = s.hashes := by
  unfold hashes pruneStale
  rw [List.map_map]
  rfl

theorem hashes_announceDue (now : ℕ) : (s.announceDue now).hashes = s.hashes := by
  have hfold : ∀ (due : List LpdAnnounce) (s : LpdService),
      (due.foldl (fun s a => s.markAnnounced a.infoHash now) s).hashes = s.hashes := by
    intro due
    induction due with
    | nil => exact fun _ => rfl
    | cons a due ih => exact fun s => (ih _).trans (s.hashes_markAnnounced a.infoHash now)
  exact hfold _ s

end LpdService

theorem hashes_receive (service : LpdService) (packet : Packet) (now : ℕ) :
    (receive service packet now).hashes = service.hashes := by
  unfold receive
  split
  · exact service.hashes_handleAnnounce _ _ now
  · rfl

theorem setService_self (s : Lan ι) (i : ι) (service : LpdService) :
    (s.setService i service).services i = service := by
  unfold Lan.setService
  exact Function.update_self i service s.services

theorem setService_of_ne (s : Lan ι) {i j : ι} (h : j ≠ i) (service : LpdService) :
    (s.setService i service).services j = s.services j := by
  unfold Lan.setService
  exact Function.update_of_ne h service s.services

theorem step_deliver {addr : ι → List UInt8} {s s' : Lan ι} {i : ι} {packet : Packet} {now : ℕ}
    (h : step addr s (.deliver i packet now) = some s') :
    packet ∈ s.packets ∧ s' = s.setService i (receive (s.services i) packet now) := by
  unfold step at h
  dsimp only at h
  split_ifs at h with hm
  exact ⟨hm, (Option.some.inj h).symm⟩

/-- What an event makes of the hashes of a service. -/
def hashesAfter (i : ι) (hashes : List InfoHash) : Event ι → List InfoHash
  | .subscribe j infoHash _ => if j = i ∧ infoHash ∉ hashes then hashes ++ [infoHash] else hashes
  | .unsubscribe j infoHash => if j = i then hashes.filter (· ≠ infoHash) else hashes
  | _ => hashes

theorem hashes_setService {s : Lan ι} {i j : ι} {service : LpdService} {l : List InfoHash}
    (h : j = i → service.hashes = l) (hne : j ≠ i → (s.services i).hashes = l) :
    ((s.setService j service).services i).hashes = l := by
  rcases eq_or_ne j i with rfl | hji
  · rw [setService_self, h rfl]
  · rw [setService_of_ne s (Ne.symm hji), hne hji]

theorem hashes_step {addr : ι → List UInt8} {s s' : Lan ι} {e : Event ι} (h : step addr s e = some s') (i : ι) :
    (s'.services i).hashes = hashesAfter i (s.services i).hashes e := by
  cases e with
  | subscribe j infoHash port =>
    cases h
    refine hashes_setService (fun hji => ?_) fun hji => ?_
    · subst hji
      rw [LpdService.hashes_subscribe, hashesAfter]
      by_cases hmem : infoHash ∈ (s.services j).hashes
      · rw [if_pos hmem, if_neg fun hh => hh.2 hmem]
      · rw [if_neg hmem, if_pos ⟨rfl, hmem⟩]
    · rw [hashesAfter, if_neg fun hh => hji hh.1]
  | unsubscribe j infoHash =>
    cases h
    refine hashes_setService (fun hji => ?_) fun hji => ?_
    · subst hji
      rw [LpdService.hashes_unsubscribe, hashesAfter, if_pos rfl]
    · rw [hashesAfter, if_neg hji]
  | announce j now =>
    cases h
    exact hashes_setService (s := s) (fun hji => by subst hji; exact LpdService.hashes_announceDue _ now)
      fun _ => rfl
  | deliver j packet now =>
    obtain ⟨-, rfl⟩ := step_deliver h
    exact hashes_setService (fun hji => by subst hji; exact hashes_receive _ packet now) fun _ => rfl
  | prune j now =>
    cases h
    exact hashes_setService (fun hji => by subst hji; exact LpdService.hashes_pruneStale _ now) fun _ => rfl
  | inject packet =>
    cases h
    rfl

/-! ### What holds of every subscription -/

/-- Every subscription of the service has the property. -/
def Each (P : LpdSubscription → Prop) (service : LpdService) : Prop := ∀ sub ∈ service.subscriptions, P sub

/-- An event keeps a property of the subscriptions: those it makes have it, and those it changes keep it. -/
structure Keeps (s : Lan ι) (P : ι → LpdSubscription → Prop) (e : Event ι) : Prop where
  fresh : ∀ i infoHash port, e = .subscribe i infoHash port → infoHash ∉ (s.services i).hashes →
    P i ⟨infoHash, port, none, []⟩
  mark : ∀ i now due sub, e = .announce i now → due ∈ (s.services i).subscriptions → due.isDue now = true →
    due.infoHash = sub.infoHash → P i sub → P i (sub.mark now)
  hear : ∀ i packet now a sub, e = .deliver i packet now → packet ∈ s.packets → fromBytes packet.data = some a →
    sub.infoHash = a.infoHash → P i sub → P i (sub.hear a.port packet.source now)
  prune : ∀ i now sub, e = .prune i now → P i sub → P i (sub.prune now)

theorem Each.updateFirst {P : LpdSubscription → Prop} {service : LpdService} (h : Each P service)
    {p : LpdSubscription → Bool} {f : LpdSubscription → LpdSubscription}
    (hf : ∀ sub, p sub = true → P sub → P (f sub)) : Each P ⟨updateFirst p f service.subscriptions⟩ := by
  intro sub hsub
  rcases mem_of_mem_updateFirst hsub with hsub | ⟨sub, hfind, rfl⟩
  · exact h sub hsub
  · exact hf sub (List.find?_some hfind) (h sub (List.mem_of_find?_eq_some hfind))

/-- Marking what is due. -/
theorem Each.markAll {P : LpdSubscription → Prop} {now : ℕ} : ∀ {due : List LpdAnnounce} {service : LpdService},
    (∀ a ∈ due, ∀ sub : LpdSubscription, sub.infoHash = a.infoHash → P sub → P (sub.mark now)) → Each P service →
      Each P (due.foldl (fun s a => s.markAnnounced a.infoHash now) service)
  | [], _, _, h => h
  | a :: due, service, hdue, h => by
    have hmark : Each P (service.markAnnounced a.infoHash now) :=
      h.updateFirst fun sub hsub hP => hdue a List.mem_cons_self sub (of_decide_eq_true hsub) hP
    exact @Each.markAll P now due _ (fun b hb => hdue b (List.mem_cons_of_mem _ hb)) hmark

theorem Each.setService {P : ι → LpdSubscription → Prop} {s : Lan ι} (h : ∀ i, Each (P i) (s.services i)) {i : ι}
    {service : LpdService} (hservice : Each (P i) service) :
    ∀ j, Each (P j) ((s.setService i service).services j) := by
  intro j
  rcases eq_or_ne j i with rfl | hji
  · rwa [setService_self]
  · rw [setService_of_ne s hji]
    exact h j

/-- **A property of the subscriptions** that an event keeps. -/
theorem each_step {addr : ι → List UInt8} {s s' : Lan ι} {P : ι → LpdSubscription → Prop} {e : Event ι}
    (hP : Keeps s P e) (hs : step addr s e = some s') (h : ∀ i, Each (P i) (s.services i)) :
    ∀ i, Each (P i) (s'.services i) := by
  cases e with
  | subscribe i infoHash port =>
    cases hs
    refine Each.setService h fun sub hsub => ?_
    unfold LpdService.subscribe at hsub
    split_ifs at hsub with hany
    · exact h i sub hsub
    · rcases List.mem_append.mp hsub with hsub | hsub
      · exact h i sub hsub
      · rw [List.mem_singleton.mp hsub]
        refine hP.fresh i infoHash port rfl fun hmem => hany ?_
        obtain ⟨sub', hsub', heq⟩ := List.mem_map.mp hmem
        exact List.any_eq_true.mpr ⟨sub', hsub', decide_eq_true heq⟩
  | unsubscribe i infoHash =>
    cases hs
    exact Each.setService h fun sub hsub => h i sub (List.mem_of_mem_filter hsub)
  | announce i now =>
    cases hs
    refine Each.setService (s := s) h ((h i).markAll fun a ha sub hsub hPsub => ?_)
    obtain ⟨due, hdue, rfl⟩ := List.mem_map.mp ha
    exact hP.mark i now due sub rfl (List.mem_of_mem_filter hdue) (List.of_mem_filter hdue) hsub.symm hPsub
  | deliver i packet now =>
    obtain ⟨hm, rfl⟩ := step_deliver hs
    refine Each.setService h ?_
    unfold receive
    rcases ha : fromBytes packet.data with _ | a
    · exact h i
    · exact (h i).updateFirst fun sub hsub hPsub =>
        hP.hear i packet now a sub rfl hm ha (of_decide_eq_true hsub) hPsub
  | prune i now =>
    cases hs
    refine Each.setService h fun sub hsub => ?_
    obtain ⟨sub', hsub', rfl⟩ := List.mem_map.mp hsub
    exact hP.prune i now sub' rfl (h i sub' hsub')
  | inject packet =>
    cases hs
    exact h

/-! ### Where peers come from -/

/-- The peers after an announcement has been heard: a new one, or one that is refreshed, and otherwise those
that were there. -/
theorem mem_peers_hear {port : UInt16} {ip : List UInt8} {now : ℕ} {sub : LpdSubscription} {p : LpdPeer}
    (h : p ∈ (sub.hear port ip now).peers) : p ∈ sub.peers ∨ (p.ip = ip ∧ p.port = port ∧ p.lastSeen = now) := by
  unfold LpdSubscription.hear at h
  split at h
  · rename_i found hfind
    rcases mem_of_mem_updateFirst h with h | ⟨q, hq, rfl⟩
    · exact Or.inl h
    · have hkey : q.ip = ip ∧ q.port = port := by
        have hq := List.find?_some hq
        rwa [decide_eq_true_eq] at hq
      exact Or.inr ⟨hkey.1, hkey.2, rfl⟩
  · split_ifs at h
    · exact Or.inl h
    · rcases List.mem_append.mp h with h | h
      · exact Or.inl h
      · rw [List.mem_singleton.mp h]
        exact Or.inr ⟨rfl, rfl, rfl⟩

/-- Who can have sent the packet, in a run with the events: somebody else, or a service that has subscribed to
what it announces. -/
def Origin (addr : ι → List UInt8) (events : List (Event ι)) (packet : Packet) : Prop :=
  .inject packet ∈ events ∨ ∃ j a, packet = ⟨addr j, LpdAnnounce.toBytes a⟩ ∧
    .subscribe j a.infoHash a.port ∈ events

/-- The service has heard of the peer by a packet, when it was last seen. -/
def Heard (addr : ι → List UInt8) (events : List (Event ι)) (i : ι) (infoHash : InfoHash) (p : LpdPeer) : Prop :=
  ∃ packet, Origin addr events packet ∧ packet.source = p.ip ∧ fromBytes packet.data = some ⟨infoHash, p.port⟩ ∧
    .deliver i packet p.lastSeen ∈ events

structure Genuine (addr : ι → List UInt8) (events : List (Event ι)) (s : Lan ι) : Prop where
  packets : ∀ packet ∈ s.packets, Origin addr events packet
  subscribed : ∀ i, Each (fun sub => .subscribe i sub.infoHash sub.port ∈ events) (s.services i)
  heard : ∀ i, Each (fun sub => ∀ p ∈ sub.peers, Heard addr events i sub.infoHash p) (s.services i)

theorem port_hear (port : UInt16) (ip : List UInt8) (now : ℕ) (sub : LpdSubscription) :
    (sub.hear port ip now).port = sub.port := by
  unfold LpdSubscription.hear
  split
  · rfl
  · split_ifs <;> rfl

omit [DecidableEq ι] in
theorem keeps_subscribed {events : List (Event ι)} {e : Event ι} (he : e ∈ events) (s : Lan ι) :
    Keeps s (fun i sub => .subscribe i sub.infoHash sub.port ∈ events) e where
  fresh := by
    rintro i infoHash port rfl -
    exact he
  mark := fun _ _ _ _ _ _ _ _ h => h
  hear := fun _ _ _ _ _ _ _ _ _ h => by rwa [LpdService.infoHash_hear, port_hear]
  prune := fun _ _ _ _ h => h

omit [DecidableEq ι] in
theorem keeps_heard {addr : ι → List UInt8} {events : List (Event ι)} {e : Event ι} {s : Lan ι} (he : e ∈ events)
    (hpackets : ∀ packet ∈ s.packets, Origin addr events packet) :
    Keeps s (fun i sub => ∀ p ∈ sub.peers, Heard addr events i sub.infoHash p) e where
  fresh := fun _ _ _ _ _ _ hp => absurd hp List.not_mem_nil
  mark := fun _ _ _ _ _ _ _ _ h => h
  hear := by
    rintro i packet now a sub rfl hmem ha hhash h p hp
    rw [LpdService.infoHash_hear]
    rcases mem_peers_hear hp with hp | ⟨hip, hport, hseen⟩
    · exact h p hp
    · refine ⟨packet, hpackets packet hmem, hip.symm, ?_, ?_⟩
      · rw [ha, hhash, hport]
      · rw [hseen]
        exact he
  prune := fun _ _ _ _ h p hp => h p (List.mem_of_mem_filter hp)

theorem Genuine.step {addr : ι → List UInt8} {events : List (Event ι)} {s s' : Lan ι} {e : Event ι}
    (h : Genuine addr events s) (he : e ∈ events) (hs : step addr s e = some s') : Genuine addr events s' := by
  refine ⟨?_, each_step (keeps_subscribed he s) hs h.subscribed, each_step (keeps_heard he h.packets) hs h.heard⟩
  cases e with
  | announce i now =>
    cases hs
    intro packet hpacket
    rcases List.mem_append.mp hpacket with hpacket | hpacket
    · exact h.packets packet hpacket
    · obtain ⟨a, ha, rfl⟩ := List.mem_map.mp hpacket
      obtain ⟨sub, hsub, rfl⟩ := List.mem_map.mp ha
      exact Or.inr ⟨i, _, rfl, h.subscribed i sub (List.mem_of_mem_filter hsub)⟩
  | inject packet =>
    cases hs
    intro packet' hpacket
    rcases List.mem_append.mp hpacket with hpacket | hpacket
    · exact h.packets packet' hpacket
    · rw [List.mem_singleton.mp hpacket]
      exact Or.inl he
  | deliver i packet now =>
    obtain ⟨-, rfl⟩ := step_deliver hs
    exact h.packets
  | _ =>
    cases hs
    exact h.packets

theorem mem_peersFor {service : LpdService} {infoHash : InfoHash} {p : LpdPeer}
    (h : p ∈ service.peersFor infoHash) :
    ∃ sub ∈ service.subscriptions, sub.infoHash = infoHash ∧ p ∈ sub.peers := by
  unfold LpdService.peersFor at h
  split at h
  · rename_i sub hfind
    have hhash := List.find?_some hfind
    rw [decide_eq_true_eq] at hhash
    exact ⟨sub, List.mem_of_find?_eq_some hfind, hhash, h⟩
  · exact absurd h List.not_mem_nil

/-- **A peer that is listed has been announced.** In every run a packet with the peer's address has been delivered
when it was last seen, which announces the hash and the port; unless somebody else has sent it, it comes from a
service at the address that has subscribed to the hash with that port. -/
theorem lan_peers_genuine {addr : ι → List UInt8} {events : List (Event ι)} {s : Lan ι}
    (h : run (step addr) Lan.start events = some s) {i : ι} {infoHash : InfoHash} {p : LpdPeer}
    (hp : p ∈ (s.services i).peersFor infoHash) :
    ∃ data, .deliver i ⟨p.ip, data⟩ p.lastSeen ∈ events ∧ fromBytes data = some ⟨infoHash, p.port⟩ ∧
      (.inject ⟨p.ip, data⟩ ∈ events ∨
        ∃ j, addr j = p.ip ∧ data = LpdAnnounce.toBytes ⟨infoHash, p.port⟩ ∧
          .subscribe j infoHash p.port ∈ events) := by
  have hstart : Genuine addr events Lan.start := ⟨nofun, fun _ => nofun, fun _ => nofun⟩
  have hend := inv_run_mem (fun _ _ he _ hI hs => Genuine.step hI he hs) hstart h
  obtain ⟨sub, hsub, rfl, hmem⟩ := mem_peersFor hp
  obtain ⟨⟨source, data⟩, horigin, hsource, hread, hdeliver⟩ := hend.heard i sub hsub p hmem
  dsimp only at hsource hread
  subst hsource
  refine ⟨data, hdeliver, hread, horigin.imp_right ?_⟩
  rintro ⟨j, a, hpacket, hsubscribe⟩
  obtain ⟨haddr, rfl⟩ := Packet.mk.inj hpacket
  rw [fromBytes_toBytes, Option.some.injEq] at hread
  subst hread
  exact ⟨j, haddr.symm, rfl, hsubscribe⟩

/-- Two services at the addresses 10.0.0.1 and 10.0.0.2. -/
def twoAddresses (b : Bool) : List UInt8 := if b then Lib.Bytes.text "10.0.0.2" else Lib.Bytes.text "10.0.0.1"

def sampleHash : InfoHash := Vector.replicate 20 0xAB

/-- The first of them announces a hash, and the second one hears of it. -/
def oneAnnouncement : List (Event Bool) :=
  [.subscribe false sampleHash 6881, .subscribe true sampleHash 6882, .announce false 7,
    .deliver true ⟨twoAddresses false, LpdAnnounce.toBytes ⟨sampleHash, 6881⟩⟩ 9]

def samplePeer : LpdPeer := ⟨twoAddresses false, 6881, 9, 9⟩

theorem lan_peers_genuine_one : ∃ data,
    .deliver true ⟨samplePeer.ip, data⟩ samplePeer.lastSeen ∈ oneAnnouncement ∧
      fromBytes data = some ⟨sampleHash, samplePeer.port⟩ ∧
      (.inject ⟨samplePeer.ip, data⟩ ∈ oneAnnouncement ∨
        ∃ j, twoAddresses j = samplePeer.ip ∧ data = LpdAnnounce.toBytes ⟨sampleHash, samplePeer.port⟩ ∧
          .subscribe j sampleHash samplePeer.port ∈ oneAnnouncement) := by
  have hrun : (run (step twoAddresses) Lan.start oneAnnouncement).map
      (fun s => (s.services true).peersFor sampleHash) = some [samplePeer] := by decide +kernel
  obtain ⟨s, hs, hpeers⟩ := Option.map_eq_some_iff.mp hrun
  exact lan_peers_genuine hs (hpeers ▸ List.mem_singleton_self samplePeer)

/-! ### The lists -/

/-- At most 50 peers, no address and port twice. -/
structure WellFormed (sub : LpdSubscription) : Prop where
  distinct : (sub.peers.map LpdPeer.key).Nodup
  bounded : sub.peers.length ≤ maxLpdPeers

theorem WellFormed.hear {sub : LpdSubscription} (h : WellFormed sub) (port : UInt16) (ip : List UInt8) (now : ℕ) :
    WellFormed (sub.hear port ip now) := by
  unfold LpdSubscription.hear
  split
  · have hkeys : (updateFirst (fun p => decide (p.ip = ip ∧ p.port = port)) (LpdPeer.refresh now) sub.peers).map
        LpdPeer.key = sub.peers.map LpdPeer.key := map_updateFirst (f := LpdPeer.refresh now) fun _ _ => rfl
    refine ⟨by rw [hkeys]; exact h.distinct, ?_⟩
    have hlen := congrArg List.length hkeys
    rw [List.length_map, List.length_map] at hlen
    rw [hlen]
    exact h.bounded
  · rename_i hfind
    split_ifs with hfull
    · exact h
    · refine ⟨?_, ?_⟩
      · rw [List.map_append]
        refine List.nodup_append.mpr ⟨h.distinct, List.pairwise_singleton _ _, fun k hk k' hk' heq => ?_⟩
        obtain ⟨p, hp, rfl⟩ := List.mem_map.mp hk
        have hkey : (p.ip, p.port) = (ip, port) := heq.trans (List.mem_singleton.mp hk')
        have hnot := List.find?_eq_none.mp hfind p hp
        rw [decide_eq_true_eq] at hnot
        exact hnot (Prod.mk.inj hkey)
      · rw [List.length_append, List.length_singleton]
        omega

omit [DecidableEq ι] in
theorem keeps_wellFormed (s : Lan ι) (e : Event ι) : Keeps s (fun _ sub => WellFormed sub) e where
  fresh := fun _ _ _ _ _ => ⟨List.nodup_nil, Nat.zero_le _⟩
  mark := fun _ _ _ _ _ _ _ _ h => ⟨h.distinct, h.bounded⟩
  hear := fun _ packet now a _ _ _ _ _ h => h.hear a.port packet.source now
  prune := fun _ _ _ _ h => ⟨h.distinct.sublist (List.filter_sublist.map _),
    (List.length_filter_le _ _).trans h.bounded⟩

theorem nodup_hashesAfter {i : ι} {hashes : List InfoHash} (h : hashes.Nodup) (e : Event ι) :
    (hashesAfter i hashes e).Nodup := by
  unfold hashesAfter
  split
  · split_ifs with hnew
    · refine List.nodup_append.mpr ⟨h, List.pairwise_singleton _ _, fun x hx y hy heq => ?_⟩
      rw [heq, List.mem_singleton.mp hy] at hx
      exact hnew.2 hx
    · exact h
  · split_ifs
    · exact h.filter _
    · exact h
  · exact h

/-- Whatever happens, no hash is subscribed twice, and the peers of each are distinct and at most 50. -/
theorem lan_lists {addr : ι → List UInt8} {events : List (Event ι)} {s : Lan ι}
    (h : run (step addr) Lan.start events = some s) (i : ι) :
    (s.services i).hashes.Nodup ∧ Each WellFormed (s.services i) := by
  have hinv : ∀ (s : Lan ι) (e : Event ι) (s' : Lan ι),
      (∀ i, (s.services i).hashes.Nodup) ∧ (∀ i, Each WellFormed (s.services i)) → step addr s e = some s' →
        (∀ i, (s'.services i).hashes.Nodup) ∧ (∀ i, Each WellFormed (s'.services i)) := by
    rintro s e s' ⟨hnodup, hwf⟩ hs
    refine ⟨fun i => ?_, each_step (keeps_wellFormed s e) hs hwf⟩
    rw [hashes_step hs]
    exact nodup_hashesAfter (hnodup i) e
  have hstart : (∀ i, ((Lan.start : Lan ι).services i).hashes.Nodup) ∧
      ∀ i, Each WellFormed ((Lan.start : Lan ι).services i) := ⟨fun _ => List.nodup_nil, fun _ => nofun⟩
  have hend := inv_run hinv hstart h
  exact ⟨hend.1 i, hend.2 i⟩

/-! ### The interval -/

/-- The hash is subscribed and was last announced at `t` or later. -/
structure AnnouncedSince (i : ι) (infoHash : InfoHash) (t : ℕ) (s : Lan ι) : Prop where
  subscribed : infoHash ∈ (s.services i).hashes
  since : ∀ j, Each (fun sub => j = i → sub.infoHash = infoHash → ∃ last, sub.lastAnnounce = some last ∧ t ≤ last)
    (s.services j)

theorem isDue_iff {sub : LpdSubscription} {last : ℕ} (h : sub.lastAnnounce = some last) (now : ℕ) :
    sub.isDue now = true ↔ announceInterval ≤ now - last := by
  unfold LpdSubscription.isDue
  rw [h]
  exact decide_eq_true_iff

omit [DecidableEq ι] in
theorem AnnouncedSince.isDue {i : ι} {infoHash : InfoHash} {t now : ℕ} {s : Lan ι}
    (h : AnnouncedSince i infoHash t s) {sub : LpdSubscription} (hsub : sub ∈ (s.services i).subscriptions)
    (hhash : sub.infoHash = infoHash) (hdue : sub.isDue now = true) : t + announceInterval ≤ now := by
  obtain ⟨last, hlast, hle⟩ := h.since i sub hsub rfl hhash
  have hgap := (isDue_iff hlast now).mp hdue
  have hpos : 0 < announceInterval := by decide
  omega

theorem lastAnnounce_hear (port : UInt16) (ip : List UInt8) (now : ℕ) (sub : LpdSubscription) :
    (sub.hear port ip now).lastAnnounce = sub.lastAnnounce := by
  unfold LpdSubscription.hear
  split
  · rfl
  · split_ifs <;> rfl

omit [DecidableEq ι] in
theorem AnnouncedSince.keeps {i : ι} {infoHash : InfoHash} {t : ℕ} {s : Lan ι} (h : AnnouncedSince i infoHash t s)
    (e : Event ι) : Keeps s (fun j sub => j = i → sub.infoHash = infoHash →
      ∃ last, sub.lastAnnounce = some last ∧ t ≤ last) e where
  fresh := by
    rintro j hash port - hnot rfl hhash
    rw [show hash = infoHash from hhash] at hnot
    exact absurd h.subscribed hnot
  mark := by
    rintro j now due sub - hdue hisDue hhash - rfl hsub
    exact ⟨now, rfl, le_trans (Nat.le_add_right _ _) (h.isDue hdue (hhash.trans hsub) hisDue)⟩
  hear := fun _ _ _ _ _ _ _ _ _ hsub hj hhash => by
    rw [LpdService.infoHash_hear] at hhash
    rw [lastAnnounce_hear]
    exact hsub hj hhash
  prune := fun _ _ _ _ hsub => hsub

theorem AnnouncedSince.step {addr : ι → List UInt8} {i : ι} {infoHash : InfoHash} {t : ℕ} {s s' : Lan ι}
    {e : Event ι} (h : AnnouncedSince i infoHash t s) (he : e ≠ .unsubscribe i infoHash)
    (hs : LocalNetwork.step addr s e = some s') : AnnouncedSince i infoHash t s' := by
  refine ⟨?_, each_step (h.keeps e) hs h.since⟩
  rw [hashes_step hs]
  unfold hashesAfter
  split
  · split_ifs
    · exact List.mem_append_left _ h.subscribed
    · exact h.subscribed
  · split_ifs with hj
    · refine List.mem_filter.mpr ⟨h.subscribed, decide_eq_true fun hhash => he ?_⟩
      rw [hj, hhash]
    · exact h.subscribed
  · exact h.subscribed

/-- The hashes that a service announces. -/
def dueHashes (service : LpdService) (now : ℕ) : List InfoHash := (service.pendingAnnounces now).map (·.infoHash)

theorem mem_dueHashes {service : LpdService} {now : ℕ} {infoHash : InfoHash} :
    infoHash ∈ dueHashes service now ↔
      ∃ sub ∈ service.subscriptions, sub.infoHash = infoHash ∧ sub.isDue now = true := by
  unfold dueHashes LpdService.pendingAnnounces
  rw [List.map_map, List.mem_map]
  constructor
  · rintro ⟨sub, hsub, rfl⟩
    exact ⟨sub, List.mem_of_mem_filter hsub, rfl, List.of_mem_filter hsub⟩
  · rintro ⟨sub, hsub, rfl, hdue⟩
    exact ⟨sub, List.mem_filter.mpr ⟨hsub, hdue⟩, rfl⟩

/-- Every subscription to the hash was last announced at the time. -/
def MarkedAt (infoHash : InfoHash) (now : ℕ) : LpdService → Prop :=
  Each fun sub => sub.infoHash = infoHash → sub.lastAnnounce = some now

theorem markedAt_markAnnounced {service : LpdService} (h : service.hashes.Nodup) (infoHash : InfoHash) (now : ℕ) :
    MarkedAt infoHash now (service.markAnnounced infoHash now) := by
  intro sub hsub hhash
  unfold LpdService.markAnnounced at hsub
  dsimp only at hsub
  rcases hfind : service.subscriptions.find? (fun sub => decide (sub.infoHash = infoHash)) with _ | found
  · rw [updateFirst_of_find?_eq_none hfind] at hsub
    exact absurd (decide_eq_true hhash) (List.find?_eq_none.mp hfind sub hsub)
  · have hfound := List.find?_some hfind
    rw [decide_eq_true_eq] at hfound
    obtain ⟨l₁, l₂, hsplit, hl₁, hupdate⟩ := updateFirst_split (f := LpdSubscription.mark now) hfind
    rw [hupdate] at hsub
    rcases List.mem_append.mp hsub with hsub | hsub
    · exact absurd (decide_eq_true hhash) (hl₁ sub hsub)
    · rcases List.mem_cons.mp hsub with rfl | hsub
      · rfl
      · unfold LpdService.hashes at h
        rw [hsplit, List.map_append, List.map_cons] at h
        have hnot := (List.nodup_cons.mp (List.nodup_append.mp h).2.1).1
        rw [hfound, ← hhash] at hnot
        exact absurd (List.mem_map_of_mem hsub) hnot

theorem markedAt_announceDue {service : LpdService} (h : service.hashes.Nodup) {infoHash : InfoHash} {now : ℕ}
    (hdue : infoHash ∈ dueHashes service now) : MarkedAt infoHash now (service.announceDue now) := by
  have hfold : ∀ (due : List LpdAnnounce) (service : LpdService), service.hashes.Nodup →
      infoHash ∈ due.map (·.infoHash) →
        MarkedAt infoHash now (due.foldl (fun s a => s.markAnnounced a.infoHash now) service) := by
    intro due
    induction due with
    | nil => exact fun _ _ hmem => absurd hmem List.not_mem_nil
    | cons a due ih =>
      intro service hnodup hmem
      rcases List.mem_cons.mp hmem with heq | hmem
      · rw [heq]
        exact @Each.markAll _ now due _ (fun _ _ _ _ _ _ => rfl)
          (markedAt_markAnnounced hnodup a.infoHash now)
      · exact ih _ (by rwa [LpdService.hashes_markAnnounced]) hmem
  exact hfold _ service h hdue

/-- **Five minutes between announcements.** A service that has announced a hash, and has not unsubscribed from it
since, does not announce it again before five minutes have passed, whatever happens in the meantime. -/
theorem announces_spaced {addr : ι → List UInt8} {before middle : List (Event ι)} {s₁ s₂ : Lan ι} {i : ι}
    {infoHash : InfoHash} {t₁ t₂ : ℕ} (hbefore : run (step addr) Lan.start before = some s₁)
    (hfirst : infoHash ∈ dueHashes (s₁.services i) t₁)
    (hmiddle : run (step addr) s₁ (.announce i t₁ :: middle) = some s₂)
    (hkept : .unsubscribe i infoHash ∉ middle) (hsecond : infoHash ∈ dueHashes (s₂.services i) t₂) :
    t₁ + announceInterval ≤ t₂ := by
  obtain ⟨t, ht, hrun⟩ := run_cons_some hmiddle
  have hnodup := (lan_lists hbefore i).1
  have hannounced : AnnouncedSince i infoHash t₁ t := by
    refine ⟨?_, fun j sub hsub hj hhash => ?_⟩
    · rw [hashes_step ht]
      obtain ⟨sub, hsub, rfl, -⟩ := mem_dueHashes.mp hfirst
      exact List.mem_map_of_mem hsub
    · subst hj
      cases ht
      have hmarked := markedAt_announceDue hnodup hfirst
      dsimp only at hsub
      rw [setService_self] at hsub
      exact ⟨t₁, hmarked sub hsub hhash, le_rfl⟩
  have hend := inv_run_mem (fun _ e he _ hI hs => AnnouncedSince.step hI (fun heq => hkept (heq ▸ he)) hs)
    hannounced hrun
  obtain ⟨sub, hsub, hhash, hdue⟩ := mem_dueHashes.mp hsecond
  exact hend.isDue hsub hhash hdue

/-- The first service announces the hash, and has it due again after five minutes. -/
theorem announces_spaced_again : ∃ s₁ s₂, run (step twoAddresses) Lan.start
      [.subscribe false sampleHash 6881] = some s₁ ∧
    run (step twoAddresses) s₁ [.announce false 7, .announce false 8] = some s₂ ∧
      sampleHash ∈ dueHashes (s₂.services false) (7 + announceInterval) ∧
      7 + announceInterval ≤ 7 + announceInterval := by
  have hruns : ((run (step twoAddresses) Lan.start [.subscribe false sampleHash 6881]).bind fun s₁ =>
      (run (step twoAddresses) s₁ [.announce false 7, .announce false 8]).map fun s₂ =>
        decide (sampleHash ∈ dueHashes (s₁.services false) 7 ∧
          sampleHash ∈ dueHashes (s₂.services false) (7 + announceInterval))) = some true := by
    decide +kernel
  obtain ⟨s₁, hs₁, hruns⟩ := Option.bind_eq_some_iff.mp hruns
  obtain ⟨s₂, hs₂, hdue⟩ := Option.map_eq_some_iff.mp hruns
  obtain ⟨hfirst, hsecond⟩ := of_decide_eq_true hdue
  have hkept : Event.unsubscribe false sampleHash ∉ [Event.announce false 8] := by decide
  exact ⟨s₁, s₂, hs₁, hs₂, hsecond, announces_spaced hs₁ hfirst hs₂ hkept hsecond⟩

end CncContent.Peers.LocalNetwork
