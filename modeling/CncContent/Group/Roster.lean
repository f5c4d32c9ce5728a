import CncContent.Lib.Bounded
import CncContent.Lib.Checks
import CncContent.Lib.Maps

/-! # Group rosters

`GroupRoster` of the source: the members of a closed share group, with a role each. A peer is its 32
bytes, which alone decide whether two identities are equal. The checks of a call are functions of
their own; `step_of_ok` says what a call that passes them has established and what it changes.

A roster has exactly one master, at most `maxGroupMembers` members and no sequence number twice, and a
call that fails leaves it alone (`roster_valid`). The sequence number saturates, so that the number of
calls is bounded by its width. -/

namespace CncContent.Group.Roster

open CncContent.Lib.Bounded CncContent.Lib.Checks CncContent.Lib.Maps

def maxGroupMembers : ℕ := 500

abbrev PeerId := Vector UInt8 32

abbrev NetworkId := Vector UInt8 32

inductive GroupRole
  | master
  | admin
  | mirror
  | reader
deriving DecidableEq, Repr

def GroupRole.privilegeLevel : GroupRole → ℕ
  | .master => 3
  | .admin => 2
  | .mirror => 1
  | .reader => 0

def GroupRole.canManage (self target : GroupRole) : Bool :=
  match self with
  | .master | .admin => decide (target.privilegeLevel < self.privilegeLevel)
  | .mirror | .reader => false

structure GroupMember where
  peerId : PeerId
  role : GroupRole
  joinSeq : ℕ
deriving DecidableEq, Repr

inductive GroupError
  | groupFull (max : ℕ)
  | alreadyMember (peerId : PeerId) (existingRole : GroupRole)
  | notMember (peerId : PeerId)
  | insufficientPrivilege (actorRole targetRole : GroupRole)
  | cannotRemoveMaster
  | cannotDemoteMaster
  | onlyMasterCanPromoteAdmin
  | multipleMasters
deriving DecidableEq, Repr

/-- Only the master makes admins; the other roles are given by whoever manages them. -/
def checkGrant (role actorRole : GroupRole) : Except GroupError Unit :=
  if role = .admin then refuse (actorRole ≠ .master) .onlyMasterCanPromoteAdmin
  else refuse (!actorRole.canManage role) (.insufficientPrivilege actorRole role)

structure GroupRoster where
  networkId : NetworkId
  members : Table PeerId GroupMember
  nextSeq : ℕ
deriving DecidableEq

namespace GroupRoster

def new (networkId : NetworkId) (masterId : PeerId) : GroupRoster :=
  ⟨networkId, Table.empty.alter masterId fun _ => ⟨masterId, .master, 0⟩, 1⟩

variable (g : GroupRoster)

/-- `none` where the source panics. -/
def masterId : Option PeerId :=
  ((g.members.entries.map Prod.snd).find? (·.role = .master)).map (·.peerId)

def roleOf (p : PeerId) : Option GroupRole := (g.members.get? p).map (·.role)

def requireMemberRole (p : PeerId) : Except GroupError GroupRole :=
  okOr (g.roleOf p) (.notMember p)

/-- The checks of `add_member`. -/
def checkAdd (actor newPeer : PeerId) (role : GroupRole) : Except GroupError Unit := do
  refuse (role = .master) .multipleMasters
  checkGrant role (← g.requireMemberRole actor)
  match g.members.get? newPeer with
  | some existing => throw (.alreadyMember newPeer existing.role)
  | none => refuse (maxGroupMembers ≤ g.members.size) (.groupFull maxGroupMembers)

def addMember (actor newPeer : PeerId) (role : GroupRole) :
    Except GroupError GroupMember × GroupRoster :=
  match g.checkAdd actor newPeer role with
  | .error e => (.error e, g)
  | .ok _ =>
    let member : GroupMember := ⟨newPeer, role, g.nextSeq⟩
    (.ok member, { g with
      nextSeq := satAdd u64Max g.nextSeq 1
      members := g.members.alter newPeer fun _ => member })

/-- The checks of `remove_member`. -/
def checkRemove (actor target : PeerId) : Except GroupError Unit := do
  let targetRole ← g.requireMemberRole target
  refuse (targetRole = .master) .cannotRemoveMaster
  let actorRole ← g.requireMemberRole actor
  refuse (!actorRole.canManage targetRole) (.insufficientPrivilege actorRole targetRole)

def removeMember (actor target : PeerId) : Except GroupError GroupMember × GroupRoster :=
  match g.checkRemove actor target with
  | .error e => (.error e, g)
  | .ok _ => (okOr (g.members.get? target) (.notMember target),
      { g with members := g.members.erase target })

def setRole (p : PeerId) (role : GroupRole) : GroupRoster :=
  { g with members := g.members.modify p fun m => { m with role := role } }

/-- The checks of `change_role`. -/
def checkChange (actor target : PeerId) (newRole : GroupRole) : Except GroupError Unit := do
  let targetRole ← g.requireMemberRole target
  refuse (targetRole = .master) .cannotDemoteMaster
  refuse (newRole = .master) .multipleMasters
  let actorRole ← g.requireMemberRole actor
  if newRole = .admin then refuse (actorRole ≠ .master) .onlyMasterCanPromoteAdmin
  else
    refuse (!actorRole.canManage targetRole && !actorRole.canManage newRole)
      (.insufficientPrivilege actorRole targetRole)

def changeRole (actor target : PeerId) (newRole : GroupRole) :
    Except GroupError Unit × GroupRoster :=
  match g.checkChange actor target newRole with
  | .error e => (.error e, g)
  | .ok _ => (.ok (), g.setRole target newRole)

/-- The checks of `transfer_master`. -/
def checkTransfer (currentMaster newMaster : PeerId) : Except GroupError Unit := do
  let actorRole ← g.requireMemberRole currentMaster
  refuse (actorRole ≠ .master) (.insufficientPrivilege actorRole .master)
  let _ ← g.requireMemberRole newMaster

def transferMaster (currentMaster newMaster : PeerId) : Except GroupError Unit × GroupRoster :=
  match g.checkTransfer currentMaster newMaster with
  | .error e => (.error e, g)
  | .ok _ => (.ok (), (g.setRole currentMaster .admin).setRole newMaster .master)

end GroupRoster

/-! ### Calls -/

inductive Call
  | addMember (actor newPeer : PeerId) (role : GroupRole)
  | removeMember (actor target : PeerId)
  | changeRole (actor target : PeerId) (newRole : GroupRole)
  | transferMaster (currentMaster newMaster : PeerId)
deriving DecidableEq, Repr

/-- The peer that makes the call. -/
def Call.actor : Call → PeerId
  | .addMember actor _ _ | .removeMember actor _ | .changeRole actor _ _ => actor
  | .transferMaster currentMaster _ => currentMaster

namespace GroupRoster

/-- The outcome of a call and the roster after it. -/
def apply (g : GroupRoster) : Call → Except GroupError Unit × GroupRoster
  | .addMember actor newPeer role =>
    ((g.addMember actor newPeer role).1.map fun _ => (), (g.addMember actor newPeer role).2)
  | .removeMember actor target =>
    ((g.removeMember actor target).1.map fun _ => (), (g.removeMember actor target).2)
  | .changeRole actor target newRole => g.changeRole actor target newRole
  | .transferMaster currentMaster newMaster => g.transferMaster currentMaster newMaster

/-- The roster after the calls. -/
def perform (g : GroupRoster) (calls : List Call) : GroupRoster :=
  calls.foldl (fun g call => (g.apply call).2) g

/-- What a call that succeeds has established, and the roster it leaves. -/
inductive Effect (g : GroupRoster) : Call → GroupRoster → Prop
  | added {actor newPeer : PeerId} {role actorRole : GroupRole}
      (hactor : g.roleOf actor = some actorRole) (hrole : role ≠ .master)
      (habove : role.privilegeLevel < actorRole.privilegeLevel)
      (hnew : g.members.get? newPeer = none) (hroom : g.members.size < maxGroupMembers) :
      Effect g (.addMember actor newPeer role) { g with
        nextSeq := satAdd u64Max g.nextSeq 1
        members := g.members.alter newPeer fun _ => ⟨newPeer, role, g.nextSeq⟩ }
  | removed {actor target : PeerId} {actorRole targetRole : GroupRole}
      (hactor : g.roleOf actor = some actorRole) (htarget : g.roleOf target = some targetRole)
      (hmaster : targetRole ≠ .master)
      (habove : targetRole.privilegeLevel < actorRole.privilegeLevel) :
      Effect g (.removeMember actor target) { g with members := g.members.erase target }
  | changed {actor target : PeerId} {newRole actorRole targetRole : GroupRole}
      (hactor : g.roleOf actor = some actorRole) (htarget : g.roleOf target = some targetRole)
      (hmaster : targetRole ≠ .master) (hrole : newRole ≠ .master)
      (habove : newRole.privilegeLevel < actorRole.privilegeLevel)
      (hold : targetRole.privilegeLevel < actorRole.privilegeLevel ∨
        actorRole = .admin ∧ targetRole = .admin) :
      Effect g (.changeRole actor target newRole) (g.setRole target newRole)
  | transferred {currentMaster newMaster : PeerId} {targetRole : GroupRole}
      (hactor : g.roleOf currentMaster = some .master)
      (htarget : g.roleOf newMaster = some targetRole) :
      Effect g (.transferMaster currentMaster newMaster)
        ((g.setRole currentMaster .admin).setRole newMaster .master)

end GroupRoster

theorem GroupRole.level_lt_of_canManage {a b : GroupRole} (h : a.canManage b = true) :
    b.privilegeLevel < a.privilegeLevel := by
  cases a
  case master | admin => exact of_decide_eq_true h
  case mirror | reader => cases h

theorem level_lt_of_checkGrant {role actorRole : GroupRole} (hmaster : role ≠ .master)
    (h : checkGrant role actorRole = .ok ()) : role.privilegeLevel < actorRole.privilegeLevel := by
  unfold checkGrant at h
  split_ifs at h with hadmin
  · have hactor := of_not_not (of_decide_eq_false (refuse_eq_ok.mp h))
    subst hadmin hactor
    decide
  · have hmanage := refuse_eq_ok.mp h
    rw [Bool.not_eq_false'] at hmanage
    exact GroupRole.level_lt_of_canManage hmanage

namespace GroupRoster

variable {g g' : GroupRoster}

theorem get?_setRole {p q : PeerId} {role : GroupRole} : (g.setRole p role).members.get? q =
    if q = p then (g.members.get? p).map fun m => { m with role := role } else g.members.get? q :=
  Table.get?_modify

theorem roleOf_setRole {p q : PeerId} {role : GroupRole} : (g.setRole p role).roleOf q =
    if q = p then (g.roleOf p).map fun _ => role else g.roleOf q := by
  unfold roleOf
  rw [get?_setRole]
  split_ifs
  · rw [Option.map_map, Option.map_map]
    rfl
  · rfl

theorem roleOf_added {p q : PeerId} {m : GroupMember} {n : ℕ} :
    roleOf { g with nextSeq := n, members := g.members.alter p fun _ => m } q =
      if q = p then some m.role else g.roleOf q := by
  unfold roleOf
  rw [Table.get?_alter]
  split_ifs <;> rfl

theorem roleOf_removed {p q : PeerId} :
    roleOf { g with members := g.members.erase p } q = if q = p then none else g.roleOf q := by
  unfold roleOf
  rw [Table.get?_erase]
  split_ifs <;> rfl

theorem requireMemberRole_eq_ok {p : PeerId} {role : GroupRole} :
    g.requireMemberRole p = .ok role ↔ g.roleOf p = some role := okOr_eq_ok

/-! ### What the calls do -/

theorem effect_addMember {actor newPeer : PeerId} {role : GroupRole}
    (h : (g.addMember actor newPeer role).1.isOk) :
    Effect g (.addMember actor newPeer role) (g.addMember actor newPeer role).2 := by
  unfold addMember at h ⊢
  rcases hcheck : g.checkAdd actor newPeer role with e | _
  · rw [hcheck] at h
    cases h
  unfold checkAdd at hcheck
  obtain ⟨_, hmaster, hcheck⟩ := bind_eq_ok.mp hcheck
  obtain ⟨actorRole, hactor, hcheck⟩ := bind_eq_ok.mp hcheck
  obtain ⟨_, hgrant, hcheck⟩ := bind_eq_ok.mp hcheck
  have hrole := of_decide_eq_false (refuse_eq_ok.mp hmaster)
  rcases hnew : g.members.get? newPeer with _ | existing
  · rw [hnew] at hcheck
    have hroom := Nat.lt_of_not_le (of_decide_eq_false (refuse_eq_ok.mp hcheck))
    exact .added (requireMemberRole_eq_ok.mp hactor) hrole (level_lt_of_checkGrant hrole hgrant)
      hnew hroom
  · rw [hnew] at hcheck
    cases hcheck

theorem effect_removeMember {actor target : PeerId} (h : (g.removeMember actor target).1.isOk) :
    Effect g (.removeMember actor target) (g.removeMember actor target).2 := by
  unfold removeMember at h ⊢
  rcases hcheck : g.checkRemove actor target with e | _
  · rw [hcheck] at h
    cases h
  unfold checkRemove at hcheck
  obtain ⟨targetRole, htarget, hcheck⟩ := bind_eq_ok.mp hcheck
  obtain ⟨_, hmaster, hcheck⟩ := bind_eq_ok.mp hcheck
  obtain ⟨actorRole, hactor, hmanage⟩ := bind_eq_ok.mp hcheck
  have hmanage := refuse_eq_ok.mp hmanage
  rw [Bool.not_eq_false'] at hmanage
  exact .removed (requireMemberRole_eq_ok.mp hactor) (requireMemberRole_eq_ok.mp htarget)
    (of_decide_eq_false (refuse_eq_ok.mp hmaster)) (GroupRole.level_lt_of_canManage hmanage)

/-- Whoever manages one of two roles below the admins is above both, unless an admin manages an
admin. -/
theorem levels_of_canManage {actorRole targetRole newRole : GroupRole}
    (htarget : targetRole ≠ .master) (hnew : newRole ≠ .master) (hadmin : newRole ≠ .admin)
    (h : (!actorRole.canManage targetRole && !actorRole.canManage newRole) = false) :
    newRole.privilegeLevel < actorRole.privilegeLevel ∧
      (targetRole.privilegeLevel < actorRole.privilegeLevel ∨
        actorRole = .admin ∧ targetRole = .admin) := by
  cases newRole
  case master => exact absurd rfl hnew
  case admin => exact absurd rfl hadmin
  all_goals
    revert h htarget
    cases actorRole <;> cases targetRole <;> decide

theorem effect_changeRole {actor target : PeerId} {newRole : GroupRole}
    (h : (g.changeRole actor target newRole).1.isOk) :
    Effect g (.changeRole actor target newRole) (g.changeRole actor target newRole).2 := by
  unfold changeRole at h ⊢
  rcases hcheck : g.checkChange actor target newRole with e | _
  · rw [hcheck] at h
    cases h
  unfold checkChange at hcheck
  obtain ⟨targetRole, htarget, hcheck⟩ := bind_eq_ok.mp hcheck
  obtain ⟨_, hmaster, hcheck⟩ := bind_eq_ok.mp hcheck
  obtain ⟨_, hnew, hcheck⟩ := bind_eq_ok.mp hcheck
  obtain ⟨actorRole, hactor, hcheck⟩ := bind_eq_ok.mp hcheck
  rw [requireMemberRole_eq_ok] at htarget hactor
  have hmaster := of_decide_eq_false (refuse_eq_ok.mp hmaster)
  have hnew := of_decide_eq_false (refuse_eq_ok.mp hnew)
  split_ifs at hcheck with hadmin
  · have hactorMaster := of_not_not (of_decide_eq_false (refuse_eq_ok.mp hcheck))
    subst hadmin hactorMaster
    refine .changed hactor htarget hmaster hnew (by decide) (Or.inl ?_)
    revert hmaster
    cases targetRole <;> decide
  · obtain ⟨habove, hold⟩ := levels_of_canManage hmaster hnew hadmin (refuse_eq_ok.mp hcheck)
    exact .changed hactor htarget hmaster hnew habove hold

theorem effect_transferMaster {currentMaster newMaster : PeerId}
    (h : (g.transferMaster currentMaster newMaster).1.isOk) :
    Effect g (.transferMaster currentMaster newMaster)
      (g.transferMaster currentMaster newMaster).2 := by
  unfold transferMaster at h ⊢
  rcases hcheck : g.checkTransfer currentMaster newMaster with e | _
  · rw [hcheck] at h
    cases h
  unfold checkTransfer at hcheck
  obtain ⟨actorRole, hactor, hcheck⟩ := bind_eq_ok.mp hcheck
  obtain ⟨_, hmaster, hcheck⟩ := bind_eq_ok.mp hcheck
  obtain ⟨targetRole, htarget, -⟩ := bind_eq_ok.mp hcheck
  have hmaster := of_not_not (of_decide_eq_false (refuse_eq_ok.mp hmaster))
  subst hmaster
  exact .transferred (requireMemberRole_eq_ok.mp hactor) (requireMemberRole_eq_ok.mp htarget)

/-- **A call that succeeds** has the effect of its kind. -/
theorem effect_of_ok {call : Call} (h : (g.apply call).1.isOk) : Effect g call (g.apply call).2 := by
  cases call with
  | addMember actor newPeer role =>
    refine effect_addMember ?_
    rcases hx : (g.addMember actor newPeer role).1 with e | m
    · rw [apply, hx] at h
      cases h
    · rfl
  | removeMember actor target =>
    refine effect_removeMember ?_
    rcases hx : (g.removeMember actor target).1 with e | m
    · rw [apply, hx] at h
      cases h
    · rfl
  | changeRole => exact effect_changeRole h
  | transferMaster => exact effect_transferMaster h

theorem removeMember_of_error {actor target : PeerId} {e : GroupError}
    (h : (g.removeMember actor target).1 = .error e) : (g.removeMember actor target).2 = g := by
  unfold removeMember at h ⊢
  rcases hcheck : g.checkRemove actor target with e' | _
  · rfl
  -- a peer that passes the checks is a member, so that there is something to remove
  rw [hcheck] at h
  unfold checkRemove at hcheck
  obtain ⟨targetRole, htarget, -⟩ := bind_eq_ok.mp hcheck
  obtain ⟨m, hm, -⟩ := Option.map_eq_some_iff.mp (requireMemberRole_eq_ok.mp htarget)
  rw [hm] at h
  cases h

/-- **A call that fails** changes nothing. -/
theorem apply_of_error {call : Call} {e : GroupError} (h : (g.apply call).1 = .error e) :
    (g.apply call).2 = g := by
  cases call with
  | addMember actor newPeer role =>
    rw [apply] at h ⊢
    unfold addMember at h ⊢
    rcases hcheck : g.checkAdd actor newPeer role with e' | _
    · rfl
    · rw [hcheck] at h
      cases h
  | removeMember actor target =>
    rw [apply] at h ⊢
    rcases hx : (g.removeMember actor target).1 with e' | m
    · exact removeMember_of_error hx
    · rw [hx] at h
      cases h
  | changeRole actor target newRole =>
    rw [apply] at h ⊢
    unfold changeRole at h ⊢
    rcases hcheck : g.checkChange actor target newRole with e' | _
    · rfl
    · rw [hcheck] at h
      cases h
  | transferMaster currentMaster newMaster =>
    rw [apply] at h ⊢
    unfold transferMaster at h ⊢
    rcases hcheck : g.checkTransfer currentMaster newMaster with e' | _
    · rfl
    · rw [hcheck] at h
      cases h

/-- Either nothing changes, or the call has the effect of its kind. -/
theorem apply_cases (g : GroupRoster) (call : Call) :
    (g.apply call).2 = g ∨ Effect g call (g.apply call).2 := by
  rcases h : (g.apply call).1 with e | _
  · exact Or.inl (apply_of_error h)
  · exact Or.inr (effect_of_ok (by rw [h]; rfl))

/-! ### The invariant -/

/-- The members and the counter after `calls` calls. -/
structure Numbered (calls : ℕ) (g : GroupRoster) : Prop where
  keyed : ∀ p m, g.members.get? p = some m → m.peerId = p
  distinct : ∀ p q m m', g.members.get? p = some m → g.members.get? q = some m' →
    m.joinSeq = m'.joinSeq → p = q
  /-- The last number that the counter can give is given only once. -/
  below : calls < u64Max → ∀ p m, g.members.get? p = some m → m.joinSeq < g.nextSeq
  next : g.nextSeq ≤ calls + 1
  room : g.members.size ≤ maxGroupMembers

/-- Exactly one member is the master. -/
def HasMaster (g : GroupRoster) : Prop := ∃ p, ∀ q, g.roleOf q = some .master ↔ q = p

theorem get?_new {networkId : NetworkId} {masterId p : PeerId} :
    (new networkId masterId).members.get? p =
      if p = masterId then some ⟨masterId, .master, 0⟩ else none := Table.get?_alter

theorem hasMaster_new (networkId : NetworkId) (masterId : PeerId) :
    (new networkId masterId).HasMaster := by
  refine ⟨masterId, fun q => ?_⟩
  unfold roleOf
  rw [get?_new]
  split_ifs with hq
  · exact ⟨fun _ => hq, fun _ => rfl⟩
  · exact ⟨nofun, fun h => absurd h hq⟩

theorem numbered_new (networkId : NetworkId) (masterId : PeerId) :
    Numbered 0 (new networkId masterId) := by
  have honly : ∀ p m, (new networkId masterId).members.get? p = some m →
      p = masterId ∧ m = ⟨masterId, .master, 0⟩ := by
    intro p m hm
    rw [get?_new] at hm
    split_ifs at hm with hp
    exact ⟨hp, (Option.some.inj hm).symm⟩
  refine ⟨fun p m hm => ?_, fun p q m m' hm hm' _ => ?_, fun _ p m hm => ?_, Nat.le_refl _, ?_⟩
  · obtain ⟨rfl, rfl⟩ := honly p m hm
    rfl
  · exact (honly p m hm).1.trans (honly q m' hm').1.symm
  · obtain ⟨-, rfl⟩ := honly p m hm
    exact Nat.one_pos
  · exact Nat.le_trans Table.size_alter_le (by decide)

/-- A member after a role was set is a member before it, but for its role. -/
theorem mem_setRole {p q : PeerId} {role : GroupRole} {m' : GroupMember}
    (h : (g.setRole p role).members.get? q = some m') :
    ∃ m, g.members.get? q = some m ∧ m'.peerId = m.peerId ∧ m'.joinSeq = m.joinSeq := by
  rw [get?_setRole] at h
  split_ifs at h with hq
  · obtain ⟨m, hm, rfl⟩ := Option.map_eq_some_iff.mp h
    exact ⟨m, hq ▸ hm, rfl, rfl⟩
  · exact ⟨m', h, rfl, rfl⟩

variable {calls : ℕ}

theorem Numbered.succ (hv : Numbered calls g) : Numbered (calls + 1) g :=
  { hv with
    below := fun h => hv.below (Nat.lt_of_succ_lt h)
    next := Nat.le_succ_of_le hv.next }

theorem Numbered.setRole (hv : Numbered calls g) (p : PeerId) (role : GroupRole) :
    Numbered calls (g.setRole p role) where
  keyed q m hm := by
    obtain ⟨m₀, hm₀, hid, -⟩ := mem_setRole hm
    exact hid.trans (hv.keyed q m₀ hm₀)
  distinct q q' m m' hm hm' he := by
    obtain ⟨m₀, hm₀, -, hseq⟩ := mem_setRole hm
    obtain ⟨m₁, hm₁, -, hseq'⟩ := mem_setRole hm'
    exact hv.distinct q q' m₀ m₁ hm₀ hm₁ (hseq.symm.trans (he.trans hseq'))
  below h q m hm := by
    obtain ⟨m₀, hm₀, -, hseq⟩ := mem_setRole hm
    exact hseq ▸ hv.below h q m₀ hm₀
  next := hv.next
  room := Nat.le_trans (Nat.le_of_eq Table.size_modify) hv.room

theorem Numbered.erase (hv : Numbered calls g) (p : PeerId) :
    Numbered calls { g with members := g.members.erase p } := by
  have hget : ∀ q m, (g.members.erase p).get? q = some m → g.members.get? q = some m := by
    intro q m hm
    rw [Table.get?_erase] at hm
    split_ifs at hm
    exact hm
  exact
    { keyed := fun q m hm => hv.keyed q m (hget q m hm)
      distinct := fun q q' m m' hm hm' => hv.distinct q q' m m' (hget q m hm) (hget q' m' hm')
      below := fun h q m hm => hv.below h q m (hget q m hm)
      next := hv.next
      room := Nat.le_trans Table.size_erase_le hv.room }

/-- The new member gets a number that no other has, and the counter goes on unless this was its last
number. -/
theorem Numbered.add (hv : Numbered calls g) (hcalls : calls < u64Max) (p : PeerId)
    (role : GroupRole) (hroom : g.members.size < maxGroupMembers) :
    Numbered (calls + 1) { g with
      nextSeq := satAdd u64Max g.nextSeq 1
      members := g.members.alter p fun _ => ⟨p, role, g.nextSeq⟩ } := by
  have hget : ∀ q m, (g.members.alter p fun _ => ⟨p, role, g.nextSeq⟩).get? q = some m →
      q = p ∧ m = ⟨p, role, g.nextSeq⟩ ∨ g.members.get? q = some m := by
    intro q m hm
    rw [Table.get?_alter] at hm
    split_ifs at hm with hq
    · exact Or.inl ⟨hq, (Option.some.inj hm).symm⟩
    · exact Or.inr hm
  have hold := hv.below hcalls
  have hnext := hv.next
  refine ⟨fun q m hm => ?_, fun q q' m m' hm hm' he => ?_, fun h q m hm => ?_, ?_, ?_⟩
  · obtain ⟨rfl, rfl⟩ | hm := hget q m hm
    · rfl
    · exact hv.keyed q m hm
  · rcases hget q m hm with ⟨rfl, rfl⟩ | hm₀ <;> rcases hget q' m' hm' with ⟨rfl, rfl⟩ | hm₁
    · rfl
    · exact absurd he (Nat.ne_of_gt (hold q' m' hm₁))
    · exact absurd he (Nat.ne_of_lt (hold q m hm₀))
    · exact hv.distinct q q' m m' hm₀ hm₁ he
  · have hseq : satAdd u64Max g.nextSeq 1 = g.nextSeq + 1 := satAdd_of_le (by omega)
    change m.joinSeq < satAdd u64Max g.nextSeq 1
    rw [hseq]
    obtain ⟨-, rfl⟩ | hm := hget q m hm
    · exact Nat.lt_succ_self _
    · exact Nat.lt_succ_of_lt (hold q m hm)
  · exact Nat.le_trans (Nat.min_le_left _ _) (Nat.succ_le_succ hnext)
  · exact Nat.le_trans Table.size_alter_le hroom

theorem Numbered.effect (hv : Numbered calls g) (hcalls : calls < u64Max) {call : Call}
    (h : Effect g call g') : Numbered (calls + 1) g' := by
  cases h with
  | added _ _ _ _ hroom => exact hv.add hcalls _ _ hroom
  | removed => exact (hv.erase _).succ
  | changed => exact (hv.setRole _ _).succ
  | transferred => exact ((hv.setRole _ _).setRole _ _).succ

/-- The master stays as long as the other roles that are set are not the master's. -/
theorem HasMaster.setRole (hm : g.HasMaster) {p : PeerId} {role : GroupRole}
    (hrole : role ≠ .master) (hp : g.roleOf p ≠ some .master) : (g.setRole p role).HasMaster := by
  obtain ⟨master, hmaster⟩ := hm
  refine ⟨master, fun q => ?_⟩
  rw [← hmaster q, roleOf_setRole]
  split_ifs with hq
  · subst hq
    refine ⟨fun h => ?_, fun h => absurd h hp⟩
    obtain ⟨_, -, h⟩ := Option.map_eq_some_iff.mp h
    exact absurd h hrole
  · exact Iff.rfl

/-- The old master is an admin when the new one takes over, also if they are the same. -/
theorem HasMaster.transfer (hm : g.HasMaster) {currentMaster newMaster : PeerId}
    {targetRole : GroupRole} (hactor : g.roleOf currentMaster = some .master)
    (htarget : g.roleOf newMaster = some targetRole) :
    ((g.setRole currentMaster .admin).setRole newMaster .master).HasMaster := by
  obtain ⟨master, hmaster⟩ := hm
  have hcurrent := (hmaster currentMaster).mp hactor
  refine ⟨newMaster, fun q => ?_⟩
  rw [roleOf_setRole]
  split_ifs with hq
  · rw [roleOf_setRole]
    split_ifs with hsame
    · rw [hactor]
      exact ⟨fun _ => hq, fun _ => rfl⟩
    · rw [htarget]
      exact ⟨fun _ => hq, fun _ => rfl⟩
  · rw [roleOf_setRole]
    split_ifs with hold
    · rw [hactor]
      exact ⟨nofun, fun h => absurd h hq⟩
    · rw [hmaster]
      exact ⟨fun h => absurd (h.trans hcurrent.symm) hold, fun h => absurd h hq⟩

/-- A member that comes or goes and is not the master leaves the master alone. -/
theorem HasMaster.of_other (hm : g.HasMaster) {p : PeerId} (hp : g.roleOf p ≠ some .master)
    (hp' : g'.roleOf p ≠ some .master) (hother : ∀ q, q ≠ p → g'.roleOf q = g.roleOf q) :
    g'.HasMaster := by
  obtain ⟨master, hmaster⟩ := hm
  refine ⟨master, fun q => ?_⟩
  rw [← hmaster q]
  by_cases hq : q = p
  · subst hq
    exact ⟨fun h => absurd h hp', fun h => absurd h hp⟩
  · rw [hother q hq]

theorem HasMaster.effect (hm : g.HasMaster) {call : Call} (h : Effect g call g') :
    g'.HasMaster := by
  cases h with
  | @added actor newPeer role _ _ hrole _ hnew _ =>
    refine hm.of_other (p := newPeer) ?_ ?_ fun q hq => ?_
    · unfold roleOf
      rw [hnew]
      exact nofun
    · rw [roleOf_added, if_pos rfl]
      exact fun h => hrole (Option.some.inj h)
    · rw [roleOf_added, if_neg hq]
  | @removed actor target _ targetRole _ htarget hnot _ =>
    refine hm.of_other (p := target) ?_ ?_ fun q hq => ?_
    · rw [htarget]
      exact fun h => hnot (Option.some.inj h)
    · rw [roleOf_removed, if_pos rfl]
      exact nofun
    · rw [roleOf_removed, if_neg hq]
  | changed _ htarget hnot hrole =>
    refine hm.setRole hrole ?_
    rw [htarget]
    exact fun h => hnot (Option.some.inj h)
  | transferred hactor htarget => exact hm.transfer hactor htarget

theorem perform_cons (g : GroupRoster) (call : Call) (calls : List Call) :
    g.perform (call :: calls) = (g.apply call).2.perform calls := rfl

/-- **One master** in every roster that calls lead to. -/
theorem HasMaster.perform (hm : g.HasMaster) (calls : List Call) : (g.perform calls).HasMaster := by
  induction calls generalizing g with
  | nil => exact hm
  | cons call calls ih =>
    rw [perform_cons]
    refine ih ?_
    rcases apply_cases g call with h | h
    · rw [h]
      exact hm
    · exact hm.effect h

/-- **Distinct numbers** as long as the counter has numbers left. -/
theorem Numbered.perform : ∀ {later : List Call} {g : GroupRoster} {calls : ℕ}, Numbered calls g →
    calls + later.length ≤ u64Max → Numbered (calls + later.length) (g.perform later)
  | [], _, _, hv, _ => hv
  | call :: later, g, calls, hv, hcalls => by
    rw [List.length_cons] at hcalls
    have hlast : calls + (later.length + 1) = calls + 1 + later.length := by omega
    rw [perform_cons, List.length_cons, hlast]
    refine Numbered.perform ?_ (hlast ▸ hcalls)
    rcases apply_cases g call with h | h
    · rw [h]
      exact hv.succ
    · exact hv.effect (by omega) h

/-- The master that is looked for is the one there is. -/
theorem masterId_eq {p : PeerId} (hkeyed : ∀ p m, g.members.get? p = some m → m.peerId = p)
    (hmaster : ∀ q, g.roleOf q = some .master ↔ q = p) : g.masterId = some p := by
  obtain ⟨m, hm, hrole⟩ := Option.map_eq_some_iff.mp ((hmaster p).mpr rfl)
  have hmem : m ∈ g.members.entries.map Prod.snd :=
    List.mem_map.mpr ⟨(p, m), Table.mem_entries_iff.mpr hm, rfl⟩
  have hsome : ((g.members.entries.map Prod.snd).find? (·.role = .master)).isSome :=
    List.find?_isSome.mpr ⟨m, hmem, decide_eq_true hrole⟩
  obtain ⟨found, hfound⟩ := Option.isSome_iff_exists.mp hsome
  have hfoundRole : decide (found.role = .master) = true :=
    List.find?_some (p := fun m : GroupMember => decide (m.role = .master)) hfound
  obtain ⟨⟨q, m'⟩, hentry, rfl⟩ := List.mem_map.mp (List.mem_of_find?_eq_some hfound)
  have hq := Table.mem_entries_iff.mp hentry
  have hmasterq : g.roleOf q = some .master := by
    unfold roleOf
    rw [hq]
    exact congrArg some (of_decide_eq_true hfoundRole)
  unfold masterId
  rw [hfound]
  exact congrArg some ((hkeyed q m' hq).trans ((hmaster q).mp hmasterq))

/-- **Rosters stay well formed**: after fewer than `2 ^ 64` calls by whomever, failed ones included,
there is exactly one master, which `master_id` finds, the sequence numbers are distinct and the group
is not larger than allowed. A call that fails changes nothing. -/
theorem roster_valid (networkId : NetworkId) (creator : PeerId) (calls : List Call)
    (hcalls : calls.length < 2 ^ 64) :
    let g := (new networkId creator).perform calls
    (∃ master, g.masterId = some master ∧ ∀ p, g.roleOf p = some .master ↔ p = master) ∧
      (∀ p q m m', g.members.get? p = some m → g.members.get? q = some m' → m.joinSeq = m'.joinSeq →
        p = q) ∧
      g.members.size ≤ maxGroupMembers ∧
      ∀ call e, (g.apply call).1 = .error e → (g.apply call).2 = g := by
  intro g
  have hlength : 0 + calls.length ≤ u64Max := by
    unfold u64Max
    omega
  have hv : Numbered _ g := (numbered_new networkId creator).perform hlength
  obtain ⟨master, hmaster⟩ : g.HasMaster := (hasMaster_new networkId creator).perform calls
  exact ⟨⟨master, masterId_eq hv.keyed hmaster, hmaster⟩, hv.distinct, hv.room,
    fun _ _ => apply_of_error⟩

theorem roster_valid_self_transfer :
    let creator := Vector.replicate 32 1
    let g := (new (Vector.replicate 32 0) creator).perform [.transferMaster creator creator]
    (∃ master, g.masterId = some master ∧ ∀ p, g.roleOf p = some .master ↔ p = master) ∧
      (∀ p q m m', g.members.get? p = some m → g.members.get? q = some m' → m.joinSeq = m'.joinSeq →
        p = q) ∧
      g.members.size ≤ maxGroupMembers ∧
      ∀ call e, (g.apply call).1 = .error e → (g.apply call).2 = g :=
  roster_valid _ _ _ (by decide)

end GroupRoster

end CncContent.Group.Roster
