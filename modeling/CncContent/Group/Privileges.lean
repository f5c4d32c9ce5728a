import CncContent.Group.Roster
import CncContent.Lib.Runs

/-! # Privileges in a group

Whoever manages a member has to stand above it, before the call and after it. The one call that goes
through without this is a `change_role` in which an admin demotes an admin, another one or itself
(`no_escalation_iff`): the check asks that the actor manages the old role or the new one. Without such
calls, those who are not the master never change who holds an office. -/

namespace CncContent.Group.Privileges

open CncContent.Group.Roster CncContent.Lib.Runs

/-- The member that the call is about. -/
def target : Call → PeerId
  | .addMember _ newPeer _ => newPeer
  | .removeMember _ target | .changeRole _ target _ => target
  | .transferMaster _ newMaster => newMaster

/-- The role, if there is one, is below the actor's. -/
def Below (role : Option GroupRole) (actorRole : GroupRole) : Prop :=
  ∀ r, role = some r → r.privilegeLevel < actorRole.privilegeLevel

/-- A call that succeeds is made by a member above the target's role before and after it. The transfer
of the master's role is not such a call. -/
def Authorized (g : GroupRoster) (call : Call) : Prop :=
  (g.apply call).1 = .ok () → (∀ p q, call ≠ .transferMaster p q) →
    ∃ actorRole, g.roleOf call.actor = some actorRole ∧ Below (g.roleOf (target call)) actorRole ∧
      Below ((g.apply call).2.roleOf (target call)) actorRole

/-- An admin demotes an admin. -/
def Oversteps (g : GroupRoster) : Call → Prop
  | .changeRole actor target newRole => g.roleOf actor = some .admin ∧
    g.roleOf target = some .admin ∧ (newRole = .mirror ∨ newRole = .reader)
  | _ => False

instance (g : GroupRoster) : ∀ call, Decidable (Oversteps g call)
  | .changeRole _ _ _ => inferInstanceAs (Decidable (_ ∧ _))
  | .addMember _ _ _ | .removeMember _ _ | .transferMaster _ _ => inferInstanceAs (Decidable False)

/-- The master and the admins. -/
def IsOffice (r : GroupRole) : Prop := r = .master ∨ r = .admin

/-- The offices are held by the same members. -/
def SameOffices (g g' : GroupRoster) : Prop :=
  ∀ p r, IsOffice r → (g'.roleOf p = some r ↔ g.roleOf p = some r)

/-- A call by somebody who is not the master. -/
def subordinateStep (g : GroupRoster) (call : Call) : Option GroupRoster :=
  if g.roleOf call.actor = some .master then none else some (g.apply call).2

variable {g g' : GroupRoster} {call : Call}

/-- An admin who demotes an admin gets through. -/
theorem apply_of_oversteps {actor target : PeerId} {newRole : GroupRole}
    (h : Oversteps g (.changeRole actor target newRole)) :
    g.apply (.changeRole actor target newRole) = (.ok (), g.setRole target newRole) := by
  obtain ⟨hactor, htarget, hrole⟩ := h
  have hactor := GroupRoster.requireMemberRole_eq_ok.mpr hactor
  have htarget := GroupRoster.requireMemberRole_eq_ok.mpr htarget
  have hcheck : g.checkChange actor target newRole = .ok () := by
    unfold GroupRoster.checkChange
    rw [hactor, htarget]
    rcases hrole with rfl | rfl <;> rfl
  rw [GroupRoster.apply, GroupRoster.changeRole, hcheck]

theorem not_isOffice_of_level_lt {r actorRole : GroupRole} (hactor : actorRole ≠ .master)
    (h : r.privilegeLevel < actorRole.privilegeLevel) : ¬ IsOffice r := by
  rintro (rfl | rfl) <;> cases actorRole
  case inl.master | inr.master => exact hactor rfl
  all_goals exact absurd h (by decide)

/-- What an admin manages is a mirror or a reader. -/
theorem mirror_or_reader_of_level_lt {r : GroupRole}
    (h : r.privilegeLevel < GroupRole.admin.privilegeLevel) : r = .mirror ∨ r = .reader := by
  cases r
  case master | admin => exact absurd h (by decide)
  case mirror => exact Or.inl rfl
  case reader => exact Or.inr rfl

theorem level_lt_of_changed {actor target : PeerId} {newRole actorRole targetRole : GroupRole}
    (hactor : g.roleOf actor = some actorRole) (htarget : g.roleOf target = some targetRole)
    (habove : newRole.privilegeLevel < actorRole.privilegeLevel)
    (hold : targetRole.privilegeLevel < actorRole.privilegeLevel ∨
      actorRole = .admin ∧ targetRole = .admin)
    (h : ¬ Oversteps g (.changeRole actor target newRole)) :
    targetRole.privilegeLevel < actorRole.privilegeLevel := by
  obtain hlt | ⟨rfl, rfl⟩ := hold
  · exact hlt
  · exact absurd ⟨hactor, htarget, mirror_or_reader_of_level_lt habove⟩ h

theorem below_none (actorRole : GroupRole) : Below none actorRole := nofun

theorem below_some {r actorRole : GroupRole} (h : r.privilegeLevel < actorRole.privilegeLevel) :
    Below (some r) actorRole := by
  rintro _ ⟨⟩
  exact h

/-- **A successful call** is authorized unless it oversteps. -/
theorem authorized_iff (g : GroupRoster) (call : Call) : Authorized g call ↔ ¬ Oversteps g call := by
  constructor
  · intro h hover
    cases call with
    | changeRole actor target' newRole =>
      have hok := congrArg Prod.fst (apply_of_oversteps hover)
      obtain ⟨actorRole, hactor, hbefore, -⟩ := h hok nofun
      have hadmin := Option.some.inj (hactor.symm.trans hover.1)
      subst hadmin
      exact Nat.lt_irrefl _ (hbefore .admin hover.2.1)
    | addMember | removeMember | transferMaster => exact hover
  · intro h hok htransfer
    have heffect : GroupRoster.Effect g call (g.apply call).2 :=
      GroupRoster.effect_of_ok (by rw [hok]; rfl)
    generalize (g.apply call).2 = g' at heffect ⊢
    cases heffect with
    | @added actor newPeer role actorRole hactor _ habove hnew _ =>
      refine ⟨actorRole, hactor, ?_, ?_⟩
      · change Below ((g.members.get? newPeer).map _) actorRole
        rw [hnew]
        exact below_none _
      · change Below (GroupRoster.roleOf _ newPeer) _
        rw [GroupRoster.roleOf_added, if_pos rfl]
        exact below_some habove
    | @removed actor target' actorRole targetRole hactor htarget _ habove =>
      refine ⟨actorRole, hactor, htarget ▸ below_some habove, ?_⟩
      change Below (GroupRoster.roleOf _ target') _
      rw [GroupRoster.roleOf_removed, if_pos rfl]
      exact below_none _
    | @changed actor target' newRole actorRole targetRole hactor htarget _ _ habove hold =>
      have hlt := level_lt_of_changed hactor htarget habove hold h
      refine ⟨actorRole, hactor, htarget ▸ below_some hlt, ?_⟩
      change Below (GroupRoster.roleOf _ target') _
      rw [GroupRoster.roleOf_setRole, if_pos rfl, htarget]
      exact below_some habove
    | transferred => exact absurd rfl (htransfer _ _)

/-! ### Offices -/

theorem SameOffices.refl (g : GroupRoster) : SameOffices g g := fun _ _ _ => Iff.rfl

/-- A member whose role is no office before and after. -/
theorem sameOffices_of_other {p : PeerId} (hother : ∀ q, q ≠ p → g'.roleOf q = g.roleOf q)
    (hbefore : ∀ r, g.roleOf p = some r → ¬ IsOffice r)
    (hafter : ∀ r, g'.roleOf p = some r → ¬ IsOffice r) : SameOffices g g' := by
  intro q r hr
  by_cases hq : q = p
  · subst hq
    exact ⟨fun h => absurd hr (hafter r h), fun h => absurd hr (hbefore r h)⟩
  · rw [hother q hq]

/-- Below somebody who is not the master there are no offices. -/
theorem Below.not_isOffice {role : Option GroupRole} {actorRole : GroupRole}
    (hactor : actorRole ≠ .master) (h : Below role actorRole) : ∀ r, role = some r → ¬ IsOffice r :=
  fun r hr => not_isOffice_of_level_lt hactor (h r hr)

/-- A call changes the role of its target only, unless it is a transfer. -/
theorem roleOf_of_effect (h : GroupRoster.Effect g call g')
    (htransfer : ∀ p q, call ≠ .transferMaster p q) {q : PeerId} (hq : q ≠ target call) :
    g'.roleOf q = g.roleOf q := by
  cases h with
  | added => exact GroupRoster.roleOf_added.trans (if_neg hq)
  | removed => exact GroupRoster.roleOf_removed.trans (if_neg hq)
  | changed => exact GroupRoster.roleOf_setRole.trans (if_neg hq)
  | transferred => exact absurd rfl (htransfer _ _)

/-- **A call by somebody who is not the master** leaves the offices alone unless it oversteps. -/
theorem sameOffices_iff (hactor : g.roleOf call.actor ≠ some .master) :
    SameOffices g (g.apply call).2 ↔ ¬ Oversteps g call := by
  constructor
  · intro h hover
    cases call with
    | changeRole actor target' newRole =>
      have hrole := (h target' .admin (Or.inr rfl)).mpr hover.2.1
      rw [apply_of_oversteps hover, GroupRoster.roleOf_setRole, if_pos rfl, hover.2.1] at hrole
      have hadmin : newRole = .admin := Option.some.inj hrole
      subst hadmin
      exact hover.2.2.elim nofun nofun
    | addMember | removeMember | transferMaster => exact hover
  · intro h
    rcases hout : (g.apply call).1 with e | _
    · rw [GroupRoster.apply_of_error hout]
      exact .refl g
    have heffect : GroupRoster.Effect g call (g.apply call).2 :=
      GroupRoster.effect_of_ok (by rw [hout]; rfl)
    have htransfer : ∀ p q, call ≠ .transferMaster p q := by
      rintro p q rfl
      generalize (g.apply (.transferMaster p q)).2 = g' at heffect
      cases heffect with
      | transferred hmaster => exact hactor hmaster
    obtain ⟨actorRole, hrole, hbefore, hafter⟩ := (authorized_iff g call).mpr h hout htransfer
    have hnot : actorRole ≠ .master := fun he => hactor (hrole.trans (congrArg some he))
    exact sameOffices_of_other (fun q hq => roleOf_of_effect heffect htransfer hq)
      (hbefore.not_isOffice hnot) (hafter.not_isOffice hnot)

theorem SameOffices.trans_iff {g₀ : GroupRoster} (h : SameOffices g₀ g) :
    SameOffices g₀ g' ↔ SameOffices g g' :=
  forall₂_congr fun p r => imp_congr_right fun hr => by rw [h p r hr]

/-- **No escalation, exactly**: in every roster that calls lead to, every call is authorized if and
only if it is not an admin's demotion of an admin; and calls by those who are not the master leave the
offices to those who hold them if and only if there is no such demotion among them. -/
theorem no_escalation_iff (networkId : NetworkId) (creator : PeerId) (history : List Call) :
    let g := (GroupRoster.new networkId creator).perform history
    (∀ call, Authorized g call ↔ ¬ Oversteps g call) ∧
      ∀ calls, Always subordinateStep (SameOffices g) g calls ↔
        Meets subordinateStep (fun g call => ¬ Oversteps g call) g calls := by
  intro g
  refine ⟨authorized_iff g, fun calls => ?_⟩
  refine always_iff_meets (I := fun _ => True) (fun _ _ _ _ _ _ => trivial) ?_ ?_ trivial (.refl g)
  · intro s call s' _ hs hstep
    unfold subordinateStep at hstep
    split_ifs at hstep with hmaster
    cases hstep
    exact hs.trans_iff.trans (sameOffices_iff hmaster)
  · intro s call _ _ hnone hover
    unfold subordinateStep at hnone
    split_ifs at hnone with hmaster
    cases call with
    | changeRole => cases hover.1.symm.trans hmaster
    | addMember | removeMember | transferMaster => exact hover

/-- Two admins, of whom one demotes the other. -/
theorem admin_demotes_admin :
    let peer (n : UInt8) : PeerId := Vector.replicate 32 n
    let g := (GroupRoster.new (peer 0) (peer 1)).perform
      [.addMember (peer 1) (peer 2) .admin, .addMember (peer 1) (peer 3) .admin]
    let call := Call.changeRole (peer 2) (peer 3) .reader
    ¬ Authorized g call ∧ ¬ Always subordinateStep (SameOffices g) g [call] := by
  intro peer g call
  have hover : Oversteps g call := by decide +kernel
  have hactor : g.roleOf call.actor ≠ some .master := by decide +kernel
  refine ⟨fun h => (authorized_iff g call).mp h hover, fun h => ?_⟩
  exact (sameOffices_iff hactor).mp (h.2 _ (if_neg hactor)).head hover

end CncContent.Group.Privileges
