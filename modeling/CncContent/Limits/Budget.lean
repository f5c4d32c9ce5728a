import CncContent.Lib.Bounded
import CncContent.Lib.Maps
import CncContent.Lib.Runs

/-! # Connection budgets

`ConnectionBudget` of the source counts the established connections, altogether and for each peer, and
the pending ones. The two counts of established connections agree until a connection is released of a
peer that has none, while others have some: the release is then taken off the overall count only
(`budget_sound_iff`). The source documents that such a release does nothing. -/

namespace CncContent.Limits.Budget

open CncContent.Lib.Bounded CncContent.Lib.Maps CncContent.Lib.Runs

inductive BudgetExceeded
  | totalEstablished (limit : ℕ)
  | perPeer (peer : String) (limit : ℕ)
  | totalPending (limit : ℕ)
deriving DecidableEq, Repr

/-- A count of a peer is below `maxPerPeer` when it is increased, so that it does not overflow. -/
structure ConnectionBudget where
  maxEstablished : ℕ
  maxPerPeer : ℕ
  maxPending : ℕ
  currentEstablished : ℕ
  currentPending : ℕ
  perPeerCounts : Table String ℕ
deriving DecidableEq

namespace ConnectionBudget

def new (maxEstablished maxPending maxPerPeer : UInt32) : ConnectionBudget :=
  ⟨maxEstablished.toNat, maxPerPeer.toNat, maxPending.toNat, 0, 0, .empty⟩

variable (b : ConnectionBudget)

def peerCount (peerId : String) : ℕ := (b.perPeerCounts.get? peerId).getD 0

def tryAcquireEstablishedChecked (peerId : String) :
    Except BudgetExceeded Unit × ConnectionBudget :=
  if b.maxEstablished ≤ b.currentEstablished then
    (.error (.totalEstablished b.maxEstablished), b)
  else if b.maxPerPeer ≤ b.peerCount peerId then (.error (.perPeer peerId b.maxPerPeer), b)
  else (.ok (), { b with
    currentEstablished := satAdd u32Max b.currentEstablished 1
    perPeerCounts := b.perPeerCounts.alter peerId fun count => count.getD 0 + 1 })

def tryAcquireEstablished (peerId : String) : Bool × ConnectionBudget :=
  ((b.tryAcquireEstablishedChecked peerId).1.isOk, (b.tryAcquireEstablishedChecked peerId).2)

/-- One connection of the peer less; a peer without connections is forgotten. -/
def lessOne (counts : Table String ℕ) (peerId : String) : Table String ℕ :=
  match counts.get? peerId with
  | none => counts
  | some count => if count - 1 = 0 then counts.erase peerId else counts.alter peerId fun _ => count - 1

def releaseEstablished (peerId : String) : ConnectionBudget :=
  { b with
    currentEstablished := b.currentEstablished - 1
    perPeerCounts := lessOne b.perPeerCounts peerId }

def tryAcquirePending : Bool × ConnectionBudget :=
  if b.maxPending ≤ b.currentPending then (false, b)
  else (true, { b with currentPending := satAdd u32Max b.currentPending 1 })

def releasePending : ConnectionBudget := { b with currentPending := b.currentPending - 1 }

def promoteToEstablished (peerId : String) : Bool × ConnectionBudget :=
  b.releasePending.tryAcquireEstablished peerId

end ConnectionBudget

/-! ### Calls -/

inductive Call
  | tryAcquireEstablished (peerId : String)
  | releaseEstablished (peerId : String)
  | tryAcquirePending
  | releasePending
  | promoteToEstablished (peerId : String)
deriving DecidableEq, Repr

open ConnectionBudget

/-- The budget after a call. -/
def apply (b : ConnectionBudget) : Call → ConnectionBudget
  | .tryAcquireEstablished peerId => (b.tryAcquireEstablished peerId).2
  | .releaseEstablished peerId => b.releaseEstablished peerId
  | .tryAcquirePending => b.tryAcquirePending.2
  | .releasePending => b.releasePending
  | .promoteToEstablished peerId => (b.promoteToEstablished peerId).2

def step (b : ConnectionBudget) (call : Call) : Option ConnectionBudget := some (apply b call)

/-- The counts agree and are within the limits. -/
structure Sound (b : ConnectionBudget) : Prop where
  total : b.currentEstablished = b.perPeerCounts.total
  established : b.currentEstablished ≤ b.maxEstablished
  counts : ∀ p n, b.perPeerCounts.get? p = some n → 1 ≤ n ∧ n ≤ b.maxPerPeer
  pending : b.currentPending ≤ b.maxPending

/-- A release for a peer without connections, while there are connections. -/
def StrayRelease (b : ConnectionBudget) : Call → Prop
  | .releaseEstablished peerId => b.perPeerCounts.get? peerId = none ∧ 0 < b.currentEstablished
  | _ => False

instance (b : ConnectionBudget) : ∀ call, Decidable (StrayRelease b call)
  | .releaseEstablished _ => inferInstanceAs (Decidable (_ ∧ _))
  | .tryAcquireEstablished _ | .tryAcquirePending | .releasePending | .promoteToEstablished _ =>
    inferInstanceAs (Decidable False)

/-- The limit is one of 32 bits. -/
def Bounded (b : ConnectionBudget) : Prop := b.maxEstablished ≤ u32Max

variable {b : ConnectionBudget}

theorem Sound.tryAcquireEstablished (hb : Bounded b) (hs : Sound b) (peerId : String) :
    Sound (b.tryAcquireEstablished peerId).2 := by
  change Sound (b.tryAcquireEstablishedChecked peerId).2
  unfold tryAcquireEstablishedChecked
  split_ifs with htotal hpeer
  · exact hs
  · exact hs
  have htotals := hs.total
  have hexact : satAdd u32Max b.currentEstablished 1 = b.currentEstablished + 1 :=
    satAdd_of_le (Nat.le_trans (Nat.lt_of_not_le htotal) hb)
  have hsum := Table.total_alter (t := b.perPeerCounts) (k := peerId) (f := fun c => c.getD 0 + 1)
  refine ⟨?_, ?_, fun p n hn => ?_, hs.pending⟩
  · change satAdd u32Max b.currentEstablished 1 =
      (b.perPeerCounts.alter peerId fun c => c.getD 0 + 1).total
    omega
  · change satAdd u32Max b.currentEstablished 1 ≤ b.maxEstablished
    omega
  · dsimp only at hn
    rw [Table.get?_alter] at hn
    split_ifs at hn with hp
    · cases hn
      exact ⟨Nat.succ_pos _, Nat.lt_of_not_le hpeer⟩
    · exact hs.counts p n hn

theorem total_lessOne {counts : Table String ℕ} {p : String} {n : ℕ} (hp : counts.get? p = some n)
    (hn : 1 ≤ n) : (lessOne counts p).total + 1 = counts.total := by
  unfold lessOne
  rw [hp]
  dsimp only
  split_ifs with hlast
  · have hsum := Table.total_erase (t := counts) (k := p)
    rw [hp, Option.getD_some] at hsum
    omega
  · have hsum := Table.total_alter (t := counts) (k := p) (f := fun _ => n - 1)
    rw [hp, Option.getD_some] at hsum
    omega

theorem get?_lessOne {counts : Table String ℕ} {p q : String} {n : ℕ}
    (h : (lessOne counts p).get? q = some n) :
    counts.get? q = some n ∨ 1 ≤ n ∧ counts.get? q = some (n + 1) := by
  unfold lessOne at h
  split at h
  case h_1 => exact Or.inl h
  case h_2 count hp =>
    split_ifs at h with hlast
    · rw [Table.get?_erase] at h
      split_ifs at h
      exact Or.inl h
    · rw [Table.get?_alter] at h
      split_ifs at h with hq
      · subst hq
        cases h
        refine Or.inr ⟨Nat.one_le_iff_ne_zero.mpr hlast, hp.trans (congrArg some ?_)⟩
        omega
      · exact Or.inl h

/-- The release of a connection that is there. -/
theorem Sound.releaseEstablished (hs : Sound b) {peerId : String} {n : ℕ}
    (hp : b.perPeerCounts.get? peerId = some n) : Sound (b.releaseEstablished peerId) := by
  have htotals := hs.total
  have hless := total_lessOne hp (hs.counts peerId n hp).1
  refine ⟨?_, Nat.le_trans (Nat.sub_le _ _) hs.established, fun q m hm => ?_, hs.pending⟩
  · change b.currentEstablished - 1 = (lessOne b.perPeerCounts peerId).total
    omega
  · change 1 ≤ m ∧ m ≤ b.maxPerPeer
    rcases get?_lessOne hm with hm | ⟨hpos, hm⟩
    · exact hs.counts q m hm
    · exact ⟨hpos, Nat.le_of_succ_le (hs.counts q (m + 1) hm).2⟩

/-- The release of a connection that is not there changes the overall count only. -/
theorem releaseEstablished_of_none {peerId : String} (hp : b.perPeerCounts.get? peerId = none) :
    b.releaseEstablished peerId = { b with currentEstablished := b.currentEstablished - 1 } := by
  unfold releaseEstablished lessOne
  rw [hp]

/-- **A release for a peer without connections** changes nothing only if nobody has any. -/
theorem releaseEstablished_eq_self_iff {peerId : String}
    (hp : b.perPeerCounts.get? peerId = none) :
    b.releaseEstablished peerId = b ↔ b.currentEstablished = 0 := by
  rw [releaseEstablished_of_none hp]
  constructor
  · intro h
    have hcount : b.currentEstablished - 1 = b.currentEstablished :=
      congrArg ConnectionBudget.currentEstablished h
    omega
  · intro h
    rw [h]
    obtain ⟨_, _, _, _, _, _⟩ := b
    cases h
    rfl

theorem Sound.releasePending (hs : Sound b) : Sound b.releasePending :=
  { hs with pending := Nat.le_trans (Nat.sub_le _ _) hs.pending }

theorem Sound.tryAcquirePending (hs : Sound b) : Sound b.tryAcquirePending.2 := by
  unfold ConnectionBudget.tryAcquirePending
  split_ifs with hfull
  · exact hs
  · exact { hs with pending := Nat.le_trans (Nat.min_le_left _ _) (Nat.lt_of_not_le hfull) }

/-- **A call keeps the counts in order** unless it is a stray release. -/
theorem sound_apply_iff (hb : Bounded b) (hs : Sound b) (call : Call) :
    Sound (apply b call) ↔ ¬ StrayRelease b call := by
  cases call with
  | tryAcquireEstablished p => exact iff_of_true (hs.tryAcquireEstablished hb p) id
  | tryAcquirePending => exact iff_of_true hs.tryAcquirePending id
  | releasePending => exact iff_of_true hs.releasePending id
  | promoteToEstablished p =>
    have hpending : Bounded b.releasePending := hb
    exact iff_of_true (hs.releasePending.tryAcquireEstablished hpending p) id
  | releaseEstablished p =>
    rcases hp : b.perPeerCounts.get? p with _ | n
    · have hstray : StrayRelease b (.releaseEstablished p) ↔ 0 < b.currentEstablished :=
        and_iff_right hp
      rw [hstray]
      constructor
      · intro h hpos
        have htotal := h.total
        rw [apply, releaseEstablished_of_none hp] at htotal
        have hbefore := hs.total
        dsimp only at htotal
        omega
      · intro h
        have hsame := (releaseEstablished_eq_self_iff hp).mpr (Nat.eq_zero_of_not_pos h)
        rw [apply, hsame]
        exact hs
    · refine iff_of_true (hs.releaseEstablished hp) fun h => ?_
      cases h.1.symm.trans hp

theorem maxEstablished_apply (b : ConnectionBudget) (call : Call) :
    (apply b call).maxEstablished = b.maxEstablished := by
  have hacquire : ∀ (b : ConnectionBudget) p,
      (b.tryAcquireEstablished p).2.maxEstablished = b.maxEstablished := by
    intro b p
    change (b.tryAcquireEstablishedChecked p).2.maxEstablished = _
    unfold tryAcquireEstablishedChecked
    split_ifs <;> rfl
  cases call with
  | tryAcquireEstablished p => exact hacquire b p
  | promoteToEstablished p => exact hacquire _ p
  | tryAcquirePending =>
    rw [apply, ConnectionBudget.tryAcquirePending]
    split_ifs <;> rfl
  | releaseEstablished | releasePending => rfl

theorem sound_new (maxEstablished maxPending maxPerPeer : UInt32) :
    Sound (new maxEstablished maxPending maxPerPeer) :=
  ⟨rfl, Nat.zero_le _, nofun, Nat.zero_le _⟩

/-- **Budgets, exactly**: the counts agree and are within the limits in every state of a run if and
only if no connection is released of a peer without connections while others have some; and such a
release changes nothing if and only if nobody has any. -/
theorem budget_sound_iff (maxEstablished maxPending maxPerPeer : UInt32) (calls : List Call) :
    (Always step Sound (new maxEstablished maxPending maxPerPeer) calls ↔
      Meets step (fun b call => ¬ StrayRelease b call) (new maxEstablished maxPending maxPerPeer)
        calls) ∧
      ∀ (b : ConnectionBudget) p, b.perPeerCounts.get? p = none →
        (b.releaseEstablished p = b ↔ b.currentEstablished = 0) := by
  refine ⟨?_, fun b p hp => releaseEstablished_eq_self_iff hp⟩
  refine always_iff_meets (I := Bounded) ?_ ?_ nofun ?_ (sound_new _ _ _)
  · rintro b call _ hb - ⟨⟩
    exact Nat.le_trans (Nat.le_of_eq (maxEstablished_apply b call)) hb
  · rintro b call _ hb hs ⟨⟩
    exact sound_apply_iff hb hs call
  · exact Nat.le_of_lt_succ (UInt32.toNat_lt _)

/-- Two connections of one peer, and a release for another one. -/
theorem stray_release :
    let calls : List Call := [.tryAcquireEstablished "a", .tryAcquireEstablished "a",
      .releaseEstablished "b"]
    ¬ Always step Sound (new 2 1 2) calls ∧ run step (new 2 1 2) calls =
      some ⟨2, 2, 1, 1, 0, Table.empty.alter "a" fun _ => 2⟩ := by
  intro calls
  have hrun : run step (new 2 1 2) calls =
      some ⟨2, 2, 1, 1, 0, Table.empty.alter "a" fun _ => 2⟩ := by decide +kernel
  refine ⟨fun h => ?_, hrun⟩
  have htotal := (h.last hrun).total
  revert htotal
  decide

end CncContent.Limits.Budget
