import CncContent.Lib.Runs
import CncContent.Peers.Scores

/-! # Lifetime counters

Sessions are chained by their reputations: each one starts from those of the session before and adds
to them. A peer that takes part in all of them is counted right if its lifetime counter is the number
of its successes (`Counted`). The preset of a restored reputation is counted as if it had been served
in the session, so that the counter is right exactly as long as no preset adds to it
(`counted_iff_not_inflated`). -/

namespace CncContent.Peers.Lifetimes

open CncContent.Lib.Bounded CncContent.Lib.Runs CncContent.Peers.Tracker CncContent.Peers.Scores

/-! ### Sessions -/

/-- A session: who registers, and what is recorded afterwards, by peer index. -/
structure Session where
  peerCount : ℕ
  start : ℕ
  registrations : List (ℕ × PeerId)
  events : List (ℕ × PeerEvent)
  nowUnixSecs : ℕ

namespace Session

variable (s : Session)

/-- The tracker when all peers have registered. -/
def registered (prior : List PeerReputation) : PeerTracker :=
  s.registrations.foldl (fun t r => t.registerIdentity r.1 r.2)
    (.withPriorReputation s.peerCount s.start prior)

/-- The tracker at the end of the session. -/
def final (prior : List PeerReputation) : PeerTracker :=
  s.events.foldl (fun t e => t.record e.1 e.2) (s.registered prior)

/-- The reputations after the session. -/
def snapshot (prior : List PeerReputation) : List PeerReputation :=
  (s.final prior).snapshotReputations s.nowUnixSecs prior

end Session

def PeerEvent.isSuccess : PeerEvent → Bool
  | .success _ _ _ => true
  | _ => false

/-- A session in which the peer takes part, under one index. -/
structure Visit (id : PeerId) where
  session : Session
  index : ℕ
  index_lt : index < session.peerCount
  /-- The identity as it is registered. -/
  as : PeerId
  as_eq : as.eq id = true
  registered : ∃ before after, session.registrations = before ++ (index, as) :: after ∧
    ∀ r ∈ before ++ after, r.1 ≠ index ∧ r.2.eq id = false

/-- The successes of the peer. -/
def Visit.successes {id : PeerId} (v : Visit id) : ℕ :=
  v.session.events.countP fun e => e.1 = v.index ∧ PeerEvent.isSuccess e.2

/-- The lifetime counter in the reputations. -/
def lifetime (reputations : List PeerReputation) (id : PeerId) : ℕ :=
  ((findReputation reputations id).map (·.lifetimePiecesServed)).getD 0

/-- The pieces `register_identity` presets as served. -/
def preset (reputations : List PeerReputation) (id : PeerId) : ℕ :=
  match findReputation reputations id with
  | some rep => if rep.banned then 0 else rep.trustLevel.threshold
  | none => 0

/-! ### One session -/

theorem PeerId.eq_iff {a b : PeerId} : a.eq b = true ↔ a.bytes = b.bytes := beq_iff_eq

/-- Equal identities have the same reputation. -/
theorem findReputation_congr {a b : PeerId} (h : a.eq b = true) (l : List PeerReputation) :
    findReputation l a = findReputation l b := by
  unfold findReputation PeerId.eq
  rw [PeerId.eq_iff.mp h]

section Registering

variable {id : PeerId} {index : ℕ}

/-- Registrations of other peers leave the peer alone. -/
theorem foldl_register_of_ne {l : List (ℕ × PeerId)} (h : ∀ r ∈ l, r.1 ≠ index) (t : PeerTracker) :
    let t' := l.foldl (fun t r => t.registerIdentity r.1 r.2) t
    t'.priorReputations = t.priorReputations ∧ t'.stats[index]? = t.stats[index]? ∧
      t'.identities[index]? = t.identities[index]? := by
  induction l generalizing t with
  | nil => exact ⟨rfl, rfl, rfl⟩
  | cons r l ih =>
    have hne := h r List.mem_cons_self
    obtain ⟨hprior, hstats, hids⟩ :=
      ih (fun r hr => h r (List.mem_cons_of_mem _ hr)) (t.registerIdentity r.1 r.2)
    refine ⟨hprior, hstats.trans ?_, hids.trans (List.getElem?_set_ne hne)⟩
    unfold PeerTracker.registerIdentity
    dsimp only
    cases findReputation t.priorReputations r.2 with
    | none => rfl
    | some rep => exact List.getElem?_modify_ne _ _ hne

/-- Nobody registers as the peer in such registrations. -/
theorem foldl_register_foreign {l : List (ℕ × PeerId)} (h : ∀ r ∈ l, r.2.eq id = false)
    (t : PeerTracker) (j : ℕ) (other : PeerId)
    (hj : (l.foldl (fun t r => t.registerIdentity r.1 r.2) t).identities[j]? = some (some other)) :
    other.eq id = false ∨ t.identities[j]? = some (some other) := by
  induction l generalizing t with
  | nil => exact Or.inr hj
  | cons r l ih =>
    rcases ih (fun r hr => h r (List.mem_cons_of_mem _ hr)) _ hj with hne | hin
    · exact Or.inl hne
    · change (t.identities.set r.1 (some r.2))[j]? = _ at hin
      rw [List.getElem?_set] at hin
      split_ifs at hin with hrj hlt
      · cases hin
        exact Or.inl (h r List.mem_cons_self)
      · exact Or.inr hin

end Registering

section Visits

variable {id : PeerId} (v : Visit id) (prior : List PeerReputation)

/-- Registering a peer that has served nothing. -/
theorem register_self {t : PeerTracker} {index : ℕ} {st : PeerStats} {o : Option PeerId}
    (as : PeerId) (hst : t.stats[index]? = some st) (hserved : st.piecesServed = 0)
    (ho : t.identities[index]? = some o) : ∃ st',
      (t.registerIdentity index as).stats[index]? = some st' ∧
      st'.piecesServed = preset t.priorReputations as ∧
      (t.registerIdentity index as).identities[index]? = some (some as) := by
  have hid : (t.registerIdentity index as).identities[index]? = some (some as) :=
    List.getElem?_set_self (List.getElem?_eq_some_iff.mp ho).1
  unfold PeerTracker.registerIdentity preset at *
  cases findReputation t.priorReputations as with
  | none => exact ⟨st, hst, hserved, hid⟩
  | some rep =>
    refine ⟨rep.restore st, ?_, ?_, hid⟩
    · dsimp only
      rw [List.getElem?_modify_eq, hst]
      rfl
    · rw [(restore_counts rep st).2, hserved]

/-- **The peer after the registrations**: it starts with the preset, and its identity is that of its
index only. -/
theorem Visit.after_registrations : ∃ st,
    (v.session.registered prior).stats[v.index]? = some st ∧ st.piecesServed = preset prior id ∧
    (v.session.registered prior).identities[v.index]? = some (some v.as) ∧
    ∀ j other, j ≠ v.index →
      (v.session.registered prior).identities[j]? = some (some other) → other.eq id = false := by
  obtain ⟨before, after, hregs, hothers⟩ := v.registered
  set t₀ := PeerTracker.withPriorReputation v.session.peerCount v.session.start prior
  set t₁ := before.foldl (fun t r => t.registerIdentity r.1 r.2) t₀
  set t₂ := t₁.registerIdentity v.index v.as
  have hfinal : v.session.registered prior =
      after.foldl (fun t r => t.registerIdentity r.1 r.2) t₂ := by
    unfold Session.registered
    rw [hregs, List.foldl_append, List.foldl_cons]
  have hbefore := fun r hr => hothers r (List.mem_append_left after hr)
  have hafter := fun r hr => hothers r (List.mem_append_right before hr)
  obtain ⟨hp₁, hs₁, hi₁⟩ := foldl_register_of_ne (fun r hr => (hbefore r hr).1) t₀
  obtain ⟨-, hs₂, hi₂⟩ := foldl_register_of_ne (fun r hr => (hafter r hr).1) t₂
  have hs₀ : t₀.stats[v.index]? = some (PeerStats.new v.session.start) :=
    List.getElem?_replicate_of_lt v.index_lt
  have hi₀ : t₀.identities[v.index]? = some none := List.getElem?_replicate_of_lt v.index_lt
  obtain ⟨st, hst, hserved, hset⟩ :=
    register_self v.as (hs₁.trans hs₀) rfl (hi₁.trans hi₀)
  have hpreset : preset t₁.priorReputations v.as = preset prior id := by
    unfold preset
    rw [hp₁, findReputation_congr v.as_eq]
    rfl
  rw [hfinal]
  refine ⟨st, hs₂.trans hst, hserved.trans hpreset, hi₂.trans hset, fun j other hj hother => ?_⟩
  rcases foldl_register_foreign (fun r hr => (hafter r hr).2) t₂ j other hother with hne | hin
  · exact hne
  · have hin' : t₁.identities[j]? = some (some other) :=
      (List.getElem?_set_ne (Ne.symm hj)).symm.trans hin
    rcases foldl_register_foreign (fun r hr => (hbefore r hr).2) t₀ j other hin' with hne | hin₀
    · exact hne
    · have hnone := List.eq_of_mem_replicate (List.mem_of_getElem? hin₀)
      cases hnone

/-- An event adds one served piece if it is a success. -/
theorem piecesServed_record {st : PeerStats} (hu : st.piecesServed ≤ u32Max) (e : PeerEvent) :
    (st.record e).piecesServed =
      satAdd u32Max st.piecesServed (if PeerEvent.isSuccess e then 1 else 0) := by
  cases e with
  | success bytes fetchDuration now => rfl
  | failure now => exact (Nat.min_eq_left hu).symm
  | corruption now => exact (Nat.min_eq_left hu).symm
  | timeout now => exact (Nat.min_eq_left hu).symm
  | rejection reason now => exact (Nat.min_eq_left hu).symm

/-- **The events** add the successes of the peer to what it has served. -/
theorem foldl_record {index : ℕ} (l : List (ℕ × PeerEvent)) {t : PeerTracker} {st : PeerStats}
    (hst : t.stats[index]? = some st) (hu : st.piecesServed ≤ u32Max) :
    let t' := l.foldl (fun t e => t.record e.1 e.2) t
    t'.identities = t.identities ∧ ∃ st', t'.stats[index]? = some st' ∧ st'.piecesServed =
      satAdd u32Max st.piecesServed
        (l.countP fun e => e.1 = index ∧ PeerEvent.isSuccess e.2) := by
  induction l generalizing t st with
  | nil =>
    refine ⟨rfl, st, hst, ?_⟩
    exact (Nat.min_eq_left hu).symm
  | cons e l ih =>
    obtain ⟨i, e⟩ := e
    rw [List.countP_cons]
    by_cases hi : i = index
    · subst hi
      have hst' : (t.record i e).stats[i]? = some (st.record e) := by
        unfold PeerTracker.record
        dsimp only
        rw [List.getElem?_modify_eq, hst]
        rfl
      have hserved := piecesServed_record hu e
      obtain ⟨hids, st', hlast, hcount⟩ := ih hst' (by rw [hserved]; exact Nat.min_le_right _ _)
      refine ⟨hids, st', hlast, hcount.trans ?_⟩
      rw [hserved]
      simp only [true_and, decide_eq_true_eq]
      unfold satAdd
      split_ifs <;> omega
    · have hst' : (t.record i e).stats[index]? = some st :=
        (List.getElem?_modify_ne _ _ hi).trans hst
      obtain ⟨hids, st', hlast, hcount⟩ := ih hst' hu
      refine ⟨hids, st', hlast, hcount.trans ?_⟩
      simp [hi]

/-- The reputation of a peer whose identity is that of its index only. -/
theorem findReputation_snapshot {t : PeerTracker} {index : ℕ} {st : PeerStats} {as : PeerId}
    (hst : t.stats[index]? = some st) (hid : t.identities[index]? = some (some as))
    (has : as.eq id = true)
    (hothers : ∀ j other, j ≠ index → t.identities[j]? = some (some other) → other.eq id = false)
    (nowUnixSecs : ℕ) : findReputation (t.snapshotReputations nowUnixSecs prior) id =
      some (st.toReputation as nowUnixSecs (findReputation prior as)) := by
  have hzip : (t.stats.zip t.identities)[index]? = some (st, some as) :=
    List.getElem?_zip_eq_some.mpr ⟨hst, hid⟩
  unfold findReputation PeerTracker.snapshotReputations
  rw [List.find?_filterMap]
  have hfind : (t.stats.zip t.identities).find? (fun a =>
      (a.2.map fun id => a.1.toReputation id nowUnixSecs (findReputation prior id)).any
        fun r => r.peerId.eq id) = some (st, some as) := by
    obtain ⟨hlt, hget⟩ := List.getElem?_eq_some_iff.mp hzip
    refine List.find?_eq_some_iff_getElem.mpr ⟨has, index, hlt, hget, fun j hj => ?_⟩
    rcases ho : (t.stats.zip t.identities)[j].2 with _ | other
    · rfl
    · have hjo : t.identities[j]? = some (some other) := by
        have hpair := List.getElem?_eq_getElem (Nat.lt_trans hj hlt)
        exact (List.getElem?_zip_eq_some (z := ((t.stats.zip t.identities)[j].1, some other)).mp
          (hpair.trans (by rw [← ho]))).2
      have hne : other.eq id = false := hothers j other (Nat.ne_of_lt hj) hjo
      show (!other.eq id) = true
      rw [hne]
      rfl
  rw [hfind]
  rfl

/-- **A session** adds the preset and the successes to the lifetime counter. -/
theorem Visit.lifetime_snapshot : lifetime (v.session.snapshot prior) id =
    satAdd u64Max (lifetime prior id) (satAdd u32Max (preset prior id) v.successes) := by
  obtain ⟨st, hst, hserved, hid, hothers⟩ := v.after_registrations prior
  have hu : st.piecesServed ≤ u32Max := by
    rw [hserved]
    unfold preset
    rcases findReputation prior id with _ | rep
    · exact Nat.zero_le _
    · dsimp only
      split_ifs
      · exact Nat.zero_le _
      · cases rep.trustLevel <;> decide
  obtain ⟨hids, st', hst', hcount⟩ := foldl_record v.session.events hst hu
  have hfound := findReputation_snapshot (t := v.session.final prior) prior hst'
    ((congrArg (·[v.index]?) hids).trans hid) v.as_eq
    (fun j other hj hjo => hothers j other hj ((congrArg (·[j]?) hids).symm.trans hjo))
    v.session.nowUnixSecs
  unfold lifetime Session.snapshot
  rw [hfound, ← findReputation_congr v.as_eq prior, ← hserved]
  exact congrArg (satAdd u64Max _) hcount

end Visits

/-! ### Chained sessions -/

/-- The reputations after some sessions, and the number of successes in them, saturating like the
counters. -/
structure Ledger where
  reputations : List PeerReputation
  total : ℕ

/-- A session more, which starts from the reputations of the one before. -/
def visit {id : PeerId} (l : Ledger) (v : Visit id) : Option Ledger :=
  some ⟨v.session.snapshot l.reputations,
    satAdd u64Max l.total (satAdd u32Max 0 v.successes)⟩

/-- The lifetime counter is the number of successes. -/
def Counted (id : PeerId) (l : Ledger) : Prop := lifetime l.reputations id = l.total

/-- The preset adds nothing to the lifetime counter. -/
def NotInflated {id : PeerId} (l : Ledger) (v : Visit id) : Prop :=
  preset l.reputations id = 0 ∨ u32Max ≤ v.successes ∨ u64Max ≤ l.total + v.successes

theorem counted_visit_iff {id : PeerId} {l l' : Ledger} {v : Visit id} (h : Counted id l)
    (hv : visit l v = some l') : Counted id l' ↔ NotInflated l v := by
  cases hv
  unfold Counted NotInflated at *
  rw [v.lifetime_snapshot, h]
  unfold satAdd
  dsimp only
  omega

/-- **When the lifetime counter is right** after each of any number of sessions: exactly if no preset
adds to it. -/
theorem counted_iff_not_inflated (id : PeerId) (visits : List (Visit id)) :
    Always visit (Counted id) ⟨[], 0⟩ visits ↔ Meets visit NotInflated ⟨[], 0⟩ visits :=
  always_iff_meets (I := fun _ => True) (fun _ _ _ _ _ _ => trivial)
    (fun _ _ _ _ h hv => counted_visit_iff h hv) (fun _ _ _ _ hv => nomatch hv) trivial rfl

/-! ### Two sessions -/

/-- A session with one peer, in which it serves so many pieces. -/
def servingSession (pieces : ℕ) : Visit returningId where
  session := ⟨1, 0, [(0, returningId)], List.replicate pieces (0, .success 1000 1000 0), 0⟩
  index := 0
  index_lt := Nat.one_pos
  as := returningId
  as_eq := rfl
  registered := ⟨[], [], rfl, nofun⟩

/-- **A preset is counted**: after three pieces in one session and one in the next, the lifetime
counter is seven. -/
theorem preset_inflates : ∃ l, run visit ⟨[], 0⟩ [servingSession 3, servingSession 1] = some l ∧
    l.total = 4 ∧ lifetime l.reputations returningId = 7 :=
  ⟨_, rfl, rfl, rfl⟩

end CncContent.Peers.Lifetimes
