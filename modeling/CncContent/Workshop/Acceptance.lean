import CncContent.Workshop.Validator
import Mathlib.Data.List.Chain
import Mathlib.Data.List.Nodup

/-! # What is accepted

In every run of a validator whose times do not decrease, what it accepts is genuine, its sequences
grow by steps of bounded size, nothing is accepted twice, and no time window holds more than the
limit of one publisher (`accepted_sound`). The log of a publisher is the times of what was accepted,
as far as they are recent (`Inv.entry`). -/

namespace CncContent.Workshop.Acceptance

open CncContent.Lib.Bytes CncContent.Workshop.Resource CncContent.Workshop.Announcement CncContent.Workshop.Validator

/-- A run so far: its calls with what they returned. -/
abbrev History := List (Call × Except WorkshopError Unit)

/-- What was accepted, and when. -/
def accepted (history : History) : List (VersionAnnouncement × ℕ) :=
  history.filterMap fun
    | (.validate a nowSecs, .ok ()) => some (a, nowSecs)
    | _ => none

/-- What sequences are tracked by. -/
def key (a : VersionAnnouncement) : PublisherId × ResourceId := (a.publisherId, a.resource)

/-- The accepted sequences of a publisher and a resource. -/
def sequences (k : PublisherId × ResourceId) (history : History) : List ℕ :=
  ((accepted history).filter fun x => key x.1 = k).map fun x => x.1.sequence.toNat

/-- The times when announcements of a publisher were accepted. -/
def times (p : PublisherId) (history : History) : List ℕ :=
  ((accepted history).filter fun x => x.1.publisherId = p).map Prod.snd

/-- One sequence after another. -/
def Grows (jump m n : ℕ) : Prop := m < n ∧ n ≤ m + jump

/-- **What holds of the accepted announcements** of a run. -/
structure Sound (v : AnnouncementValidator) (history : History) : Prop where
  genuine : ∀ before a nowSecs, before ++ [(.validate a nowSecs, .ok ())] <+: history →
    (∀ reason r, (.revoke a.publisherId reason, r) ∉ before) ∧
    v.verifier a.publisherId a.canonicalBytes a.signature = true ∧
    a.timestamp.toNat ≤ nowSecs + v.maxClockDriftSecs
  grows : ∀ k, (sequences k history).IsChain (Grows v.maxSequenceJump)
  once : ((accepted history).map Prod.fst).Nodup
  rate : ∀ p start, (times p history).countP
    (fun t => decide (start ≤ t ∧ t ≤ start + v.rateLimit.windowSecs)) ≤ v.rateLimit.maxCount

/-- The validator agrees with the run so far; `v₀` has its configuration. -/
structure Inv (v₀ v : AnnouncementValidator) (clock : ℕ) (history : History) : Prop where
  verifier : v.verifier = v₀.verifier
  maxClockDriftSecs : v.maxClockDriftSecs = v₀.maxClockDriftSecs
  maxSequenceJump : v.maxSequenceJump = v₀.maxSequenceJump
  rateLimit : v.rateLimit = v₀.rateLimit
  known : ∀ k, v.knownSequences k = (sequences k history).getLast?
  positive : ∀ k, ∀ n ∈ sequences k history, 0 < n
  revoked : ∀ p reason r, (.revoke p reason, r) ∈ history → p ∈ v.revokedPublishers
  entry : ∀ p, recent (clock - v₀.rateLimit.windowSecs) (v.entry p) =
    recent (clock - v₀.rateLimit.windowSecs) (times p history)
  past : ∀ p, ∀ t ∈ times p history, t ≤ clock

/-! ### One call more -/

section Append

variable {history : History} {c : Call} {r : Except WorkshopError Unit}

theorem accepted_append (history later : History) :
    accepted (history ++ later) = accepted history ++ accepted later :=
  List.filterMap_append

theorem sequences_append (k : PublisherId × ResourceId) (history later : History) :
    sequences k (history ++ later) = sequences k history ++ sequences k later := by
  unfold sequences
  rw [accepted_append, List.filter_append, List.map_append]

theorem times_append (p : PublisherId) (history later : History) :
    times p (history ++ later) = times p history ++ times p later := by
  unfold times
  rw [accepted_append, List.filter_append, List.map_append]

/-- A call that accepts nothing. -/
theorem accepted_singleton_of_refused (h : ∀ a nowSecs, (c, r) ≠ (.validate a nowSecs, .ok ())) :
    accepted [(c, r)] = [] := by
  unfold accepted
  rcases c with ⟨a, nowSecs⟩ | ⟨p, reason⟩
  · rcases r with e | u
    · rfl
    · exact absurd rfl (h a nowSecs)
  · rfl

theorem accepted_concat_of_refused (h : ∀ a nowSecs, (c, r) ≠ (.validate a nowSecs, .ok ())) :
    accepted (history ++ [(c, r)]) = accepted history := by
  rw [accepted_append, accepted_singleton_of_refused h, List.append_nil]

theorem sequences_concat_of_refused (h : ∀ a nowSecs, (c, r) ≠ (.validate a nowSecs, .ok ()))
    (k : PublisherId × ResourceId) : sequences k (history ++ [(c, r)]) = sequences k history := by
  unfold sequences
  rw [accepted_concat_of_refused h]

theorem times_concat_of_refused (h : ∀ a nowSecs, (c, r) ≠ (.validate a nowSecs, .ok ()))
    (p : PublisherId) : times p (history ++ [(c, r)]) = times p history := by
  unfold times
  rw [accepted_concat_of_refused h]

theorem sequences_accept (k : PublisherId × ResourceId) (a : VersionAnnouncement) (nowSecs : ℕ) :
    sequences k (history ++ [(.validate a nowSecs, .ok ())]) =
      sequences k history ++ if key a = k then [a.sequence.toNat] else [] := by
  rw [sequences_append]
  unfold sequences accepted
  simp only [List.filterMap_cons, List.filterMap_nil, List.filter_cons, List.filter_nil]
  by_cases hk : key a = k
  · simp [hk]
  · simp [hk]

theorem times_accept (p : PublisherId) (a : VersionAnnouncement) (nowSecs : ℕ) :
    times p (history ++ [(.validate a nowSecs, .ok ())]) =
      times p history ++ if a.publisherId = p then [nowSecs] else [] := by
  rw [times_append]
  unfold times accepted
  simp only [List.filterMap_cons, List.filterMap_nil, List.filter_cons, List.filter_nil]
  by_cases hp : a.publisherId = p
  · simp [hp]
  · simp [hp]

end Append

variable {v₀ v v' : AnnouncementValidator} {clock nowSecs : ℕ} {history : History}
  {a : VersionAnnouncement}

section Invariant

/-- Before the first call. -/
theorem inv_new (hseq : v.knownSequences = fun _ => none) (hlog : v.rateLimitLog = fun _ => none) :
    Inv v v 0 [] where
  verifier := rfl
  maxClockDriftSecs := rfl
  maxSequenceJump := rfl
  rateLimit := rfl
  known k := by rw [hseq]; rfl
  positive _ _ := nofun
  revoked _ _ _ := nofun
  entry p := by unfold AnnouncementValidator.entry; rw [hlog]; rfl
  past _ _ := nofun

/-- The log within the window of a call. -/
theorem Inv.log (h : Inv v₀ v clock history) (hclock : clock ≤ nowSecs) (p : PublisherId) :
    v.log p nowSecs = recent (nowSecs - v₀.rateLimit.windowSecs) (times p history) := by
  unfold AnnouncementValidator.log
  rw [h.rateLimit]
  exact recent_congr (by omega) (h.entry p)

/-- The last accepted sequence is known. -/
theorem Inv.knownSequence (h : Inv v₀ v clock history) (k : PublisherId × ResourceId) :
    v.knownSequence k = (sequences k history).getLast?.getD 0 := by
  unfold AnnouncementValidator.knownSequence
  rw [h.known]

/-- A call that accepts nothing, and leaves the validator as it is up to its revocations and old
entries. -/
theorem Inv.concat_of_refused (h : Inv v₀ v clock history) (hclock : clock ≤ nowSecs) {c : Call}
    {r : Except WorkshopError Unit} (hcr : ∀ a nowSecs, (c, r) ≠ (.validate a nowSecs, .ok ()))
    (hsame : v' = { v with
      revokedPublishers := v'.revokedPublishers, rateLimitLog := v'.rateLimitLog })
    (hrevoked : v.revokedPublishers ⊆ v'.revokedPublishers)
    (hcall : ∀ p reason, c = .revoke p reason → p ∈ v'.revokedPublishers)
    (hentry : ∀ p, recent (nowSecs - v₀.rateLimit.windowSecs) (v'.entry p) =
      recent (nowSecs - v₀.rateLimit.windowSecs) (v.entry p)) :
    Inv v₀ v' nowSecs (history ++ [(c, r)]) := by
  constructor
  · rw [hsame]; exact h.verifier
  · rw [hsame]; exact h.maxClockDriftSecs
  · rw [hsame]; exact h.maxSequenceJump
  · rw [hsame]; exact h.rateLimit
  · intro k
    rw [hsame, sequences_concat_of_refused hcr]
    exact h.known k
  · intro k
    rw [sequences_concat_of_refused hcr]
    exact h.positive k
  · intro p reason r' hmem
    rcases List.mem_append.mp hmem with hmem | hmem
    · exact hrevoked (h.revoked p reason r' hmem)
    · cases List.mem_singleton.mp hmem
      exact hcall p reason rfl
  · intro p
    rw [hentry, times_concat_of_refused hcr]
    exact recent_congr (by omega) (h.entry p)
  · intro p t
    rw [times_concat_of_refused hcr]
    exact fun ht => (h.past p t ht).trans hclock

theorem Inv.refuse (h : Inv v₀ v clock history) (hclock : clock ≤ nowSecs)
    (ha : Alike (nowSecs - v.rateLimit.windowSecs) v v') (e : WorkshopError) :
    Inv v₀ v' nowSecs (history ++ [(.validate a nowSecs, .error e)]) := by
  have hrevoked : v'.revokedPublishers = v.revokedPublishers := by rw [ha.eq]
  rw [h.rateLimit] at ha
  refine h.concat_of_refused hclock (fun _ _ => nofun) ?_ (fun p hp => hrevoked ▸ hp)
    (fun _ _ => nofun) ha.entry
  rw [hrevoked]
  exact ha.eq

theorem Inv.revoke (h : Inv v₀ v clock history) (p : PublisherId) (reason : List UInt8) :
    Inv v₀ (v.revokePublisher p reason) clock (history ++ [(.revoke p reason, .ok ())]) := by
  refine h.concat_of_refused le_rfl (fun _ _ => nofun) rfl (List.subset_cons_self p _) ?_ fun _ => rfl
  intro q reason' hcall
  cases hcall
  exact List.mem_cons_self

theorem Inv.accept (h : Inv v₀ v clock history) (hclock : clock ≤ nowSecs)
    (ha : Admits v a nowSecs) :
    Inv v₀ (v.accept a nowSecs) nowSecs (history ++ [(.validate a nowSecs, .ok ())]) := by
  constructor
  · exact h.verifier
  · exact h.maxClockDriftSecs
  · exact h.maxSequenceJump
  · exact h.rateLimit
  · intro k
    rw [sequences_accept]
    unfold AnnouncementValidator.accept
    dsimp only
    by_cases hk : key a = k
    · rw [if_pos hk, ← hk, List.getLast?_concat]
      exact Function.update_self ..
    · rw [if_neg hk, List.append_nil, ← h.known k]
      exact Function.update_of_ne (Ne.symm hk) ..
  · intro k n hn
    rw [sequences_accept] at hn
    rcases List.mem_append.mp hn with hn | hn
    · exact h.positive k n hn
    · have hlt := ha.sequence
      split_ifs at hn with hk
      · rw [List.mem_singleton.mp hn]
        omega
      · cases hn
  · intro p reason r hmem
    rcases List.mem_append.mp hmem with hmem | hmem
    · exact h.revoked p reason r hmem
    · cases List.mem_singleton.mp hmem
  · intro p
    rw [times_accept, entry_accept]
    by_cases hp : p = a.publisherId
    · -- what was evicted lies before the window
      rw [if_pos hp, if_pos hp.symm, h.log hclock, hp]
      unfold recent
      rw [List.filter_append, List.filter_append]
      congr 1
      exact recent_recent le_rfl _
    · rw [if_neg hp, if_neg (Ne.symm hp), List.append_nil]
      exact recent_congr (by omega) (h.entry p)
  · intro p t ht
    rw [times_accept] at ht
    rcases List.mem_append.mp ht with ht | ht
    · exact (h.past p t ht).trans hclock
    · split_ifs at ht with hp
      · exact (List.mem_singleton.mp ht).le
      · cases ht

end Invariant

section Soundness

/-- Sequences that grow do not repeat, so nothing is accepted twice. -/
theorem nodup_of_grows {jump : ℕ} (h : ∀ k, (sequences k history).IsChain (Grows jump)) :
    ((accepted history).map Prod.fst).Nodup := by
  rw [List.nodup_iff_sublist]
  intro a hsub
  have hlt : (sequences (key a) history).Pairwise (· < ·) :=
    List.isChain_iff_pairwise.mp ((h (key a)).imp fun _ _ hmn => hmn.1)
  have hseq : sequences (key a) history =
      (((accepted history).map Prod.fst).filter fun b => key b = key a).map fun b =>
        b.sequence.toNat := by
    unfold sequences
    rw [List.filter_map, List.map_map]
    rfl
  have htwice := (hsub.filter fun b => decide (key b = key a)).map fun b => b.sequence.toNat
  rw [← hseq] at htwice
  simp only [List.filter_cons, decide_true, if_true, List.filter_nil, List.map_cons,
    List.map_nil] at htwice
  have hself := List.rel_of_pairwise_cons (hlt.sublist htwice) List.mem_cons_self
  exact lt_irrefl _ hself

/-- A call that accepts nothing keeps the run sound. -/
theorem Sound.concat_of_refused (h : Sound v₀ history) {c : Call} {r : Except WorkshopError Unit}
    (hcr : ∀ a nowSecs, (c, r) ≠ (.validate a nowSecs, .ok ())) :
    Sound v₀ (history ++ [(c, r)]) where
  genuine before a nowSecs hpre := by
    rcases List.prefix_concat_iff.mp hpre with heq | hpre
    · have hlast := (List.append_inj' heq rfl).2
      exact absurd (List.singleton_inj.mp hlast).symm (hcr a nowSecs)
    · exact h.genuine before a nowSecs hpre
  grows k := by
    rw [sequences_concat_of_refused hcr]
    exact h.grows k
  once := by
    rw [accepted_concat_of_refused hcr]
    exact h.once
  rate p start := by
    rw [times_concat_of_refused hcr]
    exact h.rate p start

/-- The sequence of an admitted announcement continues those accepted. -/
theorem Inv.grows_concat (h : Inv v₀ v clock history) (ha : Admits v a nowSecs)
    (hgrows : (sequences (key a) history).IsChain (Grows v₀.maxSequenceJump)) :
    (sequences (key a) history ++ [a.sequence.toNat]).IsChain (Grows v₀.maxSequenceJump) := by
  refine List.isChain_append.mpr ⟨hgrows, List.isChain_singleton _, fun m hm n hn => ?_⟩
  have hm' : (sequences (key a) history).getLast? = some m := hm
  have hn' : n = a.sequence.toNat := by simpa using hn.symm
  have hknown : v.knownSequence (a.publisherId, a.resource) = m := by
    rw [h.knownSequence]
    exact congrArg (fun o => Option.getD o 0) hm'
  have hpos := h.positive (key a) m (List.mem_of_getLast? hm')
  have hjump := ha.jump (by omega)
  have hseq := ha.sequence
  rw [hknown, h.maxSequenceJump] at hjump
  rw [hknown] at hseq
  rw [hn']
  exact ⟨hseq, hjump⟩

/-- The announcements of a window that contains the time of the call are in the log. -/
theorem Inv.countP_le (h : Inv v₀ v clock history) (hclock : clock ≤ nowSecs)
    (p : PublisherId) {start : ℕ} (hnow : nowSecs ≤ start + v₀.rateLimit.windowSecs) :
    (times p history).countP (fun t => decide (start ≤ t ∧ t ≤ start + v₀.rateLimit.windowSecs)) ≤
      (v.log p nowSecs).length := by
  rw [h.log hclock]
  unfold recent
  rw [← List.countP_eq_length_filter]
  refine List.countP_mono_left fun t _ ht => ?_
  have ht' := of_decide_eq_true ht
  exact decide_eq_true (by omega)

/-- **What is admitted keeps the run sound.** -/
theorem Sound.accept (h : Sound v₀ history) (hinv : Inv v₀ v clock history)
    (hclock : clock ≤ nowSecs) (ha : Admits v a nowSecs) :
    Sound v₀ (history ++ [(.validate a nowSecs, .ok ())]) := by
  have hgrows : ∀ k, (sequences k (history ++ [(.validate a nowSecs, .ok ())])).IsChain
      (Grows v₀.maxSequenceJump) := by
    intro k
    rw [sequences_accept]
    split_ifs with hk
    · rw [← hk]
      exact hinv.grows_concat ha (h.grows _)
    · rw [List.append_nil]
      exact h.grows k
  refine ⟨fun before b now hpre => ?_, hgrows, nodup_of_grows hgrows, fun p start => ?_⟩
  · rcases List.prefix_concat_iff.mp hpre with heq | hpre
    · obtain ⟨rfl, hlast⟩ := List.append_inj' heq rfl
      cases List.singleton_inj.mp hlast
      refine ⟨fun reason r hmem => ha.not_revoked (hinv.revoked _ reason r hmem), ?_, ?_⟩
      · rw [← hinv.verifier]
        exact ha.signature
      · rw [← hinv.maxClockDriftSecs]
        exact ha.timestamp
    · exact h.genuine before b now hpre
  · have hrate := ha.rate
    rw [hinv.rateLimit] at hrate
    rw [times_accept, List.countP_append]
    by_cases hp : a.publisherId = p
    · subst hp
      rw [if_pos rfl, List.countP_singleton]
      split_ifs with hin
      · have hle := hinv.countP_le hclock a.publisherId (of_decide_eq_true hin).2
        omega
      · exact h.rate a.publisherId start
    · rw [if_neg hp, List.countP_nil]
      exact h.rate p start

/-- A whole run, from a validator that agrees with the run so far. -/
theorem Sound.run (calls : List Call) : ∀ {v : AnnouncementValidator} {clock : ℕ}
    {history : History}, Sound v₀ history → Inv v₀ v clock history → Ordered clock calls →
    Sound v₀ (history ++ trace v calls) := by
  induction calls with
  | nil =>
    intro v clock history h _ _
    rw [trace, List.append_nil]
    exact h
  | cons c cs ih =>
    intro v clock history h hinv hord
    rw [trace, List.append_cons]
    rcases c with ⟨a, nowSecs⟩ | ⟨p, reason⟩
    · obtain ⟨hclock, hcs⟩ := hord
      rcases hr : (v.validate a nowSecs).1 with e | u
      · have halike := alike_of_refused hr
        rw [AnnouncementValidator.call, hr]
        exact ih (h.concat_of_refused fun _ _ => nofun) (hinv.refuse hclock halike e) hcs
      · obtain ⟨hadmits, haccept⟩ := accept_of_ok hr
        rw [AnnouncementValidator.call, hr, haccept]
        exact ih (h.accept hinv hclock hadmits) (hinv.accept hclock hadmits) hcs
    · exact ih (h.concat_of_refused fun _ _ => nofun) (hinv.revoke p reason) hord

end Soundness

/-- The empty run. -/
theorem sound_nil (v : AnnouncementValidator) : Sound v [] where
  genuine before a nowSecs hpre := by
    have hlen := hpre.length_le
    rw [List.length_append, List.length_singleton, List.length_nil] at hlen
    omega
  grows _ := List.isChain_nil
  once := List.nodup_nil
  rate _ _ := Nat.zero_le _

/-- A validator before its first call. -/
def configured (verifier : PublisherId → List UInt8 → Signature → Bool) (drift jump : ℕ)
    (config : RateLimitConfig) : AnnouncementValidator :=
  (((AnnouncementValidator.new verifier).withMaxClockDrift drift).withMaxSequenceJump
    jump).withRateLimit config

/-- **What a validator accepts**, in every run whose times do not decrease. -/
theorem accepted_sound (verifier : PublisherId → List UInt8 → Signature → Bool) (drift jump : ℕ)
    (config : RateLimitConfig) (calls : List Call) (h : Ordered 0 calls) :
    Sound (configured verifier drift jump config)
      (trace (configured verifier drift jump config) calls) :=
  (sound_nil _).run calls (inv_new rfl rfl) h

/-- Two releases with a replay between them, and a third after the key is revoked. -/
def releases : List Call :=
  [.validate (testAnnouncement 1) 1700000001, .validate (testAnnouncement 1) 1700000002,
    .validate (testAnnouncement 2) 1700000002, .revoke (Vector.replicate 32 0xAA) (text "stolen"),
    .validate (testAnnouncement 3) 1700000003]

theorem accepted_sound_releases :
    (trace (configured (fun _ _ _ => true) 300 1000 ⟨10, 3600⟩) releases).map
        (fun x => x.2.isOk) = [true, false, true, true, false] ∧
      Sound (configured (fun _ _ _ => true) 300 1000 ⟨10, 3600⟩)
        (trace (configured (fun _ _ _ => true) 300 1000 ⟨10, 3600⟩) releases) :=
  ⟨by decide, accepted_sound _ 300 1000 ⟨10, 3600⟩ releases (by decide)⟩

end CncContent.Workshop.Acceptance
