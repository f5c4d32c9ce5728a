import CncContent.Workshop.Validator

/-! # Rejections leave no trace

Whatever announcements are refused in a run can be deleted from it: the other calls return the same
(`trace_select`). The two runs go through validators that are alike within the window, though not
equal, since a refused announcement may evict a log. -/

namespace CncContent.Workshop.Rejections

open CncContent.Workshop.Resource CncContent.Workshop.Announcement CncContent.Workshop.Validator

/-- The entries at the positions to keep. -/
def select {α : Type} : (ℕ → Bool) → List α → List α
  | _, [] => []
  | keep, x :: xs =>
    if keep 0 then x :: select (fun i => keep (i + 1)) xs else select (fun i => keep (i + 1)) xs

/-! ### Alike validators -/

variable {v v' u u' : AnnouncementValidator} {a : VersionAnnouncement} {start clock nowSecs : ℕ}

/-- Their logs agree within the window of a later call. -/
theorem log_alike (h : Alike (clock - v.rateLimit.windowSecs) v v') (hclock : clock ≤ nowSecs)
    (p : PublisherId) : v'.log p nowSecs = v.log p nowSecs := by
  unfold AnnouncementValidator.log
  rw [h.rateLimit]
  exact recent_congr (by omega) (h.entry p)

/-- **They judge alike.** -/
theorem verdict_alike (h : Alike (clock - v.rateLimit.windowSecs) v v') (hclock : clock ≤ nowSecs) :
    (v'.validate a nowSecs).1 = (v.validate a nowSecs).1 := by
  have hlog := log_alike h hclock a.publisherId
  have hrate := h.rateLimit
  have hknown : v'.knownSequence (a.publisherId, a.resource) =
      v.knownSequence (a.publisherId, a.resource) := by rw [h.eq]; rfl
  have hrevoked : v'.revokedPublishers = v.revokedPublishers := by rw [h.eq]
  have hdrift : v'.maxClockDriftSecs = v.maxClockDriftSecs := by rw [h.eq]
  have hverifier : v'.verifier = v.verifier := by rw [h.eq]
  have hjump : v'.maxSequenceJump = v.maxSequenceJump := by rw [h.eq]
  unfold AnnouncementValidator.validate
  dsimp only
  rw [hlog, hrate, hknown, hrevoked, hdrift, hverifier, hjump]
  split_ifs
  all_goals rfl

theorem revoke_alike (h : Alike start v v') (p : PublisherId) (reason : List UInt8) :
    Alike start (v.revokePublisher p reason) (v'.revokePublisher p reason) := by
  refine ⟨?_, h.entry⟩
  unfold AnnouncementValidator.revokePublisher
  rw [h.eq]

theorem accept_alike (h : Alike (clock - v.rateLimit.windowSecs) v v') (hclock : clock ≤ nowSecs) :
    Alike (nowSecs - v.rateLimit.windowSecs) (v.accept a nowSecs) (v'.accept a nowSecs) := by
  refine ⟨?_, fun p => ?_⟩
  · unfold AnnouncementValidator.accept
    rw [h.eq]
  · rw [entry_accept, entry_accept, log_alike h hclock]
    split_ifs with hp
    · rfl
    · exact recent_congr (by omega) (h.entry p)

/-- They stay alike. -/
theorem validate_alike (h : Alike (clock - v.rateLimit.windowSecs) v v') (hclock : clock ≤ nowSecs) :
    Alike (nowSecs - v.rateLimit.windowSecs) (v.validate a nowSecs).2 (v'.validate a nowSecs).2 := by
  have hverdict := verdict_alike (a := a) h hclock
  have hlater : Alike (nowSecs - v.rateLimit.windowSecs) v v' := h.mono (by omega)
  rcases hr : (v.validate a nowSecs).1 with e | ⟨⟩
  · have hleft := alike_of_refused hr
    have hright := alike_of_refused (hverdict.trans hr)
    rw [h.rateLimit] at hright
    exact (hleft.symm.trans hlater).trans hright
  · rw [(accept_of_ok hr).2, (accept_of_ok (hverdict.trans hr)).2]
    exact accept_alike h hclock

/-! ### Runs -/

/-- The window never changes. -/
theorem validate_rateLimit : (v.validate a nowSecs).2.rateLimit = v.rateLimit := by
  rcases validate_cases v a nowSecs with ⟨-, hok⟩ | ⟨e, hsame | hevict⟩
  · rw [hok]; rfl
  · rw [hsame]
  · rw [hevict]; rfl

/-- A run from an alike validator returns the same, without some of the refused calls. -/
theorem trace_select_alike (calls : List Call) : ∀ {v v' : AnnouncementValidator} {clock : ℕ}
    {keep : ℕ → Bool}, Alike (clock - v.rateLimit.windowSecs) v v' → Ordered clock calls →
    (∀ i c r, (trace v calls)[i]? = some (c, r) → keep i = false → ∃ e, r = .error e) →
    trace v' (select keep calls) = select keep (trace v calls) := by
  induction calls with
  | nil => exact fun _ _ _ => rfl
  | cons c cs ih =>
    intro v v' clock keep halike hord hdrop
    have hcs : ∀ i c' r, (trace (v.call c).2 cs)[i]? = some (c', r) → keep (i + 1) = false →
        ∃ e, r = .error e := fun i c' r hi => hdrop (i + 1) c' r hi
    rcases c with ⟨a, nowSecs⟩ | ⟨p, reason⟩
    · obtain ⟨hclock, hord⟩ := hord
      have hwindow : (v.validate a nowSecs).2.rateLimit = v.rateLimit := validate_rateLimit
      rw [select, trace, select]
      rcases hkeep : keep 0 with _ | _
      · -- the deleted call was refused, and left its validator alike to itself
        obtain ⟨e, he⟩ := hdrop 0 _ _ rfl hkeep
        have hlater : Alike (nowSecs - v.rateLimit.windowSecs) v v' := halike.mono (by omega)
        have hnext := (alike_of_refused he).symm.trans hlater
        rw [← hwindow] at hnext
        exact ih hnext hord hcs
      · have hnext := validate_alike (a := a) halike hclock
        rw [← hwindow] at hnext
        rw [if_pos rfl, if_pos rfl, trace, AnnouncementValidator.call,
          verdict_alike halike hclock]
        exact congrArg _ (ih hnext hord hcs)
    · rw [select, trace, select]
      rcases hkeep : keep 0 with _ | _
      · obtain ⟨e, he⟩ := hdrop 0 _ _ rfl hkeep
        cases he
      · rw [if_pos rfl, if_pos rfl, trace]
        exact congrArg _ (ih (revoke_alike halike p reason) hord hcs)

/-- **Rejections leave no trace**: in a run whose times do not decrease, delete any calls that
returned an error; the remaining calls return what they returned before. -/
theorem trace_select (v : AnnouncementValidator) (calls : List Call) (keep : ℕ → Bool)
    (hord : Ordered 0 calls)
    (hdrop : ∀ i c r, (trace v calls)[i]? = some (c, r) → keep i = false → ∃ e, r = .error e) :
    trace v (select keep calls) = select keep (trace v calls) :=
  trace_select_alike calls (Alike.refl _ v) hord hdrop

/-- A validator that admits one announcement in an hour. -/
def slow : AnnouncementValidator :=
  (AnnouncementValidator.new fun _ _ _ => true).withRateLimit ⟨1, 3600⟩

/-- Two releases, with one too many between them. -/
def flood : List Call :=
  [.validate (testAnnouncement 1) 1700000001, .validate (testAnnouncement 2) 1700001800,
    .validate (testAnnouncement 3) 1700003700]

theorem trace_select_flood :
    (trace slow flood).map (fun x => x.2.isOk) = [true, false, true] ∧
      trace slow (select (fun i => i != 1) flood) = select (fun i => i != 1) (trace slow flood) := by
  refine ⟨by decide, trace_select slow flood _ (by decide) fun i c r hi hkeep => ?_⟩
  have hone : i = 1 := by simpa using hkeep
  have hrefused : ((trace slow flood)[1]?).map (fun x => x.2.isOk) = some false := by decide
  rw [← hone, hi] at hrefused
  rcases r with e | u
  · exact ⟨e, rfl⟩
  · cases hrefused

end CncContent.Workshop.Rejections
