import CncContent.Lib.Runs
import CncContent.Session.Activation

/-! # Slots and the order of activation

In every run at most `maxActiveDownloads` entries are Downloading, and no slot is free while an entry is
Queued (`filled_perform`). So a call activates at most one entry, the one that is Queued by the call
itself or, if the call takes the slot of a download away, the first of those that wait. Who was added
first is activated first exactly in the runs in which no call takes a slot away while two entries share
the first place in the queue (`slots_and_order_iff`). -/

namespace CncContent.Session.Order

open CncContent.Lib.FirstMatch CncContent.Lib.Runs
open CncContent.Session.Manager CncContent.Session.Activation

variable {s t : BasicSession}

/-! ### Operations -/

/-- What an operation does to the slots before the loop: it frees one and leaves the queue alone, or it
frees none and adds at most one entry to the queue. -/
inductive Slots (s t : BasicSession) : Bool → Prop
  | freed (hactive : t.activeCount + 1 = s.activeCount) (hwaiting : waiting t = waiting s) :
      Slots s t true
  | kept (hactive : t.activeCount = s.activeCount)
      (hwaiting : (waiting t).length ≤ (waiting s).length + 1) : Slots s t false

/-- An entry leaves slot or queue. -/
theorem slots_of_leave {l₁ l₂ m : List DownloadEntry} {e : DownloadEntry}
    (hs : s.entries = l₁ ++ e :: l₂) (ht : t.entries = l₁ ++ m ++ l₂)
    (hm : ∀ e' ∈ m, e'.state ≠ .downloading ∧ e'.state ≠ .queued) :
    Slots s t (e.state = .downloading) := by
  have hactive := activeCount_replace hs ht
  have hwaiting := length_waiting_replace hs ht
  rw [List.countP_eq_zero.mpr fun e' he' => by simp [(hm e' he').1]] at hactive
  rw [List.countP_eq_zero.mpr fun e' he' => by simp [(hm e' he').2]] at hwaiting
  by_cases h : e.state = .downloading
  · rw [if_pos h] at hactive
    rw [decide_eq_true h]
    refine .freed hactive ?_
    have hnil : m.filter (·.state = .queued) = [] :=
      List.filter_eq_nil_iff.mpr fun e' he' => by simp [(hm e' he').2]
    simp only [waiting, hs, ht, List.filter_append, hnil, List.filter_cons, h]
    simp
  · rw [if_neg h] at hactive
    rw [decide_eq_false h]
    exact .kept hactive (by omega)

theorem slots_enqueue (s : BasicSession) (priority : ℤ) (now : ℕ) :
    Slots s (s.enqueue priority now) false := by
  refine .kept ?_ ?_
  · simp [BasicSession.activeCount, BasicSession.enqueue]
  · simp [length_waiting, BasicSession.enqueue]

/-- The download of the handle has a slot. -/
def active (s : BasicSession) (handle : DownloadHandle) : Bool :=
  (s.find? handle).any (·.state = .downloading)

theorem pauseEntry_ok {handle : DownloadHandle} (h : s.pauseEntry handle = .ok t) :
    ∃ e, s.find? handle = some e ∧
      t = { s.update handle fun e => { e with state := .paused e.state } with
        events := s.events ++ [.downloadPaused handle] } := by
  unfold BasicSession.pauseEntry at h
  rcases he : s.find? handle with _ | e
  · rw [he] at h
    cases h
  · refine ⟨e, rfl, ?_⟩
    rw [he] at h
    dsimp only at h
    rcases hstate : e.state <;> rw [hstate] at h
    case queued | checking | downloading | seeding => exact (Except.ok.inj h).symm
    case paused | error | completed => cases h

theorem slots_pauseEntry {handle : DownloadHandle} (h : s.pauseEntry handle = .ok t) :
    Slots s t (active s handle) := by
  obtain ⟨e, he, rfl⟩ := pauseEntry_ok h
  obtain ⟨l₁, l₂, hs, -, ht⟩ := updateFirst_split
    (f := fun e : DownloadEntry => { e with state := .paused e.state }) he
  rw [active, he]
  exact slots_of_leave (m := [{ e with state := .paused e.state }]) hs
    (by rw [List.append_assoc]; exact ht) (by simp)

theorem slots_resumeEntry {handle : DownloadHandle} (h : s.resumeEntry handle = .ok t) :
    Slots s t false := by
  unfold BasicSession.resumeEntry at h
  rcases he : s.find? handle with _ | e
  · rw [he] at h
    cases h
  · obtain ⟨l₁, l₂, hs, -, hupd⟩ := updateFirst_split
      (f := fun e : DownloadEntry => { e with state := .queued }) he
    rw [he] at h
    dsimp only at h
    split at h
    next hstate =>
      cases h
      have ht : (s.update handle fun e => { e with state := .queued }).entries =
          l₁ ++ [{ e with state := .queued }] ++ l₂ := by rw [List.append_assoc]; exact hupd
      have hactive := activeCount_replace hs ht
      have hwaiting := length_waiting_replace hs ht
      rw [hstate] at hactive hwaiting
      exact .kept hactive hwaiting.le
    next => cases h

theorem removeEntry_split {handle : DownloadHandle} (h : s.removeEntry handle = .ok t) :
    ∃ e l₁ l₂, s.find? handle = some e ∧ s.entries = l₁ ++ e :: l₂ ∧ t.entries = l₁ ++ l₂ ∧
      t.config = s.config := by
  unfold BasicSession.removeEntry at h
  rcases hidx : s.entries.findIdx? (·.handle = handle) with _ | idx
  · rw [hidx] at h
    cases h
  · rw [hidx] at h
    cases h
    obtain ⟨hlt, hpos, hbefore⟩ := List.findIdx?_eq_some_iff_getElem.mp hidx
    have hs := (List.take_append_drop idx s.entries).symm
    rw [List.drop_eq_getElem_cons hlt] at hs
    refine ⟨_, _, _, ?_, hs, List.eraseIdx_eq_take_drop_succ .., rfl⟩
    refine List.find?_eq_some_iff_append.mpr ⟨hpos, _, _, hs, fun b hb => ?_⟩
    obtain ⟨i, hi, rfl⟩ := List.mem_take_iff_getElem.mp hb
    simpa using hbefore i (by omega)

theorem slots_removeEntry {handle : DownloadHandle} (h : s.removeEntry handle = .ok t) :
    Slots s t (active s handle) := by
  obtain ⟨e, l₁, l₂, he, hs, ht, -⟩ := removeEntry_split h
  rw [active, he]
  exact slots_of_leave (m := []) hs (by rw [List.append_nil]; exact ht) nofun

/-- **The activations after an operation** are fair exactly if it frees no slot while two entries share
the first place. -/
theorem fair_activations_iff {frees : Bool} (hs : Filled s) (ht : Slots s t frees)
    (hconfig : t.config = s.config) (htimes : (times t).Pairwise (· ≤ ·)) :
    (∀ r ∈ t.activations, Fair r) ↔ (frees → ¬ Tied (waiting s)) := by
  obtain ⟨hle, hfull⟩ := filled_iff.mp hs
  -- a session with a free slot has an empty queue
  have hnil : s.activeCount < s.config.maxActiveDownloads → (waiting s).length = 0 :=
    fun h => List.length_eq_zero_iff.mpr (hfull h)
  cases ht with
  | freed hactive hwaiting =>
    rw [fair_activations htimes (by rw [hconfig, hwaiting]; omega), hconfig, hwaiting]
    exact ⟨fun h _ => h (by omega), fun h _ => h rfl⟩
  | kept hactive hwaiting =>
    rw [fair_activations htimes (by rw [hconfig]; omega), hconfig]
    exact iff_of_true (fun h => not_tied_of_length (by omega)) nofun

/-! ### Calls -/

inductive Call
  | add (priority : ℤ) (now : ℕ)
  | pause (handle : DownloadHandle)
  | resume (handle : DownloadHandle)
  | remove (handle : DownloadHandle)
  | setPriority (handle : DownloadHandle) (priority : ℤ)
  | pollEvents
deriving DecidableEq, Repr

def perform (s : BasicSession) : Call → BasicSession
  | .add priority now => (s.addDownload priority now).2
  | .pause handle => (s.pause handle).2
  | .resume handle => (s.resume handle).2
  | .remove handle => (s.remove handle).2
  | .setPriority handle priority => (s.setPriority handle priority).2
  | .pollEvents => s.pollEvents.2

/-- What a call does before it calls `activate_queued`, if it does. -/
def before (s : BasicSession) : Call → Option BasicSession
  | .add priority now => some (s.enqueue priority now)
  | .pause handle => (s.pauseEntry handle).toOption
  | .resume handle => (s.resumeEntry handle).toOption
  | .remove handle => (s.removeEntry handle).toOption
  | .setPriority _ _ | .pollEvents => none

/-- The sessions in which a call activates an entry. -/
def activationsIn (s : BasicSession) (call : Call) : List BasicSession :=
  ((before s call).map BasicSession.activations).getD []

/-- The call takes the slot of a download. -/
def frees (s : BasicSession) : Call → Bool
  | .pause handle | .remove handle => active s handle
  | .add _ _ | .resume _ | .setPriority _ _ | .pollEvents => false

/-- The download that a call adds. -/
def addedBy (s : BasicSession) : Call → List (DownloadHandle × ℕ)
  | .add _ now => [(⟨s.nextId⟩, now)]
  | _ => []

theorem toOption_eq_some {α ε : Type} {r : Except ε α} {a : α} (h : r.toOption = some a) :
    r = .ok a := by
  cases r with
  | ok b => cases h; rfl
  | error e => cases h

theorem perform_of_before {call : Call} (h : before s call = some t) :
    perform s call = t.activateQueued := by
  cases call with
  | add priority now => cases h; rfl
  | pause handle => rw [perform, BasicSession.pause, toOption_eq_some h]; rfl
  | resume handle => rw [perform, BasicSession.resume, toOption_eq_some h]; rfl
  | remove handle => rw [perform, BasicSession.remove, toOption_eq_some h]; rfl
  | setPriority handle priority => cases h
  | pollEvents => cases h

theorem slots_before {call : Call} (h : before s call = some t) : Slots s t (frees s call) := by
  cases call with
  | add priority now => cases h; exact slots_enqueue s priority now
  | pause handle => exact slots_pauseEntry (toOption_eq_some h)
  | resume handle => exact slots_resumeEntry (toOption_eq_some h)
  | remove handle => exact slots_removeEntry (toOption_eq_some h)
  | setPriority handle priority => cases h
  | pollEvents => cases h

/-- A call that would take a slot away does not fail. -/
theorem frees_of_before_none {call : Call} (h : before s call = none) : frees s call = false := by
  cases call with
  | pause handle =>
    rw [frees, active]
    rcases he : s.find? handle with _ | e
    · rfl
    · refine decide_eq_false fun hstate => ?_
      rw [before, BasicSession.pauseEntry, he] at h
      dsimp only at h
      rw [hstate] at h
      cases h
  | remove handle =>
    rw [frees, active]
    rcases hidx : s.entries.findIdx? (·.handle = handle) with _ | idx
    · rw [BasicSession.find?, List.find?_eq_none.mpr fun e he => by
        simpa using List.findIdx?_eq_none_iff.mp hidx e he]
      rfl
    · rw [before, BasicSession.removeEntry, hidx] at h
      cases h
  | add | resume | setPriority | pollEvents => rfl

theorem stamps_update {handle : DownloadHandle} {f : DownloadEntry → DownloadEntry}
    (hf : ∀ e, (f e).handle = e.handle ∧ (f e).addedAt = e.addedAt) :
    stamps (s.update handle f) = stamps s :=
  map_updateFirst fun e _ => Prod.ext (hf e).1 (hf e).2

theorem same_pauseEntry {handle : DownloadHandle} (h : s.pauseEntry handle = .ok t) :
    Same s t := by
  obtain ⟨e, -, rfl⟩ := pauseEntry_ok h
  exact ⟨rfl, stamps_update fun _ => ⟨rfl, rfl⟩⟩

theorem same_resumeEntry {handle : DownloadHandle} (h : s.resumeEntry handle = .ok t) :
    Same s t := by
  unfold BasicSession.resumeEntry at h
  split at h
  · cases h
  · split at h
    · cases h
      exact ⟨rfl, stamps_update fun _ => ⟨rfl, rfl⟩⟩
    · cases h

/-- The configuration stays, and a new download comes last. -/
theorem stamps_before {call : Call} (h : before s call = some t) :
    t.config = s.config ∧ (stamps t).Sublist (stamps s ++ addedBy s call) := by
  cases call with
  | add priority now =>
    cases h
    refine ⟨rfl, ?_⟩
    rw [stamps, BasicSession.enqueue, List.map_append]
    exact List.Sublist.refl _
  | pause handle =>
    have hsame := same_pauseEntry (toOption_eq_some h)
    exact ⟨hsame.config, hsame.stamps ▸ List.sublist_append_left _ _⟩
  | resume handle =>
    have hsame := same_resumeEntry (toOption_eq_some h)
    exact ⟨hsame.config, hsame.stamps ▸ List.sublist_append_left _ _⟩
  | remove handle =>
    obtain ⟨e, l₁, l₂, -, hs, ht, hconfig⟩ := removeEntry_split (toOption_eq_some h)
    refine ⟨hconfig, List.Sublist.trans ?_ (List.sublist_append_left _ _)⟩
    rw [stamps, stamps, hs, ht]
    exact ((List.sublist_cons_self e l₂).append_left l₁).map _
  | setPriority handle priority => cases h
  | pollEvents => cases h

/-- A call without `activate_queued`: it fails, or sets a priority, or drains the events. -/
theorem perform_of_before_none {call : Call} (h : before s call = none) :
    Same s (perform s call) ∧
      (perform s call).entries.map (·.state) = s.entries.map (·.state) := by
  have hfailed : ∀ {r : Except SessionError BasicSession}, r.toOption = none →
      (s.thenActivate r).2 = s := fun {r} hr => by
    cases r with
    | ok t => cases hr
    | error e => rfl
  cases call with
  | add priority now => cases h
  | pause handle => rw [perform, BasicSession.pause, hfailed h]; exact ⟨⟨rfl, rfl⟩, rfl⟩
  | resume handle => rw [perform, BasicSession.resume, hfailed h]; exact ⟨⟨rfl, rfl⟩, rfl⟩
  | remove handle => rw [perform, BasicSession.remove, hfailed h]; exact ⟨⟨rfl, rfl⟩, rfl⟩
  | setPriority handle priority =>
    rw [perform, BasicSession.setPriority]
    split
    · exact ⟨⟨rfl, rfl⟩, rfl⟩
    · exact ⟨⟨rfl, stamps_update fun _ => ⟨rfl, rfl⟩⟩,
        map_updateFirst (f := fun e : DownloadEntry => { e with priority := priority }) fun _ _ => rfl⟩
  | pollEvents => exact ⟨⟨rfl, rfl⟩, rfl⟩

/-- The slots depend on the states alone. -/
theorem filled_of_states (hs : Filled s) (hconfig : t.config = s.config)
    (hstates : t.entries.map (·.state) = s.entries.map (·.state)) : Filled t := by
  have hactive : t.activeCount = s.activeCount := by
    have := congrArg (List.countP (· = .downloading)) hstates
    rwa [List.countP_map, List.countP_map] at this
  refine ⟨by rw [hactive, hconfig]; exact hs.1, fun e he hq => ?_⟩
  obtain ⟨e', he', hq'⟩ := List.mem_map.mp (hstates ▸ List.mem_map_of_mem he)
  rw [hactive, hconfig]
  exact hs.2 e' he' (hq'.trans hq)

theorem Slots.activeCount_le {frees : Bool} (h : Slots s t frees) :
    t.activeCount ≤ s.activeCount := by
  cases h <;> omega

/-- **Every call** leaves no slot free while an entry waits. -/
theorem filled_perform (hs : Filled s) (call : Call) : Filled (perform s call) := by
  rcases h : before s call with _ | t
  · obtain ⟨hsame, hstates⟩ := perform_of_before_none h
    exact filled_of_states hs hsame.config hstates
  · rw [perform_of_before h]
    refine filled_activateQueued ?_
    rw [(stamps_before h).1]
    exact (slots_before h).activeCount_le.trans hs.1

theorem stamps_perform (s : BasicSession) (call : Call) :
    (stamps (perform s call)).Sublist (stamps s ++ addedBy s call) := by
  rcases h : before s call with _ | t
  · rw [(perform_of_before_none h).1.stamps]
    exact List.sublist_append_left _ _
  · rw [perform_of_before h, (same_activateQueued t).stamps]
    exact (stamps_before h).2

/-- **The activations of a call** are fair exactly if it takes no slot away while two entries share the
first place. -/
theorem fair_activationsIn {call : Call} (hs : Filled s)
    (htimes : (times (perform s call)).Pairwise (· ≤ ·)) :
    (∀ r ∈ activationsIn s call, Fair r) ↔ (frees s call → ¬ Tied (waiting s)) := by
  rw [activationsIn]
  rcases hb : before s call with _ | t
  · rw [frees_of_before_none hb]
    exact iff_of_true nofun nofun
  · rw [perform_of_before hb, times, (same_activateQueued t).stamps] at htimes
    exact fair_activations_iff hs (slots_before hb) (stamps_before hb).1 htimes

/-! ### Runs -/

/-- The session, the time, all downloads that have been added, and the sessions in which an entry has
been activated. -/
structure Log where
  session : BasicSession
  clock : ℕ
  added : List (DownloadHandle × ℕ)
  activated : List BasicSession

def Log.new (config : SessionConfig) : Log := ⟨.new config, 0, [], []⟩

def clockAfter (clock : ℕ) : Call → ℕ
  | .add _ now => now
  | _ => clock

/-- A call is possible if the clock does not go back. -/
def step (log : Log) (call : Call) : Option Log :=
  if log.clock ≤ clockAfter log.clock call then
    some
      { session := perform log.session call
        clock := clockAfter log.clock call
        added := log.added ++ addedBy log.session call
        activated := log.activated ++ activationsIn log.session call }
  else none

/-- No more than all slots are taken, none is free while an entry waits, and every entry that has been
activated came first. -/
def Sound (log : Log) : Prop := Filled log.session ∧ ∀ r ∈ log.activated, Fair r

instance : DecidablePred Sound := fun log =>
  inferInstanceAs (Decidable (Filled log.session ∧ ∀ r ∈ log.activated, Fair r))

/-- The entries stand in the order in which they have been added, and the times agree with it. -/
structure Ordered (log : Log) : Prop where
  added : (stamps log.session).Sublist log.added
  times : log.added.Pairwise fun d d' => d.2 ≤ d'.2
  clock : ∀ d ∈ log.added, d.2 ≤ log.clock

theorem ordered_new (config : SessionConfig) : Ordered (.new config) :=
  ⟨List.Sublist.refl _, List.Pairwise.nil, nofun⟩

theorem pairwise_times {log : Log} (h : Ordered log) :
    (times log.session).Pairwise (· ≤ ·) :=
  List.pairwise_map.mpr (h.times.sublist h.added)

theorem ordered_step {log log' : Log} {call : Call} (h : Ordered log)
    (hstep : step log call = some log') : Ordered log' := by
  unfold step at hstep
  split_ifs at hstep with hclock
  cases hstep
  have hsub := (stamps_perform log.session call).trans (h.added.append (.refl _))
  have hnew : ∀ d ∈ addedBy log.session call, d.2 = clockAfter log.clock call := by
    cases call with
    | add priority now => exact fun d hd => List.mem_singleton.mp hd ▸ rfl
    | _ => exact nofun
  refine ⟨hsub, List.pairwise_append.mpr ⟨h.times, ?_, fun d hd d' hd' => ?_⟩, fun d hd => ?_⟩
  · exact List.Pairwise.imp_of_mem (fun hd hd' _ => (hnew _ hd).le.trans (hnew _ hd').ge)
      (List.pairwise_of_forall fun _ _ => trivial)
  · exact (h.clock d hd).trans (hclock.trans (hnew d' hd').ge)
  · rcases List.mem_append.mp hd with hd | hd
    · exact (h.clock d hd).trans hclock
    · exact (hnew d hd).le

/-- Two entries share the first place of the queue while the call takes a slot away. -/
def TiedAt (log : Log) (call : Call) : Prop :=
  frees log.session call ∧ Tied (waiting log.session)

theorem sound_step {log log' : Log} {call : Call} (hord : Ordered log) (h : Sound log)
    (hstep : step log call = some log') : Sound log' ↔ ¬ TiedAt log call := by
  have htimes := pairwise_times (ordered_step hord hstep)
  unfold step at hstep
  split_ifs at hstep with hclock
  cases hstep
  have hfair : _ ↔ ¬ TiedAt log call := (fair_activationsIn h.1 htimes).trans not_and.symm
  refine ⟨fun h' => hfair.mp fun r hr => h'.2 r (List.mem_append_right _ hr), fun ht => ?_⟩
  refine ⟨filled_perform h.1 call, fun r hr => ?_⟩
  exact (List.mem_append.mp hr).elim (h.2 r) (hfair.mpr ht r)

/-- A call that is not possible is too early. -/
theorem not_tiedAt_of_step {log : Log} {call : Call} (hstep : step log call = none) :
    ¬ TiedAt log call := by
  unfold step at hstep
  split_ifs at hstep with hclock
  cases call with
  | add priority now => exact fun h => nomatch h.1
  | _ => exact absurd le_rfl hclock

theorem sound_new (config : SessionConfig) : Sound (.new config) :=
  ⟨⟨Nat.zero_le _, nofun⟩, nofun⟩

/-- **Slots and order, exactly**: in a run whose clock does not go back no more than all slots are ever
taken, none is free while an entry waits, and every activation is of the entry that comes first, if and
only if no call takes a slot away while two entries share the first place of the queue. -/
theorem slots_and_order_iff (config : SessionConfig) (calls : List Call) :
    Always step Sound (.new config) calls ↔
      Meets step (fun log call => ¬ TiedAt log call) (.new config) calls :=
  always_iff_meets (I := Ordered) (fun _ _ _ hord _ hstep => ordered_step hord hstep)
    (fun _ _ _ hord h hstep => sound_step hord h hstep)
    (fun _ _ _ _ hstep => not_tiedAt_of_step hstep) (ordered_new config) (sound_new config)

/-- The third of three downloads with one time overtakes the second. -/
theorem third_overtakes_second :
    ¬ Always step Sound (.new ⟨1⟩) [.add 0 0, .add 0 0, .add 0 0, .remove ⟨1⟩] := by
  decide +kernel

end CncContent.Session.Order
