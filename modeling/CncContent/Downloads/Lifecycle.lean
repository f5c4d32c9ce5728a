import CncContent.Lib.Bytes
import CncContent.Lib.Decimal
import CncContent.Lib.Runs

/-! # The life of a download

`DownloadStateMachine` of the source: a call moves the download on, or it is refused and changes nothing. Calls
lead exactly to the states in which what is paused is going on otherwise (`reachable_iff_sound`), never back to an
earlier phase (`phase_run`), and to the later phases only by way of the download itself
(`downloading_of_active`). A pause leaves no trace (`resume_pause`). -/

namespace CncContent.Downloads.Lifecycle

open CncContent.Lib.Bytes CncContent.Lib.Decimal CncContent.Lib.Runs

inductive DownloadState
  | queued
  | checking (progress : ℕ)
  | downloading
  | seeding
  | paused (previous : DownloadState)
  | error (message : List UInt8)
  | completed
deriving DecidableEq, Repr

structure TransitionError where
  fromState : List UInt8
  toState : List UInt8
  reason : List UInt8
deriving DecidableEq, Repr

namespace DownloadState

def display : DownloadState → List UInt8
  | queued => text "queued"
  | checking progress => text "checking (" ++ printNat progress ++ text "%)"
  | downloading => text "downloading"
  | seeding => text "seeding"
  | paused previous => text "paused (was: " ++ previous.display ++ text ")"
  | error message => text "error: " ++ message
  | completed => text "completed"

def startChecking : DownloadState → Except TransitionError DownloadState
  | queued => .ok (checking 0)
  | other => .error ⟨other.display, text "checking", text "can only start checking from queued state"⟩

def updateCheckingProgress (progress : ℕ) : DownloadState → DownloadState
  | checking _ => checking (min progress 100)
  | other => other

def startDownloading : DownloadState → Except TransitionError DownloadState
  | queued | checking _ | paused downloading => .ok downloading
  | other => .error ⟨other.display, text "downloading",
      text "can only start downloading from queued, checking, or paused(downloading)"⟩

def startSeeding : DownloadState → Except TransitionError DownloadState
  | downloading => .ok seeding
  | other => .error ⟨other.display, text "seeding", text "can only start seeding from downloading"⟩

def pause : DownloadState → Except TransitionError DownloadState
  | queued => .ok (paused queued)
  | checking progress => .ok (paused (checking progress))
  | downloading => .ok (paused downloading)
  | seeding => .ok (paused seeding)
  | paused _ => .error ⟨text "paused", text "paused", text "already paused"⟩
  | other => .error ⟨other.display, text "paused", text "cannot pause from a terminal state"⟩

def resume : DownloadState → Except TransitionError DownloadState
  | paused previous => .ok previous
  | other => .error ⟨other.display, text "resume", text "can only resume from paused state"⟩

def complete : DownloadState → Except TransitionError DownloadState
  | downloading | seeding => .ok completed
  | other => .error ⟨other.display, text "completed", text "can only complete from downloading or seeding"⟩

def isTerminal : DownloadState → Bool
  | error _ | completed => true
  | _ => false

def isActive : DownloadState → Bool
  | downloading | seeding => true
  | _ => false

end DownloadState

/-! ### Calls -/

inductive Call
  | startChecking
  | updateCheckingProgress (progress : ℕ)
  | startDownloading
  | startSeeding
  | pause
  | resume
  | fail (message : List UInt8)
  | complete
deriving DecidableEq, Repr

open DownloadState

def answer (s : DownloadState) : Call → Except TransitionError DownloadState
  | .startChecking => s.startChecking
  | .updateCheckingProgress progress => .ok (s.updateCheckingProgress progress)
  | .startDownloading => s.startDownloading
  | .startSeeding => s.startSeeding
  | .pause => s.pause
  | .resume => s.resume
  | .fail message => .ok (error message)
  | .complete => s.complete

/-- A call that is refused changes nothing. -/
def step (s : DownloadState) (c : Call) : Option DownloadState :=
  match answer s c with
  | .ok s' => some s'
  | .error _ => some s

/-- What a pause can interrupt. -/
def Ongoing : DownloadState → Prop
  | queued | checking _ | downloading | seeding => True
  | paused _ | error _ | completed => False

/-- What a call can do to the state. -/
inductive Moves : DownloadState → DownloadState → Prop
  | stay (s) : Moves s s
  | check : Moves queued (checking 0)
  | progress (p q : ℕ) : Moves (checking p) (checking (min q 100))
  | start : Moves queued downloading
  | checked (p : ℕ) : Moves (checking p) downloading
  | seed : Moves downloading seeding
  | pause {s} (h : Ongoing s) : Moves s (paused s)
  | resume (s) : Moves (paused s) s
  | fail (s) (message : List UInt8) : Moves s (error message)
  | complete : Moves downloading completed
  | retire : Moves seeding completed

/-- Every call does one of these, and the error of a refused one names the state it has met. -/
theorem answer_cases (s : DownloadState) (c : Call) :
    (∃ s', answer s c = .ok s' ∧ Moves s s') ∨ ∃ e, answer s c = .error e ∧
      (e.fromState = s.display ∨ c = .pause ∧ e.fromState = text "paused" ∧ ∃ previous, s = paused previous) := by
  cases c with
  | startChecking =>
    cases s with
    | queued => exact Or.inl ⟨_, rfl, .check⟩
    | _ => exact Or.inr ⟨_, rfl, Or.inl rfl⟩
  | updateCheckingProgress q =>
    cases s with
    | checking p => exact Or.inl ⟨_, rfl, .progress p q⟩
    | _ => exact Or.inl ⟨_, rfl, .stay _⟩
  | startDownloading =>
    cases s with
    | queued => exact Or.inl ⟨_, rfl, .start⟩
    | checking p => exact Or.inl ⟨_, rfl, .checked p⟩
    | paused previous =>
      cases previous with
      | downloading => exact Or.inl ⟨_, rfl, .resume _⟩
      | _ => exact Or.inr ⟨_, rfl, Or.inl rfl⟩
    | _ => exact Or.inr ⟨_, rfl, Or.inl rfl⟩
  | startSeeding =>
    cases s with
    | downloading => exact Or.inl ⟨_, rfl, .seed⟩
    | _ => exact Or.inr ⟨_, rfl, Or.inl rfl⟩
  | pause =>
    cases s with
    | paused previous => exact Or.inr ⟨_, rfl, Or.inr ⟨rfl, rfl, previous, rfl⟩⟩
    | error message => exact Or.inr ⟨_, rfl, Or.inl rfl⟩
    | completed => exact Or.inr ⟨_, rfl, Or.inl rfl⟩
    | _ => exact Or.inl ⟨_, rfl, .pause trivial⟩
  | resume =>
    cases s with
    | paused previous => exact Or.inl ⟨_, rfl, .resume previous⟩
    | _ => exact Or.inr ⟨_, rfl, Or.inl rfl⟩
  | fail message => exact Or.inl ⟨_, rfl, .fail s message⟩
  | complete =>
    cases s with
    | downloading => exact Or.inl ⟨_, rfl, .complete⟩
    | seeding => exact Or.inl ⟨_, rfl, .retire⟩
    | _ => exact Or.inr ⟨_, rfl, Or.inl rfl⟩

variable {s s' t : DownloadState} {c : Call} {calls : List Call}

theorem moves_of_step (h : step s c = some s') : Moves s s' := by
  unfold step at h
  rcases answer_cases s c with ⟨t, ht, hmoves⟩ | ⟨e, he, -⟩
  · rw [ht] at h
    cases h
    exact hmoves
  · rw [he] at h
    cases h
    exact .stay s

/-! ### The states -/

/-- A progress is a percentage, and what is paused is going on otherwise. -/
def Sound : DownloadState → Prop
  | checking progress => progress ≤ 100
  | paused previous => Ongoing previous ∧ Sound previous
  | queued | downloading | seeding | error _ | completed => True

theorem Moves.sound (h : Moves s t) (hs : Sound s) : Sound t := by
  cases h with
  | stay => exact hs
  | progress p q => exact Nat.min_le_right q 100
  | pause hongoing => exact ⟨hongoing, hs⟩
  | resume => exact hs.2
  | check => exact Nat.zero_le 100
  | start | checked | seed | fail | complete | retire => trivial

/-- Every sound state can be called up. -/
theorem exists_run : ∀ {s : DownloadState}, Sound s → ∃ calls, run step queued calls = some s
  | queued, _ => ⟨[], rfl⟩
  | checking p, (h : p ≤ 100) => by
    refine ⟨[.startChecking, .updateCheckingProgress p], ?_⟩
    show some (checking (min p 100)) = some (checking p)
    rw [Nat.min_eq_left h]
  | downloading, _ => ⟨[.startDownloading], rfl⟩
  | seeding, _ => ⟨[.startDownloading, .startSeeding], rfl⟩
  | error message, _ => ⟨[.fail message], rfl⟩
  | completed, _ => ⟨[.startDownloading, .complete], rfl⟩
  | paused previous, h => by
    obtain ⟨calls, hcalls⟩ := exists_run h.2
    refine ⟨calls ++ [.pause], run_concat hcalls ?_⟩
    cases previous with
    | queued | checking | downloading | seeding => rfl
    | paused | error | completed => exact h.1.elim

/-- **The states that calls lead to** are the sound ones. -/
theorem reachable_iff_sound : (∃ calls, run step queued calls = some s) ↔ Sound s := by
  constructor
  · rintro ⟨calls, hcalls⟩
    have hstep : ∀ s c s', Sound s → step s c = some s' → Sound s' :=
      fun _ _ _ hs h => (moves_of_step h).sound hs
    have hstart : Sound queued := trivial
    exact inv_run hstep hstart hcalls
  · exact exists_run

/-! ### The order of the phases -/

/-- The phase, which a pause does not change. -/
def phase : DownloadState → ℕ
  | queued => 0
  | checking _ => 1
  | downloading => 2
  | seeding => 3
  | completed => 4
  | error _ => 5
  | paused previous => phase previous

theorem phase_le_five : ∀ s, phase s ≤ 5
  | queued | checking _ | downloading | seeding | completed | error _ => by unfold phase; omega
  | paused previous => phase_le_five previous

theorem Moves.phase_le (h : Moves s t) : phase s ≤ phase t := by
  cases h with
  | fail => exact phase_le_five s
  | stay | pause | resume | progress => exact Nat.le_refl _
  | check | start | checked | seed | complete | retire => simp [phase]

/-- **No phase comes back.** -/
theorem phase_run (h : run step s calls = some t) : phase s ≤ phase t := by
  have hstep : ∀ u c u', phase s ≤ phase u → step u c = some u' → phase s ≤ phase u' :=
    fun _ _ _ hu h => hu.trans (moves_of_step h).phase_le
  exact inv_run hstep (Nat.le_refl _) h

theorem phase_run_check : phase queued ≤ phase (paused (checking 40)) :=
  @phase_run queued (paused (checking 40)) [.startChecking, .updateCheckingProgress 40, .pause] rfl

/-- A failure is for good. -/
theorem failed_run (hs : phase s = 5) (h : run step s calls = some t) : phase t = 5 := by
  have hstep : ∀ u c u', phase u = 5 → step u c = some u' → phase u' = 5 := by
    intro u c u' hu h
    have hle := (moves_of_step h).phase_le
    have hfive := phase_le_five u'
    omega
  exact inv_run hstep hs h

/-- The phases from the download on are entered through it. -/
theorem Moves.enters (h : Moves s t) (hs : phase s < 2) : t = downloading ∨ phase t < 2 ∨ phase t = 5 := by
  cases h with
  | start => exact Or.inl rfl
  | checked => exact Or.inl rfl
  | fail => exact Or.inr (Or.inr rfl)
  | stay | pause | resume | progress => exact Or.inr (Or.inl hs)
  | check => exact Or.inr (Or.inl (by decide))
  | seed | complete | retire => exact absurd hs (by decide)

theorem downloading_of_run : ∀ {calls : List Call} {s : DownloadState}, phase s < 2 →
    run step s calls = some t → 2 ≤ phase t → phase t ≤ 4 →
      ∃ before after, calls = before ++ after ∧ run step s before = some downloading
  | [], s, hs, h, hlow, _ => by
    obtain rfl : s = t := Option.some.inj h
    omega
  | c :: calls, s, hs, h, hlow, hhigh => by
    obtain ⟨u, hu, h⟩ := run_cons_some h
    rcases (moves_of_step hu).enters hs with rfl | hphase | hphase
    · refine ⟨[c], calls, rfl, ?_⟩
      rw [run, hu]
      rfl
    · obtain ⟨before, after, rfl, hbefore⟩ := downloading_of_run hphase h hlow hhigh
      refine ⟨c :: before, after, rfl, ?_⟩
      rw [run, hu]
      exact hbefore
    · have hfailed := failed_run hphase h
      omega

theorem phase_of_isActive (h : s.isActive = true) : 2 ≤ phase s ∧ phase s ≤ 4 := by
  cases s with
  | downloading | seeding => simp [phase]
  | queued | checking | paused | error | completed => simp [isActive] at h

/-- **Nothing is active or complete that has not been downloading.** -/
theorem downloading_of_active (h : run step queued calls = some t) (ht : t.isActive = true ∨ t = completed) :
    ∃ before after, calls = before ++ after ∧ run step queued before = some downloading := by
  have hstart : phase queued < 2 := by decide
  rcases ht with hactive | rfl
  · obtain ⟨hlow, hhigh⟩ := phase_of_isActive hactive
    exact downloading_of_run hstart h hlow hhigh
  · exact downloading_of_run hstart h (by decide) (by decide)

theorem downloading_of_active_seeding : ∃ before after,
    [.startChecking, .startDownloading, .startSeeding] = before ++ after ∧
      run step queued before = some downloading :=
  downloading_of_active (t := seeding) rfl (Or.inl rfl)

theorem Ongoing.not_terminal (h : Ongoing s) : s.isTerminal = false := by
  cases s with
  | queued | checking | downloading | seeding | paused => rfl
  | error | completed => exact h.elim

theorem Moves.terminal (h : Moves s t) (hs : s.isTerminal = true) : t.isTerminal = true := by
  cases h with
  | stay => exact hs
  | fail => rfl
  | pause hongoing =>
    rw [hongoing.not_terminal] at hs
    cases hs
  | check | progress | start | checked | seed | resume | complete | retire => simp [isTerminal] at hs

/-- A download that has ended stays so: it can only be declared failed. -/
theorem isTerminal_run (hs : s.isTerminal = true) (h : run step s calls = some t) : t.isTerminal = true := by
  have hstep : ∀ u c u', u.isTerminal = true → step u c = some u' → u'.isTerminal = true :=
    fun _ _ _ hu h => (moves_of_step h).terminal hu
  exact inv_run hstep hs h

/-! ### Pauses -/

/-- The call does not end the pause of `s`. -/
def Call.Waits (s : DownloadState) : Call → Prop
  | .resume | .fail _ => False
  | .startDownloading => s ≠ downloading
  | .startChecking | .updateCheckingProgress _ | .startSeeding | .pause | .complete => True

theorem step_paused (hc : c.Waits s) : step (paused s) c = some (paused s) := by
  cases c with
  | resume => exact hc.elim
  | fail => exact hc.elim
  | startDownloading =>
    cases s with
    | downloading => exact absurd rfl hc
    | _ => rfl
  | startChecking | updateCheckingProgress | startSeeding | pause | complete => rfl

theorem run_paused : ∀ {calls : List Call}, (∀ c ∈ calls, c.Waits s) →
    run step (paused s) calls = some (paused s)
  | [], _ => rfl
  | c :: calls, h => by
    rw [run, step_paused (h c List.mem_cons_self)]
    exact run_paused fun c' hc' => h c' (List.mem_cons_of_mem _ hc')

/-- **A pause leaves no trace**, whatever else is called while it lasts. -/
theorem resume_pause (hs : Ongoing s) (h : ∀ c ∈ calls, c.Waits s) :
    run step s (.pause :: calls ++ [.resume]) = some s := by
  have hpause : step s .pause = some (paused s) := by
    cases s with
    | queued | checking | downloading | seeding => rfl
    | paused | error | completed => exact hs.elim
  have hrun : run step s (.pause :: calls) = some (paused s) := by
    rw [run, hpause]
    exact run_paused h
  exact run_concat hrun rfl

theorem resume_pause_downloading :
    run step downloading [.pause, .complete, .startSeeding, .resume] = some downloading :=
  @resume_pause downloading [.complete, .startSeeding] trivial (by simp [Call.Waits])

end CncContent.Downloads.Lifecycle
