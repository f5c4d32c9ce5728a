import Mathlib.Data.Option.Basic

/-! # Runs of a transition system

A system is a partial step function: `step s a` is the state after the action `a`, if `a` is
possible in `s`. `run` performs a list of actions. `Always` says that a property holds in every
state a run goes through, `Meets` that every action is taken in a state in which a condition allows
it. The rules reduce both to facts about one step:

* `inv_run`, `always_of_inv`: an invariant of every step holds at the end of a run and throughout it;
* `inv_run_mem`: an invariant of the steps by the actions of one run;
* `always_of_meets`: a property preserved by the steps that meet a condition holds throughout every
  run whose steps all meet it;
* `always_iff_meets`: if moreover the steps that keep the property have to meet the condition, the
  two are equivalent;
* `meets_iff_forall`: a condition on the actions alone;
* `run_getLast`: a value is that of the last action that sets it;
* `run_filter`: a second system follows the actions that matter to it. -/

namespace CncContent.Lib.Runs

variable {σ α : Type} (step : σ → α → Option σ)

/-- The state after the actions, if all are possible. -/
def run : σ → List α → Option σ
  | s, [] => some s
  | s, a :: as =>
    match step s a with
    | some s' => run s' as
    | none => none

/-- The property holds in every state of the run. -/
def Always (P : σ → Prop) : σ → List α → Prop
  | s, [] => P s
  | s, a :: as => P s ∧ ∀ s', step s a = some s' → Always P s' as

/-- Every action of the run is taken in a state in which the condition allows it. -/
def Meets (C : σ → α → Prop) : σ → List α → Prop
  | _, [] => True
  | s, a :: as => C s a ∧ ∀ s', step s a = some s' → Meets C s' as

/-- Over decidable conditions a run can be checked. -/
instance decidableAlways {P : σ → Prop} [DecidablePred P] : ∀ s as, Decidable (Always step P s as)
  | s, [] => inferInstanceAs (Decidable (P s))
  | s, a :: as =>
    match hs : step s a with
    | none => decidable_of_iff (P s) ⟨fun h => ⟨h, fun t ht => by rw [hs] at ht; cases ht⟩, And.left⟩
    | some t =>
      have : Decidable (Always step P t as) := decidableAlways t as
      decidable_of_iff (P s ∧ Always step P t as)
        ⟨fun h => ⟨h.1, fun t' ht => by rw [hs] at ht; cases ht; exact h.2⟩,
          fun h => ⟨h.1, h.2 t hs⟩⟩

instance decidableMeets {C : σ → α → Prop} [∀ s a, Decidable (C s a)] :
    ∀ s as, Decidable (Meets step C s as)
  | _, [] => isTrue trivial
  | s, a :: as =>
    match hs : step s a with
    | none => decidable_of_iff (C s a) ⟨fun h => ⟨h, fun t ht => by rw [hs] at ht; cases ht⟩, And.left⟩
    | some t =>
      have : Decidable (Meets step C t as) := decidableMeets t as
      decidable_of_iff (C s a ∧ Meets step C t as)
        ⟨fun h => ⟨h.1, fun t' ht => by rw [hs] at ht; cases ht; exact h.2⟩,
          fun h => ⟨h.1, h.2 t hs⟩⟩

variable {step}

theorem run_cons_some {s s' : σ} {a : α} {as : List α} (h : run step s (a :: as) = some s') :
    ∃ t, step s a = some t ∧ run step t as = some s' := by
  rw [run] at h
  rcases hs : step s a with _ | t
  · rw [hs] at h; cases h
  · rw [hs] at h; exact ⟨t, rfl, h⟩

/-- One more action at the end. -/
theorem run_concat : ∀ {as : List α} {s t t' : σ} {a : α}, run step s as = some t → step t a = some t' →
    run step s (as ++ [a]) = some t'
  | [], s, t, t', a, h, ha => by
    cases h
    rw [List.nil_append, run, ha]
    rfl
  | b :: as, s, t, t', a, h, ha => by
    obtain ⟨u, hu, h⟩ := run_cons_some h
    rw [List.cons_append, run, hu]
    exact run_concat h ha

/-- One more action in front. -/
theorem Meets.cons {C : σ → α → Prop} {s t : σ} {a : α} {as : List α} (hs : step s a = some t)
    (hC : C s a) (h : Meets step C t as) : Meets step C s (a :: as) :=
  ⟨hC, fun t' ht => by
    rw [hs] at ht
    cases ht
    exact h⟩

theorem Always.head {P : σ → Prop} : ∀ {as : List α} {s : σ}, Always step P s as → P s
  | [], _, h => h
  | _ :: _, _, h => h.1

/-- A property that holds throughout a run holds at its end. -/
theorem Always.last {P : σ → Prop} : ∀ {as : List α} {s s' : σ}, Always step P s as →
    run step s as = some s' → P s'
  | [], s, s', h, hr => by cases hr; exact h
  | a :: as, s, s', h, hr => by
    obtain ⟨t, ht, hr'⟩ := run_cons_some hr
    exact (h.2 t ht).last hr'

theorem Always.mono {P Q : σ → Prop} (hPQ : ∀ s, P s → Q s) : ∀ {as : List α} {s : σ},
    Always step P s as → Always step Q s as
  | [], s, h => hPQ s h
  | _ :: _, s, h => ⟨hPQ s h.1, fun t ht => (h.2 t ht).mono hPQ⟩

/-- **A property preserved by the steps that meet the condition** holds throughout the run. -/
theorem always_of_meets {P : σ → Prop} {C : σ → α → Prop}
    (hstep : ∀ s a s', P s → C s a → step s a = some s' → P s') : ∀ {as : List α} {s : σ},
    P s → Meets step C s as → Always step P s as
  | [], _, hP, _ => hP
  | a :: _, s, hP, hC =>
    ⟨hP, fun t ht => always_of_meets hstep (hstep s a t hP hC.1 ht) (hC.2 t ht)⟩

/-- **An invariant of every step** holds at the end of every run. -/
theorem inv_run {P : σ → Prop} (hstep : ∀ s a s', P s → step s a = some s' → P s') :
    ∀ {as : List α} {s s' : σ}, P s → run step s as = some s' → P s'
  | [], s, s', hP, hr => by cases hr; exact hP
  | a :: as, s, s', hP, hr => by
    obtain ⟨t, ht, hr'⟩ := run_cons_some hr
    exact inv_run hstep (hstep s a t hP ht) hr'

/-- An invariant of the steps by the actions of the run. -/
theorem inv_run_mem {P : σ → Prop} : ∀ {as : List α} {s s' : σ},
    (∀ s, ∀ a ∈ as, ∀ s', P s → step s a = some s' → P s') → P s → run step s as = some s' → P s'
  | [], s, s', _, hP, hr => by cases hr; exact hP
  | a :: as, s, s', hstep, hP, hr => by
    obtain ⟨t, ht, hr'⟩ := run_cons_some hr
    have hPt := hstep s a List.mem_cons_self t hP ht
    exact inv_run_mem (fun s b hb => hstep s b (List.mem_cons_of_mem _ hb)) hPt hr'

/-- **An invariant of every step** holds throughout every run. -/
theorem always_of_inv {P : σ → Prop} (hstep : ∀ s a s', P s → step s a = some s' → P s') :
    ∀ {as : List α} {s : σ}, P s → Always step P s as
  | [], _, hP => hP
  | a :: _, s, hP => ⟨hP, fun t ht => always_of_inv hstep (hstep s a t hP ht)⟩

/-- **The exact condition**: let `I` be an invariant of the steps from states with the property, and
suppose that a step from such a state keeps the property exactly when it meets the condition. Then a
run keeps the property throughout exactly when all its steps meet the condition. Where no step is
possible the condition has to hold. -/
theorem always_iff_meets {I P : σ → Prop} {C : σ → α → Prop}
    (hinv : ∀ s a s', I s → P s → step s a = some s' → I s')
    (hstep : ∀ s a s', I s → P s → step s a = some s' → (P s' ↔ C s a))
    (hposs : ∀ s a, I s → P s → step s a = none → C s a) : ∀ {as : List α} {s : σ},
    I s → P s → (Always step P s as ↔ Meets step C s as)
  | [], _, _, hP => ⟨fun _ => trivial, fun _ => hP⟩
  | a :: as, s, hI, hP => by
    constructor
    · rintro ⟨-, h⟩
      rcases hs : step s a with _ | t
      · exact ⟨hposs s a hI hP hs, fun t ht => by rw [hs] at ht; cases ht⟩
      · have hPt := (h t hs).head
        refine ⟨(hstep s a t hI hP hs).mp hPt, fun t' ht' => ?_⟩
        have hI' := hinv s a t' hI hP ht'
        exact (always_iff_meets hinv hstep hposs hI' (h t' ht').head).mp (h t' ht')
    · rintro ⟨hC, h⟩
      refine ⟨hP, fun t ht => ?_⟩
      have hPt := (hstep s a t hI hP ht).mpr hC
      exact (always_iff_meets hinv hstep hposs (hinv s a t hI hP ht) hPt).mpr (h t ht)

/-- A condition on the actions alone, if every action is possible. -/
theorem meets_iff_forall {C : α → Prop} (hposs : ∀ s a, ∃ t, step s a = some t) :
    ∀ {as : List α} {s : σ}, Meets step (fun _ a => C a) s as ↔ ∀ a ∈ as, C a
  | [], _ => ⟨fun _ => nofun, fun _ => trivial⟩
  | a :: as, s => by
    obtain ⟨t, ht⟩ := hposs s a
    rw [List.forall_mem_cons]
    refine and_congr_right fun _ => ⟨fun h => (meets_iff_forall hposs).mp (h t ht), fun h t' ht' => ?_⟩
    exact (meets_iff_forall hposs).mpr h

/-- **A value is that of the last action that sets it**, or the one of the start. -/
theorem run_getLast {β : Type} {f : σ → Option β} {sets : α → Option β} {I : σ → Prop}
    (hinv : ∀ s a s', I s → step s a = some s' → I s')
    (hstep : ∀ s a s', I s → step s a = some s' → f s' = (sets a).or (f s)) :
    ∀ {as : List α} {s s' : σ}, I s → run step s as = some s' →
      f s' = ((as.filterMap sets).getLast?).or (f s)
  | [], s, s', _, h => by
    cases h
    rfl
  | a :: as, s, s', hI, h => by
    obtain ⟨t, ht, hr⟩ := run_cons_some h
    rw [run_getLast hinv hstep (hinv s a t hI ht) hr, hstep s a t hI ht, ← Option.or_assoc]
    congr 1
    rcases ha : sets a with _ | b
    · rw [List.filterMap_cons_none ha, Option.or_none]
    · rw [List.filterMap_cons_some ha, List.getLast?_cons]
      rcases (as.filterMap sets).getLast? with _ | c <;> rfl

/-! ### Two runs -/

/-- **A run without the actions that do not matter.** If an action that is kept can be followed by the other
system, and one that is dropped makes no difference to it, then the other system can follow the kept ones. -/
theorem run_filter {τ : Type} {step' : τ → α → Option τ} {R : σ → τ → Prop} {keep : α → Bool}
    (hkeep : ∀ s t a s', R s t → keep a = true → step s a = some s' → ∃ t', step' t a = some t' ∧ R s' t')
    (hdrop : ∀ s t a s', R s t → keep a = false → step s a = some s' → R s' t) :
    ∀ {as : List α} {s s' : σ} {t : τ}, R s t → run step s as = some s' →
      ∃ t', run step' t (as.filter keep) = some t' ∧ R s' t'
  | [], s, s', t, hR, h => by
    cases h
    exact ⟨t, rfl, hR⟩
  | a :: as, s, s', t, hR, h => by
    obtain ⟨u, hu, hr⟩ := run_cons_some h
    rcases ha : keep a with _ | _
    · rw [List.filter_cons_of_neg (by rw [ha]; exact Bool.false_ne_true)]
      exact run_filter hkeep hdrop (hdrop s t a u hR ha hu) hr
    · obtain ⟨v, hv, hR'⟩ := hkeep s t a u hR ha hu
      obtain ⟨t', ht', hR''⟩ := run_filter hkeep hdrop hR' hr
      refine ⟨t', ?_, hR''⟩
      rw [List.filter_cons_of_pos ha, run, hv]
      exact ht'

end CncContent.Lib.Runs
