import Mathlib.Data.Nat.Basic

/-! # Loops that may not end

The body of a loop returns whether to go on, with the new state, or nothing if it does not return
itself. `loop body n s` is the state in which the loop ends within `n` rounds. A larger bound gives
the same state (`loop_mono`), so a loop that ends within some bound ends in that state; and a loop
whose body preserves an invariant and decreases a measure ends (`loop_total`). What the body preserves
holds where the loop ends (`loop_inv`); `working body n s` are the states its rounds work on.

Where the rounds themselves matter, the loop goes on while `next` has a state: `rounds next n s` are the
states that its rounds start from, `exhaust next n s` is the state it ends in, after at most `n` rounds
(`next_exhaust`). -/

namespace CncContent.Lib.Loop

variable {σ : Type}

/-- The state in which the loop ends, if it does within the given number of rounds. -/
def loop (body : σ → Option (Bool × σ)) : ℕ → σ → Option σ
  | 0, _ => none
  | n + 1, s =>
    match body s with
    | none => none
    | some (true, s') => loop body n s'
    | some (false, s') => some s'

variable {body : σ → Option (Bool × σ)}

theorem loop_mono : ∀ {n k : ℕ} {s s' : σ}, loop body n s = some s' → n ≤ k →
    loop body k s = some s'
  | n + 1, 0, _, _, _, hk => absurd hk (Nat.not_succ_le_zero n)
  | n + 1, k + 1, s, s', h, hk => by
    unfold loop at h ⊢
    rcases hb : body s with _ | ⟨_ | _, t⟩
    · rw [hb] at h
      cases h
    · rw [hb] at h
      exact h
    · rw [hb] at h
      exact loop_mono h (Nat.le_of_succ_le_succ hk)

/-- **Total correctness of a loop.** The body returns; if it goes on it keeps the invariant and
decreases the measure, and if it ends it establishes the result. -/
theorem loop_total {I Q : σ → Prop} (m : σ → ℕ)
    (hbody : ∀ s, I s → (∃ t, body s = some (true, t) ∧ I t ∧ m t < m s) ∨
      ∃ t, body s = some (false, t) ∧ Q t) :
    ∀ {s : σ}, I s → ∃ t, loop body (m s + 1) s = some t ∧ Q t := by
  intro s
  induction hm : m s using Nat.strong_induction_on generalizing s with
  | _ n ih =>
    intro hI
    rcases hbody s hI with ⟨t, hb, hIt, hlt⟩ | ⟨t, hb, hQ⟩
    · obtain ⟨u, hu, hQ⟩ := ih (m t) (hm ▸ hlt) rfl hIt
      refine ⟨u, ?_, hQ⟩
      unfold loop
      rw [hb]
      exact loop_mono hu (by omega)
    · refine ⟨t, ?_, hQ⟩
      unfold loop
      rw [hb]

/-- **An invariant of the body** holds where the loop ends. -/
theorem loop_inv {I : σ → Prop} (hbody : ∀ s b t, I s → body s = some (b, t) → I t) :
    ∀ {n : ℕ} {s t : σ}, I s → loop body n s = some t → I t
  | 0, _, _, _, h => by cases h
  | n + 1, s, t, hs, h => by
    unfold loop at h
    rcases hb : body s with _ | ⟨_ | _, u⟩
    · rw [hb] at h
      cases h
    · rw [hb] at h
      cases h
      exact hbody s false t hs hb
    · rw [hb] at h
      exact loop_inv hbody (hbody s true u hs hb) h

/-- The states in which a round starts that goes on, or does not return. -/
def working (body : σ → Option (Bool × σ)) : ℕ → σ → List σ
  | 0, _ => []
  | n + 1, s =>
    match body s with
    | none => [s]
    | some (true, t) => s :: working body n t
    | some (false, _) => []

/-! ### Rounds -/

/-- The states the rounds start from. -/
def rounds (next : σ → Option σ) : ℕ → σ → List σ
  | 0, _ => []
  | n + 1, s =>
    match next s with
    | none => []
    | some t => s :: rounds next n t

/-- The state after the rounds. -/
def exhaust (next : σ → Option σ) : ℕ → σ → σ
  | 0, s => s
  | n + 1, s =>
    match next s with
    | none => s
    | some t => exhaust next n t

variable {next : σ → Option σ} {s t : σ}

/-- **An invariant of the rounds** holds after them. -/
theorem exhaust_inv {I : σ → Prop} (hround : ∀ s t, I s → next s = some t → I t) :
    ∀ (n : ℕ) {s : σ}, I s → I (exhaust next n s)
  | 0, _, hI => hI
  | n + 1, s, hI => by
    unfold exhaust
    rcases hs : next s with _ | t
    · exact hI
    · exact exhaust_inv hround n (hround s t hI hs)

/-- **A loop with a measure** has ended after so many rounds. -/
theorem next_exhaust {m : σ → ℕ} (hround : ∀ s t, next s = some t → m t < m s) :
    ∀ {n : ℕ} {s : σ}, m s ≤ n → next (exhaust next n s) = none
  | 0, s, hn => by
    rcases hs : next s with _ | t
    · exact hs
    · exact absurd (hround s t hs) (by omega)
  | n + 1, s, hn => by
    unfold exhaust
    rcases hs : next s with _ | t
    · exact hs
    · exact next_exhaust hround (by have := hround s t hs; omega)

theorem rounds_of_none (hs : next s = none) : ∀ n, rounds next n s = []
  | 0 => rfl
  | _ + 1 => by rw [rounds, hs]

/-- A loop that ends after one round. -/
theorem rounds_of_some (hs : next s = some t) (ht : next t = none) (n : ℕ) :
    rounds next (n + 1) s = [s] := by
  rw [rounds, hs]
  exact congrArg (s :: ·) (rounds_of_none ht n)

end CncContent.Lib.Loop
