import Mathlib.Control.Basic

/-! # Computations that keep what they have done

An `Attempt` changes a state and may fail. A failure keeps the state as it is: what has been done before it
is not undone. Attempts are a lawful monad, so two of them can be compared by their equations: what succeeds
goes on from the state it has reached (`bind_of_ok`), and a failure ends what follows (`bind_of_error`).

`Leaves R m` says that `m` leaves every state in the relation `R` to the one it has found, whether it fails or
not; a reflexive and transitive relation is kept by everything that is put together of such attempts
(`Leaves.bind` and its like). -/

namespace CncContent.Lib.Attempts

/-- A computation that changes a state and may fail. -/
def Attempt (σ ε α : Type) := σ → Except ε α × σ

variable {σ ε α β : Type}

namespace Attempt

def pure (a : α) : Attempt σ ε α := fun s => (.ok a, s)

def bind (m : Attempt σ ε α) (f : α → Attempt σ ε β) : Attempt σ ε β := fun s =>
  match m s with
  | (.ok a, s') => f a s'
  | (.error e, s') => (.error e, s')

instance : Monad (Attempt σ ε) where
  pure := pure
  bind := bind

end Attempt

/-- The early return with an error. -/
def fail (e : ε) : Attempt σ ε α := fun s => (.error e, s)

/-- `?` on a value that is there already. -/
def orReturn : Except ε α → Attempt σ ε α
  | .ok a => pure a
  | .error e => fail e

/-- Something about the state. -/
def gets (f : σ → α) : Attempt σ ε α := fun s => (.ok (f s), s)

theorem bind_of_ok {m : Attempt σ ε α} {s s' : σ} {a : α} (h : m s = (.ok a, s'))
    (f : α → Attempt σ ε β) : (m >>= f) s = f a s' := by
  change Attempt.bind m f s = f a s'
  unfold Attempt.bind
  rw [h]

theorem bind_of_error {m : Attempt σ ε α} {s s' : σ} {e : ε} (h : m s = (.error e, s'))
    (f : α → Attempt σ ε β) : (m >>= f) s = (.error e, s') := by
  change Attempt.bind m f s = (.error e, s')
  unfold Attempt.bind
  rw [h]

/-- What follows depends on what the first computation does. -/
theorem bind_apply_congr {m m' : Attempt σ ε α} {s s' : σ} (h : m s = m' s') (f : α → Attempt σ ε β) :
    (m >>= f) s = (m' >>= f) s' := by
  change Attempt.bind m f s = Attempt.bind m' f s'
  unfold Attempt.bind
  rw [h]

theorem gets_bind (g : σ → α) (f : α → Attempt σ ε β) (s : σ) : (gets g >>= f) s = f (g s) s := rfl

theorem id_map_attempt (m : Attempt σ ε α) : id <$> m = m := by
  funext s
  change Attempt.bind m (fun a => Attempt.pure (id a)) s = m s
  unfold Attempt.bind
  rcases m s with ⟨_ | _, _⟩ <;> rfl

theorem bind_assoc_attempt {γ : Type} (m : Attempt σ ε α) (f : α → Attempt σ ε β) (g : β → Attempt σ ε γ) :
    (m >>= f) >>= g = m >>= fun a => f a >>= g := by
  funext s
  change Attempt.bind (Attempt.bind m f) g s = Attempt.bind m (fun a => Attempt.bind (f a) g) s
  unfold Attempt.bind
  rcases m s with ⟨_ | _, _⟩ <;> rfl

instance : LawfulMonad (Attempt σ ε) :=
  LawfulMonad.mk' _ id_map_attempt (fun _ _ => rfl) bind_assoc_attempt

/-- A failure becomes a value. -/
def attempt (m : Attempt σ ε α) : Attempt σ ε (Except ε α) := fun s => (.ok (m s).1, (m s).2)

/-- The error as one of another type. -/
def mapFailure {δ : Type} (f : ε → δ) (m : Attempt σ ε α) : Attempt σ δ α := fun s =>
  ((m s).1.mapError f, (m s).2)

/-- One attempt for each element of the list. -/
def forEach {γ : Type} (f : γ → Attempt σ ε Unit) : List γ → Attempt σ ε Unit
  | [] => pure ()
  | c :: cs => do
    f c
    forEach f cs

theorem bind_eq_ok_iff {m : Attempt σ ε α} {f : α → Attempt σ ε β} {s s' : σ} {b : β} :
    (m >>= f) s = (.ok b, s') ↔ ∃ a t, m s = (.ok a, t) ∧ f a t = (.ok b, s') := by
  rcases hm : m s with ⟨e | a, t⟩
  · rw [bind_of_error hm]
    constructor
    · intro h
      cases h
    · rintro ⟨a, t', h, -⟩
      cases h
  · rw [bind_of_ok hm]
    constructor
    · exact fun h => ⟨a, t, rfl, h⟩
    · rintro ⟨a', t', h, h'⟩
      cases h
      exact h'

theorem mapFailure_of_ok {δ : Type} {f : ε → δ} {m : Attempt σ ε α} {s s' : σ} {a : α}
    (h : mapFailure f m s = (.ok a, s')) : m s = (.ok a, s') := by
  unfold mapFailure at h
  rcases hm : m s with ⟨e | b, t⟩ <;> rw [hm] at h <;> cases h
  rfl

/-! ### What an attempt leaves -/

/-- The state that is left is in the relation to the one that was found. -/
def Leaves (R : σ → σ → Prop) (m : Attempt σ ε α) : Prop := ∀ s, R s (m s).2

section Leaves

variable {R : σ → σ → Prop}

theorem Leaves.pure (hrefl : ∀ s, R s s) (a : α) : Leaves R (pure a : Attempt σ ε α) := fun s => hrefl s

theorem Leaves.fail (hrefl : ∀ s, R s s) (e : ε) : Leaves R (fail e : Attempt σ ε α) := fun s => hrefl s

theorem Leaves.orReturn (hrefl : ∀ s, R s s) (r : Except ε α) : Leaves R (orReturn r : Attempt σ ε α) := by
  rcases r with e | a
  · exact Leaves.fail hrefl e
  · exact Leaves.pure hrefl a

/-- What follows a value that is there already. -/
theorem leaves_orReturn_bind (hrefl : ∀ s, R s s) {r : Except ε α} {f : α → Attempt σ ε β}
    (hf : ∀ a, r = .ok a → Leaves R (f a)) : Leaves R (orReturn r >>= f : Attempt σ ε β) := by
  rcases r with e | a
  · exact Leaves.fail hrefl e
  · exact hf a rfl

/-- What follows matters only if the first has succeeded. -/
theorem leaves_bind_at (htrans : ∀ s t u, R s t → R t u → R s u) {m : Attempt σ ε α} {f : α → Attempt σ ε β} {s : σ}
    (hs : R s (m s).2) (hf : ∀ a t, m s = (.ok a, t) → R t (f a t).2) : R s ((m >>= f) s).2 := by
  rcases h : m s with ⟨e | a, t⟩
  · rw [bind_of_error h]
    rwa [h] at hs
  · rw [bind_of_ok h]
    rw [h] at hs
    exact htrans s t _ hs (hf a t h)

/-- **One after the other.** -/
theorem Leaves.bind (htrans : ∀ s t u, R s t → R t u → R s u) {m : Attempt σ ε α} {f : α → Attempt σ ε β}
    (hm : Leaves R m) (hf : ∀ a, Leaves R (f a)) : Leaves R (m >>= f) :=
  fun s => leaves_bind_at htrans (hm s) fun a t _ => hf a t

theorem Leaves.gets (hrefl : ∀ s, R s s) (f : σ → α) : Leaves R (gets f : Attempt σ ε α) := fun s => hrefl s

theorem Leaves.attempt {m : Attempt σ ε α} (hm : Leaves R m) : Leaves R (attempt m) := hm

theorem Leaves.mapFailure {δ : Type} {m : Attempt σ ε α} (hm : Leaves R m) (f : ε → δ) :
    Leaves R (mapFailure f m) := hm

theorem Leaves.forEach {γ : Type} (hrefl : ∀ s, R s s) (htrans : ∀ s t u, R s t → R t u → R s u)
    {f : γ → Attempt σ ε Unit} (hf : ∀ c, Leaves R (f c)) : ∀ cs : List γ, Leaves R (forEach f cs)
  | [] => Leaves.pure hrefl ()
  | c :: cs => (hf c).bind htrans fun _ => Leaves.forEach hrefl htrans hf cs

end Leaves

end CncContent.Lib.Attempts
