import Mathlib.Tactic.TypeStar

/-! # Computations with early returns

A computation that may fail returns an `Except`. `okOr` turns a missing value into an error and
`refuse` is the early return of a check. A computation succeeds if all its parts do
(`bind_eq_ok`, `map_eq_ok`, `mapError_eq_ok`, `okOr_eq_ok`, `refuse_eq_ok`), and fails with the error of
the first part that fails (`bind_eq_error` and its like). -/

namespace CncContent.Lib.Checks

variable {ε α β : Type*}

def okOr (o : Option α) (e : ε) : Except ε α :=
  match o with
  | some a => .ok a
  | none => .error e

def refuse (bad : Bool) (e : ε) : Except ε Unit :=
  if bad then .error e else .ok ()

theorem bind_eq_ok {α β : Type} {x : Except ε α} {f : α → Except ε β} {b : β} :
    (x >>= f) = .ok b ↔ ∃ a, x = .ok a ∧ f a = .ok b := by
  cases x with
  | error e => exact ⟨nofun, fun ⟨_, h, _⟩ => by cases h⟩
  | ok a => exact ⟨fun h => ⟨a, rfl, h⟩, fun ⟨_, h, h'⟩ => by cases h; exact h'⟩

theorem pure_eq_ok {α : Type} {a b : α} : (pure a : Except ε α) = .ok b ↔ a = b :=
  ⟨fun h => Except.ok.inj h, fun h => congrArg Except.ok h⟩

theorem map_eq_ok {α β : Type} {x : Except ε α} {f : α → β} {b : β} :
    x.map f = .ok b ↔ ∃ a, x = .ok a ∧ f a = b := by
  cases x with
  | error e => exact ⟨nofun, fun ⟨_, h, _⟩ => by cases h⟩
  | ok a => exact ⟨fun h => ⟨a, rfl, by cases h; rfl⟩, fun ⟨_, h, h'⟩ => by cases h; cases h'; rfl⟩

theorem mapError_eq_ok {ε' : Type*} {x : Except ε α} {f : ε → ε'} {a : α} :
    x.mapError f = .ok a ↔ x = .ok a := by
  rcases x with e | b
  · exact ⟨nofun, nofun⟩
  · exact ⟨fun h => by cases h; rfl, fun h => by cases h; rfl⟩

theorem okOr_eq_ok {o : Option α} {e : ε} {a : α} : okOr o e = .ok a ↔ o = some a := by
  cases o with
  | none => exact ⟨nofun, nofun⟩
  | some b => exact ⟨fun h => by cases h; rfl, fun h => by cases h; rfl⟩

theorem refuse_eq_ok {bad : Bool} {e : ε} {u : Unit} : refuse bad e = .ok u ↔ bad = false := by
  cases bad with
  | false => exact ⟨fun _ => rfl, fun _ => rfl⟩
  | true => exact ⟨nofun, nofun⟩

/-! ### Errors -/

theorem bind_eq_error {α β : Type} {x : Except ε α} {f : α → Except ε β} {e : ε} :
    (x >>= f) = .error e ↔ x = .error e ∨ ∃ a, x = .ok a ∧ f a = .error e := by
  rcases x with e' | a
  · constructor
    · exact fun h => Or.inl (by cases h; rfl)
    · rintro (h | ⟨a, h, -⟩) <;> cases h
      rfl
  · constructor
    · exact fun h => Or.inr ⟨a, rfl, h⟩
    · rintro (h | ⟨a, h, h'⟩) <;> cases h
      exact h'

theorem map_eq_error {α β : Type} {x : Except ε α} {f : α → β} {e : ε} :
    x.map f = .error e ↔ x = .error e := by
  rcases x with e' | a
  · exact ⟨fun h => by cases h; rfl, fun h => by cases h; rfl⟩
  · exact ⟨nofun, nofun⟩

theorem mapError_eq_error {ε' : Type*} {x : Except ε α} {f : ε → ε'} {e' : ε'} :
    x.mapError f = .error e' ↔ ∃ e, x = .error e ∧ f e = e' := by
  cases x with
  | error e =>
    exact ⟨fun h => ⟨e, rfl, Except.error.inj h⟩, fun ⟨_, h, h'⟩ => by cases h; cases h'; rfl⟩
  | ok a => exact ⟨nofun, fun ⟨_, h, _⟩ => by cases h⟩

theorem okOr_eq_error {o : Option α} {e e' : ε} : okOr o e = .error e' ↔ o = none ∧ e = e' := by
  cases o with
  | none => exact ⟨fun h => ⟨rfl, Except.error.inj h⟩, fun ⟨_, h⟩ => by cases h; rfl⟩
  | some a => exact ⟨nofun, fun ⟨h, _⟩ => by cases h⟩

theorem refuse_eq_error {bad : Bool} {e e' : ε} : refuse bad e = .error e' ↔ bad = true ∧ e = e' := by
  cases bad with
  | false => exact ⟨nofun, fun ⟨h, _⟩ => by cases h⟩
  | true => exact ⟨fun h => ⟨rfl, Except.error.inj h⟩, fun ⟨_, h⟩ => by cases h; rfl⟩

/-- The only check of a computation. -/
theorem refuse_bind_eq_error {α : Type} {bad : Bool} {e e' : ε} {f : Unit → Except ε α}
    (hf : bad = false → ∃ a, (refuse bad e >>= f) = .ok a) :
    (refuse bad e >>= f) = .error e' ↔ bad = true ∧ e' = e := by
  cases bad with
  | true => exact ⟨fun h => ⟨rfl, (Except.error.inj h).symm⟩, fun h => congrArg Except.error h.2.symm⟩
  | false =>
    obtain ⟨a, ha⟩ := hf rfl
    rw [ha]
    exact ⟨nofun, nofun⟩

/-! ### Loops -/

/-- A loop of checks. -/
theorem forM_eq_ok {α : Type} {f : α → Except ε Unit} : ∀ {l : List α},
    l.forM f = .ok () ↔ ∀ a ∈ l, f a = .ok ()
  | [] => ⟨fun _ => nofun, fun _ => rfl⟩
  | a :: l => by
    have hcons : (a :: l).forM f = f a >>= fun _ => l.forM f := rfl
    rw [hcons, List.forall_mem_cons, bind_eq_ok]
    constructor
    · rintro ⟨⟨⟩, ha, hl⟩
      exact ⟨ha, forM_eq_ok.mp hl⟩
    · rintro ⟨ha, hl⟩
      exact ⟨(), ha, forM_eq_ok.mpr hl⟩

end CncContent.Lib.Checks
