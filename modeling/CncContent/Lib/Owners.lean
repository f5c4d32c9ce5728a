import Mathlib.Data.List.Basic
import Mathlib.Tactic.SplitIfs

/-! # Exclusive ownership

Numbered processes, each of which holds at most one resource, as its state shows. Ownership stays
exclusive when one process changes its state, if what it holds afterwards it held before or nobody
did (`Exclusive.set`); `owned_set_iff` says which resources are held then, and `countP_set_add` how
many processes are in a state of some kind. -/

namespace CncContent.Lib.Owners

variable {π : Type} (holds : π → Option ℕ)

/-- Process `w` holds resource `r`. -/
def Owns (ws : List π) (w r : ℕ) : Prop := ∃ pc, ws[w]? = some pc ∧ holds pc = some r

/-- No resource is held by two processes. -/
def Exclusive (ws : List π) : Prop := ∀ w w' r, Owns holds ws w r → Owns holds ws w' r → w = w'

variable {holds} {ws : List π} {w : ℕ} {pc : π}

theorem Owns.holds_eq {r : ℕ} (h : Owns holds ws w r) (hw : ws[w]? = some pc) :
    holds pc = some r := by
  obtain ⟨pc', hpc', hr⟩ := h
  rw [hw] at hpc'
  cases hpc'
  exact hr

theorem getElem?_set (hw : ws[w]? = some pc) (pc' : π) (v : ℕ) :
    (ws.set w pc')[v]? = if v = w then some pc' else ws[v]? := by
  obtain ⟨hlt, -⟩ := List.getElem?_eq_some_iff.mp hw
  split_ifs with hv
  · subst hv
    exact List.getElem?_set_self hlt
  · exact List.getElem?_set_ne (Ne.symm hv)

theorem owns_set_self (hw : ws[w]? = some pc) (pc' : π) (r : ℕ) :
    Owns holds (ws.set w pc') w r ↔ holds pc' = some r := by
  unfold Owns
  rw [getElem?_set hw, if_pos rfl]
  exact ⟨fun ⟨_, h, hr⟩ => by cases h; exact hr, fun h => ⟨pc', rfl, h⟩⟩

theorem owns_set_ne (hw : ws[w]? = some pc) (pc' : π) {v : ℕ} (hv : v ≠ w) (r : ℕ) :
    Owns holds (ws.set w pc') v r ↔ Owns holds ws v r := by
  unfold Owns
  rw [getElem?_set hw, if_neg hv]

/-- **One process changes its state**: what it holds then is its own or was free. -/
theorem Exclusive.set (h : Exclusive holds ws) (hw : ws[w]? = some pc) {pc' : π}
    (hnew : ∀ r, holds pc' = some r → holds pc = some r ∨ ∀ v, ¬ Owns holds ws v r) :
    Exclusive holds (ws.set w pc') := by
  have hother : ∀ v r, v ≠ w → Owns holds (ws.set w pc') v r →
      ¬ Owns holds (ws.set w pc') w r := by
    intro v r hv hvr hwr
    rw [owns_set_ne hw pc' hv] at hvr
    rw [owns_set_self hw] at hwr
    rcases hnew r hwr with hr | hr
    · exact hv (h v w r hvr ⟨pc, hw, hr⟩)
    · exact hr v hvr
  intro v v' r hv hv'
  by_cases hvw : v = w
  · subst hvw
    by_contra hne
    exact hother v' r (Ne.symm hne) hv' hv
  · by_cases hvw' : v' = w
    · subst hvw'
      exact absurd hv' (hother v r hvw hv)
    · rw [owns_set_ne hw pc' hvw] at hv
      rw [owns_set_ne hw pc' hvw'] at hv'
      exact h v v' r hv hv'

/-- What is held after the change. -/
theorem owned_set_iff (h : Exclusive holds ws) (hw : ws[w]? = some pc) (pc' : π) (r : ℕ) :
    (∃ v, Owns holds (ws.set w pc') v r) ↔
      holds pc' = some r ∨ holds pc ≠ some r ∧ ∃ v, Owns holds ws v r := by
  constructor
  · rintro ⟨v, hv⟩
    by_cases hvw : v = w
    · subst hvw
      exact Or.inl ((owns_set_self hw pc' r).mp hv)
    · rw [owns_set_ne hw pc' hvw] at hv
      exact Or.inr ⟨fun hr => hvw (h v w r hv ⟨pc, hw, hr⟩), v, hv⟩
  · rintro (hr | ⟨hr, v, hv⟩)
    · exact ⟨w, (owns_set_self hw pc' r).mpr hr⟩
    · have hvw : v ≠ w := by
        rintro rfl
        exact hr (hv.holds_eq hw)
      exact ⟨v, (owns_set_ne hw pc' hvw r).mpr hv⟩

/-- How many processes satisfy a test changes with the one process. -/
theorem countP_set_add (hw : ws[w]? = some pc) (f : π → Bool) (pc' : π) :
    (ws.set w pc').countP f + (if f pc then 1 else 0) = ws.countP f + if f pc' then 1 else 0 := by
  obtain ⟨hlt, rfl⟩ := List.getElem?_eq_some_iff.mp hw
  have hle : (if f ws[w] then 1 else 0) ≤ ws.countP f := by
    split_ifs with hf
    · exact List.countP_pos_iff.mpr ⟨_, List.getElem_mem hlt, hf⟩
    · exact Nat.zero_le _
  rw [List.countP_set hlt]
  omega

end CncContent.Lib.Owners
