import Mathlib.Data.List.Pairwise
import Mathlib.Data.List.Perm.Subperm
import Mathlib.Tactic.SplitIfs

/-! # Writes at offsets

A store is a function from positions to bytes. A write puts a list of bytes at an offset; `overlay`
is its effect, `window` reads a range, and `overlayAll` is the effect of a list of writes in order.
Of pairwise disjoint writes the order does not matter: every position holds the byte of the one write
that covers it (`overlayAll_of_mem`), or what it held before (`overlayAll_of_not_covered`). -/

namespace CncContent.Lib.Overlay

variable {β ω : Type}

/-- The store after writing `data` at `off`. -/
def overlay (c : ℕ → β) (off : ℕ) (data : List β) : ℕ → β := fun x =>
  if off ≤ x then (data[x - off]?).getD (c x) else c x

/-- The position lies in the range written. -/
def Within (off len x : ℕ) : Prop := off ≤ x ∧ x < off + len

theorem overlay_of_within {c : ℕ → β} {off : ℕ} {data : List β} {x : ℕ}
    (h : Within off data.length x) (c' : ℕ → β) : overlay c off data x = overlay c' off data x := by
  unfold overlay
  have hlt : x - off < data.length := by have := h.2; have := h.1; omega
  rw [if_pos h.1, if_pos h.1, List.getElem?_eq_getElem hlt]
  rfl

theorem overlay_of_not_within {c : ℕ → β} {off : ℕ} {data : List β} {x : ℕ}
    (h : ¬ Within off data.length x) : overlay c off data x = c x := by
  unfold overlay
  split_ifs with hle
  · rw [List.getElem?_eq_none (by by_contra hlt; exact h ⟨hle, by omega⟩)]
    rfl
  · rfl

/-- The bytes at the `n` positions from `off` on. -/
def window (c : ℕ → β) (off n : ℕ) : List β := (List.range n).map fun k => c (off + k)

theorem length_window (c : ℕ → β) (off n : ℕ) : (window c off n).length = n := by
  unfold window
  rw [List.length_map, List.length_range]

theorem getElem_window {c : ℕ → β} {off n k : ℕ} (hk : k < (window c off n).length) :
    (window c off n)[k] = c (off + k) := by
  simp only [window, List.getElem_map, List.getElem_range]

theorem window_congr {c c' : ℕ → β} {off n : ℕ} (h : ∀ x, Within off n x → c x = c' x) :
    window c off n = window c' off n :=
  List.map_congr_left fun k hk => h _ ⟨by omega, by have := List.mem_range.mp hk; omega⟩

/-- **What has been written is read back.** -/
theorem window_overlay (c : ℕ → β) (off : ℕ) (data : List β) :
    window (overlay c off data) off data.length = data := by
  refine List.ext_getElem (length_window _ _ _) fun k hk hk' => ?_
  rw [getElem_window]
  unfold overlay
  rw [if_pos (Nat.le_add_right off k), Nat.add_sub_cancel_left, List.getElem?_eq_getElem hk']
  rfl

theorem window_eq_iff {c c' : ℕ → β} {off n : ℕ} :
    window c off n = window c' off n ↔ ∀ x, Within off n x → c x = c' x := by
  refine ⟨fun h x hx => ?_, window_congr⟩
  have hk : x - off < n := by have := hx.1; have := hx.2; omega
  have hget : ∀ c'' : ℕ → β, (window c'' off n)[x - off]? = some (c'' x) := fun c'' => by
    unfold window
    rw [List.getElem?_map, List.getElem?_range hk]
    exact congrArg (some ∘ c'') (Nat.add_sub_cancel' hx.1)
  exact Option.some.inj (by rw [← hget c, h, hget c'])

/-- A byte of a write. -/
theorem overlay_eq_of_getElem? {c : ℕ → β} {off x : ℕ} {data : List β} {b : β} (hle : off ≤ x)
    (h : data[x - off]? = some b) : overlay c off data x = b := by
  unfold overlay
  rw [if_pos hle, h]
  rfl

/-- Writing what is there changes nothing. -/
theorem overlay_window (c : ℕ → β) (off n : ℕ) : overlay c off (window c off n) = c := by
  funext x
  by_cases hx : Within off n x
  · have hk : x - off < (window c off n).length := by
      rw [length_window]
      have := hx.1
      have := hx.2
      omega
    refine overlay_eq_of_getElem? hx.1 ?_
    rw [List.getElem?_eq_getElem hk, getElem_window, Nat.add_sub_cancel' hx.1]
  · exact overlay_of_not_within (by rwa [length_window])

variable (off : ω → ℕ) (data : ω → List β)

/-- The write covers the position. -/
def CoversAt (w : ω) (x : ℕ) : Prop := Within (off w) (data w).length x

/-- No position is covered by both writes. -/
def Apart (w w' : ω) : Prop := ∀ x, CoversAt off data w x → ¬ CoversAt off data w' x

/-- The store after the writes, in order. -/
def overlayAll (c : ℕ → β) (ws : List ω) : ℕ → β :=
  ws.foldl (fun c w => overlay c (off w) (data w)) c

variable {off data}

theorem Apart.symm {w w' : ω} (h : Apart off data w w') : Apart off data w' w :=
  fun x hx' hx => h x hx hx'

@[simp] theorem overlayAll_nil (c : ℕ → β) : overlayAll off data c [] = c := rfl

theorem overlayAll_cons (c : ℕ → β) (w : ω) (ws : List ω) :
    overlayAll off data c (w :: ws) = overlayAll off data (overlay c (off w) (data w)) ws := rfl

theorem overlayAll_append (c : ℕ → β) (ws ws' : List ω) :
    overlayAll off data c (ws ++ ws') = overlayAll off data (overlayAll off data c ws) ws' :=
  List.foldl_append

/-- A position no write covers keeps its byte. -/
theorem overlayAll_of_not_covered {x : ℕ} : ∀ {ws : List ω} (c : ℕ → β),
    (∀ w ∈ ws, ¬ CoversAt off data w x) → overlayAll off data c ws x = c x
  | [], _, _ => rfl
  | w :: ws, c, h => by
    rw [overlayAll_cons, overlayAll_of_not_covered _ fun w' hw' => h w' (by simp [hw'])]
    exact overlay_of_not_within (h w (by simp))

/-- Writes keep the agreement of two stores at a position. -/
theorem overlayAll_base {x : ℕ} : ∀ (ws : List ω) {c c' : ℕ → β}, c x = c' x →
    overlayAll off data c ws x = overlayAll off data c' ws x
  | [], _, _, h => h
  | w :: ws, c, c', h => by
    rw [overlayAll_cons, overlayAll_cons]
    refine overlayAll_base ws ?_
    unfold overlay
    rw [h]

/-- **A position one of pairwise disjoint writes covers** holds the byte of that write. -/
theorem overlayAll_of_mem {x : ℕ} : ∀ {ws : List ω} (c c' : ℕ → β), ws.Pairwise (Apart off data) →
    ∀ {w : ω}, w ∈ ws → CoversAt off data w x →
      overlayAll off data c ws x = overlay c' (off w) (data w) x
  | a :: ws, c, c', hp, w, hw, hx => by
    rw [List.pairwise_cons] at hp
    rw [overlayAll_cons]
    rcases List.mem_cons.mp hw with rfl | hw
    · rw [overlayAll_of_not_covered _ fun w' hw' => hp.1 w' hw' x hx]
      exact overlay_of_within hx c'
    · exact overlayAll_of_mem _ c' hp.2 hw hx

/-- **Two lists of writes agree at a position** if both are taken from one list of pairwise disjoint
writes and the writes that cover the position occur in both. -/
theorem overlayAll_congr {ws ws' all : List ω} {x : ℕ} (c : ℕ → β)
    (hall : all.Pairwise (Apart off data)) (hws : ws.Subperm all) (hws' : ws'.Subperm all)
    (h : ∀ w, CoversAt off data w x → (w ∈ ws ↔ w ∈ ws')) :
    overlayAll off data c ws x = overlayAll off data c ws' x := by
  have apart : ∀ {l : List ω}, l.Subperm all → l.Pairwise (Apart off data) := by
    rintro l ⟨l', hperm, hsub⟩
    exact (hperm.pairwise_iff fun h => h.symm).mp (hall.sublist hsub)
  by_cases hc : ∃ w ∈ ws, CoversAt off data w x
  · obtain ⟨w, hw, hx⟩ := hc
    rw [overlayAll_of_mem c c (apart hws) hw hx,
      overlayAll_of_mem c c (apart hws') ((h w hx).mp hw) hx]
  · have hn : ∀ w ∈ ws, ¬ CoversAt off data w x := fun w hw hx => hc ⟨w, hw, hx⟩
    rw [overlayAll_of_not_covered c hn,
      overlayAll_of_not_covered c fun w hw hx => hc ⟨w, (h w hx).mpr hw, hx⟩]

end CncContent.Lib.Overlay
