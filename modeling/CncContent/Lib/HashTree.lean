import Mathlib.Data.List.Basic
import Mathlib.Data.List.Induction
import Mathlib.Data.Nat.Bitwise
import Mathlib.Tactic.TypeStar
import Mathlib.Tactic.SplitIfs

/-! # Hash trees

A binary tree over data is hashed from its leaves to its root. Leaves and inner nodes are hashed by
the same function `h`: what is hashed for a leaf is its data, and what is hashed for an inner node is
`join` of the digests of its children (`LeafTree.pre`). A proof is a list of siblings, the lowest first,
and `climb` is what is hashed last when it is followed from some data.

Levels are combined until one tree is left, an odd last tree is kept (`combineLevel`, `levelsAbove`,
`topOf`). If nothing that is hashed collides, a climb that ends in the digest of the root starts at a
node of the tree, or below one of its leaves (`opens_or_below`). The siblings of a node, level by level,
lead from it to the top (`follow_siblings`). -/

namespace CncContent.Lib.HashTree

/-! ### Levels -/

section Levels

variable {α γ : Type*} (f : α → α → α)

/-- Neighbours combined; an odd last one is kept. -/
def combineLevel : List α → List α
  | a :: b :: l => f a b :: combineLevel l
  | [a] => [a]
  | [] => []

theorem length_combineLevel : ∀ l : List α, (combineLevel f l).length = (l.length + 1) / 2
  | a :: b :: l => by
    have ih := length_combineLevel l
    simp only [combineLevel, List.length_cons, ih]
    omega
  | [_] => by simp [combineLevel]
  | [] => by simp [combineLevel]

/-- The levels above one with more than one node, up to the one with a single node. -/
def levelsAbove (l : List α) : List (List α) :=
  if 1 < l.length then combineLevel f l :: levelsAbove (combineLevel f l) else []
termination_by l.length
decreasing_by
  rw [length_combineLevel]
  omega

/-- The first node of the last level. -/
def topOf (levels : List (List α)) : Option α := levels.getLast?.bind List.head?

variable {f} {f' : γ → γ → γ} {g : α → γ}

theorem map_combineLevel (hg : ∀ a b, g (f a b) = f' (g a) (g b)) :
    ∀ l : List α, (combineLevel f l).map g = combineLevel f' (l.map g)
  | a :: b :: l => by simp only [combineLevel, List.map_cons, hg, map_combineLevel hg l]
  | [a] => rfl
  | [] => rfl

/-- A map that respects the combination respects the levels. -/
theorem map_levelsAbove (hg : ∀ a b, g (f a b) = f' (g a) (g b)) (l : List α) :
    (levelsAbove f l).map (List.map g) = levelsAbove f' (l.map g) := by
  rw [levelsAbove.eq_def f, levelsAbove.eq_def f', List.length_map]
  split_ifs with h
  · rw [List.map_cons, map_levelsAbove hg (combineLevel f l), map_combineLevel hg]
  · rfl
termination_by l.length
decreasing_by
  rw [length_combineLevel]
  omega

theorem topOf_map (levels : List (List α)) :
    topOf (levels.map (List.map g)) = (topOf levels).map g := by
  unfold topOf
  rw [List.getLast?_map]
  cases levels.getLast? with
  | none => rfl
  | some l => exact List.head?_map

theorem topOf_cons_levelsAbove {l : List α} (h : 1 < l.length) :
    topOf (l :: levelsAbove f l) = topOf (combineLevel f l :: levelsAbove f (combineLevel f l)) := by
  rw [levelsAbove, if_pos h]
  rfl

end Levels

/-! ### Trees -/

section Trees

variable {β δ : Type*}

inductive LeafTree (β : Type*)
  | leaf (data : β)
  | node (left right : LeafTree β)

/-- The data of the leaves, from left to right. -/
def LeafTree.leaves : LeafTree β → List β
  | .leaf data => [data]
  | .node left right => left.leaves ++ right.leaves

/-- A node of a proof: the digest of a sibling, and the side it is on. -/
structure ProofNode (δ : Type*) where
  hash : δ
  isLeft : Bool
deriving DecidableEq, Repr

theorem flatMap_leaves_combineLevel : ∀ l : List (LeafTree β),
    (combineLevel .node l).flatMap LeafTree.leaves = l.flatMap LeafTree.leaves
  | a :: b :: l => by
    simp only [combineLevel, List.flatMap_cons, LeafTree.leaves, flatMap_leaves_combineLevel l,
      List.append_assoc]
  | [a] => rfl
  | [] => rfl

/-- **Combining ends with one tree**, which has all the leaves. -/
theorem exists_top {l : List (LeafTree β)} (h : l ≠ []) :
    ∃ t, topOf (l :: levelsAbove .node l) = some t ∧ t.leaves = l.flatMap LeafTree.leaves := by
  by_cases hlen : 1 < l.length
  · have hpair : (combineLevel LeafTree.node l).length = (l.length + 1) / 2 := length_combineLevel _ l
    have hne : combineLevel LeafTree.node l ≠ [] := by
      rw [← List.length_pos_iff]
      omega
    obtain ⟨t, htop, hleaves⟩ := exists_top hne
    exact ⟨t, (topOf_cons_levelsAbove hlen).trans htop,
      hleaves.trans (flatMap_leaves_combineLevel l)⟩
  · obtain ⟨t, rfl⟩ : ∃ t, l = [t] := by
      rw [← List.length_eq_one_iff]
      have := List.length_pos_iff.mpr h
      omega
    refine ⟨t, ?_, (List.append_nil _).symm⟩
    rw [levelsAbove, if_neg hlen]
    rfl
termination_by l.length
decreasing_by
  omega

variable (h : β → δ) (join : δ → δ → β)

/-- What is hashed for the root of the tree. -/
def LeafTree.pre : LeafTree β → β
  | .leaf data => data
  | .node left right => join (h left.pre) (h right.pre)

/-- What is hashed for the nodes of the tree. -/
def LeafTree.preimages : LeafTree β → List β
  | .leaf data => [data]
  | .node left right => join (h (left.pre h join)) (h (right.pre h join)) ::
      (left.preimages ++ right.preimages)

theorem LeafTree.pre_mem_preimages (t : LeafTree β) : t.pre h join ∈ t.preimages h join := by
  cases t with
  | leaf data => exact List.mem_singleton_self data
  | node left right => exact List.mem_cons_self

/-- What is hashed for the parent of something hashed, by a node of a proof. -/
def parent (b : β) (n : ProofNode δ) : β :=
  if n.isLeft then join n.hash (h b) else join (h b) n.hash

/-- What is hashed last. -/
def climb (b : β) (proof : List (ProofNode δ)) : β := proof.foldl (parent h join) b

/-- What is hashed on the way. -/
def climbed : β → List (ProofNode δ) → List β
  | b, [] => [b]
  | b, n :: proof => b :: climbed (parent h join b n) proof

theorem climb_append (b : β) (lower upper : List (ProofNode δ)) :
    climb h join b (lower ++ upper) = climb h join (climb h join b lower) upper :=
  List.foldl_append

theorem climb_mem_climbed : ∀ (proof : List (ProofNode δ)) (b : β),
    climb h join b proof ∈ climbed h join b proof
  | [], b => List.mem_singleton_self b
  | n :: proof, b => List.mem_cons_of_mem _ (climb_mem_climbed proof (parent h join b n))

theorem climbed_subset_append : ∀ (lower upper : List (ProofNode δ)) (b : β),
    climbed h join b lower ⊆ climbed h join b (lower ++ upper)
  | [], upper, b, _, hx => by
    rw [List.mem_singleton.mp hx]
    cases upper <;> exact List.mem_cons_self
  | n :: lower, upper, b, _, hx => by
    rcases List.mem_cons.mp hx with rfl | hx
    · exact List.mem_cons_self
    · exact List.mem_cons_of_mem _ (climbed_subset_append lower upper (parent h join b n) hx)

/-- The proof, followed from its end, leads from the root of the tree to a subtree. -/
inductive Leads : LeafTree β → List (ProofNode δ) → LeafTree β → Prop
  | here (t : LeafTree β) : Leads t [] t
  | left {l r t : LeafTree β} {proof : List (ProofNode δ)} (hl : Leads l proof t) :
      Leads (.node l r) (proof ++ [⟨h (r.pre h join), false⟩]) t
  | right {l r t : LeafTree β} {proof : List (ProofNode δ)} (hr : Leads r proof t) :
      Leads (.node l r) (proof ++ [⟨h (l.pre h join), true⟩]) t

variable {h join}

theorem Leads.leaf_mem {t : LeafTree β} {proof : List (ProofNode δ)} {b : β}
    (hl : Leads h join t proof (.leaf b)) : b ∈ t.leaves := by
  generalize hs : LeafTree.leaf b = s at hl
  induction hl with
  | here t => subst hs; exact List.mem_singleton_self b
  | left hl ih => exact List.mem_append_left _ (ih hs)
  | right hr ih => exact List.mem_append_right _ (ih hs)

/-- **A climb from a node of the tree** along the proof that leads there ends at the root. -/
theorem Leads.climb_pre {t s : LeafTree β} {proof : List (ProofNode δ)} (hl : Leads h join t proof s) :
    climb h join (s.pre h join) proof = t.pre h join := by
  induction hl with
  | here t => rfl
  | left hl ih =>
    rw [climb_append, ih]
    rfl
  | right hr ih =>
    rw [climb_append, ih]
    rfl

/-- **Where a climb to the root starts**, if no two of the things that are hashed collide. -/
theorem opens_or_below (hjoin : ∀ a b c d, join a b = join c d → a = c ∧ b = d)
    {hashed : List β} (hfree : ∀ x ∈ hashed, ∀ y ∈ hashed, h x = h y → x = y) (b : β)
    (proof : List (ProofNode δ)) : ∀ {t : LeafTree β}, t.preimages h join ⊆ hashed →
      climbed h join b proof ⊆ hashed → h (climb h join b proof) = h (t.pre h join) →
        (∃ s, Leads h join t proof s ∧ s.pre h join = b) ∨
        ∃ lower upper c, proof = lower ++ upper ∧ lower ≠ [] ∧
          Leads h join t upper (.leaf c) ∧ climb h join b lower = c := by
  induction proof using List.reverseRecOn with
  | nil =>
    intro t htree hclimb heq
    have hb : b = t.pre h join :=
      hfree _ (hclimb (List.mem_singleton_self b)) _ (htree (t.pre_mem_preimages h join)) heq
    exact Or.inl ⟨t, .here t, hb.symm⟩
  | append_singleton proof n ih =>
    intro t htree hclimb heq
    have hlast : climb h join b (proof ++ [n]) = t.pre h join :=
      hfree _ (hclimb (climb_mem_climbed h join _ b)) _ (htree (t.pre_mem_preimages h join)) heq
    have hclimb' : climbed h join b proof ⊆ hashed := fun _ hx =>
      hclimb (climbed_subset_append h join proof [n] b hx)
    cases t with
    | leaf c => exact Or.inr ⟨proof ++ [n], [], c, (List.append_nil _).symm, by simp, .here _, hlast⟩
    | node l r =>
      rw [climb_append] at hlast
      have hl : l.preimages h join ⊆ hashed := fun x hx =>
        htree (List.mem_cons_of_mem _ (List.mem_append_left _ hx))
      have hr : r.preimages h join ⊆ hashed := fun x hx =>
        htree (List.mem_cons_of_mem _ (List.mem_append_right _ hx))
      obtain ⟨hash, isLeft⟩ := n
      -- the last node of the proof is the sibling below the root
      cases isLeft with
      | false =>
        obtain ⟨hcur, hsib⟩ := hjoin _ _ _ _ hlast
        change hash = _ at hsib
        subst hsib
        rcases ih hl hclimb' hcur with ⟨s, hs, hpre⟩ | ⟨lower, upper, c, rfl, hne, hc, hcl⟩
        · exact Or.inl ⟨s, .left hs, hpre⟩
        · exact Or.inr ⟨lower, upper ++ [_], c, List.append_assoc _ _ _, hne, .left hc, hcl⟩
      | true =>
        obtain ⟨hsib, hcur⟩ := hjoin _ _ _ _ hlast
        change hash = _ at hsib
        subst hsib
        rcases ih hr hclimb' hcur with ⟨s, hs, hpre⟩ | ⟨lower, upper, c, rfl, hne, hc, hcl⟩
        · exact Or.inl ⟨s, .right hs, hpre⟩
        · exact Or.inr ⟨lower, upper ++ [_], c, List.append_assoc _ _ _, hne, .right hc, hcl⟩

end Trees

/-! ### Siblings -/

section Siblings

variable {δ : Type*} (f : δ → δ → δ)

/-- The sibling in the level, if the node at the place has one. -/
def siblingIn (level : List δ) (i : ℕ) : List (ProofNode δ) :=
  (level[i ^^^ 1]?.map fun hash => ⟨hash, decide (i ^^^ 1 < i)⟩).toList

/-- The siblings of the node at the place, level by level. -/
def siblings : List (List δ) → ℕ → List (ProofNode δ)
  | [], _ => []
  | level :: levels, i =>
    if level.length ≤ 1 then [] else siblingIn level i ++ siblings levels (i / 2)

/-- The node combined with the siblings, one after the other. -/
def follow (a : δ) (proof : List (ProofNode δ)) : δ :=
  proof.foldl (fun current node =>
    if node.isLeft then f node.hash current else f current node.hash) a

theorem follow_append (a : δ) (lower upper : List (ProofNode δ)) :
    follow f a (lower ++ upper) = follow f (follow f a lower) upper := List.foldl_append

theorem xor_one_add_two (i : ℕ) : (i + 2) ^^^ 1 = (i ^^^ 1) + 2 := by
  rcases Nat.even_or_odd i with h | h
  · rw [Nat.xor_one_of_even h, Nat.xor_one_of_even (h.add even_two)]
  · obtain ⟨k, hk⟩ := id h
    rw [Nat.xor_one_of_odd h, Nat.xor_one_of_odd (h.add_even even_two)]
    omega

theorem siblingIn_add_two (a b : δ) (l : List δ) (i : ℕ) :
    siblingIn (a :: b :: l) (i + 2) = siblingIn l i := by
  have hlt : (i ^^^ 1) + 2 < i + 2 ↔ i ^^^ 1 < i := by omega
  unfold siblingIn
  rw [xor_one_add_two]
  simp only [List.getElem?_cons_succ, hlt]

variable {f}

/-- **One level up**, the node above is the node combined with its sibling. -/
theorem getElem?_combineLevel : ∀ {l : List δ} {i : ℕ} {a : δ}, l[i]? = some a →
    (combineLevel f l)[i / 2]? = some (follow f a (siblingIn l i))
  | [_], 0, _, h => by
    cases h
    rfl
  | _ :: _ :: _, 0, _, h => by
    cases h
    rfl
  | _ :: _ :: _, 1, _, h => by
    cases h
    rfl
  | c :: d :: l, i + 2, a, h => by
    rw [siblingIn_add_two, ← getElem?_combineLevel (l := l) h, combineLevel,
      Nat.add_div_right i (Nat.succ_pos 1)]
    rfl

/-- **The siblings lead to the top.** -/
theorem follow_siblings {l : List δ} {i : ℕ} {a : δ} (h : l[i]? = some a) :
    topOf (l :: levelsAbove f l) = some (follow f a (siblings (l :: levelsAbove f l) i)) := by
  obtain ⟨hlt, -⟩ := List.getElem?_eq_some_iff.mp h
  by_cases hlen : 1 < l.length
  · have hshorter : (combineLevel f l).length < l.length := by
      rw [length_combineLevel]
      omega
    have hstep : siblings (l :: levelsAbove f l) i = siblingIn l i ++
        siblings (combineLevel f l :: levelsAbove f (combineLevel f l)) (i / 2) := by
      rw [siblings, if_neg (Nat.not_le.mpr hlen), levelsAbove.eq_def f l, if_pos hlen]
    rw [topOf_cons_levelsAbove hlen, hstep, follow_append]
    exact follow_siblings (getElem?_combineLevel h)
  · obtain ⟨b, rfl⟩ := List.length_eq_one_iff.mp (by omega : l.length = 1)
    rw [levelsAbove, if_neg hlen, siblings, if_pos (Nat.le_of_not_lt hlen)]
    rw [List.length_singleton, Nat.lt_one_iff] at hlt
    subst hlt
    cases h
    rfl
termination_by l.length

end Siblings

end CncContent.Lib.HashTree
