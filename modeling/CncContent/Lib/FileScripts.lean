import CncContent.Lib.Attempts
import CncContent.Lib.Checks
import CncContent.Lib.FileTree
import Mathlib.Algebra.GroupWithZero.Nat

/-! # Scripts of file commands

A script is a list of calls on a tree of files, with reports of progress between them and perhaps an error at
its end. `runScript faults` performs it: every call may break off as `faults` says, which ends the run and may
leave a part of the call's effect behind (`wreck`). What a run can leave is known exactly (`runScript_cases`):
what the script does to the tree up to some command, and a part of that command.

If no path that the script writes or removes is a directory on the way to another one (`Separate`), the script
overwrites whatever an earlier run of it has left: it ends as if that run had never been (`runScript_rerun`).
The same holds of stages, which are scripts that depend on what is in the tree when they start
(`runStages_rerun`), if every stage looks only at what is settled by then (`Fed`). -/

namespace CncContent.Lib.FileScripts

open CncContent.Lib.Attempts CncContent.Lib.Checks CncContent.Lib.FileTree

variable {ν β ι ε : Type} [DecidableEq ν]

inductive Command (ν β ι ε : Type)
  | access
  | parents (path : List ν)
  | write (path : List ν) (contents : List β)
  | remove (path : List ν)
  | report (event : ι)
  | stop (error : ε)
deriving DecidableEq

/-- How a call breaks off, and how much of it has been done. -/
structure Fault (ε : Type) where
  error : ε
  done : Option ℕ
deriving DecidableEq

/-- The tree, the number of calls so far, and the reports. -/
structure World (ν β ι : Type) where
  tree : Tree ν β
  clock : ℕ
  log : List ι

section Running

variable (refused : Refusal → ε) (faults : ℕ → Option (Fault ε))

/-- What a command makes of the tree. -/
def exec : Command ν β ι ε → Tree ν β → Except ε (Tree ν β)
  | .access, t => .ok t
  | .parents p, t => (makeParents p t).mapError refused
  | .write p contents, t => (write p contents t).mapError refused
  | .remove p, t => (remove p t).mapError refused
  | .report _, t => .ok t
  | .stop e, _ => .error e

/-- What a command leaves that breaks off: some of the directories, or a file with a part of the contents. -/
def wreck (done : Option ℕ) : Command ν β ι ε → Tree ν β → Tree ν β
  | .parents p, t => if Blocked t p then t else makeFirst (done.getD 0) p t
  | .write p contents, t =>
    match done, write p contents t with
    | some n, .ok _ => put p (some (.file (contents.take n))) t
    | _, _ => t
  | _, t => t

/-- The command makes a call that can break off. -/
def reaches : Command ν β ι ε → Tree ν β → Bool
  | .remove p, t => (node t p).isSome
  | .report _, _ => false
  | .stop _, _ => false
  | _, _ => true

omit [DecidableEq ν] in
/-- The calls that are counted. -/
def calls : Command ν β ι ε → ℕ
  | .report _ => 0
  | .stop _ => 0
  | _ => 1

def events : Command ν β ι ε → List ι
  | .report e => [e]
  | _ => []

def perform (c : Command ν β ι ε) : Attempt (World ν β ι) ε Unit := fun w =>
  match if reaches c w.tree then faults w.clock else none with
  | some fault =>
    (.error fault.error, { w with tree := wreck fault.done c w.tree, clock := w.clock + 1 })
  | none =>
    match exec refused c w.tree with
    | .ok t => (.ok (), ⟨t, w.clock + calls c, w.log ++ events c⟩)
    | .error e => (.error e, { w with clock := w.clock + calls c })

def runScript : List (Command ν β ι ε) → Attempt (World ν β ι) ε Unit
  | [] => pure ()
  | c :: cs => do
    perform refused faults c
    runScript cs

/-- The commands that a run without faults gets through. -/
def done : List (Command ν β ι ε) → Tree ν β → List (Command ν β ι ε)
  | [], _ => []
  | c :: cs, t =>
    match exec refused c t with
    | .ok t' => c :: done cs t'
    | .error _ => []

/-- The tree behind a script that gets through. -/
def execAll : List (Command ν β ι ε) → Tree ν β → Except ε (Tree ν β)
  | [], t => .ok t
  | c :: cs, t =>
    match exec refused c t with
    | .ok t' => execAll cs t'
    | .error e => .error e

end Running

def noFaults : ℕ → Option (Fault ε) := fun _ => none

variable {refused : Refusal → ε} {faults : ℕ → Option (Fault ε)}

/-! ### Steps -/

theorem perform_of_fault {c : Command ν β ι ε} {w : World ν β ι} {fault : Fault ε}
    (hr : reaches c w.tree = true) (hf : faults w.clock = some fault) :
    perform refused faults c w =
      (.error fault.error, { w with tree := wreck fault.done c w.tree, clock := w.clock + 1 }) := by
  unfold perform
  rw [if_pos hr, hf]

/-- No fault meets the command. -/
def Spared (faults : ℕ → Option (Fault ε)) (c : Command ν β ι ε) (w : World ν β ι) : Prop :=
  reaches c w.tree = true → faults w.clock = none

omit [DecidableEq ν] in
theorem spared_noFaults (c : Command ν β ι ε) (w : World ν β ι) : Spared noFaults c w := fun _ => rfl

theorem perform_of_ok {c : Command ν β ι ε} {w : World ν β ι} {t : Tree ν β} (hs : Spared faults c w)
    (h : exec refused c w.tree = .ok t) :
    perform refused faults c w = (.ok (), ⟨t, w.clock + calls c, w.log ++ events c⟩) := by
  unfold perform
  split
  · rename_i hf
    split_ifs at hf with hr
    rw [hs hr] at hf
    cases hf
  · rw [h]

theorem perform_of_error {c : Command ν β ι ε} {w : World ν β ι} {e : ε} (hs : Spared faults c w)
    (h : exec refused c w.tree = .error e) :
    perform refused faults c w = (.error e, { w with clock := w.clock + calls c }) := by
  unfold perform
  split
  · rename_i hf
    split_ifs at hf with hr
    rw [hs hr] at hf
    cases hf
  · rw [h]

/-- What a command leaves: the tree as it was, a part of its effect, or all of it. -/
theorem perform_tree (c : Command ν β ι ε) (w : World ν β ι) :
    (perform refused faults c w).2.tree = w.tree ∨
      (∃ n, (perform refused faults c w).2.tree = wreck n c w.tree) ∨
      exec refused c w.tree = .ok (perform refused faults c w).2.tree := by
  by_cases hs : Spared faults c w
  · rcases hc : exec refused c w.tree with e | t
    · rw [perform_of_error hs hc]
      exact Or.inl rfl
    · rw [perform_of_ok hs hc]
      exact Or.inr (Or.inr rfl)
  · obtain ⟨hr, hf⟩ := Classical.not_imp.mp hs
    obtain ⟨fault, hf⟩ := Option.ne_none_iff_exists'.mp hf
    rw [perform_of_fault hr hf]
    exact Or.inr (Or.inl ⟨fault.done, rfl⟩)

theorem perform_eq_ok {c : Command ν β ι ε} {w w' : World ν β ι} (h : perform refused faults c w = (.ok (), w')) :
    exec refused c w.tree = .ok w'.tree ∧ w'.log = w.log ++ events c := by
  by_cases hs : Spared faults c w
  · rcases hc : exec refused c w.tree with e | t
    · rw [perform_of_error hs hc] at h
      cases h
    · rw [perform_of_ok hs hc] at h
      cases h
      exact ⟨rfl, rfl⟩
  · obtain ⟨hr, hf⟩ := Classical.not_imp.mp hs
    obtain ⟨fault, hf⟩ := Option.ne_none_iff_exists'.mp hf
    rw [perform_of_fault hr hf] at h
    cases h

theorem runScript_cons_of_ok {c : Command ν β ι ε} {cs : List (Command ν β ι ε)} {w : World ν β ι}
    {t : Tree ν β} (hs : Spared faults c w) (h : exec refused c w.tree = .ok t) :
    runScript refused faults (c :: cs) w =
      runScript refused faults cs ⟨t, w.clock + calls c, w.log ++ events c⟩ :=
  bind_of_ok (perform_of_ok hs h) _

theorem runScript_cons_of_error {c : Command ν β ι ε} {cs : List (Command ν β ι ε)} {w : World ν β ι}
    {e : ε} (hs : Spared faults c w) (h : exec refused c w.tree = .error e) :
    runScript refused faults (c :: cs) w = (.error e, { w with clock := w.clock + calls c }) :=
  bind_of_error (perform_of_error hs h) _

theorem runScript_cons_of_fault {c : Command ν β ι ε} {cs : List (Command ν β ι ε)} {w : World ν β ι}
    {fault : Fault ε} (hr : reaches c w.tree = true) (hf : faults w.clock = some fault) :
    runScript refused faults (c :: cs) w =
      (.error fault.error, { w with tree := wreck fault.done c w.tree, clock := w.clock + 1 }) :=
  bind_of_error (perform_of_fault hr hf) _

theorem runScript_singleton (c : Command ν β ι ε) :
    runScript refused faults [c] = perform refused faults c := bind_pure _

theorem runScript_append : ∀ (cs ds : List (Command ν β ι ε)),
    runScript refused faults (cs ++ ds) = (do runScript refused faults cs; runScript refused faults ds)
  | [], ds => rfl
  | c :: cs, ds => by
    change (perform refused faults c >>= fun _ => runScript refused faults (cs ++ ds)) = _
    rw [runScript_append cs ds]
    exact (bind_assoc _ _ _).symm

/-! ### Runs without faults, and runs that break off -/

theorem execAll_cons_of_ok {c : Command ν β ι ε} {cs : List (Command ν β ι ε)} {t t' : Tree ν β}
    (h : exec refused c t = .ok t') : execAll refused (c :: cs) t = execAll refused cs t' := by
  rw [execAll, h]

theorem execAll_cons_of_error {c : Command ν β ι ε} {cs : List (Command ν β ι ε)} {t : Tree ν β} {e : ε}
    (h : exec refused c t = .error e) : execAll refused (c :: cs) t = .error e := by
  rw [execAll, h]

theorem runScript_of_ok : ∀ {cs : List (Command ν β ι ε)} {w : World ν β ι} {t : Tree ν β},
    execAll refused cs w.tree = .ok t →
      runScript refused noFaults cs w =
        (.ok (), ⟨t, w.clock + (cs.map calls).sum, w.log ++ cs.flatMap events⟩)
  | [], w, t, h => by
    cases h
    simp only [List.map_nil, List.sum_nil, Nat.add_zero, List.flatMap_nil, List.append_nil]
    rfl
  | c :: cs, w, t, h => by
    rcases hc : exec refused c w.tree with e | t'
    · rw [execAll_cons_of_error hc] at h
      cases h
    · rw [execAll_cons_of_ok hc] at h
      rw [runScript_cons_of_ok (spared_noFaults c w) hc,
        runScript_of_ok (w := ⟨t', w.clock + calls c, w.log ++ events c⟩) h, List.map_cons,
        List.sum_cons, List.flatMap_cons, Nat.add_assoc, List.append_assoc]

theorem runScript_of_error : ∀ {cs : List (Command ν β ι ε)} {w : World ν β ι} {e : ε},
    execAll refused cs w.tree = .error e → (runScript refused noFaults cs w).1 = .error e
  | c :: cs, w, e, h => by
    rcases hc : exec refused c w.tree with e' | t'
    · rw [execAll_cons_of_error hc] at h
      rw [runScript_cons_of_error (spared_noFaults c w) hc]
      cases h
      rfl
    · rw [execAll_cons_of_ok hc] at h
      rw [runScript_cons_of_ok (spared_noFaults c w) hc]
      exact runScript_of_error h

/-- A fault has ended the run: the commands before it have been performed, one is broken off. -/
def BrokenOff (refused : Refusal → ε) (faults : ℕ → Option (Fault ε)) (cs : List (Command ν β ι ε))
    (w : World ν β ι) : Prop :=
  ∃ before c after fault t, cs = before ++ c :: after ∧ execAll refused before w.tree = .ok t ∧
    faults (w.clock + (before.map calls).sum) = some fault ∧
    runScript refused faults cs w = (.error fault.error, ⟨wreck fault.done c t,
      w.clock + (before.map calls).sum + 1, w.log ++ before.flatMap events⟩)

/-- **What a run leaves.** Either no fault has met it, or the commands up to one have been performed and a
part of that one. -/
theorem runScript_cases : ∀ (cs : List (Command ν β ι ε)) (w : World ν β ι),
    runScript refused faults cs w = runScript refused noFaults cs w ∨ BrokenOff refused faults cs w
  | [], w => Or.inl rfl
  | c :: cs, w => by
    by_cases hs : Spared faults c w
    · rcases hc : exec refused c w.tree with e | t
      · exact Or.inl (by rw [runScript_cons_of_error hs hc, runScript_cons_of_error (spared_noFaults c w) hc])
      · rw [runScript_cons_of_ok (spared_noFaults c w) hc, runScript_cons_of_ok hs hc]
        refine (runScript_cases cs _).imp_right ?_
        rintro ⟨before, d, after, fault, u, rfl, hu, hf, hrun⟩
        refine ⟨c :: before, d, after, fault, u, rfl, by rwa [execAll_cons_of_ok hc], ?_, ?_⟩
        · rwa [List.map_cons, List.sum_cons, ← Nat.add_assoc]
        · rw [runScript_cons_of_ok hs hc, hrun, List.map_cons, List.sum_cons,
            List.flatMap_cons, Nat.add_assoc w.clock, List.append_assoc]
    · obtain ⟨hr, hf⟩ := Classical.not_imp.mp hs
      obtain ⟨fault, hf⟩ := Option.ne_none_iff_exists'.mp hf
      refine Or.inr ⟨[], c, cs, fault, w.tree, rfl, rfl, hf, ?_⟩
      rw [runScript_cons_of_fault hr hf, List.flatMap_nil, List.append_nil]
      rfl

/-! ### What a run changes -/

/-- The file that the command writes or removes. -/
def target : Command ν β ι ε → Set (List ν)
  | .write p _ => {p}
  | .remove p => {p}
  | _ => ∅

/-- The directories that the command makes. -/
def made : Command ν β ι ε → Set (List ν)
  | .parents p => {q | Above q p}
  | _ => ∅

def targets (cs : List (Command ν β ι ε)) : Set (List ν) := {p | ∃ c ∈ cs, p ∈ target c}

def allMade (cs : List (Command ν β ι ε)) : Set (List ν) := {q | ∃ c ∈ cs, q ∈ made c}

/-- No file of the script is on the way to another one. -/
def Separate (cs : List (Command ν β ι ε)) : Prop := ∀ p ∈ targets cs, p ∉ allMade cs

omit [DecidableEq ν] in
theorem targets_cons (c : Command ν β ι ε) (cs : List (Command ν β ι ε)) :
    targets (c :: cs) = target c ∪ targets cs := by
  ext p
  simp only [targets, List.mem_cons, exists_eq_or_imp, Set.mem_ofPred_eq, Set.mem_union]

omit [DecidableEq ν] in
theorem allMade_cons (c : Command ν β ι ε) (cs : List (Command ν β ι ε)) :
    allMade (c :: cs) = made c ∪ allMade cs := by
  ext p
  simp only [allMade, List.mem_cons, exists_eq_or_imp, Set.mem_ofPred_eq, Set.mem_union]

omit [DecidableEq ν] in
theorem targets_append (cs ds : List (Command ν β ι ε)) : targets (cs ++ ds) = targets cs ∪ targets ds := by
  ext p
  simp [targets, or_and_right, exists_or]

omit [DecidableEq ν] in
theorem allMade_append (cs ds : List (Command ν β ι ε)) : allMade (cs ++ ds) = allMade cs ∪ allMade ds := by
  ext p
  simp [allMade, or_and_right, exists_or]

omit [DecidableEq ν] in
theorem Separate.of_subset {cs ds : List (Command ν β ι ε)} (h : Separate cs) (hsub : ds ⊆ cs) :
    Separate ds := fun p ⟨c, hc, hp⟩ ⟨d, hd, hq⟩ => h p ⟨c, hsub hc, hp⟩ ⟨d, hsub hd, hq⟩

theorem exec_differ {c : Command ν β ι ε} {t t' : Tree ν β} (h : exec refused c t = .ok t') :
    Differ (target c) (made c) t t' := by
  cases c with
  | access => cases h; exact Differ.refl _ _ _
  | report _ => cases h; exact Differ.refl _ _ _
  | stop _ => cases h
  | parents p =>
    obtain ⟨hp, rfl⟩ := makeParents_eq_ok_iff.mp (mapError_eq_ok.mp h)
    exact makeFirst_differ hp
  | write p contents =>
    obtain ⟨hp, -, rfl⟩ := write_eq_ok_iff.mp (mapError_eq_ok.mp h)
    exact put_differ hp nofun
  | remove p =>
    obtain ⟨hp, rfl⟩ := remove_eq_ok_iff.mp (mapError_eq_ok.mp h)
    exact put_differ hp nofun

/-- A command that breaks off changes the same paths. -/
theorem wreck_differ {c : Command ν β ι ε} {t t' : Tree ν β} (h : exec refused c t = .ok t')
    (n : Option ℕ) : Differ (target c) (made c) t (wreck n c t) := by
  cases c with
  | access => exact Differ.refl _ _ _
  | report _ => exact Differ.refl _ _ _
  | stop _ => cases h
  | remove _ => exact Differ.refl _ _ _
  | parents p =>
    obtain ⟨hp, -⟩ := makeParents_eq_ok_iff.mp (mapError_eq_ok.mp h)
    unfold wreck
    dsimp only
    rw [if_neg hp]
    exact makeFirst_differ hp
  | write p contents =>
    obtain ⟨hp, -, -⟩ := write_eq_ok_iff.mp (mapError_eq_ok.mp h)
    unfold wreck
    dsimp only
    split
    · exact put_differ hp nofun
    · exact Differ.refl _ _ _

/-- A command that is refused leaves nothing. -/
theorem wreck_of_error {c : Command ν β ι ε} {t : Tree ν β} {e : ε} (h : exec refused c t = .error e)
    (n : Option ℕ) : wreck n c t = t := by
  cases c with
  | access => rfl
  | report _ => rfl
  | stop _ => rfl
  | remove _ => rfl
  | parents p =>
    unfold wreck
    dsimp only
    split_ifs with hp
    · rfl
    · have hok : exec refused (.parents p : Command ν β ι ε) t = .ok _ :=
        mapError_eq_ok.mpr (makeParents_eq_ok_iff.mpr ⟨hp, rfl⟩)
      rw [hok] at h
      cases h
  | write p contents =>
    unfold wreck
    dsimp only
    split
    · rename_i hw
      have hok : exec refused (.write p contents : Command ν β ι ε) t = .ok _ := mapError_eq_ok.mpr hw
      rw [hok] at h
      cases h
    · rfl

theorem done_cons_of_ok {c : Command ν β ι ε} {cs : List (Command ν β ι ε)} {t t' : Tree ν β}
    (h : exec refused c t = .ok t') : done refused (c :: cs) t = c :: done refused cs t' := by
  rw [done, h]

theorem done_cons_of_error {c : Command ν β ι ε} {cs : List (Command ν β ι ε)} {t : Tree ν β} {e : ε}
    (h : exec refused c t = .error e) : done refused (c :: cs) t = [] := by
  rw [done, h]

theorem done_subset : ∀ (cs : List (Command ν β ι ε)) (t : Tree ν β), done refused cs t ⊆ cs
  | [], _ => List.Subset.refl _
  | c :: cs, t => by
    rcases h : exec refused c t with e | t'
    · rw [done_cons_of_error h]
      exact List.nil_subset _
    · rw [done_cons_of_ok h]
      exact List.cons_subset_cons c (done_subset cs t')

/-- **What a run changes**, wherever it breaks off: files and directories of commands that a run without
faults gets through. -/
theorem runScript_differ : ∀ {cs : List (Command ν β ι ε)}, Separate cs → ∀ w : World ν β ι,
    Differ (targets (done refused cs w.tree)) (allMade (done refused cs w.tree)) w.tree
      (runScript refused faults cs w).2.tree
  | [], _, w => Differ.refl _ _ _
  | c :: cs, hsep, w => by
    rcases hc : exec refused c w.tree with e | t
    · rw [done_cons_of_error hc]
      by_cases hs : Spared faults c w
      · rw [runScript_cons_of_error hs hc]
        exact Differ.refl _ _ _
      · obtain ⟨hr, hf⟩ := Classical.not_imp.mp hs
        obtain ⟨fault, hf⟩ := Option.ne_none_iff_exists'.mp hf
        rw [runScript_cons_of_fault hr hf]
        dsimp only
        rw [wreck_of_error hc]
        exact Differ.refl _ _ _
    · rw [done_cons_of_ok hc, targets_cons, allMade_cons]
      by_cases hs : Spared faults c w
      · rw [runScript_cons_of_ok hs hc]
        have htail := runScript_differ (hsep.of_subset (List.subset_cons_self c cs))
          ⟨t, w.clock + calls c, w.log ++ events c⟩
        have hdone : Separate (c :: done refused cs t) :=
          hsep.of_subset (List.cons_subset_cons c (done_subset cs t))
        intro q
        refine DifferAt.trans (fun hq => ?_)
          (((exec_differ hc).mono Set.subset_union_left Set.subset_union_left) q)
          ((htail.mono Set.subset_union_right Set.subset_union_right) q)
        rw [← targets_cons, ← allMade_cons] at hq
        exact hdone q hq.1 hq.2
      · obtain ⟨hr, hf⟩ := Classical.not_imp.mp hs
        obtain ⟨fault, hf⟩ := Option.ne_none_iff_exists'.mp hf
        rw [runScript_cons_of_fault hr hf]
        exact (wreck_differ hc fault.done).mono Set.subset_union_left Set.subset_union_left

/-- A path that the script neither writes nor removes is as before, or a directory that the script has made. -/
theorem runScript_frame : ∀ {cs : List (Command ν β ι ε)} {w : World ν β ι} {p : List ν}, p ∉ targets cs →
    DifferAt ∅ (allMade cs) w.tree (runScript refused faults cs w).2.tree p
  | [], _, _, _ => Or.inl rfl
  | c :: cs, w, p, hp => by
    rw [targets_cons] at hp
    rw [allMade_cons]
    have hhead : ∀ t', Differ (target c) (made c) w.tree t' → DifferAt ∅ (made c ∪ allMade cs) w.tree t' p :=
      fun t' h => (h p).mono (fun hq => absurd (Or.inl hq) hp) Or.inl
    by_cases hs : Spared faults c w
    · rcases hc : exec refused c w.tree with e | t
      · rw [runScript_cons_of_error hs hc]
        exact Or.inl rfl
      · rw [runScript_cons_of_ok hs hc]
        refine DifferAt.trans (fun hq => hq.1) (hhead t (exec_differ hc)) ?_
        have htail := @runScript_frame cs ⟨t, w.clock + calls c, w.log ++ events c⟩ p fun hq => hp (Or.inr hq)
        exact htail.mono id Or.inr
    · obtain ⟨hr, hf⟩ := Classical.not_imp.mp hs
      obtain ⟨fault, hf⟩ := Option.ne_none_iff_exists'.mp hf
      rw [runScript_cons_of_fault hr hf]
      rcases hc : exec refused c w.tree with e | t
      · exact Or.inl (by rw [wreck_of_error hc])
      · exact hhead _ (wreck_differ hc fault.done)

/-! ### What a script leaves that gets through -/

/-- What the last command on a path leaves there. -/
def lastEdit : List (Command ν β ι ε) → List ν → Option (Option (Node β))
  | [], _ => none
  | .write q contents :: cs, p => (lastEdit cs p).or (if q = p then some (some (.file contents)) else none)
  | .remove q :: cs, p => (lastEdit cs p).or (if q = p then some none else none)
  | _ :: cs, p => lastEdit cs p

theorem lastEdit_cons (c : Command ν β ι ε) (cs : List (Command ν β ι ε)) (p : List ν) :
    lastEdit (c :: cs) p = (lastEdit cs p).or (lastEdit [c] p) := by
  cases c <;> simp [lastEdit]

theorem lastEdit_singleton_eq_none_iff {c : Command ν β ι ε} {p : List ν} :
    lastEdit [c] p = none ↔ p ∉ target c := by
  cases c with
  | write q contents =>
    by_cases h : q = p
    · simp only [lastEdit, Option.none_or, if_pos h]
      exact ⟨nofun, fun h' => absurd h.symm h'⟩
    · simp only [lastEdit, Option.none_or, if_neg h]
      exact ⟨fun _ hp => h (Eq.symm hp), fun _ => trivial⟩
  | remove q =>
    by_cases h : q = p
    · simp only [lastEdit, Option.none_or, if_pos h]
      exact ⟨nofun, fun h' => absurd h.symm h'⟩
    · simp only [lastEdit, Option.none_or, if_neg h]
      exact ⟨fun _ hp => h (Eq.symm hp), fun _ => trivial⟩
  | access => exact ⟨fun _ => id, fun _ => rfl⟩
  | parents _ => exact ⟨fun _ => id, fun _ => rfl⟩
  | report _ => exact ⟨fun _ => id, fun _ => rfl⟩
  | stop _ => exact ⟨fun _ => id, fun _ => rfl⟩

theorem lastEdit_eq_none_iff {p : List ν} : ∀ {cs : List (Command ν β ι ε)},
    lastEdit cs p = none ↔ p ∉ targets cs
  | [] => ⟨fun _ ⟨_, hc, _⟩ => List.not_mem_nil hc, fun _ => rfl⟩
  | c :: cs => by
    rw [lastEdit_cons, Option.or_eq_none_iff, lastEdit_eq_none_iff, lastEdit_singleton_eq_none_iff, targets_cons,
      Set.mem_union, not_or, and_comm]

/-- A command that edits a path has done so. -/
theorem exec_lastEdit {c : Command ν β ι ε} {t u : Tree ν β} {p : List ν} {n : Option (Node β)}
    (h : exec refused c t = .ok u) (hn : lastEdit [c] p = some n) : u p = n := by
  cases c with
  | write q contents =>
    obtain ⟨-, -, rfl⟩ := write_eq_ok_iff.mp (mapError_eq_ok.mp h)
    simp only [lastEdit, Option.none_or, Option.ite_none_right_eq_some, Option.some.injEq] at hn
    obtain ⟨rfl, rfl⟩ := hn
    exact put_self _ _ _
  | remove q =>
    obtain ⟨-, rfl⟩ := remove_eq_ok_iff.mp (mapError_eq_ok.mp h)
    simp only [lastEdit, Option.none_or, Option.ite_none_right_eq_some, Option.some.injEq] at hn
    obtain ⟨rfl, rfl⟩ := hn
    exact put_self _ _ _
  | access => cases hn
  | parents _ => cases hn
  | report _ => cases hn
  | stop _ => cases hn

/-- **What a script leaves**: at every path that it writes or removes, the last of its edits. -/
theorem execAll_lastEdit : ∀ {cs : List (Command ν β ι ε)} {t u : Tree ν β}, Separate cs →
    execAll refused cs t = .ok u → ∀ {p : List ν} {n : Option (Node β)}, lastEdit cs p = some n → u p = n
  | c :: cs, t, u, hsep, hu, p, n, hn => by
    rcases hc : exec refused c t with e | s
    · rw [execAll_cons_of_error hc] at hu
      cases hu
    rw [execAll_cons_of_ok hc] at hu
    rw [lastEdit_cons, Option.or_eq_some_iff] at hn
    rcases hn with hn | ⟨hnone, hn⟩
    · exact execAll_lastEdit (hsep.of_subset (List.subset_cons_self c cs)) hu hn
    · have hs := exec_lastEdit hc hn
      have hp : p ∈ targets (c :: cs) := by
        rw [targets_cons]
        by_contra hp
        rw [lastEdit_singleton_eq_none_iff.mpr fun h => hp (Or.inl h)] at hn
        cases hn
      have hmade : p ∉ allMade cs := fun hq => hsep p hp (by rw [allMade_cons]; exact Or.inr hq)
      have hframe := @runScript_frame _ _ _ _ _ refused noFaults cs ⟨s, 0, []⟩ p
        (lastEdit_eq_none_iff.mp hnone)
      rw [runScript_of_ok (w := ⟨s, 0, []⟩) hu] at hframe
      rcases hframe with h | ⟨h, -⟩ | ⟨h, -⟩
      · exact h.trans hs
      · exact h.elim
      · exact absurd h hmade

theorem lastEdit_append (cs ds : List (Command ν β ι ε)) (p : List ν) :
    lastEdit (cs ++ ds) p = (lastEdit ds p).or (lastEdit cs p) := by
  induction cs with
  | nil => exact (Option.or_none).symm
  | cons c cs ih => rw [List.cons_append, lastEdit_cons, ih, Option.or_assoc, ← lastEdit_cons]

/-- A script that removes nothing leaves a file wherever it makes an edit. -/
theorem lastEdit_isFile {p : List ν} {n : Option (Node β)} : ∀ {cs : List (Command ν β ι ε)},
    .remove p ∉ cs → lastEdit cs p = some n → ∃ contents, n = some (.file contents)
  | c :: cs, hcs, hn => by
    rw [List.mem_cons, not_or] at hcs
    rw [lastEdit_cons, Option.or_eq_some_iff] at hn
    rcases hn with hn | ⟨-, hn⟩
    · exact lastEdit_isFile hcs.2 hn
    · cases c with
      | write q contents =>
        simp only [lastEdit, Option.none_or, Option.ite_none_right_eq_some, Option.some.injEq] at hn
        exact ⟨contents, hn.2.symm⟩
      | remove q =>
        simp only [lastEdit, Option.none_or, Option.ite_none_right_eq_some] at hn
        exact absurd (congrArg Command.remove hn.1.symm) hcs.1
      | access => cases hn
      | parents _ => cases hn
      | report _ => cases hn
      | stop _ => cases hn

/-! ### Runs on what another run has left -/

/-- The same command on two trees. What it settles they no longer differ in. -/
theorem exec_congr {c : Command ν β ι ε} {T A : Set (List ν)} {t t' u : Tree ν β} (h : Differ T A t t')
    (hsep : ∀ q ∈ T ∪ target c, q ∉ A ∪ made c) (hc : exec refused c t = .ok u) :
    ∃ u', exec refused c t' = .ok u' ∧ Differ (T \ target c) (A \ made c) u u' := by
  cases c with
  | access =>
    cases hc
    exact ⟨t', rfl, h.mono (fun _ hq => ⟨hq, id⟩) fun _ hq => ⟨hq, id⟩⟩
  | report _ =>
    cases hc
    exact ⟨t', rfl, h.mono (fun _ hq => ⟨hq, id⟩) fun _ hq => ⟨hq, id⟩⟩
  | stop _ => cases hc
  | parents p =>
    obtain ⟨hp, rfl⟩ := makeParents_eq_ok_iff.mp (mapError_eq_ok.mp hc)
    have hp' : ¬ Blocked t' p :=
      h.not_blocked (fun q hq habove => hsep q (Or.inl hq) (Or.inr habove)) hp
    exact ⟨_, mapError_eq_ok.mpr (makeParents_eq_ok_iff.mpr ⟨hp', rfl⟩),
      (h.makeFirst p).mono (fun _ hq => ⟨hq, id⟩) (le_refl _)⟩
  | write p contents =>
    obtain ⟨hp, hd, rfl⟩ := write_eq_ok_iff.mp (mapError_eq_ok.mp hc)
    have hp' := h.node_ne_dir (fun hA => hsep p (Or.inr rfl) (Or.inl hA)) hp
    exact ⟨_, mapError_eq_ok.mpr (write_eq_ok_iff.mpr ⟨hp', h.node_eq_dir hd, rfl⟩),
      (h.put p _).mono (le_refl _) fun _ hq => ⟨hq, id⟩⟩
  | remove p =>
    obtain ⟨hp, rfl⟩ := remove_eq_ok_iff.mp (mapError_eq_ok.mp hc)
    have hp' := h.node_ne_dir (fun hA => hsep p (Or.inr rfl) (Or.inl hA)) hp
    exact ⟨_, mapError_eq_ok.mpr (remove_eq_ok_iff.mpr ⟨hp', rfl⟩),
      (h.put p _).mono (le_refl _) fun _ hq => ⟨hq, id⟩⟩

/-- A script that gets through, on two trees. -/
theorem execAll_congr : ∀ {cs : List (Command ν β ι ε)} {T A : Set (List ν)} {t t' u : Tree ν β},
    Differ T A t t' → (∀ q ∈ T ∪ targets cs, q ∉ A ∪ allMade cs) → execAll refused cs t = .ok u →
      ∃ u', execAll refused cs t' = .ok u' ∧ Differ (T \ targets cs) (A \ allMade cs) u u'
  | [], _, _, t, t', u, h, _, hu => by
    cases hu
    exact ⟨t', rfl, h.mono (fun _ hq => ⟨hq, by simp [targets]⟩) fun _ hq => ⟨hq, by simp [allMade]⟩⟩
  | c :: cs, T, A, t, t', u, h, hsep, hu => by
    rcases hc : exec refused c t with e | s
    · rw [execAll_cons_of_error hc] at hu
      cases hu
    · rw [execAll_cons_of_ok hc] at hu
      rw [targets_cons, allMade_cons] at hsep
      obtain ⟨s', hs', hdiff⟩ := exec_congr h (fun q hq hq' => hsep q
        (hq.imp_right Or.inl) (hq'.imp_right Or.inl)) hc
      obtain ⟨u', hu', hdiff'⟩ := execAll_congr hdiff (fun q hq hq' => hsep q
        (hq.imp And.left Or.inr) (hq'.imp And.left Or.inr)) hu
      refine ⟨u', by rwa [execAll_cons_of_ok hs'], hdiff'.mono ?_ ?_⟩
      · rw [targets_cons]
        exact fun q ⟨⟨hq, hc⟩, hcs⟩ => ⟨hq, not_or.mpr ⟨hc, hcs⟩⟩
      · rw [allMade_cons]
        exact fun q ⟨⟨hq, hc⟩, hcs⟩ => ⟨hq, not_or.mpr ⟨hc, hcs⟩⟩

/-- On trees that differ only in what the script overwrites it does the same. -/
theorem runScript_congr : ∀ {cs : List (Command ν β ι ε)} {T A : Set (List ν)} {t t' : Tree ν β},
    Differ T A t t' → T ⊆ targets (done refused cs t) → A ⊆ allMade (done refused cs t) → Separate cs →
      ∀ (k : ℕ) (log : List ι),
        runScript refused noFaults cs ⟨t', k, log⟩ = runScript refused noFaults cs ⟨t, k, log⟩
  | [], T, A, t, t', h, hT, hA, _, k, log => by
    have heq : t' = t := Differ.eq (h.mono (fun q hq => absurd (hT hq) (by simp [targets, done]))
      fun q hq => absurd (hA hq) (by simp [allMade, done]))
    rw [heq]
  | c :: cs, T, A, t, t', h, hT, hA, hsep, k, log => by
    rcases hc : exec refused c t with e | s
    · rw [done_cons_of_error hc] at hT hA
      have heq : t' = t := Differ.eq (h.mono (fun q hq => absurd (hT hq) (by simp [targets]))
        fun q hq => absurd (hA hq) (by simp [allMade]))
      rw [heq]
    · rw [done_cons_of_ok hc, targets_cons] at hT
      rw [done_cons_of_ok hc, allMade_cons] at hA
      have hdone : ∀ q ∈ T ∪ target c, q ∉ A ∪ made c := by
        intro q hq hq'
        have hsub : Separate (c :: done refused cs s) :=
          hsep.of_subset (List.cons_subset_cons c (done_subset cs s))
        unfold Separate at hsub
        rw [targets_cons, allMade_cons] at hsub
        exact hsub q (hq.elim (@hT q) Or.inl) (hq'.elim (@hA q) Or.inl)
      obtain ⟨s', hs', hdiff⟩ := exec_congr h hdone hc
      rw [runScript_cons_of_ok (w := ⟨t, k, log⟩) (spared_noFaults c _) hc,
        runScript_cons_of_ok (w := ⟨t', k, log⟩) (spared_noFaults c _) hs']
      exact runScript_congr hdiff (fun q hq => (hT hq.1).resolve_left hq.2)
        (fun q hq => (hA hq.1).resolve_left hq.2) (hsep.of_subset (List.subset_cons_self c cs)) _ _

/-- **A script starts over.** Wherever an earlier run of it has broken off, it ends as if it were the first. -/
theorem runScript_rerun {cs : List (Command ν β ι ε)} (hsep : Separate cs) (w : World ν β ι) (k : ℕ)
    (log : List ι) :
    runScript refused noFaults cs ⟨(runScript refused faults cs w).2.tree, k, log⟩ =
      runScript refused noFaults cs ⟨w.tree, k, log⟩ :=
  runScript_congr (runScript_differ hsep w) (le_refl _) (le_refl _) hsep k log

/-! ### Stages -/

/-- A script that depends on what is at some paths when it starts, and the files it writes and removes if it
is not cut short by an error. -/
structure Stage (ν β ι ε : Type) [DecidableEq ν] where
  script : Tree ν β → List (Command ν β ι ε)
  looks : List (List ν)
  files : List (List ν)
  script_congr : ∀ t t', (∀ p ∈ looks, node t' p = node t p) → script t' = script t
  targets_subset : ∀ t, targets (script t) ⊆ {p | p ∈ files}
  made_subset : ∀ t, allMade (script t) ⊆ {q | ∃ p ∈ files, Above q p}
  complete : ∀ t, (∀ e, .stop e ∉ script t) → {p | p ∈ files} ⊆ targets (script t)

/-- The stages one after the other. -/
def runStages (refused : Refusal → ε) (faults : ℕ → Option (Fault ε)) :
    List (Stage ν β ι ε) → Attempt (World ν β ι) ε Unit
  | [] => pure ()
  | st :: rest => do
    let script ← gets fun w => st.script w.tree
    runScript refused faults script
    runStages refused faults rest

/-- The script that the stages amount to on a tree, up to the first refusal. -/
def plan (refused : Refusal → ε) : List (Stage ν β ι ε) → Tree ν β → List (Command ν β ι ε)
  | [], _ => []
  | st :: rest, t =>
    match execAll refused (st.script t) t with
    | .ok u => st.script t ++ plan refused rest u
    | .error _ => st.script t

theorem plan_cons_of_ok {st : Stage ν β ι ε} {rest : List (Stage ν β ι ε)} {t u : Tree ν β}
    (h : execAll refused (st.script t) t = .ok u) :
    plan refused (st :: rest) t = st.script t ++ plan refused rest u := by
  rw [plan, h]

theorem plan_cons_of_error {st : Stage ν β ι ε} {rest : List (Stage ν β ι ε)} {t : Tree ν β} {e : ε}
    (h : execAll refused (st.script t) t = .error e) : plan refused (st :: rest) t = st.script t := by
  rw [plan, h]

/-- A run that has not failed has done all of the script. -/
theorem execAll_of_runScript {cs : List (Command ν β ι ε)} {w w' : World ν β ι}
    (h : runScript refused faults cs w = (.ok (), w')) : execAll refused cs w.tree = .ok w'.tree := by
  rcases runScript_cases cs w with heq | ⟨_, _, _, _, _, -, -, -, herr⟩
  · rw [heq] at h
    rcases hu : execAll refused cs w.tree with e | u
    · have := runScript_of_error hu
      rw [h] at this
      cases this
    · rw [runScript_of_ok hu] at h
      cases h
      rfl
  · rw [herr] at h
    cases h

/-- **The stages run as their plan does**, wherever the run breaks off. -/
theorem runStages_eq : ∀ (sts : List (Stage ν β ι ε)) (w : World ν β ι),
    runStages refused faults sts w = runScript refused faults (plan refused sts w.tree) w
  | [], _ => rfl
  | st :: rest, w => by
    change (runScript refused faults (st.script w.tree) >>= fun _ => runStages refused faults rest) w = _
    rcases hu : execAll refused (st.script w.tree) w.tree with e | u
    · rw [plan_cons_of_error hu]
      rcases hrun : runScript refused faults (st.script w.tree) w with ⟨_ | ⟨⟩, w'⟩
      · exact bind_of_error hrun _
      · rw [execAll_of_runScript hrun] at hu
        cases hu
    · rw [plan_cons_of_ok hu, runScript_append]
      rcases hrun : runScript refused faults (st.script w.tree) w with ⟨_ | ⟨⟩, w'⟩
      · rw [bind_of_error hrun, bind_of_error hrun]
      · rw [bind_of_ok hrun, bind_of_ok hrun, runStages_eq rest w']
        rw [execAll_of_runScript hrun] at hu
        cases hu
        rfl

/-- The files that the stages write and remove. -/
def stageFiles (sts : List (Stage ν β ι ε)) : List (List ν) := sts.flatMap Stage.files

theorem mem_stageFiles_cons {p : List ν} {st : Stage ν β ι ε} {rest : List (Stage ν β ι ε)} :
    p ∈ stageFiles (st :: rest) ↔ p ∈ st.files ∨ p ∈ stageFiles rest := by
  unfold stageFiles
  rw [List.flatMap_cons, List.mem_append]

/-- No file of the stages is on the way to another one. -/
def SeparateFiles (sts : List (Stage ν β ι ε)) : Prop :=
  ∀ p ∈ stageFiles sts, ∀ q ∈ stageFiles sts, ¬ Above q p

/-- Every stage looks at paths that are settled when it starts, or that no stage touches from then on. -/
def Fed : List (List ν) → List (Stage ν β ι ε) → Prop
  | _, [] => True
  | settled, st :: rest =>
    (∀ p ∈ st.looks, (p ∈ settled ∨ p ∉ stageFiles (st :: rest)) ∧ ∀ q ∈ stageFiles (st :: rest), ¬ Above p q) ∧
      Fed (settled ++ st.files) rest

instance (sts : List (Stage ν β ι ε)) : Decidable (SeparateFiles sts) := by
  unfold SeparateFiles
  infer_instance

instance decidableFed : ∀ (settled : List (List ν)) (sts : List (Stage ν β ι ε)), Decidable (Fed settled sts)
  | _, [] => isTrue trivial
  | settled, st :: rest =>
    have : Decidable (Fed (settled ++ st.files) rest) := decidableFed _ rest
    inferInstanceAs (Decidable ((∀ p ∈ st.looks, (p ∈ settled ∨ p ∉ stageFiles (st :: rest)) ∧
      ∀ q ∈ stageFiles (st :: rest), ¬ Above p q) ∧ Fed (settled ++ st.files) rest))

theorem targets_plan_subset : ∀ (sts : List (Stage ν β ι ε)) (t : Tree ν β),
    targets (plan refused sts t) ⊆ {p | p ∈ stageFiles sts}
  | [], _ => fun p ⟨_, hc, _⟩ => absurd hc List.not_mem_nil
  | st :: rest, t => by
    intro p hp
    rcases h : execAll refused (st.script t) t with e | u
    · rw [plan_cons_of_error h] at hp
      exact mem_stageFiles_cons.mpr (Or.inl (st.targets_subset t hp))
    · rw [plan_cons_of_ok h, targets_append] at hp
      exact mem_stageFiles_cons.mpr (hp.imp (fun h' => st.targets_subset t h') fun h' => targets_plan_subset rest u h')

theorem allMade_plan_subset : ∀ (sts : List (Stage ν β ι ε)) (t : Tree ν β),
    allMade (plan refused sts t) ⊆ {q | ∃ p ∈ stageFiles sts, Above q p}
  | [], _ => fun p ⟨_, hc, _⟩ => absurd hc List.not_mem_nil
  | st :: rest, t => by
    intro q hq
    rcases h : execAll refused (st.script t) t with e | u
    · rw [plan_cons_of_error h] at hq
      obtain ⟨p, hp, hqp⟩ := st.made_subset t hq
      exact ⟨p, mem_stageFiles_cons.mpr (Or.inl hp), hqp⟩
    · rw [plan_cons_of_ok h, allMade_append] at hq
      rcases hq with hq | hq
      · obtain ⟨p, hp, hqp⟩ := st.made_subset t hq
        exact ⟨p, mem_stageFiles_cons.mpr (Or.inl hp), hqp⟩
      · obtain ⟨p, hp, hqp⟩ := allMade_plan_subset rest u hq
        exact ⟨p, mem_stageFiles_cons.mpr (Or.inr hp), hqp⟩

theorem SeparateFiles.plan {sts : List (Stage ν β ι ε)} (h : SeparateFiles sts) (t : Tree ν β) :
    Separate (plan refused sts t) := by
  intro p hp hmade
  obtain ⟨q, hq, habove⟩ := allMade_plan_subset sts t hmade
  exact h q hq p (targets_plan_subset sts t hp) habove

theorem SeparateFiles.tail {st : Stage ν β ι ε} {rest : List (Stage ν β ι ε)}
    (h : SeparateFiles (st :: rest)) : SeparateFiles rest := fun p hp q hq =>
  h p (mem_stageFiles_cons.mpr (Or.inr hp)) q (mem_stageFiles_cons.mpr (Or.inr hq))

theorem done_append : ∀ {cs ds : List (Command ν β ι ε)} {t u : Tree ν β}, execAll refused cs t = .ok u →
    done refused (cs ++ ds) t = cs ++ done refused ds u
  | [], _, t, u, h => by
    cases h
    rfl
  | c :: cs, ds, t, u, h => by
    rcases hc : exec refused c t with e | s
    · rw [execAll_cons_of_error hc] at h
      cases h
    · rw [execAll_cons_of_ok hc] at h
      rw [List.cons_append, done_cons_of_ok hc, done_append h, List.cons_append]

/-- A script that gets through has no error in it. -/
theorem no_stop_of_execAll : ∀ {cs : List (Command ν β ι ε)} {t u : Tree ν β},
    execAll refused cs t = .ok u → ∀ e, .stop e ∉ cs
  | [], _, _, _, _ => List.not_mem_nil
  | c :: cs, t, u, h, e => by
    rcases hc : exec refused c t with e' | s
    · rw [execAll_cons_of_error hc] at h
      cases h
    · rw [execAll_cons_of_ok hc] at h
      rw [List.mem_cons, not_or]
      refine ⟨fun heq => ?_, no_stop_of_execAll h e⟩
      rw [← heq] at hc
      cases hc

/-- What a stage looks at is the same on trees that differ only in what has yet to be overwritten. -/
theorem node_congr_of_fed {st : Stage ν β ι ε} {rest : List (Stage ν β ι ε)} {settled : List (List ν)}
    {T A : Set (List ν)} {t t' : Tree ν β} (hfed : Fed settled (st :: rest)) (h : Differ T A t t')
    (hT : T ⊆ {p | p ∈ stageFiles (st :: rest)}) (hA : A ⊆ {q | ∃ p ∈ stageFiles (st :: rest), Above q p})
    (hset : ∀ q ∈ settled, q ∉ T) : ∀ p ∈ st.looks, node t' p = node t p := by
  intro p hp
  rcases eq_or_ne p [] with rfl | hne
  · rfl
  rw [node_of_ne_nil hne, node_of_ne_nil hne]
  obtain ⟨hlooks, habove⟩ := hfed.1 p hp
  rcases h p with h | ⟨hpT, -⟩ | ⟨hpA, -⟩
  · exact h
  · rcases hlooks with hs | hn
    · exact absurd hpT (hset p hs)
    · exact absurd (hT hpT) hn
  · obtain ⟨q, hq, hpq⟩ := hA hpA
    exact absurd hpq (habove q hq)

/-- The plan is the same on trees that differ only in what it overwrites. -/
theorem plan_congr : ∀ {sts : List (Stage ν β ι ε)} {settled : List (List ν)} {T A : Set (List ν)}
    {t t' : Tree ν β}, SeparateFiles sts → Fed settled sts → Differ T A t t' →
      T ⊆ targets (done refused (plan refused sts t) t) →
      A ⊆ allMade (done refused (plan refused sts t) t) → (∀ q ∈ settled, q ∉ T) →
        plan refused sts t' = plan refused sts t
  | [], _, _, _, _, _, _, _, _, _, _, _ => rfl
  | st :: rest, settled, T, A, t, t', hsep, hfed, h, hT, hA, hset => by
    have hdone : ∀ {c : Command ν β ι ε}, c ∈ done refused (plan refused (st :: rest) t) t →
        c ∈ plan refused (st :: rest) t := fun hc => done_subset _ _ hc
    have hscript : st.script t' = st.script t := by
      refine st.script_congr t t' (node_congr_of_fed hfed h ?_ ?_ hset)
      · exact fun q hq => targets_plan_subset _ _ (let ⟨c, hc, hqc⟩ := hT hq; ⟨c, hdone hc, hqc⟩)
      · exact fun q hq => allMade_plan_subset _ _ (let ⟨c, hc, hqc⟩ := hA hq; ⟨c, hdone hc, hqc⟩)
    have hplan : Separate (plan refused (st :: rest) t) := hsep.plan t
    rcases hu : execAll refused (st.script t) t with e | u
    · rw [plan_cons_of_error hu] at hT hA hplan ⊢
      rcases hu' : execAll refused (st.script t') t' with e' | u'
      · rw [plan_cons_of_error hu', hscript]
      · have hrun := runScript_congr h hT hA hplan 0 []
        rw [hscript] at hu'
        rw [runScript_of_ok (w := ⟨t', 0, []⟩) hu'] at hrun
        have herr := runScript_of_error (w := ⟨t, 0, []⟩) hu
        rw [← hrun] at herr
        cases herr
    · rw [plan_cons_of_ok hu] at hT hA hplan ⊢
      rw [done_append hu, targets_append] at hT
      rw [done_append hu, allMade_append] at hA
      have hdisj : ∀ q ∈ T ∪ targets (st.script t), q ∉ A ∪ allMade (st.script t) := by
        intro q hq hq'
        have hsub : Separate (st.script t ++ done refused (plan refused rest u) u) :=
          hplan.of_subset (List.append_subset.mpr ⟨List.subset_append_left _ _,
            fun c hc => List.mem_append_right _ (done_subset _ _ hc)⟩)
        unfold Separate at hsub
        rw [targets_append, allMade_append] at hsub
        exact hsub q (hq.elim (@hT q) Or.inl) (hq'.elim (@hA q) Or.inl)
      obtain ⟨u', hu', hdiff⟩ := execAll_congr h hdisj hu
      rw [← hscript] at hu'
      rw [plan_cons_of_ok hu', hscript]
      congr 1
      refine plan_congr hsep.tail hfed.2 hdiff (fun q hq => (hT hq.1).resolve_left hq.2)
        (fun q hq => (hA hq.1).resolve_left hq.2) fun q hq hqT => ?_
      rcases List.mem_append.mp hq with hq | hq
      · exact hset q hq hqT.1
      · exact hqT.2 (st.complete t (no_stop_of_execAll hu) hq)

theorem execAll_append : ∀ {cs ds : List (Command ν β ι ε)} {t u : Tree ν β},
    execAll refused (cs ++ ds) t = .ok u ↔ ∃ v, execAll refused cs t = .ok v ∧ execAll refused ds v = .ok u
  | [], ds, t, u => ⟨fun h => ⟨t, rfl, h⟩, fun ⟨v, hv, h⟩ => by cases hv; exact h⟩
  | c :: cs, ds, t, u => by
    rw [List.cons_append]
    rcases hc : exec refused c t with e | s
    · rw [execAll_cons_of_error hc, execAll_cons_of_error hc]
      exact ⟨nofun, fun ⟨_, h, _⟩ => nomatch h⟩
    · rw [execAll_cons_of_ok hc, execAll_cons_of_ok hc]
      exact execAll_append

/-- The plan of a run that gets through, stage by stage. -/
theorem plan_append : ∀ {sts sts' : List (Stage ν β ι ε)} {t u : Tree ν β},
    execAll refused (plan refused (sts ++ sts') t) t = .ok u →
      ∃ v, execAll refused (plan refused sts t) t = .ok v ∧
        plan refused (sts ++ sts') t = plan refused sts t ++ plan refused sts' v ∧
        execAll refused (plan refused sts' v) v = .ok u
  | [], sts', t, u, h => ⟨t, rfl, rfl, h⟩
  | st :: sts, sts', t, u, h => by
    rw [List.cons_append] at h ⊢
    rcases hs : execAll refused (st.script t) t with e | s
    · rw [plan_cons_of_error hs, hs] at h
      cases h
    · rw [plan_cons_of_ok hs, execAll_append] at h
      obtain ⟨s', hs', h⟩ := h
      rw [hs] at hs'
      cases hs'
      obtain ⟨v, hv, hplan, hu⟩ := plan_append h
      refine ⟨v, ?_, ?_, hu⟩
      · rw [plan_cons_of_ok hs]
        exact execAll_append.mpr ⟨s, hs, hv⟩
      · rw [plan_cons_of_ok hs, plan_cons_of_ok hs, hplan, List.append_assoc]

/-- **What the last stage to touch a path leaves there** is there at the end of a run that gets through. -/
theorem plan_last {before after : List (Stage ν β ι ε)} {st : Stage ν β ι ε} {t u : Tree ν β}
    (hsep : SeparateFiles (before ++ st :: after))
    (h : execAll refused (plan refused (before ++ st :: after) t) t = .ok u) {p : List ν}
    (hp : p ∈ st.files) (hafter : p ∉ stageFiles after) :
    ∃ v n, lastEdit (st.script v) p = some n ∧ u p = n := by
  have hall : Separate (plan refused (before ++ st :: after) t) := hsep.plan t
  obtain ⟨v, -, hplan, hu⟩ := plan_append h
  rcases hs : execAll refused (st.script v) v with e | s
  · rw [plan_cons_of_error hs, hs] at hu
    cases hu
  have hpt : p ∈ targets (st.script v) := st.complete v (no_stop_of_execAll hs) hp
  obtain ⟨n, hn⟩ := Option.ne_none_iff_exists'.mp fun hnone => lastEdit_eq_none_iff.mp hnone hpt
  refine ⟨v, n, hn, execAll_lastEdit hall h ?_⟩
  rw [hplan, plan_cons_of_ok hs, lastEdit_append, lastEdit_append,
    lastEdit_eq_none_iff.mpr fun h => hafter (targets_plan_subset after s h), hn]
  rfl

/-- Behind a run that has broken off the stages have the same plan. -/
theorem plan_rerun {sts : List (Stage ν β ι ε)} (hsep : SeparateFiles sts) (hfed : Fed [] sts)
    (w : World ν β ι) : plan refused sts (runStages refused faults sts w).2.tree = plan refused sts w.tree := by
  rw [runStages_eq]
  have hp : Separate (plan refused sts w.tree) := hsep.plan w.tree
  have hdiff := @runScript_differ _ _ _ _ _ refused faults _ hp w
  exact plan_congr hsep hfed hdiff (le_refl _) (le_refl _) nofun

/-- **Stages start over.** Wherever an earlier run of them has broken off, they end as if it were the first
run. -/
theorem runStages_rerun {sts : List (Stage ν β ι ε)} (hsep : SeparateFiles sts) (hfed : Fed [] sts)
    (w : World ν β ι) (k : ℕ) (log : List ι) :
    runStages refused noFaults sts ⟨(runStages refused faults sts w).2.tree, k, log⟩ =
      runStages refused noFaults sts ⟨w.tree, k, log⟩ := by
  have hplan := @plan_rerun _ _ _ _ _ refused faults _ hsep hfed w
  rw [runStages_eq sts w] at hplan ⊢
  rw [runStages_eq, runStages_eq]
  dsimp only
  rw [hplan]
  exact runScript_rerun (hsep.plan w.tree) w k log

end CncContent.Lib.FileScripts
