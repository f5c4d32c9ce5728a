import CncContent.Install.Script

/-! # Runs of a recipe that break off

A recipe is a list of stages, one for each action: what an action does depends on the content tree only through
the archive that `ExtractMixFromContent` reads from it. So a run is that of one script that is known when it
starts (`executeRecipe_eq_runScript`), whatever becomes of its calls; and if the recipe is `RetrySafe`, a run
that has broken off is made good by the next one (`executeRecipe_retry`). -/

namespace CncContent.Install.Restart

open CncContent.Lib.Attempts CncContent.Lib.Bytes CncContent.Lib.Checks
open CncContent.Lib.FileScripts CncContent.Lib.FileTree
open CncContent.Install.Executor CncContent.Install.Script

section Stages

variable (crates : Crates) (platform : Iscab.Archive.Platform) (source : Tree Text UInt8)

/-- The files that an action writes and removes. -/
def filesOfAction : InstallAction → List Path
  | .copy files => filesOf crates files
  | .extractMix _ entries => filesOf crates entries
  | .extractIscab _ _ entries => filesOf crates entries
  | .extractRaw entries => rawFilesOf crates entries
  | .extractZip entries => filesOf crates entries
  | .extractMixFromContent _ entries => filesOf crates entries
  | .delete path => (place crates path).toList
  | .extractBig _ entries => filesOf crates entries
  | .extractMeg _ entries => filesOf crates entries
  | .extractBagIdx _ _ entries => filesOf crates entries
  | .extractIso _ entries => filesOf crates entries
  | .extractMixFromIso _ _ entries => filesOf crates entries

/-- The archive in the content tree that an action reads. -/
def looksOfAction : InstallAction → List Path
  | .extractMixFromContent contentMix _ => (place crates contentMix).toList
  | _ => []

/-- The action, if it finds this content tree. -/
def onTree (t : Tree Text UInt8) (action : InstallAction) (faults : Faults) : Installing (ℕ × ℕ) :=
  match action with
  | .extractMixFromContent contentMix entries => do
    let mix ← orReturn (boundedPath crates.joinContent contentMix)
    extractFromMix crates faults mix (node t mix) entries contentMix
  | _ => executeAction crates faults platform source action

theorem executeAction_eq_onTree (action : InstallAction) (faults : Faults) (w : ContentWorld) :
    executeAction crates faults platform source action w =
      onTree crates platform source w.tree action faults w := by
  cases action with
  | extractMixFromContent contentMix entries =>
    unfold executeAction onTree
    dsimp only
    rcases boundedPath crates.joinContent contentMix with e | mix <;> rfl
  | _ => rfl

open Scripted

def deletes : InstallAction → Bool
  | .delete _ => true
  | _ => false

def onTreeScript (t : Tree Text UInt8) : ∀ action : InstallAction,
    Scripted (deletes action) (filesOfAction crates action) id (onTree crates platform source t action)
  | .copy files => copyFilesScript source files
  | .extractMix _ entries => bindExcept fun _ _ => extractFromArchiveScript _ _ _ _ entries
  | .extractIscab header volumes entries => extractFromIscabScript platform source header volumes entries
  | .extractRaw entries => extractRawScript source entries
  | .extractZip entries => extractFromZipScript source entries
  | .extractMixFromContent _ entries => bindExcept fun _ _ => extractFromArchiveScript _ _ _ _ entries
  | .delete _ => bindExcept fun target htarget =>
      ofMem (fun _ => mem_place_of_ok htarget) <| bindRemove target <| Scripted.pure (0, 0) id_zero
  | .extractBig _ entries => bindExcept fun _ _ => extractFromArchiveScript _ _ _ _ entries
  | .extractMeg _ entries => bindExcept fun _ _ => extractFromArchiveScript _ _ _ _ entries
  | .extractBagIdx idx bag entries => extractFromBagIdxScript source idx bag entries
  | .extractIso _ entries => bindExcept fun _ _ => extractFromArchiveScript _ _ _ _ entries
  | .extractMixFromIso _ isoMixPath entries =>
    bindExcept fun iso _ => extractMixFromIsoScript iso (node source iso) isoMixPath entries _

/-- The error that a computation ends with, as a command. -/
def ending {α : Type} : Except ExecutorError α → List FileCommand
  | .ok _ => []
  | .error e => [.stop e]

/-- What the loop does for one action. -/
def actionScript (total index : ℕ) (action : InstallAction) (t : Tree Text UInt8) : List FileCommand :=
  .report (.actionStarted index total (describeAction action)) ::
    ((onTreeScript crates platform source t action).script ++
      ending (onTreeScript crates platform source t action).result)

variable {crates platform source}

theorem targets_ending {α : Type} (r : Except ExecutorError α) : targets (ending r) = ∅ := by
  rcases r with e | a
  · ext p
    simp [ending, targets, target]
  · ext p
    simp [ending, targets]

theorem allMade_ending {α : Type} (r : Except ExecutorError α) : allMade (ending r) = ∅ := by
  rcases r with e | a
  · ext p
    simp [ending, allMade, made]
  · ext p
    simp [ending, allMade]

theorem targets_actionScript (total index : ℕ) (action : InstallAction) (t : Tree Text UInt8) :
    targets (actionScript crates platform source total index action t) =
      targets (onTreeScript crates platform source t action).script := by
  unfold actionScript
  rw [targets_cons, targets_append, targets_ending, Set.union_empty]
  exact Set.empty_union _

theorem allMade_actionScript (total index : ℕ) (action : InstallAction) (t : Tree Text UInt8) :
    allMade (actionScript crates platform source total index action t) =
      allMade (onTreeScript crates platform source t action).script := by
  unfold actionScript
  rw [allMade_cons, allMade_append, allMade_ending, Set.union_empty]
  exact Set.empty_union _

/-- The script of an action depends on the archive it reads. -/
theorem onTreeScript_congr {t t' : Tree Text UInt8} (action : InstallAction)
    (h : ∀ p ∈ looksOfAction crates action, node t' p = node t p) :
    (onTreeScript crates platform source t' action).script =
        (onTreeScript crates platform source t action).script ∧
      (onTreeScript crates platform source t' action).result =
        (onTreeScript crates platform source t action).result := by
  cases action with
  | extractMixFromContent contentMix entries =>
    refine bindExcept_congr fun mix hmix => ?_
    have hlook : mix ∈ looksOfAction crates (.extractMixFromContent contentMix entries) :=
      (mem_place_of_ok hmix).mp (List.mem_singleton_self mix)
    rw [h mix hlook]
    exact ⟨rfl, rfl⟩
  | _ => exact ⟨rfl, rfl⟩

variable (crates platform source)

/-- The action as a stage. -/
def stage (total index : ℕ) (action : InstallAction) :
    Stage Text UInt8 InstallProgress ExecutorError where
  script := actionScript crates platform source total index action
  looks := looksOfAction crates action
  files := filesOfAction crates action
  script_congr := fun t t' h => by
    obtain ⟨hs, hr⟩ := @onTreeScript_congr crates platform source t t' action h
    unfold actionScript
    rw [hs, hr]
  targets_subset := fun t => by
    rw [targets_actionScript]
    exact (onTreeScript crates platform source t action).targets_subset
  made_subset := fun t => by
    rw [allMade_actionScript]
    exact (onTreeScript crates platform source t action).made_subset
  complete := fun t h => by
    rw [targets_actionScript]
    rcases hr : (onTreeScript crates platform source t action).result with e | counts
    · refine absurd ?_ (h e)
      unfold actionScript
      rw [hr]
      exact List.mem_cons_of_mem _ (List.mem_append_right _ (List.mem_singleton_self _))
    · exact (onTreeScript crates platform source t action).complete counts hr

/-- The stages of the actions from number `index` on. -/
def stages (total : ℕ) : ℕ → List InstallAction → List (Stage Text UInt8 InstallProgress ExecutorError)
  | _, [] => []
  | index, action :: actions => stage crates platform source total index action :: stages total (index + 1) actions

variable {crates platform source}

theorem follow_ending {α : Type} {faults : Faults} {cs : List FileCommand} {r : Except ExecutorError α}
    {v : α} (h : ∀ a, r = .ok a → a = v) :
    (do runScript refusedBy faults cs; orReturn r) =
      (do runScript refusedBy faults (cs ++ ending r); pure v) := by
  rw [runScript_append, bind_assoc]
  refine bind_congr fun _ => ?_
  rcases r with e | a
  · rfl
  · rw [← h a rfl]
    rfl

theorem written_actionScript {total index : ℕ} {action : InstallAction} {t : Tree Text UInt8} {counts : ℕ × ℕ}
    (h : (onTreeScript crates platform source t action).result = .ok counts) :
    counts = written (actionScript crates platform source total index action t) := by
  unfold actionScript
  rw [written_cons, written_append, h, (onTreeScript crates platform source t action).counted counts h]
  exact (zero_add _).symm

/-- An action performs its script, and returns what the script reports. -/
theorem action_run (total index : ℕ) (action : InstallAction) (faults : Faults) (w : ContentWorld) :
    (do onProgress faults (.actionStarted index total (describeAction action))
        executeAction crates faults platform source action) w =
      (do runScript refusedBy faults (actionScript crates platform source total index action w.tree)
          pure (written (actionScript crates platform source total index action w.tree))) w := by
  have hreport : onProgress faults (.actionStarted index total (describeAction action)) w =
      (.ok (), ⟨w.tree, w.clock, w.log ++ [.actionStarted index total (describeAction action)]⟩) := rfl
  have hscript : (do
      runScript refusedBy faults (actionScript crates platform source total index action w.tree)
      pure (written (actionScript crates platform source total index action w.tree))) =
        (do onProgress faults (.actionStarted index total (describeAction action))
            onTree crates platform source w.tree action faults) := by
    rw [(onTreeScript crates platform source w.tree action).follows faults,
      follow_ending fun counts h => written_actionScript h]
    exact bind_assoc _ _ _
  rw [hscript, bind_of_ok hreport, bind_of_ok hreport, executeAction_eq_onTree]

/-- The loop over the actions runs the stages, and counts what they report. -/
theorem executeActions_run (total : ℕ) (faults : Faults) : ∀ (actions : List InstallAction) (index : ℕ)
    (counts : ℕ × ℕ) (w : ContentWorld),
    executeActions crates faults platform source total index counts actions w =
      (do runStages refusedBy faults (stages crates platform source total index actions)
          pure (counts + written (plan refusedBy (stages crates platform source total index actions) w.tree))) w
  | [], _, counts, w => by
    change (Except.ok counts, w) = (Except.ok (counts + 0), w)
    rw [add_zero]
  | action :: actions, index, counts, w => by
    have haction := @action_run crates platform source total index action faults w
    have hloop : executeActions crates faults platform source total index counts (action :: actions) w =
        ((do onProgress faults (.actionStarted index total (describeAction action))
             executeAction crates faults platform source action) >>= fun c =>
          executeActions crates faults platform source total (index + 1) (counts + c) actions) w := by
      rw [bind_assoc]
      rfl
    have hstages : (do
        runStages refusedBy faults (stages crates platform source total index (action :: actions))
        pure (counts + written
          (plan refusedBy (stages crates platform source total index (action :: actions)) w.tree))) w =
      (runScript refusedBy faults (actionScript crates platform source total index action w.tree) >>= fun _ => do
        runStages refusedBy faults (stages crates platform source total (index + 1) actions)
        pure (counts + written
          (plan refusedBy (stages crates platform source total index (action :: actions)) w.tree))) w := by
      rw [← bind_assoc]
      rfl
    rw [hloop, hstages]
    rcases hrun : runScript refusedBy faults (actionScript crates platform source total index action w.tree) w
      with ⟨e | ⟨⟩, w'⟩
    · rw [bind_of_error hrun] at haction
      rw [bind_of_error haction, bind_of_error hrun]
    · rw [bind_of_ok hrun] at haction
      have hall : execAll refusedBy ((stage crates platform source total index action).script w.tree) w.tree =
          .ok w'.tree := execAll_of_runScript hrun
      rw [bind_of_ok haction, bind_of_ok hrun, executeActions_run total faults actions, stages,
        plan_cons_of_ok hall, written_append, add_assoc]
      rfl

variable (crates platform source)

/-- The error of the roots. -/
def refusedRoots (roots : Roots) : Option ExecutorError :=
  match checkRoot "source" roots.sourceRoot roots.sourceRefused,
    checkRoot "content" roots.contentRoot roots.contentRefused with
  | .error e, _ => some e
  | .ok _, .error e => some e
  | .ok _, .ok _ => none

/-- The script of a run of the recipe on a content tree. -/
def recipeScript (roots : Roots) (actions : List InstallAction) (t : Tree Text UInt8) : List FileCommand :=
  let cs := plan refusedBy (stages crates platform source actions.length 0 actions) t
  match refusedRoots roots with
  | some e => [.stop e]
  | none => cs ++ [.report (.completed (written cs).1 (written cs).2)]

variable {crates platform source}

theorem executeRecipe_of_refused {roots : Roots} {e : ExecutorError} (h : refusedRoots roots = some e)
    (actions : List InstallAction) (faults : Faults) (w : ContentWorld) :
    executeRecipe crates faults platform source roots actions w = (.error e, w) := by
  unfold executeRecipe
  unfold refusedRoots at h
  rcases hs : checkRoot "source" roots.sourceRoot roots.sourceRefused with e' | _
  · rw [hs] at h
    cases h
    rfl
  rcases hc : checkRoot "content" roots.contentRoot roots.contentRefused with e' | _
  · rw [hs, hc] at h
    cases h
    rfl
  · rw [hs, hc] at h
    cases h

/-- With roots that are taken, the stages are run and the counts reported. -/
theorem executeRecipe_of_taken {roots : Roots} (h : refusedRoots roots = none)
    (actions : List InstallAction) (faults : Faults) (w : ContentWorld) :
    executeRecipe crates faults platform source roots actions w =
      (do runStages refusedBy faults (stages crates platform source actions.length 0 actions)
          onProgress faults (.completed
            (written (plan refusedBy (stages crates platform source actions.length 0 actions) w.tree)).1
            (written (plan refusedBy (stages crates platform source actions.length 0 actions) w.tree)).2)) w := by
  unfold executeRecipe
  unfold refusedRoots at h
  rcases hs : checkRoot "source" roots.sourceRoot roots.sourceRefused with e' | _
  · rw [hs] at h
    cases h
  rcases hc : checkRoot "content" roots.contentRoot roots.contentRefused with e' | _
  · rw [hs, hc] at h
    cases h
  change (executeActions crates faults platform source actions.length 0 (0, 0) actions >>= fun counts =>
    onProgress faults (.completed counts.1 counts.2)) w = _
  rw [bind_apply_congr (executeActions_run actions.length faults actions 0 (0, 0) w), bind_assoc,
    show ((0, 0) : ℕ × ℕ) = 0 from rfl]
  simp only [zero_add]
  rfl

/-- **A run of a recipe is the run of one script**, which is known when it starts: whatever becomes of its
calls, the commands it performs, the errors it meets and the counts it reports are those of the script. -/
theorem executeRecipe_eq_runScript (roots : Roots) (actions : List InstallAction) (faults : Faults)
    (w : ContentWorld) :
    executeRecipe crates faults platform source roots actions w =
      runScript refusedBy faults (recipeScript crates platform source roots actions w.tree) w := by
  unfold recipeScript
  rcases h : refusedRoots roots with _ | e
  · rw [executeRecipe_of_taken h, bind_apply_congr (runStages_eq _ w)]
    dsimp only
    rw [runScript_append, runScript_singleton]
    rfl
  · rw [executeRecipe_of_refused h]
    rfl

variable (crates platform source)

/-- The files of a recipe are on the way to no other one, and an archive that it reads from the content tree
is not touched by it from then on, or has been written by it before. -/
def RetrySafe (actions : List InstallAction) : Prop :=
  SeparateFiles (stages crates platform source actions.length 0 actions) ∧
    Fed [] (stages crates platform source actions.length 0 actions)

instance (actions : List InstallAction) : Decidable (RetrySafe crates platform source actions) := by
  unfold RetrySafe
  infer_instance

variable {crates platform source}

theorem stageFiles_stages (total : ℕ) : ∀ (actions : List InstallAction) (index : ℕ),
    stageFiles (stages crates platform source total index actions) = actions.flatMap (filesOfAction crates)
  | [], _ => rfl
  | action :: actions, index => by
    rw [List.flatMap_cons, ← stageFiles_stages total actions (index + 1)]
    rfl

/-! ### The script of a recipe -/

theorem targets_stop (e : ExecutorError) : targets [(.stop e : FileCommand)] = ∅ :=
  targets_ending (.error e : Except ExecutorError Unit)

theorem allMade_stop (e : ExecutorError) : allMade [(.stop e : FileCommand)] = ∅ :=
  allMade_ending (.error e : Except ExecutorError Unit)

theorem targets_append_report (cs : List FileCommand) (e : InstallProgress) :
    targets (cs ++ [.report e]) = targets cs := by
  rw [targets_append, targets_cons]
  ext p
  simp [targets, target]

theorem allMade_append_report (cs : List FileCommand) (e : InstallProgress) :
    allMade (cs ++ [.report e]) = allMade cs := by
  rw [allMade_append, allMade_cons]
  ext p
  simp [allMade, made]

theorem targets_recipeScript_subset (roots : Roots) (actions : List InstallAction) (t : Tree Text UInt8) :
    targets (recipeScript crates platform source roots actions t) ⊆
      {p | p ∈ actions.flatMap (filesOfAction crates)} := by
  unfold recipeScript
  rcases refusedRoots roots with _ | e
  · dsimp only
    rw [targets_append_report, ← stageFiles_stages actions.length actions 0]
    exact targets_plan_subset _ t
  · dsimp only
    rw [targets_stop]
    exact fun _ => False.elim

theorem allMade_recipeScript_subset (roots : Roots) (actions : List InstallAction) (t : Tree Text UInt8) :
    allMade (recipeScript crates platform source roots actions t) ⊆
      {q | ∃ p ∈ actions.flatMap (filesOfAction crates), Above q p} := by
  unfold recipeScript
  rcases refusedRoots roots with _ | e
  · dsimp only
    rw [allMade_append_report, ← stageFiles_stages actions.length actions 0]
    exact allMade_plan_subset _ t
  · dsimp only
    rw [allMade_stop]
    exact fun _ => False.elim

/-! ### A small recipe -/

/-- MIX archives of one byte, which is the number of the archive. -/
def sampleMix : List UInt8 → Except Text Reader
  | [1] => .ok fun name => .ok (if name = text "movies1.mix" then some [2] else none)
  | [2] => .ok fun name => .ok (some (name ++ [3]))
  | _ => .error (text "not an archive")

/-- Paths are split at their separators, and only MIX archives can be read. -/
def sampleCrates : Crates where
  joinSource := fun s => .ok (s.splitOn (byte '/'))
  joinContent := fun s => .ok (s.splitOn (byte '/'))
  openMix := sampleMix
  openBig := fun _ => .error (text "not an archive")
  openMeg := fun _ => .error (text "not an archive")
  openIso := fun _ => .error (text "not an archive")
  parseIdx := fun _ => .error (text "not an index")
  openZip := fun _ => .error (text "not an archive")
  inflate := fun data => ⟨data, none⟩

def samplePlatform : Iscab.Archive.Platform := ⟨2 ^ 64 - 1, 24, 80, Or.inr rfl⟩

def sampleSource : Tree Text UInt8 := fun p =>
  if p = [text "MAIN.MIX"] then some (.file [1]) else if p = [text "a.txt"] then some (.file [7, 8]) else none

def sampleRoots : Roots := ⟨text "/mnt", text "/content", none, none⟩

def sampleBefore : List InstallAction :=
  [.copy [⟨text "a.txt", text "d/a.txt"⟩], .extractMix (text "MAIN.MIX") [⟨text "movies1.mix", text "d/m"⟩]]

def sampleNested : InstallAction := .extractMixFromContent (text "d/m") [⟨text "b", text "d/b"⟩]

/-- A file is copied, and an archive extracted and deleted. -/
def sampleActions : List InstallAction := sampleBefore ++ sampleNested :: [.delete (text "d/m")]

def emptyContent : ContentWorld := ⟨fun _ => none, 0, []⟩

/-- The disk is full at one of the calls, one byte of which has been done. -/
def fullAt (k : ℕ) : Faults := fun n => if n = k then some ⟨.io (.os 28), some 1⟩ else none

/-! ### Runs that break off -/

/-- **What a run leaves.** Either no fault has met the run, or the commands of its script up to one have been
performed, and a part of that one. -/
theorem executeRecipe_cases (roots : Roots) (actions : List InstallAction) (faults : Faults)
    (w : ContentWorld) :
    executeRecipe crates faults platform source roots actions w =
        executeRecipe crates noFaults platform source roots actions w ∨
      ∃ before c after fault t,
        recipeScript crates platform source roots actions w.tree = before ++ c :: after ∧
        execAll refusedBy before w.tree = .ok t ∧
        faults (w.clock + (before.map calls).sum) = some fault ∧
        executeRecipe crates faults platform source roots actions w =
          (.error fault.error, ⟨wreck fault.done c t, w.clock + (before.map calls).sum + 1,
            w.log ++ before.flatMap events⟩) := by
  rw [executeRecipe_eq_runScript, executeRecipe_eq_runScript]
  exact runScript_cases _ w

/-- **What a run does not touch**, wherever it breaks off: a path that is no file of the recipe is as before, or
a directory that a file of the recipe needs. -/
theorem executeRecipe_frame (roots : Roots) (actions : List InstallAction) (faults : Faults)
    (w : ContentWorld) {p : Path} (hp : p ∉ actions.flatMap (filesOfAction crates)) :
    (executeRecipe crates faults platform source roots actions w).2.tree p = w.tree p ∨
      (∃ file ∈ actions.flatMap (filesOfAction crates), Above p file) ∧ w.tree p = none ∧
        (executeRecipe crates faults platform source roots actions w).2.tree p = some .dir := by
  rw [executeRecipe_eq_runScript]
  rcases runScript_frame (fun h => hp (targets_recipeScript_subset roots actions w.tree h)) with h | ⟨h, -⟩ | ⟨h, hw⟩
  · exact Or.inl h
  · exact h.elim
  · exact Or.inr ⟨allMade_recipeScript_subset roots actions w.tree h, hw⟩

theorem executeRecipe_frame_other_file :
    [text "c.txt"] ∉ sampleActions.flatMap (filesOfAction sampleCrates) ∧
      (executeRecipe sampleCrates (fullAt 2) samplePlatform sampleSource sampleRoots sampleActions
        emptyContent).2.tree [text "c.txt"] = none := by
  have hp : [text "c.txt"] ∉ sampleActions.flatMap (filesOfAction sampleCrates) := by decide +kernel
  refine ⟨hp, ?_⟩
  rcases executeRecipe_frame sampleRoots sampleActions (fullAt 2) emptyContent hp with h | ⟨h, -⟩
  · exact h
  · exact absurd h (by decide +kernel)

theorem tree_of_taken {roots : Roots} (h : refusedRoots roots = none) (actions : List InstallAction)
    (faults : Faults) (w : ContentWorld) :
    (executeRecipe crates faults platform source roots actions w).2.tree =
      (runStages refusedBy faults (stages crates platform source actions.length 0 actions) w).2.tree := by
  rw [executeRecipe_of_taken h]
  rcases hrun : runStages refusedBy faults (stages crates platform source actions.length 0 actions) w
    with ⟨e | ⟨⟩, w'⟩
  · rw [bind_of_error hrun]
  · rw [bind_of_ok hrun]
    rfl

theorem executeRecipe_rerun (roots : Roots) {actions : List InstallAction}
    (h : RetrySafe crates platform source actions) (faults : Faults) (w : ContentWorld) (k : ℕ)
    (log : List InstallProgress) :
    executeRecipe crates noFaults platform source roots actions
        ⟨(executeRecipe crates faults platform source roots actions w).2.tree, k, log⟩ =
      executeRecipe crates noFaults platform source roots actions ⟨w.tree, k, log⟩ := by
  rcases hr : refusedRoots roots with _ | e
  · rw [tree_of_taken hr, executeRecipe_of_taken hr, executeRecipe_of_taken hr]
    dsimp only
    rw [plan_rerun h.1 h.2 w]
    exact bind_apply_congr (runStages_rerun h.1 h.2 w k log) _
  · rw [executeRecipe_of_refused hr actions faults w]

variable (crates platform source)

/-- The content tree after some runs, each with its faults. -/
def afterRuns (roots : Roots) (actions : List InstallAction) : List Faults → Tree Text UInt8 → Tree Text UInt8
  | [], t => t
  | faults :: runs, t =>
    afterRuns roots actions runs (executeRecipe crates faults platform source roots actions ⟨t, 0, []⟩).2.tree

variable {crates platform source}

/-- **A recipe can be retried.** However many runs have broken off, and wherever, a run without faults ends as
it would have ended at first: with the same content, the same result and the same reports. -/
theorem executeRecipe_retry (roots : Roots) {actions : List InstallAction}
    (h : RetrySafe crates platform source actions) : ∀ (runs : List Faults) (t : Tree Text UInt8),
    executeRecipe crates noFaults platform source roots actions
        ⟨afterRuns crates platform source roots actions runs t, 0, []⟩ =
      executeRecipe crates noFaults platform source roots actions ⟨t, 0, []⟩
  | [], _ => rfl
  | faults :: runs, t =>
    (executeRecipe_retry roots h runs _).trans (executeRecipe_rerun roots h faults ⟨t, 0, []⟩ 0 [])

theorem executeRecipe_retry_after_two :
    executeRecipe sampleCrates noFaults samplePlatform sampleSource sampleRoots sampleActions
        ⟨afterRuns sampleCrates samplePlatform sampleSource sampleRoots sampleActions [fullAt 2, fullAt 9]
          emptyContent.tree, 0, []⟩ =
      executeRecipe sampleCrates noFaults samplePlatform sampleSource sampleRoots sampleActions emptyContent :=
  executeRecipe_retry sampleRoots (by decide +kernel) [fullAt 2, fullAt 9] emptyContent.tree

/-! ### Runs that complete -/

theorem execAll_of_completed {roots : Roots} {actions : List InstallAction} {faults : Faults}
    {w w' : ContentWorld} (h : executeRecipe crates faults platform source roots actions w = (.ok (), w')) :
    execAll refusedBy (plan refusedBy (stages crates platform source actions.length 0 actions) w.tree) w.tree =
      .ok w'.tree := by
  rcases hr : refusedRoots roots with _ | e
  · have htree := @tree_of_taken crates platform source roots hr actions faults w
    rw [h] at htree
    rw [executeRecipe_of_taken hr] at h
    rcases hrun : runStages refusedBy faults (stages crates platform source actions.length 0 actions) w
      with ⟨e | ⟨⟩, w''⟩
    · rw [bind_of_error hrun] at h
      cases h
    · rw [hrun] at htree
      dsimp only at htree
      rw [htree]
      rw [runStages_eq] at hrun
      exact execAll_of_runScript hrun
  · rw [executeRecipe_of_refused hr] at h
    cases h

theorem stages_append (total : ℕ) : ∀ (before after : List InstallAction) (index : ℕ),
    stages crates platform source total index (before ++ after) =
      stages crates platform source total index before ++
        stages crates platform source total (index + before.length) after
  | [], after, index => rfl
  | action :: before, after, index => by
    rw [List.cons_append, stages, stages, stages_append total before after, List.cons_append, List.length_cons,
      Nat.add_right_comm, Nat.add_assoc]

/-- What an action leaves at a file of its own. -/
theorem lastEdit_actionScript {total index : ℕ} {action : InstallAction} {t : Tree Text UInt8} {p : Path}
    {n : FileNode} (h : lastEdit (actionScript crates platform source total index action t) p = some n) :
    (deletes action = true → n = none) ∧ (deletes action = false → ∃ contents, n = some (.file contents)) := by
  have hscript : lastEdit (onTreeScript crates platform source t action).script p = some n := by
    unfold actionScript at h
    rw [lastEdit_cons, lastEdit_append] at h
    rcases hr : (onTreeScript crates platform source t action).result with e | counts
    · rw [hr] at h
      simpa [ending, lastEdit] using h
    · rw [hr] at h
      simpa [ending, lastEdit] using h
  refine ⟨fun hd => ?_, fun hd => lastEdit_isFile ((onTreeScript crates platform source t action).keeps hd p) hscript⟩
  cases action with
  | delete path =>
    rcases hpath : boundedPath crates.joinContent path with e | target
    · have hdel : (onTreeScript crates platform source t (.delete path)).script = [] := bindExcept_of_error hpath
      rw [hdel] at hscript
      cases hscript
    · have hdel : (onTreeScript crates platform source t (.delete path)).script = [.remove target] :=
        bindExcept_of_ok hpath
      rw [hdel] at hscript
      simp only [lastEdit, Option.none_or, Option.ite_none_right_eq_some, Option.some.injEq] at hscript
      exact hscript.2.symm
  | _ => cases hd

/-- **What a run leaves that completes.** At a file of an action that no later action touches there is a file,
or nothing if the action is the deletion of that file. -/
theorem executeRecipe_leaves {roots : Roots} {before after : List InstallAction} {action : InstallAction}
    {faults : Faults} {w w' : ContentWorld}
    (hsep : SeparateFiles (stages crates platform source (before ++ action :: after).length 0
      (before ++ action :: after)))
    (h : executeRecipe crates faults platform source roots (before ++ action :: after) w = (.ok (), w'))
    {p : Path} (hp : p ∈ filesOfAction crates action) (hafter : p ∉ after.flatMap (filesOfAction crates)) :
    (deletes action = true → w'.tree p = none) ∧
      (deletes action = false → ∃ contents, w'.tree p = some (.file contents)) := by
  have hall := execAll_of_completed h
  rw [stages_append, stages] at hsep hall
  rw [← stageFiles_stages] at hafter
  obtain ⟨v, n, hn, hu⟩ := plan_last hsep hall hp hafter
  rw [hu]
  exact lastEdit_actionScript hn

theorem sampleActions_completes : (executeRecipe sampleCrates noFaults samplePlatform sampleSource sampleRoots
    sampleActions emptyContent).1 = .ok () := by decide +kernel

theorem eq_of_completes {r : Except ExecutorError Unit × ContentWorld} (h : r.1 = .ok ()) : r = (.ok (), r.2) :=
  Prod.ext h rfl

def sampleEntry : Path := [text "d", text "b"]

theorem executeRecipe_leaves_entry : ∃ contents, (executeRecipe sampleCrates noFaults samplePlatform
    sampleSource sampleRoots sampleActions emptyContent).2.tree sampleEntry = some (.file contents) := by
  have hsep : SeparateFiles (stages sampleCrates samplePlatform sampleSource sampleActions.length 0
      sampleActions) := by decide +kernel
  have hp : sampleEntry ∈ filesOfAction sampleCrates sampleNested := by decide +kernel
  have hafter : sampleEntry ∉ [InstallAction.delete (text "d/m")].flatMap (filesOfAction sampleCrates) := by
    decide +kernel
  have h : executeRecipe sampleCrates noFaults samplePlatform sampleSource sampleRoots sampleActions
      emptyContent = (.ok (), (executeRecipe sampleCrates noFaults samplePlatform sampleSource sampleRoots
        sampleActions emptyContent).2) := eq_of_completes sampleActions_completes
  exact (executeRecipe_leaves hsep h hp hafter).2 rfl

/-- The counts that a completed run reports are those of the reports before. -/
theorem executeRecipe_completed {roots : Roots} {actions : List InstallAction} {faults : Faults}
    {w w' : ContentWorld} (h : executeRecipe crates faults platform source roots actions w = (.ok (), w')) :
    ∃ log, w'.log = w.log ++ log ++ [.completed (tally log).1 (tally log).2] := by
  rcases hr : refusedRoots roots with _ | e
  · refine ⟨(plan refusedBy (stages crates platform source actions.length 0 actions) w.tree).flatMap events, ?_⟩
    rw [executeRecipe_eq_runScript] at h
    have hscript := execAll_of_runScript h
    rcases @runScript_cases _ _ _ _ _ refusedBy faults _ w with heq | ⟨_, _, _, _, _, -, -, -, herr⟩
    · rw [heq, runScript_of_ok hscript] at h
      have hlog := congrArg (fun r => r.2.log) h
      unfold recipeScript at hlog
      rw [hr] at hlog
      dsimp only at hlog
      rw [← hlog, List.flatMap_append, ← List.append_assoc]
      rfl
    · rw [herr] at h
      cases h
  · rw [executeRecipe_of_refused hr] at h
    cases h

end Stages

end CncContent.Install.Restart
