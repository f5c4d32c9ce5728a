import CncContent.Install.Restart

/-! # The movie recipes

The recipes of Red Alert's movies take an archive out of another one, into a temporary directory of the content
root, extract the movies from there and delete it. Retried until a run completes, they leave the movies and no
temporary archive, whatever has become of the runs before (`movies_installed`). -/

namespace CncContent.Install.Movies

open CncContent.Lib.Bytes CncContent.Lib.FileScripts CncContent.Lib.FileTree
open CncContent.Install.Executor CncContent.Install.Script CncContent.Install.Restart

def inDir (dir name : Text) : Text := dir ++ byte '/' :: name

def movieEntries (names : List String) : List FileMapping :=
  names.map fun name => ⟨text name, inDir (text "movies") (text name)⟩

/-- The file names of `MOVIES_ALLIED_VQA_ENTRIES`. -/
def alliedNames : List String :=
  ["aagun.vqa", "aftrmath.vqa", "ally1.vqa", "ally10.vqa", "ally10b.vqa", "ally11.vqa", "ally12.vqa",
   "ally14.vqa", "ally2.vqa", "ally4.vqa", "ally5.vqa", "ally6.vqa", "ally8.vqa", "ally9.vqa",
   "allyend.vqa", "allymorf.vqa", "apcescpe.vqa", "assess.vqa", "battle.vqa", "binoc.vqa", "bmap.vqa",
   "brdgtilt.vqa", "crontest.vqa", "cronfail.vqa", "destroyr.vqa", "dud.vqa", "elevator.vqa", "flare.vqa",
   "frozen.vqa", "grvestne.vqa", "landing.vqa", "masasslt.vqa", "mcv.vqa", "mcv_land.vqa", "montpass.vqa",
   "oildrum.vqa", "overrun.vqa", "prolog.vqa", "redintro.vqa", "shipsink.vqa", "shorbom1.vqa",
   "shorbom2.vqa", "shorbomb.vqa", "snowbomb.vqa", "soviet1.vqa", "sovtstar.vqa", "spy.vqa", "tanya1.vqa",
   "tanya2.vqa", "toofar.vqa", "trinity.vqa"]

/-- The file names of `MOVIES_SOVIET_VQA_ENTRIES`. -/
def sovietNames : List String :=
  ["aagun.vqa", "airfield.vqa", "ally1.vqa", "allymorf.vqa", "averted.vqa", "beachead.vqa", "bmap.vqa",
   "bombrun.vqa", "countdwn.vqa", "cronfail.vqa", "double.vqa", "dpthchrg.vqa", "execute.vqa", "flare.vqa",
   "landing.vqa", "mcvbrdge.vqa", "mig.vqa", "movingin.vqa", "mtnkfact.vqa", "nukestok.vqa",
   "onthprwl.vqa", "periscop.vqa", "prolog.vqa", "radrraid.vqa", "redintro.vqa", "search.vqa",
   "sfrozen.vqa", "sitduck.vqa", "slntsrvc.vqa", "snowbomb.vqa", "snstrafe.vqa", "sovbatl.vqa",
   "sovcemet.vqa", "sovfinal.vqa", "soviet1.vqa", "soviet2.vqa", "soviet3.vqa", "soviet4.vqa",
   "soviet5.vqa", "soviet6.vqa", "soviet7.vqa", "soviet8.vqa", "soviet9.vqa", "soviet10.vqa",
   "soviet11.vqa", "soviet12.vqa", "soviet13.vqa", "soviet14.vqa", "sovmcv.vqa", "sovtstar.vqa",
   "spotter.vqa", "strafe.vqa", "take_off.vqa", "tesla.vqa", "v2rocket.vqa"]

def moviesAlliedVqaEntries : List FileMapping := movieEntries alliedNames

def moviesSovietVqaEntries : List FileMapping := movieEntries sovietNames

/-- An archive taken out of another one, its entries, and its deletion. -/
def fromNestedMix (sourceMix nested : Text) (entries : List FileMapping) : List InstallAction :=
  [.extractMix sourceMix [⟨nested, inDir (text ".tmp") nested⟩],
    .extractMixFromContent (inDir (text ".tmp") nested) entries,
    .delete (inDir (text ".tmp") nested)]

def moviesAlliedFromMainMix : List InstallAction :=
  fromNestedMix (text "MAIN.MIX") (text "movies1.mix") moviesAlliedVqaEntries

def moviesSovietFromMainMix : List InstallAction :=
  fromNestedMix (text "MAIN.MIX") (text "movies2.mix") moviesSovietVqaEntries

def remasteredMainMix : Text := text "Data/CNCDATA/RED_ALERT/CD1/MAIN.MIX"

def moviesAlliedFromRemasteredMix : List InstallAction :=
  fromNestedMix remasteredMainMix (text "movies1.mix") moviesAlliedVqaEntries

def moviesSovietFromRemasteredMix : List InstallAction :=
  fromNestedMix remasteredMainMix (text "movies2.mix") moviesSovietVqaEntries

/-! ### Paths of two names -/

/-- A name that is neither empty nor special, and has no separator in it. -/
def Plain (name : Text) : Prop :=
  name ≠ [] ∧ name ≠ text "." ∧ name ≠ text ".." ∧ byte '/' ∉ name

instance (name : Text) : Decidable (Plain name) := by unfold Plain; infer_instance

/-- What `strict_join` documents for a relative path of two plain names. -/
def JoinsPlain (crates : Crates) : Prop :=
  ∀ dir name, Plain dir → Plain name → crates.joinContent (inDir dir name) = .ok [dir, name]

variable {crates : Crates} {platform : Iscab.Archive.Platform} {source : Tree Text UInt8}

theorem place_inDir (hjoin : JoinsPlain crates) {dir name : Text} (hdir : Plain dir) (hname : Plain name) :
    place crates (inDir dir name) = some [dir, name] := by
  unfold place
  rw [hjoin dir name hdir hname]
  rfl

theorem plain_tmp : Plain (text ".tmp") := by decide

theorem plain_movies : Plain (text "movies") := by decide

theorem mem_filesOf_movieEntries (hjoin : JoinsPlain crates) {names : List String}
    (hnames : ∀ name ∈ names, Plain (text name)) {p : Path} :
    p ∈ filesOf crates (movieEntries names) ↔ ∃ name ∈ names, p = [text "movies", text name] := by
  unfold filesOf movieEntries
  rw [List.flatMap_map, List.mem_flatMap]
  refine exists_congr fun name => and_congr_right fun hname => ?_
  rw [place_inDir hjoin plain_movies (hnames name hname), Option.toList_some, List.mem_singleton]

/-- The files of the three actions. -/
theorem filesOf_fromNestedMix (hjoin : JoinsPlain crates) {sourceMix nested : Text} (hnested : Plain nested)
    (entries : List FileMapping) :
    (fromNestedMix sourceMix nested entries).map (filesOfAction crates) =
      [[[text ".tmp", nested]], filesOf crates entries, [[text ".tmp", nested]]] := by
  have htmp := place_inDir hjoin plain_tmp hnested
  simp only [fromNestedMix, List.map_cons, List.map_nil, filesOfAction, filesOf, List.flatMap_cons,
    List.flatMap_nil, htmp, Option.toList_some, List.append_nil]

theorem not_above_of_length {p q : Path} (h : q.length = p.length) : ¬ Above q p :=
  fun ⟨_, hpre, hne⟩ => hne (hpre.eq_of_length h)

theorem retrySafe_fromNestedMix (hjoin : JoinsPlain crates) {sourceMix nested : Text} (hnested : Plain nested)
    {names : List String} (hnames : ∀ name ∈ names, Plain (text name)) :
    RetrySafe crates platform source (fromNestedMix sourceMix nested (movieEntries names)) := by
  have hlen : ∀ p ∈ (fromNestedMix sourceMix nested (movieEntries names)).flatMap (filesOfAction crates),
      p.length = 2 := by
    intro p hp
    rw [List.flatMap_def, filesOf_fromNestedMix hjoin hnested] at hp
    simp only [List.flatten_cons, List.flatten_nil, List.append_nil, List.mem_append, List.mem_singleton,
      mem_filesOf_movieEntries hjoin hnames] at hp
    rcases hp with rfl | ⟨name, -, rfl⟩ | rfl <;> rfl
  have habove : ∀ p ∈ (fromNestedMix sourceMix nested (movieEntries names)).flatMap (filesOfAction crates),
      ∀ q ∈ (fromNestedMix sourceMix nested (movieEntries names)).flatMap (filesOfAction crates), ¬ Above q p :=
    fun p hp q hq => not_above_of_length ((hlen q hq).trans (hlen p hp).symm)
  refine ⟨fun p hp q hq => ?_, ?_⟩
  · rw [stageFiles_stages] at hp hq
    exact habove p hp q hq
  · have htmp := place_inDir hjoin plain_tmp hnested
    refine ⟨fun _ hp => absurd hp List.not_mem_nil, ⟨fun p hp => ?_, fun _ hp => absurd hp List.not_mem_nil, trivial⟩⟩
    change p ∈ (place crates (inDir (text ".tmp") nested)).toList at hp
    rw [htmp, Option.toList_some, List.mem_singleton] at hp
    subst hp
    refine ⟨Or.inl ?_, fun q hq => not_above_of_length ?_⟩
    · change _ ∈ [] ++ (place crates (inDir (text ".tmp") nested)).toList ++ []
      rw [htmp]
      exact List.mem_singleton_self _
    · refine (hlen q ?_).symm
      rw [← @stageFiles_stages crates platform source 3 _ 0]
      exact mem_stageFiles_cons.mpr (Or.inr hq)

/-! ### The recipes -/

/-- The four recipes, with their temporary archives and their movies. -/
def movieRecipes : List (List InstallAction × Text × List String) :=
  [(moviesAlliedFromMainMix, text "movies1.mix", alliedNames),
    (moviesSovietFromMainMix, text "movies2.mix", sovietNames),
    (moviesAlliedFromRemasteredMix, text "movies1.mix", alliedNames),
    (moviesSovietFromRemasteredMix, text "movies2.mix", sovietNames)]

theorem plain_alliedNames : ∀ name ∈ alliedNames, Plain (text name) := by
  have h : (alliedNames.all fun name => decide (Plain (text name))) = true := by decide +kernel
  exact fun name hname => of_decide_eq_true (List.all_eq_true.mp h name hname)

theorem plain_sovietNames : ∀ name ∈ sovietNames, Plain (text name) := by
  have h : (sovietNames.all fun name => decide (Plain (text name))) = true := by decide +kernel
  exact fun name hname => of_decide_eq_true (List.all_eq_true.mp h name hname)

theorem movieRecipes_shape {actions : List InstallAction} {nested : Text} {names : List String}
    (h : (actions, nested, names) ∈ movieRecipes) :
    (∃ sourceMix, actions = fromNestedMix sourceMix nested (movieEntries names)) ∧ Plain nested ∧
      ∀ name ∈ names, Plain (text name) := by
  unfold movieRecipes at h
  simp only [List.mem_cons, List.not_mem_nil, or_false, Prod.mk.injEq] at h
  rcases h with ⟨rfl, rfl, rfl⟩ | ⟨rfl, rfl, rfl⟩ | ⟨rfl, rfl, rfl⟩ | ⟨rfl, rfl, rfl⟩
  · exact ⟨⟨_, rfl⟩, by decide, plain_alliedNames⟩
  · exact ⟨⟨_, rfl⟩, by decide, plain_sovietNames⟩
  · exact ⟨⟨_, rfl⟩, by decide, plain_alliedNames⟩
  · exact ⟨⟨_, rfl⟩, by decide, plain_sovietNames⟩

/-- **The movies are installed.** However many runs have broken off, the first that completes ends as a run
without faults on the content before all of them: the movies are there, and the temporary archive is not. -/
theorem movies_installed (platform : Iscab.Archive.Platform) (source : Tree Text UInt8) (roots : Roots)
    (hjoin : JoinsPlain crates) {actions : List InstallAction} {nested : Text} {names : List String}
    (hrecipe : (actions, nested, names) ∈ movieRecipes) (runs : List Faults) (faults : Faults)
    {t : Tree Text UInt8} {w : ContentWorld}
    (h : executeRecipe crates faults platform source roots actions
      ⟨afterRuns crates platform source roots actions runs t, 0, []⟩ = (.ok (), w)) :
    executeRecipe crates noFaults platform source roots actions ⟨t, 0, []⟩ = (.ok (), w) ∧
      w.tree [text ".tmp", nested] = none ∧
      ∀ name ∈ names, ∃ contents, w.tree [text "movies", text name] = some (.file contents) := by
  obtain ⟨⟨sourceMix, rfl⟩, hnested, hnames⟩ := movieRecipes_shape hrecipe
  have hsafe : RetrySafe crates platform source (fromNestedMix sourceMix nested (movieEntries names)) :=
    retrySafe_fromNestedMix hjoin hnested hnames
  have hsound : executeRecipe crates noFaults platform source roots
      (fromNestedMix sourceMix nested (movieEntries names)) ⟨t, 0, []⟩ = (.ok (), w) := by
    rw [← executeRecipe_retry roots hsafe runs t, ← h]
    rcases executeRecipe_cases roots _ faults _ with heq | ⟨_, _, _, _, _, -, -, -, herr⟩
    · exact heq.symm
    · rw [herr] at h
      cases h
  have htmp : place crates (inDir (text ".tmp") nested) = some [text ".tmp", nested] :=
    place_inDir hjoin plain_tmp hnested
  refine ⟨hsound, ?_, fun name hname => ?_⟩
  · refine (@executeRecipe_leaves crates platform source roots
      [_, _] [] (.delete (inDir (text ".tmp") nested)) noFaults _ w hsafe.1 hsound _ ?_ List.not_mem_nil).1 rfl
    rw [filesOfAction, htmp]
    exact List.mem_singleton_self _
  · refine (@executeRecipe_leaves crates platform source roots
      [_] [_] (.extractMixFromContent (inDir (text ".tmp") nested) (movieEntries names)) noFaults _ w hsafe.1
      hsound _ ?_ ?_).2 rfl
    · exact (mem_filesOf_movieEntries hjoin hnames).mpr ⟨name, hname, rfl⟩
    · rw [List.flatMap_singleton, filesOfAction, htmp, Option.toList_some, List.mem_singleton]
      exact fun heq => absurd (List.cons.inj heq).1 (by decide)

theorem joinsPlain_sampleCrates : JoinsPlain sampleCrates := by
  intro dir name hdir hname
  change Except.ok ((dir ++ byte '/' :: name).splitOn (byte '/')) = _
  rw [List.splitOn_append_cons_self_of_not_mem hdir.2.2.2, List.splitOn_eq_singleton hname.2.2.2]

theorem alliedMovies_complete : (executeRecipe sampleCrates noFaults samplePlatform sampleSource sampleRoots
    moviesAlliedFromMainMix ⟨afterRuns sampleCrates samplePlatform sampleSource sampleRoots
      moviesAlliedFromMainMix [fullAt 90] emptyContent.tree, 0, []⟩).1 = .ok () := by decide +kernel

theorem movies_installed_allied :
    ∃ w, executeRecipe sampleCrates noFaults samplePlatform sampleSource sampleRoots moviesAlliedFromMainMix
      emptyContent = (.ok (), w) ∧ w.tree [text ".tmp", text "movies1.mix"] = none ∧
      ∀ name ∈ alliedNames, ∃ contents, w.tree [text "movies", text name] = some (.file contents) := by
  have hrecipe : (moviesAlliedFromMainMix, text "movies1.mix", alliedNames) ∈ movieRecipes := List.mem_cons_self
  exact ⟨_, movies_installed samplePlatform sampleSource sampleRoots joinsPlain_sampleCrates hrecipe
    [fullAt 90] noFaults (eq_of_completes alliedMovies_complete)⟩

end CncContent.Install.Movies
