import CncContent.Manifest.Group

/-! # Differences of manifests

`diff_manifests` of the source, a merge of two lists of entries that increase by path. It compares the
hash and the size of a path, not its info hash. Applied to the old entries, the differences give the
new ones, except that an entry of the same content keeps the old info hash (`diffManifests_law`). -/

namespace CncContent.Manifest.Diff

open CncContent.Lib.Bytes CncContent.Lib.Keyed CncContent.Manifest.Group

inductive ManifestDiff
  | added (entry : ContentEntry)
  | removed (path : List UInt8)
  | modified (path : List UInt8) (oldHash : Vector UInt8 32) (newEntry : ContentEntry)
deriving DecidableEq

def diffManifests : List ContentEntry → List ContentEntry → List ManifestDiff
  | [], [] => []
  | o :: old, [] => .removed o.path :: diffManifests old []
  | [], n :: new => .added n :: diffManifests [] new
  | o :: old, n :: new =>
    match compareBy ContentEntry.key o n with
    | .lt => .removed o.path :: diffManifests old (n :: new)
    | .gt => .added n :: diffManifests (o :: old) new
    | .eq =>
      if o.contentHash ≠ n.contentHash ∨ o.fileSize ≠ n.fileSize then
        .modified o.path o.contentHash n :: diffManifests old new
      else diffManifests old new
termination_by old new => old.length + new.length

section Merge

variable {o n : ContentEntry} {old new : List ContentEntry}

theorem diffManifests_lt (hcmp : compareBy ContentEntry.key o n = .lt) :
    diffManifests (o :: old) (n :: new) = .removed o.path :: diffManifests old (n :: new) := by
  rw [diffManifests, hcmp]

theorem diffManifests_gt (hcmp : compareBy ContentEntry.key o n = .gt) :
    diffManifests (o :: old) (n :: new) = .added n :: diffManifests (o :: old) new := by
  rw [diffManifests, hcmp]

theorem diffManifests_changed (hcmp : compareBy ContentEntry.key o n = .eq)
    (hne : o.contentHash ≠ n.contentHash ∨ o.fileSize ≠ n.fileSize) :
    diffManifests (o :: old) (n :: new) =
      .modified o.path o.contentHash n :: diffManifests old new := by
  rw [diffManifests, hcmp]
  exact if_pos hne

theorem diffManifests_same (hcmp : compareBy ContentEntry.key o n = .eq)
    (hne : ¬ (o.contentHash ≠ n.contentHash ∨ o.fileSize ≠ n.fileSize)) :
    diffManifests (o :: old) (n :: new) = diffManifests old new := by
  rw [diffManifests, hcmp]
  exact if_neg hne

end Merge

/-! ### What the differences are for -/

/-- The path a difference mentions. -/
def ManifestDiff.path : ManifestDiff → List UInt8
  | .added entry => entry.path
  | .removed path => path
  | .modified path _ _ => path

/-- The entries after one difference, still increasing by path. -/
def applyChange (entries : List ContentEntry) : ManifestDiff → List ContentEntry
  | .added entry => entries.orderedInsert (fun a b => a.key ≤ b.key) entry
  | .removed path => entries.filter fun e => e.path ≠ path
  | .modified path _ newEntry => entries.map fun e => if e.path = path then newEntry else e

def applyDiff (diffs : List ManifestDiff) (entries : List ContentEntry) : List ContentEntry :=
  diffs.foldl applyChange entries

/-- All of an entry but its info hash. -/
def content (entry : ContentEntry) : List UInt8 × Vector UInt8 32 × UInt64 :=
  (entry.path, entry.contentHash, entry.fileSize)

/-- The old entry of the same content, or else the new one. -/
def carried (old : List ContentEntry) (n : ContentEntry) : ContentEntry :=
  (old.find? fun o => content o = content n).getD n

theorem content_eq_iff {o n : ContentEntry} :
    content o = content n ↔
      o.path = n.path ∧ ¬ (o.contentHash ≠ n.contentHash ∨ o.fileSize ≠ n.fileSize) := by
  unfold content
  rw [Prod.mk.injEq, Prod.mk.injEq, not_or, not_not, not_not]

/-! ### One difference -/

variable {o n : ContentEntry} {before old new : List ContentEntry}

theorem path_ne_of_lt (h : o.key < n.key) : o.path ≠ n.path :=
  fun he => h.ne (ContentEntry.key_inj.mpr he)

/-- The entries with one path between smaller and larger ones. -/
theorem applyChange_removed (hbefore : ∀ d ∈ before, d.key < o.key) (hold : ∀ d ∈ old, o.key < d.key) :
    applyChange (before ++ o :: old) (.removed o.path) = before ++ old := by
  rw [applyChange, List.filter_append, List.filter_cons_of_neg (by simp),
    List.filter_eq_self.mpr fun d hd => decide_eq_true (path_ne_of_lt (hbefore d hd)),
    List.filter_eq_self.mpr fun d hd => decide_eq_true (path_ne_of_lt (hold d hd)).symm]

theorem applyChange_modified (hbefore : ∀ d ∈ before, d.key < o.key)
    (hold : ∀ d ∈ old, o.key < d.key) :
    applyChange (before ++ o :: old) (.modified o.path o.contentHash n) = before ++ n :: old := by
  rw [applyChange, List.map_append, List.map_cons, if_pos rfl,
    List.map_congr_left fun d hd => if_neg (path_ne_of_lt (hbefore d hd)),
    List.map_congr_left fun d hd => if_neg (path_ne_of_lt (hold d hd)).symm, List.map_id', List.map_id']

/-! ### The entries carried over -/

theorem carried_of_forall_ne (h : ∀ o ∈ old, content o ≠ content n) : carried old n = n := by
  unfold carried
  rw [List.find?_eq_none.mpr fun o ho => by simpa using h o ho]
  rfl

theorem carried_cons_same (h : content o = content n) : carried (o :: old) n = o := by
  unfold carried
  rw [List.find?_cons_of_pos (by simpa using h)]
  rfl

theorem carried_cons_of_ne (h : content o ≠ content n) : carried (o :: old) n = carried old n := by
  unfold carried
  rw [List.find?_cons_of_neg (by simpa using h)]

theorem content_ne_of_lt (h : o.key < n.key) : content o ≠ content n :=
  fun he => path_ne_of_lt h (content_eq_iff.mp he).1

/-- An entry before all the new ones is not carried over. -/
theorem map_carried_cons (h : ∀ n ∈ new, o.key < n.key) :
    new.map (carried (o :: old)) = new.map (carried old) :=
  List.map_congr_left fun n hn => carried_cons_of_ne (content_ne_of_lt (h n hn))

/-! ### All differences -/

/-- **The simulation**: `before` is what the merge has left behind, and the entries still to come are
those of the two lists. -/
theorem applyDiff_diffManifests (old new : List ContentEntry) : ∀ before : List ContentEntry,
    Increasing ContentEntry.key old → Increasing ContentEntry.key new →
    Below ContentEntry.key before old → Below ContentEntry.key before new →
    applyDiff (diffManifests old new) (before ++ old) = before ++ new.map (carried old) := by
  induction old, new using diffManifests.induct with
  | case1 =>
    intro before _ _ _ _
    rw [diffManifests]
    rfl
  | case2 o old ih =>
    intro before hold hnew hbold hbnew
    obtain ⟨ho, hold⟩ := increasing_cons.mp hold
    rw [diffManifests, applyDiff, List.foldl_cons, applyChange_removed hbold.head ho]
    exact ih before hold hnew hbold.tail hbnew
  | case3 n new ih =>
    intro before hold hnew hbold hbnew
    obtain ⟨hn, hnew⟩ := increasing_cons.mp hnew
    have hrest := ih (before ++ [n]) hold hnew (hbold.concat nofun) (hbnew.tail.concat hn)
    rw [diffManifests, applyDiff, List.foldl_cons, applyChange, orderedInsert_between hbnew.head
      (List.forall_mem_nil _)]
    rw [List.append_nil, List.append_assoc] at hrest
    exact hrest
  | case4 o old n new hcmp ih =>
    intro before hold hnew hbold hbnew
    obtain ⟨ho, hold⟩ := increasing_cons.mp hold
    have hlt : o.key < n.key := compareBy_eq_lt_iff.mp hcmp
    rw [diffManifests_lt hcmp, applyDiff, List.foldl_cons, applyChange_removed hbold.head ho,
      map_carried_cons (hnew.forall_lt hlt)]
    exact ih before hold hnew hbold.tail hbnew
  | case5 o old n new hcmp ih =>
    intro before hold hnew hbold hbnew
    obtain ⟨hn, hnew⟩ := increasing_cons.mp hnew
    have hlt : n.key < o.key := compareBy_eq_gt_iff.mp hcmp
    have hltAll : ∀ o' ∈ o :: old, n.key < o'.key := hold.forall_lt hlt
    have hcarried : carried (o :: old) n = n :=
      carried_of_forall_ne fun o' ho' => (content_ne_of_lt (hltAll o' ho')).symm
    have hrest := ih (before ++ [n]) hold hnew (hbold.concat hltAll) (hbnew.tail.concat hn)
    rw [diffManifests_gt hcmp, applyDiff, List.foldl_cons, applyChange,
      orderedInsert_between hbnew.head hltAll, List.map_cons, hcarried]
    rw [List.append_assoc, List.append_assoc] at hrest
    exact hrest
  | case6 o old n new hcmp hne ih =>
    intro before hold hnew hbold hbnew
    obtain ⟨ho, hold⟩ := increasing_cons.mp hold
    obtain ⟨hn, hnew⟩ := increasing_cons.mp hnew
    have hkey : o.key = n.key := compareBy_eq_eq_iff.mp hcmp
    have hnold : ∀ o' ∈ old, n.key < o'.key := hkey ▸ ho
    have hcarried : carried (o :: old) n = n := by
      refine carried_of_forall_ne (List.forall_mem_cons.mpr ⟨fun he => ?_, fun o' ho' => ?_⟩)
      · exact (content_eq_iff.mp he).2 hne
      · exact (content_ne_of_lt (hnold o' ho')).symm
    have hrest := ih (before ++ [n]) hold hnew (hbold.tail.concat hnold) (hbnew.tail.concat hn)
    rw [diffManifests_changed hcmp hne, applyDiff, List.foldl_cons,
      applyChange_modified hbold.head ho, List.map_cons, hcarried, map_carried_cons (hkey ▸ hn)]
    rw [List.append_assoc, List.append_assoc] at hrest
    exact hrest
  | case7 o old n new hcmp hne ih =>
    intro before hold hnew hbold hbnew
    obtain ⟨ho, hold⟩ := increasing_cons.mp hold
    obtain ⟨hn, hnew⟩ := increasing_cons.mp hnew
    have hkey : o.key = n.key := compareBy_eq_eq_iff.mp hcmp
    have hon : ∀ n' ∈ new, o.key < n'.key := hkey ▸ hn
    have hcontent : content o = content n := content_eq_iff.mpr ⟨ContentEntry.key_inj.mp hkey, hne⟩
    have hrest := ih (before ++ [o]) hold hnew (hbold.tail.concat ho) (hbnew.tail.concat hon)
    rw [diffManifests_same hcmp hne, List.map_cons, carried_cons_same hcontent, map_carried_cons hon]
    rw [List.append_assoc, List.append_assoc] at hrest
    exact hrest

/-- The path of a difference as the order of paths sees it. -/
def ManifestDiff.key (c : ManifestDiff) : List ℕ := keyOf c.path

/-- What is below all entries is below all differences. -/
theorem lt_key_of_mem (old new : List ContentEntry) {k : List ℕ} : (∀ e ∈ old, k < e.key) →
    (∀ e ∈ new, k < e.key) → ∀ c ∈ diffManifests old new, k < c.key := by
  induction old, new using diffManifests.induct with
  | case1 =>
    rw [diffManifests]
    exact fun _ _ => nofun
  | case2 o old ih =>
    intro hold hnew
    rw [List.forall_mem_cons] at hold
    rw [diffManifests]
    exact List.forall_mem_cons.mpr ⟨hold.1, ih hold.2 hnew⟩
  | case3 n new ih =>
    intro hold hnew
    rw [List.forall_mem_cons] at hnew
    rw [diffManifests]
    exact List.forall_mem_cons.mpr ⟨hnew.1, ih hold hnew.2⟩
  | case4 o old n new hcmp ih =>
    intro hold hnew
    rw [List.forall_mem_cons] at hold
    rw [diffManifests_lt hcmp]
    exact List.forall_mem_cons.mpr ⟨hold.1, ih hold.2 hnew⟩
  | case5 o old n new hcmp ih =>
    intro hold hnew
    rw [List.forall_mem_cons] at hnew
    rw [diffManifests_gt hcmp]
    exact List.forall_mem_cons.mpr ⟨hnew.1, ih hold hnew.2⟩
  | case6 o old n new hcmp hne ih =>
    intro hold hnew
    rw [List.forall_mem_cons] at hold hnew
    rw [diffManifests_changed hcmp hne]
    exact List.forall_mem_cons.mpr ⟨hold.1, ih hold.2 hnew.2⟩
  | case7 o old n new hcmp hne ih =>
    intro hold hnew
    rw [List.forall_mem_cons] at hold hnew
    rw [diffManifests_same hcmp hne]
    exact ih hold.2 hnew.2

/-- **The differences are increasing by path**, so that none is mentioned twice. -/
theorem increasing_diffManifests (old new : List ContentEntry) : Increasing ContentEntry.key old →
    Increasing ContentEntry.key new → Increasing ManifestDiff.key (diffManifests old new) := by
  induction old, new using diffManifests.induct with
  | case1 =>
    rw [diffManifests]
    exact fun _ _ => List.Pairwise.nil
  | case2 o old ih =>
    intro hold hnew
    obtain ⟨ho, hold⟩ := increasing_cons.mp hold
    rw [diffManifests]
    exact increasing_cons.mpr ⟨lt_key_of_mem _ _ ho nofun, ih hold hnew⟩
  | case3 n new ih =>
    intro hold hnew
    obtain ⟨hn, hnew⟩ := increasing_cons.mp hnew
    rw [diffManifests]
    exact increasing_cons.mpr ⟨lt_key_of_mem _ _ nofun hn, ih hold hnew⟩
  | case4 o old n new hcmp ih =>
    intro hold hnew
    have hlt := compareBy_eq_lt_iff.mp hcmp
    obtain ⟨ho, hold⟩ := increasing_cons.mp hold
    rw [diffManifests_lt hcmp]
    exact increasing_cons.mpr ⟨lt_key_of_mem _ _ ho (hnew.forall_lt hlt), ih hold hnew⟩
  | case5 o old n new hcmp ih =>
    intro hold hnew
    have hlt := compareBy_eq_gt_iff.mp hcmp
    obtain ⟨hn, hnew⟩ := increasing_cons.mp hnew
    rw [diffManifests_gt hcmp]
    exact increasing_cons.mpr ⟨lt_key_of_mem _ _ (hold.forall_lt hlt) hn, ih hold hnew⟩
  | case6 o old n new hcmp hne ih =>
    intro hold hnew
    have hkey := compareBy_eq_eq_iff.mp hcmp
    obtain ⟨ho, hold⟩ := increasing_cons.mp hold
    obtain ⟨hn, hnew⟩ := increasing_cons.mp hnew
    have hon : ∀ n' ∈ new, o.key < n'.key := hkey ▸ hn
    rw [diffManifests_changed hcmp hne]
    exact increasing_cons.mpr ⟨lt_key_of_mem _ _ ho hon, ih hold hnew⟩
  | case7 o old n new hcmp hne ih =>
    intro hold hnew
    rw [diffManifests_same hcmp hne]
    exact ih (increasing_cons.mp hold).2 (increasing_cons.mp hnew).2

/-- **Equal content** is all that an empty list of differences says. -/
theorem diffManifests_eq_nil_iff (old new : List ContentEntry) :
    diffManifests old new = [] ↔ old.map content = new.map content := by
  induction old, new using diffManifests.induct with
  | case1 =>
    rw [diffManifests]
    exact iff_of_true rfl rfl
  | case2 o old ih =>
    rw [diffManifests]
    exact iff_of_false nofun nofun
  | case3 n new ih =>
    rw [diffManifests]
    exact iff_of_false nofun nofun
  | case4 o old n new hcmp ih =>
    have hlt := compareBy_eq_lt_iff.mp hcmp
    rw [diffManifests_lt hcmp]
    exact iff_of_false nofun fun h => content_ne_of_lt hlt (List.cons.inj h).1
  | case5 o old n new hcmp ih =>
    have hlt := compareBy_eq_gt_iff.mp hcmp
    rw [diffManifests_gt hcmp]
    exact iff_of_false nofun fun h => content_ne_of_lt hlt (List.cons.inj h).1.symm
  | case6 o old n new hcmp hne ih =>
    rw [diffManifests_changed hcmp hne]
    exact iff_of_false nofun fun h => (content_eq_iff.mp (List.cons.inj h).1).2 hne
  | case7 o old n new hcmp hne ih =>
    have hpath := ContentEntry.key_inj.mp (compareBy_eq_eq_iff.mp hcmp)
    rw [diffManifests_same hcmp hne, ih, List.map_cons, List.map_cons, content_eq_iff.mpr ⟨hpath, hne⟩]
    exact (List.cons_inj_right _).symm

/-- The old entry is carried over unless the info hash is the same, too. -/
theorem carried_eq_self_iff (hold : Increasing ContentEntry.key old) :
    carried old n = n ↔ ∀ o ∈ old, content o = content n → o.infoHash = n.infoHash := by
  have hext : ∀ {o}, content o = content n → o.infoHash = n.infoHash → o = n := by
    intro o hcontent hinfo
    rw [content, content, Prod.mk.injEq, Prod.mk.injEq] at hcontent
    exact ContentEntry.ext hcontent.1 hcontent.2.1 hcontent.2.2 hinfo
  unfold carried
  rcases hfind : old.find? fun o => decide (content o = content n) with _ | o'
  · have hnone := List.find?_eq_none.mp hfind
    exact iff_of_true rfl fun o ho hcontent => absurd (decide_eq_true hcontent) (hnone o ho)
  · have hmem := List.mem_of_find?_eq_some hfind
    have hsame : content o' = content n := by simpa using List.find?_some hfind
    constructor
    · rintro (rfl : o' = n) o ho hcontent
      have hkey : o.key = o'.key := ContentEntry.key_inj.mpr (content_eq_iff.mp hcontent).1
      rw [List.inj_on_of_nodup_map hold.nodup_keys ho hmem hkey]
    · exact fun h => hext hsame (h o' hmem hsame)

/-- **The differences of two manifests**: they lead from the old entries to the new ones, up to the
info hashes of unchanged content; they mention no path twice; and there are none exactly if the
contents are the same. -/
theorem diffManifests_law (old new : GroupManifest) :
    applyDiff (diffManifests old.entries new.entries) old.entries =
      new.entries.map (carried old.entries) ∧
    (applyDiff (diffManifests old.entries new.entries) old.entries = new.entries ↔
      ∀ o ∈ old.entries, ∀ n ∈ new.entries, content o = content n → o.infoHash = n.infoHash) ∧
    ((diffManifests old.entries new.entries).map (·.path)).Nodup ∧
    (diffManifests old.entries new.entries = [] ↔
      old.entries.map content = new.entries.map content) := by
  have happly : applyDiff (diffManifests old.entries new.entries) old.entries =
      new.entries.map (carried old.entries) :=
    applyDiff_diffManifests _ _ [] old.increasing new.increasing nofun nofun
  refine ⟨happly, ?_, ?_, diffManifests_eq_nil_iff _ _⟩
  · have hmap : new.entries.map (carried old.entries) = new.entries.map id ↔
        ∀ n ∈ new.entries, carried old.entries n = n := List.map_inj_left
    rw [List.map_id] at hmap
    rw [happly, hmap]
    simp only [carried_eq_self_iff old.increasing]
    exact forall₂_comm
  · exact (increasing_diffManifests _ _ old.increasing new.increasing).nodup_map fun _ => rfl

/-- The one entry of a manifest. -/
def readme : ContentEntry := ⟨text "readme.txt", Vector.replicate 32 1, 10, none, by decide +kernel⟩

/-- **A change of the info hash alone** is no difference. -/
theorem infoHash_change_missed : ∃ old new,
    ((GroupManifest.builder (Vector.replicate 32 0)).setVersion 1 |>.addEntry readme).build =
      .ok old ∧
    ((GroupManifest.builder (Vector.replicate 32 0)).setVersion 2 |>.addEntry
      (readme.withInfoHash (Vector.replicate 20 7))).build = .ok new ∧
    diffManifests old.entries new.entries = [] ∧ old.entries ≠ new.entries ∧
    applyDiff (diffManifests old.entries new.entries) old.entries ≠ new.entries :=
  ⟨_, _, rfl, rfl, by decide +kernel, by decide +kernel, by decide +kernel⟩

end CncContent.Manifest.Diff
