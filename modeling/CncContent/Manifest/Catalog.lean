import CncContent.Lib.Bounded
import CncContent.Lib.Maps
import CncContent.Manifest.Group

/-! # Sync plans

`plan_sync` of the source: a pass over the remote entries, which looks for what is to be downloaded, and
one over the local entries, which looks for what is to be deleted, both under the policy of the mirror.
When the plan is executed, the mirror has what the policy asks for, and nothing else has changed; a
second plan is empty (`planSync_law`). -/

namespace CncContent.Manifest.Catalog

open CncContent.Lib.Bounded CncContent.Lib.Bytes CncContent.Lib.Keyed CncContent.Lib.Maps
  CncContent.Manifest.Group

inductive SyncAction
  | download (entry : ContentEntry)
  | delete (path : List UInt8)
deriving DecidableEq

inductive ReplicationPolicy
  | full
  | prefixFilter (prefixes : List (List UInt8))
deriving DecidableEq, Repr

def ReplicationPolicy.matchesPath : ReplicationPolicy → List UInt8 → Bool
  | .full, _ => true
  | .prefixFilter prefixes, path => prefixes.any fun p => p.isPrefixOf path

structure SyncPlan where
  actions : List SyncAction
  bytesToDownload : ℕ
  filesToDownload : ℕ
  filesToDelete : ℕ
deriving DecidableEq

namespace SyncPlan

def empty : SyncPlan := ⟨[], 0, 0, 0⟩

/-- One more download. -/
def addDownload (plan : SyncPlan) (entry : ContentEntry) : SyncPlan :=
  { plan with
    actions := plan.actions ++ [.download entry]
    bytesToDownload := satAdd u64Max plan.bytesToDownload entry.fileSize.toNat
    filesToDownload := satAdd u32Max plan.filesToDownload 1 }

/-- One more deletion. -/
def addDelete (plan : SyncPlan) (path : List UInt8) : SyncPlan :=
  { plan with
    actions := plan.actions ++ [.delete path]
    filesToDelete := satAdd u32Max plan.filesToDelete 1 }

end SyncPlan

/-- The step of the forward pass. -/
def checkRemote (policy : ReplicationPolicy) (localMap : Table (List UInt8) ContentEntry)
    (plan : SyncPlan) (remoteEntry : ContentEntry) : SyncPlan :=
  if policy.matchesPath remoteEntry.path then
    match localMap.get? remoteEntry.path with
    | none => plan.addDownload remoteEntry
    | some localEntry =>
      if localEntry.contentHash ≠ remoteEntry.contentHash then plan.addDownload remoteEntry else plan
  else plan

/-- The step of the reverse pass. -/
def checkLocal (policy : ReplicationPolicy) (remotePaths : Members (List UInt8)) (plan : SyncPlan)
    (localEntry : ContentEntry) : SyncPlan :=
  if policy.matchesPath localEntry.path ∧ localEntry.path ∉ remotePaths then
    plan.addDelete localEntry.path
  else plan

def planSync (localEntries : List ContentEntry) (remote : GroupManifest) (policy : ReplicationPolicy) :
    SyncPlan :=
  let localMap := Table.collect (localEntries.map fun e => (e.path, e))
  let remotePaths := Members.collect (remote.entries.map (·.path))
  localEntries.foldl (checkLocal policy remotePaths)
    (remote.entries.foldl (checkRemote policy localMap) .empty)

/-! ### What a plan is for -/

/-- The entry of the path. -/
def entryAt (entries : List ContentEntry) (path : List UInt8) : Option ContentEntry :=
  entries.find? fun e => e.path = path

/-- The hash of the path. -/
def hashAt (entries : List ContentEntry) (path : List UInt8) : Option (Vector UInt8 32) :=
  (entryAt entries path).map (·.contentHash)

/-- The entries of the mirror after an action. -/
def executeAction (entries : List ContentEntry) : SyncAction → List ContentEntry
  | .download entry => (entries.filter fun e => e.path ≠ entry.path) ++ [entry]
  | .delete path => entries.filter fun e => e.path ≠ path

def execute (actions : List SyncAction) (entries : List ContentEntry) : List ContentEntry :=
  actions.foldl executeAction entries

def SyncAction.path : SyncAction → List UInt8
  | .download entry => entry.path
  | .delete path => path

/-- What an action leaves at its path. -/
def SyncAction.outcome : SyncAction → Option ContentEntry
  | .download entry => some entry
  | .delete _ => none

/-- The bytes of a download. -/
def SyncAction.bytes : SyncAction → ℕ
  | .download entry => entry.fileSize.toNat
  | .delete _ => 0

def SyncAction.isDownload : SyncAction → Bool
  | .download _ => true
  | .delete _ => false

/-- The totals are those of the actions, as far as they fit. -/
structure Exact (plan : SyncPlan) : Prop where
  bytes : plan.bytesToDownload = min (plan.actions.map SyncAction.bytes).sum u64Max
  downloads : plan.filesToDownload = min (plan.actions.countP SyncAction.isDownload) u32Max
  deletes : plan.filesToDelete = min (plan.actions.countP fun a => !a.isDownload) u32Max

/-! ### The totals -/

variable {plan : SyncPlan}

theorem exact_empty : Exact .empty := ⟨rfl, rfl, rfl⟩

theorem Exact.addDownload (h : Exact plan) (entry : ContentEntry) : Exact (plan.addDownload entry) := by
  obtain ⟨hbytes, hdownloads, hdeletes⟩ := h
  refine ⟨?_, ?_, ?_⟩
  · show satAdd u64Max plan.bytesToDownload _ = min ((plan.actions ++ [_]).map _).sum _
    rw [hbytes, satAdd_min, List.map_append, List.sum_append]
    rfl
  · show satAdd u32Max plan.filesToDownload 1 = min ((plan.actions ++ [_]).countP _) _
    rw [hdownloads, satAdd_min, List.countP_append]
    rfl
  · show plan.filesToDelete = min ((plan.actions ++ [_]).countP _) _
    rw [hdeletes, List.countP_append]
    rfl

theorem Exact.addDelete (h : Exact plan) (path : List UInt8) : Exact (plan.addDelete path) := by
  obtain ⟨hbytes, hdownloads, hdeletes⟩ := h
  refine ⟨?_, ?_, ?_⟩
  · show plan.bytesToDownload = min ((plan.actions ++ [_]).map _).sum _
    rw [hbytes, List.map_append, List.sum_append]
    rfl
  · show plan.filesToDownload = min ((plan.actions ++ [_]).countP _) _
    rw [hdownloads, List.countP_append]
    rfl
  · show satAdd u32Max plan.filesToDelete 1 = min ((plan.actions ++ [_]).countP _) _
    rw [hdeletes, satAdd_min, List.countP_append]
    rfl

/-! ### The actions -/

section Pass

variable {step add : SyncPlan → ContentEntry → SyncPlan} {p : ContentEntry → Prop} [DecidablePred p]
  {action : ContentEntry → SyncAction}

/-- A pass adds the action of every entry that meets the condition. -/
theorem actions_foldl (hstep : ∀ plan e, step plan e = if p e then add plan e else plan)
    (hadd : ∀ plan e, (add plan e).actions = plan.actions ++ [action e]) :
    ∀ (entries : List ContentEntry) (plan : SyncPlan),
      (entries.foldl step plan).actions = plan.actions ++ (entries.filter p).map action
  | [], plan => (List.append_nil _).symm
  | e :: entries, plan => by
    rw [List.foldl_cons, actions_foldl hstep hadd entries, hstep]
    by_cases hp : p e
    · rw [if_pos hp, hadd, List.filter_cons_of_pos (by simpa using hp), List.map_cons,
        List.append_assoc]
      rfl
    · rw [if_neg hp, List.filter_cons_of_neg (by simpa using hp)]

theorem exact_foldl (hstep : ∀ plan e, step plan e = if p e then add plan e else plan)
    (hadd : ∀ plan e, Exact plan → Exact (add plan e)) :
    ∀ (entries : List ContentEntry) {plan : SyncPlan}, Exact plan → Exact (entries.foldl step plan)
  | [], _, h => h
  | e :: entries, plan, h => by
    refine exact_foldl hstep hadd entries ?_
    rw [hstep]
    split_ifs with hp
    · exact hadd plan e h
    · exact h

end Pass

variable {localEntries entries : List ContentEntry} {remote : GroupManifest}
  {policy : ReplicationPolicy}

/-- The remote entry is to be downloaded. -/
def Wanted (localEntries : List ContentEntry) (policy : ReplicationPolicy) (r : ContentEntry) : Prop :=
  policy.matchesPath r.path ∧ hashAt localEntries r.path ≠ some r.contentHash

/-- The local entry is to be deleted. -/
def Stale (remote : GroupManifest) (policy : ReplicationPolicy) (l : ContentEntry) : Prop :=
  policy.matchesPath l.path ∧ l.path ∉ remote.entries.map (·.path)

instance : DecidablePred (Wanted localEntries policy) := fun _ => inferInstanceAs (Decidable (_ ∧ _))

instance : DecidablePred (Stale remote policy) := fun _ => inferInstanceAs (Decidable (_ ∧ _))

theorem entryAt_eq_some_iff (h : (entries.map (·.path)).Nodup) {path : List UInt8} {e : ContentEntry} :
    entryAt entries path = some e ↔ e ∈ entries ∧ e.path = path := by
  unfold entryAt
  constructor
  · intro hfind
    exact ⟨List.mem_of_find?_eq_some hfind, by simpa using List.find?_some hfind⟩
  · rintro ⟨he, rfl⟩
    rcases hfind : entries.find? fun e' => decide (e'.path = e.path) with _ | e'
    · exact absurd (decide_eq_true rfl) (List.find?_eq_none.mp hfind e he)
    · have hpath : e'.path = e.path := by simpa using List.find?_some hfind
      rw [hfind, List.inj_on_of_nodup_map h (List.mem_of_find?_eq_some hfind) he hpath]

theorem get?_localMap (h : (localEntries.map (·.path)).Nodup) (path : List UInt8) :
    (Table.collect (localEntries.map fun e => (e.path, e))).get? path = entryAt localEntries path := by
  have hkeys : ((localEntries.map fun e => (e.path, e)).map Prod.fst).Nodup := by
    rw [List.map_map]
    exact h
  ext e
  rw [Table.get?_collect_eq_some_iff hkeys, entryAt_eq_some_iff h, List.mem_map]
  constructor
  · rintro ⟨e', he', heq⟩
    obtain ⟨rfl, rfl⟩ := Prod.mk.inj heq
    exact ⟨he', rfl⟩
  · rintro ⟨he, rfl⟩
    exact ⟨e, he, rfl⟩

theorem checkRemote_eq (h : (localEntries.map (·.path)).Nodup) (plan : SyncPlan) (r : ContentEntry) :
    checkRemote policy (Table.collect (localEntries.map fun e => (e.path, e))) plan r =
      if Wanted localEntries policy r then plan.addDownload r else plan := by
  have hiff : Wanted localEntries policy r ↔ policy.matchesPath r.path = true ∧
      (entryAt localEntries r.path).map (·.contentHash) ≠ some r.contentHash := Iff.rfl
  rw [checkRemote, get?_localMap h]
  by_cases hpolicy : policy.matchesPath r.path = true
  · rw [if_pos hpolicy]
    rw [and_iff_right hpolicy] at hiff
    rcases hentry : entryAt localEntries r.path with _ | l
    · rw [hentry] at hiff
      exact (if_pos (hiff.mpr nofun)).symm
    · rw [hentry, Option.map_some, ne_eq, Option.some.injEq] at hiff
      exact if_congr hiff.symm rfl rfl
  · rw [if_neg hpolicy, if_neg fun hwanted => hpolicy (hiff.mp hwanted).1]

theorem checkLocal_eq (plan : SyncPlan) (l : ContentEntry) :
    checkLocal policy (Members.collect (remote.entries.map (·.path))) plan l =
      if Stale remote policy l then plan.addDelete l.path else plan :=
  if_congr (and_congr_right fun _ => not_congr Members.mem_collect) rfl rfl

/-- **The actions of a plan**. -/
theorem actions_planSync (h : (localEntries.map (·.path)).Nodup) :
    (planSync localEntries remote policy).actions =
      (remote.entries.filter (Wanted localEntries policy)).map .download ++
        (localEntries.filter (Stale remote policy)).map fun l => .delete l.path := by
  unfold planSync
  rw [actions_foldl checkLocal_eq fun _ _ => rfl, actions_foldl (checkRemote_eq h) fun _ _ => rfl]
  rfl

theorem exact_planSync (h : (localEntries.map (·.path)).Nodup) :
    Exact (planSync localEntries remote policy) :=
  exact_foldl checkLocal_eq (fun _ e hexact => hexact.addDelete e.path) localEntries
    (exact_foldl (checkRemote_eq h) (fun _ e hexact => hexact.addDownload e) remote.entries exact_empty)

/-! ### Execution -/

/-- What is at a path after an action. -/
theorem entryAt_executeAction (entries : List ContentEntry) (a : SyncAction) (path : List UInt8) :
    entryAt (executeAction entries a) path =
      if path = a.path then a.outcome else entryAt entries path := by
  have hfilter : ∀ q, entryAt (entries.filter fun e => e.path ≠ q) path =
      if path = q then none else entryAt entries path := by
    intro q
    unfold entryAt
    rw [List.find?_filter]
    split_ifs with hpath
    · exact List.find?_eq_none.mpr fun e _ => by simp [hpath]
    · congr 1
      funext e
      by_cases he : e.path = path
      · simp [he, hpath]
      · simp [he]
  cases a with
  | delete q => exact hfilter q
  | download e =>
    unfold executeAction entryAt
    rw [List.find?_append]
    change (entryAt (entries.filter fun e' => e'.path ≠ e.path) path).or _ = _
    rw [hfilter]
    show _ = if path = e.path then some e else entryAt entries path
    split_ifs with hpath
    · simp [hpath]
    · have hne : e.path ≠ path := fun h => hpath h.symm
      simp [hne]

theorem nodup_executeAction (h : (entries.map (·.path)).Nodup) (a : SyncAction) :
    ((executeAction entries a).map (·.path)).Nodup := by
  have hfilter : ∀ q, ((entries.filter fun e => e.path ≠ q).map (·.path)).Nodup :=
    fun q => h.sublist (List.filter_sublist.map _)
  cases a with
  | delete q => exact hfilter q
  | download e =>
    unfold executeAction
    rw [List.map_append, List.nodup_append_comm]
    refine List.nodup_cons.mpr ⟨fun hq => ?_, hfilter e.path⟩
    obtain ⟨e', he', hsame⟩ := List.mem_map.mp hq
    exact of_decide_eq_true (List.mem_filter.mp he').2 hsame

theorem nodup_execute : ∀ (actions : List SyncAction) {entries : List ContentEntry},
    (entries.map (·.path)).Nodup → ((execute actions entries).map (·.path)).Nodup
  | [], _, h => h
  | a :: actions, _, h => nodup_execute actions (nodup_executeAction h a)

/-- A path that no action mentions is left alone. -/
theorem entryAt_execute_of_not_mem {path : List UInt8} : ∀ {actions : List SyncAction}
    (entries : List ContentEntry), path ∉ actions.map SyncAction.path →
      entryAt (execute actions entries) path = entryAt entries path
  | [], _, _ => rfl
  | a :: actions, entries, h => by
    rw [List.map_cons, List.mem_cons, not_or] at h
    have hrest := entryAt_execute_of_not_mem (executeAction entries a) h.2
    rw [entryAt_executeAction, if_neg h.1] at hrest
    exact hrest

/-- **A path mentioned once** is as its action leaves it. -/
theorem entryAt_execute_of_mem {a : SyncAction} : ∀ {actions : List SyncAction}
    (entries : List ContentEntry), (actions.map SyncAction.path).Nodup → a ∈ actions →
      entryAt (execute actions entries) a.path = a.outcome
  | a' :: actions, entries, hnodup, ha => by
    rw [List.map_cons, List.nodup_cons] at hnodup
    rcases List.mem_cons.mp ha with rfl | ha
    · have hrest := entryAt_execute_of_not_mem (executeAction entries a) hnodup.1
      rw [entryAt_executeAction, if_pos rfl] at hrest
      exact hrest
    · exact entryAt_execute_of_mem (executeAction entries a') hnodup.2 ha

/-! ### The plan -/

theorem nodup_remote (remote : GroupManifest) : (remote.entries.map (·.path)).Nodup :=
  remote.increasing.nodup_map fun _ => rfl

theorem paths_planSync (h : (localEntries.map (·.path)).Nodup) :
    (planSync localEntries remote policy).actions.map SyncAction.path =
      (remote.entries.filter (Wanted localEntries policy)).map (·.path) ++
        (localEntries.filter (Stale remote policy)).map (·.path) := by
  rw [actions_planSync h, List.map_append, List.map_map, List.map_map]
  rfl

/-- No path is mentioned twice. -/
theorem nodup_planSync (h : (localEntries.map (·.path)).Nodup) :
    ((planSync localEntries remote policy).actions.map SyncAction.path).Nodup := by
  rw [paths_planSync h, List.nodup_append]
  refine ⟨(nodup_remote remote).sublist (List.filter_sublist.map _),
    h.sublist (List.filter_sublist.map _), fun p hp q hq hpq => ?_⟩
  obtain ⟨r, hr, rfl⟩ := List.mem_map.mp hp
  obtain ⟨l, hl, rfl⟩ := List.mem_map.mp hq
  have hstale : Stale remote policy l := of_decide_eq_true (List.mem_filter.mp hl).2
  exact hstale.2 (hpq ▸ List.mem_map_of_mem (List.mem_filter.mp hr).1)

/-- **What the policy does not match** is left alone. -/
theorem untouched (h : (localEntries.map (·.path)).Nodup) {path : List UInt8}
    (hpath : policy.matchesPath path = false) :
    entryAt (execute (planSync localEntries remote policy).actions localEntries) path =
      entryAt localEntries path := by
  refine entryAt_execute_of_not_mem localEntries ?_
  rw [paths_planSync h, List.mem_append]
  rintro (hmem | hmem)
  · obtain ⟨r, hr, rfl⟩ := List.mem_map.mp hmem
    have hwanted : Wanted localEntries policy r := of_decide_eq_true (List.mem_filter.mp hr).2
    exact absurd (hpath.symm.trans hwanted.1) (by decide)
  · obtain ⟨l, hl, rfl⟩ := List.mem_map.mp hmem
    have hstale : Stale remote policy l := of_decide_eq_true (List.mem_filter.mp hl).2
    exact absurd (hpath.symm.trans hstale.1) (by decide)

theorem entryAt_eq_none_iff {path : List UInt8} :
    entryAt entries path = none ↔ path ∉ entries.map (·.path) := by
  unfold entryAt
  simp [List.find?_eq_none]

theorem hashAt_of_mem (h : (entries.map (·.path)).Nodup) {e : ContentEntry} (he : e ∈ entries) :
    hashAt entries e.path = some e.contentHash := by
  rw [hashAt, (entryAt_eq_some_iff h).mpr ⟨he, rfl⟩]
  rfl

theorem hashAt_eq_none {path : List UInt8} (h : path ∉ entries.map (·.path)) :
    hashAt entries path = none := by
  rw [hashAt, entryAt_eq_none_iff.mpr h]
  rfl

/-- A path of the manifest is as there, downloaded or not. -/
theorem synced_of_mem (h : (localEntries.map (·.path)).Nodup) {r : ContentEntry}
    (hr : r ∈ remote.entries) (hpath : policy.matchesPath r.path = true) :
    hashAt (execute (planSync localEntries remote policy).actions localEntries) r.path =
      some r.contentHash := by
  by_cases hwanted : Wanted localEntries policy r
  · have hmem : .download r ∈ (planSync localEntries remote policy).actions := by
      rw [actions_planSync h]
      exact List.mem_append_left _ (List.mem_map_of_mem (List.mem_filter.mpr ⟨hr, decide_eq_true hwanted⟩))
    have hafter := entryAt_execute_of_mem localEntries (nodup_planSync h) hmem
    exact congrArg (Option.map (·.contentHash)) hafter
  · have hnot : r.path ∉ (planSync localEntries remote policy).actions.map SyncAction.path := by
      rw [paths_planSync h, List.mem_append]
      rintro (hmem | hmem)
      · obtain ⟨r', hr', hsame⟩ := List.mem_map.mp hmem
        obtain ⟨hr', hwanted'⟩ := List.mem_filter.mp hr'
        rw [List.inj_on_of_nodup_map (nodup_remote remote) hr' hr hsame] at hwanted'
        exact hwanted (of_decide_eq_true hwanted')
      · obtain ⟨l, hl, hsame⟩ := List.mem_map.mp hmem
        have hstale : Stale remote policy l := of_decide_eq_true (List.mem_filter.mp hl).2
        exact hstale.2 (hsame ▸ List.mem_map_of_mem hr)
    have hhash : hashAt localEntries r.path = some r.contentHash :=
      not_not.mp fun hne => hwanted ⟨hpath, hne⟩
    rw [hashAt, entryAt_execute_of_not_mem localEntries hnot]
    exact hhash

/-- A path that is not in the manifest is gone. -/
theorem synced_of_not_mem (h : (localEntries.map (·.path)).Nodup) {path : List UInt8}
    (hnot : path ∉ remote.entries.map (·.path)) (hpath : policy.matchesPath path = true) :
    hashAt (execute (planSync localEntries remote policy).actions localEntries) path = none := by
  by_cases hlocal : path ∈ localEntries.map (·.path)
  · obtain ⟨l, hl, rfl⟩ := List.mem_map.mp hlocal
    have hmem : .delete l.path ∈ (planSync localEntries remote policy).actions := by
      rw [actions_planSync h]
      exact List.mem_append_right _
        (List.mem_map.mpr ⟨l, List.mem_filter.mpr ⟨hl, decide_eq_true ⟨hpath, hnot⟩⟩, rfl⟩)
    have hafter := entryAt_execute_of_mem localEntries (nodup_planSync h) hmem
    exact congrArg (Option.map (·.contentHash)) hafter
  · have hmention : path ∉ (planSync localEntries remote policy).actions.map SyncAction.path := by
      rw [paths_planSync h, List.mem_append]
      rintro (hmem | hmem)
      · exact hnot ((List.filter_sublist.map _).subset hmem)
      · exact hlocal ((List.filter_sublist.map _).subset hmem)
    rw [hashAt, entryAt_execute_of_not_mem localEntries hmention]
    exact hashAt_eq_none hlocal

/-- **What the policy matches** is as in the manifest. -/
theorem synced (h : (localEntries.map (·.path)).Nodup) {path : List UInt8}
    (hpath : policy.matchesPath path = true) :
    hashAt (execute (planSync localEntries remote policy).actions localEntries) path =
      hashAt remote.entries path := by
  by_cases hremote : path ∈ remote.entries.map (·.path)
  · obtain ⟨r, hr, rfl⟩ := List.mem_map.mp hremote
    rw [synced_of_mem h hr hpath, hashAt_of_mem (nodup_remote remote) hr]
  · rw [synced_of_not_mem h hremote hpath, hashAt_eq_none hremote]

/-- **A mirror in sync** has nothing to do. -/
theorem planSync_of_synced (h : (localEntries.map (·.path)).Nodup)
    (hsynced : ∀ path, policy.matchesPath path = true →
      hashAt localEntries path = hashAt remote.entries path) :
    (planSync localEntries remote policy).actions = [] := by
  have hwanted : remote.entries.filter (Wanted localEntries policy) = [] := by
    refine List.filter_eq_nil_iff.mpr fun r hr hdecide => ?_
    obtain ⟨hpath, hne⟩ : Wanted localEntries policy r := of_decide_eq_true hdecide
    exact hne ((hsynced r.path hpath).trans (hashAt_of_mem (nodup_remote remote) hr))
  have hstale : localEntries.filter (Stale remote policy) = [] := by
    refine List.filter_eq_nil_iff.mpr fun l hl hdecide => ?_
    obtain ⟨hpath, hnot⟩ : Stale remote policy l := of_decide_eq_true hdecide
    have hnone := (hsynced l.path hpath).trans (hashAt_eq_none hnot)
    rw [hashAt_of_mem h hl] at hnone
    cases hnone
  rw [actions_planSync h, hwanted, hstale]
  rfl

/-- **The plan**: executed, it gives the mirror what the policy matches of the manifest and changes
nothing else; a second plan, for the entries in any order, is empty; and the totals are exact. -/
theorem planSync_law (localEntries : List ContentEntry) (h : (localEntries.map (·.path)).Nodup)
    (remote : GroupManifest) (policy : ReplicationPolicy) :
    let plan := planSync localEntries remote policy
    let after := execute plan.actions localEntries
    (∀ path, policy.matchesPath path = true → hashAt after path = hashAt remote.entries path) ∧
    (∀ path, policy.matchesPath path = false → entryAt after path = entryAt localEntries path) ∧
    (planSync after remote policy).actions = [] ∧
    (∀ again, (again.map (·.path)).Nodup → (∀ path, hashAt again path = hashAt after path) →
      (planSync again remote policy).actions = []) ∧
    Exact plan := by
  refine ⟨fun path => synced h, fun path => untouched h, ?_, fun again hagain hsame => ?_,
    exact_planSync h⟩
  · exact planSync_of_synced (nodup_execute _ h) fun path => synced h
  · exact planSync_of_synced hagain fun path hpath => (hsame path).trans (synced h hpath)

/-- A file of the mirror. -/
def oldFile : ContentEntry := ⟨text "old.bin", Vector.replicate 32 0xA1, 100, none, by decide +kernel⟩

/-- The file of a manifest. -/
def newFile : ContentEntry := ⟨text "new.bin", Vector.replicate 32 0xB2, 200, none, by decide +kernel⟩

def newManifest : GroupManifest :=
  ⟨2, Vector.replicate 32 0, 0, [newFile], [], [], by decide, List.pairwise_singleton _ _⟩

theorem planSync_law_two_files :
    (planSync [oldFile] newManifest .full).actions = [.download newFile, .delete oldFile.path] ∧
    hashAt (execute (planSync [oldFile] newManifest .full).actions [oldFile]) newFile.path =
      some newFile.contentHash :=
  ⟨by decide +kernel, (planSync_law [oldFile] (List.nodup_singleton _) newManifest .full).1
    newFile.path rfl⟩

end CncContent.Manifest.Catalog
