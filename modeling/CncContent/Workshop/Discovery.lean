import CncContent.Lib.Decimal
import CncContent.Workshop.Validator
import Mathlib.Data.List.Sort

/-! # Update discovery

`FailoverDiscovery` of the source asks its sources in order. The first answer that is not an error is
the answer, also if it says that the source does not know the resource. So a source that knows it is
hidden by one in front of it that does not (`latest_finds_iff`). -/

namespace CncContent.Workshop.Discovery

open CncContent.Lib.Bytes CncContent.Lib.Decimal
open CncContent.Workshop.Resource CncContent.Workshop.Announcement CncContent.Workshop.Validator

/-- The errors that discovery makes itself; an error of a source is known by its text. -/
inductive DiscoveryError
  | index (detail : List UInt8)
  | allSourcesFailed (count : ℕ) (lastError : List UInt8)
  | ofSource (text : List UInt8)
deriving DecidableEq

/-- `Display` of an error. -/
def DiscoveryError.display : DiscoveryError → List UInt8
  | .index detail => text "index error: " ++ detail
  | .allSourcesFailed count lastError =>
    text "all " ++ (printNat count ++ (text " index sources failed; last error: " ++ lastError))
  | .ofSource text => text

/-- A source, which answers with an error, with nothing known, or with what it knows. -/
structure UpdateDiscovery where
  latest : ResourceId → Except DiscoveryError (Option VersionAnnouncement)
  allVersions : ResourceId → Except DiscoveryError (List VersionAnnouncement)

/-- `MemoryDiscovery`. Of the announcements with the highest sequence the last one is the latest. -/
def memoryDiscovery (announcements : List VersionAnnouncement) : UpdateDiscovery where
  latest resource := .ok <| (announcements.filter fun a => a.resource = resource).foldl
    (fun best a => match best with
      | none => some a
      | some b => if b.sequence ≤ a.sequence then some a else some b) none
  allVersions resource := .ok <| (announcements.filter fun a => a.resource = resource).insertionSort
    fun a b => a.sequence ≤ b.sequence

/-- The loop over the sources, which keeps the last error. -/
def failover {α : Type} (query : UpdateDiscovery → Except DiscoveryError α) (count : ℕ) :
    Option DiscoveryError → List UpdateDiscovery → Except DiscoveryError α
  | lastError, [] => .error (.allSourcesFailed count ((lastError.map DiscoveryError.display).getD []))
  | _, source :: sources =>
    match query source with
    | .ok result => .ok result
    | .error e => failover query count (some e) sources

structure FailoverDiscovery where
  sources : List UpdateDiscovery
  nonempty : sources ≠ []

namespace FailoverDiscovery

def new (sources : List UpdateDiscovery) : Except DiscoveryError FailoverDiscovery :=
  if h : sources = [] then
    .error (.index (text "FailoverDiscovery requires at least one source"))
  else .ok ⟨sources, h⟩

variable (d : FailoverDiscovery)

def latest (resource : ResourceId) : Except DiscoveryError (Option VersionAnnouncement) :=
  failover (fun source => source.latest resource) d.sources.length none d.sources

def allVersions (resource : ResourceId) : Except DiscoveryError (List VersionAnnouncement) :=
  failover (fun source => source.allVersions resource) d.sources.length none d.sources

end FailoverDiscovery

/-! ### The answer of the sources -/

section Failover

variable {α : Type} {query : UpdateDiscovery → Except DiscoveryError α} {count : ℕ}

/-- **The first answer that is not an error** is the answer. -/
theorem failover_append {source : UpdateDiscovery} {result : α} (h : query source = .ok result)
    (after : List UpdateDiscovery) : ∀ (before : List UpdateDiscovery) (lastError : Option DiscoveryError),
    (∀ b ∈ before, ∃ e, query b = .error e) →
      failover query count lastError (before ++ source :: after) = .ok result
  | [], _, _ => by
    rw [List.nil_append, failover, h]
  | b :: before, lastError, hfail => by
    obtain ⟨⟨e, he⟩, hrest⟩ := List.forall_mem_cons.mp hfail
    rw [List.cons_append, failover, he]
    exact failover_append h after before (some e) hrest

/-- **If all sources fail** the error has their number and the last error's text. -/
theorem failover_of_forall_error : ∀ {sources : List UpdateDiscovery} {e : DiscoveryError}
    {source : UpdateDiscovery} (lastError : Option DiscoveryError),
    (∀ b ∈ sources, ∃ e, query b = .error e) → query source = .error e →
      failover query count lastError (sources ++ [source]) =
        .error (.allSourcesFailed count e.display)
  | [], e, source, _, _, he => by
    rw [List.nil_append, failover, he]
    rfl
  | b :: sources, e, source, _, hfail, he => by
    obtain ⟨⟨e', he'⟩, hrest⟩ := List.forall_mem_cons.mp hfail
    rw [List.cons_append, failover, he']
    exact failover_of_forall_error (some e') hrest he

end Failover

/-! ### Whether a resource is found -/

section Latest

variable {resource : ResourceId}

/-- The source knows the resource. -/
def Knows (source : UpdateDiscovery) (resource : ResourceId) : Prop :=
  ∃ a, source.latest resource = .ok (some a)

/-- In front of the first source that knows the resource, none answers that it does not know it. -/
def Unhidden (sources : List UpdateDiscovery) (resource : ResourceId) : Prop :=
  ∀ before source after, sources = before ++ source :: after → Knows source resource →
    (∀ b ∈ before, ¬ Knows b resource) → ∀ b ∈ before, b.latest resource ≠ .ok none

theorem exists_first_knows : ∀ {sources : List UpdateDiscovery}, (∃ s ∈ sources, Knows s resource) →
    ∃ before source after, sources = before ++ source :: after ∧ Knows source resource ∧
      ∀ b ∈ before, ¬ Knows b resource
  | [], h => by
    obtain ⟨s, hs, -⟩ := h
    cases hs
  | s :: sources, h => by
    by_cases hknows : Knows s resource
    · exact ⟨[], s, sources, rfl, hknows, fun b hb => by cases hb⟩
    · obtain ⟨t, ht, htk⟩ := h
      have htail : t ∈ sources := (List.mem_cons.mp ht).resolve_left fun he => hknows (he ▸ htk)
      obtain ⟨before, source, after, rfl, hsource, hbefore⟩ := exists_first_knows ⟨t, htail, htk⟩
      exact ⟨s :: before, source, after, rfl, hsource, List.forall_mem_cons.mpr ⟨hknows, hbefore⟩⟩

/-- Behind a source that answers nothing known is asked. -/
theorem failover_of_unknown : ∀ {before : List UpdateDiscovery} (after : List UpdateDiscovery)
    (count : ℕ) (lastError : Option DiscoveryError), (∀ b ∈ before, ¬ Knows b resource) →
      (∃ b ∈ before, b.latest resource = .ok none) →
      failover (fun s => s.latest resource) count lastError (before ++ after) = .ok none
  | [], _, _, _, _, h => by
    obtain ⟨b, hb, -⟩ := h
    cases hb
  | s :: before, after, count, lastError, hnot, h => by
    obtain ⟨hs, hrest⟩ := List.forall_mem_cons.mp hnot
    rw [List.cons_append, failover]
    rcases hanswer : s.latest resource with e | (_ | a)
    · obtain ⟨b, hb, hnone⟩ := h
      have hne : b ≠ s := by
        rintro rfl
        rw [hanswer] at hnone
        cases hnone
      exact failover_of_unknown after count (some e) hrest
        ⟨b, (List.mem_cons.mp hb).resolve_left hne, hnone⟩
    · rfl
    · exact absurd ⟨a, hanswer⟩ hs

end Latest

/-- **When a resource that some source knows is found**: if in front of the first source that knows
it none answers that it does not. -/
theorem latest_finds_iff (d : FailoverDiscovery) (resource : ResourceId) :
    ((∃ s ∈ d.sources, Knows s resource) → ∃ a, d.latest resource = .ok (some a)) ↔
      Unhidden d.sources resource := by
  constructor
  · intro h before source after hsplit hknows hbefore b hb hnone
    obtain ⟨a, ha⟩ := h ⟨source, by rw [hsplit]; simp, hknows⟩
    unfold FailoverDiscovery.latest at ha
    rw [hsplit, failover_of_unknown _ _ _ hbefore ⟨b, hb, hnone⟩] at ha
    cases ha
  · intro h hsome
    obtain ⟨before, source, after, hsplit, ⟨a, ha⟩, hbefore⟩ := exists_first_knows hsome
    have hunhidden := h before source after hsplit ⟨a, ha⟩ hbefore
    refine ⟨a, ?_⟩
    unfold FailoverDiscovery.latest
    rw [hsplit]
    refine failover_append ha after before none fun b hb => ?_
    rcases hanswer : b.latest resource with e | (_ | a')
    · exact ⟨e, rfl⟩
    · exact absurd hanswer (hunhidden b hb)
    · exact absurd ⟨a', hanswer⟩ (hbefore b hb)

/-- An empty source in front of one with an announcement. -/
def coldStart : FailoverDiscovery where
  sources := [memoryDiscovery [], memoryDiscovery [testAnnouncement 5]]
  nonempty := List.cons_ne_nil _ _

theorem cold_start_hides : (∃ s ∈ coldStart.sources, Knows s (testAnnouncement 5).resource) ∧
    ¬ ∃ a, coldStart.latest (testAnnouncement 5).resource = .ok (some a) := by
  constructor
  · refine ⟨memoryDiscovery [testAnnouncement 5], List.mem_cons_of_mem _ List.mem_cons_self,
      testAnnouncement 5, ?_⟩
    have hfilter : [testAnnouncement 5].filter (fun a => a.resource = (testAnnouncement 5).resource) =
        [testAnnouncement 5] := by simp
    unfold memoryDiscovery
    dsimp only
    rw [hfilter]
    rfl
  · rintro ⟨a, ha⟩
    cases ha

end CncContent.Workshop.Discovery
