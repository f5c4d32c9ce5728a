import CncContent.Lib.Bytes
import CncContent.Lib.Maps
import CncContent.Lib.Outlasting
import CncContent.Lib.Runs
import Mathlib.Logic.Relation

/-! # The cache of pre-signed URLs

`UrlPexCache` of the source: for every piece the URLs that peers have shared, each with the time it was
received at. A full list loses the URL that expires first before a new one is added, whatever the new one is
worth. So a URL that is lost before it expires is outlasted by all that remain, and no later call changes
that (`Reaches.loses`): a flood of short-lived URLs takes the place of one URL (`Reaches.stays_one_of`).
Times are in whole seconds. -/

namespace CncContent.Cache.UrlPex

open CncContent.Lib.Bytes CncContent.Lib.Maps CncContent.Lib.Outlasting CncContent.Lib.Runs

def maxUrlLength : ℕ := 2048
def maxUrlsPerPiece : ℕ := 8

structure UrlPexEntry where
  pieceIndex : UInt32
  url : List UInt8
  expiresSecs : ℕ
  expectedSha1 : List UInt8
deriving DecidableEq, Repr

/-- `is_ascii_hexdigit`. -/
def isAsciiHexdigit (b : UInt8) : Bool :=
  within (byte '0') (byte '9') b || within (byte 'a') (byte 'f') b || within (byte 'A') (byte 'F') b

namespace UrlPexEntry

variable (e : UrlPexEntry)

def isOversized : Bool := maxUrlLength < e.url.length

def hasValidSha1 : Bool := e.expectedSha1.length == 40 && e.expectedSha1.all isAsciiHexdigit

end UrlPexEntry

structure CachedUrl where
  entry : UrlPexEntry
  received : ℕ
deriving DecidableEq, Repr

namespace CachedUrl

variable (c : CachedUrl)

def isExpired (now : ℕ) : Bool := c.entry.expiresSecs ≤ now - c.received

def remainingTtl (now : ℕ) : ℕ := c.entry.expiresSecs - (now - c.received)

/-- When the time to live runs out. -/
def expiry : ℕ := c.received + c.entry.expiresSecs

end CachedUrl

structure UrlPexCache where
  entries : Table UInt32 (List CachedUrl)
deriving DecidableEq

/-- The URLs of a piece that have not expired. -/
def live (now : ℕ) (urls : List CachedUrl) : List CachedUrl := urls.filter fun c => !c.isExpired now

/-- Room for one more URL. -/
def makeRoom (now : ℕ) (urls : List CachedUrl) : List CachedUrl :=
  if maxUrlsPerPiece ≤ urls.length then
    match minIdx (fun c : CachedUrl => c.remainingTtl now) urls with
    | some minIdx => swapRemove urls minIdx
    | none => urls
  else urls

/-- What `insert` does to the URLs of the piece. -/
def insertUrl (entry : UrlPexEntry) (now : ℕ) (urls : List CachedUrl) : List CachedUrl :=
  if (live now urls).any fun c => c.entry.url == entry.url then live now urls
  else makeRoom now (live now urls) ++ [⟨entry, now⟩]

namespace UrlPexCache

def new : UrlPexCache := ⟨.empty⟩

variable (cache : UrlPexCache)

/-- The URLs that are kept for the piece. -/
def urls (pieceIndex : UInt32) : List CachedUrl := (cache.entries.get? pieceIndex).getD []

def insert (entry : UrlPexEntry) (now : ℕ) : UrlPexCache :=
  ⟨cache.entries.alter entry.pieceIndex fun urls => insertUrl entry now (urls.getD [])⟩

def urlsForPiece (pieceIndex : UInt32) (now : ℕ) : List UrlPexEntry :=
  (live now (cache.urls pieceIndex)).map (·.entry)

def evictExpired (now : ℕ) : UrlPexCache :=
  ⟨(cache.entries.mapValues (live now)).retain fun _ urls => !urls.isEmpty⟩

end UrlPexCache

/-! ### Calls -/

/-- The entries of a message, each with the time at which it is looked at. -/
inductive Call
  | insert (entry : UrlPexEntry) (now : ℕ)
  | processMessage (entries : List (UrlPexEntry × ℕ))
  | evictExpired (now : ℕ)
deriving DecidableEq, Repr

/-- A cache at the time of its last call. -/
structure Timed where
  cache : UrlPexCache
  clock : ℕ
deriving DecidableEq

namespace Timed

def start : Timed := ⟨.new, 0⟩

variable (s : Timed)

def urls (pieceIndex : UInt32) : List CachedUrl := s.cache.urls pieceIndex

/-- Time does not go back. -/
def insert (e : UrlPexEntry × ℕ) : Option Timed :=
  if s.clock ≤ e.2 then some ⟨s.cache.insert e.1 e.2, e.2⟩ else none

def evictExpired (now : ℕ) : Option Timed :=
  if s.clock ≤ now then some ⟨s.cache.evictExpired now, now⟩ else none

/-- The entries of a message that are taken in. -/
def valid (entries : List (UrlPexEntry × ℕ)) : List (UrlPexEntry × ℕ) :=
  entries.filter fun e => !e.1.isOversized && e.1.hasValidSha1

/-- `process_message`: the valid entries are inserted one after the other. -/
def processMessage (entries : List (UrlPexEntry × ℕ)) : Option Timed := run insert s (valid entries)

def step : Call → Option Timed
  | .insert entry now => s.insert (entry, now)
  | .processMessage entries => s.processMessage entries
  | .evictExpired now => s.evictExpired now

end Timed

/-! ### The URLs of a piece -/

section Urls

variable {now clock : ℕ} {urls : List CachedUrl} {entry : UrlPexEntry} {i : UInt32} {c : CachedUrl}

/-- The URLs that are kept for a piece. -/
structure Kept (i : UInt32) (clock : ℕ) (urls : List CachedUrl) : Prop where
  length_le : urls.length ≤ maxUrlsPerPiece
  distinct : (urls.map fun c => c.entry.url).Nodup
  piece : ∀ c ∈ urls, c.entry.pieceIndex = i
  received_le : ∀ c ∈ urls, c.received ≤ clock

theorem isExpired_iff (h : c.received ≤ now) : c.isExpired now = true ↔ c.expiry ≤ now := by
  unfold CachedUrl.isExpired CachedUrl.expiry
  rw [decide_eq_true_eq]
  omega

theorem mem_live (h : c.received ≤ now) : c ∈ live now urls ↔ c ∈ urls ∧ now < c.expiry := by
  unfold live
  rw [List.mem_filter, Bool.not_eq_true', ← Bool.not_eq_true, isExpired_iff h, not_le]

theorem Kept.mono (h : Kept i clock urls) (hle : clock ≤ now) : Kept i now urls :=
  ⟨h.length_le, h.distinct, h.piece, fun c hc => (h.received_le c hc).trans hle⟩

theorem Kept.sublist {l : List CachedUrl} (h : Kept i clock urls) (hs : l.Sublist urls) :
    Kept i clock l :=
  ⟨hs.length_le.trans h.length_le, h.distinct.sublist (hs.map _), fun c hc => h.piece c (hs.subset hc),
    fun c hc => h.received_le c (hs.subset hc)⟩

theorem Kept.live (h : Kept i now urls) : Kept i now (live now urls) := h.sublist List.filter_sublist

/-- **Making room** takes out the URL that expires first, if there are too many. -/
theorem makeRoom_cases (h : ∀ c ∈ urls, c.received ≤ now ∧ now < c.expiry) :
    urls.length < maxUrlsPerPiece ∧ makeRoom now urls = urls ∨
      maxUrlsPerPiece ≤ urls.length ∧ ∃ v, urls.Perm (v :: makeRoom now urls) ∧
        ∀ c ∈ urls, v.expiry ≤ c.expiry := by
  unfold makeRoom
  split_ifs with hfull
  · refine Or.inr ⟨hfull, ?_⟩
    rcases hmin : minIdx (fun c : CachedUrl => c.remainingTtl now) urls with _ | j
    · rw [minIdx_eq_none.mp hmin] at hfull
      exact absurd hfull (by decide)
    · obtain ⟨v, hv, hleast⟩ := minIdx_spec hmin
      refine ⟨v, perm_swapRemove hv, fun c hc => ?_⟩
      have hle := hleast c hc
      obtain ⟨hc1, hc2⟩ := h c hc
      obtain ⟨hv1, hv2⟩ := h v (List.mem_of_getElem? hv)
      unfold CachedUrl.remainingTtl at hle
      unfold CachedUrl.expiry at hc2 hv2 ⊢
      omega
  · exact Or.inl ⟨Nat.lt_of_not_le hfull, rfl⟩

theorem live_spec (h : Kept i now urls) : ∀ c ∈ live now urls, c.received ≤ now ∧ now < c.expiry :=
  fun c hc =>
    have hr := h.received_le c (List.mem_filter.mp hc).1
    ⟨hr, ((mem_live hr).mp hc).2⟩

/-- Room is made for one. -/
theorem length_makeRoom_lt (h : Kept i now urls) :
    (makeRoom now (live now urls)).length < maxUrlsPerPiece := by
  rcases makeRoom_cases (live_spec h) with ⟨hlt, hsame⟩ | ⟨-, v, hperm, -⟩
  · rw [hsame]
    exact hlt
  · have hlen := hperm.length_eq
    have hle := h.live.length_le
    rw [List.length_cons] at hlen
    omega

theorem mem_of_mem_makeRoom (h : Kept i now urls) (hc : c ∈ makeRoom now (live now urls)) :
    c ∈ live now urls := by
  rcases makeRoom_cases (live_spec h) with ⟨-, hsame⟩ | ⟨-, v, hperm, -⟩
  · rwa [hsame] at hc
  · exact hperm.mem_iff.mpr (List.mem_cons_of_mem v hc)

theorem kept_insertUrl (h : Kept i now urls) (hi : entry.pieceIndex = i) :
    Kept i now (insertUrl entry now urls) := by
  unfold insertUrl
  split_ifs with hdup
  · exact h.live
  · have hmem : ∀ c ∈ makeRoom now (live now urls), c ∈ live now urls :=
      fun c hc => mem_of_mem_makeRoom h hc
    have hnew : ∀ c ∈ makeRoom now (live now urls) ++ [⟨entry, now⟩],
        c ∈ live now urls ∨ c = ⟨entry, now⟩ := fun c hc =>
      (List.mem_append.mp hc).imp (hmem c) List.mem_singleton.mp
    have hdistinct : ((makeRoom now (live now urls)).map fun c => c.entry.url).Nodup := by
      rcases makeRoom_cases (live_spec h) with ⟨-, hsame⟩ | ⟨-, v, hperm, -⟩
      · rw [hsame]
        exact h.live.distinct
      · exact (List.nodup_cons.mp ((hperm.map _).nodup_iff.mp h.live.distinct)).2
    refine ⟨?_, ?_, fun c hc => ?_, fun c hc => ?_⟩
    · rw [List.length_append]
      exact length_makeRoom_lt h
    · rw [List.map_append, List.nodup_append]
      refine ⟨hdistinct, List.nodup_singleton _, fun url hurl url' hurl' heq => hdup ?_⟩
      obtain ⟨c, hc, rfl⟩ := List.mem_map.mp hurl
      rw [List.map_singleton, List.mem_singleton] at hurl'
      exact List.any_eq_true.mpr ⟨c, hmem c hc, beq_iff_eq.mpr (heq.trans hurl')⟩
    · rcases hnew c hc with hc | rfl
      · exact h.live.piece c hc
      · exact hi
    · rcases hnew c hc with hc | rfl
      · exact h.live.received_le c hc
      · exact Nat.le_refl now

/-- The expired URLs do not count. -/
theorem outlasting_live (h : Kept i now urls) {k : ℕ} (hk : now < k) :
    outlasting CachedUrl.expiry k (live now urls) = outlasting CachedUrl.expiry k urls := by
  refine outlasting_filter fun c hc hle => ?_
  exact (List.mem_filter.mp ((mem_live (h.received_le c hc)).mpr ⟨hc, Nat.lt_of_lt_of_le hk hle⟩)).2

/-- **An insertion** leaves as many URLs that outlast a later time as there were, or all but one. -/
theorem min_le_outlasting_insertUrl (h : Kept i now urls) {k : ℕ} (hk : now < k) :
    min (maxUrlsPerPiece - 1) (outlasting CachedUrl.expiry k urls) ≤
      outlasting CachedUrl.expiry k (insertUrl entry now urls) := by
  rw [← outlasting_live h hk]
  unfold insertUrl
  split_ifs
  · exact Nat.min_le_right _ _
  · refine Nat.le_trans ?_ (outlasting_le_append k _ _)
    rcases makeRoom_cases (live_spec h) with ⟨-, hsame⟩ | ⟨hfull, v, hperm, hleast⟩
    · rw [hsame]
      exact Nat.min_le_right _ _
    · have hlt : maxUrlsPerPiece - 1 < (live now urls).length :=
        Nat.lt_of_lt_of_le (by decide) hfull
      exact min_le_outlasting_of_least hperm hleast hlt k

/-- What an insertion loses has expired, or is outlasted by all but one. -/
theorem insertUrl_loses (h : Kept i now urls) (hc : c ∈ urls) (hlost : c ∉ insertUrl entry now urls)
    (hlive : now < c.expiry) :
    maxUrlsPerPiece - 1 ≤ outlasting CachedUrl.expiry c.expiry (insertUrl entry now urls) := by
  have hmem : c ∈ live now urls := (mem_live (h.received_le c hc)).mpr ⟨hc, hlive⟩
  unfold insertUrl at hlost ⊢
  split_ifs at hlost ⊢ with hdup
  · exact absurd hmem hlost
  · have hgone : c ∉ makeRoom now (live now urls) := fun hr => hlost (List.mem_append_left _ hr)
    refine Nat.le_trans ?_ (outlasting_le_append _ _ _)
    rcases makeRoom_cases (live_spec h) with ⟨-, hsame⟩ | ⟨hfull, v, hperm, hleast⟩
    · rw [hsame] at hgone
      exact absurd hmem hgone
    · obtain rfl : c = v := (List.mem_cons.mp (hperm.mem_iff.mp hmem)).resolve_right hgone
      exact le_outlasting_of_least hperm hleast (Nat.lt_of_lt_of_le (by decide) hfull)

end Urls

/-! ### Steps -/

/-- The entries that a call inserts, with their times. -/
def Call.inserted : Call → List (UrlPexEntry × ℕ)
  | .insert entry now => [(entry, now)]
  | .processMessage entries => Timed.valid entries
  | .evictExpired _ => []

/-- What one insertion or eviction does to the URLs of the pieces; what is inserted has the property. -/
structure Atomic (P : UrlPexEntry × ℕ → Prop) (s t : Timed) : Prop where
  clock_le : s.clock ≤ t.clock
  urls : ∀ i, t.urls i = s.urls i ∨ t.urls i = live t.clock (s.urls i) ∨
    ∃ entry, P (entry, t.clock) ∧ entry.pieceIndex = i ∧ t.urls i = insertUrl entry t.clock (s.urls i)

/-- One after the other. -/
def Reaches (P : UrlPexEntry × ℕ → Prop) : Timed → Timed → Prop := Relation.ReflTransGen (Atomic P)

section Steps

variable {P : UrlPexEntry × ℕ → Prop} {s t u : Timed} {i : UInt32} {c : CachedUrl}

theorem atomic_insert {e : UrlPexEntry × ℕ} (hP : P e) (h : s.insert e = some t) : Atomic P s t := by
  unfold Timed.insert at h
  split_ifs at h with hle
  cases h
  refine ⟨hle, fun i => ?_⟩
  have hget : (s.cache.insert e.1 e.2).urls i =
      if i = e.1.pieceIndex then insertUrl e.1 e.2 (s.urls e.1.pieceIndex) else s.urls i := by
    unfold UrlPexCache.insert UrlPexCache.urls
    rw [Table.get?_alter]
    split_ifs <;> rfl
  by_cases hi : i = e.1.pieceIndex
  · rw [if_pos hi] at hget
    subst hi
    exact Or.inr (Or.inr ⟨e.1, hP, rfl, hget⟩)
  · rw [if_neg hi] at hget
    exact Or.inl hget

theorem atomic_evictExpired {now : ℕ} (h : s.evictExpired now = some t) : Atomic P s t := by
  unfold Timed.evictExpired at h
  split_ifs at h with hle
  cases h
  refine ⟨hle, fun i => Or.inr (Or.inl ?_)⟩
  show (((s.cache.entries.mapValues (live now)).retain _).get? i).getD [] = _
  rw [Table.get?_retain, Table.get?_mapValues]
  show _ = live now ((s.cache.entries.get? i).getD [])
  rcases s.cache.entries.get? i with _ | urls
  · rfl
  · rw [Option.map_some, Option.filter_some, Option.getD_some]
    cases hurls : live now urls with
    | nil => rfl
    | cons c l => rfl

theorem reaches_inserts : ∀ {es : List (UrlPexEntry × ℕ)} {s : Timed}, (∀ e ∈ es, P e) →
    run Timed.insert s es = some t → Reaches P s t
  | [], s, _, h => by
    cases h
    exact .refl
  | e :: es, s, hP, h => by
    obtain ⟨s', hs', hrun⟩ := run_cons_some h
    obtain ⟨he, hes⟩ := List.forall_mem_cons.mp hP
    exact .head (atomic_insert he hs') (reaches_inserts hes hrun)

theorem reaches_step {call : Call} (hP : ∀ e ∈ call.inserted, P e) (h : s.step call = some t) :
    Reaches P s t := by
  cases call with
  | insert entry now => exact .single (atomic_insert (hP _ List.mem_cons_self) h)
  | processMessage entries => exact reaches_inserts hP h
  | evictExpired now => exact .single (atomic_evictExpired h)

theorem reaches_run : ∀ {calls : List Call} {s : Timed}, (∀ call ∈ calls, ∀ e ∈ call.inserted, P e) →
    run Timed.step s calls = some t → Reaches P s t
  | [], s, _, h => by
    cases h
    exact .refl
  | call :: calls, s, hP, h => by
    obtain ⟨s', hs', hrun⟩ := run_cons_some h
    obtain ⟨hcall, hcalls⟩ := List.forall_mem_cons.mp hP
    exact (reaches_step hcall hs').trans (reaches_run hcalls hrun)

/-! ### What is kept -/

/-- The invariant of a run. -/
def Inv (s : Timed) : Prop := ∀ i, Kept i s.clock (s.urls i)

theorem inv_start : Inv .start := fun _ => ⟨Nat.zero_le _, List.nodup_nil, nofun, nofun⟩

theorem Atomic.inv (h : Atomic P s t) (hs : Inv s) : Inv t := by
  intro i
  have hkept := (hs i).mono h.clock_le
  rcases h.urls i with hi | hi | ⟨entry, -, hentry, hi⟩
  · rw [hi]
    exact hkept
  · rw [hi]
    exact hkept.live
  · rw [hi]
    exact kept_insertUrl hkept hentry

theorem Reaches.inv (h : Reaches P s t) (hs : Inv s) : Inv t := by
  induction h with
  | refl => exact hs
  | tail _ hstep ih => exact hstep.inv ih

theorem Reaches.clock_le (h : Reaches P s t) : s.clock ≤ t.clock := by
  induction h with
  | refl => exact Nat.le_refl _
  | tail _ hstep ih => exact ih.trans hstep.clock_le

/-- **As many URLs outlast a later time** as before, or all but one. -/
theorem Atomic.min_le_outlasting (h : Atomic P s t) (hs : Inv s) {k : ℕ} (hk : t.clock < k) :
    min (maxUrlsPerPiece - 1) (outlasting CachedUrl.expiry k (s.urls i)) ≤
      outlasting CachedUrl.expiry k (t.urls i) := by
  have hkept := (hs i).mono h.clock_le
  rcases h.urls i with hi | hi | ⟨entry, -, -, hi⟩
  · rw [hi]
    exact Nat.min_le_right _ _
  · rw [hi, outlasting_live hkept hk]
    exact Nat.min_le_right _ _
  · rw [hi]
    exact min_le_outlasting_insertUrl hkept hk

theorem Reaches.min_le_outlasting (h : Reaches P s t) (hs : Inv s) {k : ℕ} (hk : t.clock < k) :
    min (maxUrlsPerPiece - 1) (outlasting CachedUrl.expiry k (s.urls i)) ≤
      outlasting CachedUrl.expiry k (t.urls i) := by
  induction h with
  | refl => exact Nat.min_le_right _ _
  | tail hreach hstep ih =>
    have hlater := ih (Nat.lt_of_le_of_lt hstep.clock_le hk)
    have hlast := hstep.min_le_outlasting (i := i) (Reaches.inv hreach hs) hk
    omega

theorem Atomic.loses (h : Atomic P s t) (hs : Inv s) (hc : c ∈ s.urls i) (hlost : c ∉ t.urls i)
    (hlive : t.clock < c.expiry) :
    maxUrlsPerPiece - 1 ≤ outlasting CachedUrl.expiry c.expiry (t.urls i) := by
  have hkept := (hs i).mono h.clock_le
  rcases h.urls i with hi | hi | ⟨entry, -, -, hi⟩
  · rw [hi] at hlost
    exact absurd hc hlost
  · rw [hi] at hlost
    exact absurd ((mem_live (hkept.received_le c hc)).mpr ⟨hc, hlive⟩) hlost
  · rw [hi] at hlost ⊢
    exact insertUrl_loses hkept hc hlost hlive

/-- **A URL that is lost before it expires** is outlasted by all but one of those that there is room for. -/
theorem Reaches.loses (h : Reaches P s t) (hs : Inv s) (hc : c ∈ s.urls i) (hlost : c ∉ t.urls i)
    (hlive : t.clock < c.expiry) :
    maxUrlsPerPiece - 1 ≤ outlasting CachedUrl.expiry c.expiry (t.urls i) := by
  induction h with
  | refl => exact absurd hc hlost
  | @tail s' t' hreach hstep ih =>
    by_cases hs' : c ∈ s'.urls i
    · exact hstep.loses (Reaches.inv hreach hs) hs' hlost hlive
    · -- it was lost before, and the step leaves as many
      have hbefore := ih hs' (Nat.lt_of_le_of_lt hstep.clock_le hlive)
      have hlast := hstep.min_le_outlasting (i := i) (Reaches.inv hreach hs) hlive
      omega

theorem Atomic.mem (h : Atomic P s t) (hs : Inv s) (hc : c ∈ t.urls i) :
    c ∈ s.urls i ∨ P (c.entry, c.received) := by
  have hkept := (hs i).mono h.clock_le
  rcases h.urls i with hi | hi | ⟨entry, hP, -, hi⟩
  · exact Or.inl (hi ▸ hc)
  · rw [hi] at hc
    exact Or.inl (List.mem_filter.mp hc).1
  · rw [hi] at hc
    unfold insertUrl at hc
    split_ifs at hc
    · exact Or.inl (List.mem_filter.mp hc).1
    · rcases List.mem_append.mp hc with hc | hc
      · exact Or.inl (List.mem_filter.mp (mem_of_mem_makeRoom hkept hc)).1
      · rw [List.mem_singleton.mp hc]
        exact Or.inr hP

/-- What is kept was there before, or has been inserted. -/
theorem Reaches.mem (h : Reaches P s t) (hs : Inv s) (hc : c ∈ t.urls i) :
    c ∈ s.urls i ∨ P (c.entry, c.received) := by
  induction h with
  | refl => exact Or.inl hc
  | tail hreach hstep ih =>
    rcases hstep.mem (Reaches.inv hreach hs) hc with hc | hP
    · exact ih hc
    · exact Or.inr hP

/-- **A flood of URLs that expire before a cached one** does not take the place of another one besides it. -/
theorem Reaches.stays_one_of {c' : CachedUrl}
    (h : Reaches (fun e => e.2 + e.1.expiresSecs < c.expiry) s t) (hs : Inv s) (hne : c ≠ c')
    (hc : c ∈ s.urls i) (hc' : c' ∈ s.urls i) (hlive : t.clock < c.expiry) :
    c ∈ t.urls i ∨ c' ∈ t.urls i := by
  by_contra hlost
  obtain ⟨hlost, hlost'⟩ := not_or.mp hlost
  -- those that outlast `c` have all been there before, next to the two
  have hmany := h.loses hs hc hlost hlive
  let later := (t.urls i).filter fun x => decide (c.expiry ≤ x.expiry)
  have hlen : outlasting CachedUrl.expiry c.expiry (t.urls i) = later.length :=
    List.countP_eq_length_filter
  have hnodup : (c :: c' :: later).Nodup := by
    have hdistinct := List.Nodup.of_map _ (h.inv hs i).distinct
    refine List.nodup_cons.mpr ⟨?_, List.nodup_cons.mpr ⟨?_, hdistinct.filter _⟩⟩
    · rw [List.mem_cons, not_or]
      exact ⟨hne, fun hmem => hlost (List.mem_filter.mp hmem).1⟩
    · exact fun hmem => hlost' (List.mem_filter.mp hmem).1
  have hsub : c :: c' :: later ⊆ s.urls i := by
    refine List.cons_subset.mpr ⟨hc, List.cons_subset.mpr ⟨hc', fun x hx => ?_⟩⟩
    obtain ⟨hx, hlater⟩ := List.mem_filter.mp hx
    exact (h.mem hs hx).resolve_right (Nat.not_lt.mpr (of_decide_eq_true hlater))
  have hcount := (List.subperm_of_subset hnodup hsub).length_le
  have hroom := (hs i).length_le
  rw [List.length_cons, List.length_cons, ← hlen] at hcount
  unfold maxUrlsPerPiece at hroom hmany
  omega

end Steps

/-! ### Runs -/

/-- A URL that is lost before its expiry is outlasted by seven others until then. -/
def Outlasted (s : Timed) : Prop :=
  ∀ i, ∀ c ∈ s.urls i, ∀ calls t, run Timed.step s calls = some t → c ∉ t.urls i →
    ∀ calls' u, run Timed.step t calls' = some u → u.clock < c.expiry →
      maxUrlsPerPiece - 1 ≤ outlasting CachedUrl.expiry c.expiry (u.urls i)

/-- URLs that expire before a cached one push out no other one besides it. -/
def FloodProof (s : Timed) : Prop :=
  ∀ i, ∀ c ∈ s.urls i, ∀ c' ∈ s.urls i, c ≠ c' → ∀ flood t, run Timed.step s flood = some t →
    (∀ call ∈ flood, ∀ e ∈ call.inserted, e.2 + e.1.expiresSecs < c.expiry) → t.clock < c.expiry →
      c ∈ t.urls i ∨ c' ∈ t.urls i

/-- **What the cache promises.** -/
structure Sound (s : Timed) : Prop where
  bounded : ∀ i, (s.urls i).length ≤ maxUrlsPerPiece
  distinct : ∀ i, ((s.urls i).map fun c => c.entry.url).Nodup
  live : ∀ i now, s.clock ≤ now → ∀ e ∈ s.cache.urlsForPiece i now,
    ∃ c ∈ s.urls i, c.entry = e ∧ now < c.expiry
  outlasted : Outlasted s
  floodProof : FloodProof s

theorem sound_of_inv {s : Timed} (hs : Inv s) : Sound s where
  bounded i := (hs i).length_le
  distinct i := (hs i).distinct
  live i now hnow e he := by
    obtain ⟨c, hc, rfl⟩ := List.mem_map.mp he
    have hmem := (List.mem_filter.mp hc).1
    exact ⟨c, hmem, rfl, ((mem_live (((hs i).received_le c hmem).trans hnow)).mp hc).2⟩
  outlasted i c hc calls t ht hlost calls' u hu hlive := by
    have hreach : Reaches (fun _ => True) s t := reaches_run (fun _ _ _ _ => trivial) ht
    have hreach' : Reaches (fun _ => True) t u := reaches_run (fun _ _ _ _ => trivial) hu
    have hmany := hreach.loses hs hc hlost (Nat.lt_of_le_of_lt hreach'.clock_le hlive)
    have hstay := hreach'.min_le_outlasting (i := i) (hreach.inv hs) hlive
    omega
  floodProof i c hc c' hc' hne flood t ht hearly hlive :=
    (reaches_run hearly ht).stays_one_of hs hne hc hc' hlive

/-- **The cache keeps its promises** in every state of every run. -/
theorem pex_cache_sound (calls : List Call) : Always Timed.step Sound .start calls := by
  have hinv : Always Timed.step Inv .start calls := by
    refine always_of_inv (fun s call t hs ht => ?_) inv_start
    have hreach : Reaches (fun _ => True) s t := reaches_step (fun _ _ => trivial) ht
    exact hreach.inv hs
  exact hinv.mono fun s => sound_of_inv

end CncContent.Cache.UrlPex
