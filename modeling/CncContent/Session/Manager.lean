import CncContent.Lib.FirstMatch
import CncContent.Lib.Greatest
import CncContent.Lib.Loop
import Mathlib.Data.Int.Order.Basic
import Mathlib.Data.Prod.Lex

/-! # The session manager

`BasicSession` of the source: downloads wait in a queue until one of `maxActiveDownloads` slots is
free. An instant is a number of nanoseconds. Every operation but `set_priority` and `poll_events` ends
with the loop of `activate_queued`, which moves the greatest Queued entry to a slot as long as there
are both. -/

namespace CncContent.Session.Manager

open CncContent.Lib.FirstMatch CncContent.Lib.Greatest CncContent.Lib.Loop

inductive DownloadState
  | queued
  | checking (progress : UInt32)
  | downloading
  | seeding
  | paused (previous : DownloadState)
  | error (message : String)
  | completed
deriving DecidableEq, Repr

/-- The text of a state. -/
def DownloadState.toText : DownloadState → String
  | .queued => "queued"
  | .checking progress => "checking (" ++ toString progress ++ "%)"
  | .downloading => "downloading"
  | .seeding => "seeding"
  | .paused previous => "paused (was: " ++ previous.toText ++ ")"
  | .error message => "error: " ++ message
  | .completed => "completed"

structure DownloadHandle where
  id : UInt64
deriving DecidableEq, Repr

structure SessionConfig where
  maxActiveDownloads : ℕ
deriving DecidableEq, Repr

def SessionConfig.default : SessionConfig := ⟨3⟩

structure DownloadEntry where
  handle : DownloadHandle
  priority : ℤ
  state : DownloadState
  addedAt : ℕ
deriving DecidableEq, Repr

/-- The events that the session emits. -/
inductive SessionEvent
  | downloadAdded (handle : DownloadHandle)
  | downloadStarted (handle : DownloadHandle)
  | downloadPaused (handle : DownloadHandle)
  | downloadRemoved (handle : DownloadHandle)
deriving DecidableEq, Repr

inductive SessionError
  | notFound (handle : DownloadHandle)
  | invalidState (handle : DownloadHandle) (state operation : String)
deriving DecidableEq, Repr

structure BasicSession where
  config : SessionConfig
  entries : List DownloadEntry
  events : List SessionEvent
  nextId : UInt64
deriving DecidableEq, Repr

/-- The order of activation: a higher priority is greater, then an earlier time. -/
def key (e : DownloadEntry) : ℤ ×ₗ ℕᵒᵈ := toLex (e.priority, OrderDual.toDual e.addedAt)

namespace BasicSession

def new (config : SessionConfig) : BasicSession := ⟨config, [], [], 1⟩

variable (s : BasicSession)

def activeCount : ℕ := s.entries.countP (·.state = .downloading)

/-- The Queued entries with their places. -/
def queue : List (DownloadEntry × ℕ) := s.entries.zipIdx.filter (·.1.state = .queued)

def candidate : Option (DownloadEntry × ℕ) := maxByKey (fun v => key v.1) s.queue

/-- One round of the loop of `activate_queued`; nothing if the loop has ended. -/
def activateNext : Option BasicSession :=
  if s.activeCount < s.config.maxActiveDownloads then
    s.candidate.map fun v =>
      { s with
        entries := s.entries.modify v.2 fun e => { e with state := .downloading }
        events := s.events ++ [.downloadStarted v.1.handle] }
  else none

def activateQueued : BasicSession := exhaust activateNext s.entries.length s

/-- The sessions in which `activate_queued` activates an entry. -/
def activations : List BasicSession := rounds activateNext s.entries.length s

def find? (handle : DownloadHandle) : Option DownloadEntry :=
  s.entries.find? (·.handle = handle)

/-- The entry of the handle changed, if there is one. -/
def update (handle : DownloadHandle) (f : DownloadEntry → DownloadEntry) : BasicSession :=
  { s with entries := updateFirst (·.handle = handle) f s.entries }

/-! ### Operations

What an operation does before it calls `activate_queued` is a definition of its own. -/

/-- An operation that ends with `activate_queued`; a failed one changes nothing. -/
def thenActivate :
    Except SessionError BasicSession → Except SessionError Unit × BasicSession
  | .ok t => (.ok (), t.activateQueued)
  | .error e => (.error e, s)

def enqueue (priority : ℤ) (now : ℕ) : BasicSession :=
  { s with
    entries := s.entries ++ [⟨⟨s.nextId⟩, priority, .queued, now⟩]
    events := s.events ++ [.downloadAdded ⟨s.nextId⟩]
    nextId := s.nextId + 1 }

def addDownload (priority : ℤ) (now : ℕ) : DownloadHandle × BasicSession :=
  (⟨s.nextId⟩, (s.enqueue priority now).activateQueued)

def pauseEntry (handle : DownloadHandle) : Except SessionError BasicSession :=
  match s.find? handle with
  | none => .error (.notFound handle)
  | some entry =>
    match entry.state with
    | .downloading | .queued | .checking _ | .seeding =>
      .ok { s.update handle fun e => { e with state := .paused e.state } with
        events := s.events ++ [.downloadPaused handle] }
    | other => .error (.invalidState handle other.toText "pause")

def pause (handle : DownloadHandle) : Except SessionError Unit × BasicSession :=
  s.thenActivate (s.pauseEntry handle)

def resumeEntry (handle : DownloadHandle) : Except SessionError BasicSession :=
  match s.find? handle with
  | none => .error (.notFound handle)
  | some entry =>
    match entry.state with
    | .paused _ => .ok (s.update handle fun e => { e with state := .queued })
    | other => .error (.invalidState handle other.toText "resume")

def resume (handle : DownloadHandle) : Except SessionError Unit × BasicSession :=
  s.thenActivate (s.resumeEntry handle)

def removeEntry (handle : DownloadHandle) : Except SessionError BasicSession :=
  match s.entries.findIdx? (·.handle = handle) with
  | none => .error (.notFound handle)
  | some idx =>
    .ok { s with
      entries := s.entries.eraseIdx idx
      events := s.events ++ [.downloadRemoved handle] }

def remove (handle : DownloadHandle) : Except SessionError Unit × BasicSession :=
  s.thenActivate (s.removeEntry handle)

def setPriority (handle : DownloadHandle) (priority : ℤ) :
    Except SessionError Unit × BasicSession :=
  match s.find? handle with
  | none => (.error (.notFound handle), s)
  | some _ => (.ok (), s.update handle fun e => { e with priority := priority })

def pollEvents : List SessionEvent × BasicSession := (s.events, { s with events := [] })

end BasicSession

end CncContent.Session.Manager
