import CncContent.Lib.Bounded
import CncContent.Lib.Decimal
import CncContent.Lib.Runs
import CncContent.Lib.Tiling

/-! # The segmented download

`segmented_download` of the source. The file is cut into segments, each of which a thread of its own downloads
into a temporary file, from one mirror after the other; the files are then copied one behind the other. The
threads take their steps in any order, and share only the flag that one of them has given up. What a call to the
network or the file system does is decided when the step is taken. -/

namespace CncContent.Downloads.Segmented

open CncContent.Lib.Bounded CncContent.Lib.Bytes CncContent.Lib.Decimal CncContent.Lib.Runs
open CncContent.Lib.Tiling

/-! ### Segments -/

/-- 1 MB. -/
def minSegmentSize : ℕ := 1024 * 1024

/-- The bytes from `start` to `stop`, the last one included. -/
structure Segment where
  start : ℕ
  stop : ℕ
  idx : ℕ
deriving DecidableEq, Repr

def effectiveMirrors (mirrorCount fileSize : ℕ) : ℕ :=
  min mirrorCount (max 1 (fileSize / minSegmentSize))

/-- One segment for each mirror that is used; the last one gets the remainder. -/
def segments (mirrorCount fileSize : ℕ) : List Segment :=
  let n := effectiveMirrors mirrorCount fileSize
  let size := fileSize / n
  (List.range n).map fun i => ⟨i * size, if i = n - 1 then fileSize - 1 else (i + 1) * size - 1, i⟩

def Segment.expectedLen (segment : Segment) : ℕ := satAdd u64Max (segment.stop - segment.start) 1

/-! ### Threads -/

/-- What a mirror answers: the bytes that the body delivers, and the error it then fails with, if it does. -/
structure Response where
  status : ℕ
  body : List UInt8
  broken : Option (List UInt8)
deriving DecidableEq, Repr

inductive SegmentError
  | call (url detail : List UInt8)
  | status (got : ℕ)
  | create (detail : List UInt8)
  | read (detail : List UInt8)
  | write (detail : List UInt8)
  | flush (detail : List UInt8)
  | length (written : ℕ)
  | panicked
deriving DecidableEq, Repr

/-- The text of an error; that of `create` names the path in its detail. -/
def SegmentError.message (segment : Segment) : SegmentError → List UInt8
  | .call url detail => label segment ++ text " from " ++ url ++ text ": " ++ detail
  | .status got => label segment ++ text ": expected HTTP 206, got " ++ printNat got
  | .create detail => text "create segment file " ++ detail
  | .read detail => label segment ++ text " read: " ++ detail
  | .write detail => label segment ++ text " write: " ++ detail
  | .flush detail => label segment ++ text " flush: " ++ detail
  | .length written =>
    label segment ++ text ": expected " ++ printNat segment.expectedLen ++ text " bytes, got " ++
      printNat written
  | .panicked => text "segment download thread panicked"
where
  label (segment : Segment) : List UInt8 :=
    text "segment " ++ printNat segment.start ++ text "-" ++ printNat segment.stop

/-- Where a thread is. -/
inductive Phase
  | request (url : List UInt8)
  | create (response : Response)
  | read (unread : List UInt8) (broken : Option (List UInt8)) (written : ℕ)
  | write (chunk unread : List UInt8) (broken : Option (List UInt8)) (written : ℕ)
  | flush (written : ℕ)
  | failed (e : SegmentError)
  | finished (result : Except SegmentError Unit)

/-- A thread with its temporary file. The responses that it has got to its range request are recorded. -/
structure Worker where
  segment : Segment
  fallbackUrls : List (List UInt8)
  primaryErr : Option SegmentError
  phase : Phase
  file : Option (List UInt8)
  responses : List Response

/-- What the next operation of a thread meets; an error is there with its text. A read returns at most `count`
bytes, but at least one before the end; a write that fails has written some of its bytes. -/
inductive Event
  | responded (result : Except (List UInt8) Response)
  | created (e : Option (List UInt8))
  | read (count : ℕ)
  | wrote (e : Option (ℕ × List UInt8))
  | flushed (e : Option (List UInt8))
  | looked
  | panicked
deriving DecidableEq

namespace Worker

variable (w : Worker)

def goTo (phase : Phase) : Worker := { w with phase := phase }

/-- The mirror of the segment comes first, the others are the fallbacks. -/
def spawn (urls : List (List UInt8)) (segment : Segment) : Worker :=
  let primary := segment.idx % urls.length
  ⟨segment, (urls.zipIdx.filter fun u => u.2 ≠ primary).map Prod.fst, none,
    .request ((urls[primary]?).getD []), none, []⟩

def onResponse (url : List UInt8) : Except (List UInt8) Response → Worker
  | .error e => w.goTo (.failed (.call url e))
  | .ok response =>
    { w with
      responses := w.responses ++ [response]
      phase := if response.status = 206 then .create response else .failed (.status response.status) }

def onCreated (response : Response) : Option (List UInt8) → Worker
  | some e => w.goTo (.failed (.create e))
  | none => { w with file := some [], phase := .read response.body response.broken 0 }

/-- The size of `buf`. -/
def bufLen : ℕ := 65536

def onRead (unread : List UInt8) (broken : Option (List UInt8)) (written count : ℕ) : Worker :=
  let remaining := w.segment.expectedLen - written
  if remaining = 0 then w.goTo (.flush written)
  else if unread = [] then
    match broken with
    | some e => w.goTo (.failed (.read e))
    | none => w.goTo (.flush written)
  else
    let n := min (max 1 count) (min remaining bufLen)
    w.goTo (.write (unread.take n) (unread.drop n) broken written)

def onWrote (chunk unread : List UInt8) (broken : Option (List UInt8)) (written : ℕ) :
    Option (ℕ × List UInt8) → Worker
  | some (partly, e) =>
    { w with
      file := w.file.map fun data => data ++ chunk.take partly
      phase := .failed (.write e) }
  | none =>
    { w with
      file := w.file.map fun data => data ++ chunk
      phase := .read unread broken (satAdd u64Max written chunk.length) }

def onFlushed (written : ℕ) : Option (List UInt8) → Worker
  | some e => w.goTo (.failed (.flush e))
  | none =>
    if written ≠ w.segment.expectedLen then w.goTo (.failed (.length written))
    else w.goTo (.finished (.ok ()))

/-- A download has failed: the next mirror, unless another thread has given up. The flag comes with the worker. -/
def onFailed (failed : Bool) (e : SegmentError) : Worker × Bool :=
  let primaryErr := w.primaryErr.getD e
  match w.fallbackUrls with
  | url :: urls =>
    if failed then (w.goTo (.finished (.error primaryErr)), true)
    else ({ w with fallbackUrls := urls, primaryErr := some primaryErr, phase := .request url }, failed)
  | [] => (w.goTo (.finished (.error primaryErr)), true)

/-- The next step of the thread, with the flag that one has given up. -/
def advance (failed : Bool) (event : Event) : Option (Worker × Bool) :=
  match w.phase, event with
  | .finished _, _ => none
  | _, .panicked => some (w.goTo (.finished (.error .panicked)), failed)
  | .request url, .responded result => some (w.onResponse url result, failed)
  | .create response, .created e => some (w.onCreated response e, failed)
  | .read unread broken written, .read count => some (w.onRead unread broken written count, failed)
  | .write chunk unread broken written, .wrote e => some (w.onWrote chunk unread broken written e, failed)
  | .flush written, .flushed e => some (w.onFlushed written e, failed)
  | .failed e, .looked => some (w.onFailed failed e)
  | _, _ => none

end Worker

/-! ### The whole download -/

/-- Where the caller is. With `racing` it goes on in `parallel_download`. The result carries the bytes that have
been hashed. -/
inductive Main
  | probing
  | racing
  | joining
  | creating
  | opening (left : List Worker)
  | copying (unread : List UInt8) (left : List Worker)
  | flushing
  | returned (result : Except (List UInt8) (List UInt8))

structure Download where
  urls : List (List UInt8)
  fileSize : ℕ
  workers : List Worker
  failed : Bool
  main : Main
  output : List UInt8
  hashed : List UInt8

/-- What the next operation of the caller meets: it fails, a write after having written some of its bytes, or it
succeeds, a read with at most `count` bytes. -/
inductive Outcome
  | fails (partly : ℕ) (e : List UInt8)
  | succeeds (count : ℕ)
deriving DecidableEq

inductive Action
  | probe (supports : Bool)
  | thread (i : ℕ) (event : Event)
  | join
  | assemble (outcome : Outcome)
deriving DecidableEq

namespace Download

def begin (urls : List (List UInt8)) (fileSize : ℕ) : Download :=
  ⟨urls, fileSize, [], false, if urls = [] then .returned (.error (text "no mirrors available")) else .probing,
    [], []⟩

variable (s : Download)

def onProbe : Bool → Download
  | false => { s with main := .racing }
  | true =>
    { s with
      workers := (segments s.urls.length s.fileSize).map (Worker.spawn s.urls)
      main := .joining }

def threadStep (i : ℕ) (event : Event) : Option Download :=
  match s.workers[i]? with
  | none => none
  | some w =>
    match w.advance s.failed event with
    | none => none
    | some (w', failed) => some { s with workers := s.workers.set i w', failed := failed }

def isFinished (w : Worker) : Bool :=
  match w.phase with
  | .finished _ => true
  | _ => false

/-- The text of the error that a thread has returned. -/
def errorOf (w : Worker) : Option (List UInt8) :=
  match w.phase with
  | .finished (.error e) => some (e.message w.segment)
  | _ => none

/-- All threads have finished. The last error counts. -/
def join : Option Download :=
  if s.workers.all isFinished then
    match (s.workers.filterMap errorOf).getLast? with
    | some e => some { s with main := .returned (.error e) }
    | none => some { s with main := .creating }
  else none

def assemblyFails (e : List UInt8) : Download :=
  { s with main := .returned (.error (text "segment assembly failed: " ++ e)) }

/-- A step of `assemble_segments`. -/
def assemble (outcome : Outcome) : Option Download :=
  match s.main, outcome with
  | .creating, .fails _ e => some (s.assemblyFails e)
  | .creating, .succeeds _ => some { s with output := [], hashed := [], main := .opening s.workers }
  | .opening [], _ => some { s with main := .flushing }
  | .opening (_ :: _), .fails _ e => some (s.assemblyFails e)
  | .opening (w :: left), .succeeds _ =>
    match w.file with
    | none => none
    | some data => some { s with main := .copying data left }
  | .copying unread _, .fails partly e =>
    some { s.assemblyFails e with output := s.output ++ unread.take partly }
  | .copying unread left, .succeeds count =>
    if unread = [] then some { s with main := .opening left }
    else
      let n := min (max 1 count) Worker.bufLen
      some { s with
        hashed := s.hashed ++ unread.take n
        output := s.output ++ unread.take n
        main := .copying (unread.drop n) left }
  | .flushing, .fails _ e => some (s.assemblyFails e)
  | .flushing, .succeeds _ => some { s with main := .returned (.ok s.hashed) }
  | _, _ => none

def step (s : Download) : Action → Option Download
  | .probe supports =>
    match s.main with
    | .probing => some (s.onProbe supports)
    | _ => none
  | .thread i event =>
    match s.main with
    | .joining => s.threadStep i event
    | _ => none
  | .join =>
    match s.main with
    | .joining => s.join
    | _ => none
  | .assemble outcome => s.assemble outcome

end Download

end CncContent.Downloads.Segmented
