import Mathlib.Data.List.Sort
import KolegaCode.Recording.Event
import Mathlib.Algebra.GroupWithZero.Nat

/-!
# Recording — the coarser recording of a session's events

`RecordingConnectionManager` stores every event it broadcasts, except that the deltas of a run are
gathered in a buffer and stored as checkpoints.  A buffer is written when it is large or old enough
for the next delta, when the idle ticker finds it stale, before a younger buffer is written, before
an event that stands alone, and at the end.

The store accepts every append; nothing reaches a retention limit and no payload is offloaded.
-/

namespace KolegaCode.Recording

open Json (Dict get?)

structure RetentionPolicy where
  streamCheckpointChars : Nat
  streamCheckpointMs : Int
  coalesceTypes : List String

def RetentionPolicy.default : RetentionPolicy where
  streamCheckpointChars := 8000
  streamCheckpointMs := 2000
  coalesceTypes := ["terminal_output", "tool_streaming_update"]

/-- The key of a buffer: the type of the events and what groups them. -/
abbrev RunKey := String × String

structure StreamState where
  /-- The event most recently folded into the buffer. -/
  template : AgentEvent
  pending : List String
  latest : Option String
  lastFlushMs : Int
  streaming : Bool
  openIndex : Nat

structure Recorder where
  streams : Assoc RunKey StreamState
  openCounter : Nat
  lastPersistedElapsedMs : Int
  nextSeq : Int
  store : List AgentEvent

def Recorder.new : Recorder where
  streams := []
  openCounter := 0
  lastPersistedElapsedMs := 0
  nextSeq := 1
  store := []

/-! ### The text of an event -/

/-- Content keys that may hold large text. -/
def TEXT_KEYS : List String := ["text", "output", "content", "message", "summary", "diff"]

/-- The first of the keys that holds a string. -/
def textKey (event : AgentEvent) : Option String :=
  TEXT_KEYS.find? fun key =>
    match get? event.content key with
    | some (.str _) => true
    | _ => false

def eventText (event : AgentEvent) : String :=
  match (textKey event).bind (get? event.content) with
  | some (.str value) => value
  | _ => ""

/-- A copy of the event with its text replaced. -/
def withText (event : AgentEvent) (text : String) : AgentEvent :=
  { event with
    content :=
      match textKey event with
      | some key => Json.set event.content key (.str text)
      | none => event.content
    seq := none }

def replaceMode (event : AgentEvent) : Bool :=
  strOr (get? event.content "stream_mode") "" = "replace"

/-! ### The buffers -/

def scopeOf (event : AgentEvent) : String :=
  match event.subAgentInfo with
  | some (p :: info) =>
    strOr (orElse (get? (p :: info) "dispatch_id") (get? (p :: info) "agent_name")) "sub"
  | _ => ""

/-- The scope of a high-volume type, with the first identifier of the payload. -/
def coalesceScope (event : AgentEvent) : String :=
  let identifier := ["tool_call_id", "terminal_id", "browser_id"].findSome? fun candidate =>
    match get? event.content candidate with
    | some (.str value) => if value ≠ "" then some value else none
    | _ => none
  match identifier with
  | some value => scopeOf event ++ "|" ++ value
  | none => scopeOf event

/-- The run an event belongs to. -/
def runKey (policy : RetentionPolicy) (event : AgentEvent) : RunKey :=
  if event.eventType ∈ policy.coalesceTypes then (event.eventType, coalesceScope event)
  else (event.eventType, scopeOf event ++ "|" ++ event.uuid)

def coalesceKey (policy : RetentionPolicy) (streams : Assoc RunKey StreamState)
    (event : AgentEvent) : Option RunKey :=
  if event.eventType ∈ policy.coalesceTypes then some (runKey policy event)
  else if event.isStreaming then some (runKey policy event)
  else if (streams.get? (runKey policy event)).isSome then some (runKey policy event)
  else none

/-- `_persist`; the elapsed time is clamped. -/
def persist (r : Recorder) (event : AgentEvent) : Recorder :=
  let elapsed := max event.elapsedMs r.lastPersistedElapsedMs
  { r with
    lastPersistedElapsedMs := elapsed
    nextSeq := r.nextSeq + 1
    store := r.store ++ [{ event with elapsedMs := elapsed, seq := some r.nextSeq }] }

/-- The text a buffer would be written with. -/
def checkpointOf (state : StreamState) : String :=
  match state.latest with
  | some text => text
  | none => String.join state.pending

def writeCheckpoint (r : Recorder) (key : RunKey) (keepOpen : Bool) : Recorder :=
  match r.streams.get? key with
  | none => r
  | some state =>
    let checkpoint := checkpointOf state
    let cleared := { state with pending := [], latest := none }
    if checkpoint = "" then
      { r with streams := if keepOpen then r.streams.set key cleared else r.streams.erase key }
    else
      persist
        { r with
          streams :=
            if keepOpen then
              r.streams.set key { cleared with lastFlushMs := state.template.elapsedMs }
            else r.streams.erase key }
        (withText state.template checkpoint)

/-- Buffer keys for runs that began before `openIndex`, oldest first. -/
def keysOpenedBefore (r : Recorder) (openIndex : Nat) : List RunKey :=
  Assoc.keys ((r.streams.filter fun p => p.2.openIndex < openIndex).insertionSort
    fun p q => p.2.openIndex ≤ q.2.openIndex)

def flushKey (r : Recorder) (key : RunKey) (keepOpen : Bool) : Recorder :=
  match r.streams.get? key with
  | none => r
  | some state =>
    writeCheckpoint
      ((keysOpenedBefore r state.openIndex).foldl (fun r older => writeCheckpoint r older true) r)
      key keepOpen

def flushAll (r : Recorder) : Recorder :=
  r.streams.keys.foldl (fun r key => writeCheckpoint r key false) r

/-- The buffer of the run with the event folded into it. -/
def foldInto (r : Recorder) (key : RunKey) (event : AgentEvent) : StreamState :=
  let state : StreamState :=
    match r.streams.get? key with
    | none =>
      { template := event, pending := [], latest := none, lastFlushMs := event.elapsedMs
        streaming := event.isStreaming, openIndex := r.openCounter + 1 }
    | some state => { state with template := event }
  let text := eventText event
  if replaceMode event then { state with latest := some text }
  else if text ≠ "" then { state with pending := state.pending ++ [text] }
  else state

def accumulate (policy : RetentionPolicy) (r : Recorder) (key : RunKey) (event : AgentEvent) :
    Recorder :=
  let state := foldInto r key event
  let buffered : Recorder :=
    { r with
      streams := r.streams.set key state
      openCounter :=
        if (r.streams.get? key).isSome then r.openCounter else r.openCounter + 1 }
  if state.streaming && !event.isStreaming then flushKey buffered key false
  else
    let pendingChars :=
      if replaceMode event then (state.latest.getD "").length
      else (state.pending.map String.length).sum
    if pendingChars = 0 then buffered
    else if policy.streamCheckpointChars ≤ pendingChars ∨
        policy.streamCheckpointMs ≤ event.elapsedMs - state.lastFlushMs then
      flushKey buffered key true
    else buffered

/-- `_record`. -/
def record (policy : RetentionPolicy) (r : Recorder) (event : AgentEvent) : Recorder :=
  match coalesceKey policy r.streams event with
  | none => persist (flushAll r) event
  | some key => accumulate policy r key event

/-- One round of the idle ticker. -/
def checkpointIdle (policy : RetentionPolicy) (r : Recorder) (now : Int) : Recorder :=
  let stale := r.streams.filter fun p =>
    (!p.2.pending.isEmpty || p.2.latest.isSome) &&
      decide (policy.streamCheckpointMs ≤ now - p.2.lastFlushMs)
  (Assoc.keys stale).foldl (fun r key => flushKey r key true) r

/-! ### Runs -/

inductive Op where
  | broadcast (event : AgentEvent)
  | idle (now : Int)

def step (policy : RetentionPolicy) (r : Recorder) : Op → Recorder
  | .broadcast event => record policy r event
  | .idle now => checkpointIdle policy r now

def run (policy : RetentionPolicy) (r : Recorder) (ops : List Op) : Recorder :=
  ops.foldl (step policy) r

/-- The events that were broadcast. -/
def broadcasts (ops : List Op) : List AgentEvent :=
  ops.filterMap fun
    | .broadcast event => some event
    | .idle _ => none

end KolegaCode.Recording
