import KolegaCode.Lib.JsonLine
import KolegaCode.Session.Event
import Mathlib.Data.List.DropRight

/-!
# Session — the journal

`SessionJournal`: one event a line in `events.jsonl`.  An instance keeps the number and the epoch
of the next event in memory and shares the file with the instances of other processes.  A method is
a computation on the instance and the file that may raise; what it did before it raised stays.

A file that does not exist is treated by every method as one that is empty.
-/

namespace KolegaCode.Session

open Json (Dict get? loadsBytes dumpsBytes)

abbrev Bytes := List UInt8

def newline : UInt8 := 10

def carriageReturn : UInt8 := 13

/-! ### Bytes -/

/-- The lines of what follows a carriage return, or not: a newline right behind one belongs to
it. -/
def splitlinesFrom : (returned : Bool) → Bytes → List Bytes
  | _, [] => []
  | returned, b :: raw =>
    if b = newline then
      if returned then splitlinesFrom false raw else [] :: splitlinesFrom false raw
    else if b = carriageReturn then [] :: splitlinesFrom true raw
    else
      match splitlinesFrom false raw with
      | [] => [[b]]
      | line :: lines => (b :: line) :: lines

/-- `raw.splitlines()`. -/
def splitlines (raw : Bytes) : List Bytes := splitlinesFrom false raw

/-- `chunk.split(b"\n")`. -/
def splitNewlines : Bytes → List Bytes
  | [] => [[]]
  | b :: chunk =>
    if b = newline then [] :: splitNewlines chunk
    else
      match splitNewlines chunk with
      | [] => [[b]]
      | line :: lines => (b :: line) :: lines

/-- `raw[: raw.rfind(b"\n") + 1]`. -/
def completeLines (raw : Bytes) : Bytes := raw.rdropWhile (· ≠ newline)

/-- The white space that `bytes.strip` removes. -/
def isSpace (b : UInt8) : Bool := b = 32 || (9 ≤ b && b ≤ 13)

/-- `not line.strip()`. -/
def isBlank (line : Bytes) : Bool := line.all isSpace

/-! ### State -/

/-- What an instance is created with. -/
structure Config where
  sessionId : String
  eventsPath : String
  crossProcessLock : Bool
  rootStamp : AgentStamp
  sessionId_ne : sessionId ≠ ""

structure SessionJournal where
  loaded : Bool := false
  tailRequiresRecovery : Bool := false
  nextSeq : Int := 1
  epochId : Option String := none
deriving Repr, DecidableEq

/-- What a method works on: its instance and the file. -/
structure View where
  journal : SessionJournal
  file : Bytes
deriving Repr, DecidableEq

abbrev JournalM := EStateM String View

/-- The cross-process lock as an instance finds it: held by itself for its lifetime, free, or held
by another instance. -/
inductive Lock where
  | owned
  | free
  | busy
deriving Repr, DecidableEq

/-! ### Reading -/

/-- `_read_event_bytes_locked`. -/
def readEventBytes (repairTail : Bool) : JournalM Bytes := do
  let v ← get
  if v.file ≠ [] ∧ v.file.getLast? ≠ some newline then
    let valid := completeLines v.file
    set { journal := { v.journal with tailRequiresRecovery := !repairTail }
          file := if repairTail then valid else v.file : View }
    return valid
  else
    set { v with journal := { v.journal with tailRequiresRecovery := false } }
    return v.file

/-- One line of the log. -/
def parseLine (cfg : Config) (strictSeq : Bool) (lineNumber : Nat) (expectedSeq : Int)
    (line : Bytes) : Except String SessionEvent := do
  if isBlank line then
    throw s!"Blank line in session event log at line {lineNumber}"
  match loadsBytes line with
  | none =>
    throw s!"Invalid JSON in session event log at line {lineNumber}: {cfg.eventsPath}"
  | some (.obj data) =>
    let event ← SessionEvent.fromDict data
    if event.sessionId ≠ cfg.sessionId then
      throw (s!"Session event at line {lineNumber} belongs to {event.sessionId}, " ++
        s!"expected {cfg.sessionId}")
    if strictSeq ∧ event.seq ≠ expectedSeq then
      throw (s!"Session event sequence gap at line {lineNumber}: " ++
        s!"expected {expectedSeq}, got {event.seq}")
    return event
  | some _ => throw s!"Session event at line {lineNumber} is not an object"

def parseLines (cfg : Config) (strictSeq : Bool) :
    (lineNumber : Nat) → (expectedSeq : Int) → List Bytes → Except String (List SessionEvent)
  | _, _, [] => return []
  | lineNumber, expectedSeq, line :: lines => do
    let event ← parseLine cfg strictSeq lineNumber expectedSeq line
    let events ← parseLines cfg strictSeq (lineNumber + 1) (expectedSeq + 1) lines
    return event :: events

/-- `_parse_event_bytes_locked`. -/
def parseEventBytes (cfg : Config) (strictSeq : Bool) (raw : Bytes) :
    Except String (List SessionEvent) :=
  parseLines cfg strictSeq 1 1 (splitlines raw)

/-- `_read_events_locked`. -/
def readEventsLocked (cfg : Config) (repairTail strictSeq : Bool) :
    JournalM (List SessionEvent) := do
  let raw ← readEventBytes repairTail
  match parseEventBytes cfg strictSeq raw with
  | .ok events => return events
  | .error message => throw message

/-- The epoch of the last `context.epoch_started`. -/
def lastEpoch (events : List SessionEvent) : Option String :=
  events.foldl (fun epoch e => if e.eventType = "context.epoch_started" then some e.epochId
    else epoch) none

/-- `events[-1].seq + 1 if events else 1`. -/
def nextAfter (events : List SessionEvent) : Int :=
  match events.getLast? with
  | some e => e.seq + 1
  | none => 1

/-- `_set_state_from_events_locked`. -/
def setStateFromEvents (events : List SessionEvent) : JournalM Unit :=
  modify fun v => { v with journal := { v.journal with
    nextSeq := nextAfter events
    epochId := lastEpoch events
    loaded := true } }

/-- `_read_events_with_recovery_locked`: the tail is repaired only under the cross-process lock. -/
def readEventsWithRecovery (cfg : Config) (lock : Lock) (repairTail : Bool) :
    JournalM (List SessionEvent) :=
  if !repairTail || !cfg.crossProcessLock then readEventsLocked cfg repairTail true
  else if lock = .busy then readEventsLocked cfg false true
  else readEventsLocked cfg true true

/-- `read_events`. -/
def readEvents (cfg : Config) (lock : Lock) (repairTail : Bool) :
    JournalM (List SessionEvent) := do
  let events ← readEventsWithRecovery cfg lock repairTail
  setStateFromEvents events
  return events

/-- `_ensure_loaded_locked`. -/
def ensureLoaded (cfg : Config) (lock : Lock) : JournalM Unit := do
  let v ← get
  if v.journal.loaded && !v.journal.tailRequiresRecovery then return ()
  else
    let events ← readEventsWithRecovery cfg lock true
    setStateFromEvents events

/-- The property `epoch_id`. -/
def currentEpoch (cfg : Config) (lock : Lock) : JournalM String := do
  ensureLoaded cfg lock
  let v ← get
  match v.journal.epochId with
  | some epoch => return epoch
  | none => throw s!"Session {cfg.sessionId} has no context epoch"

/-! ### Resynchronising -/

/-- How much of the end of the file is read to find the last number. -/
def tailWindow : Nat := 65536

/-- The number in the last line of the last 64 KB, if they end with a line that can be read. -/
def tailSeq (file : Bytes) : Option Int :=
  let chunk := file.drop (file.length - tailWindow)
  if chunk.getLast? ≠ some newline then none
  else
    let last := match (splitNewlines chunk).reverse with
      | _ :: last :: _ => last
      | _ => []
    if isBlank last then none
    else
      match loadsBytes last with
      | some (.obj data) => (get? data "seq").bind asInt?
      | _ => none

/-- `_read_tail_seq_locked`. -/
def readTailSeq : JournalM (Option Int) := do
  let v ← get
  return if v.file = [] then none else tailSeq v.file

/-- `_resync_seq_from_tail_locked`. -/
def resyncSeqFromTail (cfg : Config) : JournalM Unit := do
  match ← readTailSeq with
  | none =>
    let events ← readEventsLocked cfg true true
    setStateFromEvents events
  | some seq => modify fun v => { v with journal := { v.journal with nextSeq := seq + 1 } }

/-! ### Appending -/

/-- What a caller asks to append, with the event id and the time it gets: names that are never
empty, and a payload and artifacts that Python can hold. -/
structure Request where
  eventType : String
  actor : String
  payload : Dict := []
  turnId : Option String := none
  epochId : Option String := none
  artifacts : List Dict := []
  agent : Option AgentStamp := none
  eventId : String
  timestamp : String
  eventType_ne : eventType ≠ ""
  actor_ne : actor ≠ ""
  eventId_ne : eventId ≠ ""
  timestamp_ne : timestamp ≠ ""
  payload_canonical : Json.Canonical (.obj payload)
  artifacts_canonical : ∀ ref ∈ artifacts, Json.Canonical (.obj ref)

/-- How the system calls of a write go: opening the file or writing raises, only so many bytes are
written, the truncation that follows a short write succeeds, closing succeeds. -/
structure Attempt where
  raises : Bool := false
  short : Option Nat := none
  truncates : Bool := true
  closes : Bool := true
deriving Repr, DecidableEq

/-- The number of bytes `os.write` returns. -/
def Attempt.written (attempt : Attempt) (data : Bytes) : Nat :=
  match attempt.short with
  | none => data.length
  | some n => min n data.length

/-- The line of an event, with its newline. -/
def eventLine (e : SessionEvent) : Bytes := dumpsBytes (.obj e.toDict) ++ [newline]

/-- `_write_event_locked`.  A failed close raises with the whole event on disk. -/
def writeEvent (cfg : Config) (attempt : Attempt) (e : SessionEvent) : JournalM Unit := do
  let v ← get
  let data := eventLine e
  let unload : SessionJournal := { v.journal with loaded := false }
  if attempt.raises then
    set { v with journal := unload }
    throw s!"Could not append session event: {cfg.eventsPath}"
  else if attempt.written data < data.length then
    set { journal := unload
          file := if attempt.truncates then v.file
            else v.file ++ data.take (attempt.written data) : View }
    throw (s!"Short event write for session {cfg.sessionId}: " ++
      s!"wrote {attempt.written data} of {data.length} bytes")
  else
    set { v with file := v.file ++ data }
    if attempt.closes then return ()
    else throw "close failed"

/-- `epoch_id or self._epoch_id`, if it is not empty. -/
def resolveEpoch (req : Request) (j : SessionJournal) : Option String :=
  (req.epochId.filter (· ≠ "") <|> j.epochId).filter (· ≠ "")

def newEvent (cfg : Config) (req : Request) (seq : Int) (epoch : String) : SessionEvent :=
  let stamp := req.agent.getD cfg.rootStamp
  { version := 2
    eventId := req.eventId
    sessionId := cfg.sessionId
    seq := seq
    epochId := epoch
    turnId := req.turnId
    timestamp := req.timestamp
    actor := req.actor
    eventType := req.eventType
    payload := req.payload
    artifacts := req.artifacts
    agentId := some stamp.agentId
    agentName := some stamp.agentName
    parentAgentId := stamp.parentAgentId
    parentToolCallId := stamp.parentToolCallId
    depth := some stamp.depth }

/-- `_append_locked`, from the resolved epoch on. -/
def appendResolved (cfg : Config) (req : Request) (attempt : Attempt) : JournalM SessionEvent := do
  let v ← get
  match resolveEpoch req v.journal with
  | none => throw "An epoch id is required for every session event"
  | some epoch =>
    let event := newEvent cfg req v.journal.nextSeq epoch
    try
      writeEvent cfg attempt event
    catch message =>
      modify fun v => { v with journal := { v.journal with loaded := false } }
      throw message
    modify fun v => { v with journal := { v.journal with
      nextSeq := v.journal.nextSeq + 1
      epochId := if req.eventType = "context.epoch_started" then some epoch
        else v.journal.epochId } }
    return event

/-- `_append_locked`. -/
def appendLocked (cfg : Config) (resync : Bool) (req : Request) (attempt : Attempt) :
    JournalM SessionEvent := do
  ensureLoaded cfg .owned
  if resync && cfg.crossProcessLock then resyncSeqFromTail cfg
  appendResolved cfg req attempt

/-- `append`: an instance that owns the lock for its lifetime does not resynchronise. -/
def append (cfg : Config) (lock : Lock) (req : Request) (attempt : Attempt) :
    JournalM SessionEvent :=
  if cfg.crossProcessLock then
    match lock with
    | .busy =>
      throw s!"Session event log is locked by another kolega-code instance: {cfg.eventsPath}"
    | .owned => appendLocked cfg false req attempt
    | .free => appendLocked cfg true req attempt
  else appendLocked cfg true req attempt

/-! ### Renumbering -/

/-- The events numbered from one in file order. -/
def renumber (events : List SessionEvent) : List SessionEvent :=
  events.zipIdx.map fun p => { p.1 with seq := p.2 + 1 }

/-- `_repair_sequence_locked`: the state is set from the events as they were read. -/
def repairSequence (cfg : Config) : JournalM Nat := do
  let events ← readEventsLocked cfg true false
  if events = [] then
    setStateFromEvents events
    return 0
  else
    if events.zipIdx.any fun p => p.1.seq ≠ p.2 + 1 then
      modify fun v => { v with file := (renumber events).flatMap eventLine }
    setStateFromEvents events
    return events.length

end KolegaCode.Session
