import KolegaCode.Session.Prepare
import KolegaCode.Session.RecorderSteps

/-!
# Session — interrupted turns

`recover_interrupted_turn`: what a new recorder does to the latest turn of a log whose recorder
stopped.  The tool calls of the last assistant message of the turn that have no result get one that
says they were interrupted, and a turn that is open is closed.
-/

namespace KolegaCode.Session

open Json (Dict get?)

/-! ### The latest turn -/

/-- A result answers a call: by execution id if both have one, else by the provider's id. -/
def answers (result call : Dict) : Bool :=
  match (get? result "execution_id").filter truthy, (get? call "execution_id").filter truthy with
  | some id, some id' => id = id'
  | _, _ => get? result "tool_use_id" = get? call "id"

/-- The events of a surviving turn of the root agent. -/
def rootTurnEvents (events : List SessionEvent) (epochId : String) (turn : TurnSummary) :
    List SessionEvent :=
  events.filter fun e => e.epochId = epochId ∧ e.sub = false ∧ e.turnId = some turn.turnId ∧
    turn.boundarySeq ≤ e.seq

/-- The message of an event, if it is a dictionary. -/
def storedMessage (e : SessionEvent) : Option Dict := (get? e.payload "message").bind asDict?

def assistantMessages (turnEvents : List SessionEvent) : List Dict :=
  (turnEvents.filter fun e => e.eventType = "assistant.message").filterMap storedMessage

/-- The blocks of the messages with tool results. -/
def resultBlocks (turnEvents : List SessionEvent) : List Dict :=
  (turnEvents.filter fun e => e.eventType = "tool.results").flatMap fun e =>
    ((storedMessage e).map messageBlocks).getD [] |>.filter fun block =>
      get? block "type" = some (.str "tool_result") ∧ (get? block "tool_use_id").any truthy

/-- The tool calls of a message that have an id. -/
def toolCallBlocks (message : Dict) : List Dict :=
  (messageBlocks message).filter fun block =>
    get? block "type" = some (.str "tool_call") ∧ (get? block "id").any truthy

/-- The calls of the last assistant message that no result answers. -/
def unansweredCalls (turnEvents : List SessionEvent) : List Dict :=
  (((assistantMessages turnEvents).getLast?.map toolCallBlocks).getD []).filter fun call =>
    !(resultBlocks turnEvents).any fun result => answers result call

def interruptionText : String :=
  "Tool execution was interrupted before a durable result was recorded. The tool was not re-run."

/-- The `to_dict()` of the result an unanswered call gets. -/
def interruptedResult (call : Dict) : Dict :=
  [("type", .str "tool_result"), ("tool_use_id", .str (strOf (valueOr call "id"))),
    ("content", .str interruptionText),
    ("name", .str (match (get? call "name").filter truthy with
      | some name => strOf name
      | none => "unknown_tool")),
    ("is_error", .bool true), ("input_kind", (get? call "input_kind").getD (.str "json"))] ++
  match (get? call "execution_id").filter truthy with
  | some id => [("execution_id", id)]
  | none => []

/-- What `_latest_root_turn` returns. -/
structure LatestTurn where
  turn : TurnSummary
  lastAssistant : Option Dict
  missing : List Dict

/-- `_latest_root_turn`. -/
def latestRootTurn (events : List SessionEvent) (epochId : String) : Option LatestTurn :=
  (collectEpochTurns events epochId).getLast?.map fun turn =>
    let turnEvents := rootTurnEvents events epochId turn
    { turn := turn
      lastAssistant := (assistantMessages turnEvents).getLast?
      missing := (unansweredCalls turnEvents).map interruptedResult }

/-! ### Recovery -/

/-- The `to_dict()` of the user message of a batch of results. -/
def resultsMessage (results : List Dict) : Dict :=
  [("role", .str "user"), ("content", .arr (results.map .obj)), ("stop_reason", .null),
    ("usage_metadata", .obj [])]

/-- The log is read and its latest turn looked at. -/
def readLatestRootTurn (cfg : RecorderConfig) (call : Call) : RecorderM (Option LatestTurn) := do
  let events ← onJournal (readEvents cfg.journal call.lock true)
  let epochId ← onJournal (currentEpoch cfg.journal call.lock)
  return latestRootTurn events epochId

/-- The missing results are put into their slot and written. -/
def commitMissing (cfg : RecorderConfig) (call : Call) (batchId turnId : String)
    (missing : List Dict) (deferProjection : Bool) : RecorderM (Option Message) := do
  let epochId ← onJournal (currentEpoch cfg.journal call.lock)
  modify fun r => { r with pendingToolResults := some {
    id := batchId
    epochId := epochId
    turnId := turnId
    message := resultsMessage missing } }
  retryPendingToolResults cfg call deferProjection

/-- `repair_interrupted_tool_results`, with the id the batch gets. -/
def repairInterruptedToolResults (cfg : RecorderConfig) (call : Call) (batchId : String)
    (deferProjection : Bool) : RecorderM (Option Message) := do
  if cfg.stamp.depth ≠ 0 then
    throw "Interrupted tool-result repair is only valid for the root agent recorder"
  else
    let r ← get
    if r.pendingAssistant.isSome then
      throw "Unsettled assistant message must be projected before repairing tool results"
    else if r.pendingToolResults.isSome then retryPendingToolResults cfg call deferProjection
    else
      match ← readLatestRootTurn cfg call with
      | none => return none
      | some latest =>
        if latest.missing = [] then return none
        else commitMissing cfg call batchId latest.turn.turnId latest.missing deferProjection

/-- The terminal of a turn that is found open: it is complete if its last assistant message asked
for no tool. -/
def closeInterruptedTurn (cfg : RecorderConfig) (call : Call) (lastAssistant : Option Dict)
    (durationMs : Option Nat) : RecorderM Unit :=
  let hasToolCalls := ((lastAssistant.map messageBlocks).getD []).any fun block =>
    get? block "type" = some (.str "tool_call")
  if lastAssistant.isSome ∧ hasToolCalls = false then
    finishTurn cfg call .completed durationMs none none
  else
    finishTurn cfg call .failed durationMs
      (some "Process exited before the turn reached a durable terminal marker") none

/-- `recover_interrupted_turn`: `batch` and `terminal` are what its two writes meet. -/
def recoverInterruptedTurn (cfg : RecorderConfig) (batch terminal : Call) (batchId : String)
    (durationMs : Option Nat) : RecorderM Bool := do
  if cfg.stamp.depth ≠ 0 then return false
  else
    match ← readLatestRootTurn cfg batch with
    | none => return false
    | some latest =>
      if latest.turn.status ≠ .open ∧ latest.missing = [] then return false
      else
        if latest.turn.status = .open then
          modify fun r => { r with currentTurnId := some latest.turn.turnId }
        let _ ← repairInterruptedToolResults cfg batch batchId false
        if latest.turn.status = .open then
          closeInterruptedTurn cfg terminal latest.lastAssistant durationMs
        return true

end KolegaCode.Session
