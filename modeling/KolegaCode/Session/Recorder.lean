import KolegaCode.Llm.Models
import KolegaCode.Session.Replay

/-!
# Session — the recorder

`SessionRecorder`: the semantic events of one agent in a shared journal.  An assistant message, a
batch of tool results or the end of a turn is kept in a slot before it is written, and leaves the
slot when the write is known to be done.  A write that raised may or may not have reached the log;
a retry reads the log and looks for the event before it writes.

Identifiers and times are drawn by the caller (`Call`), and so is what the system does with a write.
`restore` is the journal's `hydrate_message` followed by `Message.from_dict`.
-/

namespace KolegaCode.Session

open List
open Json (Dict get?)

/-! ### State -/

/-- What `prepare_message` returns: the message as it is stored, and its artifacts. -/
structure Prepared where
  message : Dict
  artifacts : List Dict := []
  message_canonical : Json.Canonical (.obj message)
  artifacts_canonical : ∀ ref ∈ artifacts, Json.Canonical (.obj ref)

/-- What a recorder is created with. -/
structure RecorderConfig where
  journal : Config
  stamp : AgentStamp
  prepare : Dict → Except String Prepared
  restore : Dict → Except String Message

/-- What a call of the recorder meets: the id and the time its event gets, the lock as the journal
finds it, and how the write goes. -/
structure Call where
  eventId : String
  timestamp : String
  lock : Lock
  attempt : Attempt := {}
  eventId_ne : eventId ≠ ""
  timestamp_ne : timestamp ≠ ""

/-- `_PendingAssistant`, or `_PendingToolResults` without an effort: the id, the place in the
session, the message as a dictionary, and whether it is known to be in the log. -/
structure Pending where
  id : String
  epochId : String
  turnId : String
  message : Dict
  reasoningEffort : Option String := none
  committed : Bool := false
deriving Repr, DecidableEq

/-- The ends of a turn. -/
inductive Ending where
  | completed
  | failed
  | cancelled
deriving Repr, DecidableEq

def Ending.eventType : Ending → String
  | .completed => "turn.completed"
  | .failed => "turn.failed"
  | .cancelled => "turn.cancelled"

/-- `_PendingTurnTerminal`. -/
structure PendingTurnTerminal where
  epochId : String
  turnId : String
  ending : Ending
  payload : Dict
  payload_canonical : Json.Canonical (.obj payload)

/-- The recorder, and what it sees of the journal. -/
structure Recorder where
  view : View
  currentTurnId : Option String := none
  turnStartedAt : Option String := none
  assistantCount : Nat := 0
  toolBatches : Nat := 0
  pendingToolResults : Option Pending := none
  pendingAssistant : Option Pending := none
  pendingTurnTerminal : Option PendingTurnTerminal := none

abbrev RecorderM := EStateM String Recorder

/-- A method of the journal, called by the recorder. -/
def onJournal {α : Type} (x : JournalM α) : RecorderM α := fun r =>
  match x r.view with
  | .ok a v => .ok a { r with view := v }
  | .error message v => .error message { r with view := v }

/-! ### Checks -/

/-- `_require_settled_context`. -/
def requireSettledContext : RecorderM Unit := do
  let r ← get
  if r.pendingToolResults.isSome then
    throw "Unsettled tool results must be retried before adding session context"
  else if r.pendingAssistant.isSome then
    throw "Unsettled assistant message must be retried before adding session context"
  else if r.pendingTurnTerminal.isSome then
    throw "Unsettled turn terminal must be retried before adding session context"
  else return ()

/-- `_require_turn`. -/
def requireTurn : RecorderM String := do
  let r ← get
  match r.currentTurnId with
  | some turnId => return turnId
  | none => throw "Session event requires an active turn"

/-! ### The two slots of messages -/

/-- An assistant message or a batch of tool results. -/
inductive Slot where
  | assistant
  | toolResults
deriving Repr, DecidableEq

namespace Slot

def eventType : Slot → String
  | assistant => "assistant.message"
  | toolResults => "tool.results"

def actor : Slot → String
  | assistant => "assistant"
  | toolResults => "tool"

/-- The key of the id in the payload. -/
def idKey : Slot → String
  | assistant => "message_id"
  | toolResults => "batch_id"

theorem eventType_ne (slot : Slot) : slot.eventType ≠ "" := by
  cases slot <;> decide

theorem actor_ne (slot : Slot) : slot.actor ≠ "" := by
  cases slot <;> decide

end Slot

namespace Recorder

def pending (r : Recorder) : Slot → Option Pending
  | .assistant => r.pendingAssistant
  | .toolResults => r.pendingToolResults

def setPending (r : Recorder) (slot : Slot) (p : Option Pending) : Recorder :=
  match slot with
  | .assistant => { r with pendingAssistant := p }
  | .toolResults => { r with pendingToolResults := p }

/-- One more message of this kind in the turn. -/
def count (r : Recorder) : Slot → Recorder
  | .assistant => { r with assistantCount := r.assistantCount + 1 }
  | .toolResults => { r with toolBatches := r.toolBatches + 1 }

end Recorder

/-! ### Payloads -/

/-- `d.pop(key, None)`, what is left. -/
def without (d : Dict) (key : String) : Dict := d.filter fun p => p.1 ≠ key

/-- `d.get(key)` as a value. -/
def valueOr (d : Dict) (key : String) : Json := (get? d key).getD .null

/-- The `llm_call` of the message's usage metadata, if the metadata is a dictionary that has it. -/
def llmCall (stored : Dict) : Option Json :=
  match get? stored "usage_metadata" with
  | some (.obj metadata) => get? metadata "llm_call"
  | _ => none

/-- The message without the `llm_call` of its usage metadata, and without metadata that is empty
then. -/
def withoutLlmCall (stored : Dict) : Dict :=
  match get? stored "usage_metadata" with
  | some (.obj metadata) =>
    if without metadata "llm_call" = [] then without stored "usage_metadata"
    else stored.map fun p =>
      if p.1 = "usage_metadata" then (p.1, .obj (without metadata "llm_call")) else p
  | _ => stored

/-- The payload of an assistant message. -/
def assistantPayload (p : Pending) (stored : Dict) : Dict :=
  match llmCall stored with
  | some (.obj call) =>
    [("message", .obj (withoutLlmCall stored)), ("message_id", .str p.id),
      ("origin_type", .str "llm"), ("llm_call_id", valueOr call "llm_call_id"),
      ("provider", valueOr call "provider"), ("model", valueOr call "model"),
      ("reasoning_effort", optStr p.reasoningEffort), ("llm_call_count", .int 1),
      ("run_id", valueOr call "run_id")]
  | _ =>
    [("message", .obj (withoutLlmCall stored)), ("message_id", .str p.id),
      ("origin_type", .str "llm"), ("llm_call_id", .null), ("provider", .null), ("model", .null),
      ("reasoning_effort", optStr p.reasoningEffort), ("llm_call_count", .int 1)]

def toolResultsPayload (p : Pending) (stored : Dict) : Dict :=
  [("message", .obj stored), ("batch_id", .str p.id)]

def Slot.payload : Slot → Pending → Dict → Dict
  | .assistant => assistantPayload
  | .toolResults => toolResultsPayload

/-! ### What is written can be written -/

variable {d stored : Dict}

theorem canonicalFields_iff : Json.CanonicalFields d ↔ ∀ p ∈ d, Json.Canonical p.2 := by
  induction d with
  | nil => simp [Json.CanonicalFields]
  | cons p d ih =>
    obtain ⟨k, v⟩ := p
    rw [Json.CanonicalFields, ih, forall_mem_cons]

theorem mem_of_get? {key : String} {v : Json} (h : get? d key = some v) : (key, v) ∈ d := by
  induction d with
  | nil => cases h
  | cons p d ih =>
    obtain ⟨k, w⟩ := p
    rw [Json.get?_cons] at h
    split at h
    · rename_i hk
      cases h
      rw [hk]
      exact mem_cons_self
    · exact mem_cons_of_mem _ (ih h)

theorem canonical_get? (hd : Json.Canonical (.obj d)) {key : String} {v : Json}
    (h : get? d key = some v) : Json.Canonical v :=
  canonicalFields_iff.mp hd.2 _ (mem_of_get? h)

theorem canonical_valueOr (hd : Json.Canonical (.obj d)) (key : String) :
    Json.Canonical (valueOr d key) := by
  rw [valueOr]
  cases h : get? d key with
  | none => trivial
  | some v => exact canonical_get? hd h

theorem canonical_without (hd : Json.Canonical (.obj d)) (key : String) :
    Json.Canonical (.obj (without d key)) := by
  refine ⟨hd.1.sublist (filter_sublist.map Prod.fst), canonicalFields_iff.mpr ?_⟩
  intro p hp
  exact canonicalFields_iff.mp hd.2 p (mem_filter.mp hp).1

theorem canonical_withoutLlmCall (h : Json.Canonical (.obj stored)) :
    Json.Canonical (.obj (withoutLlmCall stored)) := by
  rw [withoutLlmCall]
  split
  · rename_i metadata hm
    split
    · exact canonical_without h _
    · refine ⟨?_, canonicalFields_iff.mpr ?_⟩
      · rw [map_map]
        have hkeys : (Prod.fst ∘ fun p : String × Json => if p.1 = "usage_metadata" then
            (p.1, Json.obj (without metadata "llm_call")) else p) = Prod.fst := by
          funext p
          simp only [Function.comp]
          split <;> rfl
        rw [hkeys]
        exact h.1
      · intro p hp
        obtain ⟨q, hq, rfl⟩ := mem_map.mp hp
        split
        · exact canonical_without (canonical_get? h hm) _
        · exact canonicalFields_iff.mp h.2 q hq
  · exact h

theorem canonical_assistantPayload (p : Pending) (h : Json.Canonical (.obj stored)) :
    Json.Canonical (.obj (assistantPayload p stored)) := by
  have hm := canonical_withoutLlmCall h
  have he := SessionEvent.canonical_optStr p.reasoningEffort
  rw [assistantPayload]
  split
  · rename_i call hc
    have hcall : Json.Canonical (.obj call) := by
      rw [llmCall] at hc
      split at hc
      · rename_i metadata hmeta
        exact canonical_get? (canonical_get? h hmeta) hc
      · cases hc
    refine ⟨by simp, canonicalFields_iff.mpr ?_⟩
    simp only [forall_mem_cons, not_mem_nil, false_imp_iff, implies_true, and_true]
    exact ⟨hm, trivial, trivial, canonical_valueOr hcall _, canonical_valueOr hcall _,
      canonical_valueOr hcall _, he, trivial, canonical_valueOr hcall _⟩
  · refine ⟨by simp, canonicalFields_iff.mpr ?_⟩
    simp only [forall_mem_cons, not_mem_nil, false_imp_iff, implies_true, and_true]
    exact ⟨hm, trivial, trivial, trivial, trivial, trivial, he, trivial⟩

theorem Slot.canonical_payload (slot : Slot) (p : Pending) (h : Json.Canonical (.obj stored)) :
    Json.Canonical (.obj (slot.payload p stored)) := by
  cases slot with
  | assistant => exact canonical_assistantPayload p h
  | toolResults =>
    refine ⟨by simp [Slot.payload, toolResultsPayload], canonicalFields_iff.mpr ?_⟩
    simp only [Slot.payload, toolResultsPayload, forall_mem_cons, not_mem_nil,
      false_imp_iff, implies_true, and_true]
    exact ⟨h, trivial⟩

/-! ### Writing and looking for an event -/

/-- `_append` for a message, with the artifacts it was prepared with. -/
def appendPrepared (cfg : RecorderConfig) (call : Call) (eventType actor : String)
    (payload : Dict) (turnId epochId : Option String) (artifacts : List Dict)
    (htype : eventType ≠ "") (hactor : actor ≠ "") (hpayload : Json.Canonical (.obj payload))
    (hartifacts : ∀ ref ∈ artifacts, Json.Canonical (.obj ref)) : RecorderM SessionEvent :=
  onJournal (append cfg.journal call.lock {
    eventType := eventType
    actor := actor
    payload := payload
    turnId := turnId
    epochId := epochId
    artifacts := artifacts
    agent := some cfg.stamp
    eventId := call.eventId
    timestamp := call.timestamp
    eventType_ne := htype
    actor_ne := hactor
    eventId_ne := call.eventId_ne
    timestamp_ne := call.timestamp_ne
    payload_canonical := hpayload
    artifacts_canonical := hartifacts } call.attempt)

/-- `prepare_message`, or what it raises. -/
def prepareMessage (cfg : RecorderConfig) (message : Dict) : RecorderM Prepared :=
  match cfg.prepare message with
  | .ok prepared => return prepared
  | .error text => throw text

/-- `_read_pending_turn`: the events of the turn, if the turn has not been rewound. -/
def readPendingTurn (cfg : RecorderConfig) (call : Call) (epochId turnId : String) :
    RecorderM (Option (List SessionEvent)) := do
  let events ← onJournal (readEvents cfg.journal call.lock true)
  let current ← onJournal (currentEpoch cfg.journal call.lock)
  if epochId ≠ current then
    throw "Cannot retry pending messages into a different context epoch"
  else if cfg.stamp.depth = 0 ∧
      turnId ∉ (collectEpochTurns events epochId).map TurnSummary.turnId then
    return none
  else
    let r ← get
    if r.currentTurnId ≠ none ∧ r.currentTurnId ≠ some turnId then
      throw "Cannot retry pending messages during another turn"
    else return some (events.filter fun e => e.epochId = epochId ∧ e.turnId = some turnId)

/-- `_find_pending_event`. -/
def findPendingEvent (cfg : RecorderConfig) (events : List SessionEvent) (slot : Slot)
    (id : String) : Option SessionEvent :=
  events.find? fun e => e.eventType = slot.eventType ∧ e.agentId = some cfg.stamp.agentId ∧
    get? e.payload slot.idKey = some (.str id)

/-! ### Committing -/

/-- What comes back must be a message, and a batch must come back as tool results. -/
def restoreMessage (cfg : RecorderConfig) (slot : Slot) (e : SessionEvent) : RecorderM Message :=
  match get? e.payload "message" with
  | some (.obj stored) =>
    match cfg.restore stored with
    | .error text => throw text
    | .ok message =>
      if slot = .toolResults ∧
          ¬ (message.hasBlocks ∧ message.blocks.all fun b => b.asToolResult?.isSome) then
        throw "Prepared tool result event did not replay as tool results"
      else return message
  | _ => throw "'message'"

/-- The event is in the log: the message is counted once, and leaves its slot unless the caller
still has to project it. -/
def projectPending (cfg : RecorderConfig) (slot : Slot) (p : Pending) (deferProjection : Bool)
    (e : SessionEvent) : RecorderM (Option Message) := do
  modify fun r =>
    let r := if p.committed = false ∧ r.currentTurnId = some p.turnId then r.count slot else r
    r.setPending slot (some { p with committed := true })
  let message ← restoreMessage cfg slot e
  if !deferProjection then
    modify fun r => r.setPending slot none
  return some message

/-- The event is written. -/
def writePending (cfg : RecorderConfig) (call : Call) (slot : Slot) (p : Pending)
    (deferProjection : Bool) : RecorderM (Option Message) := do
  let prepared ← prepareMessage cfg p.message
  let e ← appendPrepared cfg call slot.eventType slot.actor (slot.payload p prepared.message)
    (some p.turnId) (some p.epochId) prepared.artifacts slot.eventType_ne slot.actor_ne
    (slot.canonical_payload p prepared.message_canonical) prepared.artifacts_canonical
  projectPending cfg slot p deferProjection e

/-- `_commit_pending_assistant` and `_commit_pending_tool_results`.  A retry drops a message whose
turn was rewound, and does not write one that it finds. -/
def commitPending (cfg : RecorderConfig) (call : Call) (slot : Slot)
    (retry deferProjection : Bool) : RecorderM (Option Message) := do
  let r ← get
  match r.pending slot with
  | none => throw "AssertionError"
  | some p =>
    if retry then
      match ← readPendingTurn cfg call p.epochId p.turnId with
      | none =>
        modify fun r => r.setPending slot none
        return none
      | some events =>
        match findPendingEvent cfg events slot p.id with
        | some e => projectPending cfg slot p deferProjection e
        | none => writePending cfg call slot p deferProjection
    else writePending cfg call slot p deferProjection

/-- A message is put into its slot and committed. -/
def record (cfg : RecorderConfig) (call : Call) (slot : Slot) (id : String) (message : Dict)
    (reasoningEffort : Option String) (deferProjection : Bool) : RecorderM (Option Message) := do
  requireSettledContext
  let turnId ← requireTurn
  let epochId ← onJournal (currentEpoch cfg.journal call.lock)
  modify fun r => r.setPending slot (some {
    id := id
    epochId := epochId
    turnId := turnId
    message := message
    reasoningEffort := reasoningEffort })
  commitPending cfg call slot false deferProjection

/-- `record_assistant`, with the message's `to_dict()`. -/
def recordAssistant (cfg : RecorderConfig) (call : Call) (messageId : String) (message : Dict)
    (reasoningEffort : Option String) (deferProjection : Bool) : RecorderM (Option Message) :=
  record cfg call .assistant messageId message reasoningEffort deferProjection

/-- `record_tool_results`, with the `to_dict()` of the user message of the results. -/
def recordToolResults (cfg : RecorderConfig) (call : Call) (batchId : String) (message : Dict)
    (deferProjection : Bool) : RecorderM (Option Message) :=
  record cfg call .toolResults batchId message none deferProjection

/-- `retry_pending_assistant` and `retry_pending_tool_results`. -/
def retryPending (cfg : RecorderConfig) (call : Call) (slot : Slot) (deferProjection : Bool) :
    RecorderM (Option Message) := do
  let r ← get
  match r.pending slot with
  | none => return none
  | some _ => commitPending cfg call slot true deferProjection

def retryPendingAssistant (cfg : RecorderConfig) (call : Call) (deferProjection : Bool) :
    RecorderM (Option Message) :=
  retryPending cfg call .assistant deferProjection

def retryPendingToolResults (cfg : RecorderConfig) (call : Call) (deferProjection : Bool) :
    RecorderM (Option Message) :=
  retryPending cfg call .toolResults deferProjection

/-- What an acknowledgement before the commit is refused with. -/
def Slot.unacknowledged : Slot → String
  | .assistant => "Cannot acknowledge an assistant message before its commit"
  | .toolResults => "Cannot acknowledge tool results before their commit"

/-- `acknowledge_assistant` and `acknowledge_tool_results`. -/
def acknowledge (slot : Slot) : RecorderM Unit := do
  let r ← get
  match r.pending slot with
  | none => throw slot.unacknowledged
  | some p =>
    if p.committed then set (r.setPending slot none)
    else throw slot.unacknowledged

def acknowledgeAssistant : RecorderM Unit := acknowledge .assistant

def acknowledgeToolResults : RecorderM Unit := acknowledge .toolResults

/-! ### Turns -/

/-- `_open_turn_locked`. -/
def openTurn (cfg : RecorderConfig) (call : Call) (turnId actor : String) (payload : Dict)
    (artifacts : List Dict) (hactor : actor ≠ "") (hpayload : Json.Canonical (.obj payload))
    (hartifacts : ∀ ref ∈ artifacts, Json.Canonical (.obj ref)) : RecorderM String := do
  let e ← appendPrepared cfg call "turn.started" actor payload (some turnId) none artifacts
    (by decide) hactor hpayload hartifacts
  modify fun r => { r with
    currentTurnId := some turnId
    turnStartedAt := some e.timestamp
    assistantCount := 0
    toolBatches := 0 }
  return turnId

/-- No turn is open. -/
def requireNoTurn (text : String) : RecorderM Unit := do
  let r ← get
  if r.currentTurnId.isSome then throw text else return ()

/-- `start_turn`. -/
def startTurn (cfg : RecorderConfig) (call : Call) (turnId : String) (message : Dict) :
    RecorderM String := do
  requireSettledContext
  requireNoTurn "Cannot start a session turn while another turn is open"
  let prepared ← prepareMessage cfg message
  openTurn cfg call turnId "user" [("message", .obj prepared.message)] prepared.artifacts
    (by decide) ⟨by simp, prepared.message_canonical, trivial⟩ prepared.artifacts_canonical

/-- `start_continuation_turn`. -/
def startContinuationTurn (cfg : RecorderConfig) (call : Call) (turnId : String) :
    RecorderM String := do
  requireSettledContext
  requireNoTurn "Cannot start a session turn while another turn is open"
  openTurn cfg call turnId "system" [("continuation", .bool true)] [] (by decide)
    ⟨by simp, trivial, trivial⟩ (by simp)

/-- `retry_pending_turn_terminal`. -/
def retryPendingTurnTerminal (cfg : RecorderConfig) (call : Call) : RecorderM Unit := do
  let r ← get
  match r.pendingTurnTerminal with
  | none => return ()
  | some p =>
    match ← readPendingTurn cfg call p.epochId p.turnId with
    | none => pure ()
    | some events =>
      if events.any fun e =>
          (terminalStatus e.eventType).isSome && e.agentId = some cfg.stamp.agentId then
        pure ()
      else
        let _ ← appendPrepared cfg call p.ending.eventType "system" p.payload (some p.turnId)
          (some p.epochId) [] (by cases p.ending <;> decide) (by decide) p.payload_canonical
          (by simp)
    modify fun r => { r with pendingTurnTerminal := none }
    modify fun r =>
      if r.currentTurnId = some p.turnId then
        { r with currentTurnId := none, turnStartedAt := none }
      else r

/-- `value[:2000]`. -/
def truncateError (error : String) : String := String.ofList (error.toList.take 2000)

/-- The payload of the end of a turn; `durationMs` is there unless the start's time cannot be
read. -/
def terminalPayload (r : Recorder) (durationMs : Option Nat) (error reason : Option String) :
    Dict :=
  [("assistant_messages", .int r.assistantCount), ("tool_result_batches", .int r.toolBatches)] ++
  (match r.turnStartedAt with
    | none => []
    | some started => ("started_at", .str started) ::
      (match durationMs with
        | none => []
        | some ms => [("duration_ms", .int ms)])) ++
  (match error.filter (· ≠ "") with
    | none => []
    | some error => [("error", .str (truncateError error))]) ++
  (match reason.filter (· ≠ "") with
    | none => []
    | some reason => [("reason", .str reason)])

theorem canonical_terminalPayload (r : Recorder) (durationMs : Option Nat)
    (error reason : Option String) :
    Json.Canonical (.obj (terminalPayload r durationMs error reason)) := by
  rw [terminalPayload.eq_def]
  cases r.turnStartedAt <;> cases durationMs <;> cases error.filter (· ≠ "") <;>
    cases reason.filter (· ≠ "") <;> simp [Json.Canonical, Json.CanonicalFields]

/-- `finish_turn`.  A terminal that is still unsettled is retried in place of a new one. -/
def finishTurn (cfg : RecorderConfig) (call : Call) (ending : Ending) (durationMs : Option Nat)
    (error reason : Option String) : RecorderM Unit := do
  let r ← get
  if r.pendingTurnTerminal.isSome then retryPendingTurnTerminal cfg call
  else
    let turnId ← requireTurn
    let epochId ← onJournal (currentEpoch cfg.journal call.lock)
    modify fun r' => { r' with pendingTurnTerminal := some {
      epochId := epochId
      turnId := turnId
      ending := ending
      payload := terminalPayload r durationMs error reason
      payload_canonical := canonical_terminalPayload r durationMs error reason } }
    retryPendingTurnTerminal cfg call

/-! ### Other context events -/

/-- An event of the open turn, or of none, that is written at once. -/
def appendContext (cfg : RecorderConfig) (call : Call) (eventType actor : String)
    (payload : Dict) (artifacts : List Dict) (htype : eventType ≠ "") (hactor : actor ≠ "")
    (hpayload : Json.Canonical (.obj payload))
    (hartifacts : ∀ ref ∈ artifacts, Json.Canonical (.obj ref)) : RecorderM Unit := do
  let r ← get
  let _ ← appendPrepared cfg call eventType actor payload r.currentTurnId none artifacts htype
    hactor hpayload hartifacts

/-- `record_context_message`, for the message's role or another actor. -/
def recordContextMessage (cfg : RecorderConfig) (call : Call) (message : Dict) (actor : String)
    (hactor : actor ≠ "") : RecorderM Unit := do
  requireSettledContext
  let prepared ← prepareMessage cfg message
  appendContext cfg call "context.message" actor [("message", .obj prepared.message)]
    prepared.artifacts (by decide) hactor ⟨by simp, prepared.message_canonical, trivial⟩
    prepared.artifacts_canonical

/-- `record_compaction`, with the compaction and what is said about it. -/
def recordCompaction (cfg : RecorderConfig) (call : Call) (payload : Dict)
    (hpayload : Json.Canonical (.obj payload)) : RecorderM Unit := do
  requireSettledContext
  appendContext cfg call "context.compacted" "system" payload [] (by decide) (by decide) hpayload
    (by simp)

end KolegaCode.Session
