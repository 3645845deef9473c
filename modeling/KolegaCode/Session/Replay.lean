import KolegaCode.Session.Journal

/-!
# Session — replay

The two folds that interpret a log: `replay` rebuilds the conversation and the compaction state,
`collectEpochTurns` lists the turns of an epoch.  Both skip the events of subagents, and both
interpret a `context.rewound` event by dropping what has its boundary's number or a higher one.

`hydrate` is the journal's `hydrate_message`, which reads artifacts and may raise; without
hydration it returns the message.
-/

namespace KolegaCode.Session

open Json (Dict get?)

/-! ### Archived completions -/

/-- The sets `archived_background_completion_ids` collects. -/
structure ArchiveState where
  archived : List String := []
  submitted : List String := []
  inserted : List String := []
  workspace : String := ""

/-- `str(payload["completion_id"])`. -/
def completionId (payload : Dict) : Except String String :=
  match get? payload "completion_id" with
  | some v => .ok (strOf v)
  | none => .error "'completion_id'"

/-- `str(payload.get("metadata", {}).get("project_path", ""))`. -/
def projectPath (payload : Dict) : Except String String :=
  match (get? payload "metadata").getD (.obj []) with
  | .obj metadata => .ok (strOf ((get? metadata "project_path").getD (.str "")))
  | _ => .error "object has no attribute 'get'"

def archiveStep (s : ArchiveState) (e : SessionEvent) : Except String ArchiveState :=
  if e.sub then .ok s
  else if e.eventType = "context.epoch_started" then .ok {}
  else if e.eventType = "background.job.submitted" then do
    let id ← completionId e.payload
    let path ← projectPath e.payload
    let elsewhere := s.workspace ≠ "" ∧ path ≠ "" ∧ path ≠ s.workspace
    return { s with
      submitted := id :: s.submitted
      archived := if elsewhere then id :: s.archived else s.archived }
  else if e.eventType = "context.message" ∧ ((get? e.payload "completion_id").any truthy) then do
    let id ← completionId e.payload
    return { s with
      inserted := id :: s.inserted
      archived := if (get? e.payload "archived").any truthy then id :: s.archived
        else s.archived }
  else if e.eventType = "context.message_archived" then do
    let id ← completionId e.payload
    return { s with archived := id :: s.archived }
  else if e.eventType = "session.workspace_switched" then
    .ok { s with
      workspace := strOf ((get? e.payload "new_root").getD (.str ""))
      archived := (s.submitted.filter (· ∉ s.inserted)) ++ s.archived }
  else .ok s

/-- `archived_background_completion_ids`. -/
def archivedBackgroundCompletionIds (events : List SessionEvent) : Except String (List String) := do
  let s ← events.foldlM archiveStep {}
  return s.archived

/-! ### Conversation and compaction -/

/-- The messages and compactions with the numbers of their events, and the epoch they belong to. -/
structure ReplayState where
  messages : List (Int × Dict) := []
  compactions : List (Int × Dict) := []
  currentEpoch : Option String := none
  epochStartSeq : Int := 0

def messageEvents : List String :=
  ["turn.started", "assistant.message", "tool.results", "context.message"]

/-- `event.payload.get("completion_id") in archived`. -/
def isArchived (archived : List String) (e : SessionEvent) : Bool :=
  match get? e.payload "completion_id" with
  | some (.str id) => id ∈ archived
  | _ => false

/-- `event.payload.get("boundary_seq")`, if it is an integer. -/
def boundarySeq? (e : SessionEvent) : Option Int := (get? e.payload "boundary_seq").bind asInt?

/-- A message event. -/
def replayMessage (hydrate : Dict → Except String Dict) (archived : List String) (s : ReplayState)
    (e : SessionEvent) : Except String ReplayState :=
  if e.eventType = "context.message" ∧ isArchived archived e then .ok s
  else if e.eventType = "turn.started" ∧ (get? e.payload "continuation").any truthy then .ok s
  else
    match get? e.payload "message" with
    | some (.obj message) => do
      let message ← hydrate message
      return { s with messages := s.messages ++ [(e.seq, message)] }
    | _ => .error s!"Session event {e.seq} is missing a message"

def replayCompaction (s : ReplayState) (e : SessionEvent) : Except String ReplayState :=
  match get? e.payload "compaction" with
  | some (.obj value) => .ok { s with compactions := s.compactions ++ [(e.seq, value)] }
  | _ => .error s!"Session compaction event {e.seq} is invalid"

/-- The state without what has the boundary's number or a higher one. -/
def ReplayState.cut (s : ReplayState) (boundary : Int) : ReplayState :=
  { s with
    messages := s.messages.filter fun p => p.1 < boundary
    compactions := s.compactions.filter fun p => p.1 < boundary }

@[simp] theorem ReplayState.cut_currentEpoch (s : ReplayState) (boundary : Int) :
    (s.cut boundary).currentEpoch = s.currentEpoch := rfl

@[simp] theorem ReplayState.cut_epochStartSeq (s : ReplayState) (boundary : Int) :
    (s.cut boundary).epochStartSeq = s.epochStartSeq := rfl

def replayRewind (s : ReplayState) (e : SessionEvent) : Except String ReplayState :=
  match boundarySeq? e with
  | some boundary =>
    if boundary ≤ s.epochStartSeq then
      .error s!"Session rewind event {e.seq} has an invalid boundary"
    else .ok (s.cut boundary)
  | none => .error s!"Session rewind event {e.seq} has an invalid boundary"

def replayStep (hydrate : Dict → Except String Dict) (archived : List String) (s : ReplayState)
    (e : SessionEvent) : Except String ReplayState :=
  if e.sub then .ok s
  else if e.eventType = "context.epoch_started" then
    .ok { currentEpoch := some e.epochId, epochStartSeq := e.seq }
  else if s.currentEpoch ≠ some e.epochId then .ok s
  else if e.eventType ∈ messageEvents then replayMessage hydrate archived s e
  else if e.eventType = "context.compacted" then replayCompaction s e
  else if e.eventType = "context.rewound" then replayRewind s e
  else .ok s

/-- The state `_replay` reaches. -/
def replayState (hydrate : Dict → Except String Dict) (events : List SessionEvent) :
    Except String ReplayState := do
  let archived ← archivedBackgroundCompletionIds events
  events.foldlM (replayStep hydrate archived) {}

/-- The history and the compaction of a state. -/
def ReplayState.result (s : ReplayState) : List Dict × Dict :=
  (s.messages.map Prod.snd, ((s.compactions.getLast?).map Prod.snd).getD [])

/-- `_replay`. -/
def replay (hydrate : Dict → Except String Dict) (events : List SessionEvent) :
    Except String (List Dict × Dict) :=
  (replayState hydrate events).map ReplayState.result

/-! ### Turns -/

inductive TurnStatus where
  | open
  | completed
  | failed
  | cancelled
deriving Repr, DecidableEq

structure TurnSummary where
  turnId : String
  boundarySeq : Int
  startedAt : String
  status : TurnStatus
  userText : String
deriving Repr, DecidableEq

/-- The status a terminal event gives its turn. -/
def terminalStatus : String → Option TurnStatus
  | "turn.completed" => some .completed
  | "turn.failed" => some .failed
  | "turn.cancelled" => some .cancelled
  | _ => none

/-- `_message_blocks`. -/
def messageBlocks (message : Dict) : List Dict :=
  match get? message "content" with
  | some (.arr xs) => xs.filterMap asDict?
  | _ => []

/-- `_turn_user_text`. -/
def turnUserText (message : Option Json) : String :=
  match message with
  | some (.obj message) =>
    match get? message "content" with
    | some (.str s) => s
    | _ =>
      let texts := (messageBlocks message).filter fun block => get? block "type" = some (.str "text")
      let parts := texts.map fun block =>
        match (get? block "text").filter truthy with
        | some v => strOf v
        | none => ""
      "\n".intercalate (parts.filter (· ≠ ""))
  | _ => ""

/-- The last turn with this id gets a status. -/
def settleLast (turnId : Option String) (status : TurnStatus) :
    List TurnSummary → List TurnSummary
  | [] => []
  | turn :: turns =>
    if turns.any (fun later => some later.turnId = turnId) then
      turn :: settleLast turnId status turns
    else if some turn.turnId = turnId then { turn with status := status } :: turns
    else turn :: turns

def turnStep (epochId : String) (turns : List TurnSummary) (e : SessionEvent) :
    List TurnSummary :=
  if e.epochId ≠ epochId then turns
  else if e.sub then turns
  else if e.eventType = "turn.started" then
    turns ++ [{
      turnId := e.turnId.getD ""
      boundarySeq := e.seq
      startedAt := e.timestamp
      status := .open
      userText := turnUserText (get? e.payload "message") }]
  else
    match terminalStatus e.eventType with
    | some status => settleLast e.turnId status turns
    | none =>
      if e.eventType = "context.rewound" then
        match boundarySeq? e with
        | some boundary => turns.filter fun turn => turn.boundarySeq < boundary
        | none => turns
      else turns

/-- `collect_epoch_turns`. -/
def collectEpochTurns (events : List SessionEvent) (epochId : String) : List TurnSummary :=
  events.foldl (turnStep epochId) []

/-! ### Rewinding -/

/-- What `record_rewind` appends: the boundary of the target turn, and the turns from it on. -/
def rewindPayload (events : List SessionEvent) (epochId targetTurnId : String) :
    Except String Dict :=
  let turns := collectEpochTurns events epochId
  match turns.find? fun turn => turn.turnId = targetTurnId with
  | none => .error s!"Turn {targetTurnId} is not rewindable in the current context epoch"
  | some target =>
    let rewound := turns.filter fun turn => target.boundarySeq ≤ turn.boundarySeq
    .ok [("target_turn_id", .str target.turnId),
      ("boundary_seq", .int target.boundarySeq),
      ("rewound_turn_ids", .arr (rewound.map fun turn => .str turn.turnId))]

end KolegaCode.Session
