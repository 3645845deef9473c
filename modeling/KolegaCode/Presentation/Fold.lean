import KolegaCode.Presentation.State

/-!
# Presentation — the projection of the web client

The same rule in JavaScript, for texts whose characters are one UTF-16 unit each.  A value is
converted the way JavaScript does it, and an object is also looked up on `Object.prototype`.
-/

namespace KolegaCode.Presentation.Fold

open Json (Dict get?)
open Recording (AgentEvent)

structure WebState extends View where
  terminal : String := ""

/-! ### JavaScript values -/

/-- `Boolean(value)`. -/
def truthy : Json → Bool
  | .null => false
  | .bool b => b
  | .int n => n ≠ 0
  | .float repr => repr ≠ "0.0" && repr ≠ "-0.0"
  | .str s => s ≠ ""
  | .arr _ => true
  | .obj _ => true

/-- `String(value)`; a list is shown as its JSON text. -/
def string : Json → String
  | .null => "null"
  | .bool b => if b then "true" else "false"
  | .int n => toString n
  | .float repr => repr
  | .str s => s
  | .arr xs => String.ofList (Json.dumps (.arr xs))
  | .obj _ => "[object Object]"

/-- `a || b`. -/
def orElse (a b : Option Json) : Option Json := if a.any truthy then a else b

/-- `String(value || default)`. -/
def strOr (value : Option Json) (default : String) : String :=
  match orElse value none with
  | some v => string v
  | none => default

/-- The names every object inherits. -/
def OBJECT_PROTOTYPE : List String :=
  ["constructor", "__defineGetter__", "__defineSetter__", "hasOwnProperty", "__lookupGetter__",
   "__lookupSetter__", "isPrototypeOf", "propertyIsEnumerable", "toString", "valueOf", "__proto__",
   "toLocaleString"]

/-- `table[name]`; what is inherited is shown as a text. -/
def lookup (table : Assoc String String) (name : String) : Option String :=
  match table.get? name with
  | some value => some value
  | none => if name ∈ OBJECT_PROTOTYPE then some "function" else none

/-- `Object.assign({}, d)`; writing `__proto__` makes no member. -/
def assign (d : Dict) : Dict := d.filter fun p => p.1 ≠ "__proto__"

/-! ### Helpers -/

def subAgentKey (event : AgentEvent) : Option String :=
  event.subAgentInfo.map fun info =>
    strOr (orElse (orElse (get? info "dispatch_id") (get? info "agent_id"))
      (get? info "agent_name")) "sub-agent"

def subAgent (v : View) (key : String) (event : AgentEvent) : View :=
  match v.subAgents.get? key with
  | some _ => v
  | none =>
    let info := event.subAgentInfo.getD []
    { v with
      subAgents := v.subAgents.set key
        { key := key
          name := strOr (get? info "agent_name") key
          task := strOr (get? info "task") ""
          label := strOr (get? info "label") ""
          phase := strOr (get? info "phase") ""
          workflowRunId := strOr (get? info "workflow_run_id") "" } }

/-- The activity of a sub-agent, created where it is missing and then changed. -/
def updateSubAgent (v : View) (key : String) (event : AgentEvent)
    (f : SubAgentActivity → SubAgentActivity) : View :=
  let v := subAgent v key event
  match v.subAgents.get? key with
  | some activity => { v with subAgents := v.subAgents.set key (f activity) }
  | none => v

def append (v : View) (item : ConversationItem) (event : AgentEvent) : View :=
  let item := { item with seq := event.seq, elapsedMs := event.elapsedMs }
  match subAgentKey event with
  | some key =>
    let item := { item with subAgent := some key }
    updateSubAgent v key event fun activity =>
      { activity with
        steps := activity.steps ++ [item]
        lastText := if item.text ≠ "" then item.text else activity.lastText }
  | none => { v with conversation := v.conversation ++ [item] }

def textOf (event : AgentEvent) (keys : List String) : String :=
  (keys.findSome? fun key =>
    match get? event.content key with
    | some (.str value) => if value ≠ "" then some value else none
    | _ => none).getD ""

def stringContent (event : AgentEvent) (key : String) : String :=
  match get? event.content key with
  | some (.str value) => value
  | _ => ""

/-- `String(event.content[key] || default)`. -/
def contentStr (event : AgentEvent) (key default : String) : String :=
  strOr (get? event.content key) default

/-- `value || null`. -/
def orNull (value : String) : Option String := if value ≠ "" then some value else none

def indexOf (v : View) (event : AgentEvent) : Nat := (v.items (subAgentKey event)).length - 1

def resolve (v : View) (event : AgentEvent) (index : Nat) : Option ConversationItem :=
  (v.items (subAgentKey event))[index]?

/-! ### Handlers -/

def onAssistantDelta (kind : String) (v : View) (event : AgentEvent) : View :=
  let text := textOf event ["text"]
  let complete := (get? event.content "complete").any truthy
  let streamKey := kind ++ ":" ++ (subAgentKey event).getD "" ++ ":" ++ event.uuid
  match (v.streams.get? streamKey).bind fun index => (resolve v event index).map (index, ·) with
  | none =>
    if text = "" then v
    else
      let v := append v { kind := kind, text := text, complete := complete,
                          streamId := some event.uuid } event
      let v := { v with streams := v.streams.set streamKey (indexOf v event) }
      if complete then { v with streams := v.streams.erase streamKey } else v
  | some (index, _) =>
    let v := v.modifyItem (subAgentKey event) index fun target =>
      { target with text := target.text ++ text, complete := complete }
    if complete then { v with streams := v.streams.erase streamKey } else v

def toolSubjectOf (event : AgentEvent) : Option String :=
  match get? event.content "tool_subject" with
  | some (.str subject) => orNull subject
  | _ => none

def toolKey (event : AgentEvent) (toolCallId : String) : String :=
  (subAgentKey event).getD "" ++ ":" ++ toolCallId

def TOOL_STATUS : Assoc String String :=
  [("tool_call", "running"), ("tool_result", "done"), ("tool_error", "failed")]

def SUB_AGENT_LIFECYCLE : Assoc String String := [("STOPPED", "completed"), ("ERROR", "failed")]

def WORKFLOW_TONES : Assoc String String :=
  [("workflow_start", "start"), ("workflow_phase", "phase"), ("workflow_end", "end")]

def onToolMessage (v : View) (event : AgentEvent) (status : String) : View :=
  let toolCallId := contentStr event "tool_call_id" ""
  let toolName := contentStr event "tool_description" ""
  let toolSubject := toolSubjectOf event
  let text := textOf event ["text"]
  let key := toolKey event toolCallId
  let index := if toolCallId ≠ "" then v.tools.get? key else none
  let existing := index.bind fun index => (resolve v event index).map (index, ·)
  match existing.filter fun found => found.2.kind = "tool" with
  | some (index, _) =>
    let v := v.modifyItem (subAgentKey event) index fun existing =>
      { existing with
        status := some status
        toolName := some (((existing.toolName.bind orNull)).getD toolName)
        toolSubject := toolSubject.or existing.toolSubject
        text := if text ≠ "" then text else existing.text
        artifacts := if event.artifacts ≠ [] then event.artifacts else existing.artifacts }
    if status ≠ "running" then { v with tools := v.tools.erase key } else v
  | none =>
    let v := append v
      { kind := "tool", text := text, toolName := some toolName, toolSubject := toolSubject
        toolCallId := orNull toolCallId, status := some status
        artifacts := event.artifacts } event
    let v :=
      if toolCallId ≠ "" ∧ status = "running" then
        { v with tools := v.tools.set key (indexOf v event) }
      else v
    { v with activity := "running_tool" }

def onWorkflowMessage (v : View) (event : AgentEvent) (messageType tone : String) : View :=
  let item (text : String) (status : Option String) : ConversationItem :=
    { kind := "workflow", text := text, tone := some tone, status := status
      toolCallId := orNull (contentStr event "workflow_run_id" "") }
  if messageType = "workflow_start" then
    let name := contentStr event "name" "workflow"
    let description := contentStr event "description" ""
    let text := if description ≠ "" then name ++ " — " ++ description else name
    append v (item text (some "running")) event
  else if messageType = "workflow_end" then
    let status := contentStr event "status" "completed"
    let error := contentStr event "error" ""
    let text := if error ≠ "" then status ++ ": " ++ error else status
    append v (item text (some status)) event
  else
    let text := textOf event ["text"]
    if text = "" then v else append v (item text none) event

def onChatMessage (v : View) (event : AgentEvent) : View :=
  let messageType := contentStr event "message_type" "message"
  match lookup TOOL_STATUS messageType with
  | some status => onToolMessage v event status
  | none =>
    match lookup WORKFLOW_TONES messageType with
    | some tone => onWorkflowMessage v event messageType tone
    | none =>
      let lifecycle := (get? event.content "status").filter (· ≠ .null)
      match lifecycle, subAgentKey event with
      | some lifecycle, some key =>
        updateSubAgent v key event fun activity =>
          { activity with
            status := ((lookup SUB_AGENT_LIFECYCLE (string lifecycle)).bind orNull).getD "running" }
      | _, _ =>
        let text := textOf event ["text"]
        if text = "" then v
        else
          append v
            { kind := if messageType = "message" then "assistant" else "system", text := text
              artifacts := event.artifacts } event

def onToolStreamingUpdate (v : View) (event : AgentEvent) : View :=
  let toolCallId := contentStr event "tool_call_id" ""
  let toolSubject := toolSubjectOf event
  let key := toolKey event toolCallId
  let text := textOf event ["text"]
  match (v.tools.get? key).bind fun index => (resolve v event index).map (index, ·) with
  | none =>
    let v := append v
      { kind := "tool", text := text, toolName := some (contentStr event "tool_name" "")
        toolSubject := toolSubject, toolCallId := orNull toolCallId
        status := some "running" } event
    if toolCallId ≠ "" then { v with tools := v.tools.set key (indexOf v event) } else v
  | some (index, _) =>
    v.modifyItem (subAgentKey event) index fun target =>
      { target with
        toolSubject := toolSubject.or target.toolSubject
        text := if contentStr event "stream_mode" "" = "replace" then text else target.text ++ text
        status :=
          if (get? event.content "is_complete").any truthy then some "done" else target.status }

/-! ### The terminal -/

/-- The text is cut at the front once it is too long. -/
def appendTerminal (s : WebState) (text : String) : WebState :=
  if text = "" then s
  else
    let combined := s.terminal ++ text
    if combined.length > TERMINAL_BUFFER_CHARS then
      { s with
        terminal := String.ofList (combined.toList.drop (combined.length - TERMINAL_BUFFER_CHARS))
        terminalTruncated := true }
    else { s with terminal := combined }

def onTerminalCommand (s : WebState) (event : AgentEvent) : WebState :=
  let command := textOf event ["command"]
  let s := if command ≠ "" then appendTerminal s ("$ " ++ command ++ "\n") else s
  { s with activity := "running_tool" }

def onTerminalOutput (s : WebState) (event : AgentEvent) : WebState :=
  appendTerminal s (textOf event ["display_output", "output"])

/-! ### Logs, previews and status lines -/

def onLogMessage (v : View) (event : AgentEvent) : View :=
  let text := textOf event ["text", "message"]
  if text = "" then v
  else
    let logs := v.logs ++ [(contentStr event "level" "info", text)]
    { v with logs := logs.drop (logs.length - LOG_BUFFER_LINES) }

def seqJson (event : AgentEvent) : Json := Presentation.orNull .int event.seq

def onFileEditPreview (v : View) (event : AgentEvent) : View :=
  let preview := Json.set (Json.set (assign event.content) "seq" (seqJson event)) "elapsed_ms"
    (.int event.elapsedMs)
  let preview :=
    match subAgentKey event with
    | some key => Json.set preview "sub_agent" (.str key)
    | none => preview
  let v := { v with editPreviews := v.editPreviews ++ [preview] }
  let toolCallId := contentStr event "tool_call_id" ""
  if toolCallId = "" then v
  else
    match v.tools.get? (toolKey event toolCallId) with
    | some index =>
      v.modifyItem (subAgentKey event) index fun target => { target with editPreview := some preview }
    | none => v

/-- `Number(value)`, where a text that is no integer and a list or an object are not a number. -/
def number : Json → Json
  | .null => .int 0
  | .bool b => .int (if b then 1 else 0)
  | .int n => .int n
  | .float repr => .float repr
  | .str s =>
    match s.toInt? with
    | some n => .int n
    | none => .float "nan"
  | _ => .float "nan"

/-- `Number(content[key] || 0)`. -/
def contentNumber (event : AgentEvent) (key : String) : Json :=
  number ((orElse (get? event.content key) none).getD (.int 0))

def onContextUpdate (v : View) (event : AgentEvent) : View :=
  match subAgentKey event with
  | some key =>
    updateSubAgent v key event fun activity =>
      { activity with context := some (assign event.content) }
  | none =>
    { v with
      context := some
        { inputTokens := contentNumber event "input_tokens"
          maxTokens := contentNumber event "max_tokens"
          usagePercentage := contentNumber event "usage_percentage"
          alertLevel := contentStr event "alert_level" ""
          message := (get? event.content "message").getD .null
          willCompressAt := contentNumber event "will_compress_at" } }

def onCompactionStatus (v : View) (event : AgentEvent) : View :=
  if (subAgentKey event).isSome then v else { v with compaction := some (assign event.content) }

def onStatusUpdate (v : View) (event : AgentEvent) : View :=
  let text := textOf event ["message", "status", "text"]
  match subAgentKey event with
  | some key =>
    updateSubAgent v key event fun activity =>
      { activity with notice := if text ≠ "" then text else activity.notice }
  | none => { v with status := if text ≠ "" then text else v.status }

/-! ### Peer messages and turns -/

def peerDisplayText (sender body : String) : String :=
  if body ≠ "" then "← " ++ sender ++ "\n" ++ body else "← " ++ sender

/-- What an arrival or a delivery adds to the record of its message. -/
def mergePeerMessage (record : PeerMessageRecord) (event : AgentEvent) (status : String) :
    PeerMessageRecord :=
  let senderId := stringContent event "sender_id"
  let senderTitle := stringContent event "sender_title"
  let body := textOf event ["text"]
  { record with
    senderId := if senderId ≠ "" then senderId else record.senderId
    sender :=
      if senderTitle ≠ "" then senderTitle
      else if senderId ≠ "" ∧ record.sender = "peer" then senderId
      else record.sender
    body := if body ≠ "" then body else record.body
    delivered := record.delivered || status = "delivered" }

/-- A peer message that no item shows yet. -/
def addPeerMessage (v : View) (event : AgentEvent) (messageId status : String) : View :=
  let senderId := stringContent event "sender_id"
  let senderTitle := stringContent event "sender_title"
  let body := textOf event ["text"]
  let sender := ((orNull senderTitle).or (orNull senderId)).getD "peer"
  let v := { v with
    conversation := v.conversation ++
      [{ kind := "peer_message", text := peerDisplayText sender body, toolName := some sender
         toolCallId := orNull messageId, status := some status, seq := event.seq
         elapsedMs := event.elapsedMs }] }
  if messageId = "" then v
  else
    { v with
      peerMessages := v.peerMessages.set messageId
        { index := v.conversation.length - 1, senderId := senderId, sender := sender, body := body
          delivered := status = "delivered" }
      pendingPeerTurns :=
        if status = "delivered" then v.pendingPeerTurns ++ [messageId] else v.pendingPeerTurns }

def onPeerMessage (status : String) (v : View) (event : AgentEvent) : View :=
  let messageId := stringContent event "message_id"
  match if messageId ≠ "" then v.peerMessages.get? messageId else none with
  | none => addPeerMessage v event messageId status
  | some known =>
    let record := mergePeerMessage known event status
    let v := { v with peerMessages := v.peerMessages.set messageId record }
    match v.conversation[record.index]?.filter fun existing => existing.kind = "peer_message" with
    | none => addPeerMessage v event messageId status
    | some _ =>
      let v := v.modifyItem none record.index fun existing =>
        { existing with
          text := peerDisplayText record.sender record.body
          toolName := some record.sender
          status := some (if record.delivered then "delivered" else "received") }
      if record.delivered && !known.delivered then
        { v with pendingPeerTurns := v.pendingPeerTurns ++ [messageId] }
      else v

def wrapsPeerMessage (record : PeerMessageRecord) (userText : String) : Bool :=
  let short := String.ofList (record.senderId.toList.take 8)
  let start := "[Peer message from session '" ++ record.sender ++ "' (id " ++ short ++ ")]"
  start.toList.isPrefixOf userText.toList && ("\n\n" ++ record.body).toList.isSuffixOf userText.toList

/-- The pending turns without the one that matches, and its text. -/
def consumePeerTurn (records : Assoc String PeerMessageRecord) (userText : String) :
    List String → Option (List String × String)
  | [] => none
  | messageId :: pending =>
    match (records.get? messageId).filter fun record =>
        record.senderId ≠ "" ∧ record.body ≠ "" ∧ wrapsPeerMessage record userText with
    | some record => some (pending, peerDisplayText record.sender record.body)
    | none =>
      (consumePeerTurn records userText pending).map fun p => (messageId :: p.1, p.2)

def onTurnStarted (v : View) (event : AgentEvent) : View :=
  let turnId := contentStr event "turn_id" ""
  let userText := contentStr event "user_text" ""
  let item : ConversationItem := { kind := "user", text := userText }
  match subAgentKey event with
  | some _ => if userText ≠ "" then append v item event else v
  | none =>
    let peerTurn := consumePeerTurn v.peerMessages userText v.pendingPeerTurns
    let v := { v with
      pendingPeerTurns := (peerTurn.map Prod.fst).getD v.pendingPeerTurns
      turns := v.turns ++
        [{ turnId := turnId, userText := ((peerTurn.map Prod.snd).bind orNull).getD userText
           startedSeq := event.seq, startedMs := event.elapsedMs }]
      activity := "generating" }
    if peerTurn.isSome then v
    else if userText ≠ "" then append v item event
    else v

/-- The loop from the last index down, which stops at the first element the test finds. -/
def updateLast {α : Type} (test : α → Bool) (f : α → α) (xs : List α) : List α :=
  match xs.reverse.findIdx? test with
  | some i => xs.modify (xs.length - 1 - i) f
  | none => xs

def onTurnEnded (v : View) (event : AgentEvent) : View :=
  if (subAgentKey event).isSome then v
  else
    let turnId := contentStr event "turn_id" ""
    let status := contentStr event "status" "completed"
    { v with
      turns := updateLast (fun marker => marker.turnId = turnId)
        (fun marker => { marker with status := status, endedMs := some event.elapsedMs }) v.turns
      activity := "idle" }

/-! ### Browsers, prompts and notices -/

def onBrowserLaunched (v : View) (event : AgentEvent) : View :=
  let id := contentStr event "browser_id" ""
  if id ≠ "" then { v with openBrowsers := addTo v.openBrowsers id } else v

def onBrowserClosed (v : View) (event : AgentEvent) : View :=
  { v with openBrowsers := v.openBrowsers.filter (· ≠ contentStr event "browser_id" "") }

def onStreamTruncated (v : View) (event : AgentEvent) : View :=
  append { v with recordingTruncated := true }
    { kind := "system"
      text := "Recording stopped here because this session reached its retention limit."
      tone := some "warning" } event

/-- The members of the elements of a list, under their indices. -/
def indexed (xs : List Json) : Dict := xs.zipIdx.map fun p => (toString p.2, p.1)

/-- `Object.assign({}, value || {})`. -/
def assignOr (value : Option Json) : Dict :=
  match orElse value none with
  | some (.obj fields) => assign fields
  | some (.arr xs) => indexed xs
  | some (.str s) => indexed (s.toList.map fun c => .str (String.ofList [c]))
  | _ => []

def onControlRequested (v : View) (event : AgentEvent) : View :=
  let requestId := contentStr event "request_id" ""
  if requestId = "" ∨ v.prompts.any (fun prompt => prompt.requestId = requestId) then v
  else
    { v with
      prompts := v.prompts ++
        [{ requestId := requestId, kind := contentStr event "kind" "prompt"
           payload := assignOr (get? event.content "payload")
           seq := event.seq, elapsedMs := event.elapsedMs }]
      activity := "waiting_for_user" }

def onControlResolved (v : View) (event : AgentEvent) : View :=
  let requestId := contentStr event "request_id" ""
  let response :=
    match get? event.content "response" with
    | some (.obj fields) => some (assign fields)
    | some (.arr xs) => some (indexed xs)
    | _ => none
  let prompts := updateLast (fun prompt => prompt.requestId = requestId)
    (fun prompt => { prompt with
      response := response, reason := some (contentStr event "reason" "answered") }) v.prompts
  { v with
    prompts := prompts
    activity :=
      if prompts.any (fun prompt => prompt.reason.isNone) then v.activity else "generating" }

def onSystemMessage (v : View) (event : AgentEvent) : View :=
  let text := textOf event ["text", "message"]
  if text ≠ "" then append v { kind := "system", text := text } event else v

def ignore (v : View) (_ : AgentEvent) : View := v

/-! ### The fold -/

abbrev Handler := WebState → AgentEvent → WebState

/-- A handler that does not touch the terminal. -/
def onView (f : View → AgentEvent → View) : Handler := fun s event =>
  { s with toView := f s.toView event }

def HANDLERS : Assoc String Handler :=
  [("assistant_delta", onView (onAssistantDelta "assistant")),
   ("thinking_delta", onView (onAssistantDelta "thinking")),
   ("chat_message", onView onChatMessage),
   ("tool_streaming_update", onView onToolStreamingUpdate),
   ("terminal_command", onTerminalCommand),
   ("terminal_output", onTerminalOutput),
   ("terminal_launched", onView ignore),
   ("terminal_closed", onView ignore),
   ("log_message", onView onLogMessage),
   ("file_edit_preview", onView onFileEditPreview),
   ("llm_context_update", onView onContextUpdate),
   ("compaction_status", onView onCompactionStatus),
   ("llm_status_update", onView onStatusUpdate),
   ("status_update", onView onStatusUpdate),
   ("credit_alert", onView onStatusUpdate),
   ("turn_started", onView onTurnStarted),
   ("turn_ended", onView onTurnEnded),
   ("browser_launched", onView onBrowserLaunched),
   ("browser_closed", onView onBrowserClosed),
   ("stream_truncated", onView onStreamTruncated),
   ("system_message", onView onSystemMessage),
   ("memory_suggestions", onView ignore),
   ("llm_error", onView ignore),
   ("llm_request", onView ignore),
   ("control_requested", onView onControlRequested),
   ("control_resolved", onView onControlResolved),
   ("peer_message_received", onView (onPeerMessage "received")),
   ("peer_message_delivered", onView (onPeerMessage "delivered"))]

/-- The order of the sequence numbers is checked and the clock advanced. -/
def advance (v : View) (event : AgentEvent) : Except String View :=
  match event.seq with
  | some seq =>
    if seq ≤ v.lastSeq then
      .error ("Event seq " ++ toString seq ++ " is not after the last applied seq " ++
        toString v.lastSeq ++ "; the projection requires ascending order")
    else .ok { v with lastSeq := seq, elapsedMs := max v.elapsedMs event.elapsedMs }
  | none => .ok { v with elapsedMs := max v.elapsedMs event.elapsedMs }

def fold (s : WebState) (event : AgentEvent) : Except String WebState := do
  let v ← advance s.toView event
  match HANDLERS.get? event.eventType with
  | some handler => return handler { s with toView := v } event
  | none =>
    return { s with
      toView := { v with unknownEventTypes := addTo v.unknownEventTypes event.eventType } }

def replay (events : List AgentEvent) : Except String WebState := events.foldlM fold {}

/-! ### The dictionary -/

/-- Members that are null are dropped. -/
def artifactDict (ref : Dict) : Dict := ref.filter fun p => p.2 ≠ .null

def itemDict (item : ConversationItem) : Dict :=
  [("kind", .str item.kind), ("text", .str item.text), ("complete", .bool item.complete),
   ("seq", Presentation.orNull .int item.seq), ("elapsed_ms", .int item.elapsedMs)] ++
  optional "stream_id" (item.streamId.map .str) ++
  optional "tool_name" (item.toolName.map .str) ++
  optional "tool_subject" (item.toolSubject.map .str) ++
  optional "tool_call_id" (item.toolCallId.map .str) ++
  optional "status" (item.status.map .str) ++
  optional "tone" (item.tone.map .str) ++
  optional "sub_agent" (item.subAgent.map .str) ++
  optional "edit_preview" (item.editPreview.map .obj) ++
  if item.artifacts ≠ [] then
    [("artifacts", .arr (item.artifacts.map fun ref => .obj (artifactDict ref)))]
  else []

def activityDict (activity : SubAgentActivity) : Dict :=
  [("key", .str activity.key), ("name", .str activity.name), ("task", .str activity.task),
   ("status", .str activity.status), ("notice", .str activity.notice),
   ("last_text", .str activity.lastText), ("context", Presentation.orNull .obj activity.context),
   ("label", .str activity.label), ("phase", .str activity.phase),
   ("workflow_run_id", .str activity.workflowRunId),
   ("steps", .arr (activity.steps.map fun step => .obj (itemDict step)))]

def turnDict (marker : TurnMarker) : Dict :=
  [("turn_id", .str marker.turnId), ("status", .str marker.status),
   ("user_text", .str marker.userText),
   ("started_seq", Presentation.orNull .int marker.startedSeq),
   ("started_ms", .int marker.startedMs), ("ended_ms", Presentation.orNull .int marker.endedMs)]

def contextDict (context : ContextStatus) : Dict :=
  [("input_tokens", context.inputTokens), ("max_tokens", context.maxTokens),
   ("usage_percentage", context.usagePercentage), ("alert_level", .str context.alertLevel),
   ("message", context.message), ("will_compress_at", context.willCompressAt)]

def promptDict (prompt : PendingPrompt) : Dict :=
  [("request_id", .str prompt.requestId), ("kind", .str prompt.kind),
   ("payload", .obj prompt.payload), ("response", Presentation.orNull .obj prompt.response),
   ("reason", Presentation.orNull .str prompt.reason), ("resolved", .bool prompt.reason.isSome),
   ("seq", Presentation.orNull .int prompt.seq), ("elapsed_ms", .int prompt.elapsedMs)]

/-- The sub-agents are members of an object, which `__proto__` cannot be. -/
def toDict (s : WebState) : Dict :=
  [("conversation", .arr (s.conversation.map fun item => .obj (itemDict item))),
   ("sub_agents", .obj (assign (s.subAgents.map fun p => (p.1, .obj (activityDict p.2))))),
   ("turns", .arr (s.turns.map fun marker => .obj (turnDict marker))),
   ("terminal", .str s.terminal),
   ("terminal_truncated", .bool s.terminalTruncated),
   ("logs", .arr (s.logs.map fun p => .obj [("level", .str p.1), ("text", .str p.2)])),
   ("edit_previews", .arr (s.editPreviews.map .obj)),
   ("context", Presentation.orNull (fun context => .obj (contextDict context)) s.context),
   ("compaction", Presentation.orNull .obj s.compaction),
   ("prompts", .arr (s.prompts.map fun prompt => .obj (promptDict prompt))),
   ("status", .str s.status),
   ("activity", .str s.activity),
   ("open_browsers", .arr ((sorted s.openBrowsers).map .str)),
   ("last_seq", .int s.lastSeq),
   ("elapsed_ms", .int s.elapsedMs),
   ("recording_truncated", .bool s.recordingTruncated),
   ("unknown_event_types", .arr ((sorted s.unknownEventTypes).map .str))]

end KolegaCode.Presentation.Fold
