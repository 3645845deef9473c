import KolegaCode.Orchestration.Journal
import KolegaCode.Hashline.Hash

/-!
# Orchestration — the calls of a workflow run

`agent()` takes a row of its content key from the cache of an earlier run, or dispatches a worker.
A call's index, the row it takes and the row it writes for it are settled in one go, before the
call waits for anything; workers return in any order.
-/

namespace KolegaCode.Orchestration

open Json (Dict get?)

/-! ### A call -/

/-- The arguments of `agent()`, a model override parsed. -/
structure AgentCall where
  prompt : String
  label : Option String
  phase : Option String
  schema : Option Json
  modelOverride : Option Dict
  agentType : Option String
  browserTarget : Option String

/-- `WorkflowScriptError`. -/
inductive ScriptError where
  /-- "agent() requires a non-empty prompt string" -/
  | emptyPrompt
  /-- "agent() browser_target must be a non-empty string when provided" -/
  | emptyBrowserTarget
  /-- "agent() browser_target is only valid with agent_type='browser'" -/
  | browserTargetElsewhere
deriving DecidableEq, Repr

/-- What a run is set up with: the routing and the limits, how an agent type is resolved, and the
hash of a payload. -/
structure Config where
  routingFingerprint : Option String
  actualAgentType : Option String → Option String
  readOnlyMode : Bool
  maxAgentDepth : Nat
  /-- `hashlib.sha1(json.dumps(payload, sort_keys=True, default=str))` -/
  digest : Dict → String
  /-- `str.lower` -/
  lower : String → String

/-- `AgentRunSpec`. -/
structure AgentRunSpec where
  prompt : String
  label : Option String
  phase : Option String
  schema : Option Json
  modelOverride : Option Dict
  agentType : Option String
  browserTarget : Option String
  routingFingerprint : Option String
  actualAgentType : Option String
  readOnlyMode : Bool
  maxAgentDepth : Nat
  callIndex : Nat

/-- What `cache_key` hashes: neither label nor phase, nor the index. -/
def AgentRunSpec.keyPayload (spec : AgentRunSpec) : Dict :=
  [("prompt", .str spec.prompt),
    ("schema", spec.schema.getD .null),
    ("model_override", (spec.modelOverride.map Json.obj).getD .null),
    ("routing_fingerprint",
      if spec.modelOverride.isNone then ofOption spec.routingFingerprint else .null),
    ("agent_type", ofOption spec.agentType),
    ("browser_target", ofOption spec.browserTarget),
    ("actual_agent_type", ofOption spec.actualAgentType),
    ("read_only_mode", .bool spec.readOnlyMode),
    ("max_agent_depth", .int spec.maxAgentDepth)]

/-- `AgentRunSpec.cache_key`. -/
def AgentRunSpec.cacheKey (c : Config) (spec : AgentRunSpec) : String := c.digest spec.keyPayload

/-- `AgentRunResult`. -/
structure AgentRunResult where
  text : Option String
  structured : Option Json
  tokens : Nat
  status : String
  error : Option String
  transcriptPath : Option String
  transcriptMarkdownPath : Option String
  requestedRouting : Json
  effectiveRouting : Json
  actualAgentType : Option String

/-- `AgentRunResult.value`. -/
def AgentRunResult.value (result : AgentRunResult) : Json :=
  if result.status ≠ "completed" then .null
  else result.structured.getD (ofOption result.text)

/-! ### The rows of a run -/

/-- The fields of a row that a replay carries on. -/
def carried (row : Dict) : Dict :=
  ["actual_agent_type", "effective_routing", "transcript_path", "transcript_markdown_path"].map
      (fun field => (field, (get? row field).getD .null)) ++
    match get? row "requested_routing" with
    | some routing => [("requested_routing", routing)]
    | none => []

/-- The row of a call that took one of an earlier run. -/
def replayedRow (index : Nat) (key : String) (spec : AgentRunSpec) (row : Dict) : Row where
  index
  key
  label := spec.label
  value := (get? row "value").getD .null
  status := "completed"
  metadata := [("replayed", .bool true), ("phase", ofOption spec.phase),
    ("agent_type", ofOption spec.agentType), ("max_agent_depth", .int spec.maxAgentDepth)] ++
      carried row
  plain := by
    intro field hfield hmem
    rw [List.map_append, List.mem_append, carried, List.map_append, List.mem_append] at hmem
    rcases hmem with hmem | hmem | hmem
    · revert field
      simp
    · revert field
      simp
    · split at hmem
      · revert field
        simp
      · exact absurd hmem List.not_mem_nil

/-- The row of a call whose worker has returned. -/
def resultRow (index : Nat) (key : String) (spec : AgentRunSpec) (result : AgentRunResult) : Row where
  index
  key
  label := spec.label
  value := result.value
  status := result.status
  metadata := [("phase", ofOption spec.phase), ("agent_type", ofOption spec.agentType),
    ("max_agent_depth", .int spec.maxAgentDepth), ("tokens", .int result.tokens),
    ("error", ofOption result.error), ("transcript_path", ofOption result.transcriptPath),
    ("transcript_markdown_path", ofOption result.transcriptMarkdownPath),
    ("requested_routing", result.requestedRouting), ("effective_routing", result.effectiveRouting),
    ("actual_agent_type", ofOption result.actualAgentType)]
  plain := by
    intro field hfield
    revert field
    simp

/-! ### A run -/

/-- What has become of a call. -/
inductive Fate where
  /-- it returned the value of this row of the cache -/
  | replayed (row : Dict)
  /-- its worker is at work -/
  | live
  | returned (result : AgentRunResult)
  /-- the budget or the cap was exceeded, or the run cancelled -/
  | raised

structure Call where
  key : String
  spec : AgentRunSpec
  fate : Fate

/-- A run: its calls by index, what is left of the cache, and the journal. -/
structure Runtime where
  calls : List Call
  cache : ResumeCache
  journal : List Row
  currentPhase : Option String

def Runtime.start (cache : ResumeCache) : Runtime := ⟨[], cache, [], none⟩

inductive Event where
  | phase (title : String)
  | agent (call : AgentCall)
  /-- the worker of a call returns -/
  | settle (index : Nat) (result : AgentRunResult)
  /-- a call ends by an exception -/
  | fail (index : Nat)

/-- The checks of `agent()`. -/
def AgentCall.check (c : Config) (call : AgentCall) : Except ScriptError Unit :=
  if call.prompt.toList.all Hashline.isSpace then .error .emptyPrompt
  else if call.browserTarget.any fun target => target.toList.all Hashline.isSpace then
    .error .emptyBrowserTarget
  else if call.browserTarget.isSome && c.lower (call.agentType.getD "") ≠ "browser" then
    .error .browserTargetElsewhere
  else .ok ()

/-- The normalised call. -/
def AgentCall.spec (c : Config) (r : Runtime) (call : AgentCall) : AgentRunSpec where
  prompt := call.prompt
  label := call.label
  phase := match call.phase with
    | some phase => if phase = "" then r.currentPhase else some phase
    | none => r.currentPhase
  schema := call.schema
  modelOverride := call.modelOverride
  agentType := call.agentType
  browserTarget := call.browserTarget
  routingFingerprint := c.routingFingerprint
  actualAgentType := c.actualAgentType call.agentType
  readOnlyMode := c.readOnlyMode
  maxAgentDepth := c.maxAgentDepth
  callIndex := r.calls.length

/-- `agent()` up to its first wait. -/
def Runtime.agent (c : Config) (r : Runtime) (call : AgentCall) : Runtime :=
  let spec := call.spec c r
  let key := spec.cacheKey c
  let (row, cache) := r.cache.take key
  match row with
  | some row =>
    { r with
      calls := r.calls ++ [⟨key, spec, .replayed row⟩]
      cache
      journal := r.journal ++ [replayedRow r.calls.length key spec row] }
  | none => { r with calls := r.calls ++ [⟨key, spec, .live⟩] }

/-- What has become of a call changes. -/
def Runtime.setFate (r : Runtime) (index : Nat) (fate : Fate) : Runtime :=
  { r with calls := r.calls.modify index fun call => { call with fate } }

/-- One step of a run; a call that is not at work neither returns nor fails. -/
def Runtime.step (c : Config) (r : Runtime) : Event → Runtime
  | .phase title => { r with currentPhase := some title }
  | .agent call =>
    match call.check c with
    | .error _ => r
    | .ok () => r.agent c call
  | .settle index result =>
    match r.calls[index]? with
    | some ⟨key, spec, .live⟩ =>
      { r.setFate index (.returned result) with
        journal := r.journal ++ [resultRow index key spec result] }
    | _ => r
  | .fail index =>
    match r.calls[index]? with
    | some ⟨_, _, .live⟩ => r.setFate index .raised
    | _ => r

/-- A run from the cache of a journal. -/
def Runtime.run (c : Config) (cache : ResumeCache) (events : List Event) : Runtime :=
  events.foldl (Runtime.step c) (.start cache)

end KolegaCode.Orchestration
