import KolegaCode.Lib.Json

/-!
# Llm — messages and content blocks

The provider-independent message model: a message has a role and a content, which is a plain string
or a list of content blocks; tool calls and tool results are blocks.

A call and a result are correlated by `sameToolExecution`.  A call always has an execution id; a
legacy result may lack it, and is then matched by the provider's own id.
-/

namespace KolegaCode

/-- `Message.role`: the three roles the model uses, and any other string. -/
inductive Role where
  | system
  | user
  | assistant
  | other (name : String)
deriving Repr, DecidableEq, Inhabited

/-- `ToolInputKind`. -/
inductive ToolInputKind where
  | json
  | freeform
deriving Repr, DecidableEq, Inhabited

/-- `ContentBlock._cache_checkpoint` and `ContentBlock.cache_ttl`. -/
structure CacheMark where
  cacheCheckpoint : Bool := false
  cacheTtl : Option String := none
deriving Repr, DecidableEq, Inhabited

structure TextBlock where
  text : String
  cache : CacheMark := {}
deriving Repr, DecidableEq

structure ImageBlock where
  imageType : String
  mediaType : String
  data : String
  cache : CacheMark := {}
deriving Repr, DecidableEq

structure ThinkingBlock where
  thinking : String
  signature : Option String := none
  providerMetadata : Json.Dict := []
  cache : CacheMark := {}
deriving Repr, DecidableEq

structure RedactedThinkingBlock where
  data : String
  cache : CacheMark := {}
deriving Repr, DecidableEq

structure ResponsesReasoningBlock where
  encryptedContent : Option String := none
  summary : List String := []
  itemId : Option String := none
  content : List String := []
  cache : CacheMark := {}
deriving Repr, DecidableEq

structure WebSearchCallBlock where
  itemId : Option String := none
  status : Option String := none
  action : Json.Dict := []
  itemType : String := "web_search_call"
  payload : Option Json.Dict := none
  cache : CacheMark := {}
deriving Repr, DecidableEq

/-- A tool call.  `input` is a dictionary, or a string for a freeform tool. -/
structure ToolCall where
  id : String
  name : String
  input : Json
  inputKind : ToolInputKind := .json
  executionId : String
  thoughtSignature : Option (List UInt8) := none
  cache : CacheMark := {}
deriving Repr, DecidableEq

/-- A tool result whose nested content blocks are of type `β`. -/
structure ToolResultOf (β : Type) where
  toolUseId : String
  content : String ⊕ List β
  name : String
  isError : Bool
  executionId : Option String := none
  inputKind : ToolInputKind := .json
  errorKind : Option String := none
  cache : CacheMark := {}
deriving Repr

/-- A content block of a message. -/
inductive ContentBlock where
  | text (b : TextBlock)
  | image (b : ImageBlock)
  | thinking (b : ThinkingBlock)
  | redactedThinking (b : RedactedThinkingBlock)
  | responsesReasoning (b : ResponsesReasoningBlock)
  | webSearchCall (b : WebSearchCallBlock)
  | toolCall (c : ToolCall)
  | toolResult (r : ToolResultOf ContentBlock)
deriving Repr

abbrev ToolResult := ToolResultOf ContentBlock

namespace ContentBlock

/-- `isinstance(block, ToolCall)`, with the call. -/
def asToolCall? : ContentBlock → Option ToolCall
  | .toolCall c => some c
  | _ => none

/-- `isinstance(block, ToolResult)`, with the result. -/
def asToolResult? : ContentBlock → Option ToolResult
  | .toolResult r => some r
  | _ => none

@[simp] theorem asToolCall?_eq_some {b : ContentBlock} {c : ToolCall} :
    b.asToolCall? = some c ↔ b = .toolCall c := by
  cases b <;> simp [asToolCall?]

@[simp] theorem asToolResult?_eq_some {b : ContentBlock} {r : ToolResult} :
    b.asToolResult? = some r ↔ b = .toolResult r := by
  cases b <;> simp [asToolResult?]

end ContentBlock

/-- `Message.content`: a string or a list of blocks. -/
inductive Content where
  | str (s : String)
  | blocks (bs : List ContentBlock)
deriving Repr

/-- A message.  `usage` and `usage_observation` are kept in their dictionary form. -/
structure Message where
  role : Role
  content : Content
  stopReason : Option String := none
  toolCalls : List ToolCall := []
  usageMetadata : Json.Dict := []
  usage : Option Json := none
  usageObservation : Option Json := none
deriving Repr

namespace Message

/-- The blocks of a list content; a string content has none. -/
def blocks (m : Message) : List ContentBlock :=
  match m.content with
  | .str _ => []
  | .blocks bs => bs

/-- `isinstance(message.content, list)`. -/
def hasBlocks (m : Message) : Bool :=
  match m.content with
  | .str _ => false
  | .blocks _ => true

/-- `[block for block in message.content if isinstance(block, ToolCall)]`. -/
def calls (m : Message) : List ToolCall := m.blocks.filterMap (·.asToolCall?)

/-- `[block for block in message.content if isinstance(block, ToolResult)]`. -/
def results (m : Message) : List ToolResult := m.blocks.filterMap (·.asToolResult?)

theorem blocks_eq_nil_of_not_hasBlocks {m : Message} (h : m.hasBlocks = false) : m.blocks = [] := by
  unfold hasBlocks at h
  unfold blocks
  cases hc : m.content with
  | str s => rfl
  | blocks bs => rw [hc] at h; cases h

theorem mem_calls {m : Message} {c : ToolCall} :
    c ∈ m.calls ↔ ContentBlock.toolCall c ∈ m.blocks := by
  simp [calls, List.mem_filterMap]

theorem mem_results {m : Message} {r : ToolResult} :
    r ∈ m.results ↔ ContentBlock.toolResult r ∈ m.blocks := by
  simp [results, List.mem_filterMap]

end Message

/-! ### Correlating calls and results -/

/-- `ToolExecutionBlock`: a call or a result. -/
inductive ToolExecutionBlock where
  | call (c : ToolCall)
  | result (r : ToolResult)

namespace ToolExecutionBlock

/-- The block's `execution_id`. -/
def executionId : ToolExecutionBlock → Option String
  | .call c => some c.executionId
  | .result r => r.executionId

/-- `provider_tool_call_id`. -/
def providerToolCallId : ToolExecutionBlock → String
  | .call c => c.id
  | .result r => r.toolUseId

end ToolExecutionBlock

/-- `same_tool_execution`. -/
def sameToolExecution (left right : ToolExecutionBlock) : Bool :=
  match left.executionId, right.executionId with
  | some l, some r => l == r
  | _, _ => left.providerToolCallId == right.providerToolCallId

/-- The result `r` answers the call `c`. -/
def answers (c : ToolCall) (r : ToolResult) : Bool := sameToolExecution (.call c) (.result r)

theorem answers_iff {c : ToolCall} {r : ToolResult} :
    answers c r = true ↔ r.executionId = some c.executionId ∨
      r.executionId = none ∧ c.id = r.toolUseId := by
  unfold answers sameToolExecution
  cases h : r.executionId with
  | none => simp [ToolExecutionBlock.executionId, ToolExecutionBlock.providerToolCallId, h]
  | some e =>
    simp only [ToolExecutionBlock.executionId, h, beq_iff_eq, Option.some.injEq, reduceCtorEq,
      false_and, or_false]
    exact eq_comm

end KolegaCode
