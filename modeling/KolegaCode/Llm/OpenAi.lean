import KolegaCode.Llm.Models
import KolegaCode.Lib.Text
import KolegaCode.Session.Event
import KolegaCode.Hashline.Hash

/-!
# Llm — Chat Completions payloads

`MessageHistory.to_openai`.  Chat Completions wants each tool result as a message of its own with
the role `tool`, and all results of an assistant message right after it.  The history keeps results
in the next user message, so the serialiser looks ahead for them when it meets the calls, remembers
which it has used up (`consumed`) under their `toolResultIdentity`, and leaves them out when it
comes to their own message.

A payload's dictionary is a structure here.  The catalogue that names the reasoning field is a
parameter.
-/

namespace KolegaCode.OpenAi

open Session (truthy strOf)

/-! ### Payloads -/

/-- `ToolCall.to_openai`: the id, the function's name and its arguments. -/
structure FunctionCall where
  id : String
  name : String
  arguments : String
deriving Repr, DecidableEq

structure Payload where
  role : String
  content : String ⊕ List Json
  reasoning : Option (String × String) := none
  toolCalls : List FunctionCall := []
  toolCallId : Option String := none

def roleName : Role → String
  | .system => "system"
  | .user => "user"
  | .assistant => "assistant"
  | .other name => name

/-- `payload_has_content`. -/
def Payload.hasContent (p : Payload) : Bool :=
  match p.content with
  | .inl s => s ≠ ""
  | .inr parts => !parts.isEmpty

/-! ### The arguments of a call -/

/-- The escape of one UTF-16 code unit. -/
def escapeUnit (n : Nat) : List Char :=
  ['\\', 'u', Nat.digitChar (n / 4096), Nat.digitChar (n / 256 % 16), Nat.digitChar (n / 16 % 16),
    Nat.digitChar (n % 16)]

/-- A character as `json.dumps` writes it by default: outside ASCII as escapes. -/
def escapeAscii (c : Char) : List Char :=
  let n := c.toNat
  if 0x10000 ≤ n then
    escapeUnit (0xd800 + (n - 0x10000) / 1024) ++ escapeUnit (0xdc00 + (n - 0x10000) % 1024)
  else if 0x7f ≤ n then escapeUnit n
  else Json.escapeChar c

def dumpsAscii (s : String) : List Char := '"' :: (s.toList.flatMap escapeAscii ++ ['"'])

mutual

/-- `json.dumps(value)`. -/
def dumps : Json → List Char
  | .str s => dumpsAscii s
  | .arr xs => '[' :: (dumpsItems xs ++ [']'])
  | .obj fs => '{' :: (dumpsFields fs ++ ['}'])
  | .null => ['n', 'u', 'l', 'l']
  | .bool b => if b then "true".toList else "false".toList
  | .int n => Json.dumpsInt n
  | .float repr => repr.toList

def dumpsItems : List Json → List Char
  | [] => []
  | [x] => dumps x
  | x :: xs => dumps x ++ [',', ' '] ++ dumpsItems xs

def dumpsFields : List (String × Json) → List Char
  | [] => []
  | [(k, v)] => dumpsAscii k ++ [':', ' '] ++ dumps v
  | (k, v) :: fs => dumpsAscii k ++ [':', ' '] ++ dumps v ++ [',', ' '] ++ dumpsFields fs

end

/-- `ToolCall.to_openai`. -/
def functionCall (c : ToolCall) : FunctionCall where
  id := c.id
  name := c.name
  arguments := String.ofList (dumps (if c.inputKind = .freeform then .obj [("input", c.input)]
    else c.input))

/-! ### Blocks -/

def textPart (text : String) : Json := .obj [("type", .str "text"), ("text", .str text)]

/-- `ImageBlock.to_openai`. -/
def imagePart (b : ImageBlock) : Json :=
  .obj [("type", .str "image_url"), ("image_url", .obj [("url", .str
    (if b.imageType = "base64" then s!"data:{b.mediaType};base64,{b.data}" else b.data))])]

/-- The blocks that make up a payload's content: calls, results and the blocks that only the
Responses API takes are left out. -/
def isContent : ContentBlock → Bool
  | .text _ | .image _ | .thinking _ | .redactedThinking _ => true
  | _ => false

def isThinking : ContentBlock → Bool
  | .thinking _ => true
  | _ => false

/-- `item.to_openai()`, for a block of the content. -/
def contentPart : ContentBlock → Option Json
  | .text b => some (textPart b.text)
  | .image b => some (imagePart b)
  | .thinking b => some (textPart s!"*Thinking:*\n{b.thinking}")
  | .redactedThinking _ => some (textPart "[Redacted thinking]")
  | _ => none

/-- `d[key] = value`. -/
def setKey (d : Json.Dict) (key : String) (value : Json) : Json.Dict :=
  if d.any (·.1 = key) then d.map fun p => if p.1 = key then (key, value) else p
  else d ++ [(key, value)]

/-- The thinking chunk of a Mistral payload. -/
def mistralThinking (b : ThinkingBlock) : Json :=
  let native := b.providerMetadata
  let chunk := [("type", .str "thinking"), ("thinking",
    (Json.get? native "thinking").getD (.arr [textPart b.thinking]))]
  let chunk := match Json.get? native "closed" with
    | some closed => setKey chunk "closed" closed
    | none => chunk
  let chunk := match Json.get? native "signature" with
    | some signature => setKey chunk "signature" signature
    | none => chunk
  .obj (match b.signature with
    | some signature => setKey chunk "signature" (.str signature)
    | none => chunk)

/-- A block of the content of a Mistral payload; thinking is sent only if Mistral produced it. -/
def mistralPart (own : Bool) : ContentBlock → Option Json
  | .thinking b => if own then some (mistralThinking b) else none
  | .redactedThinking _ => none
  | b => contentPart b

/-! ### One message -/

/-- The arguments of `to_openai`, and the catalogue's reasoning field for a provider and a model. -/
structure Endpoint where
  provider : Option String := none
  model : Option String := none
  reasoningReplayField : String → String → Option String

/-- The message was produced by the given provider. -/
def producedBy (m : Message) (provider : String) : Bool :=
  Json.get? m.usageMetadata "provider" = some (.str provider)

/-- `reasoning_field`. -/
def reasoningField (e : Endpoint) (m : Message) : Option String :=
  match e.provider, e.model with
  | some provider, some model =>
      if provider ≠ "" ∧ model ≠ "" ∧ m.role = .assistant ∧ producedBy m provider then
        match e.reasoningReplayField provider model with
        | some "auto" =>
            some (match Json.get? m.usageMetadata "reasoning_field" with
              | some v => if truthy v then strOf v else "reasoning"
              | none => "reasoning")
        | field => field
      else none
  | _, _ => none

/-- The thinking blocks that go into the reasoning field, and the blocks that stay content. -/
def splitReasoning (e : Endpoint) (m : Message) : Option String × List ContentBlock :=
  let content := m.blocks.filter isContent
  let rest := content.filter (!isThinking ·)
  if (reasoningField e m).isSome ∧ content.any isThinking ∧ (rest ≠ [] ∨ m.calls ≠ []) then
    (some ("\n\n".intercalate (content.filterMap fun
      | .thinking b => some b.thinking
      | _ => none)), rest)
  else (none, content)

/-- `Message.to_openai`. -/
def messagePayload (e : Endpoint) (m : Message) : Payload :=
  match m.content with
  | .str s => { role := roleName m.role, content := .inl s }
  | .blocks _ =>
      let (reasoningText, content) := splitReasoning e m
      let parts :=
        if e.provider = some "mistral" then
          content.filterMap (mistralPart (m.role = .assistant && producedBy m "mistral"))
        else content.filterMap contentPart
      { role := roleName m.role
        content := if parts.isEmpty then .inl "" else .inr parts
        reasoning := (reasoningField e m).bind fun field => reasoningText.map (field, ·)
        toolCalls := m.calls.map functionCall }

/-! ### Tool results -/

/-- `_openai_tool_result_text`. -/
def toolResultText (r : ToolResult) : String :=
  let text := match r.content with
    | .inl s => s
    | .inr bs =>
        let textParts := bs.filterMap fun
          | .text b => if b.text = "" then none else some b.text
          | _ => none
        let imageCount := (bs.filter fun
          | .image _ => true
          | _ => false).length
        let text := stripped ("\n".intercalate textParts)
        if imageCount ≠ 0 then
          let marker := s!"[{r.name} returned {imageCount} image" ++
            (if imageCount ≠ 1 then "s" else "") ++ "; attached in the following user message.]"
          if text ≠ "" then stripped (text ++ "\n" ++ marker) else marker
        else text
  if r.isError ∧ text = "" then "Tool execution error" else text
where
  stripped (s : String) : String := String.ofList (Text.strip Hashline.isSpace s.toList)

/-- `_openai_tool_result_images`. -/
def toolResultImages (r : ToolResult) : List ImageBlock :=
  match r.content with
  | .inl _ => []
  | .inr bs => bs.filterMap fun
      | .image b => some b
      | _ => none

/-- A message with the role `tool`. -/
def toolPayload (toolCallId content : String) : Payload :=
  { role := "tool", content := .inl content, toolCallId := some toolCallId }

/-- `_openai_tool_result_message`. -/
def toolResultMessage (r : ToolResult) : Payload := toolPayload r.toolUseId (toolResultText r)

/-- `_openai_tool_result_image_followup`. -/
def imageFollowup (r : ToolResult) : Option Payload :=
  if (toolResultImages r).isEmpty then none
  else some
    { role := "user"
      content := .inr (textPart s!"Image returned by tool {r.name} for tool call {r.toolUseId}." ::
        (toolResultImages r).map imagePart) }

/-- `tool_result_identity`. -/
inductive ResultIdentity where
  | execution (id : String)
  | provider (id : String)
deriving Repr, DecidableEq

def toolResultIdentity (r : ToolResult) : ResultIdentity :=
  match r.executionId with
  | some id => .execution id
  | none => .provider r.toolUseId

/-! ### The history -/

/-- `unmatched_tool_calls`. -/
def unmatchedToolCalls (calls : List ToolCall) : List ToolResult → List ToolCall
  | [] => calls
  | r :: rs => unmatchedToolCalls (calls.eraseP (answers · r)) rs

/-- The items of one message that answer a call still unmatched, and the calls left. -/
def collectItems (consumed : List ResultIdentity) :
    List ToolCall → List ToolResult → List ToolResult × List ToolCall
  | unmatched, [] => ([], unmatched)
  | unmatched, r :: rs =>
      if toolResultIdentity r ∈ consumed then collectItems consumed unmatched rs
      else if unmatched.any (answers · r) then
        let (found, left) := collectItems consumed (unmatched.eraseP (answers · r)) rs
        (r :: found, left)
      else collectItems consumed unmatched rs

/-- `collect_lookahead_tool_results`, over the messages after the current one. -/
def collectLookahead (consumed : List ResultIdentity) :
    List ToolCall → List Message → List ToolResult
  | [], _ => []
  | _, [] => []
  | unmatched, m :: ms =>
      let (found, left) := collectItems consumed unmatched m.results
      found ++ collectLookahead consumed left ms

/-- The tool messages and image messages for a batch of results and the calls without one. -/
def batchPayloads (batch : List ToolResult) (remaining : List ToolCall) : List Payload :=
  batch.map toolResultMessage ++ remaining.map (toolPayload ·.id "") ++ batch.filterMap imageFollowup

/-- `processed_messages.append(payload)` where the payload says anything. -/
def emitPayload (p : Payload) : List Payload :=
  if p.hasContent ∨ p.toolCalls ≠ [] then [p] else []

/-- One message: its payloads, and the results they use up. -/
def messagePayloads (e : Endpoint) (consumed : List ResultIdentity) (m : Message)
    (rest : List Message) : List Payload × List ToolResult :=
  if !m.hasBlocks then ([messagePayload e m], [])
  else
    let results := m.results.filter fun r => toolResultIdentity r ∉ consumed
    let others := m.blocks.filter fun b => b.asToolResult?.isNone
    if results ≠ [] then
      let primary : Message := { m with content := .blocks others, usage := none,
                                        usageObservation := none }
      let missing := unmatchedToolCalls m.calls results
      let lookahead := collectLookahead consumed missing rest
      let batch := results ++ lookahead
      (emitPayload (messagePayload e primary) ++
        batchPayloads batch (unmatchedToolCalls missing lookahead), batch)
    else if others.isEmpty ∧ m.results ≠ [] then ([], [])
    else
      let payload := messagePayload e m
      if payload.toolCalls ≠ [] then
        let lookahead := collectLookahead consumed m.calls rest
        (emitPayload payload ++ batchPayloads lookahead (unmatchedToolCalls m.calls lookahead),
          lookahead)
      else (emitPayload payload, [])

/-- The loop over the messages. -/
def payloadsFrom (e : Endpoint) (consumed : List ResultIdentity) : List Message → List Payload
  | [] => []
  | m :: ms =>
      let (payloads, used) := messagePayloads e consumed m ms
      payloads ++ payloadsFrom e (consumed ++ used.map toolResultIdentity) ms

/-- `MessageHistory.to_openai`. -/
def toOpenai (e : Endpoint) (messages : List Message) : List Payload := payloadsFrom e [] messages

end KolegaCode.OpenAi
