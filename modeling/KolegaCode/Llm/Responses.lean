import KolegaCode.Lib.Replace
import KolegaCode.Llm.OpenAi

/-!
# Llm — Responses API input

`to_responses_input`.  The Responses API takes a flat list of items: role messages, reasoning,
hosted search calls, function calls and their outputs.  The items of a message come in the order of
its blocks, except that its text comes after them, its calls after its text, and the images its
results returned last; calls that nobody answered are given a placeholder at the very end.

A Harmony backend refuses a request that spells one of its control tokens, so untrusted text is
escaped: a spelling gets a backslash before each bar, and two of them inside a JSON document.
-/

namespace KolegaCode.Responses

open Session (strOf)
open Text (rewrite Finder)

/-! ### Control tokens -/

/-- The names of the reserved tokens, in the order of the pattern's alternatives. -/
def CONTROL_TOKENS : List (List Char) :=
  ["start".toList, "end".toList, "message".toList, "channel".toList, "constrain".toList,
    "return".toList, "call".toList]

/-- `<|name|>`. -/
def spelling (name : List Char) : List Char := '<' :: '|' :: (name ++ ['|', '>'])

/-- `_HARMONY_CONTROL_TOKEN_RE` at the front of a text, and what is put in for the token. -/
def findToken (inert : List Char → List Char) : Finder Char := fun l =>
  (CONTROL_TOKENS.find? fun name => spelling name <+: l).map fun name => (spelling name, inert name)

/-- `<\|name\|>`. -/
def inertText (name : List Char) : List Char :=
  '<' :: '\\' :: '|' :: (name ++ ['\\', '|', '>'])

/-- `<\\|name\\|>`. -/
def inertJson (name : List Char) : List Char :=
  '<' :: '\\' :: '\\' :: '|' :: (name ++ ['\\', '\\', '|', '>'])

def escapeHarmonyControlTokens (text : String) : String :=
  String.ofList (rewrite (findToken inertText) text.toList)

def escapeHarmonyControlTokensInJson (text : String) : String :=
  String.ofList (rewrite (findToken inertJson) text.toList)

/-- What is done to text, and to a JSON document, before it is sent. -/
structure Escaping where
  text : String → String
  json : String → String

/-- The two functions `to_responses_input` picks by `escape_control_tokens`. -/
def escaping (escapeControlTokens : Bool) : Escaping :=
  if escapeControlTokens then ⟨escapeHarmonyControlTokens, escapeHarmonyControlTokensInJson⟩
  else ⟨id, id⟩

/-! ### Items -/

/-- A part of a role message: `input_text` or `output_text`, or `input_image`. -/
inductive ContentPart where
  | text (type text : String)
  | image (imageUrl : String)
deriving DecidableEq

/-- An item of the input.  Of a reasoning item, `content` is left out where it is empty. -/
inductive Item where
  | message (role : String) (content : List ContentPart)
  | reasoning (summary : List String) (encryptedContent : Option String) (content : List String)
      (id : Option String)
  | webSearchCall (status : Option String) (action : Json.Dict) (id : Option String)
  | call (kind : ToolInputKind) (callId name payload : String)
  | output (kind : ToolInputKind) (callId output : String)
deriving DecidableEq

def imageDataUrl (b : ImageBlock) : String := s!"data:{b.mediaType};base64,{b.data}"

/-- `_tool_result_images`. -/
def toolResultImages (r : ToolResult) : List ImageBlock :=
  match r.content with
  | .inl _ => []
  | .inr items => items.filterMap fun
    | .image b => some b
    | _ => none

/-- `_tool_result_text`. -/
def toolResultText (r : ToolResult) : String :=
  match r.content with
  | .inl text => text
  | .inr items =>
    let parts := items.filterMap fun
      | .text b => if b.text ≠ "" then some b.text else none
      | _ => none
    let imageCount := (toolResultImages r).length
    let parts :=
      if imageCount ≠ 0 then
        parts ++ [s!"[{r.name} returned {imageCount} image" ++ (if imageCount ≠ 1 then "s" else "") ++
          "; attached in the following user message.]"]
      else parts
    if r.isError ∧ parts = [] then "Tool execution error" else "\n".intercalate parts

/-- `_tool_result_image_message`. -/
def toolResultImageMessage (r : ToolResult) : Option Item :=
  if toolResultImages r = [] then none
  else some (.message "user"
    (.text "input_text" s!"Image returned by tool {r.name} for tool call {r.toolUseId}." ::
      (toolResultImages r).map fun image => .image (imageDataUrl image)))

/-- A part as it is collected: its text, or the address of an image. -/
inductive RolePart where
  | text (text : String)
  | image (imageUrl : String)

/-- `_role_message_item`. -/
def roleMessageItem (role : Role) (parts : List RolePart) : Option Item :=
  let isUser := role ≠ .assistant
  let content : List ContentPart := parts.filterMap fun
    | .text text =>
      if text ≠ "" then some (.text (if isUser then "input_text" else "output_text") text) else none
    | .image imageUrl => if isUser then some (.image imageUrl) else none
  if content = [] then none else some (.message (if isUser then "user" else "assistant") content)

/-- `ResponsesReasoningBlock.to_responses_item`, with its texts escaped. -/
def reasoningItem (e : Escaping) (b : ResponsesReasoningBlock) : Item :=
  .reasoning (b.summary.map e.text) (b.encryptedContent.filter (· ≠ "")) (b.content.map e.text)
    (if b.content ≠ [] then b.itemId.filter (· ≠ "") else none)

/-- `WebSearchCallBlock.to_responses_item`, for an item that is sent again. -/
def webSearchItem (b : WebSearchCallBlock) : Item :=
  .webSearchCall b.status b.action (b.itemId.filter (· ≠ ""))

/-- The arguments of a call: a string is sent as it is. -/
def argumentsText : Json → String
  | .str s => s
  | input => String.ofList (OpenAi.dumps input)

def callItem (e : Escaping) (c : ToolCall) : Item :=
  .call c.inputKind c.id c.name
    (match c.inputKind with
    | .freeform => e.text (strOf c.input)
    | .json => e.json (argumentsText c.input))

def outputItem (e : Escaping) (r : ToolResult) : Item :=
  .output r.inputKind r.toolUseId (e.text (toolResultText r))

/-! ### The input -/

/-- The item of a block that is sent in its place. -/
def blockItem (e : Escaping) : ContentBlock → Option Item
  | .responsesReasoning b => some (reasoningItem e b)
  | .webSearchCall b => if b.itemType = "web_search_call" then some (webSearchItem b) else none
  | .toolResult r => some (outputItem e r)
  | _ => none

/-- The part of a block that goes into the message's role item. -/
def rolePart (e : Escaping) : ContentBlock → Option RolePart
  | .text b => some (.text (e.text b.text))
  | .image b => some (.image (imageDataUrl b))
  | _ => none

/-- System and developer messages are sent as instructions. -/
def isInstruction (role : Role) : Bool := role = .system || role = .other "developer"

/-- The items of one message. -/
def messageItems (e : Escaping) (m : Message) : List Item :=
  if isInstruction m.role then []
  else
    match m.content with
    | .str text => (roleMessageItem m.role [.text (e.text text)]).toList
    | .blocks blocks =>
      blocks.filterMap (blockItem e) ++ (roleMessageItem m.role (blocks.filterMap (rolePart e))).toList ++
        m.calls.map (callItem e) ++ m.results.filterMap toolResultImageMessage

def NO_OUTPUT : String := "[no tool output recorded]"

/-- The call id of an output. -/
def Item.answered : Item → Option String
  | .output _ callId _ => some callId
  | _ => none

/-- The placeholders: `answered` grows by each call that is given one. -/
def padding (answered : List String) : List Item → List Item
  | [] => []
  | .call kind callId _ _ :: items =>
    if callId ∈ answered then padding answered items
    else .output kind callId NO_OUTPUT :: padding (callId :: answered) items
  | _ :: items => padding answered items

def toResponsesInput (escapeControlTokens : Bool) (messages : List Message) : List Item :=
  let items := messages.flatMap (messageItems (escaping escapeControlTokens))
  items ++ padding (items.filterMap Item.answered) items

end KolegaCode.Responses
