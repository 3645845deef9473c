import KolegaCode.Session.Event
import KolegaCode.Hashline.ReadOutput
import KolegaCode.Conversation.Compaction
import Mathlib.Algebra.GroupWithZero.Nat

/-!
# Conversation — a history for another provider

`adapt_history_for_provider`: the request copy of a history for the provider, model and edit
protocol in use.  Reasoning another provider produced is dropped, images the model cannot take are
replaced, echoed placeholders are scrubbed from assistant text, and a freeform tool exchange that
cannot be replayed becomes text, the call and its result each on its own.

Whether a freeform call is replayed is decided from its own message; whether its result is, from
`tool_call_providers` and `tool_call_protocols`, which go by the call's provider id
(`callEntries`, read by `recorded`: a later entry of an id replaces an earlier one).

What is outside this code is a parameter (`Services`).
-/

namespace KolegaCode.Conversation

open Session (truthy strOf)
open Hashline (isSpace stripHashlineReadOutput)

/-- What `resize_base64_image_to_limit_cached` reports. -/
inductive ImageResize where
  | failed
  | unchanged
  | resized (data mediaType : String)

structure Services where
  resizeImage : String → String → Nat → Option Nat → ImageResize
  priorReasoningIsReplayable : String → String → Bool
  /-- `item.to_markdown()` -/
  blockMarkdown : ContentBlock → String

/-- The keyword arguments of `adapt_history_for_provider`. -/
structure Target where
  provider : String
  model : String
  supportsVision : Bool
  editProtocol : Option String := none

/-! ### Where a message comes from -/

/-- `_provider_value`. -/
def providerValue (value : Option Json) : String :=
  match value with
  | none => ""
  | some v => if truthy v then strOf v else ""

/-- The source provider of a message. -/
def sourceProvider (m : Message) : String := providerValue (Json.get? m.usageMetadata "provider")

/-- `_source_edit_protocol`, for a block of the given name. -/
def sourceEditProtocol (name : String) (usageMetadata : Json.Dict) : Option String :=
  let value := providerValue (Json.get? usageMetadata "edit_protocol")
  if value ≠ "" then some value
  else if name = "apply_patch" then some "codex_apply_patch"
  else none

def reasoningCompatibleGroups : List (List String) := [["openai", "openai_chatgpt"]]

/-- `_providers_replay_compatible`. -/
def providersReplayCompatible (source target : String) : Bool :=
  if source = "" then false
  else if source = target then true
  else reasoningCompatibleGroups.any fun group => group.contains source && group.contains target

/-- `_preserve_reasoning_block`. -/
def preserveReasoningBlock (S : Services) (t : Target) (source : String) : Bool :=
  providersReplayCompatible source t.provider &&
    (t.model = "" || S.priorReasoningIsReplayable t.provider t.model)

/-- The provider and the edit protocol a tool call was made under. -/
structure Provenance where
  provider : String
  protocol : Option String
deriving Repr, DecidableEq

/-- `_preserve_freeform_exchange`. -/
def preserveFreeformExchange (t : Target) (source : Provenance) : Bool :=
  if t.editProtocol.isSome ∧ source.protocol ≠ t.editProtocol then false
  else providersReplayCompatible source.provider t.provider

/-- The provenance of a block of the message, from the message itself. -/
def ownProvenance (m : Message) (name : String) : Provenance :=
  ⟨sourceProvider m, sourceEditProtocol name m.usageMetadata⟩

/-- What is put into `tool_call_providers` and `tool_call_protocols`, in order. -/
def callEntries (messages : List Message) : List (String × Provenance) :=
  messages.flatMap fun m => m.calls.map fun c => (c.id, ownProvenance m c.name)

/-- The entry of an id in the two dictionaries. -/
def recorded (messages : List Message) (id : String) : Option Provenance :=
  (callEntries messages).reverse.lookup id

/-! ### Texts -/

def imagePlaceholder (mediaType modelName : String) : String :=
  s!"[An image ({mediaType}) was shared earlier in this thread but is not visible to {modelName}.]"

def oversizedImagePlaceholder (mediaType modelName : String) : String :=
  s!"[An earlier image ({mediaType}) exceeded {modelName}'s request limit and could not be resized " ++
    "safely, so it was omitted from this request.]"

def freeformCallPlaceholder (c : ToolCall) (source : String) : TextBlock where
  text := s!"[Prior freeform tool call `{c.name}` from " ++
    (if source = "" then "unknown provider" else source) ++ " omitted for compatibility.]"

/-- `ToolResult.to_markdown`. -/
def toolResultMarkdown (S : Services) (r : ToolResult) : String :=
  (if r.isError then "**Error**" else "**Result**") ++
    s!" from tool call (ID: {r.toolUseId}):\n\n```\n" ++
    (match r.content with
      | .inl s => s
      | .inr bs => "\n\n".intercalate (bs.map S.blockMarkdown)) ++ "\n```"

def freeformResultPlaceholder (S : Services) (r : ToolResult) (source : String) : TextBlock where
  text := s!"[Prior `{r.name}` call from " ++
    (if source = "" then "unknown provider" else source) ++
    (if r.isError then " failed: " else " completed: ") ++
    (match r.content with
      | .inl s => s
      | .inr _ => toolResultMarkdown S r) ++ "]"

/-- A match of `_ECHOED_REASONING_PLACEHOLDER` at the start of the text: what follows it.  The name
in the middle has no `]`, so the match ends at the first one. -/
def echoedPlaceholder? (cs : List Char) : Option (List Char) := do
  let cs ← stripStart? "[Prior ".toList cs
  let cs := (stripStart? "redacted ".toList cs).getD cs
  let cs ← stripStart? "reasoning from ".toList cs
  let run := cs.takeWhile fun c => c ≠ ']' && c ≠ '\n'
  let closing := " omitted for compatibility.".toList
  let source := run.length - closing.length
  if closing.isSuffixOf run ∧ 1 ≤ source ∧ source ≤ 64 ∧ (cs.drop run.length).head? = some ']' then
    some (cs.drop (run.length + 1))
  else none
where
  stripStart? (opening cs : List Char) : Option (List Char) :=
    if opening.isPrefixOf cs then some (cs.drop opening.length) else none

/-- `_ECHOED_REASONING_PLACEHOLDER.sub("", text)`; `skip` counts the characters of a match still to
be left out. -/
def removeEchoed (skip : Nat) : List Char → List Char
  | [] => []
  | c :: cs =>
      match skip with
      | n + 1 => removeEchoed n cs
      | 0 =>
          match echoedPlaceholder? (c :: cs) with
          | some rest => removeEchoed (cs.length - rest.length) cs
          | none => c :: removeEchoed 0 cs

/-- `_scrub_echoed_reasoning_placeholder`. -/
def scrubEchoedReasoningPlaceholder (text : String) : String :=
  String.ofList (Text.strip isSpace (removeEchoed 0 text.toList))

/-! ### Image limits -/

def anthropicMaxImageBase64Bytes : Nat := 10 * 1024 * 1024
def anthropicMaxRequestImageBase64Bytes : Nat := 24 * 1024 * 1024
def anthropicMaxImageDimension : Nat := 8000
def anthropicManyImageThreshold : Nat := 20
def anthropicManyImageMaxDimension : Nat := 2000

def asImage? : ContentBlock → Option ImageBlock
  | .image b => some b
  | _ => none

/-- The images of a message and those in its tool results' list contents. -/
def messageImages (m : Message) : List ImageBlock :=
  m.blocks.flatMap fun
    | .image b => [b]
    | .toolResult r =>
        match r.content with
        | .inl _ => []
        | .inr bs => bs.filterMap asImage?
    | _ => []

/-- `_image_block_stats`. -/
def imageBlockStats (messages : List Message) : Nat × List Nat :=
  let images := messages.flatMap messageImages
  (images.length, (images.filter (·.imageType = "base64")).map (·.data.length))

/-- The loop of `_anthropic_image_base64_limit` over the sorted sizes. -/
def sharedImageLimit (remainingBudget : Nat) : List Nat → Nat
  | [] => anthropicMaxImageBase64Bytes
  | size :: sizes =>
      let sharedLimit := remainingBudget / (sizes.length + 1)
      if size > sharedLimit then max 4 (min anthropicMaxImageBase64Bytes sharedLimit)
      else sharedImageLimit (remainingBudget - size) sizes

/-- `_anthropic_image_base64_limit`. -/
def anthropicImageBase64Limit (base64Sizes : List Nat) : Nat :=
  let projected := (base64Sizes.map (min · anthropicMaxImageBase64Bytes)).mergeSort
  if projected.sum ≤ anthropicMaxRequestImageBase64Bytes then anthropicMaxImageBase64Bytes
  else sharedImageLimit anthropicMaxRequestImageBase64Bytes projected

/-! ### Blocks -/

/-- What the adaptation of a message's blocks reads besides the blocks. -/
structure AdaptContext where
  services : Services
  target : Target
  maxImageDimension : Option Nat
  maxImageBase64Bytes : Nat
  /-- The two dictionaries of the calls' origins. -/
  origin : String → Option Provenance
  /-- The message the blocks are of. -/
  message : Message

/-- `_adapt_image_block_for_provider`. -/
def adaptImageBlock (ctx : AdaptContext) (b : ImageBlock) : ContentBlock × Bool :=
  if !ctx.target.supportsVision then
    (.text { text := imagePlaceholder b.mediaType ctx.target.model }, true)
  else if ctx.target.provider ≠ "anthropic" ∨ b.imageType ≠ "base64" then (.image b, false)
  else
    let cache : CacheMark := { cacheCheckpoint := b.cache.cacheCheckpoint }
    match ctx.services.resizeImage b.data b.mediaType ctx.maxImageBase64Bytes
        ctx.maxImageDimension with
    | .failed =>
        (.text { text := oversizedImagePlaceholder b.mediaType ctx.target.model, cache }, true)
    | .unchanged => (.image b, false)
    | .resized data mediaType => (.image { imageType := "base64", mediaType, data, cache }, true)

/-- A reasoning block or a hosted search: sent as it is, or dropped. -/
def adaptReasoning (ctx : AdaptContext) (b : ContentBlock) : Option ContentBlock × Bool :=
  if preserveReasoningBlock ctx.services ctx.target (sourceProvider ctx.message) then (some b, false)
  else (none, true)

def adaptToolCall (ctx : AdaptContext) (c : ToolCall) : Option ContentBlock × Bool :=
  if c.inputKind = .freeform then
    if preserveFreeformExchange ctx.target (ownProvenance ctx.message c.name) then
      (some (.toolCall c), false)
    else (some (.text (freeformCallPlaceholder c (sourceProvider ctx.message))), true)
  else (some (.toolCall c), false)

/-- Assistant text is scrubbed; text that was nothing but echoes is dropped. -/
def adaptText (role : Option Role) (b : TextBlock) : Option ContentBlock × Bool :=
  if role = some .assistant then
    let cleaned := scrubEchoedReasoningPlaceholder b.text
    if cleaned = b.text then (some (.text b), false)
    else if cleaned ≠ "" then
      (some (.text { text := cleaned, cache := { cacheCheckpoint := b.cache.cacheCheckpoint } }),
        true)
    else (none, true)
  else (some (.text b), false)

/-- The origin of the call a result answers: the entry of its id, or the result's own message. -/
def resultOrigin (ctx : AdaptContext) (r : ToolResult) : Provenance :=
  (ctx.origin r.toolUseId).getD (ownProvenance ctx.message r.name)

/-- `_tool_result_with_content`. -/
def toolResultWithContent (r : ToolResult) (content : String ⊕ List ContentBlock) : ToolResult :=
  { r with content, cache := { cacheCheckpoint := r.cache.cacheCheckpoint } }

/-- A read result under the hashline protocol, sent to a model under another one. -/
def stripsAnchors (ctx : AdaptContext) (r : ToolResult) : Bool :=
  r.name = "read" && (resultOrigin ctx r).protocol = some "hashline_v2" &&
    ctx.target.editProtocol.isSome && ctx.target.editProtocol ≠ some "hashline_v2"

/-- The result with its list content adapted, or as it is. -/
def withInner (r : ToolResult) (inner : List ContentBlock × Bool) : Option ContentBlock × Bool :=
  if inner.2 then (some (.toolResult (toolResultWithContent r (.inr inner.1))), true)
  else (some (.toolResult r), false)

/-- A result, given its adapted content if that is a list. -/
def adaptToolResult (ctx : AdaptContext) (r : ToolResult)
    (inner : Option (List ContentBlock × Bool)) : Option ContentBlock × Bool :=
  if r.inputKind = .freeform then
    if preserveFreeformExchange ctx.target (resultOrigin ctx r) then
      match inner with
      | some inner => withInner r inner
      | none => (some (.toolResult r), false)
    else
      (some (.text (freeformResultPlaceholder ctx.services r (resultOrigin ctx r).provider)), true)
  else match inner, r.content with
    | some inner, _ => withInner r inner
    | none, .inl content =>
        if stripsAnchors ctx r then
          (some (.toolResult (toolResultWithContent r
            (.inl (stripHashlineReadOutput content false)))), true)
        else (some (.toolResult r), false)
    | none, .inr _ => (some (.toolResult r), false)

mutual

/-- One iteration of `_adapt_content_blocks_for_provider`: what is appended, and whether the block
counts as changed. -/
def adaptBlock (ctx : AdaptContext) (role : Option Role) : ContentBlock → Option ContentBlock × Bool
  | .text b => adaptText role b
  | .image b => ((adaptImageBlock ctx b).1, (adaptImageBlock ctx b).2)
  | .thinking b => adaptReasoning ctx (.thinking b)
  | .redactedThinking b => adaptReasoning ctx (.redactedThinking b)
  | .responsesReasoning b => adaptReasoning ctx (.responsesReasoning b)
  | .webSearchCall b => adaptReasoning ctx (.webSearchCall b)
  | .toolCall c => adaptToolCall ctx c
  | .toolResult r => adaptToolResult ctx r (adaptInner ctx r)

/-- The adapted list content of a result.  It is tool output, never assistant prose. -/
def adaptInner (ctx : AdaptContext) : ToolResultOf ContentBlock →
    Option (List ContentBlock × Bool)
  | ⟨_, .inl _, _, _, _, _, _, _⟩ => none
  | ⟨_, .inr bs, _, _, _, _, _, _⟩ => some (adaptContentBlocks ctx none bs)

/-- `_adapt_content_blocks_for_provider`. -/
def adaptContentBlocks (ctx : AdaptContext) (role : Option Role) :
    List ContentBlock → List ContentBlock × Bool
  | [] => ([], false)
  | b :: bs =>
      ((adaptBlock ctx role b).1.toList ++ (adaptContentBlocks ctx role bs).1,
        (adaptBlock ctx role b).2 || (adaptContentBlocks ctx role bs).2)

end

/-! ### Messages -/

/-- `_message_with_content`. -/
def messageWithContent (m : Message) (content : List ContentBlock) : Message :=
  { m with
    content := .blocks content
    toolCalls := content.filterMap (·.asToolCall?)
    usageObservation := none }

/-- `max_image_dimension` and `max_image_base64_bytes`. -/
def imageLimits (t : Target) (messages : List Message) : Option Nat × Nat :=
  if t.provider = "anthropic" ∧ t.supportsVision then
    let (imageCount, base64Sizes) := imageBlockStats messages
    (some (if imageCount > anthropicManyImageThreshold then anthropicManyImageMaxDimension
      else anthropicMaxImageDimension), anthropicImageBase64Limit base64Sizes)
  else (none, anthropicMaxImageBase64Bytes)

/-- The context of the message's blocks. -/
def adaptContext (S : Services) (t : Target) (messages : List Message) (m : Message) :
    AdaptContext where
  services := S
  target := t
  maxImageDimension := (imageLimits t messages).1
  maxImageBase64Bytes := (imageLimits t messages).2
  origin := recorded messages
  message := m

/-- One iteration over the messages: the message that is sent, and whether it counts as changed. -/
def adaptMessage (S : Services) (t : Target) (messages : List Message) (m : Message) :
    Option Message × Bool :=
  match m.content with
  | .str _ => (some m, false)
  | .blocks bs =>
      let (adapted, changed) := adaptContentBlocks (adaptContext S t messages m) (some m.role) bs
      if changed && adapted.isEmpty then (none, true)
      else if changed then (some (messageWithContent m adapted), true)
      else (some m, false)

/-- `adapt_history_for_provider`. -/
def adaptHistoryForProvider (S : Services) (t : Target) (messages : List Message) : List Message :=
  if messages.any fun m => (adaptMessage S t messages m).2 then
    messages.filterMap fun m => (adaptMessage S t messages m).1
  else messages

end KolegaCode.Conversation
