import KolegaCode.Llm.Models
import Mathlib.Logic.Function.Iterate

/-!
# Conversation — history repair

The repair is one pass over the messages.  At an assistant message with tool calls it collects a
result for each call, first from the user message that follows (whose other blocks are kept beside
the results), then from every later user message not yet processed; a call without a result gets a
placeholder.  A later message that loses some blocks is rewritten in place, one that loses all of
them is marked processed and skipped when the pass reaches it.

The source keeps `messages`, the index `i` and the set `processed_indices`.  Nothing before `i` is
read again, so the state is the list of the messages from `i` on, each with the flag that says
whether its index is processed (`Cell`), and the messages already emitted.  The dictionary
`all_tool_results`, keyed by the position of a call, is the list of the calls, each with the result
found for it (`Slots`).
-/

namespace KolegaCode.Conversation

/-! ### Validity -/

/-- One iteration of `is_valid_for_anthropic`: the message, and the one after it if any. -/
def answeredBy (m : Message) (next? : Option Message) : Bool :=
  if m.role = .assistant ∧ m.hasBlocks then
    if m.calls.isEmpty then true
    else match next? with
      | none => false
      | some next =>
          next.role = .user && next.hasBlocks &&
            m.calls.all fun c => next.results.any fun r => r.toolUseId = c.id
  else true

/-- `is_valid_for_anthropic`. -/
def isValidForAnthropic : List Message → Bool
  | [] => true
  | m :: rest => answeredBy m rest.head? && isValidForAnthropic rest

/-! ### Collecting results -/

/-- `tool_calls`, each with its entry of `all_tool_results`. -/
abbrev Slots := List (ToolCall × Option ToolResult)

/-- `unmatched_call_index`: the first call without a result that the block answers. -/
def unmatchedCallIndex (slots : Slots) (r : ToolResult) : Option Nat :=
  slots.findIdx? fun s => s.2.isNone && answers s.1 r

/-- The block as the result of the call it answers, `none` when it is kept as other content. -/
def place (slots : Slots) : ContentBlock → Option Slots
  | .toolResult r =>
      (unmatchedCallIndex slots r).map fun k => slots.modify k fun s => (s.1, some r)
  | _ => none

/-- The loop over a message's blocks: the results found, and the blocks that are kept. -/
def gather : Slots → List ContentBlock → Slots × List ContentBlock
  | slots, [] => (slots, [])
  | slots, b :: bs =>
      match place slots b with
      | some slots' => gather slots' bs
      | none => ((gather slots bs).1, b :: (gather slots bs).2)

/-- The result recorded for a call without one. -/
def placeholder (c : ToolCall) : ToolResult where
  toolUseId := c.id
  content := .inl "Operation was interrupted. Please retry if needed."
  name := c.name
  isError := true
  executionId := some c.executionId
  inputKind := c.inputKind

/-- `complete_tool_results`. -/
def completeToolResults (slots : Slots) : List ToolResult :=
  slots.map fun s => s.2.getD (placeholder s.1)

/-! ### The pass -/

/-- A message from the current index on, and whether its index is in `processed_indices`. -/
structure Cell where
  msg : Message
  processed : Bool := false
deriving Repr

/-- What the look-ahead yields: the results, `other_content_blocks`, the cells after the current
one and `next_user_message`. -/
structure LookAhead where
  slots : Slots
  other : List ContentBlock
  rest : List Cell
  next? : Option Message

/-- The check of the immediately following message. -/
def lookAhead (slots : Slots) : List Cell → LookAhead
  | [] => ⟨slots, [], [], none⟩
  | ⟨u, p⟩ :: rest =>
      if u.role = .user then
        if u.hasBlocks then
          ⟨(gather slots u.blocks).1, (gather slots u.blocks).2, ⟨u, true⟩ :: rest, some u⟩
        else ⟨slots, [], ⟨u, p⟩ :: rest, some u⟩
      else ⟨slots, [], ⟨u, p⟩ :: rest, none⟩

/-- What the search leaves of a user message whose remaining blocks are `remaining`: the message
itself when nothing was found in it, else the message without what was found, or skipped. -/
def leave (m : Message) (remaining : List ContentBlock) : Cell :=
  if remaining.length = m.blocks.length then ⟨m, false⟩
  else if remaining.isEmpty then ⟨m, true⟩
  else ⟨⟨m.role, .blocks remaining, m.stopReason, m.toolCalls, m.usageMetadata, none, none⟩, false⟩

/-- The search of the remaining conversation. -/
def search : Slots → List Cell → Slots × List Cell
  | slots, [] => (slots, [])
  | slots, c :: rest =>
      if !c.processed ∧ c.msg.role = .user ∧ c.msg.hasBlocks then
        ((search (gather slots c.msg.blocks).1 rest).1,
          leave c.msg (gather slots c.msg.blocks).2 ::
            (search (gather slots c.msg.blocks).1 rest).2)
      else ((search slots rest).1, c :: (search slots rest).2)

/-- `len(all_tool_results) < len(tool_calls)`. -/
def incomplete (slots : Slots) : Bool := slots.any fun s => s.2.isNone

/-- The search, made only when a result is missing. -/
def collect (slots : Slots) (rest : List Cell) : Slots × List Cell :=
  if incomplete slots then search slots rest else (slots, rest)

/-- The user message with all results and what else the next user message held. -/
def completeUserMessage (next? : Option Message) (allContent : List ContentBlock) : Message where
  role := .user
  content := .blocks allContent
  stopReason := next?.bind (·.stopReason)
  toolCalls := (next?.map (·.toolCalls)).getD []
  usageMetadata := (next?.map (·.usageMetadata)).getD []

structure RepairState where
  pending : List Cell
  fixed : List Message

/-- The branch for an assistant message with tool calls. -/
def answerCalls (m : Message) (rest : List Cell) (fixed : List Message) : RepairState :=
  let la := lookAhead (m.calls.map (·, none)) rest
  let (slots, rest') := collect la.slots la.rest
  let allContent := (completeToolResults slots).map .toolResult ++ la.other
  if allContent.isEmpty then ⟨rest', fixed ++ [m]⟩
  else ⟨rest', fixed ++ [m, completeUserMessage la.next? allContent]⟩

/-- One iteration of the `while` loop. -/
def repairStep : RepairState → RepairState
  | ⟨[], fixed⟩ => ⟨[], fixed⟩
  | ⟨⟨_, true⟩ :: rest, fixed⟩ => ⟨rest, fixed⟩
  | ⟨⟨m, false⟩ :: rest, fixed⟩ =>
      if m.role = .assistant ∧ m.hasBlocks then
        if m.calls.isEmpty then ⟨rest, fixed ++ [m]⟩ else answerCalls m rest fixed
      else ⟨rest, fixed ++ [m]⟩

/-- `repaired`. -/
def repaired (messages : List Message) : List Message :=
  (repairStep^[messages.length] ⟨messages.map (⟨·, false⟩), []⟩).fixed

end KolegaCode.Conversation
