import KolegaCode.Llm.Models

/-!
# Llm — the assembly of a Chat Completions stream

`OpenAIStreamWrapper` collects the deltas of its chunks, and `get_final_message` joins them.  A
later choice whose finish reason is `None` takes the one reported before it away, since `getattr`
falls back on the kept reason only where the attribute is absent.

The chunks handed on to the reader and the usage metadata are left out.
-/

namespace KolegaCode.OpenAiStream

open List

/-- An element of `delta.tool_calls`.  Only the first one of an index has its id and name read. -/
structure ToolCallDelta where
  index : Int
  id : String := ""
  name : String := ""
  arguments : Option String := none

structure Delta where
  reasoningContent : Option String := none
  reasoning : Option String := none
  content : Option String := none
  toolCalls : List ToolCallDelta := []

/-- A choice.  `finishReason` is `none` where the choice has no such attribute, and `some none`
where the attribute is `None`. -/
structure Choice where
  delta : Option Delta := none
  finishReason : Option (Option String) := none

/-- `chunk.choices`. -/
abbrev Chunk := List Choice

/-- What is collected: for each index its first delta and its fragments, in the order the indices
came (the keys of `final_tool_calls` and of `_tool_call_arg_parts`). -/
structure OpenAIStreamWrapper where
  contentParts : List String := []
  reasoningParts : List String := []
  toolCalls : List (ToolCallDelta × List String) := []
  stopReason : Option String := none

/-- `if text: parts.append(text)`. -/
def push (parts : List String) (text : Option String) : List String :=
  if text.getD "" = "" then parts else parts ++ [text.getD ""]

/-- `reasoning_content or reasoning`. -/
def Delta.thinking (delta : Delta) : Option String :=
  if delta.reasoningContent.getD "" = "" then delta.reasoning else delta.reasoningContent

def addToolCall (calls : List (ToolCallDelta × List String)) (d : ToolCallDelta) :
    List (ToolCallDelta × List String) :=
  if d.index ∈ calls.map (·.1.index) then
    calls.map fun c => if c.1.index = d.index then (c.1, push c.2 d.arguments) else c
  else calls ++ [(d, [d.arguments.getD ""])]

def OpenAIStreamWrapper.onDelta (w : OpenAIStreamWrapper) (delta : Delta) :
    OpenAIStreamWrapper :=
  { w with
    contentParts := push w.contentParts delta.content
    reasoningParts := push w.reasoningParts delta.thinking
    toolCalls := delta.toolCalls.foldl addToolCall w.toolCalls }

/-- What `__anext__` does with a chunk. -/
def OpenAIStreamWrapper.onChunk (w : OpenAIStreamWrapper) : Chunk → OpenAIStreamWrapper
  | [] => w
  | choice0 :: _ =>
    let w' := choice0.delta.elim w w.onDelta
    { w' with stopReason := choice0.finishReason.getD w.stopReason }

/-! ### The final message -/

def normalizeOpenaiFinishReason (finishReason : Option String) : Option String :=
  if finishReason.getD "" = "" then none
  else match finishReason.getD "" with
    | "tool_calls" | "function_call" => some "tool_use"
    | "length" => some "max_tokens"
    | _ => some "end_turn"

section

variable (safeParse : String → Json) (executionId : String → String)

def fromOpenaiStream (content reasoningContent : String) (toolCalls : List ToolCallDelta)
    (stopReason : Option String) : Message :=
  let calls : List ToolCall := toolCalls.map fun c =>
    { id := c.id, name := c.name, input := safeParse (c.arguments.getD ""),
      executionId := executionId c.id }
  { role := .assistant
    content := .blocks <|
      (if reasoningContent = "" then [] else [.thinking { thinking := reasoningContent }]) ++
      (if content = "" then [] else [.text { text := content }]) ++ calls.map .toolCall
    toolCalls := calls
    stopReason := normalizeOpenaiFinishReason stopReason }

/-- `tool_call.function.arguments = "".join(parts)`. -/
def joined (c : ToolCallDelta × List String) : ToolCallDelta :=
  { c.1 with arguments := some (String.join c.2) }

def OpenAIStreamWrapper.getFinalMessage (w : OpenAIStreamWrapper) : Message :=
  fromOpenaiStream safeParse executionId (String.join w.contentParts)
    (String.join w.reasoningParts) (w.toolCalls.map joined) w.stopReason

end

/-! ### What the stream says -/

variable (chunks : List Chunk)

/-- The deltas of the first choices, in order. -/
def deltas : List Delta := chunks.filterMap fun chunk => chunk.head?.bind (·.delta)

/-- The finish reasons of the first choices that have the attribute. -/
def finishReasons : List (Option String) :=
  chunks.filterMap fun chunk => chunk.head?.bind (·.finishReason)

/-- A finish reason, and not `None` or the empty text. -/
def Reported (r : Option String) : Prop := r.getD "" ≠ ""
deriving Decidable

def lastReported (reasons : List (Option String)) : Option String :=
  (reasons.filter (Reported ·)).getLast?.join

/-- The fragments of an index, in order. -/
def fragments (index : Int) (ds : List ToolCallDelta) : List String :=
  (ds.filter (·.index = index)).map (·.arguments.getD "")

/-- The calls whose index is not among `seen`, in the order the indices first come: the id and the
name of the first delta, and the joined fragments. -/
def callsOf (seen : List Int) : List ToolCallDelta → List ToolCallDelta
  | [] => []
  | d :: ds =>
    if d.index ∈ seen then callsOf seen ds
    else joined (d, fragments d.index (d :: ds)) :: callsOf (seen ++ [d.index]) ds

/-! ### The collected parts -/

theorem join_push (parts : List String) (text : Option String) :
    String.join (push parts text) = String.join parts ++ text.getD "" := by
  rw [push]
  split
  · next h => rw [h, String.append_empty]
  · simp

theorem map_joined_foldl (ds : List ToolCallDelta) (calls : List (ToolCallDelta × List String)) :
    (ds.foldl addToolCall calls).map joined =
      (calls.map fun c => joined (c.1, c.2 ++ fragments c.1.index ds)) ++
        callsOf (calls.map (·.1.index)) ds := by
  induction ds generalizing calls with
  | nil => simp [fragments, callsOf]
  | cons d ds ih =>
    rw [foldl_cons, ih, addToolCall, callsOf]
    split
    · next h =>
      simp only [map_map]
      congr 1
      · refine map_congr_left fun c _ => ?_
        by_cases hc : c.1.index = d.index
        · simp [hc, joined, fragments, join_push, String.append_assoc]
        · simp [hc, joined, fragments, Ne.symm hc]
      · congr 1
        refine map_congr_left fun c _ => ?_
        simp only [Function.comp]
        split <;> rfl
    · next h =>
      simp only [map_append, map_cons, map_nil, append_assoc]
      congr 1
      · refine map_congr_left fun c hc => ?_
        have hne : d.index ≠ c.1.index := fun he => h (he ▸ mem_map_of_mem hc)
        simp [fragments, hne]
      · simp [fragments]

theorem foldl_onChunk (w : OpenAIStreamWrapper) :
    let w' := chunks.foldl OpenAIStreamWrapper.onChunk w
    String.join w'.contentParts = String.join w.contentParts ++
        String.join ((deltas chunks).map (·.content.getD "")) ∧
      String.join w'.reasoningParts = String.join w.reasoningParts ++
        String.join ((deltas chunks).map (·.thinking.getD "")) ∧
      w'.toolCalls = ((deltas chunks).flatMap (·.toolCalls)).foldl addToolCall w.toolCalls ∧
      w'.stopReason = (finishReasons chunks).getLast?.getD w.stopReason := by
  induction chunks generalizing w with
  | nil => simp [deltas, finishReasons]
  | cons chunk chunks ih =>
    obtain ⟨hcontent, hreasoning, hcalls, hstop⟩ := ih (w.onChunk chunk)
    simp only [foldl_cons, hcontent, hreasoning, hcalls, hstop, deltas, finishReasons,
      filterMap_cons]
    obtain _ | ⟨⟨delta, reason⟩, rest⟩ := chunk
    · simp [OpenAIStreamWrapper.onChunk]
    · cases delta <;> cases reason <;>
        simp [OpenAIStreamWrapper.onChunk, OpenAIStreamWrapper.onDelta, join_push,
          String.append_assoc, foldl_append, getLast?_cons]

/-! ### The stop reason -/

theorem normalize_eq_none {r : Option String} :
    normalizeOpenaiFinishReason r = none ↔ ¬ Reported r := by
  rw [normalizeOpenaiFinishReason, Reported, not_not]
  split
  · simp [*]
  · split <;> simp [*]

theorem reported_lastReported {reasons : List (Option String)} :
    Reported (lastReported reasons) ↔ ∃ r ∈ reasons, Reported r := by
  rw [lastReported]
  cases hl : (reasons.filter (Reported ·)).getLast? with
  | none =>
    have hnone := filter_eq_nil_iff.1 (getLast?_eq_none_iff.1 hl)
    exact ⟨fun h => absurd rfl h, fun ⟨r, hr, h⟩ => absurd (decide_eq_true h) (hnone r hr)⟩
  | some kept =>
    have hkept := mem_filter.1 (mem_of_getLast? hl)
    exact iff_of_true (of_decide_eq_true hkept.2) ⟨kept, hkept.1, of_decide_eq_true hkept.2⟩

theorem normalize_last (reasons : List (Option String)) :
    normalizeOpenaiFinishReason (reasons.getLast?.getD none) =
        normalizeOpenaiFinishReason (lastReported reasons) ↔
      (∀ r ∈ reasons, ¬ Reported r) ∨ ∃ r ∈ reasons.getLast?, Reported r := by
  obtain rfl | ⟨front, r, rfl⟩ := reasons.eq_nil_or_concat'
  · simp [lastReported]
  rw [getLast?_concat, Option.getD_some]
  by_cases hr : Reported r
  · simp [lastReported, filter_append, hr]
  · rw [normalize_eq_none.2 hr, eq_comm, normalize_eq_none, reported_lastReported]
    simp [hr, or_imp, forall_and]

/-- The message is the one the stream describes exactly when no finish reason is reported at all
or the last choice that has the attribute reports one. -/
theorem finalMessage_assembled (safeParse : String → Json) (executionId : String → String) :
    (chunks.foldl OpenAIStreamWrapper.onChunk {}).getFinalMessage safeParse executionId =
        fromOpenaiStream safeParse executionId
          (String.join ((deltas chunks).map (·.content.getD "")))
          (String.join ((deltas chunks).map (·.thinking.getD "")))
          (callsOf [] ((deltas chunks).flatMap (·.toolCalls)))
          (lastReported (finishReasons chunks)) ↔
      (∀ r ∈ finishReasons chunks, ¬ Reported r) ∨
        ∃ r ∈ (finishReasons chunks).getLast?, Reported r := by
  obtain ⟨hcontent, hreasoning, hcalls, hstop⟩ := foldl_onChunk chunks {}
  rw [← normalize_last, OpenAIStreamWrapper.getFinalMessage, hcontent, hreasoning, hcalls, hstop,
    map_joined_foldl]
  exact ⟨fun h => by simpa [fromOpenaiStream] using congrArg Message.stopReason h, fun h => by
    simp [fromOpenaiStream, h]⟩

/-- A choice without a finish reason after the one that says `stop`. -/
theorem stopReason_lost :
    let chunks : List Chunk := [[{ finishReason := some (some "stop") }],
      [{ delta := some {}, finishReason := some none }]]
    ((chunks.foldl OpenAIStreamWrapper.onChunk {}).getFinalMessage (fun _ => .null) id).stopReason =
        none ∧ lastReported (finishReasons chunks) = some "stop" := by
  decide

end KolegaCode.OpenAiStream
