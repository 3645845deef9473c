import KolegaCode.Lib.Assoc
import KolegaCode.Llm.Models

/-!
# Llm — the assembly of a Responses stream

`ResponsesStreamWrapper` pieces each call together from the events of its item, and holds the
starts of the calls back until the response is completed.  Where nothing was streamed, the final
message is read from the completed response instead.

The display of reasoning, the usage data and what the other chunks hold are left out.
-/

namespace KolegaCode.ResponsesStream

open List

/-- `a or b` of texts. -/
def either (a b : String) : String := if a = "" then b else a

/-- A `function_call`, or a `custom_tool_call` (`freeform`).  An id or a name that is absent or
`None` is empty. -/
structure Item where
  id : String := ""
  callId : String := ""
  name : String := ""
  arguments : Option String := none
  input : Option String := none
  freeform : Bool := false

/-- `item.id or item.call_id`. -/
def Item.key (item : Item) : String := either item.id item.callId

/-- `item.call_id or item_id`. -/
def Item.call (item : Item) : String := either item.callId item.key

/-- `item.arguments`, or `item.input` where it is `None`; `None` is empty. -/
def Item.text (item : Item) : String := (item.arguments.or item.input).getD ""

structure Record where
  callId : String
  name : String := ""
  arguments : String := ""
  freeform : Bool := false

/-- An item of the prefix that is carried forward. -/
abbrev Prefix := ResponsesReasoningBlock ⊕ WebSearchCallBlock

/-- An event before the last one.  The `key` of arguments is `event.item_id or event.call_id`. -/
inductive Event where
  | textDelta (delta : String)
  | itemAdded (item : Item)
  | argumentsDelta (key : String) (freeform : Bool) (delta : String)
  | argumentsDone (key : String) (freeform : Bool) (arguments input : Option String)
  | itemDone (item : Item)
  | prefixDone (block : Prefix)
  | other

/-- The terminal response.  `blocks` are those that `_blocks_from_response` reads from its output,
and `prefixBlocks` those of its reasoning and of its hosted tools. -/
structure Response where
  incomplete : Bool := false
  maxOutputTokens : Bool := false
  blocks : List (TextBlock ⊕ ToolCall) := []
  prefixBlocks : List Prefix := []

/-- How a stream ends: with a `response.completed` or a `response.incomplete`, with an error, or
with nothing. -/
inductive Ending where
  | terminal (completed : Bool) (response : Option Response)
  | failed
  | nothing

inductive Chunk where
  | text (delta : String)
  | toolUseStart (id name : String)
  | toolUseDelta (delta : String)
  | other
deriving DecidableEq

structure ResponsesStreamWrapper where
  text : String := ""
  prefixBlocks : List Prefix := []
  functionCalls : Assoc String Record := []
  startedCalls : List String := []
  deferredToolStarts : List Chunk := []
  finalResponse : Option Response := none
  toolCallsValidated : Bool := false

/-- What an event makes of the record of its item, which is new where it is none. -/
def Event.update : Event → Option (String × (Option Record → Record))
  | itemAdded item => some (item.key, fun r =>
      r.getD { callId := item.call, name := item.name, freeform := item.freeform })
  | argumentsDelta key freeform delta => some (key, fun r =>
      let r := r.getD { callId := key, freeform := freeform }
      { r with arguments := r.arguments ++ delta })
  | argumentsDone key freeform arguments input => some (key, fun r =>
      let r := r.getD { callId := key, freeform := freeform }
      { r with arguments := (arguments.or input).getD r.arguments })
  | itemDone item => some (item.key, fun r =>
      let r := r.getD { callId := item.call, freeform := item.freeform }
      { r with
        callId := either item.call r.callId
        name := either item.name r.name
        arguments := either item.text r.arguments })
  | _ => none

def Wrapper.addStart (w : ResponsesStreamWrapper) (item : Item) : ResponsesStreamWrapper :=
  if item.key ∈ w.startedCalls then w
  else { w with
    startedCalls := item.key :: w.startedCalls
    deferredToolStarts := w.deferredToolStarts ++ [.toolUseStart item.call item.name] }

/-- `_handle_event`, except for the last event. -/
def handleEvent (w : ResponsesStreamWrapper) (event : Event) : ResponsesStreamWrapper × Chunk :=
  let w := { w with functionCalls := event.update.toList.foldl Assoc.update w.functionCalls }
  match event with
  | .textDelta delta => ({ w with text := w.text ++ delta }, .text delta)
  | .itemAdded item => (Wrapper.addStart w item, .other)
  | .argumentsDelta _ _ delta => (w, .toolUseDelta delta)
  | .prefixDone block => ({ w with prefixBlocks := w.prefixBlocks ++ [block] }, .other)
  | _ => (w, .other)

/-- The response that validates the calls. -/
def Ending.validated : Ending → Option Response
  | terminal true (some response) => if response.incomplete then none else some response
  | _ => none

/-- `_handle_event` of the last event, with the chunks that `__anext__` hands out for it. -/
def handleEnding (w : ResponsesStreamWrapper) : Ending → ResponsesStreamWrapper × List Chunk
  | .terminal completed response =>
    let validated := completed && response.any (!·.incomplete)
    ({ w with
        finalResponse := response, toolCallsValidated := validated, deferredToolStarts := [] },
      if validated then w.deferredToolStarts ++ [.other] else [.other])
  | _ => (w, [])

def readEvent (run : ResponsesStreamWrapper × List Chunk) (event : Event) :
    ResponsesStreamWrapper × List Chunk :=
  ((handleEvent run.1 event).1, run.2 ++ [(handleEvent run.1 event).2])

/-- The stream as `__anext__` reads it: the wrapper and the chunks. -/
def read (events : List Event) (ending : Ending) : ResponsesStreamWrapper × List Chunk :=
  let run := events.foldl readEvent ({}, [])
  ((handleEnding run.1 ending).1, run.2 ++ (handleEnding run.1 ending).2)

/-! ### The final message -/

section

variable (safeParse : String → Json) (executionId : String → String)

def Record.toolCall (r : Record) : ToolCall where
  id := r.callId
  name := r.name
  input := if r.freeform then .str r.arguments else safeParse r.arguments
  inputKind := if r.freeform then .freeform else .json
  executionId := executionId r.callId

/-- `_blocks_from_accumulators`. -/
def blocksFromAccumulators (w : ResponsesStreamWrapper) : List (TextBlock ⊕ ToolCall) :=
  (if w.text = "" then [] else [.inl { text := w.text }]) ++
    w.functionCalls.map fun p => .inr (p.2.toolCall safeParse executionId)

/-- The content behind the prefix. -/
def finalBlocks (w : ResponsesStreamWrapper) (response : Response) : List (TextBlock ⊕ ToolCall) :=
  let blocks := blocksFromAccumulators safeParse executionId w
  let blocks := if blocks = [] then response.blocks else blocks
  if w.toolCallsValidated then blocks else blocks.filter (·.isLeft)

/-- `_collect_prefix_blocks`. -/
def collectPrefixBlocks (w : ResponsesStreamWrapper) (response : Response) : List ContentBlock :=
  (if w.prefixBlocks = [] then response.prefixBlocks else w.prefixBlocks).map
    (Sum.elim .responsesReasoning .webSearchCall)

/-- `get_final_message`; `none` is an `LLMIncompleteResponseError`. -/
def getFinalMessage (w : ResponsesStreamWrapper) : Option Message :=
  w.finalResponse.map fun response =>
    let blocks := finalBlocks safeParse executionId w response
    let calls := blocks.filterMap (·.getRight?)
    { role := .assistant
      content := .blocks (collectPrefixBlocks w response ++ blocks.map (Sum.elim .text .toolCall))
      toolCalls := calls
      stopReason := some <|
        if calls ≠ [] then "tool_use"
        else if response.incomplete ∧ response.maxOutputTokens then "max_tokens" else "end_turn" }

end

/-! ### What the stream says -/

variable (events : List Event)

def Event.text? : Event → Option String
  | textDelta delta => some delta
  | _ => none

/-- The item of an event about a call. -/
def Event.key? (event : Event) : Option String := event.update.map Prod.fst

/-- The items, in the order of their first events. -/
def items : List String := (events.filterMap (·.key?)).eraseDups

/-- The record the events of one item make. -/
def recordOf (key : String) : Option Record :=
  ((events.filter (·.key? = some key)).filterMap (·.update)).foldl (fun r u => some (u.2 r)) none

/-- The events of one item in their order: its announcement, the deltas, and perhaps what its
arguments and it are in the end. -/
def lifecycle (key : String) (item : Item) (deltas : List String)
    (done : Option (Option String × Option String)) (last : Option Item) : List Event :=
  .itemAdded item :: deltas.map (.argumentsDelta key item.freeform) ++
    done.toList.map (fun d => .argumentsDone key item.freeform d.1 d.2) ++
    last.toList.map .itemDone

/-- What the item is in the end, as far as that is said, or else what it was announced as. -/
def finalRecord (item : Item) (deltas : List String)
    (done : Option (Option String × Option String)) (last : Option Item) : Record where
  callId := either ((last.map Item.call).getD "") item.call
  name := either ((last.map Item.name).getD "") item.name
  arguments := either ((last.map Item.text).getD "")
    ((done.bind fun d => d.1.or d.2).getD (String.join deltas))
  freeform := item.freeform

section

variable (safeParse : String → Json) (executionId : String → String)

/-- One call for each item. -/
def calls : List ToolCall :=
  ((items events).filterMap (recordOf events)).map (·.toolCall safeParse executionId)

def text : String := String.join (events.filterMap (·.text?))

def blocks : List (TextBlock ⊕ ToolCall) :=
  (if text events = "" then [] else [.inl { text := text events }]) ++
    (calls events safeParse executionId).map .inr

end

/-! ### Reading -/

theorem handleEvent_spec (w : ResponsesStreamWrapper) (event : Event) :
    (handleEvent w event).1.text = w.text ++ event.text?.getD "" ∧
      (handleEvent w event).1.functionCalls =
        event.update.toList.foldl Assoc.update w.functionCalls ∧
      (handleEvent w event).1.finalResponse = w.finalResponse ∧
      ∀ id name, (handleEvent w event).2 ≠ .toolUseStart id name := by
  cases event with
  | itemAdded item =>
    simp only [handleEvent, Wrapper.addStart]
    split <;> exact ⟨String.append_empty.symm, rfl, rfl, nofun⟩
  | textDelta delta => exact ⟨rfl, rfl, rfl, nofun⟩
  | _ => exact ⟨String.append_empty.symm, rfl, rfl, nofun⟩

theorem foldl_readEvent : let run := events.foldl readEvent ({}, [])
    run.1.text = text events ∧
      run.1.functionCalls = (events.filterMap (·.update)).foldl Assoc.update [] ∧
      run.1.finalResponse = none ∧ ∀ id name, .toolUseStart id name ∉ run.2 := by
  induction events using List.reverseRecOn with
  | nil => exact ⟨rfl, rfl, rfl, nofun⟩
  | append_singleton events event ih =>
    obtain ⟨htext, hcalls, hfinal, hchunks⟩ := ih
    obtain ⟨htext', hcalls', hfinal', hchunk⟩ :=
      handleEvent_spec (events.foldl readEvent ({}, [])).1 event
    simp only [foldl_append, foldl_cons, foldl_nil, readEvent, text, filterMap_append, htext',
      hcalls', htext, hcalls, String.join_append, mem_append, mem_singleton]
    refine ⟨?_, ?_, hfinal'.trans hfinal,
      fun id name h => h.elim (hchunks id name) fun he => hchunk id name he.symm⟩
    · cases h : event.text? <;> simp [h]
    · cases h : event.update <;> simp [h]

theorem functionCalls_eq : (events.filterMap (·.update)).foldl Assoc.update [] =
    (items events).filterMap fun key => (recordOf events key).map (key, ·) := by
  have hfilter (key : String) : (events.filterMap (·.update)).filter (·.1 = key) =
      (events.filter (·.key? = some key)).filterMap (·.update) := by
    rw [filter_filterMap, filterMap_filter]
    refine filterMap_congr fun event _ => ?_
    rw [Event.key?]
    cases event.update <;> simp [Option.filter]
  simp only [Assoc.foldl_update, map_filterMap, hfilter]
  rfl

theorem recordOf_isSome {key : String} (h : key ∈ items events) : (recordOf events key).isSome := by
  obtain ⟨event, he, hkey⟩ := mem_filterMap.mp (mem_eraseDups.mp h)
  obtain ⟨u, hu, -⟩ := Option.map_eq_some_iff.mp hkey
  have hmem : u ∈ (events.filter (·.key? = some key)).filterMap (·.update) :=
    mem_filterMap.mpr ⟨event, mem_filter.mpr ⟨he, decide_eq_true hkey⟩, hu⟩
  rw [recordOf]
  obtain hnil | ⟨us, u', hus⟩ := eq_nil_or_concat' ((events.filter _).filterMap _)
  · rw [hnil] at hmem
    cases hmem
  · rw [hus, foldl_concat]
    rfl

theorem foldl_deltas (key : String) (freeform : Bool) (deltas : List String) (r : Record) :
    ((deltas.map (Event.argumentsDelta key freeform)).filterMap (·.update)).foldl
        (fun r u => some (u.2 r)) (some r) =
      some { r with arguments := r.arguments ++ String.join deltas } := by
  induction deltas generalizing r with
  | nil => simp
  | cons delta deltas ih =>
    rw [map_cons, filterMap_cons, Event.update, foldl_cons, String.join_cons, ← String.append_assoc]
    exact ih _

theorem recordOf_lifecycle {key : String} {item : Item} {deltas : List String}
    {done : Option (Option String × Option String)} {last : Option Item}
    (h : events.filter (·.key? = some key) = lifecycle key item deltas done last) :
    recordOf events key = some (finalRecord item deltas done last) := by
  rw [recordOf, h, lifecycle, filterMap_append, filterMap_append, foldl_append, foldl_append,
    filterMap_cons, Event.update, foldl_cons, foldl_deltas]
  cases done <;> cases last <;> simp [Event.update, either, finalRecord]

theorem calls_eq_toolCalls {safeParse : String → Json} {executionId : String → String}
    {w : ResponsesStreamWrapper} {m : Message}
    (h : getFinalMessage safeParse executionId w = some m) : m.calls = m.toolCalls := by
  obtain ⟨response, -, rfl⟩ := Option.map_eq_some_iff.mp h
  simp only [Message.calls, Message.blocks, collectPrefixBlocks, filterMap_append, filterMap_map]
  rw [filterMap_eq_nil_iff.mpr fun block _ => by cases block <;> rfl, nil_append]
  exact filterMap_congr fun block _ => by cases block <;> rfl

theorem validated_isSome (completed : Bool) (response : Option Response) :
    (Ending.terminal completed response).validated.isSome =
      (completed && response.any (!·.incomplete)) := by
  cases completed <;> cases response <;> simp [Ending.validated]
  split <;> simp [*]

theorem validated_of_start {w : ResponsesStreamWrapper} {ending : Ending} {id name : String}
    (h : .toolUseStart id name ∈ (handleEnding w ending).2) : ending.validated.isSome := by
  cases ending with
  | terminal completed response =>
    rw [validated_isSome]
    by_contra hv
    simp [handleEnding, hv] at h
  | _ => cases h

/-- Without a response there is no message, and without a validated one no call in it. -/
theorem validated_of_call {safeParse : String → Json} {executionId : String → String}
    {w : ResponsesStreamWrapper} {ending : Ending} {m : Message} (hw : w.finalResponse = none)
    (h : getFinalMessage safeParse executionId (handleEnding w ending).1 = some m)
    (hm : m.toolCalls ≠ []) : ending.validated.isSome := by
  cases ending with
  | terminal completed response =>
    rw [validated_isSome]
    by_contra hv
    obtain ⟨response, -, rfl⟩ := Option.map_eq_some_iff.mp h
    refine hm (filterMap_eq_nil_iff.mpr fun block hb => ?_)
    simp only [finalBlocks, handleEnding, if_neg hv] at hb
    cases block with
    | inl => rfl
    | inr => exact absurd (mem_filter.mp hb).2 nofun
  | _ =>
    obtain ⟨_, hr, -⟩ := Option.map_eq_some_iff.mp h
    cases hw.symm.trans hr

section

variable (safeParse : String → Json) (executionId : String → String) (ending : Ending)

theorem blocks_read : blocksFromAccumulators safeParse executionId (read events ending).1 =
    blocks events safeParse executionId := by
  obtain ⟨htext, hcalls, -⟩ := foldl_readEvent events
  rw [functionCalls_eq] at hcalls
  have hsame (w : ResponsesStreamWrapper) : (handleEnding w ending).1.text = w.text ∧
      (handleEnding w ending).1.functionCalls = w.functionCalls := by
    cases ending <;> exact ⟨rfl, rfl⟩
  simp only [blocksFromAccumulators, read, hsame, htext, hcalls, blocks, calls, map_filterMap,
    Option.map_map]
  rfl

theorem blocks_ne_nil (h : text events ≠ "" ∨ items events ≠ []) :
    blocks events safeParse executionId ≠ [] := by
  intro hnil
  obtain ⟨ht, hc⟩ := append_eq_nil_iff.mp hnil
  rw [map_eq_nil_iff, calls, map_eq_nil_iff, filterMap_eq_nil_iff] at hc
  refine h.elim (fun h => by rw [if_neg h] at ht; cases ht) fun h => h ?_
  refine eq_nil_iff_forall_not_mem.mpr fun key hkey => ?_
  simpa [hc key hkey] using recordOf_isSome events hkey

end

end KolegaCode.ResponsesStream
