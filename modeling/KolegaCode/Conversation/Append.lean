import KolegaCode.Lib.Absorb
import KolegaCode.Llm.Models
import Mathlib.Data.List.Infix

/-!
# Conversation — appending user messages

`append_user` takes the tool results of a message out, the last of each execution.  A result in the
history takes the incoming one of its execution away, and gives its place to it when it is the
placeholder of an interrupted call, or an error and the incoming one is none.  What is left is
appended with the other blocks.

The blocks are objects: they are of a type of which only a view is known.
-/

namespace KolegaCode.Conversation

open Absorb (absorb put Apart)

/-- A message whose blocks are of a type. -/
structure MessageOf (β : Type) where
  role : Role
  content : String ⊕ List β
  stopReason : Option String := none
  toolCalls : List ToolCall := []
  usageMetadata : Json.Dict := []
  usage : Option Json := none
  usageObservation : Option Json := none

namespace MessageOf

variable {β : Type}

/-- The blocks of a list content; a string content has none. -/
def blocks (m : MessageOf β) : List β :=
  match m.content with
  | .inl _ => []
  | .inr bs => bs

/-- `isinstance(message.content, list)`. -/
def hasBlocks (m : MessageOf β) : Bool :=
  match m.content with
  | .inl _ => false
  | .inr _ => true

end MessageOf

/-- Block objects: what they hold, and a new text block. -/
structure BlockType (β : Type) where
  view : β → ContentBlock
  newText : String → β
  view_newText : ∀ text, view (newText text) = .text { text := text }

/-- Blocks as values. -/
def BlockType.values : BlockType ContentBlock where
  view := id
  newText text := .text { text := text }
  view_newText _ := rfl

/-- What `append_user` is called with. -/
inductive UserContent (β : Type) where
  | str (s : String)
  | list (bs : List β)
  | block (b : β)

section

variable {β : Type} (types : BlockType β)

/-- `isinstance(block, ToolResult)`. -/
def isResult (b : β) : Bool := (types.view b).asToolResult?.isSome

/-- `same_tool_execution` of two results. -/
def sameResult (b b' : β) : Bool :=
  match (types.view b).asToolResult?, (types.view b').asToolResult? with
  | some r, some r' => sameToolExecution (.result r) (.result r')
  | _, _ => false

/-- `"Operation was interrupted" in block.content`; it is in no list of blocks. -/
def interrupted (r : ToolResult) : Bool :=
  match r.content with
  | .inl s => decide ("Operation was interrupted".toList <:+: s.toList)
  | .inr _ => false

/-- `should_replace`. -/
def shouldReplace (b b' : β) : Bool :=
  match (types.view b).asToolResult?, (types.view b').asToolResult? with
  | some old, some new => old.isError && interrupted old || !new.isError && old.isError
  | _, _ => false

/-- `content_blocks`. -/
def contentBlocks : UserContent β → List β
  | .str s => [types.newText s]
  | .list bs => bs
  | .block b => [b]

/-- `new_tool_results`: the last of each execution. -/
def newToolResults (content : List β) : List β :=
  (content.filter fun b => isResult types b).foldl (put (sameResult types)) []

/-- `other_blocks`. -/
def otherBlocks (content : List β) : List β := content.filter fun b => !isResult types b

/-- One iteration of the loop over the history. -/
def updateMessage (results : List β) (m : MessageOf β) : List β × MessageOf β :=
  if m.role = .user ∧ m.hasBlocks = true then
    let updated := absorb (sameResult types) (shouldReplace types) results m.blocks
    (updated.rest,
      if updated.replaced = true then
        ⟨m.role, .inr updated.items, m.stopReason, m.toolCalls, m.usageMetadata, none, none⟩
      else m)
  else (results, m)

/-- The loop over the history: the results that are left, and the messages. -/
def updateHistory : List β → List (MessageOf β) → List β × List (MessageOf β)
  | results, [] => (results, [])
  | results, m :: ms =>
    let (results, m) := updateMessage types results m
    let (results, ms) := updateHistory results ms
    (results, m :: ms)

def NO_CONTENT : String := "[User provided no message content]"

/-- `append_user`. -/
def appendUser (history : List (MessageOf β)) (content : UserContent β) : List (MessageOf β) :=
  let blocks := contentBlocks types content
  let results := newToolResults types blocks
  if results.isEmpty then
    history ++ [{
      role := .user
      content := .inr (if blocks.isEmpty then [types.newText NO_CONTENT] else blocks) }]
  else
    let (results, history) := updateHistory types results history
    let blocks := results ++ otherBlocks types blocks
    if blocks.isEmpty then history else history ++ [{ role := .user, content := .inr blocks }]

/-! ### What is kept -/

/-- The blocks of the user's messages. -/
def userBlocks (history : List (MessageOf β)) : List β :=
  history.flatMap fun m => if m.role = .user then m.blocks else []

/-- A block stands where it stood, or it was an error result and a result of its execution stands
there, for it was a placeholder or the new one is no error. -/
def Replaced (b b' : β) : Prop :=
  b' = b ∨ sameResult types b b' = true ∧ shouldReplace types b b' = true

/-- A message as it stood, but for such blocks. -/
structure MessageKept (m m' : MessageOf β) : Prop where
  role : m'.role = m.role
  other : m.role ≠ .user ∨ m.hasBlocks = false → m' = m
  blocks : List.Forall₂ (Replaced types) m.blocks m'.blocks
  data : m'.stopReason = m.stopReason ∧ m'.toolCalls = m.toolCalls ∧
    m'.usageMetadata = m.usageMetadata

/-- The blocks a message brings in besides results; a message without blocks brings a text. -/
def broughtIn (content : UserContent β) : List β :=
  if (contentBlocks types content).isEmpty then [types.newText NO_CONTENT]
  else otherBlocks types (contentBlocks types content)

section

variable {types}

theorem isResult_newText (text : String) : isResult types (types.newText text) = false := by
  rw [isResult, types.view_newText]
  rfl

theorem isResult_of_same {b b' : β} (h : sameResult types b b' = true) :
    isResult types b = true ∧ isResult types b' = true := by
  unfold sameResult at h
  unfold isResult
  split at h
  · next r r' hr hr' => exact ⟨by rw [hr]; rfl, by rw [hr']; rfl⟩
  · cases h

theorem sameToolExecution_symm (a b : ToolExecutionBlock) :
    sameToolExecution a b = sameToolExecution b a := by
  unfold sameToolExecution
  cases a.executionId <;> cases b.executionId <;> simp [Bool.beq_comm]

theorem sameResult_symm {b b' : β} (h : sameResult types b b' = true) :
    sameResult types b' b = true := by
  unfold sameResult at h ⊢
  cases hb : (types.view b).asToolResult? with
  | none =>
    rw [hb] at h
    cases h
  | some r =>
    cases hb' : (types.view b').asToolResult? with
    | none =>
      rw [hb, hb'] at h
      cases h
    | some r' =>
      rw [hb, hb'] at h
      exact (sameToolExecution_symm _ _).trans h

/-- A result that gives its place away is an error. -/
theorem shouldReplace_iff {b b' : β} :
    shouldReplace types b b' = true ↔
      ∃ old new, types.view b = .toolResult old ∧ types.view b' = .toolResult new ∧
        old.isError = true ∧ (interrupted old = true ∨ new.isError = false) := by
  unfold shouldReplace
  constructor
  · intro h
    split at h
    · next old new hold hnew =>
      refine ⟨old, new, ContentBlock.asToolResult?_eq_some.mp hold,
        ContentBlock.asToolResult?_eq_some.mp hnew, ?_⟩
      revert h
      cases old.isError <;> cases interrupted old <;> cases new.isError <;> decide
    · cases h
  · rintro ⟨old, new, hold, hnew, herror, hplace⟩
    rw [hold, hnew]
    simp only [ContentBlock.asToolResult?, herror]
    rcases hplace with h | h <;> simp [h]

/-- A result that is no error stays. -/
theorem Replaced.eq_of_success {b b' : β} (h : Replaced types b b') {r : ToolResult}
    (hr : types.view b = .toolResult r) (hsuccess : r.isError = false) : b' = b := by
  rcases h with h | ⟨-, h⟩
  · exact h
  · obtain ⟨old, -, hold, -, herror, -⟩ := shouldReplace_iff.mp h
    cases hr.symm.trans hold
    rw [hsuccess] at herror
    cases herror

/-- So does what is no result. -/
theorem Replaced.eq_of_other {b b' : β} (h : Replaced types b b') (hb : isResult types b = false) :
    b' = b := by
  rcases h with h | ⟨h, -⟩
  · exact h
  · rw [(isResult_of_same h).1] at hb
    cases hb

theorem Replaced.isResult_eq {b b' : β} (h : Replaced types b b') :
    isResult types b' = isResult types b := by
  rcases h with rfl | ⟨h, -⟩
  · rfl
  · rw [(isResult_of_same h).1, (isResult_of_same h).2]

/-- A block that was replaced twice was the placeholder of an interrupted call. -/
theorem Replaced.trans {P : β → Prop} (hclasses : Absorb.Classes (sameResult types) P)
    {a b c : β} (ha : P a) (hb : P b) (hc : P c) (h : Replaced types a b)
    (h' : Replaced types b c) : Replaced types a c := by
  rcases h with rfl | ⟨hsame, hreplace⟩
  · exact h'
  · rcases h' with rfl | ⟨hsame', hreplace'⟩
    · exact .inr ⟨hsame, hreplace⟩
    · refine .inr ⟨hclasses.trans ha hb hc hsame hsame', ?_⟩
      obtain ⟨old, new, hold, hnew, herror, hplace⟩ := shouldReplace_iff.mp hreplace
      obtain ⟨old', new', hold', hnew', herror', -⟩ := shouldReplace_iff.mp hreplace'
      cases hnew.symm.trans hold'
      refine shouldReplace_iff.mpr ⟨old, new', hold, hnew', herror, .inl ?_⟩
      rcases hplace with h | h
      · exact h
      · rw [herror'] at h
        cases h

end

end

end KolegaCode.Conversation
