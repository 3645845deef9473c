import KolegaCode.Conversation.RepairConserve
import KolegaCode.Conversation.Compaction
import KolegaCode.Conversation.Reconciled

/-!
# Conversation — repair and compaction of block objects

`repaired`, `extend` and `effective_history` where blocks are objects: looking through the objects,
it is the repair of values (`repaired_values`).
-/

namespace KolegaCode.Conversation.Objects

open List

/-- Block objects with new results: the `j`-th result of the `i`-th message that is put out. -/
structure ObjectType (β : Type) extends BlockType β where
  newResult : Nat → Nat → ToolCall → β
  view_newResult : ∀ i j c, view (newResult i j c) = .toolResult (placeholder c)

section

variable {β : Type} (types : ObjectType β)

/-- The object of a result. -/
abbrev ResultObject := { b : β // isResult types.toBlockType b = true }

def ResultObject.result {types : ObjectType β} (o : ResultObject types) : ToolResult :=
  (types.view o.1).asToolResult?.get o.2

/-- The tool calls of a message. -/
def calls (m : MessageOf β) : List ToolCall :=
  m.blocks.filterMap fun b => (types.view b).asToolCall?

/-- `tool_calls`, each with its entry of `all_tool_results`. -/
abbrev Slots := List (ToolCall × Option (ResultObject types))

/-- `unmatched_call_index`. -/
def unmatchedCallIndex (slots : Slots types) (r : ToolResult) : Option Nat :=
  slots.findIdx? fun s => s.2.isNone && answers s.1 r

/-- The block as the result of the call it answers, `none` when it is kept as other content. -/
def place (slots : Slots types) (b : β) : Option (Slots types) :=
  if h : isResult types.toBlockType b = true then
    let o : ResultObject types := ⟨b, h⟩
    (unmatchedCallIndex types slots o.result).map fun k =>
      slots.modify k fun s => (s.1, some o)
  else none

/-- The loop over a message's blocks. -/
def gather : Slots types → List β → Slots types × List β
  | slots, [] => (slots, [])
  | slots, b :: bs =>
    match place types slots b with
    | some slots' => gather slots' bs
    | none => ((gather slots bs).1, b :: (gather slots bs).2)

/-- `complete_tool_results`, from the `j`-th call on. -/
def completeToolResults (i j : Nat) : Slots types → List β
  | [] => []
  | s :: slots => (s.2.map Subtype.val).getD (types.newResult i j s.1) ::
      completeToolResults i (j + 1) slots

/-- A message from the current index on, and whether its index is in `processed_indices`. -/
structure Cell (β : Type) where
  msg : MessageOf β
  processed : Bool := false

structure LookAhead where
  slots : Slots types
  other : List β
  rest : List (Cell β)
  next? : Option (MessageOf β)

/-- The check of the immediately following message. -/
def lookAhead (slots : Slots types) : List (Cell β) → LookAhead types
  | [] => ⟨slots, [], [], none⟩
  | ⟨u, p⟩ :: rest =>
    if u.role = .user then
      if u.hasBlocks then
        ⟨(gather types slots u.blocks).1, (gather types slots u.blocks).2, ⟨u, true⟩ :: rest,
          some u⟩
      else ⟨slots, [], ⟨u, p⟩ :: rest, some u⟩
    else ⟨slots, [], ⟨u, p⟩ :: rest, none⟩

/-- What the search leaves of a user message. -/
def leave (m : MessageOf β) (remaining : List β) : Cell β :=
  if remaining.length = m.blocks.length then ⟨m, false⟩
  else if remaining.isEmpty then ⟨m, true⟩
  else ⟨⟨m.role, .inr remaining, m.stopReason, m.toolCalls, m.usageMetadata, none, none⟩, false⟩

/-- The search of the remaining conversation. -/
def search : Slots types → List (Cell β) → Slots types × List (Cell β)
  | slots, [] => (slots, [])
  | slots, c :: rest =>
    if !c.processed ∧ c.msg.role = .user ∧ c.msg.hasBlocks then
      ((search (gather types slots c.msg.blocks).1 rest).1,
        leave c.msg (gather types slots c.msg.blocks).2 ::
          (search (gather types slots c.msg.blocks).1 rest).2)
    else ((search slots rest).1, c :: (search slots rest).2)

/-- The search, made only when a result is missing. -/
def collect (slots : Slots types) (rest : List (Cell β)) : Slots types × List (Cell β) :=
  if slots.any fun s => s.2.isNone then search types slots rest else (slots, rest)

/-- The user message with all results and what else the next user message held. -/
def completeUserMessage (next? : Option (MessageOf β)) (allContent : List β) : MessageOf β where
  role := .user
  content := .inr allContent
  stopReason := next?.bind (·.stopReason)
  toolCalls := (next?.map (·.toolCalls)).getD []
  usageMetadata := (next?.map (·.usageMetadata)).getD []

structure RepairState (β : Type) where
  pending : List (Cell β)
  fixed : List (MessageOf β)

/-- The branch for an assistant message with tool calls. -/
def answerCalls (m : MessageOf β) (rest : List (Cell β)) (fixed : List (MessageOf β)) :
    RepairState β :=
  let la := lookAhead types ((calls types m).map (·, none)) rest
  let (slots, rest') := collect types la.slots la.rest
  let allContent := completeToolResults types fixed.length 0 slots ++ la.other
  if allContent.isEmpty then ⟨rest', fixed ++ [m]⟩
  else ⟨rest', fixed ++ [m, completeUserMessage la.next? allContent]⟩

/-- One iteration of the `while` loop. -/
def repairStep : RepairState β → RepairState β
  | ⟨[], fixed⟩ => ⟨[], fixed⟩
  | ⟨⟨_, true⟩ :: rest, fixed⟩ => ⟨rest, fixed⟩
  | ⟨⟨m, false⟩ :: rest, fixed⟩ =>
    if m.role = .assistant ∧ m.hasBlocks then
      if (calls types m).isEmpty then ⟨rest, fixed ++ [m]⟩ else answerCalls types m rest fixed
    else ⟨rest, fixed ++ [m]⟩

/-- `repaired`. -/
def repaired (messages : List (MessageOf β)) : List (MessageOf β) :=
  ((repairStep types)^[messages.length] ⟨messages.map (⟨·, false⟩), []⟩).fixed

/-- `is_protected`. -/
def isProtected (m : MessageOf β) : Bool :=
  m.role = .user &&
    match m.content with
    | .inl s => KolegaCode.Conversation.skillContentSearch s
    | .inr bs => bs.any fun b =>
        match types.view b with
        | .text b => KolegaCode.Conversation.skillContentSearch b.text
        | _ => false

/-! ### The values -/

/-- A message of values. -/
def erase (m : MessageOf β) : Message where
  role := m.role
  content :=
    match m.content with
    | .inl s => .str s
    | .inr bs => .blocks (bs.map types.view)
  stopReason := m.stopReason
  toolCalls := m.toolCalls
  usageMetadata := m.usageMetadata
  usage := m.usage
  usageObservation := m.usageObservation

def eraseSlots (slots : Slots types) : Conversation.Slots :=
  slots.map fun s => (s.1, s.2.map ResultObject.result)

def eraseCell (c : Cell β) : Conversation.Cell := ⟨erase types c.msg, c.processed⟩

def eraseState (s : RepairState β) : Conversation.RepairState :=
  ⟨s.pending.map (eraseCell types), s.fixed.map (erase types)⟩

section

variable {types}

theorem ResultObject.view_eq (o : ResultObject types) : types.view o.1 = .toolResult o.result :=
  ContentBlock.asToolResult?_eq_some.mp (Option.some_get o.2).symm

variable (m : MessageOf β)

@[simp] theorem blocks_erase :
    (erase types m).blocks = m.blocks.map types.view := by
  unfold Message.blocks MessageOf.blocks erase
  cases m.content <;> rfl

@[simp] theorem hasBlocks_erase : (erase types m).hasBlocks = m.hasBlocks := by
  unfold Message.hasBlocks MessageOf.hasBlocks erase
  cases m.content <;> rfl

@[simp] theorem calls_erase : (erase types m).calls = calls types m := by
  rw [Message.calls, blocks_erase, filterMap_map]
  rfl

theorem unmatchedCallIndex_erase (slots : Slots types) (r : ToolResult) :
    Conversation.unmatchedCallIndex (eraseSlots types slots) r =
      unmatchedCallIndex types slots r := by
  unfold Conversation.unmatchedCallIndex unmatchedCallIndex eraseSlots
  rw [findIdx?_map]
  congr 1
  funext s
  simp

theorem map_modify_comm {α γ : Type} {g : α → γ} {f : α → α} {f' : γ → γ}
    (h : ∀ x, g (f x) = f' (g x)) (l : List α) (k : Nat) :
    (l.modify k f).map g = (l.map g).modify k f' := by
  induction l generalizing k with
  | nil => cases k <;> rfl
  | cons x l ih =>
    cases k with
    | zero => simp [h]
    | succ k => simp [ih]

theorem place_erase (slots : Slots types) (b : β) :
    Conversation.place (eraseSlots types slots) (types.view b) =
      (place types slots b).map (eraseSlots types) := by
  by_cases hb : isResult types.toBlockType b = true
  · let o : ResultObject types := ⟨b, hb⟩
    have hview : types.view b = .toolResult o.result := o.view_eq
    rw [place, dif_pos hb, hview, Conversation.place, unmatchedCallIndex_erase, Option.map_map]
    congr 1
    funext k
    exact (map_modify_comm (g := fun s : ToolCall × Option (ResultObject types) =>
      (s.1, s.2.map ResultObject.result)) (fun _ => rfl) slots k).symm
  · rw [place, dif_neg hb, Option.map_none]
    unfold Conversation.place
    split
    · next r hr =>
      refine absurd ?_ hb
      rw [isResult, hr]
      rfl
    · rfl

theorem gather_erase (slots : Slots types) (bs : List β) :
    Conversation.gather (eraseSlots types slots) (bs.map types.view) =
      (eraseSlots types (gather types slots bs).1, (gather types slots bs).2.map types.view) := by
  induction bs generalizing slots with
  | nil => rfl
  | cons b bs ih =>
    rw [map_cons, Conversation.gather, gather, place_erase]
    cases place types slots b with
    | none =>
      rw [Option.map_none, ih slots]
      rfl
    | some slots' => exact ih slots'

theorem completeToolResults_erase (i j : Nat) (slots : Slots types) :
    (completeToolResults types i j slots).map types.view =
      (Conversation.completeToolResults (eraseSlots types slots)).map .toolResult := by
  induction slots generalizing j with
  | nil => rfl
  | cons s slots ih =>
    obtain ⟨c, o⟩ := s
    rw [completeToolResults, map_cons, ih]
    refine congrArg (· :: _) ?_
    cases o with
    | none => exact types.view_newResult i j c
    | some o => exact o.view_eq

theorem leave_erase (remaining : List β) :
    Conversation.leave (erase types m) (remaining.map types.view) =
      eraseCell types (leave m remaining) := by
  unfold Conversation.leave leave
  rw [blocks_erase, length_map, length_map, isEmpty_map]
  split
  · rfl
  · split <;> rfl

theorem search_erase (slots : Slots types) (cells : List (Cell β)) :
    Conversation.search (eraseSlots types slots) (cells.map (eraseCell types)) =
      (eraseSlots types (search types slots cells).1,
        (search types slots cells).2.map (eraseCell types)) := by
  induction cells generalizing slots with
  | nil => rfl
  | cons c cells ih =>
    rw [map_cons, Conversation.search, search]
    simp only [eraseCell, hasBlocks_erase, blocks_erase, gather_erase]
    have hrole : (erase types c.msg).role = c.msg.role := rfl
    rw [hrole]
    split
    · rw [ih, leave_erase]
      rfl
    · rw [ih]
      rfl

theorem collect_erase (slots : Slots types) (cells : List (Cell β)) :
    Conversation.collect (eraseSlots types slots) (cells.map (eraseCell types)) =
      (eraseSlots types (collect types slots cells).1,
        (collect types slots cells).2.map (eraseCell types)) := by
  have hany : Conversation.incomplete (eraseSlots types slots) =
      slots.any fun s => s.2.isNone := by
    unfold Conversation.incomplete eraseSlots
    rw [any_map]
    congr 1
    funext s
    simp
  unfold Conversation.collect collect
  rw [hany]
  split
  · exact search_erase slots cells
  · rfl

/-- What the look-ahead yields, as values. -/
def LookAhead.erase (la : LookAhead types) : Conversation.LookAhead :=
  ⟨eraseSlots types la.slots, la.other.map types.view, la.rest.map (eraseCell types),
    la.next?.map (Objects.erase types)⟩

theorem lookAhead_erase (slots : Slots types) (cells : List (Cell β)) :
    Conversation.lookAhead (eraseSlots types slots) (cells.map (eraseCell types)) =
      (lookAhead types slots cells).erase := by
  match cells with
  | [] => rfl
  | ⟨u, p⟩ :: rest =>
    have hrole : (erase types u).role = u.role := rfl
    rw [map_cons, eraseCell, Conversation.lookAhead, lookAhead, hrole, hasBlocks_erase,
      blocks_erase, gather_erase]
    split
    · split <;> rfl
    · rfl

theorem completeUserMessage_erase (next? : Option (MessageOf β)) (content : List β) :
    Conversation.completeUserMessage (next?.map (erase types)) (content.map types.view) =
      erase types (completeUserMessage next? content) := by
  cases next? <;> rfl

theorem answerCalls_erase (rest : List (Cell β)) (fixed : List (MessageOf β)) :
    Conversation.answerCalls (erase types m) (rest.map (eraseCell types))
        (fixed.map (erase types)) = eraseState types (answerCalls types m rest fixed) := by
  have hslots : (erase types m).calls.map (·, none) =
      eraseSlots types ((calls types m).map (·, none)) := by
    rw [calls_erase, eraseSlots, map_map]
    rfl
  unfold Conversation.answerCalls answerCalls
  rw [hslots, lookAhead_erase]
  simp only [LookAhead.erase, collect_erase]
  rw [← completeToolResults_erase fixed.length 0, ← map_append, isEmpty_map]
  split
  · simp [eraseState]
  · rw [completeUserMessage_erase]
    simp [eraseState]

theorem repairStep_erase (s : RepairState β) :
    Conversation.repairStep (eraseState types s) = eraseState types (repairStep types s) := by
  match s with
  | ⟨[], fixed⟩ => rfl
  | ⟨⟨_, true⟩ :: rest, fixed⟩ => rfl
  | ⟨⟨m, false⟩ :: rest, fixed⟩ =>
    have hrole : (erase types m).role = m.role := rfl
    simp only [eraseState, map_cons, eraseCell, Conversation.repairStep, repairStep, hrole,
      hasBlocks_erase, calls_erase]
    split
    · split
      · simp
      · exact answerCalls_erase m rest fixed
    · simp

theorem iterate_repairStep_erase (n : Nat) (s : RepairState β) :
    Conversation.repairStep^[n] (eraseState types s) =
      eraseState types ((repairStep types)^[n] s) := by
  induction n generalizing s with
  | zero => rfl
  | succ n ih =>
    rw [Function.iterate_succ_apply, Function.iterate_succ_apply, repairStep_erase, ih]

/-- **Looking through the objects, it is the repair of values.** -/
theorem repaired_values (messages : List (MessageOf β)) :
    (repaired types messages).map (erase types) =
      Conversation.repaired (messages.map (erase types)) := by
  have hstart : (⟨(messages.map (erase types)).map (⟨·, false⟩), []⟩ : Conversation.RepairState) =
      eraseState types ⟨messages.map (⟨·, false⟩), []⟩ := by
    simp [eraseState, eraseCell]
  rw [Conversation.repaired, hstart, iterate_repairStep_erase, length_map]
  rfl

/-! ### No block but a result is lost -/

/-- The blocks that a cell will put out. -/
def live (cells : List (Cell β)) : List β :=
  cells.flatMap fun c => if c.processed then [] else c.msg.blocks

variable {cells : List (Cell β)} {b : β} {slots : Slots types}

theorem mem_live_cons {c : Cell β} :
    b ∈ live (c :: cells) ↔ c.processed = false ∧ b ∈ c.msg.blocks ∨ b ∈ live cells := by
  rw [live, flatMap_cons, mem_append]
  cases c.processed <;> simp [live]

theorem mem_gather (slots : Slots types) {bs : List β} (hb : isResult types.toBlockType b = false)
    (h : b ∈ bs) : b ∈ (gather types slots bs).2 := by
  induction bs generalizing slots with
  | nil => cases h
  | cons x bs ih =>
    rw [gather]
    cases hplace : place types slots x with
    | none =>
      rcases mem_cons.mp h with rfl | h
      · exact mem_cons_self
      · exact mem_cons_of_mem _ (ih _ h)
    | some slots' =>
      rcases mem_cons.mp h with rfl | h
      · rw [place, dif_neg (by rw [hb]; decide)] at hplace
        cases hplace
      · exact ih _ h

section

variable (hb : isResult types.toBlockType b = false)
include hb

theorem mem_live_search (h : b ∈ live cells) : b ∈ live (search types slots cells).2 := by
  induction cells generalizing slots with
  | nil => cases h
  | cons c cells ih =>
    rw [search]
    split
    · rcases mem_live_cons.mp h with ⟨hc, h⟩ | h
      · have hrest := mem_gather slots hb h
        refine mem_live_cons.mpr (.inl ?_)
        unfold leave
        split
        · exact ⟨rfl, h⟩
        · split
          · next hempty => rw [List.isEmpty_iff.mp hempty] at hrest; cases hrest
          · exact ⟨rfl, hrest⟩
      · exact mem_live_cons.mpr (.inr (ih h))
    · exact mem_live_cons.mpr ((mem_live_cons.mp h).imp_right ih)

theorem mem_live_collect (h : b ∈ live cells) : b ∈ live (collect types slots cells).2 := by
  unfold collect
  split
  · exact mem_live_search hb h
  · exact h

theorem mem_lookAhead (h : b ∈ live cells) :
    b ∈ (lookAhead types slots cells).other ∨ b ∈ live (lookAhead types slots cells).rest := by
  match cells with
  | [] => cases h
  | ⟨u, p⟩ :: rest =>
    rw [lookAhead]
    split
    · split
      · exact (mem_live_cons.mp h).imp (fun h => mem_gather _ hb h.2)
          fun h => mem_live_cons.mpr (.inr h)
      · exact .inr h
    · exact .inr h

theorem repairStep_keeps {s : RepairState β}
    (h : b ∈ s.fixed.flatMap MessageOf.blocks ∨ b ∈ live s.pending) :
    b ∈ (repairStep types s).fixed.flatMap MessageOf.blocks ∨
      b ∈ live (repairStep types s).pending := by
  match s with
  | ⟨[], fixed⟩ => exact h
  | ⟨⟨_, true⟩ :: rest, fixed⟩ =>
    exact h.imp_right fun h => (mem_live_cons.mp h).resolve_left fun h => by cases h.1
  | ⟨⟨m, false⟩ :: rest, fixed⟩ =>
    have hplain : b ∈ (fixed ++ [m]).flatMap MessageOf.blocks ∨ b ∈ live rest := by
      rcases h with h | h
      · exact .inl (by simp [mem_flatMap.mp h])
      · exact (mem_live_cons.mp h).imp_left fun h => by simp [h.2]
    simp only [repairStep]
    split
    · split
      · exact hplain
      · rw [answerCalls]
        dsimp only
        generalize hla : lookAhead types ((calls types m).map (·, none)) rest = la
        have hkeep : b ∈ live rest → b ∈ la.other ∨ b ∈ live (collect types la.slots la.rest).2 :=
          fun h => (hla ▸ mem_lookAhead hb h).imp_right (mem_live_collect hb)
        split
        · next hempty =>
          have hother := (append_eq_nil_iff.mp (List.isEmpty_iff.mp hempty)).2
          refine hplain.imp_right fun h => (hkeep h).resolve_left fun h => ?_
          rw [hother] at h
          cases h
        · rcases hplain with h | h
          · rw [flatMap_append] at h ⊢
            refine .inl (mem_append.mpr ((mem_append.mp h).imp_right fun h => ?_))
            simp at h
            simp [h]
          · refine (hkeep h).imp_left fun h => ?_
            simp [completeUserMessage, MessageOf.blocks, h]
    · exact hplain

end

/-- **The repair loses no block but results.** -/
theorem mem_repaired {messages : List (MessageOf β)} (hb : isResult types.toBlockType b = false)
    (h : b ∈ messages.flatMap MessageOf.blocks) :
    b ∈ (repaired types messages).flatMap MessageOf.blocks := by
  have hiterate : ∀ (n : Nat) (s : RepairState β),
      b ∈ s.fixed.flatMap MessageOf.blocks ∨ b ∈ live s.pending →
      b ∈ ((repairStep types)^[n] s).fixed.flatMap MessageOf.blocks ∨
        b ∈ live ((repairStep types)^[n] s).pending := by
    intro n
    induction n with
    | zero => exact fun s h => h
    | succ n ih =>
      intro s h
      rw [Function.iterate_succ_apply]
      exact ih _ (repairStep_keeps hb h)
  have hpending : ((repairStep types)^[messages.length] ⟨messages.map (⟨·, false⟩), []⟩).pending =
      [] := by
    have herase := iterate_repairStep_pending
      (eraseState types ⟨messages.map (⟨·, false⟩), []⟩) messages.length (by simp [eraseState])
    rw [iterate_repairStep_erase] at herase
    exact map_eq_nil_iff.mp herase
  have hstart : b ∈ live (messages.map ((⟨·, false⟩) : MessageOf β → Cell β)) := by
    rw [live, flatMap_map]
    exact h
  refine (hiterate messages.length ⟨messages.map (⟨·, false⟩), []⟩ (.inr hstart)).resolve_right ?_
  rw [hpending]
  exact not_mem_nil

end

end

end KolegaCode.Conversation.Objects
