import KolegaCode.Conversation.RepairValid
import Mathlib.Algebra.Order.Group.Multiset
import Mathlib.Tactic.Abel

/-!
# Conversation — what the repair keeps, adds and repeats

The blocks of `repaired ms` are the input's blocks, the placeholders of the calls for which no
result was found, and the blocks of the messages read as a look-ahead after the search had emptied
them (`repaired_items`).  The bag of what is emitted and still to be emitted (`total`) is changed by
an iteration's own placeholders and repetitions only (`repairStep_total`).
-/

namespace KolegaCode.Conversation

open List

/-! ### Accounting for blocks -/

/-- What a message holds: its string, or its blocks. -/
inductive Item where
  | str (s : String)
  | block (b : ContentBlock)

def messageItems (m : Message) : List Item :=
  match m.content with
  | .str s => [.str s]
  | .blocks bs => bs.map .block

def items (ms : List Message) : List Item := ms.flatMap messageItems

theorem messageItems_of_hasBlocks {m : Message} (h : m.hasBlocks = true) :
    messageItems m = m.blocks.map .block := by
  unfold Message.hasBlocks at h
  unfold messageItems Message.blocks
  cases hc : m.content with
  | str s => rw [hc] at h; cases h
  | blocks bs => rfl

/-- Blocks, as a bag of items. -/
def bag (bs : List ContentBlock) : Multiset Item := bs.map Item.block

@[simp] theorem bag_nil : bag [] = 0 := rfl

@[simp] theorem bag_append (as bs : List ContentBlock) : bag (as ++ bs) = bag as + bag bs := by
  simp [bag]

theorem bag_cons (b : ContentBlock) (bs : List ContentBlock) :
    bag (b :: bs) = bag [b] + bag bs := bag_append [b] bs

/-- The results found so far. -/
def found (slots : Slots) : List ContentBlock := (slots.filterMap Prod.snd).map .toolResult

/-- The calls without a result. -/
def unmatched (slots : Slots) : List ToolCall :=
  slots.filterMap fun s => if s.2.isNone then some s.1 else none

/-- The items of the cells the pass has yet to emit. -/
def live : List Cell → Multiset Item
  | [] => 0
  | c :: cells => (if c.processed then 0 else ↑(messageItems c.msg)) + live cells

/-- The blocks a look-ahead reads a second time: those of a message already processed. -/
def stale : List Cell → List ContentBlock
  | ⟨u, true⟩ :: _ => if u.role = .user then u.blocks else []
  | _ => []

theorem found_fresh (cs : List ToolCall) : found (cs.map (·, none)) = [] := by
  simp [found]

variable (slots : Slots)

theorem gather_items (bs : List ContentBlock) :
    bag (found (gather slots bs).1) + bag (gather slots bs).2 = bag (found slots) + bag bs := by
  induction bs generalizing slots with
  | nil => rfl
  | cons b bs ih =>
    rw [bag_cons b bs]
    cases h : place slots b with
    | none =>
      rw [gather_cons_none h, bag_cons, add_left_comm, ih, add_left_comm]
    | some slots' =>
      rw [gather_cons_some h, ih]
      obtain ⟨r, a, c, t, rfl, rfl, rfl, -⟩ := place_some h
      have hf : bag (found (a ++ (c, some r) :: t)) =
          bag (found (a ++ (c, none) :: t)) + bag [.toolResult r] := by
        simp only [found, filterMap_append, filterMap_cons, map_append, map_cons, bag_append]
        rw [bag_cons, add_assoc, add_comm (bag [_])]
      rw [hf, add_assoc]

theorem completeToolResults_items :
    bag ((completeToolResults slots).map .toolResult) =
      bag (found slots) + bag ((unmatched slots).map fun c => .toolResult (placeholder c)) := by
  induction slots with
  | nil => rfl
  | cons s slots ih =>
    obtain ⟨c, o⟩ := s
    cases o with
    | some r =>
      have hf : bag (found ((c, some r) :: slots)) = bag [.toolResult r] + bag (found slots) :=
        bag_cons _ (found slots)
      rw [hf, add_assoc, show unmatched ((c, some r) :: slots) = unmatched slots from rfl, ← ih]
      exact bag_cons _ ((completeToolResults slots).map .toolResult)
    | none =>
      have hu : bag ((unmatched ((c, none) :: slots)).map fun c => .toolResult (placeholder c)) =
          bag [.toolResult (placeholder c)] +
            bag ((unmatched slots).map fun c => .toolResult (placeholder c)) :=
        bag_cons _ ((unmatched slots).map fun c => .toolResult (placeholder c))
      rw [hu, show found ((c, none) :: slots) = found slots from rfl, add_left_comm, ← ih]
      exact bag_cons _ ((completeToolResults slots).map .toolResult)

theorem live_leave {m : Message} {remaining : List ContentBlock} (hb : m.hasBlocks = true)
    (h : remaining.Sublist m.blocks) (cells : List Cell) :
    live (leave m remaining :: cells) = bag remaining + live cells := by
  unfold leave
  split
  · rename_i hl
    simp [live, bag, messageItems_of_hasBlocks hb, h.eq_of_length hl]
  · split
    · rename_i he
      simp [live, bag, List.isEmpty_iff.mp he]
    · simp [live, bag, messageItems]

theorem search_items (cells : List Cell) :
    bag (found (search slots cells).1) + live (search slots cells).2 =
      bag (found slots) + live cells := by
  induction cells generalizing slots with
  | nil => rfl
  | cons c cells ih =>
    simp only [search]
    split
    · rename_i hc
      obtain ⟨hp, -, hb⟩ := hc
      have hl : live (c :: cells) = bag c.msg.blocks + live cells := by
        simp only [Bool.not_eq_true'] at hp
        simp [live, hp, bag, messageItems_of_hasBlocks hb]
      simp only
      rw [live_leave hb (gather_sublist _ _), hl, add_left_comm, ih, ← add_assoc,
        add_comm (bag _) (bag (found _)), gather_items, add_assoc]
    · simp only [live]
      rw [add_left_comm, ih, add_left_comm]

theorem collect_items (cells : List Cell) :
    bag (found (collect slots cells).1) + live (collect slots cells).2 =
      bag (found slots) + live cells := by
  unfold collect
  split
  · exact search_items slots cells
  · rfl

theorem lookAhead_items (cells : List Cell) :
    bag (found (lookAhead slots cells).slots) + bag (lookAhead slots cells).other +
        live (lookAhead slots cells).rest =
      bag (found slots) + live cells + bag (stale cells) := by
  cases cells with
  | nil => rfl
  | cons c rest =>
    obtain ⟨u, p⟩ := c
    simp only [lookAhead]
    split
    · rename_i hu
      split
      · rename_i hb
        have hi : (↑(messageItems u) : Multiset Item) = bag u.blocks := by
          rw [messageItems_of_hasBlocks hb]; rfl
        simp only
        rw [gather_items]
        cases p with
        | false => simp [live, stale, hi, add_assoc]
        | true => simp [live, stale, hu, add_assoc, add_comm, add_left_comm]
      · rename_i hb
        have hnil := Message.blocks_eq_nil_of_not_hasBlocks (Bool.not_eq_true _ ▸ hb)
        cases p <;> simp [stale, hnil]
    · rename_i hu
      cases p <;> simp [stale, hu]

/-! ### Accounting for the pass -/

/-- The calls for which one iteration adds a placeholder. -/
def stepPlaceholders : RepairState → List ToolCall
  | ⟨⟨m, false⟩ :: rest, _⟩ =>
      if m.role = .assistant ∧ m.hasBlocks then unmatched (settled m rest).1 else []
  | _ => []

/-- The blocks one iteration emits a second time. -/
def stepRepeated : RepairState → List ContentBlock
  | ⟨⟨m, false⟩ :: rest, _⟩ =>
      if m.role = .assistant ∧ m.hasBlocks ∧ m.calls ≠ [] then stale rest else []
  | _ => []

def runPlaceholders : Nat → RepairState → List ToolCall
  | 0, _ => []
  | n + 1, st => stepPlaceholders st ++ runPlaceholders n (repairStep st)

def runRepeated : Nat → RepairState → List ContentBlock
  | 0, _ => []
  | n + 1, st => stepRepeated st ++ runRepeated n (repairStep st)

/-- What is emitted and what is still to be emitted. -/
def total (st : RepairState) : Multiset Item := ↑(items st.fixed) + live st.pending

def placeholderBag (cs : List ToolCall) : Multiset Item :=
  bag (cs.map fun c => .toolResult (placeholder c))

theorem placeholderBag_eq (cs : List ToolCall) :
    placeholderBag cs = ↑(cs.map fun c => Item.block (.toolResult (placeholder c))) := by
  simp [placeholderBag, bag, Function.comp_def]

theorem placeholderBag_append (as bs : List ToolCall) :
    placeholderBag (as ++ bs) = placeholderBag as + placeholderBag bs := by
  simp [placeholderBag]

/-- A message moved from the pending cells to the output. -/
theorem total_emit (m : Message) (rest : List Cell) (fixed : List Message) :
    total ⟨rest, fixed ++ [m]⟩ = total ⟨⟨m, false⟩ :: rest, fixed⟩ := by
  simp [total, items, live, ← Multiset.coe_add, add_assoc]

theorem answerCalls_total {m : Message} (hc : m.calls ≠ []) (rest : List Cell)
    (fixed : List Message) :
    total (answerCalls m rest fixed) = total ⟨⟨m, false⟩ :: rest, fixed⟩ +
      placeholderBag (unmatched (settled m rest).1) + bag (stale rest) := by
  have h₁ := lookAhead_items (m.calls.map (·, none)) rest
  have h₂ := collect_items (lookAhead (m.calls.map (·, none)) rest).slots
    (lookAhead (m.calls.map (·, none)) rest).rest
  have h₃ := completeToolResults_items (settled m rest).1
  rw [found_fresh, bag_nil, zero_add] at h₁
  have hitems : (↑(items (fixed ++ [m, completeUserMessage
      (lookAhead (m.calls.map (·, none)) rest).next?
      ((completeToolResults (settled m rest).1).map .toolResult ++
        (lookAhead (m.calls.map (·, none)) rest).other)])) : Multiset Item) =
      ↑(items fixed) + ↑(messageItems m) +
        (bag ((completeToolResults (settled m rest).1).map .toolResult) +
          bag (lookAhead (m.calls.map (·, none)) rest).other) := by
    rw [← bag_append]
    simp [items, messageItems, completeUserMessage, bag]
  rw [answerCalls_eq hc, total, hitems, h₃, total, live]
  simp only [Bool.false_eq_true, if_false]
  -- both sides regroup around the results found
  have h₄ : bag (found (settled m rest).1) + live (settled m rest).2 +
      bag (lookAhead (m.calls.map (·, none)) rest).other = live rest + bag (stale rest) := by
    rw [settled, h₂, add_right_comm, h₁]
  calc _ = ↑(items fixed) + ↑(messageItems m) + placeholderBag (unmatched (settled m rest).1) +
        (bag (found (settled m rest).1) + live (settled m rest).2 +
          bag (lookAhead (m.calls.map (·, none)) rest).other) := by
          rw [placeholderBag]; abel
    _ = _ := by rw [h₄]; abel

/-- **One iteration**, accounted for. -/
theorem repairStep_total (st : RepairState) :
    total (repairStep st) =
      total st + placeholderBag (stepPlaceholders st) + bag (stepRepeated st) := by
  obtain ⟨pending, fixed⟩ := st
  match pending with
  | [] => simp [repairStep, stepPlaceholders, stepRepeated, placeholderBag]
  | ⟨m, true⟩ :: rest =>
    simp [repairStep, stepPlaceholders, stepRepeated, placeholderBag, total, live]
  | ⟨m, false⟩ :: rest =>
    simp only [repairStep, stepPlaceholders, stepRepeated]
    by_cases ha : m.role = .assistant ∧ m.hasBlocks
    · by_cases hc : m.calls = []
      · have hu : unmatched (settled m rest).1 = [] := by
          have h := settled_calls m rest
          rw [hc, map_eq_nil_iff] at h
          rw [h]; rfl
        rw [if_pos ha, if_pos (List.isEmpty_iff.mpr hc), if_pos ha, if_neg (by simp [hc]), hu,
          total_emit]
        simp [placeholderBag]
      · rw [if_pos ha, if_neg (by simpa using hc), if_pos ha, if_pos ⟨ha.1, ha.2, hc⟩]
        exact answerCalls_total hc rest fixed
    · rw [if_neg ha, if_neg ha, if_neg (fun h => ha ⟨h.1, h.2.1⟩), total_emit]
      simp [placeholderBag]

theorem iterate_repairStep_total (n : Nat) (st : RepairState) :
    total (repairStep^[n] st) =
      total st + placeholderBag (runPlaceholders n st) + bag (runRepeated n st) := by
  induction n generalizing st with
  | zero => simp [runPlaceholders, runRepeated, placeholderBag]
  | succ n ih =>
    rw [Function.iterate_succ_apply, ih, repairStep_total]
    simp only [runPlaceholders, runRepeated, placeholderBag_append, bag_append]
    abel

/-- The state the pass starts from. -/
def repairStart (ms : List Message) : RepairState := ⟨ms.map (⟨·, false⟩), []⟩

theorem live_start (ms : List Message) : live (ms.map (⟨·, false⟩)) = ↑(items ms) := by
  induction ms with
  | nil => rfl
  | cons m ms ih =>
    rw [map_cons, live, ih]
    simp [items]

theorem repairStep_pending_length (st : RepairState) :
    (repairStep st).pending.length = st.pending.length - 1 := by
  obtain ⟨pending, fixed⟩ := st
  match pending with
  | [] => rfl
  | ⟨_, true⟩ :: rest => rfl
  | ⟨m, false⟩ :: rest =>
    simp only [repairStep]
    split
    · split
      · rfl
      · rename_i hc
        rw [answerCalls_eq (by simpa using hc)]
        exact settled_length m rest
    · rfl

theorem iterate_repairStep_pending (st : RepairState) :
    ∀ n, st.pending.length ≤ n → (repairStep^[n] st).pending = []
  | 0, h => eq_nil_of_length_eq_zero (Nat.le_zero.mp h)
  | n + 1, h => by
      rw [Function.iterate_succ_apply]
      refine iterate_repairStep_pending _ n ?_
      rw [repairStep_pending_length]
      omega

/-- **The blocks of the repaired history.** -/
theorem repaired_items (ms : List Message) :
    (↑(items (repaired ms)) : Multiset Item) =
      ↑(items ms) + placeholderBag (runPlaceholders ms.length (repairStart ms)) +
        bag (runRepeated ms.length (repairStart ms)) := by
  have h := iterate_repairStep_total ms.length (repairStart ms)
  have hp := iterate_repairStep_pending (repairStart ms) ms.length (by simp [repairStart])
  rw [total, hp, live, add_zero] at h
  rw [show repaired ms = (repairStep^[ms.length] (repairStart ms)).fixed from rfl, h, total]
  simp [repairStart, live_start, items]

end KolegaCode.Conversation
