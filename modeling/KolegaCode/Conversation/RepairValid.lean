import KolegaCode.Conversation.Repair

/-!
# Conversation — the repaired history is valid

The pass emits an assistant message with calls only together with the user message that answers
it, so validity (`repaired_valid`) reduces to that pair (`valid_pair`).  In the pair, a placeholder
carries its call's id by construction; a collected result carries it because it answers the call
(`FilledFrom`) and comes from the input (`BlocksFrom`).
-/

namespace KolegaCode.Conversation

open List

/-! ### Placing one block -/

variable {slots : Slots} {b : ContentBlock} {bs S : List ContentBlock} {cells : List Cell}
  {m : Message}

theorem unmatchedCallIndex_some {r : ToolResult} {k : Nat}
    (h : unmatchedCallIndex slots r = some k) :
    ∃ a c t, slots = a ++ (c, none) :: t ∧ a.length = k ∧ answers c r = true := by
  obtain ⟨hk, hp, -⟩ := findIdx?_eq_some_iff_getElem.mp h
  simp only [Bool.and_eq_true, Option.isNone_iff_eq_none] at hp
  refine ⟨slots.take k, slots[k].1, slots.drop (k + 1), ?_, ?_, hp.2⟩
  · have hs : slots[k] = (slots[k].1, none) := Prod.ext rfl hp.1
    rw [← hs, getElem_cons_drop, take_append_drop]
  · rw [length_take, Nat.min_eq_left (Nat.le_of_lt hk)]

/-- A placed block is a result, and fills the slot of a call it answers. -/
theorem place_some {slots' : Slots} (h : place slots b = some slots') :
    ∃ r a c t, b = .toolResult r ∧ slots = a ++ (c, none) :: t ∧
      slots' = a ++ (c, some r) :: t ∧ answers c r = true := by
  cases b with
  | toolResult r =>
    simp only [place, Option.map_eq_some_iff] at h
    obtain ⟨k, hk, rfl⟩ := h
    obtain ⟨a, c, t, rfl, rfl, hc⟩ := unmatchedCallIndex_some hk
    refine ⟨r, a, c, t, rfl, rfl, ?_, hc⟩
    rw [modify_eq_take_cons_drop (by simp)]
    simp
  | _ => cases h

theorem place_none {r : ToolResult} (h : place slots (.toolResult r) = none) :
    ∀ c, (c, none) ∈ slots → answers c r = false := by
  intro c hc
  simp only [place, Option.map_eq_none_iff, unmatchedCallIndex, findIdx?_eq_none_iff] at h
  simpa using h _ hc

/-! ### The blocks of one message -/

theorem gather_cons_some {slots' : Slots} (h : place slots b = some slots') :
    gather slots (b :: bs) = gather slots' bs := by
  simp only [gather, h]

theorem gather_cons_none (h : place slots b = none) :
    gather slots (b :: bs) = ((gather slots bs).1, b :: (gather slots bs).2) := by
  simp only [gather, h]

/-- The kept blocks are some of the message's, in order. -/
theorem gather_sublist (slots : Slots) (bs : List ContentBlock) :
    (gather slots bs).2.Sublist bs := by
  induction bs generalizing slots with
  | nil => exact .slnil
  | cons b bs ih =>
    cases h : place slots b with
    | some slots' => rw [gather_cons_some h]; exact (ih slots').cons b
    | none => rw [gather_cons_none h]; exact (ih slots).cons_cons b

theorem gather_calls (slots : Slots) (bs : List ContentBlock) :
    (gather slots bs).1.map Prod.fst = slots.map Prod.fst := by
  induction bs generalizing slots with
  | nil => rfl
  | cons b bs ih =>
    cases h : place slots b with
    | some slots' =>
      obtain ⟨r, a, c, t, rfl, rfl, rfl, -⟩ := place_some h
      rw [gather_cons_some h, ih]; simp
    | none => rw [gather_cons_none h]; exact ih slots

/-- Every result in `slots` answers its call and is a block of `S`. -/
def FilledFrom (S : List ContentBlock) (slots : Slots) : Prop :=
  ∀ c r, (c, some r) ∈ slots → answers c r = true ∧ .toolResult r ∈ S

theorem filledFrom_fresh (S : List ContentBlock) (cs : List ToolCall) :
    FilledFrom S (cs.map (·, none)) := by
  intro c r h
  simp at h

theorem FilledFrom.gather (hs : FilledFrom S slots) (hb : ∀ b ∈ bs, b ∈ S) :
    FilledFrom S (gather slots bs).1 := by
  induction bs generalizing slots with
  | nil => exact hs
  | cons b bs ih =>
    have hb' : ∀ b ∈ bs, b ∈ S := fun b h => hb b (mem_cons_of_mem _ h)
    cases h : place slots b with
    | none => rw [gather_cons_none h]; exact ih hs hb'
    | some slots' =>
      rw [gather_cons_some h]
      obtain ⟨r, a, c, t, rfl, rfl, rfl, hc⟩ := place_some h
      refine ih (fun c' r' h' => ?_) hb'
      simp only [mem_append, mem_cons, Prod.mk.injEq, Option.some.injEq] at h'
      rcases h' with h' | ⟨rfl, rfl⟩ | h'
      · exact hs c' r' (by simp [h'])
      · exact ⟨hc, hb _ mem_cons_self⟩
      · exact hs c' r' (by simp [h'])

/-! ### The cells after the current message -/

/-- Every block of every cell is a block of `S`. -/
def BlocksFrom (S : List ContentBlock) (cells : List Cell) : Prop :=
  ∀ c ∈ cells, ∀ b ∈ c.msg.blocks, b ∈ S

theorem BlocksFrom.tail {c : Cell} (h : BlocksFrom S (c :: cells)) : BlocksFrom S cells :=
  fun d hd => h d (mem_cons_of_mem _ hd)

theorem BlocksFrom.cons {S : List ContentBlock} {c : Cell} {cells : List Cell}
    (hc : ∀ b ∈ c.msg.blocks, b ∈ S) (h : BlocksFrom S cells) : BlocksFrom S (c :: cells) := by
  intro d hd
  rcases mem_cons.mp hd with rfl | hd
  · exact hc
  · exact h d hd

theorem leave_blocks {remaining : List ContentBlock} (h : remaining.Sublist m.blocks) :
    ∀ b ∈ (leave m remaining).msg.blocks, b ∈ m.blocks := by
  intro b hb
  unfold leave at hb
  split at hb
  · exact hb
  · split at hb
    · exact hb
    · exact h.subset hb

theorem search_sound (hs : FilledFrom S slots) (hc : BlocksFrom S cells) :
    FilledFrom S (search slots cells).1 ∧ BlocksFrom S (search slots cells).2 := by
  induction cells generalizing slots with
  | nil => exact ⟨hs, hc⟩
  | cons c cells ih =>
    simp only [search]
    have hb : ∀ b ∈ c.msg.blocks, b ∈ S := hc c mem_cons_self
    split
    · obtain ⟨h₁, h₂⟩ := ih (hs.gather hb) hc.tail
      refine ⟨h₁, .cons (fun b h => hb b ?_) h₂⟩
      exact leave_blocks (gather_sublist _ _) b h
    · obtain ⟨h₁, h₂⟩ := ih hs hc.tail
      exact ⟨h₁, .cons hb h₂⟩

theorem collect_sound (hs : FilledFrom S slots) (hc : BlocksFrom S cells) :
    FilledFrom S (collect slots cells).1 ∧ BlocksFrom S (collect slots cells).2 := by
  unfold collect
  split
  · exact search_sound hs hc
  · exact ⟨hs, hc⟩

theorem lookAhead_sound (hs : FilledFrom S slots) (hc : BlocksFrom S cells) :
    FilledFrom S (lookAhead slots cells).slots ∧ BlocksFrom S (lookAhead slots cells).rest := by
  cases cells with
  | nil => exact ⟨hs, hc⟩
  | cons c rest =>
    simp only [lookAhead]
    have hb : ∀ b ∈ c.msg.blocks, b ∈ S := hc c mem_cons_self
    split
    · split
      · exact ⟨hs.gather hb, .cons hb hc.tail⟩
      · exact ⟨hs, hc⟩
    · exact ⟨hs, hc⟩

/-! ### The slots and the cells after an assistant message -/

/-- The result slots after the assistant message `m`'s look-ahead and search, and the cells that
follow it. -/
def settled (m : Message) (rest : List Cell) : Slots × List Cell :=
  collect (lookAhead (m.calls.map (·, none)) rest).slots
    (lookAhead (m.calls.map (·, none)) rest).rest

theorem settled_sound {rest : List Cell} (hc : BlocksFrom S rest) :
    FilledFrom S (settled m rest).1 ∧ BlocksFrom S (settled m rest).2 :=
  have h := lookAhead_sound (filledFrom_fresh S m.calls) hc
  collect_sound h.1 h.2

theorem search_calls (slots : Slots) (cells : List Cell) :
    (search slots cells).1.map Prod.fst = slots.map Prod.fst := by
  induction cells generalizing slots with
  | nil => rfl
  | cons c cells ih =>
    simp only [search]
    split
    · exact (ih _).trans (gather_calls _ _)
    · exact ih _

theorem search_length (slots : Slots) (cells : List Cell) :
    (search slots cells).2.length = cells.length := by
  induction cells generalizing slots with
  | nil => rfl
  | cons c cells ih =>
    simp only [search]
    split <;> simp [ih]

theorem settled_calls (m : Message) (rest : List Cell) :
    (settled m rest).1.map Prod.fst = m.calls := by
  have hl : (lookAhead (m.calls.map (·, none)) rest).slots.map Prod.fst = m.calls := by
    have h₀ : (m.calls.map fun c => (c, (none : Option ToolResult))).map Prod.fst = m.calls := by
      rw [map_map]; exact map_id _
    cases rest with
    | nil => exact h₀
    | cons c rest =>
      simp only [lookAhead]
      split
      · split
        · exact (gather_calls _ _).trans h₀
        · exact h₀
      · exact h₀
  unfold settled collect
  split
  · rw [search_calls, hl]
  · exact hl

theorem settled_length (m : Message) (rest : List Cell) :
    (settled m rest).2.length = rest.length := by
  have hl : (lookAhead (m.calls.map (·, none)) rest).rest.length = rest.length := by
    cases rest with
    | nil => rfl
    | cons c rest =>
      simp only [lookAhead]
      split
      · split <;> rfl
      · rfl
  unfold settled collect
  split
  · rw [search_length, hl]
  · exact hl

/-- The branch for an assistant message with calls emits it and its complete user message. -/
theorem answerCalls_eq (hc : m.calls ≠ []) (rest : List Cell) (fixed : List Message) :
    answerCalls m rest fixed = ⟨(settled m rest).2, fixed ++ [m, completeUserMessage
      (lookAhead (m.calls.map (·, none)) rest).next?
      ((completeToolResults (settled m rest).1).map .toolResult ++
        (lookAhead (m.calls.map (·, none)) rest).other)]⟩ := by
  have hne : completeToolResults (settled m rest).1 ≠ [] := by
    intro h
    have := settled_calls m rest
    rw [map_eq_nil_iff.mp h] at this
    exact hc this.symm
  simp only [answerCalls]
  rw [if_neg]
  · rfl
  · intro h
    simp only [List.isEmpty_iff, append_eq_nil_iff, map_eq_nil_iff] at h
    exact hne h.1

/-! ### Validity of what is emitted -/

theorem isValidForAnthropic_append {xs ys : List Message} (hx : isValidForAnthropic xs = true)
    (hy : isValidForAnthropic ys = true) : isValidForAnthropic (xs ++ ys) = true := by
  induction xs with
  | nil => exact hy
  | cons m xs ih =>
    simp only [isValidForAnthropic, Bool.and_eq_true] at hx
    simp only [cons_append, isValidForAnthropic, Bool.and_eq_true]
    refine ⟨?_, ih hx.2⟩
    cases xs with
    | cons n xs => exact hx.1
    | nil =>
      -- a valid message with no successor has no calls, so any successor will do
      have h := hx.1
      simp only [answeredBy, head?_nil] at h
      simp only [answeredBy]
      split
      · split
        · rfl
        · simp_all
      · rfl

theorem valid_single (h : ¬(m.role = .assistant ∧ m.hasBlocks) ∨ m.calls = []) :
    isValidForAnthropic [m] = true := by
  rcases h with h | h <;> simp [isValidForAnthropic, answeredBy, h]

theorem valid_pair {other : List ContentBlock} {next? : Option Message}
    (hm : m.calls = slots.map Prod.fst) (hid : ∀ c r, (c, some r) ∈ slots → r.toolUseId = c.id) :
    isValidForAnthropic
      [m, completeUserMessage next? ((completeToolResults slots).map .toolResult ++ other)] =
        true := by
  refine Bool.and_eq_true_iff.mpr ⟨?_, valid_single (.inl (by simp [completeUserMessage]))⟩
  simp only [answeredBy, head?_cons]
  split
  · split
    · rfl
    · simp only [completeUserMessage, Message.hasBlocks, decide_true, Bool.and_self, Bool.true_and,
        all_eq_true, any_eq_true, decide_eq_true_eq]
      intro c hc
      rw [hm] at hc
      obtain ⟨⟨c, o⟩, hs, rfl⟩ := mem_map.mp hc
      refine ⟨o.getD (placeholder c), Message.mem_results.mpr ?_, ?_⟩
      · refine mem_append_left _ (mem_map_of_mem ?_)
        exact mem_map.mpr ⟨(c, o), hs, rfl⟩
      · cases o with
        | none => rfl
        | some r => exact hid c r hs
  · rfl

/-! ### The pass -/

/-- Along the pass: the pending blocks come from `S`, and what is emitted is valid. -/
def Sound (S : List ContentBlock) (st : RepairState) : Prop :=
  BlocksFrom S st.pending ∧ isValidForAnthropic st.fixed = true

theorem answerCalls_sound {rest : List Cell} {fixed : List Message} (hm : ∀ b ∈ m.blocks, b ∈ S)
    (hrest : BlocksFrom S rest) (hf : isValidForAnthropic fixed = true) (hc : m.calls ≠ [])
    (hid : ∀ c r, .toolCall c ∈ S → .toolResult r ∈ S → answers c r = true →
      r.toolUseId = c.id) : Sound S (answerCalls m rest fixed) := by
  obtain ⟨hfill, hblocks⟩ := settled_sound (m := m) hrest
  rw [answerCalls_eq hc]
  refine ⟨hblocks, isValidForAnthropic_append hf
    (valid_pair (settled_calls m rest).symm fun c r hcr => ?_)⟩
  obtain ⟨ha, hr⟩ := hfill c r hcr
  refine hid c r (hm _ (Message.mem_calls.mp ?_)) hr ha
  rw [← settled_calls m rest]
  exact mem_map.mpr ⟨_, hcr, rfl⟩

theorem repairStep_sound {st : RepairState} (h : Sound S st)
    (hid : ∀ c r, .toolCall c ∈ S → .toolResult r ∈ S → answers c r = true →
      r.toolUseId = c.id) : Sound S (repairStep st) := by
  obtain ⟨pending, fixed⟩ := st
  obtain ⟨hb, hf⟩ := h
  match pending with
  | [] => exact ⟨hb, hf⟩
  | ⟨_, true⟩ :: _ => exact ⟨hb.tail, hf⟩
  | ⟨m, false⟩ :: rest =>
    simp only [repairStep]
    split
    · split
      · rename_i he
        exact ⟨hb.tail, isValidForAnthropic_append hf
          (valid_single (.inr (List.isEmpty_iff.mp he)))⟩
      · rename_i he
        exact answerCalls_sound (hb _ mem_cons_self) hb.tail hf
          (fun h => he (List.isEmpty_iff.mpr h)) hid
    · rename_i hr
      exact ⟨hb.tail, isValidForAnthropic_append hf (valid_single (.inl hr))⟩

theorem iterate_repairStep_sound {st : RepairState} (h : Sound S st)
    (hid : ∀ c r, .toolCall c ∈ S → .toolResult r ∈ S → answers c r = true →
      r.toolUseId = c.id) (n : Nat) : Sound S (repairStep^[n] st) := by
  induction n generalizing st with
  | zero => exact h
  | succ n ih => exact ih (repairStep_sound h hid)

/-- The blocks of all messages. -/
def allBlocks (ms : List Message) : List ContentBlock := ms.flatMap (·.blocks)

/-- Every result that carries an execution id carries the provider id of the call it answers. -/
def CarriesProviderId (ms : List Message) : Prop :=
  ∀ c r, .toolCall c ∈ allBlocks ms → .toolResult r ∈ allBlocks ms →
    r.executionId = some c.executionId → r.toolUseId = c.id

/-- **The repaired history is valid**, for every list of messages whose results carry the
provider id of the call they answer. -/
theorem repaired_valid (ms : List Message) (h : CarriesProviderId ms) :
    isValidForAnthropic (repaired ms) = true := by
  refine (iterate_repairStep_sound (S := allBlocks ms) ⟨?_, rfl⟩ (fun c r hc hr ha => ?_) _).2
  · intro c hc b hb
    obtain ⟨m, hm, rfl⟩ := mem_map.mp hc
    exact mem_flatMap.mpr ⟨m, hm, hb⟩
  · rcases answers_iff.mp ha with he | ⟨-, he⟩
    · exact h c r hc hr he
    · exact he.symm

/-- A call, another assistant message, and then the call's result. -/
def displacedResult : List Message :=
  [{ role := .assistant, content := .blocks [.toolCall
      { id := "toolu_1", name := "read_file", input := .obj [], executionId := "exec-1" }] },
   { role := .user, content := .str "go on" },
   { role := .user, content := .blocks [.toolResult
      { toolUseId := "toolu_1", content := .inl "text", name := "read_file", isError := false,
        executionId := some "exec-1" }] }]

theorem repaired_valid_displacedResult :
    CarriesProviderId displacedResult ∧
      isValidForAnthropic (repaired displacedResult) = true := by
  have h : CarriesProviderId displacedResult := by
    intro c r hc hr _
    simp [displacedResult, allBlocks, Message.blocks] at hc hr
    rw [hc, hr]
  exact ⟨h, repaired_valid displacedResult h⟩

end KolegaCode.Conversation
