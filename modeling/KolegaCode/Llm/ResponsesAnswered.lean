import Mathlib.Data.List.Nodup
import KolegaCode.Llm.Responses
import KolegaCode.Conversation.Repair

/-!
# Llm — calls and outputs of the Responses API input

A history that answers each call at most once, in the messages before the next assistant message,
gets exactly one output for each call, unless a call that nobody answered shares its provider id
with another: the placeholders are kept apart by that id alone, and come at the very end.
-/

namespace KolegaCode.Responses

open List

/-! ### What is asked of the items -/

def Item.isOutput : Item → Bool
  | .output .. => true
  | _ => false

def Item.isCall : Item → Bool
  | .call .. => true
  | _ => false

/-- How many outputs of a kind answer an id before it is called again. -/
def answersBefore (kind : ToolInputKind) (id : String) : List Item → Nat
  | [] => 0
  | .call _ id' _ _ :: items => if id' = id then 0 else answersBefore kind id items
  | .output kind' id' _ :: items =>
    (if kind' = kind ∧ id' = id then 1 else 0) + answersBefore kind id items
  | _ :: items => answersBefore kind id items

/-- Every call has one output of its kind behind it, before its id is called again. -/
def AnsweredOnce (items : List Item) : Prop :=
  ∀ kind id name payload rest, Item.call kind id name payload :: rest <:+ items →
    answersBefore kind id rest = 1

/-! ### What is known of the history -/

/-- The result names the call's provider id, and is of its kind. -/
def Answers (c : ToolCall) (r : ToolResult) : Prop :=
  c.id = r.toolUseId ∧ c.inputKind = r.inputKind

/-- The calls of the last assistant message which have no result yet, after a message. -/
def openedAfter (opened : List ToolCall) (m : Message) : List ToolCall :=
  if m.role = .assistant then m.calls
  else opened.filter fun c => c.id ∉ m.results.map (·.toolUseId)

/-- Each result answers a call of the last assistant message, no two the same; `opened` are the
calls of that message which have no result yet.  Calls are made by assistant messages, under
different ids in one message, and instructions have neither calls nor results. -/
def Correlated (opened : List ToolCall) : List Message → Prop
  | [] => True
  | m :: messages =>
    (∀ r ∈ m.results, ∃ c ∈ opened, Answers c r) ∧
      (m.results.map (·.toolUseId)).Nodup ∧ (m.calls.map (·.id)).Nodup ∧
      (m.role ≠ .assistant → m.calls = []) ∧
      (isInstruction m.role → m.results = []) ∧
      Correlated (openedAfter opened m) messages

instance (c : ToolCall) (r : ToolResult) : Decidable (Answers c r) :=
  inferInstanceAs (Decidable (_ ∧ _))

instance decidableCorrelated : ∀ (opened : List ToolCall) (messages : List Message),
    Decidable (Correlated opened messages)
  | _, [] => .isTrue trivial
  | opened, m :: messages =>
    have := decidableCorrelated (openedAfter opened m) messages
    inferInstanceAs (Decidable (_ ∧ _ ∧ _ ∧ _ ∧ _ ∧ Correlated (openedAfter opened m) messages))

/-- The call gets a result before the next assistant message, or in it. -/
def answeredIn (c : ToolCall) : List Message → Bool
  | [] => false
  | m :: messages =>
    decide (c.id ∈ m.results.map (·.toolUseId)) || (m.role ≠ .assistant && answeredIn c messages)

/-- The calls of a history, each with whether it is answered. -/
def fates : List Message → List (ToolCall × Bool)
  | [] => []
  | m :: messages => m.calls.map (fun c => (c, answeredIn c messages)) ++ fates messages

/-- **What the input is to be**: every call is answered once, and the outputs are those of the
results of the history, and placeholders for calls that have none. -/
structure AnswersCalls (messages : List Message) (escape : Bool) (items : List Item) : Prop where
  once : AnsweredOnce items
  outputs : ∃ unanswered : List ToolCall, (∀ c ∈ unanswered, (c, false) ∈ fates messages) ∧
    items.filter Item.isOutput =
      (messages.flatMap Message.results).map (outputItem (escaping escape)) ++
        unanswered.map fun c => .output c.inputKind c.id NO_OUTPUT

/-! ### The items of a message -/

/-- Items that are neither calls nor outputs. -/
def Quiet (items : List Item) : Prop := ∀ item ∈ items, item.isCall = false ∧ item.isOutput = false

variable {e : Escaping} {kind : ToolInputKind} {id : String} {items rest : List Item}

theorem quiet_roleMessageItem (role : Role) (parts : List RolePart) :
    Quiet (roleMessageItem role parts).toList := by
  intro item hm
  have h := Option.mem_toList.mp hm
  rw [roleMessageItem, Option.ite_none_left_eq_some] at h
  rw [← Option.some.inj h.2]
  exact ⟨rfl, rfl⟩

theorem quiet_images (results : List ToolResult) :
    Quiet (results.filterMap toolResultImageMessage) := by
  intro item hm
  obtain ⟨r, -, hr⟩ := mem_filterMap.mp hm
  rw [toolResultImageMessage] at hr
  split at hr
  · cases hr
  · cases hr
    exact ⟨rfl, rfl⟩

/-- The items that come in the places of the blocks: no calls, and the outputs of the results. -/
theorem filterMap_blockItem (blocks : List ContentBlock) :
    (∀ item ∈ blocks.filterMap (blockItem e), item.isCall = false) ∧
      (blocks.filterMap (blockItem e)).filter Item.isOutput =
        (blocks.filterMap (·.asToolResult?)).map (outputItem e) := by
  induction blocks with
  | nil => exact ⟨fun _ hm => absurd hm not_mem_nil, rfl⟩
  | cons block blocks ih =>
    obtain ⟨hcall, hout⟩ := ih
    have hother : ∀ item : Item, item.isCall = false → item.isOutput = false →
        (∀ x ∈ item :: blocks.filterMap (blockItem e), x.isCall = false) ∧
          (item :: blocks.filterMap (blockItem e)).filter Item.isOutput =
            (blocks.filterMap (·.asToolResult?)).map (outputItem e) := by
      intro item hc ho
      refine ⟨fun x hm => ?_, ?_⟩
      · rcases mem_cons.mp hm with rfl | hm
        · exact hc
        · exact hcall x hm
      · rw [filter_cons_of_neg (by simp [ho]), hout]
    cases block with
    | text b | image b | thinking b | redactedThinking b | toolCall c => exact ⟨hcall, hout⟩
    | responsesReasoning b => exact hother _ rfl rfl
    | webSearchCall b =>
      by_cases hb : b.itemType = "web_search_call"
      · rw [filterMap_cons_some (show blockItem e (.webSearchCall b) = _ from if_pos hb)]
        exact hother _ rfl rfl
      · rw [filterMap_cons_none (show blockItem e (.webSearchCall b) = _ from if_neg hb)]
        exact ⟨hcall, hout⟩
    | toolResult r =>
      refine ⟨fun x hm => ?_, ?_⟩
      · rcases mem_cons.mp hm with rfl | hm
        · rfl
        · exact hcall x hm
      · exact congrArg (outputItem e r :: ·) hout

/-- A message's items: the outputs of its results, then its calls, and quiet items between them. -/
theorem messageItems_eq {m : Message} (hresults : isInstruction m.role → m.results = [])
    (hcalls : m.role ≠ .assistant → m.calls = []) :
    ∃ front back, messageItems e m = front ++ (m.calls.map (callItem e) ++ back) ∧
      (∀ item ∈ front, item.isCall = false) ∧
      front.filter Item.isOutput = m.results.map (outputItem e) ∧ Quiet back := by
  have hempty : Quiet ([] : List Item) := fun _ hm => absurd hm not_mem_nil
  rw [messageItems]
  split
  · next hinstr =>
    have hrole : m.role ≠ .assistant := by
      intro he
      rw [he] at hinstr
      exact absurd hinstr (by decide)
    rw [hcalls hrole, hresults hinstr]
    exact ⟨[], [], rfl, fun _ hm => absurd hm not_mem_nil, rfl, hempty⟩
  · simp only [Message.calls, Message.results, Message.blocks]
    cases m.content with
    | str text =>
      have hquiet := quiet_roleMessageItem m.role [.text (e.text text)]
      refine ⟨_, [], (append_nil _).symm, fun item hm => (hquiet item hm).1, ?_, hempty⟩
      exact filter_eq_nil_iff.mpr fun item hm => by simp [(hquiet item hm).2]
    | blocks blocks =>
      obtain ⟨hfront, hout⟩ := filterMap_blockItem (e := e) blocks
      have hquiet := quiet_roleMessageItem m.role (blocks.filterMap (rolePart e))
      refine ⟨blocks.filterMap (blockItem e) ++
        (roleMessageItem m.role (blocks.filterMap (rolePart e))).toList,
        (blocks.filterMap (·.asToolResult?)).filterMap toolResultImageMessage, ?_, ?_, ?_,
        quiet_images _⟩
      · simp only [append_assoc]
      · intro item hm
        rcases mem_append.mp hm with hm | hm
        · exact hfront item hm
        · exact (hquiet item hm).1
      · rw [filter_append, hout, filter_eq_nil_iff.mpr, append_nil]
        exact fun item hm => by simp [(hquiet item hm).2]

/-! ### Outputs before the next call -/

/-- An output of this kind for this id. -/
def isOutputOf (kind : ToolInputKind) (id : String) : Item → Bool
  | .output kind' id' _ => kind' = kind && id' = id
  | _ => false

/-- Without calls, every output of the kind for the id counts. -/
theorem answersBefore_append {front : List Item} (h : ∀ item ∈ front, item.isCall = false) :
    answersBefore kind id (front ++ rest) =
      front.countP (isOutputOf kind id) + answersBefore kind id rest := by
  induction front with
  | nil => simp
  | cons item front ih =>
    have hrest := ih fun x hm => h x (mem_cons_of_mem _ hm)
    cases item with
    | call => exact absurd (h _ mem_cons_self) (by simp [Item.isCall])
    | output kind' id' output =>
      simp only [cons_append, answersBefore, countP_cons, hrest, isOutputOf,
        Bool.and_eq_true, decide_eq_true_eq]
      omega
    | message | reasoning | webSearchCall =>
      simpa [answersBefore, isOutputOf] using hrest

theorem countP_filter_isOutput (items : List Item) :
    (items.filter Item.isOutput).countP (isOutputOf kind id) =
      items.countP (isOutputOf kind id) := by
  rw [countP_filter]
  congr 1
  funext item
  cases item <;> simp [isOutputOf, Item.isOutput]

theorem countP_quiet (h : Quiet items) : items.countP (isOutputOf kind id) = 0 := by
  refine countP_eq_zero.mpr fun item hm => ?_
  have := (h item hm).2
  cases item <;> simp_all [isOutputOf, Item.isOutput]

theorem answersBefore_quiet (h : Quiet items) :
    answersBefore kind id (items ++ rest) = answersBefore kind id rest := by
  rw [answersBefore_append fun item hm => (h item hm).1, countP_quiet h, Nat.zero_add]

/-- Calls under other ids are passed over; one under the id ends the search. -/
theorem answersBefore_calls (calls : List ToolCall) :
    answersBefore kind id (calls.map (callItem e) ++ rest) =
      if id ∈ calls.map (·.id) then 0 else answersBefore kind id rest := by
  induction calls with
  | nil => simp
  | cons c calls ih =>
    rw [map_cons, cons_append, callItem, answersBefore]
    by_cases hid : c.id = id
    · rw [if_pos hid, if_pos (mem_map.mpr ⟨c, mem_cons_self, hid⟩)]
    · rw [if_neg hid, ih]
      simp [Ne.symm hid]

/-! ### The calls of a history -/

/-- The items of all messages. -/
def bodyItems (e : Escaping) (messages : List Message) : List Item :=
  messages.flatMap (messageItems e)

def callIds (messages : List Message) : List String := (fates messages).map (·.1.id)

variable {opened : List ToolCall} {messages : List Message} {m : Message} {c : ToolCall}

theorem callIds_cons (m : Message) (messages : List Message) :
    callIds (m :: messages) = m.calls.map (·.id) ++ callIds messages := by
  simp [callIds, fates]

theorem countP_outputs (results : List ToolResult) :
    (results.map (outputItem e)).countP (isOutputOf kind id) =
      results.countP fun r => r.inputKind = kind && r.toolUseId = id := by
  rw [countP_map]
  rfl

theorem countP_results (hopened : (opened.map (·.id)).Nodup) {results : List ToolResult}
    (hanswers : ∀ r ∈ results, ∃ c ∈ opened, Answers c r)
    (hnodup : (results.map (·.toolUseId)).Nodup) (hc : c ∈ opened) :
    (results.map (outputItem e)).countP (isOutputOf c.inputKind c.id) =
      if c.id ∈ results.map (·.toolUseId) then 1 else 0 := by
  have hkind : ∀ r ∈ results, (r.inputKind = c.inputKind && r.toolUseId = c.id : Bool) = true ↔
      (r.toolUseId == c.id) = true := by
    intro r hr
    obtain ⟨c', hc', hid, hk⟩ := hanswers r hr
    rw [Bool.and_eq_true, decide_eq_true_iff, decide_eq_true_iff, beq_iff_eq]
    refine and_iff_right_of_imp fun he => ?_
    have hsame : c' = c := inj_on_of_nodup_map hopened hc' hc (hid.trans he)
    rw [← hk, hsame]
  rw [countP_outputs, countP_congr hkind, ← hnodup.count, List.count, countP_map]
  rfl

theorem countP_results_of_not_mem {results : List ToolResult}
    (hanswers : ∀ r ∈ results, ∃ c ∈ opened, Answers c r) (hid : id ∉ opened.map (·.id)) :
    (results.map (outputItem e)).countP (isOutputOf kind id) = 0 := by
  rw [countP_outputs]
  refine countP_eq_zero.mpr fun r hr => ?_
  obtain ⟨c, hc, he, -⟩ := hanswers r hr
  rw [Bool.and_eq_true, decide_eq_true_iff, decide_eq_true_iff]
  rintro ⟨-, rfl⟩
  exact hid (mem_map.mpr ⟨c, hc, he⟩)

theorem answersBefore_message (hcor : Correlated opened (m :: messages)) (rest : List Item) :
    answersBefore kind id (bodyItems e (m :: messages) ++ rest) =
      (m.results.map (outputItem e)).countP (isOutputOf kind id) +
        if id ∈ m.calls.map (·.id) then 0
        else answersBefore kind id (bodyItems e messages ++ rest) := by
  obtain ⟨-, -, -, hcalls, hinstr, -⟩ := hcor
  obtain ⟨front, back, hitems, hfront, hout, hback⟩ := messageItems_eq (e := e) hinstr hcalls
  rw [bodyItems, flatMap_cons, hitems, append_assoc, append_assoc, append_assoc,
    answersBefore_append hfront, ← countP_filter_isOutput, hout, answersBefore_calls,
    answersBefore_quiet hback]
  rfl

theorem not_mem_openedAfter
    (hid : id ∉ opened.map (·.id) ∨ id ∈ m.results.map (·.toolUseId))
    (hcalls : id ∉ m.calls.map (·.id)) : id ∉ (openedAfter opened m).map (·.id) := by
  rw [openedAfter]
  split
  · exact hcalls
  · rintro hm
    obtain ⟨c, hc, rfl⟩ := mem_map.mp hm
    obtain ⟨hc, hno⟩ := mem_filter.mp hc
    rcases hid with hid | hid
    · exact hid (mem_map.mpr ⟨c, hc, rfl⟩)
    · exact of_decide_eq_true hno hid

theorem nodup_openedAfter (hopened : (opened.map (·.id)).Nodup)
    (hcor : Correlated opened (m :: messages)) : ((openedAfter opened m).map (·.id)).Nodup := by
  rw [openedAfter]
  split
  · exact hcor.2.2.1
  · exact (filter_sublist.map _).nodup hopened

/-- Under an id that no open call has, nothing is answered until it is called. -/
theorem answersBefore_of_not_mem (hcor : Correlated opened messages)
    (hid : id ∉ opened.map (·.id)) (rest : List Item) :
    answersBefore kind id (bodyItems e messages ++ rest) =
      if id ∈ callIds messages then 0 else answersBefore kind id rest := by
  induction messages generalizing opened with
  | nil => simp [bodyItems, callIds, fates]
  | cons m messages ih =>
    rw [answersBefore_message hcor, countP_results_of_not_mem hcor.1 hid, Nat.zero_add,
      callIds_cons]
    by_cases hcalls : id ∈ m.calls.map (·.id)
    · rw [if_pos hcalls, if_pos (mem_append_left _ hcalls)]
    · rw [if_neg hcalls, ih hcor.2.2.2.2.2 (not_mem_openedAfter (.inl hid) hcalls)]
      simp only [mem_append, hcalls, false_or]

/-- An open call has its result before the next call under its id, and what comes after all
messages where there is none. -/
theorem answersBefore_opened (hcor : Correlated opened messages)
    (hopened : (opened.map (·.id)).Nodup) (hc : c ∈ opened) (rest : List Item) :
    answersBefore c.inputKind c.id (bodyItems e messages ++ rest) =
      (answeredIn c messages).toNat +
        if c.id ∈ callIds messages then 0 else answersBefore c.inputKind c.id rest := by
  induction messages generalizing opened with
  | nil => simp [bodyItems, callIds, fates, answeredIn]
  | cons m messages ih =>
    rw [answersBefore_message hcor, countP_results hopened hcor.1 hcor.2.1 hc, callIds_cons]
    have hafter := hcor.2.2.2.2.2
    by_cases hanswered : c.id ∈ m.results.map (·.toolUseId)
    · rw [if_pos hanswered, answeredIn, decide_eq_true hanswered, Bool.true_or]
      by_cases hcalls : c.id ∈ m.calls.map (·.id)
      · rw [if_pos hcalls, if_pos (mem_append_left _ hcalls)]
        rfl
      · rw [if_neg hcalls, answersBefore_of_not_mem hafter
          (not_mem_openedAfter (.inr hanswered) hcalls)]
        simp only [mem_append, hcalls, false_or, Bool.toNat_true]
    · rw [if_neg hanswered, answeredIn, decide_eq_false hanswered, Bool.false_or, Nat.zero_add]
      by_cases hcalls : c.id ∈ m.calls.map (·.id)
      · have hrole : m.role = .assistant := by
          by_contra hne
          rw [hcor.2.2.2.1 hne] at hcalls
          exact absurd hcalls not_mem_nil
        rw [if_pos hcalls, if_pos (mem_append_left _ hcalls)]
        simp [hrole]
      · simp only [mem_append, hcalls, false_or, if_false]
        by_cases hrole : m.role = .assistant
        · have hcor' : Correlated m.calls messages := by simpa [openedAfter, hrole] using hafter
          rw [answersBefore_of_not_mem hcor' hcalls]
          simp [hrole]
        · have hstill : c ∈ openedAfter opened m := by
            rw [openedAfter, if_neg hrole]
            exact mem_filter.mpr ⟨hc, decide_eq_true hanswered⟩
          rw [ih hafter (nodup_openedAfter hopened hcor) hstill]
          simp [hrole]

/-! ### Every call -/

/-- Each call has its result, or what comes after all messages, before the next call under its
id; `tail` counts the latter. -/
def EachOnce (tail : ToolCall → Nat) : List (ToolCall × Bool) → Prop
  | [] => True
  | (c, answered) :: fates =>
    answered.toNat + (if c.id ∈ fates.map (·.1.id) then 0 else tail c) = 1 ∧ EachOnce tail fates

theorem answeredOnce_append {front : List Item} (h : ∀ item ∈ front, item.isCall = false) :
    AnsweredOnce (front ++ rest) ↔ AnsweredOnce rest := by
  induction front with
  | nil => rfl
  | cons item front ih =>
    rw [← ih fun x hm => h x (mem_cons_of_mem _ hm)]
    refine ⟨fun hall kind id name payload rest hs => ?_, fun hall kind id name payload rest hs => ?_⟩
    · exact hall kind id name payload rest (hs.trans (suffix_cons _ _))
    · rcases suffix_cons_iff.mp hs with he | hs
      · obtain ⟨rfl, -⟩ := List.cons.inj he
        exact absurd (h _ mem_cons_self) (by simp [Item.isCall])
      · exact hall kind id name payload rest hs

theorem answeredOnce_call {kind : ToolInputKind} {id name payload : String} :
    AnsweredOnce (.call kind id name payload :: rest) ↔
      answersBefore kind id rest = 1 ∧ AnsweredOnce rest := by
  refine ⟨fun hall => ⟨hall kind id name payload rest (suffix_refl _), ?_⟩, ?_⟩
  · exact fun k i n p r hs => hall k i n p r (hs.trans (suffix_cons _ _))
  · rintro ⟨hone, hall⟩ k i n p r hs
    rcases suffix_cons_iff.mp hs with he | hs
    · cases he
      exact hone
    · exact hall k i n p r hs

theorem answeredOnce_calls {calls : List ToolCall} (hnodup : (calls.map (·.id)).Nodup)
    {answered : ToolCall → Bool} {later : List (ToolCall × Bool)} {tail : ToolCall → Nat}
    (hrest : ∀ c ∈ calls, answersBefore c.inputKind c.id rest =
      (answered c).toNat + if c.id ∈ later.map (·.1.id) then 0 else tail c)
    (hlater : AnsweredOnce rest ↔ EachOnce tail later) :
    AnsweredOnce (calls.map (callItem e) ++ rest) ↔
      EachOnce tail (calls.map (fun c => (c, answered c)) ++ later) := by
  induction calls with
  | nil => exact hlater
  | cons c calls ih =>
    obtain ⟨hfresh, hnodup⟩ := nodup_cons.mp hnodup
    rw [map_cons, cons_append, callItem, answeredOnce_call, map_cons,
      cons_append, EachOnce, ih hnodup fun c' hm => hrest c' (mem_cons_of_mem _ hm),
      answersBefore_calls, if_neg hfresh, hrest c mem_cons_self]
    have hmem : c.id ∈ (calls.map (fun c => (c, answered c)) ++ later).map (·.1.id) ↔
        c.id ∈ later.map (·.1.id) := by
      rw [map_append, map_map, mem_append]
      exact or_iff_right hfresh
    simp only [hmem]

/-- Where the items that come after all messages are no calls, the calls are answered as their
fates and these items tell. -/
theorem answeredOnce_body (hcor : Correlated opened messages) {tail : List Item}
    (htail : ∀ item ∈ tail, item.isCall = false) :
    AnsweredOnce (bodyItems e messages ++ tail) ↔
      EachOnce (fun c => tail.countP (isOutputOf c.inputKind c.id)) (fates messages) := by
  induction messages generalizing opened with
  | nil =>
    have hnone : AnsweredOnce (tail ++ []) ↔ AnsweredOnce [] := answeredOnce_append htail
    rw [append_nil] at hnone
    exact hnone.trans (iff_of_true (fun _ _ _ _ _ hs => by cases suffix_nil.mp hs) trivial)
  | cons m messages ih =>
    obtain ⟨-, -, hnodup, hcalls, hinstr, hafter⟩ := hcor
    obtain ⟨front, back, hitems, hfront, -, hback⟩ := messageItems_eq (e := e) hinstr hcalls
    have hcount : ∀ c : ToolCall, answersBefore c.inputKind c.id tail =
        tail.countP (isOutputOf c.inputKind c.id) := by
      intro c
      have hcount : answersBefore c.inputKind c.id (tail ++ []) = _ := answersBefore_append htail
      simpa [answersBefore] using hcount
    rw [bodyItems, flatMap_cons, hitems, append_assoc, append_assoc,
      append_assoc, answeredOnce_append hfront, fates]
    refine answeredOnce_calls hnodup (fun c hc => ?_) ?_
    · have hrole : m.role = .assistant := by
        by_contra hne
        rw [hcalls hne] at hc
        exact absurd hc not_mem_nil
      rw [openedAfter, if_pos hrole] at hafter
      rw [answersBefore_quiet hback, ← hcount]
      exact answersBefore_opened hafter hnodup hc tail
    · rw [answeredOnce_append fun item hm => (hback item hm).1]
      exact ih hafter

/-! ### Placeholders -/

/-- The calls that are given a placeholder. -/
def padCalls (answered : List String) : List ToolCall → List ToolCall
  | [] => []
  | c :: calls =>
    if c.id ∈ answered then padCalls answered calls else c :: padCalls (c.id :: answered) calls

def placeholder (c : ToolCall) : Item := .output c.inputKind c.id NO_OUTPUT

/-- The placeholders are fixed by the calls. -/
theorem padding_eq {calls : List ToolCall} (answered : List String) (items : List Item)
    (hcalls : items.filter Item.isCall = calls.map (callItem e)) :
    padding answered items = (padCalls answered calls).map placeholder := by
  induction items generalizing answered calls with
  | nil =>
    cases calls with
    | nil => rfl
    | cons => cases hcalls
  | cons item items ih =>
    cases item with
    | call kind id name payload =>
      cases calls with
      | nil => cases hcalls
      | cons c calls =>
        obtain ⟨hc, hrest⟩ := List.cons.inj hcalls
        cases hc
        rw [padding, padCalls]
        split
        · exact ih _ hrest
        · rw [map_cons, ih _ hrest]
          rfl
    | message | reasoning | webSearchCall | output => exact ih answered hcalls

theorem mem_padCalls {answered : List String} {calls : List ToolCall}
    (hc : c ∈ padCalls answered calls) : c ∈ calls ∧ c.id ∉ answered := by
  induction calls generalizing answered with
  | nil => exact absurd hc not_mem_nil
  | cons c' calls ih =>
    rw [padCalls] at hc
    split at hc
    · exact ⟨mem_cons_of_mem _ (ih hc).1, (ih hc).2⟩
    · next hno =>
      rcases mem_cons.mp hc with rfl | hc
      · exact ⟨mem_cons_self, hno⟩
      · exact ⟨mem_cons_of_mem _ (ih hc).1, fun hm => (ih hc).2 (mem_cons_of_mem _ hm)⟩

theorem countP_placeholder (calls : List ToolCall) :
    (calls.map placeholder).countP (isOutputOf kind id) =
      calls.countP fun c => c.inputKind = kind && c.id = id := by
  rw [countP_map]
  rfl

theorem countP_padCalls_answered {answered : List String} (hid : id ∈ answered)
    (calls : List ToolCall) :
    (padCalls answered calls).countP (fun c => c.inputKind = kind && c.id = id) = 0 := by
  refine countP_eq_zero.mpr fun c hc => ?_
  rw [Bool.and_eq_true, decide_eq_true_iff, decide_eq_true_iff]
  rintro ⟨-, rfl⟩
  exact (mem_padCalls hc).2 hid

/-- A call alone under its id, for which there is no output, is given one placeholder. -/
theorem countP_padCalls_alone {answered : List String} (hid : c.id ∉ answered)
    {before after : List ToolCall} (hbefore : c.id ∉ before.map (·.id)) :
    (padCalls answered (before ++ c :: after)).countP
      (fun c' => c'.inputKind = c.inputKind && c'.id = c.id) = 1 := by
  induction before generalizing answered with
  | nil =>
    rw [nil_append, padCalls, if_neg hid, countP_cons, countP_padCalls_answered mem_cons_self]
    simp
  | cons c' before ih =>
    rw [map_cons, mem_cons, not_or] at hbefore
    rw [cons_append, padCalls]
    split
    · exact ih hid hbefore.2
    · rw [countP_cons, ih _ hbefore.2]
      · simp [Ne.symm hbefore.1]
      · rw [mem_cons, not_or]
        exact ⟨hbefore.1, hid⟩

/-! ### What is answered -/

theorem filter_isCall_body (hcor : Correlated opened messages) :
    (bodyItems e messages).filter Item.isCall =
      ((fates messages).map Prod.fst).map (callItem e) := by
  induction messages generalizing opened with
  | nil => rfl
  | cons m messages ih =>
    obtain ⟨-, -, -, hcalls, hinstr, hafter⟩ := hcor
    obtain ⟨front, back, hitems, hfront, -, hback⟩ := messageItems_eq (e := e) hinstr hcalls
    have hmid : (m.calls.map (callItem e)).filter Item.isCall = m.calls.map (callItem e) :=
      filter_eq_self.mpr fun item hm => by
        obtain ⟨c, -, rfl⟩ := mem_map.mp hm
        rfl
    rw [bodyItems, flatMap_cons, hitems, filter_append, filter_append,
      filter_append, filter_eq_nil_iff.mpr fun item hm => by simp [hfront item hm],
      hmid, filter_eq_nil_iff.mpr fun item hm => by simp [(hback item hm).1]]
    have hrest := ih hafter
    rw [bodyItems] at hrest
    simp [fates, hrest, Function.comp_def]

theorem filter_isOutput_body (hcor : Correlated opened messages) :
    (bodyItems e messages).filter Item.isOutput =
      (messages.flatMap Message.results).map (outputItem e) := by
  induction messages generalizing opened with
  | nil => rfl
  | cons m messages ih =>
    obtain ⟨-, -, -, hcalls, hinstr, hafter⟩ := hcor
    obtain ⟨front, back, hitems, -, hout, hback⟩ := messageItems_eq (e := e) hinstr hcalls
    have hmid : (m.calls.map (callItem e)).filter Item.isOutput = [] :=
      filter_eq_nil_iff.mpr fun item hm => by
        obtain ⟨c, -, rfl⟩ := mem_map.mp hm
        exact Bool.false_ne_true
    rw [bodyItems, flatMap_cons, hitems, filter_append, filter_append, filter_append, hout, hmid,
      filter_eq_nil_iff.mpr fun item hm => by simp [(hback item hm).2]]
    have hrest := ih hafter
    rw [bodyItems] at hrest
    simp [hrest]

theorem filterMap_answered_body (hcor : Correlated opened messages) :
    (bodyItems e messages).filterMap Item.answered =
      (messages.flatMap Message.results).map (·.toolUseId) := by
  have hfilter : ∀ items : List Item, items.filterMap Item.answered =
      (items.filter Item.isOutput).filterMap Item.answered := by
    intro items
    induction items with
    | nil => rfl
    | cons item items ih =>
      cases item with
      | output kind id output => exact congrArg (id :: ·) ih
      | message | reasoning | webSearchCall | call => exact ih
  rw [hfilter, filter_isOutput_body hcor, filterMap_map, ← filterMap_eq_map]
  rfl

theorem mem_results_of_answeredIn (h : answeredIn c messages = true) :
    c.id ∈ (messages.flatMap Message.results).map (·.toolUseId) := by
  induction messages with
  | nil => cases h
  | cons m messages ih =>
    rw [answeredIn, Bool.or_eq_true, Bool.and_eq_true] at h
    rw [flatMap_cons, map_append, mem_append]
    rcases h with h | ⟨-, h⟩
    · exact .inl (of_decide_eq_true h)
    · exact .inr (ih h)

theorem mem_results_of_fates (h : (c, true) ∈ fates messages) :
    c.id ∈ (messages.flatMap Message.results).map (·.toolUseId) := by
  induction messages with
  | nil => exact absurd h not_mem_nil
  | cons m messages ih =>
    rw [flatMap_cons, map_append, mem_append]
    rcases mem_append.mp h with h | h
    · obtain ⟨c', -, he⟩ := mem_map.mp h
      obtain ⟨rfl, hanswered⟩ := Prod.mk.inj he
      exact .inr (mem_results_of_answeredIn hanswered)
    · exact .inr (ih h)

/-- A result answers a call that is open, or one of the history. -/
theorem fates_of_mem_results (hcor : Correlated opened messages)
    (hid : id ∈ (messages.flatMap Message.results).map (·.toolUseId)) :
    (∃ c ∈ opened, c.id = id ∧ answeredIn c messages = true) ∨
      ∃ c, c.id = id ∧ (c, true) ∈ fates messages := by
  induction messages generalizing opened with
  | nil => exact absurd hid not_mem_nil
  | cons m messages ih =>
    rw [flatMap_cons, map_append, mem_append] at hid
    rcases hid with hid | hid
    · obtain ⟨r, hr, rfl⟩ := mem_map.mp hid
      obtain ⟨c, hc, he, -⟩ := hcor.1 r hr
      refine .inl ⟨c, hc, he, ?_⟩
      rw [answeredIn, Bool.or_eq_true, decide_eq_true_iff, he]
      exact .inl hid
    · rcases ih hcor.2.2.2.2.2 hid with ⟨c, hc, he, hanswered⟩ | ⟨c, he, hfate⟩
      · rw [openedAfter] at hc
        split at hc
        · refine .inr ⟨c, he, mem_append_left _ ?_⟩
          exact mem_map.mpr ⟨c, hc, by rw [hanswered]⟩
        · next hrole =>
          refine .inl ⟨c, (mem_filter.mp hc).1, he, ?_⟩
          rw [answeredIn, hanswered]
          simp [hrole]
      · exact .inr ⟨c, he, mem_append_right _ hfate⟩

/-! ### When every call is answered once -/

theorem eachOnce_iff_split {fates : List (ToolCall × Bool)} {tail : ToolCall → Nat} :
    EachOnce tail fates ↔ ∀ before c answered after, fates = before ++ (c, answered) :: after →
      answered.toNat + (if c.id ∈ after.map (·.1.id) then 0 else tail c) = 1 := by
  induction fates with
  | nil => exact iff_of_true trivial fun before _ _ _ h => by cases before <;> cases h
  | cons fate fates ih =>
    obtain ⟨c, answered⟩ := fate
    rw [EachOnce, ih]
    constructor
    · rintro ⟨hone, hall⟩ before c' answered' after h
      cases before with
      | nil =>
        cases h
        exact hone
      | cons _ before => exact hall before c' answered' after (List.cons.inj h).2
    · intro hall
      refine ⟨hall [] c answered fates rfl, fun before c' answered' after h => ?_⟩
      exact hall ((c, answered) :: before) c' answered' after (by rw [h]; rfl)

/-- The calls of a history under an id. -/
def callsUnder (id : String) (fates : List (ToolCall × Bool)) : Nat :=
  fates.countP (·.1.id = id)

theorem callsUnder_split {before after : List (ToolCall × Bool)} {answered : Bool} :
    callsUnder c.id (before ++ (c, answered) :: after) = 1 ↔
      c.id ∉ before.map (·.1.id) ∧ c.id ∉ after.map (·.1.id) := by
  have hzero : ∀ l : List (ToolCall × Bool), l.countP (·.1.id = c.id) = 0 ↔
      c.id ∉ l.map (·.1.id) := by
    intro l
    rw [countP_eq_zero, mem_map]
    exact ⟨fun h ⟨f, hf, he⟩ => h f hf (decide_eq_true he),
      fun h f hf he => h ⟨f, hf, of_decide_eq_true he⟩⟩
  rw [callsUnder, countP_append, countP_cons, ← hzero, ← hzero]
  simp only [decide_true, if_true]
  omega

/-- Where nothing comes after all messages for an id that has a result, and one output for a call
without a result that is alone under its id, the calls are answered once exactly if every call
without a result is alone. -/
theorem eachOnce_iff {fates : List (ToolCall × Bool)} {tail : ToolCall → Nat}
    (hanswered : ∀ c c', (c, true) ∈ fates → c'.id = c.id → tail c' = 0)
    (halone : ∀ before c after, fates = before ++ (c, false) :: after →
      callsUnder c.id fates = 1 → (∀ c', (c', true) ∈ fates → c'.id ≠ c.id) → tail c = 1) :
    EachOnce tail fates ↔ ∀ c, (c, false) ∈ fates → callsUnder c.id fates = 1 := by
  rw [eachOnce_iff_split]
  constructor
  · intro hall c hc
    obtain ⟨before, after, rfl⟩ := append_of_mem hc
    rw [callsUnder_split]
    have hone := hall before c false after rfl
    rw [Bool.toNat_false, Nat.zero_add] at hone
    have hafter : c.id ∉ after.map (·.1.id) := by
      intro hm
      rw [if_pos hm] at hone
      cases hone
    rw [if_neg hafter] at hone
    refine ⟨fun hm => ?_, hafter⟩
    -- an earlier call under the id has a result, and then there is no placeholder for it
    obtain ⟨⟨c', answered⟩, hc', he⟩ := mem_map.mp hm
    obtain ⟨b₁, b₂, rfl⟩ := append_of_mem hc'
    have hone' := hall b₁ c' answered (b₂ ++ (c, false) :: after) (append_assoc ..)
    rw [if_pos (mem_map.mpr ⟨(c, false), by simp, he.symm⟩), Nat.add_zero] at hone'
    cases answered with
    | false => cases hone'
    | true =>
      rw [hanswered c' c (by simp) he.symm] at hone
      cases hone
  · intro hall before c answered after h
    have hmem : (c, answered) ∈ fates := by rw [h]; simp
    cases answered with
    | true => rw [hanswered c c hmem rfl, ite_self, Bool.toNat_true]
    | false =>
      have hone := hall c hmem
      have halone' := halone before c after h hone fun c' hc' he => by
        rw [h] at hc' hone
        obtain ⟨hbefore, hafter⟩ := callsUnder_split.mp hone
        rcases mem_append.mp hc' with hm | hm
        · exact hbefore (mem_map.mpr ⟨_, hm, he⟩)
        · rcases mem_cons.mp hm with hm | hm
          · cases hm
          · exact hafter (mem_map.mpr ⟨_, hm, he⟩)
      rw [h] at hone
      rw [if_neg (callsUnder_split.mp hone).2, halone', Bool.toNat_false]

/-- **When the input answers every call.**  The results of a history are its only outputs, but for
placeholders; and every call has one output before its id is called again if and only if every call
without a result is alone under its id. -/
theorem answersCalls_iff (escape : Bool) (messages : List Message)
    (hcor : Correlated [] messages) :
    AnswersCalls messages escape (toResponsesInput escape messages) ↔
      ∀ c, (c, false) ∈ fates messages → callsUnder c.id (fates messages) = 1 := by
  set e := escaping escape
  set answered := (messages.flatMap Message.results).map (·.toolUseId) with hanswered
  have hpad : padding ((bodyItems e messages).filterMap Item.answered) (bodyItems e messages) =
      (padCalls answered ((fates messages).map Prod.fst)).map placeholder := by
    rw [filterMap_answered_body hcor, ← hanswered]
    exact padding_eq answered _ (filter_isCall_body hcor)
  have hinput : toResponsesInput escape messages = bodyItems e messages ++
      (padCalls answered ((fates messages).map Prod.fst)).map placeholder := by
    rw [← hpad]
    rfl
  have htail : ∀ item ∈ (padCalls answered ((fates messages).map Prod.fst)).map placeholder,
      item.isCall = false := by
    intro item hm
    obtain ⟨c, -, rfl⟩ := mem_map.mp hm
    rfl
  have honce := (answeredOnce_body (e := e) hcor htail).trans (eachOnce_iff
    (fun c c' hc he => by
      rw [countP_placeholder]
      exact countP_padCalls_answered (he ▸ mem_results_of_fates hc) _)
    (fun before c after hsplit hone hnone => by
      rw [countP_placeholder, hsplit, map_append, map_cons]
      rw [hsplit, callsUnder_split] at hone
      refine countP_padCalls_alone (fun hm => ?_) (by simpa [Function.comp_def] using hone.1)
      rcases fates_of_mem_results hcor hm with ⟨c', hc', -⟩ | ⟨c', he, hc'⟩
      · exact absurd hc' not_mem_nil
      · exact hnone c' hc' he))
  rw [hinput]
  refine ⟨fun h => honce.mp h.once, fun h => ⟨honce.mpr h, ?_⟩⟩
  refine ⟨padCalls answered ((fates messages).map Prod.fst), fun c hc => ?_, ?_⟩
  · obtain ⟨hmem, hno⟩ := mem_padCalls hc
    obtain ⟨⟨c', b⟩, hf, rfl⟩ := mem_map.mp hmem
    cases b with
    | false => exact hf
    | true => exact absurd (mem_results_of_fates hf) hno
  · rw [filter_append, filter_isOutput_body hcor, filter_eq_self.mpr]
    · rfl
    · intro item hm
      obtain ⟨c, -, rfl⟩ := mem_map.mp hm
      rfl

/-! ### Two histories -/

def askRead (id execution : String) : Message where
  role := .assistant
  content := .blocks [.toolCall
    { id := id, name := "read", input := .obj [("path", .str "a")], executionId := execution }]

def readResult (id execution : String) : Message where
  role := .user
  content := .blocks [.toolResult
    { toolUseId := id, content := .inl "text", name := "read", isError := false,
      executionId := some execution }]

def goOn : Message where
  role := .user
  content := .str "go on"

/-- A call id comes twice, and each time the call is answered; another call is left open. -/
def repeatedAnswered : List Message :=
  [askRead "call_1" "e1", readResult "call_1" "e1", askRead "call_1" "e2",
    readResult "call_1" "e2", askRead "call_2" "e3", goOn]

theorem answersCalls_repeated :
    AnswersCalls repeatedAnswered true (toResponsesInput true repeatedAnswered) :=
  (answersCalls_iff true repeatedAnswered (by decide)).mpr (by
    have hall : ∀ fate ∈ fates repeatedAnswered, fate.2 = false →
        callsUnder fate.1.id (fates repeatedAnswered) = 1 := by decide
    exact fun c hc => hall _ hc rfl)

/-- A call that nobody answered, and a later one under its id that is answered. -/
def repeatedOpen : List Message :=
  [askRead "call_1" "e1", goOn, askRead "call_1" "e2", readResult "call_1" "e2"]

/-- **A call is left without an output.**  It shares its id with a later call, whose output makes
the id count as answered. -/
theorem call_left_open :
    Correlated [] repeatedOpen ∧
      ¬ AnswersCalls repeatedOpen false (toResponsesInput false repeatedOpen) := by
  refine ⟨by decide, fun h => ?_⟩
  have hone := h.once .json "call_1" "read" "\x7b\"path\": \"a\"\x7d"
    ((toResponsesInput false repeatedOpen).drop 1) (by decide)
  exact absurd hone (by decide)

/-! ### A history that is valid -/

theorem fates_of_valid {answered : Bool} (hvalid : Conversation.isValidForAnthropic messages = true)
    (hcor : Correlated opened messages) (h : (c, answered) ∈ fates messages) : answered = true := by
  induction messages generalizing opened with
  | nil => cases h
  | cons m messages ih =>
    rw [Conversation.isValidForAnthropic, Bool.and_eq_true] at hvalid
    obtain ⟨-, -, -, hcalls, -, hafter⟩ := hcor
    rcases mem_append.mp h with h | h
    · obtain ⟨c', hc, he⟩ := mem_map.mp h
      obtain ⟨rfl, rfl⟩ := Prod.mk.inj he
      have hrole : m.role = .assistant := by
        by_contra hne
        rw [hcalls hne] at hc
        cases hc
      have hblocks : m.hasBlocks = true := by
        unfold Message.hasBlocks
        unfold Message.calls Message.blocks at hc
        split at hc <;> simp_all
      have hnext := hvalid.1
      unfold Conversation.answeredBy at hnext
      rw [if_pos ⟨hrole, hblocks⟩, if_neg (by simpa using ne_nil_of_mem hc)] at hnext
      cases messages with
      | nil => cases hnext
      | cons next messages =>
        simp only [head?_cons, Bool.and_eq_true, all_eq_true, any_eq_true, decide_eq_true_eq] at hnext
        obtain ⟨r, hr, hid⟩ := hnext.2 c' hc
        rw [answeredIn, decide_eq_true (mem_map.mpr ⟨r, hr, hid⟩), Bool.true_or]
    · exact ih hvalid.2 hafter h

/-- **A history that is valid for Anthropic is sent whole**: its results are the only outputs, and
every call has one before its id is called again. -/
theorem valid_sentWhole (escape : Bool) (messages : List Message)
    (hvalid : Conversation.isValidForAnthropic messages = true) (hcor : Correlated [] messages) :
    AnsweredOnce (toResponsesInput escape messages) ∧
      (toResponsesInput escape messages).filter Item.isOutput =
        (messages.flatMap Message.results).map (outputItem (escaping escape)) := by
  have hall : ∀ c answered, (c, answered) ∈ fates messages → answered = true :=
    fun c answered => fates_of_valid hvalid hcor
  have hpad : padding ((bodyItems (escaping escape) messages).filterMap Item.answered)
      (bodyItems (escaping escape) messages) = [] := by
    rw [filterMap_answered_body hcor, padding_eq _ _ (filter_isCall_body hcor), map_eq_nil_iff,
      eq_nil_iff_forall_not_mem]
    intro c hc
    obtain ⟨hmem, hno⟩ := mem_padCalls hc
    obtain ⟨⟨c, answered⟩, hf, rfl⟩ := mem_map.mp hmem
    cases hall c answered hf
    exact hno (mem_results_of_fates hf)
  have hinput : toResponsesInput escape messages = bodyItems (escaping escape) messages ++ [] :=
    congrArg (_ ++ ·) hpad
  have honce : AnsweredOnce (bodyItems (escaping escape) messages ++ []) :=
    (answeredOnce_body hcor (by simp)).mpr ((eachOnce_iff (fun _ _ _ _ => rfl)
      fun before c after hsplit => nomatch hall c false (by rw [hsplit]; simp)).mpr
        fun c hc => nomatch hall c false hc)
  rw [hinput]
  refine ⟨honce, ?_⟩
  rw [append_nil, filter_isOutput_body hcor]

/-- A call and its result, twice under one id. -/
theorem valid_sentWhole_repeated :
    AnsweredOnce (toResponsesInput true (repeatedAnswered.take 4)) :=
  (valid_sentWhole true (repeatedAnswered.take 4) (by decide) (by decide)).1

end KolegaCode.Responses
