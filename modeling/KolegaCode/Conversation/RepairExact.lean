import KolegaCode.Conversation.RepairTracks

/-!
# Conversation — when the repair loses and repeats nothing

For inputs with distinct execution ids in which every result answers one call, the repaired
history has each input block once, and otherwise only placeholders of unanswered calls, exactly
when (`repaired_conserves_iff`)

* no user message whose blocks were all moved to earlier assistant messages stands directly after
  an assistant message with calls (`StaleLookAhead`): its look-ahead reads the moved blocks again;
* no call without a later answer has an answer elsewhere (`AnswersFollow`): the search looks only
  at later user messages, and adds a placeholder beside the result before the call.
-/

namespace KolegaCode.Conversation

open List

/-! ### The calls awaiting an answer -/

/-- `c` is a call of an assistant message of `pre` that no later user message of `pre` answers. -/
def Awaiting (pre : List Message) (c : ToolCall) : Prop :=
  ∃ p a q, pre = p ++ a :: q ∧ a.role = .assistant ∧ c ∈ a.calls ∧ ∀ u ∈ q, ¬ AnsweredBy c u

theorem not_awaiting_nil (c : ToolCall) : ¬ Awaiting [] c := by
  rintro ⟨p, a, q, h, -⟩
  simp at h

variable {pre ms fixed all : List Message} {m : Message} {c : ToolCall} {cs : List Cell}

theorem awaiting_concat :
    Awaiting (pre ++ [m]) c ↔
      m.role = .assistant ∧ c ∈ m.calls ∨ Awaiting pre c ∧ ¬ AnsweredBy c m := by
  constructor
  · rintro ⟨p, a, q, h, hr, hc, hq⟩
    rcases eq_nil_or_concat q with rfl | ⟨q', m', rfl⟩
    · obtain ⟨-, he⟩ := append_inj' h rfl
      cases he
      exact .inl ⟨hr, hc⟩
    · rw [concat_eq_append, ← cons_append, ← append_assoc] at h
      obtain ⟨rfl, he⟩ := append_inj' h rfl
      cases he
      simp only [concat_eq_append, mem_append, mem_singleton] at hq
      exact .inr ⟨⟨p, a, q', rfl, hr, hc, fun u hu => hq u (.inl hu)⟩, hq m (.inr rfl)⟩
  · rintro (⟨hr, hc⟩ | ⟨⟨p, a, q, rfl, hr, hc, hq⟩, hm⟩)
    · exact ⟨pre, m, [], rfl, hr, hc, by simp⟩
    · refine ⟨p, a, q ++ [m], by simp, hr, hc, fun u hu => ?_⟩
      rcases mem_append.mp hu with hu | hu
      · exact hq u hu
      · rwa [mem_singleton.mp hu]

theorem Awaiting.mem (h : Awaiting pre c) : c ∈ pre.flatMap (·.calls) := by
  obtain ⟨p, a, q, rfl, -, hc, -⟩ := h
  exact mem_flatMap.mpr ⟨a, by simp, hc⟩

/-- Every block of the user message `u` is the first answer to a call awaiting one in `pre`, and
`u` follows the assistant message `a`, which has calls: `u`'s blocks have all been moved when the
look-ahead of `a` reads them. -/
def StaleLookAhead (pre : List Message) (a u : Message) : Prop :=
  a.role = .assistant ∧ a.calls ≠ [] ∧ u.role = .user ∧ u.blocks ≠ [] ∧
    (∀ b ∈ u.blocks, ∃ c, Awaiting pre c ∧ Answers c b) ∧
    u.blocks.Pairwise fun b b' => ∀ c, Awaiting pre c → ¬ (Answers c b ∧ Answers c b')

/-! ### The inputs -/

/-- The calls of all messages. -/
def allCalls (ms : List Message) : List ToolCall := ms.flatMap (·.calls)

theorem mem_allCalls : c ∈ allCalls ms ↔ .toolCall c ∈ allBlocks ms := by
  simp only [allCalls, allBlocks, mem_flatMap, Message.mem_calls]

/-- Tool-call execution ids are pairwise distinct. -/
def DistinctExecutionIds (ms : List Message) : Prop := ((allCalls ms).map (·.executionId)).Nodup

/-- Every tool result answers exactly one tool call of the list. -/
def EveryResultAnswersOneCall (ms : List Message) : Prop :=
  ∀ r, .toolResult r ∈ allBlocks ms → ∃! c, c ∈ allCalls ms ∧ answers c r = true

theorem EveryResultAnswersOneCall.separates (h : EveryResultAnswersOneCall ms) :
    Separates (· ∈ allCalls ms) (allBlocks ms) := by
  rintro b hb c d hc hd ⟨r, rfl, ha⟩ ⟨r', he, ha'⟩
  cases he
  exact (h r hb).unique ⟨hc, ha⟩ ⟨hd, ha'⟩

theorem apart_of_split {post : List Message} {a : Message} (he : ms = pre ++ a :: post)
    (hd : DistinctExecutionIds ms) (hs : Separates (· ∈ allCalls ms) (allBlocks ms)) :
    Apart (Awaiting pre) (a.calls.map (·, none)) post := by
  have hn : (allCalls ms).Nodup := List.Nodup.of_map _ hd
  have hmap : (a.calls.map fun c => (c, (none : Option ToolResult))).map Prod.fst = a.calls := by
    rw [map_map]; exact map_id _
  have hsplit : allCalls ms = allCalls pre ++ (a.calls ++ allCalls post) := by
    simp [he, allCalls]
  rw [hsplit, nodup_append] at hn
  obtain ⟨-, hn, hdis⟩ := hn
  refine ⟨?_, ?_, ?_⟩
  · rw [hmap]
    exact (nodup_append.mp hn).1
  · intro c hc hca
    rw [hmap] at hca
    exact hdis c hc.mem c (mem_append_left _ hca) rfl
  · intro m hm
    refine hs.mono (fun c hc => ?_) fun b hb => mem_flatMap.mpr ⟨m, by simp [he, hm], hb⟩
    rw [hmap] at hc
    rw [hsplit]
    rcases hc with hc | hc
    · exact mem_append_left _ hc.mem
    · exact mem_append_right _ (mem_append_left _ hc)

/-! ### One iteration, at a split of the input -/

/-- What one iteration does at the message `m` after `pre`: the cells that follow, the calls that
get a placeholder, and the blocks emitted again. -/
structure StepExact (pre : List Message) (m : Message) (ms : List Message) (st : RepairState) :
    Prop where
  follows : Follows (Awaiting (pre ++ [m])) ms (repairStep st).pending
  placeholders : ∀ c, c ∈ stepPlaceholders st ↔
    m.role = .assistant ∧ c ∈ m.calls ∧ ∀ u ∈ ms, ¬ AnsweredBy c u
  sublist : (stepPlaceholders st).Sublist m.calls
  repeated : stepRepeated st ≠ [] ↔ ∃ u ms', ms = u :: ms' ∧ StaleLookAhead pre m u
  repeated_mem : ∀ b ∈ stepRepeated st, (∃ u ∈ ms, b ∈ u.blocks) ∧ ∃ c, Answers c b

theorem stepExact_other {c : Cell} (hm : ¬ (m.role = .assistant ∧ m.calls ≠ []))
    (hc : c.processed = true ∨ c.msg = m ∨ c.msg.role = .user)
    (ht : Tracks (fun x => Awaiting pre x ∧ ¬ AnsweredBy x m) ms cs) :
    StepExact pre m ms ⟨c :: cs, fixed⟩ := by
  have hno : ∀ x, ¬ (m.role = .assistant ∧ x ∈ m.calls) :=
    fun x h => hm ⟨h.1, ne_nil_of_mem h.2⟩
  have hH : Awaiting (pre ++ [m]) = fun x => Awaiting pre x ∧ ¬ AnsweredBy x m := by
    funext x
    rw [awaiting_concat]
    exact propext ⟨fun h => h.resolve_left (hno x), .inr⟩
  have hrep : ¬ ∃ u ms', ms = u :: ms' ∧ StaleLookAhead pre m u := by
    rintro ⟨u, ms', -, h⟩
    exact hm ⟨h.1, h.2.1⟩
  obtain ⟨cm, p⟩ := c
  -- in every case nothing is collected, and the cells after this one stay as they are
  have hstep : (repairStep ⟨⟨cm, p⟩ :: cs, fixed⟩).pending = cs ∧
      stepPlaceholders ⟨⟨cm, p⟩ :: cs, fixed⟩ = [] ∧
      stepRepeated ⟨⟨cm, p⟩ :: cs, fixed⟩ = [] := by
    cases p with
    | true => exact ⟨rfl, rfl, rfl⟩
    | false =>
      simp only [repairStep, stepPlaceholders, stepRepeated]
      rcases hc with hc | hc | hc
      · cases hc
      · simp only at hc
        subst hc
        by_cases ha : cm.role = .assistant ∧ cm.hasBlocks
        · have hcalls : cm.calls = [] := by
            by_contra h
            exact hm ⟨ha.1, h⟩
          have hun : unmatched (settled cm cs).1 = [] := by
            have h := settled_calls cm cs
            rw [hcalls, map_eq_nil_iff] at h
            rw [h]; rfl
          simp [ha, hcalls, hun]
        · simp only [if_neg ha]
          exact ⟨trivial, trivial, if_neg fun h => ha ⟨h.1, h.2.1⟩⟩
      · simp only at hc
        simp [hc]
  obtain ⟨h₁, h₂, h₃⟩ := hstep
  refine ⟨?_, fun x => ?_, ?_, ?_, ?_⟩
  · rw [h₁, hH]; exact ht.follows
  · rw [h₂]
    exact iff_of_false (by simp) fun h => hno x ⟨h.1, h.2.1⟩
  · rw [h₂]; exact nil_sublist _
  · rw [h₃]
    exact iff_of_false (by simp) hrep
  · rw [h₃]; simp

theorem stepExact_assistant {a : Message} (ha : a.role = .assistant) (hc : a.calls ≠ [])
    (hap : Apart (Awaiting pre) (a.calls.map (·, none)) ms) (ht : Tracks (Awaiting pre) ms cs) :
    StepExact pre a ms ⟨⟨a, false⟩ :: cs, fixed⟩ := by
  have hb : a.hasBlocks = true := by
    by_contra hno
    have hnil := Message.blocks_eq_nil_of_not_hasBlocks (Bool.not_eq_true _ ▸ hno)
    exact hc (by simp [Message.calls, hnil])
  obtain ⟨h₁, h₂⟩ := settled_tracks hap ht
  obtain ⟨h₃, h₄⟩ := stale_tracks ht
  have hH : Awaiting (pre ++ [a]) = fun x => Awaiting pre x ∨ x ∈ a.calls := by
    funext x
    rw [awaiting_concat]
    have hna := not_answeredBy_assistant ha x
    exact propext ⟨fun h => h.elim (fun h => .inr h.2) fun h => .inl h.1,
      fun h => h.elim (fun h => .inr ⟨h, hna⟩) fun h => .inl ⟨ha, h⟩⟩
  refine ⟨?_, fun x => ?_, ?_, ?_, ?_⟩
  · simp only [repairStep]
    rw [if_pos ⟨ha, hb⟩, if_neg (by simpa using hc), answerCalls_eq hc, hH]
    exact h₁
  · simp only [stepPlaceholders]
    rw [if_pos ⟨ha, hb⟩, mem_unmatched, h₂]
    exact ⟨fun h => ⟨ha, h⟩, fun h => h.2⟩
  · simp only [stepPlaceholders]
    rw [if_pos ⟨ha, hb⟩]
    exact settled_calls a cs ▸ unmatched_sublist _
  · simp only [stepRepeated]
    rw [if_pos ⟨ha, hb, hc⟩, h₃]
    constructor
    · rintro ⟨u, ms', rfl, hr, hne, hs⟩
      obtain ⟨k₁, k₂⟩ := (sift_eq_nil_iff (hap.head.mono (fun _ h => .inl h) fun _ h => h)).mp hs
      exact ⟨u, ms', rfl, ha, hc, hr, hne, k₁, k₂⟩
    · rintro ⟨u, ms', rfl, -, -, hr, hne, k₁, k₂⟩
      refine ⟨u, ms', rfl, hr, hne, ?_⟩
      exact (sift_eq_nil_iff (hap.head.mono (fun _ h => .inl h) fun _ h => h)).mpr ⟨k₁, k₂⟩
  · simp only [stepRepeated]
    rw [if_pos ⟨ha, hb, hc⟩]
    intro b hb
    obtain ⟨u, hu, hbu, c, -, hab⟩ := h₄ b hb
    exact ⟨⟨u, hu, hbu⟩, c, hab⟩

/-- **One iteration**, at any message of the input. -/
theorem repairStep_exact {c : Cell} (fixed : List Message) (he : all = pre ++ m :: ms)
    (hd : DistinctExecutionIds all) (hs : Separates (· ∈ allCalls all) (allBlocks all))
    (hf : Follows (Awaiting pre) (m :: ms) (c :: cs)) : StepExact pre m ms ⟨c :: cs, fixed⟩ := by
  obtain ⟨hm, ht⟩ := hf
  by_cases ha : m.role = .assistant ∧ m.calls ≠ []
  · have hcell : c = ⟨m, false⟩ := by
      rcases hm with hm | ⟨-, hr, -⟩
      · unfold Tracked at hm
        rwa [if_neg (fun h => by rw [ha.1] at h; cases h.1)] at hm
      · rw [ha.1] at hr; cases hr
    subst hcell
    have hH : (fun x => Awaiting pre x ∧ ¬ AnsweredBy x m) = Awaiting pre := by
      funext x
      exact propext ⟨fun h => h.1, fun h => ⟨h, not_answeredBy_assistant ha.1 x⟩⟩
    exact stepExact_assistant ha.1 ha.2 (apart_of_split he hd hs) (hH ▸ ht)
  · refine stepExact_other ha ?_ ht
    rcases hm with hm | ⟨hp, -⟩
    · unfold Tracked at hm
      split at hm
      · exact .inr (.inr hm.1)
      · exact .inr (.inl (congrArg Cell.msg hm))
    · exact .inl hp

/-! ### The whole pass -/

theorem awaiting_cons :
    Awaiting (m :: ms) c ↔
      (m.role = .assistant ∧ c ∈ m.calls ∧ ∀ u ∈ ms, ¬ AnsweredBy c u) ∨ Awaiting ms c := by
  constructor
  · rintro ⟨p, a, q, h, hr, hc, hq⟩
    cases p with
    | nil => cases h; exact .inl ⟨hr, hc, hq⟩
    | cons p₀ p => cases h; exact .inr ⟨p, a, q, rfl, hr, hc, hq⟩
  · rintro (⟨hr, hc, hq⟩ | ⟨p, a, q, rfl, hr, hc, hq⟩)
    · exact ⟨[], m, ms, rfl, hr, hc, hq⟩
    · exact ⟨m :: p, a, q, rfl, hr, hc, hq⟩

/-- What the iterations over `ms`, after `pre`, add and repeat. -/
structure RunExact (pre ms : List Message) (st : RepairState) : Prop where
  placeholders : ∀ c, c ∈ runPlaceholders ms.length st ↔ Awaiting ms c
  sublist : (runPlaceholders ms.length st).Sublist (allCalls ms)
  repeated : runRepeated ms.length st ≠ [] ↔
    ∃ p a u q, ms = p ++ a :: u :: q ∧ StaleLookAhead (pre ++ p) a u
  repeated_mem : ∀ b ∈ runRepeated ms.length st, b ∈ allBlocks ms ∧ ∃ c, Answers c b

theorem run_exact (hd : DistinctExecutionIds all)
    (hs : Separates (· ∈ allCalls all) (allBlocks all)) :
    ∀ (ms pre : List Message) (st : RepairState), all = pre ++ ms →
      Follows (Awaiting pre) ms st.pending → RunExact pre ms st
  | [], pre, st, _, _ => by
      refine ⟨fun c => ?_, .slnil, ?_, by simp [runRepeated]⟩
      · exact iff_of_false (by simp [runPlaceholders]) (not_awaiting_nil c)
      · refine iff_of_false (by simp [runRepeated]) ?_
        rintro ⟨p, a, u, q, h, -⟩
        simp at h
  | m :: ms, pre, ⟨c :: cs, fixed⟩, he, hf => by
      have hstep := repairStep_exact fixed he hd hs hf
      have hrun := run_exact hd hs ms (pre ++ [m]) _ (by simp [he]) hstep.follows
      refine ⟨fun x => ?_, ?_, ?_, ?_⟩
      · rw [length_cons, runPlaceholders, mem_append, hstep.placeholders,
          hrun.placeholders, awaiting_cons]
      · exact hstep.sublist.append hrun.sublist
      · rw [length_cons, runRepeated, Ne, append_eq_nil_iff, not_and_or,
          ← Ne, hstep.repeated, ← Ne, hrun.repeated]
        constructor
        · rintro (⟨u, ms', rfl, h⟩ | ⟨p, a, u, q, rfl, h⟩)
          · exact ⟨[], m, u, ms', rfl, by simpa using h⟩
          · exact ⟨m :: p, a, u, q, rfl, by simpa using h⟩
        · rintro ⟨p, a, u, q, h, hst⟩
          cases p with
          | nil => cases h; exact .inl ⟨u, q, rfl, by simpa using hst⟩
          | cons p₀ p => cases h; exact .inr ⟨p, a, u, q, rfl, by simpa using hst⟩
      · intro b hb
        rw [length_cons, runRepeated, mem_append] at hb
        rcases hb with hb | hb
        · obtain ⟨⟨u, hu, hbu⟩, hc⟩ := hstep.repeated_mem b hb
          exact ⟨mem_flatMap.mpr ⟨u, mem_cons_of_mem _ hu, hbu⟩, hc⟩
        · obtain ⟨hbm, hc⟩ := hrun.repeated_mem b hb
          exact ⟨mem_append_right _ hbm, hc⟩

/-- Each item of the input occurs in the output as often as in the input, and what else occurs are
the error placeholders of calls of the input that no result of the input answers, at most one for
each call. -/
def Conserves (ms out : List Message) : Prop :=
  ∃ cs : List ToolCall, cs.Sublist (allCalls ms) ∧
    (∀ c ∈ cs, ∀ r, .toolResult r ∈ allBlocks ms → answers c r = false) ∧
    (items out).Perm (items ms ++ cs.map fun c => .block (.toolResult (placeholder c)))

/-- A call that no later user message answers is answered nowhere. -/
def AnswersFollow (ms : List Message) : Prop :=
  ∀ c, Awaiting ms c → ∀ r, .toolResult r ∈ allBlocks ms → answers c r = false

theorem answers_placeholder {r : ToolResult} (h : r = placeholder c) : answers c r = true := by
  rw [h]
  exact answers_iff.mpr (.inl rfl)

/-- **No loss and no duplication**: exactly when no look-ahead reads a message whose blocks have
all been moved, and no call is answered only where the search does not look. -/
theorem repaired_conserves_iff (ms : List Message) (hd : DistinctExecutionIds ms)
    (hu : EveryResultAnswersOneCall ms) :
    Conserves ms (repaired ms) ↔
      (∀ p a u q, ms = p ++ a :: u :: q → ¬ StaleLookAhead p a u) ∧ AnswersFollow ms := by
  have hrun : RunExact [] ms (repairStart ms) :=
    run_exact hd hu.separates ms [] _ rfl (tracks_start ms not_awaiting_nil).follows
  have hitems := repaired_items ms
  have hrep : runRepeated ms.length (repairStart ms) = [] ↔
      ∀ p a u q, ms = p ++ a :: u :: q → ¬ StaleLookAhead p a u := by
    rw [← not_iff_not, ← Ne, hrun.repeated]
    push Not
    rfl
  constructor
  · rintro ⟨cs, hsub, hun, hperm⟩
    rw [Multiset.coe_eq_coe.mpr hperm, ← Multiset.coe_add, ← placeholderBag_eq, add_assoc] at hitems
    have hbag := add_left_cancel hitems
    -- an added block is the placeholder of a call of `cs`
    have hmem : ∀ b, .block b ∈ placeholderBag cs →
        ∃ c ∈ cs, b = .toolResult (placeholder c) := by
      intro b hb
      rw [placeholderBag_eq, Multiset.mem_coe, mem_map] at hb
      obtain ⟨c, hc, h⟩ := hb
      cases h
      exact ⟨c, hc, rfl⟩
    refine ⟨hrep.mp (eq_nil_iff_forall_not_mem.mpr fun b hb => ?_), fun c hc r hr => ?_⟩
    · obtain ⟨c, hc, rfl⟩ := hmem b (by rw [hbag]; simp [bag, hb])
      have := hun c hc _ (hrun.repeated_mem _ hb).1
      rw [answers_placeholder rfl] at this
      cases this
    · have hcP := (hrun.placeholders c).mpr hc
      have hmem' : .block (.toolResult (placeholder c)) ∈ placeholderBag cs := by
        rw [hbag, Multiset.mem_add, placeholderBag_eq, Multiset.mem_coe, mem_map]
        exact .inl ⟨c, hcP, rfl⟩
      obtain ⟨c', hc', h⟩ := hmem _ hmem'
      have hid : c.executionId = c'.executionId :=
        Option.some.inj (congrArg (·.executionId) (ContentBlock.toolResult.inj h))
      have hcc : c = c' :=
        inj_on_of_nodup_map hd (hrun.sublist.subset hcP) (hsub.subset hc') hid
      exact hcc ▸ hun c' hc' r hr
  · rintro ⟨hst, hans⟩
    rw [hrep.mpr hst] at hitems
    refine ⟨_, hrun.sublist, fun c hc => hans c ((hrun.placeholders c).mp hc), ?_⟩
    rw [← Multiset.coe_eq_coe, hitems, ← Multiset.coe_add, placeholderBag_eq, bag_nil, add_zero]

/-! ### A result read twice -/

def firstCall : ToolCall :=
  { id := "toolu_1", name := "read_file", input := .obj [], executionId := "exec-1" }

def secondCall : ToolCall :=
  { id := "toolu_2", name := "read_file", input := .obj [], executionId := "exec-2" }

def firstResult : ToolResult :=
  { toolUseId := "toolu_1", content := .inl "text", name := "read_file", isError := false,
    executionId := some "exec-1" }

/-- A call whose result stands behind another call. -/
def crossedResult : List Message :=
  [{ role := .assistant, content := .blocks [.toolCall firstCall] },
   { role := .assistant, content := .blocks [.toolCall secondCall] },
   { role := .user, content := .blocks [.toolResult firstResult] }]

theorem crossedResult_calls : allCalls crossedResult = [firstCall, secondCall] := rfl

theorem crossedResult_blocks :
    allBlocks crossedResult = [.toolCall firstCall, .toolCall secondCall, .toolResult firstResult] :=
  rfl

theorem crossedResult_answersOne : EveryResultAnswersOneCall crossedResult := by
  intro r hr
  simp only [crossedResult_blocks, mem_cons, reduceCtorEq, ContentBlock.toolResult.injEq,
    not_mem_nil, or_false, false_or] at hr
  subst hr
  refine ⟨firstCall, ⟨mem_cons_self, rfl⟩, ?_⟩
  rintro c ⟨hc, ha⟩
  simp only [crossedResult_calls, mem_cons, not_mem_nil, or_false] at hc
  rcases hc with rfl | rfl
  · rfl
  · exact absurd ha (by decide)

/-- The result of the first call is emitted twice: five blocks come out of three, and only one
call is unanswered. -/
theorem crossedResult_repeated : DistinctExecutionIds crossedResult ∧
    EveryResultAnswersOneCall crossedResult ∧
    ¬ Conserves crossedResult (repaired crossedResult) := by
  refine ⟨by unfold DistinctExecutionIds; decide, crossedResult_answersOne, ?_⟩
  rintro ⟨cs, hsub, hun, hperm⟩
  have hlen : 5 = 3 + cs.length := by
    have h := hperm.length_eq
    rw [length_append, length_map] at h
    exact h
  have hcs : cs = [firstCall, secondCall] := hsub.eq_of_length (by show cs.length = 2; omega)
  have h := hun firstCall (by simp [hcs]) firstResult (by simp [crossedResult_blocks])
  exact absurd h (by decide)

/-- A call directly followed by its result. -/
def adjacentResult : List Message :=
  [{ role := .assistant, content := .blocks [.toolCall firstCall] },
   { role := .user, content := .blocks [.toolResult firstResult] }]

theorem adjacentResult_answersOne : EveryResultAnswersOneCall adjacentResult := by
  intro r hr
  have hblocks : allBlocks adjacentResult = [.toolCall firstCall, .toolResult firstResult] := rfl
  simp only [hblocks, mem_cons, reduceCtorEq, ContentBlock.toolResult.injEq,
    not_mem_nil, or_false, false_or] at hr
  subst hr
  refine ⟨firstCall, ⟨mem_cons_self, rfl⟩, ?_⟩
  rintro c ⟨hc, -⟩
  exact mem_singleton.mp hc

/-- Repairing an adjacent pair repeats nothing. -/
theorem repaired_conserves_adjacentResult : Conserves adjacentResult (repaired adjacentResult) := by
  refine (repaired_conserves_iff adjacentResult (by unfold DistinctExecutionIds; decide)
    adjacentResult_answersOne).mpr ⟨fun p a u q he hst => ?_, fun c hc => ?_⟩
  · cases p with
    | nil =>
        obtain ⟨b, hb⟩ := exists_mem_of_ne_nil _ hst.2.2.2.1
        obtain ⟨c, hc, -⟩ := hst.2.2.2.2.1 b hb
        exact not_awaiting_nil c hc
    | cons m p =>
        have := congrArg List.length he
        simp only [adjacentResult, length_cons, length_append, length_nil] at this
        omega
  · rcases awaiting_cons.mp hc with ⟨-, hc, hno⟩ | hc
    · refine absurd ⟨rfl, .toolResult firstResult, mem_cons_self, firstResult, rfl, ?_⟩
        (hno _ mem_cons_self)
      rw [mem_singleton.mp (show c ∈ [firstCall] from hc)]
      rfl
    · rcases awaiting_cons.mp hc with ⟨hr, -⟩ | hc
      · cases hr
      · exact absurd hc (not_awaiting_nil c)

end KolegaCode.Conversation
