import KolegaCode.Conversation.Adapt
import Mathlib.Data.List.Nodup

/-!
# Conversation — calls and results of an adapted history

A message's blocks are sent as what `sentAs` gives for each of them, and a message none of whose
blocks is sent is left out (`adaptHistory_eq`, `adaptMessage_some`).  A call or a result is sent as
itself or as text, so a message that has one is never left out.

A result is sent as a result exactly when its call is sent as a call (`result_sent_iff`), as long as
the dictionaries of the calls' origins give for the call's id what the call's own message gives
(`OriginsAgree`).
-/

namespace KolegaCode.Conversation

open List
open Hashline (stripHashlineReadOutput)

/-! ### What a block is sent as -/

theorem adaptContentBlocks_fst (ctx : AdaptContext) (role : Option Role) (bs : List ContentBlock) :
    (adaptContentBlocks ctx role bs).1 = bs.filterMap fun b => (adaptBlock ctx role b).1 := by
  induction bs with
  | nil => rfl
  | cons b bs ih =>
    rw [adaptContentBlocks, ih, filterMap_cons]
    cases (adaptBlock ctx role b).1 <;> rfl

theorem adaptToolCall_cases (ctx : AdaptContext) (c : ToolCall) :
    adaptToolCall ctx c = (some (.toolCall c), false) ∨
      c.inputKind = .freeform ∧ ∃ text, adaptToolCall ctx c = (some (.text text), true) := by
  unfold adaptToolCall
  split
  · rename_i hkind
    split
    · exact .inl rfl
    · exact .inr ⟨hkind, _, rfl⟩
  · exact .inl rfl

theorem withInner_cases (r : ToolResult) (inner : List ContentBlock × Bool) :
    withInner r inner = (some (.toolResult r), false) ∨
      withInner r inner = (some (.toolResult (toolResultWithContent r (.inr inner.1))), true) := by
  unfold withInner
  split
  · exact .inr rfl
  · exact .inl rfl

/-- A result that stays a result: any but a freeform one that cannot be replayed. -/
def keepsResult (ctx : AdaptContext) (r : ToolResult) : Bool :=
  r.inputKind ≠ .freeform || preserveFreeformExchange ctx.target (resultOrigin ctx r)

/-- What a result is sent as: text when it is not kept; else itself, itself without hashline
anchors, or itself with an adapted list content. -/
theorem adaptToolResult_cases (ctx : AdaptContext) (r : ToolResult)
    (inner : Option (List ContentBlock × Bool)) :
    (keepsResult ctx r = false ∧ r.inputKind = .freeform ∧
        ∃ text, adaptToolResult ctx r inner = (some (.text text), true)) ∨
      keepsResult ctx r = true ∧
        (adaptToolResult ctx r inner = (some (.toolResult r), false) ∨
          (∃ s, r.content = .inl s ∧ stripsAnchors ctx r = true ∧ adaptToolResult ctx r inner =
            (some (.toolResult (toolResultWithContent r
              (.inl (stripHashlineReadOutput s false)))), true)) ∨
          ∃ bs, inner = some bs ∧ adaptToolResult ctx r inner =
            (some (.toolResult (toolResultWithContent r (.inr bs.1))), true)) := by
  unfold adaptToolResult keepsResult
  by_cases hkind : r.inputKind = .freeform
  · rw [if_pos hkind]
    cases hp : preserveFreeformExchange ctx.target (resultOrigin ctx r) with
    | false => exact .inl ⟨by simp [hkind], hkind, _, rfl⟩
    | true =>
      refine .inr ⟨by simp, ?_⟩
      cases inner with
      | none => exact .inl rfl
      | some inner =>
        rcases withInner_cases r inner with h | h
        · exact .inl h
        · exact .inr (.inr ⟨inner, rfl, h⟩)
  · rw [if_neg hkind]
    refine .inr ⟨by simp [hkind], ?_⟩
    cases inner with
    | some inner =>
      rcases withInner_cases r inner with h | h
      · exact .inl h
      · exact .inr (.inr ⟨inner, rfl, h⟩)
    | none =>
      cases hc : r.content with
      | inr bs => exact .inl rfl
      | inl s =>
        dsimp only
        split
        · rename_i hstrip
          exact .inr (.inl ⟨s, rfl, hstrip, rfl⟩)
        · exact .inl rfl

theorem adaptReasoning_cases (ctx : AdaptContext) (b : ContentBlock) :
    adaptReasoning ctx b = (some b, false) ∨ adaptReasoning ctx b = (none, true) := by
  unfold adaptReasoning
  split
  · exact .inl rfl
  · exact .inr rfl

theorem adaptImageBlock_cases (ctx : AdaptContext) (b : ImageBlock) :
    adaptImageBlock ctx b = (.image b, false) ∨
      (∃ text, adaptImageBlock ctx b = (.text text, true)) ∨
      ∃ b', adaptImageBlock ctx b = (.image b', true) := by
  unfold adaptImageBlock
  split
  · exact .inr (.inl ⟨_, rfl⟩)
  · split
    · exact .inl rfl
    · dsimp only
      split
      · exact .inr (.inl ⟨_, rfl⟩)
      · exact .inl rfl
      · exact .inr (.inr ⟨_, rfl⟩)

theorem adaptText_cases (role : Option Role) (b : TextBlock) :
    adaptText role b = (some (.text b), false) ∨
      role = some .assistant ∧ (adaptText role b = (none, true) ∨
        ∃ b', adaptText role b = (some (.text b'), true)) := by
  unfold adaptText
  split
  · rename_i hrole
    dsimp only
    split
    · exact .inl rfl
    · split
      · exact .inr ⟨hrole, .inr ⟨_, rfl⟩⟩
      · exact .inr ⟨hrole, .inl rfl⟩
  · exact .inl rfl

variable {ctx : AdaptContext} {role : Option Role} {b : ContentBlock} {r : ToolResult}

theorem adaptBlock_unchanged (h : (adaptBlock ctx role b).2 = false) :
    (adaptBlock ctx role b).1 = some b := by
  have hreasoning : ∀ b, (adaptReasoning ctx b).2 = false → (adaptReasoning ctx b).1 = some b := by
    intro b h
    rcases adaptReasoning_cases ctx b with hb | hb
    · rw [hb]
    · rw [hb] at h
      cases h
  cases b with
  | text b =>
    rw [adaptBlock] at h ⊢
    rcases adaptText_cases role b with hb | ⟨-, hb | ⟨b', hb⟩⟩
    · rw [hb]
    · rw [hb] at h; cases h
    · rw [hb] at h; cases h
  | image b =>
    rw [adaptBlock] at h ⊢
    rcases adaptImageBlock_cases ctx b with hb | ⟨text, hb⟩ | ⟨b', hb⟩
    · rw [hb]
    · rw [hb] at h; cases h
    · rw [hb] at h; cases h
  | thinking b | redactedThinking b | responsesReasoning b | webSearchCall b =>
    rw [adaptBlock] at h ⊢; exact hreasoning _ h
  | toolCall c =>
    rw [adaptBlock] at h ⊢
    rcases adaptToolCall_cases ctx c with hc | ⟨-, text, hc⟩
    · rw [hc]
    · rw [hc] at h; cases h
  | toolResult r =>
    rw [adaptBlock] at h ⊢
    rcases adaptToolResult_cases ctx r (adaptInner ctx r) with
      ⟨-, -, text, hr⟩ | ⟨-, hr | ⟨s, -, -, hr⟩ | ⟨bs, -, hr⟩⟩
    · rw [hr] at h; cases h
    · rw [hr]
    · rw [hr] at h; cases h
    · rw [hr] at h; cases h

theorem adaptContentBlocks_unchanged {bs : List ContentBlock}
    (h : (adaptContentBlocks ctx role bs).2 = false) : (adaptContentBlocks ctx role bs).1 = bs := by
  induction bs with
  | nil => rfl
  | cons b bs ih =>
    rw [adaptContentBlocks, Bool.or_eq_false_iff] at h
    rw [adaptContentBlocks, adaptBlock_unchanged h.1, ih h.2]
    rfl

/-! ### What the content of a result is sent as -/

def isReasoning : ContentBlock → Bool
  | .thinking _ | .redactedThinking _ | .responsesReasoning _ | .webSearchCall _ => true
  | _ => false

/-- What a block of a tool result is sent as: itself; text or another image for an image; nothing
for reasoning; and a result inside the result with its own content sent in this way. -/
inductive BlockSent (t : Target) : ContentBlock → List ContentBlock → Prop
  | same (b : ContentBlock) : BlockSent t b [b]
  | imageText (b : ImageBlock) (text : TextBlock) : BlockSent t (.image b) [.text text]
  | imageResized (b b' : ImageBlock) : BlockSent t (.image b) [.image b']
  | reasoningDropped (b : ContentBlock) (h : isReasoning b = true) : BlockSent t b []
  | callText (c : ToolCall) (text : TextBlock) (h : c.inputKind = .freeform) :
      BlockSent t (.toolCall c) [.text text]
  | resultText (r : ToolResult) (text : TextBlock) (h : r.inputKind = .freeform) :
      BlockSent t (.toolResult r) [.text text]
  | resultStripped (r : ToolResult) (s : String) (h : r.content = .inl s) (hname : r.name = "read")
      (ht : t.editProtocol.isSome = true ∧ t.editProtocol ≠ some "hashline_v2") :
      BlockSent t (.toolResult r)
        [.toolResult (toolResultWithContent r (.inl (stripHashlineReadOutput s false)))]
  | resultInner (r : ToolResult) (bs : List ContentBlock) (parts : List (List ContentBlock))
      (h : r.content = .inr bs) (hparts : List.Forall₂ (BlockSent t) bs parts) :
      BlockSent t (.toolResult r) [.toolResult (toolResultWithContent r (.inr parts.flatten))]

theorem stripsAnchors_iff (h : stripsAnchors ctx r = true) :
    r.name = "read" ∧ ctx.target.editProtocol.isSome = true ∧
      ctx.target.editProtocol ≠ some "hashline_v2" := by
  simp only [stripsAnchors, Bool.and_eq_true, decide_eq_true_eq] at h
  exact ⟨h.1.1.1, h.1.2, h.2⟩

theorem adaptReasoning_sent (ctx : AdaptContext) (h : isReasoning b = true) :
    BlockSent ctx.target b (adaptReasoning ctx b).1.toList := by
  rcases adaptReasoning_cases ctx b with hb | hb
  · rw [hb]
    exact .same b
  · rw [hb]
    exact .reasoningDropped b h

/-- A result is sent as `BlockSent` allows, when its list content is. -/
theorem adaptToolResult_sent (ctx : AdaptContext) (r : ToolResult)
    (inner : Option (List ContentBlock × Bool))
    (h : ∀ out, inner = some out → ∃ bs parts, r.content = .inr bs ∧
      List.Forall₂ (BlockSent ctx.target) bs parts ∧ out.1 = parts.flatten) :
    BlockSent ctx.target (.toolResult r) (adaptToolResult ctx r inner).1.toList := by
  rcases adaptToolResult_cases ctx r inner with
    ⟨-, hkind, text, hr⟩ | ⟨-, hr | ⟨s, hs, hstrip, hr⟩ | ⟨out, hout, hr⟩⟩
  · rw [hr]
    exact .resultText r text hkind
  · rw [hr]
    exact .same _
  · rw [hr]
    obtain ⟨hname, ht⟩ := stripsAnchors_iff hstrip
    exact .resultStripped r s hs hname ht
  · obtain ⟨bs, parts, hbs, hparts, heq⟩ := h out hout
    rw [hr, heq]
    exact .resultInner r bs parts hbs hparts

mutual

theorem adaptBlock_sent (ctx : AdaptContext) : ∀ b : ContentBlock,
    BlockSent ctx.target b (adaptBlock ctx none b).1.toList
  | .text b => by
      rw [adaptBlock]
      rcases adaptText_cases none b with hb | ⟨hrole, -⟩
      · rw [hb]
        exact .same _
      · cases hrole
  | .image b => by
      rw [adaptBlock]
      rcases adaptImageBlock_cases ctx b with hb | ⟨text, hb⟩ | ⟨b', hb⟩
      · rw [hb]
        exact .same _
      · rw [hb]
        exact .imageText b text
      · rw [hb]
        exact .imageResized b b'
  | .thinking b | .redactedThinking b | .responsesReasoning b | .webSearchCall b =>
    by rw [adaptBlock]; exact adaptReasoning_sent ctx rfl
  | .toolCall c => by
      rw [adaptBlock]
      rcases adaptToolCall_cases ctx c with hc | ⟨hkind, text, hc⟩
      · rw [hc]
        exact .same _
      · rw [hc]
        exact .callText c text hkind
  | .toolResult r => by
      rw [adaptBlock]
      exact adaptToolResult_sent ctx r _ (adaptInner_sent ctx r)

theorem adaptInner_sent (ctx : AdaptContext) : ∀ r : ToolResultOf ContentBlock,
    ∀ out, adaptInner ctx r = some out → ∃ bs parts, r.content = .inr bs ∧
      List.Forall₂ (BlockSent ctx.target) bs parts ∧ out.1 = parts.flatten
  | ⟨_, .inl _, _, _, _, _, _, _⟩ => by
      intro out h
      rw [adaptInner] at h
      cases h
  | ⟨_, .inr bs, _, _, _, _, _, _⟩ => by
      intro out h
      rw [adaptInner, Option.some.injEq] at h
      obtain ⟨parts, hparts, heq⟩ := adaptContentBlocks_sent ctx bs
      exact ⟨bs, parts, rfl, hparts, by rw [← h, heq]⟩

theorem adaptContentBlocks_sent (ctx : AdaptContext) : ∀ bs : List ContentBlock,
    ∃ parts, List.Forall₂ (BlockSent ctx.target) bs parts ∧
      (adaptContentBlocks ctx none bs).1 = parts.flatten
  | [] => ⟨[], .nil, rfl⟩
  | b :: bs => by
      obtain ⟨parts, hparts, heq⟩ := adaptContentBlocks_sent ctx bs
      refine ⟨_ :: parts, .cons (adaptBlock_sent ctx b) hparts, ?_⟩
      rw [adaptContentBlocks, heq]
      rfl

end

section

variable {S : Services} {t : Target} {all : List Message}

/-- What a block of the message `m` is sent as. -/
def sentAs (S : Services) (t : Target) (all : List Message) (m : Message) (b : ContentBlock) :
    Option ContentBlock :=
  (adaptBlock (adaptContext S t all m) (some m.role) b).1

/-- The blocks of a message that is sent are what its blocks are sent as; a message that is left out
has no block that is sent. -/
theorem adaptMessage_spec (m : Message) :
    (∃ m', (adaptMessage S t all m).1 = some m' ∧ m'.role = m.role ∧ m'.hasBlocks = m.hasBlocks ∧
        m'.blocks = m.blocks.filterMap (sentAs S t all m)) ∨
      (adaptMessage S t all m).1 = none ∧ ∀ b ∈ m.blocks, sentAs S t all m b = none := by
  unfold adaptMessage
  cases hm : m.content with
  | str s =>
    refine .inl ⟨m, rfl, rfl, rfl, ?_⟩
    simp [Message.blocks, hm]
  | blocks bs =>
    have hblocks : m.blocks = bs := by simp [Message.blocks, hm]
    have hfst := adaptContentBlocks_fst (adaptContext S t all m) (some m.role) bs
    dsimp only
    split
    · rename_i hempty
      simp only [Bool.and_eq_true, List.isEmpty_iff] at hempty
      refine .inr ⟨rfl, fun b hb => ?_⟩
      rw [hempty.2] at hfst
      rw [hblocks] at hb
      exact filterMap_eq_nil_iff.mp hfst.symm b hb
    · split
      · refine .inl ⟨_, rfl, rfl, ?_, ?_⟩
        · simp [messageWithContent, Message.hasBlocks, hm]
        · rw [hblocks]
          exact hfst
      · rename_i hchanged
        refine .inl ⟨m, rfl, rfl, rfl, ?_⟩
        rw [adaptContentBlocks_unchanged (Bool.eq_false_iff.mpr hchanged)] at hfst
        rw [hblocks]
        exact hfst

variable {m m' u : Message} {c : ToolCall} {r' : ToolResult} {ms : List Message}
  {last : Option Message}

theorem adaptMessage_unchanged (h : (adaptMessage S t all m).2 = false) :
    (adaptMessage S t all m).1 = some m := by
  unfold adaptMessage at h ⊢
  split at h
  · rfl
  · dsimp only at h ⊢
    split at h
    · cases h
    · split at h
      · cases h
      · rename_i hempty hchanged
        rw [if_neg hempty, if_neg hchanged]

theorem adaptHistory_eq (S : Services) (t : Target) (all : List Message) :
    adaptHistoryForProvider S t all = all.filterMap fun m => (adaptMessage S t all m).1 := by
  unfold adaptHistoryForProvider
  split
  · rfl
  · rename_i hany
    have hsame : ∀ m ∈ all, (adaptMessage S t all m).1 = some m := by
      intro m hm
      refine adaptMessage_unchanged (Bool.eq_false_iff.mpr fun hchanged => hany ?_)
      exact any_eq_true.mpr ⟨m, hm, hchanged⟩
    rw [filterMap_congr hsame, filterMap_some]

/-! ### Calls and results of a message that is sent -/

/-- A call that is sent as a call. -/
def callSent (t : Target) (m : Message) (c : ToolCall) : Bool :=
  c.inputKind ≠ .freeform || preserveFreeformExchange t (ownProvenance m c.name)

/-- A result that is sent as a result. -/
def resultSent (t : Target) (all : List Message) (m : Message) (r : ToolResult) : Bool :=
  r.inputKind ≠ .freeform ||
    preserveFreeformExchange t ((recorded all r.toolUseId).getD (ownProvenance m r.name))

theorem keepsResult_context (m : Message) (r : ToolResult) :
    keepsResult (adaptContext S t all m) r = resultSent t all m r := rfl

theorem sentAs_call (m : Message) (c : ToolCall) :
    (callSent t m c = true → sentAs S t all m (.toolCall c) = some (.toolCall c)) ∧
      (callSent t m c = false → ∃ text, sentAs S t all m (.toolCall c) = some (.text text)) := by
  simp only [sentAs, adaptBlock, adaptToolCall, callSent]
  by_cases hkind : c.inputKind = .freeform
  · rw [if_pos hkind]
    cases hp : preserveFreeformExchange t (ownProvenance m c.name) <;>
      simp [hkind, hp, adaptContext]
  · simp [hkind]

theorem sentAs_result_kept {m : Message} {r : ToolResult} (h : resultSent t all m r = true) :
    ∃ r', sentAs S t all m (.toolResult r) = some (.toolResult r') ∧
      BlockSent t (.toolResult r) [.toolResult r'] ∧
      (r' = r ∨ ∃ content, r' = toolResultWithContent r content) := by
  have hsent := adaptToolResult_sent (adaptContext S t all m) r _
    (adaptInner_sent (adaptContext S t all m) r)
  simp only [sentAs, adaptBlock]
  rcases adaptToolResult_cases (adaptContext S t all m) r (adaptInner (adaptContext S t all m) r)
    with ⟨hkeep, -⟩ | ⟨-, hr | ⟨s, -, -, hr⟩ | ⟨bs, -, hr⟩⟩
  · rw [keepsResult_context, h] at hkeep
    cases hkeep
  · rw [hr] at hsent ⊢
    exact ⟨r, rfl, hsent, .inl rfl⟩
  · rw [hr] at hsent ⊢
    exact ⟨_, rfl, hsent, .inr ⟨_, rfl⟩⟩
  · rw [hr] at hsent ⊢
    exact ⟨_, rfl, hsent, .inr ⟨_, rfl⟩⟩

theorem sentAs_result_text {m : Message} {r : ToolResult} (h : resultSent t all m r = false) :
    ∃ text, sentAs S t all m (.toolResult r) = some (.text text) := by
  simp only [sentAs, adaptBlock]
  rcases adaptToolResult_cases (adaptContext S t all m) r (adaptInner (adaptContext S t all m) r)
    with ⟨-, -, text, hr⟩ | ⟨hkeep, -⟩
  · exact ⟨text, by rw [hr]⟩
  · rw [keepsResult_context, h] at hkeep
    cases hkeep

theorem sentAs_other {b' : ContentBlock} (hc : b.asToolCall? = none) (hr : b.asToolResult? = none)
    (h : sentAs S t all m b = some b') : b'.asToolCall? = none ∧ b'.asToolResult? = none := by
  have hreasoning : ∀ b, b.asToolCall? = none → b.asToolResult? = none →
      (adaptReasoning (adaptContext S t all m) b).1 = some b' →
      b'.asToolCall? = none ∧ b'.asToolResult? = none := by
    intro b hc hr h
    rcases adaptReasoning_cases (adaptContext S t all m) b with hb | hb
    · rw [hb] at h
      cases h
      exact ⟨hc, hr⟩
    · rw [hb] at h
      cases h
  unfold sentAs at h
  cases b with
  | text b =>
    rw [adaptBlock] at h
    rcases adaptText_cases (some m.role) b with hb | ⟨-, hb | ⟨b'', hb⟩⟩
    all_goals rw [hb] at h; cases h
    · exact ⟨rfl, rfl⟩
    · exact ⟨rfl, rfl⟩
  | image b =>
    rw [adaptBlock] at h
    rcases adaptImageBlock_cases (adaptContext S t all m) b with hb | ⟨text, hb⟩ | ⟨b'', hb⟩
    all_goals rw [hb] at h; cases h; exact ⟨rfl, rfl⟩
  | thinking b | redactedThinking b | responsesReasoning b | webSearchCall b =>
    rw [adaptBlock] at h; exact hreasoning _ hc hr h
  | toolCall c => cases hc
  | toolResult r => cases hr

theorem sentAs_eq_call (h : sentAs S t all m b = some (.toolCall c)) :
    b = .toolCall c ∧ callSent t m c = true := by
  cases hbc : b.asToolCall? with
  | some c' =>
    rw [ContentBlock.asToolCall?_eq_some] at hbc
    subst hbc
    cases hc : callSent t m c' with
    | true =>
      rw [(sentAs_call m c').1 hc] at h
      cases h
      exact ⟨rfl, hc⟩
    | false =>
      obtain ⟨text, ht⟩ := (sentAs_call m c').2 hc
      rw [ht] at h
      cases h
  | none =>
    cases hbr : b.asToolResult? with
    | none => cases (sentAs_other hbc hbr h).1
    | some r =>
      rw [ContentBlock.asToolResult?_eq_some] at hbr
      subst hbr
      cases hr : resultSent t all m r with
      | true =>
        obtain ⟨r', hs, -⟩ := sentAs_result_kept hr
        rw [hs] at h
        cases h
      | false =>
        obtain ⟨text, hs⟩ := sentAs_result_text hr
        rw [hs] at h
        cases h

theorem sentAs_eq_result (h : sentAs S t all m b = some (.toolResult r')) :
    ∃ r, b = .toolResult r ∧ resultSent t all m r = true ∧
      (r' = r ∨ ∃ content, r' = toolResultWithContent r content) := by
  cases hbr : b.asToolResult? with
  | some r =>
    rw [ContentBlock.asToolResult?_eq_some] at hbr
    subst hbr
    cases hr : resultSent t all m r with
    | true =>
      obtain ⟨r'', hs, -, hsame⟩ := sentAs_result_kept hr
      rw [hs] at h
      cases h
      exact ⟨r, rfl, hr, hsame⟩
    | false =>
      obtain ⟨text, hs⟩ := sentAs_result_text hr
      rw [hs] at h
      cases h
  | none =>
    cases hbc : b.asToolCall? with
    | none => cases (sentAs_other hbc hbr h).2
    | some c =>
      rw [ContentBlock.asToolCall?_eq_some] at hbc
      subst hbc
      cases hc : callSent t m c with
      | true =>
        rw [(sentAs_call m c).1 hc] at h
        cases h
      | false =>
        obtain ⟨text, hs⟩ := (sentAs_call m c).2 hc
        rw [hs] at h
        cases h

theorem calls_sent (h : m'.blocks = m.blocks.filterMap (sentAs S t all m)) :
    m'.calls = m.calls.filter (callSent t m) := by
  unfold Message.calls
  rw [h, filterMap_filterMap, filter_filterMap]
  refine filterMap_congr fun b _ => ?_
  cases hb : b.asToolCall? with
  | some c =>
    rw [ContentBlock.asToolCall?_eq_some] at hb
    subst hb
    cases hc : callSent t m c with
    | true => simp [(sentAs_call m c).1 hc, ContentBlock.asToolCall?, Option.filter, hc]
    | false =>
      obtain ⟨text, hs⟩ := (@sentAs_call S t all m c).2 hc
      simp [hs, ContentBlock.asToolCall?, Option.filter, hc]
  | none =>
    cases hs : sentAs S t all m b with
    | none => rfl
    | some b' =>
      cases hb' : b'.asToolCall? with
      | none => simp [hb']
      | some c =>
        rw [ContentBlock.asToolCall?_eq_some] at hb'
        subst hb'
        rw [(sentAs_eq_call hs).1] at hb
        cases hb

/-! ### Calls and their results -/

/-- The result `r` is the call `c`'s: it carries the call's ids and its kind of input. -/
def Replies (c : ToolCall) (r : ToolResult) : Prop :=
  answers c r = true ∧ r.toolUseId = c.id ∧ r.inputKind = c.inputKind

/-- The origin recorded under a freeform call's id decides as the call's own does. -/
def OriginsAgree (t : Target) (all : List Message) : Prop :=
  ∀ m ∈ all, ∀ c ∈ m.calls, c.inputKind = .freeform → ∀ origin, recorded all c.id = some origin →
    preserveFreeformExchange t origin = preserveFreeformExchange t (ownProvenance m c.name)

theorem recorded_isSome (hm : m ∈ all) (hc : c ∈ m.calls) :
    ∃ origin, recorded all c.id = some origin := by
  have hentry : (c.id, ownProvenance m c.name) ∈ (callEntries all).reverse := by
    rw [mem_reverse]
    exact mem_flatMap.mpr ⟨m, hm, mem_map.mpr ⟨c, hc, rfl⟩⟩
  rw [← Option.isSome_iff_exists, recorded, lookup_isSome_iff]
  exact ⟨_, hentry, by simp⟩

/-- A result is sent as a result exactly when its call is sent as a call. -/
theorem result_sent_iff (hagree : OriginsAgree t all) {a : Message} (ha : a ∈ all)
    (hc : c ∈ a.calls) (hr : Replies c r) : resultSent t all u r = callSent t a c := by
  obtain ⟨-, hid, hkind⟩ := hr
  unfold resultSent callSent
  by_cases hfree : c.inputKind = .freeform
  · obtain ⟨origin, horigin⟩ := recorded_isSome ha hc
    rw [hkind, hid, horigin, Option.getD_some, hagree a ha c hc hfree origin horigin]
  · rw [hkind]
    simp [hfree]

/-- Every result replies to a call of the last assistant message before it, `last` at first. -/
def ResultsReply : Option Message → List Message → Prop
  | _, [] => True
  | last, m :: ms =>
      (∀ r ∈ m.results, ∃ a, last = some a ∧ ∃ c ∈ a.calls, Replies c r) ∧
        ResultsReply (if m.role = .assistant then some m else last) ms

/-- A history as a provider takes it: every call is answered in the next message, the calls of a
message have distinct ids, and every result replies to a call of the last assistant message. -/
structure ValidHistory (ms : List Message) : Prop where
  valid : isValidForAnthropic ms = true
  distinct : ∀ m ∈ ms, (m.calls.map (·.id)).Nodup
  replies : ResultsReply none ms

theorem Replies.sent (h : Replies c r)
    (hr : r' = r ∨ ∃ content, r' = toolResultWithContent r content) : Replies c r' := by
  rcases hr with rfl | ⟨content, rfl⟩
  · exact h
  · obtain ⟨hans, hid, hkind⟩ := h
    refine ⟨?_, hid, hkind⟩
    rw [answers_iff] at hans ⊢
    exact hans

theorem message_sent {m : Message} (h : m.calls ≠ [] ∨ m.results ≠ []) :
    ∃ m', (adaptMessage S t all m).1 = some m' ∧ m'.role = m.role ∧ m'.hasBlocks = m.hasBlocks ∧
      m'.blocks = m.blocks.filterMap (sentAs S t all m) := by
  rcases @adaptMessage_spec S t all m with hsent | ⟨-, hnone⟩
  · exact hsent
  · exfalso
    rcases h with h | h
    · obtain ⟨c, hc⟩ := exists_mem_of_ne_nil _ h
      have hb := hnone _ (Message.mem_calls.mp hc)
      cases hs : callSent t m c with
      | true => rw [(sentAs_call m c).1 hs] at hb; cases hb
      | false =>
        obtain ⟨text, ht⟩ := (@sentAs_call S t all m c).2 hs
        rw [ht] at hb
        cases hb
    · obtain ⟨r, hr⟩ := exists_mem_of_ne_nil _ h
      have hb := hnone _ (Message.mem_results.mp hr)
      cases hs : resultSent t all m r with
      | true =>
        obtain ⟨r', ht, -⟩ := @sentAs_result_kept S t all m r hs
        rw [ht] at hb
        cases hb
      | false =>
        obtain ⟨text, ht⟩ := @sentAs_result_text S t all m r hs
        rw [ht] at hb
        cases hb

theorem mem_results_sent (h : m'.blocks = m.blocks.filterMap (sentAs S t all m))
    (hr : r' ∈ m'.results) :
    ∃ r ∈ m.results, resultSent t all m r = true ∧
      (r' = r ∨ ∃ content, r' = toolResultWithContent r content) := by
  rw [Message.mem_results, h, mem_filterMap] at hr
  obtain ⟨b, hb, hs⟩ := hr
  obtain ⟨r, rfl, hkept, hsame⟩ := sentAs_eq_result hs
  exact ⟨r, Message.mem_results.mpr hb, hkept, hsame⟩

theorem result_mem_sent (h : m'.blocks = m.blocks.filterMap (sentAs S t all m))
    (hr : r ∈ m.results) (hkept : resultSent t all m r = true) :
    ∃ r' ∈ m'.results, r' = r ∨ ∃ content, r' = toolResultWithContent r content := by
  obtain ⟨r', hs, -, hsame⟩ := @sentAs_result_kept S t all m r hkept
  refine ⟨r', ?_, hsame⟩
  rw [Message.mem_results, h, mem_filterMap]
  exact ⟨_, Message.mem_results.mp hr, hs⟩

/-! ### The adapted history is valid -/

/-- The last assistant message of the adapted history so far, where the one of the history has
calls. -/
def LastSent (S : Services) (t : Target) (all : List Message) (last last' : Option Message) :
    Prop :=
  ∀ a, last = some a → a.calls ≠ [] → a ∈ all ∧ ∃ a', last' = some a' ∧
    a'.blocks = a.blocks.filterMap (sentAs S t all a)

/-- Along the history: the results that are sent reply to calls that are sent. -/
theorem resultsReply_sent (hagree : OriginsAgree t all) (hms : ∀ m ∈ ms, m ∈ all)
    {last' : Option Message} (h : ResultsReply last ms) (hlast : LastSent S t all last last') :
    ResultsReply last' (ms.filterMap fun m => (adaptMessage S t all m).1) := by
  induction ms generalizing last last' with
  | nil => trivial
  | cons m ms ih =>
    obtain ⟨hm, hrest⟩ := h
    have hall : m ∈ all := hms m mem_cons_self
    have hms' : ∀ m ∈ ms, m ∈ all := fun x hx => hms x (mem_cons_of_mem _ hx)
    rcases @adaptMessage_spec S t all m with ⟨m', hsent, hrole, -, hblocks⟩ | ⟨hnone, hblocks⟩
    · rw [filterMap_cons, hsent]
      refine ⟨fun r' hr' => ?_, ih hms' hrest ?_⟩
      · obtain ⟨r, hr, hkept, hsame⟩ := mem_results_sent hblocks hr'
        obtain ⟨a, ha, c, hc, hreply⟩ := hm r hr
        obtain ⟨hall', a', ha', hblocks'⟩ := hlast a ha (ne_nil_of_mem hc)
        refine ⟨a', ha', c, ?_, hreply.sent hsame⟩
        rw [calls_sent hblocks', mem_filter]
        rw [result_sent_iff hagree hall' hc hreply] at hkept
        exact ⟨hc, hkept⟩
      · rw [hrole]
        split
        · intro a ha _
          cases ha
          exact ⟨hall, m', rfl, hblocks⟩
        · exact hlast
    · -- a message that is left out has no calls, so no result replies to it
      rw [filterMap_cons, hnone]
      refine ih hms' hrest ?_
      split
      · intro a ha hcalls
        cases ha
        obtain ⟨m', hsent, -⟩ := @message_sent S t all m (.inl hcalls)
        rw [hnone] at hsent
        cases hsent
      · exact hlast

theorem answeredBy_sent (hagree : OriginsAgree t all) {u' : Message} (hm : m ∈ all)
    (hdistinct : (m.calls.map (·.id)).Nodup)
    (hreplies : ∀ r ∈ u.results, ∃ c ∈ m.calls, Replies c r)
    (h : u.role = .user ∧ u.hasBlocks = true ∧ ∀ c ∈ m.calls, ∃ r ∈ u.results, r.toolUseId = c.id)
    (hblocks : m'.blocks = m.blocks.filterMap (sentAs S t all m)) (hrole : u'.role = u.role)
    (hhas : u'.hasBlocks = u.hasBlocks)
    (hblocks' : u'.blocks = u.blocks.filterMap (sentAs S t all u)) :
    answeredBy m' (some u') = true := by
  obtain ⟨huser, hb, hids⟩ := h
  unfold answeredBy
  split
  · split
    · rfl
    · simp only [hrole, huser, hhas, hb, decide_true, Bool.and_self, Bool.true_and,
        all_eq_true, any_eq_true, decide_eq_true_eq]
      intro c hc
      rw [calls_sent hblocks, mem_filter] at hc
      obtain ⟨r, hr, hid⟩ := hids c hc.1
      obtain ⟨c', hc', hreply⟩ := hreplies r hr
      -- the ids of a message's calls are distinct, so this is the call the result replies to
      have hsame : c' = c :=
        inj_on_of_nodup_map hdistinct hc' hc.1 (hreply.2.1.symm.trans hid)
      subst hsame
      have hkept : resultSent t all u r = true := by
        rw [result_sent_iff hagree hm hc' hreply]
        exact hc.2
      obtain ⟨r', hr', hsame⟩ := result_mem_sent hblocks' hr hkept
      exact ⟨r', hr', (hreply.sent hsame).2.1⟩
  · rfl

theorem answeredBy_calls {next? : Option Message} (h : answeredBy m next? = true)
    (hrole : m.role = .assistant) (hb : m.hasBlocks = true) (hcalls : m.calls ≠ []) :
    ∃ u, next? = some u ∧ u.role = .user ∧ u.hasBlocks = true ∧
      ∀ c ∈ m.calls, ∃ r ∈ u.results, r.toolUseId = c.id := by
  unfold answeredBy at h
  rw [if_pos ⟨hrole, hb⟩, if_neg (fun he => hcalls (List.isEmpty_iff.mp he))] at h
  cases next? with
  | none => cases h
  | some u =>
    simp only [Bool.and_eq_true, decide_eq_true_eq, all_eq_true, any_eq_true] at h
    exact ⟨u, rfl, h.1.1, h.1.2, h.2⟩

theorem isValidForAnthropic_sent (hagree : OriginsAgree t all) (hms : ∀ m ∈ ms, m ∈ all)
    (hdistinct : ∀ m ∈ ms, (m.calls.map (·.id)).Nodup) (hvalid : isValidForAnthropic ms = true)
    (hreply : ResultsReply last ms) :
    isValidForAnthropic (ms.filterMap fun m => (adaptMessage S t all m).1) = true := by
  induction ms generalizing last with
  | nil => rfl
  | cons m ms ih =>
    rw [isValidForAnthropic, Bool.and_eq_true] at hvalid
    obtain ⟨hm, hvalid⟩ := hvalid
    have hrest := ih (fun x hx => hms x (mem_cons_of_mem _ hx))
      (fun x hx => hdistinct x (mem_cons_of_mem _ hx)) hvalid hreply.2
    rw [filterMap_cons]
    rcases @adaptMessage_spec S t all m with ⟨m', hsent, hrole, hhas, hblocks⟩ | ⟨hnone, -⟩
    · rw [hsent]
      refine Bool.and_eq_true_iff.mpr ⟨?_, hrest⟩
      by_cases hplain : (m.role = .assistant ∧ m.hasBlocks = true) ∧ m.calls ≠ []
      · obtain ⟨⟨hassistant, hb⟩, hcalls⟩ := hplain
        obtain ⟨u, hu, huser, hub, hids⟩ := answeredBy_calls hm hassistant hb hcalls
        cases ms with
        | nil => cases hu
        | cons v ms =>
          cases hu
          obtain ⟨c, hc⟩ := exists_mem_of_ne_nil _ hcalls
          obtain ⟨r, hr, -⟩ := hids c hc
          obtain ⟨u', husent, hrole', hhas', hblocks'⟩ :=
            @message_sent S t all u (.inr (ne_nil_of_mem hr))
          rw [filterMap_cons, husent]
          have hreplies : ∀ r ∈ u.results, ∃ c ∈ m.calls, Replies c r := by
            intro r hr
            obtain ⟨a, ha, hc⟩ := hreply.2.1 r hr
            rw [if_pos hassistant] at ha
            cases ha
            exact hc
          exact answeredBy_sent hagree (hms m mem_cons_self)
            (hdistinct m mem_cons_self) hreplies ⟨huser, hub, hids⟩ hblocks hrole' hhas'
            hblocks'
      · -- without calls of its own the message asks nothing of the next one
        unfold answeredBy
        split
        · rename_i hassistant
          have hcalls : m.calls = [] := by
            by_contra hne
            rw [hrole, hhas] at hassistant
            exact hplain ⟨hassistant, hne⟩
          rw [calls_sent hblocks, hcalls]
          rfl
        · rfl
    · rw [hnone]
      exact hrest

theorem distinct_sent (h : ∀ m ∈ ms, (m.calls.map (·.id)).Nodup) :
    ∀ m' ∈ ms.filterMap (fun m => (adaptMessage S t all m).1), (m'.calls.map (·.id)).Nodup := by
  intro m' hm'
  obtain ⟨m, hm, hsent⟩ := mem_filterMap.mp hm'
  rcases @adaptMessage_spec S t all m with ⟨m'', hsent', -, -, hblocks⟩ | ⟨hnone, -⟩
  · rw [hsent, Option.some.injEq] at hsent'
    subst hsent'
    rw [calls_sent hblocks]
    exact (h m hm).sublist (filter_sublist.map _)
  · rw [hsent] at hnone
    cases hnone

/-- What the adaptation keeps of an exchange: the result is sent as a result exactly when the call
is sent as a call; then the call is sent as it is, and the result with a content that is its own up
to what the target cannot take. -/
def ExchangeKept (S : Services) (t : Target) (all : List Message) (a u : Message) (c : ToolCall)
    (r : ToolResult) : Prop :=
  ((∃ r', sentAs S t all u (.toolResult r) = some (.toolResult r')) ↔
      ∃ c', sentAs S t all a (.toolCall c) = some (.toolCall c')) ∧
    (∀ c', sentAs S t all a (.toolCall c) = some (.toolCall c') → c' = c) ∧
    ∀ r', sentAs S t all u (.toolResult r) = some (.toolResult r') →
      r'.toolUseId = r.toolUseId ∧ r'.executionId = r.executionId ∧ r'.name = r.name ∧
        r'.isError = r.isError ∧ BlockSent t (.toolResult r) [.toolResult r']

theorem exchange_kept (hagree : OriginsAgree t all) {a : Message} (ha : a ∈ all)
    (hc : c ∈ a.calls) (hreply : Replies c r) : ExchangeKept S t all a u c r := by
  have hiff := result_sent_iff (u := u) hagree ha hc hreply
  refine ⟨⟨?_, ?_⟩, ?_, ?_⟩
  · rintro ⟨r', hr'⟩
    obtain ⟨r₀, hr₀, hkept, -⟩ := sentAs_eq_result hr'
    cases hr₀
    rw [hiff] at hkept
    exact ⟨c, (sentAs_call a c).1 hkept⟩
  · rintro ⟨c', hc'⟩
    obtain ⟨hcc, hkept⟩ := sentAs_eq_call hc'
    cases hcc
    rw [← hiff] at hkept
    obtain ⟨r', hr', -⟩ := @sentAs_result_kept S t all u r hkept
    exact ⟨r', hr'⟩
  · intro c' hc'
    cases (sentAs_eq_call hc').1
    rfl
  · intro r' hr'
    obtain ⟨r₀, hr₀, hkept, hsame⟩ := sentAs_eq_result hr'
    cases hr₀
    obtain ⟨r'', hr'', hsent, -⟩ := @sentAs_result_kept S t all u r hkept
    rw [hr', Option.some.injEq] at hr''
    cases hr''
    rcases hsame with rfl | ⟨content, rfl⟩
    · exact ⟨rfl, rfl, rfl, rfl, hsent⟩
    · exact ⟨rfl, rfl, rfl, rfl, hsent⟩

/-- **The adapted history is valid, and keeps calls and results together**, as long as the origin
recorded under a freeform call's id decides as the call's own: every exchange is kept whole or
becomes text whole. -/
theorem adaptHistory_pairs (S : Services) (t : Target) (all : List Message)
    (hvalid : ValidHistory all) (hagree : OriginsAgree t all) :
    ValidHistory (adaptHistoryForProvider S t all) ∧
      (∀ m' ∈ adaptHistoryForProvider S t all, ∃ m ∈ all, m'.role = m.role ∧
        m'.blocks = m.blocks.filterMap (sentAs S t all m)) ∧
      ∀ a ∈ all, ∀ u ∈ all, ∀ c ∈ a.calls, ∀ r ∈ u.results, Replies c r →
        ExchangeKept S t all a u c r := by
  rw [adaptHistory_eq]
  refine ⟨⟨?_, distinct_sent hvalid.distinct, ?_⟩, fun m' hm' => ?_, ?_⟩
  · exact isValidForAnthropic_sent hagree (fun m hm => hm) hvalid.distinct hvalid.valid
      hvalid.replies
  · exact resultsReply_sent hagree (fun m hm => hm) hvalid.replies fun _ h =>
      absurd h.symm (Option.some_ne_none _)
  · obtain ⟨m, hm, hsent⟩ := mem_filterMap.mp hm'
    rcases @adaptMessage_spec S t all m with ⟨m'', hsent', hrole, -, hblocks⟩ | ⟨hnone, -⟩
    · rw [hsent, Option.some.injEq] at hsent'
      subst hsent'
      exact ⟨m, hm, hrole, hblocks⟩
    · rw [hsent] at hnone
      cases hnone
  · intro a ha u _ c hc r _ hreply
    exact exchange_kept hagree ha hc hreply

end

/-! ### An image for a model that takes none -/

/-- The image library, the catalogue and the terminal, where none of them is asked. -/
def idleServices : Services where
  resizeImage _ _ _ _ := .unchanged
  priorReasoningIsReplayable _ _ := true
  blockMarkdown _ := ""

def textModel : Target where
  provider := "deepseek"
  model := "deepseek-chat"
  supportsVision := false

def screenshotCall : Message where
  role := .assistant
  content := .blocks [.toolCall
    { id := "toolu_1", name := "read_image", input := .obj [], executionId := "exec-1" }]

def screenshotResult : ToolResult where
  toolUseId := "toolu_1"
  content := .inr [.image { imageType := "base64", mediaType := "image/png", data := "iVBORw==" }]
  name := "read_image"
  isError := false
  executionId := some "exec-1"

def screenshotTurn : List Message :=
  [screenshotCall, { role := .user, content := .blocks [.toolResult screenshotResult] }]

theorem screenshotTurn_valid : ValidHistory screenshotTurn := by
  refine ⟨by decide, ?_, ⟨forall_mem_nil _, fun r hr => ?_, trivial⟩⟩
  · intro m hm
    rcases mem_cons.mp hm with rfl | hm
    · exact nodup_singleton _
    · rw [mem_singleton.mp hm]
      exact nodup_nil
  · cases mem_singleton.mp hr
    exact ⟨_, rfl, _, mem_singleton_self _, by decide, rfl, rfl⟩

theorem screenshotTurn_agree : OriginsAgree textModel screenshotTurn := by
  intro m hm c hc hfree
  rcases mem_cons.mp hm with rfl | hm
  · cases mem_singleton.mp hc
    cases hfree
  · rw [mem_singleton.mp hm] at hc
    cases hc

theorem adaptHistory_pairs_screenshot :
    ValidHistory (adaptHistoryForProvider idleServices textModel screenshotTurn) :=
  (adaptHistory_pairs idleServices textModel screenshotTurn screenshotTurn_valid
    screenshotTurn_agree).1

/-- A kept result whose content is not the one it had: its image has become text. -/
theorem adapt_replaces_image :
    ValidHistory screenshotTurn ∧
      ∃ m' ∈ adaptHistoryForProvider idleServices textModel screenshotTurn, ∃ r' ∈ m'.results,
        r'.executionId = screenshotResult.executionId ∧ r'.content ≠ screenshotResult.content := by
  have hout : adaptHistoryForProvider idleServices textModel screenshotTurn =
      [screenshotCall, { role := .user, content := .blocks [.toolResult
        { screenshotResult with content := .inr [.text
          { text := imagePlaceholder "image/png" "deepseek-chat" }] }] }] := rfl
  refine ⟨screenshotTurn_valid, ?_⟩
  rw [hout]
  exact ⟨_, mem_cons_of_mem _ mem_cons_self, _, mem_singleton_self _, rfl, nofun⟩

end KolegaCode.Conversation
