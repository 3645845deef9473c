import KolegaCode.Conversation.Objects

/-!
# Conversation — cache checkpoints

`mark_cache_checkpoint` puts a marker on the last cacheable block of the history and leaves the one
of the call before.  Markers are on the block objects, which appends, repairs and compactions move
about, drop or stop sending.

`mark_markers` goes by the history and not by what is sent of it: where everything was folded into
the summary, both markers are on blocks that are not sent.
-/

namespace KolegaCode.Conversation

open List
open Objects (ObjectType)

/-- A block object: a caller's, or one that a call to the conversation makes. -/
inductive BlockObject
  | given (n : Nat)
  | text (call : Nat) (text : String)
  | placeholder (call i j : Nat) (c : ToolCall)
  deriving DecidableEq

namespace BlockObject

/-- The call that makes the block. -/
def madeBy : BlockObject → Option Nat
  | given _ => none
  | text call _ => some call
  | placeholder call _ _ _ => some call

/-- What the blocks hold; `heap` is what the caller's do. -/
def types (heap : Nat → ContentBlock) (call : Nat) : ObjectType BlockObject where
  view
    | given n => heap n
    | text _ s => .text { text := s }
    | placeholder _ _ _ c => .toolResult (Conversation.placeholder c)
  newText := text call
  view_newText _ := rfl
  newResult := placeholder call
  view_newResult _ _ _ := rfl

end BlockObject

/-- `SUPPORTS_CACHE_CONTROL` of the class of the block. -/
def supportsCacheControl : ContentBlock → Bool
  | .text _ | .image _ | .toolCall _ | .toolResult _ => true
  | .thinking _ | .redactedThinking _ | .responsesReasoning _ | .webSearchCall _ => false

/-- A `Conversation` of block objects, their `cache_checkpoint`s and the number of calls so far. -/
structure CacheState where
  history : List (MessageOf BlockObject)
  summary : Option (MessageOf BlockObject) := none
  compactedThrough : Nat := 0
  previousCheckpoint : Option BlockObject := none
  marks : BlockObject → Bool
  calls : Nat := 0

/-- What `record_compression` is called with. -/
inductive Summary where
  | message (m : MessageOf BlockObject)
  | text (s : String)

/-- The calls. -/
inductive Call where
  | appendUser (content : UserContent BlockObject)
  | appendAssistant (m : MessageOf BlockObject)
  | extend (ms : List (MessageOf BlockObject))
  | setHistory (ms : List (MessageOf BlockObject))
  | applyCompaction (text : String) (splitPoint : Int)
  | recordCompression (summary : Summary)
  | clear
  | markCacheCheckpoint

/-- The call makes its own summary, if it makes one. -/
def Call.OwnSummary : Call → Prop
  | .recordCompression (.message _) => False
  | _ => True

section

variable (heap : Nat → ContentBlock)

/-- The blocks of messages. -/
def blocksOf (ms : List (MessageOf BlockObject)) : List BlockObject :=
  ms.flatMap MessageOf.blocks

/-- `_last_cacheable_block`. -/
def lastCacheableBlock (history : List (MessageOf BlockObject)) : Option BlockObject :=
  (blocksOf history).reverse.find? fun b =>
    supportsCacheControl ((BlockObject.types heap 0).view b)

namespace CacheState

/-- `effective_history`. -/
def effectiveHistory (s : CacheState) : List (MessageOf BlockObject) :=
  match s.summary with
  | none => s.history
  | some summary =>
    if 0 < s.compactedThrough ∧ s.history ≠ [] then
      let cut := min s.compactedThrough s.history.length
      (s.history.take cut).filter (Objects.isProtected (BlockObject.types heap s.calls)) ++
        [summary] ++ s.history.drop cut
    else s.history

/-- The messages that are sent as they are, without those that are protected. -/
def tail (s : CacheState) : List (MessageOf BlockObject) :=
  if s.summary.isSome ∧ 0 < s.compactedThrough then s.history.drop s.compactedThrough
  else s.history

/-- `append_assistant`. -/
def appendAssistant (s : CacheState) (m : MessageOf BlockObject) : List (MessageOf BlockObject) :=
  let empty :=
    match m.content with
    | .inl text => text.isEmpty
    | .inr bs => bs.isEmpty
  s.history ++ [if empty then
    { role := m.role
      content := .inr [.text s.calls "[Assistant returned no message content]"]
      stopReason := m.stopReason, toolCalls := m.toolCalls, usageMetadata := m.usageMetadata
      usage := m.usage }
    else m]

/-- The history setter. -/
def setHistory (s : CacheState) (ms : List (MessageOf BlockObject)) : CacheState :=
  { s with history := ms, summary := none, compactedThrough := 0 }

/-- The message that `apply_compaction` makes. -/
def summaryOf (s : CacheState) (text : String) : MessageOf BlockObject :=
  { role := .user, content := .inr [.text s.calls text] }

/-- `mark_cache_checkpoint`. -/
def markCacheCheckpoint (s : CacheState) : CacheState :=
  let latest := lastCacheableBlock heap s.history
  let blocks := blocksOf s.history
  let previous := s.previousCheckpoint.filter (· ∈ blocks)
  let cleared : BlockObject → Bool := fun b => if b ∈ blocks then false else s.marks b
  { s with
    marks := ([previous, latest].filterMap id).foldl (fun marks b => Function.update marks b true)
      cleared
    previousCheckpoint := latest.or s.previousCheckpoint }

/-- The blocks that a call makes are made without a marker. -/
def enter (s : CacheState) : CacheState :=
  { s with marks := fun b => if b.madeBy = some s.calls then false else s.marks b }

def call (s : CacheState) : Call → CacheState
  | .appendUser content =>
    { s with
      history := appendUser (BlockObject.types heap s.calls).toBlockType s.history content }
  | .appendAssistant m => { s with history := s.appendAssistant m }
  | .extend ms =>
    { s with history := Objects.repaired (BlockObject.types heap s.calls) (s.history ++ ms) }
  | .setHistory ms => s.setHistory ms
  | .applyCompaction text splitPoint =>
    { s with
      summary := some (s.summaryOf text)
      compactedThrough := (max 0 (min splitPoint s.history.length)).toNat }
  | .recordCompression (.message m) =>
    { s with summary := some m, compactedThrough := s.history.length }
  | .recordCompression (.text text) =>
    { s with summary := some (s.summaryOf text), compactedThrough := s.history.length }
  | .clear => s.setHistory []
  | .markCacheCheckpoint => s.markCacheCheckpoint heap

/-- One call. -/
def step (s : CacheState) (c : Call) : CacheState :=
  { (s.enter.call heap c) with calls := s.calls + 1 }

/-- The calls one after the other. -/
def run (s : CacheState) (calls : List Call) : CacheState := calls.foldl (step heap) s

end CacheState

/-! ### The markers -/

section

variable {heap}

theorem foldl_update_eq_true {α : Type} [DecidableEq α] {l : List α} {marks : α → Bool} {b : α} :
    l.foldl (fun marks b => Function.update marks b true) marks b = true ↔
      b ∈ l ∨ marks b = true := by
  induction l generalizing marks with
  | nil => simp
  | cons a l ih =>
    rw [foldl_cons, ih, mem_cons, Function.update_apply]
    by_cases hb : b = a <;> simp [hb]

theorem mem_of_lastCacheableBlock {history : List (MessageOf BlockObject)} {b : BlockObject}
    (h : lastCacheableBlock heap history = some b) : b ∈ blocksOf history :=
  mem_reverse.mp (mem_of_find?_eq_some h)

theorem lastCacheableBlock_append (front back : List (MessageOf BlockObject)) :
    lastCacheableBlock heap (front ++ back) =
      (lastCacheableBlock heap back).or (lastCacheableBlock heap front) := by
  simp [lastCacheableBlock, blocksOf, find?_append]

namespace CacheState

theorem markCacheCheckpoint_marks (s : CacheState) (b : BlockObject) :
    (s.markCacheCheckpoint heap).marks b = true ↔
      s.previousCheckpoint = some b ∧ b ∈ blocksOf s.history ∨
        lastCacheableBlock heap s.history = some b ∨
        b ∉ blocksOf s.history ∧ s.marks b = true := by
  simp only [markCacheCheckpoint, foldl_update_eq_true, mem_filterMap, id_eq,
    exists_eq_right, mem_cons, not_mem_nil, or_false, or_assoc]
  refine or_congr ?_ (or_congr eq_comm ?_)
  · rw [eq_comm, Option.filter_eq_some_iff]
    simp
  · split <;> simp [*]

/-- The summary holds no result, and a block of it that is marked is in the history too. -/
def SummaryUnmarked (heap : Nat → ContentBlock) (s : CacheState) : Prop :=
  ∀ m, s.summary = some m → ∀ b ∈ m.blocks,
    isResult (BlockObject.types heap 0).toBlockType b = false ∧
      (s.marks b = true → b ∈ blocksOf s.history)

variable {s s' : CacheState}

theorem SummaryUnmarked.of_kept (h : s.SummaryUnmarked heap) (hsummary : s'.summary = s.summary)
    (hmarks : ∀ b, s'.marks b = true → s.marks b = true)
    (hkept : ∀ b ∈ blocksOf s.history, isResult (BlockObject.types heap 0).toBlockType b = false →
      b ∈ blocksOf s'.history) : s'.SummaryUnmarked heap := by
  intro m hm b hb
  obtain ⟨hresult, hmarked⟩ := h m (hsummary ▸ hm) b hb
  exact ⟨hresult, fun hb => hkept b (hmarked (hmarks b hb)) hresult⟩

theorem SummaryUnmarked.of_none (h : s.summary = none) : s.SummaryUnmarked heap := by
  intro m hm
  rw [h] at hm
  cases hm

theorem summaryUnmarked_summaryOf (text : String)
    (hsummary : s'.summary = some (s.summaryOf text)) (hmarks : s'.marks = s.enter.marks) :
    s'.SummaryUnmarked heap := by
  intro m hm b hb
  cases hsummary.symm.trans hm
  cases mem_singleton.mp hb
  refine ⟨rfl, fun hmarked => ?_⟩
  rw [hmarks] at hmarked
  simp [enter, BlockObject.madeBy] at hmarked

theorem mem_appendUser {k : Nat} {history : List (MessageOf BlockObject)}
    (content : UserContent BlockObject) {b : BlockObject} (hb : b ∈ blocksOf history)
    (hresult : isResult (BlockObject.types heap 0).toBlockType b = false) :
    b ∈ blocksOf (appendUser (BlockObject.types heap k).toBlockType history content) := by
  obtain ⟨front, new, heq, h⟩ :=
    appendUser_appended (BlockObject.types heap k).toBlockType history content
  obtain ⟨b', hb', hreplaced⟩ :=
    Absorb.exists_of_forall₂ (forall₂_flatMap_blocks h.kept).flip hb
  cases Replaced.eq_of_other hreplaced hresult
  rw [heq, blocksOf, flatMap_append]
  exact mem_append_left _ hb'

theorem SummaryUnmarked.enter (h : s.SummaryUnmarked heap) : s.enter.SummaryUnmarked heap := by
  refine h.of_kept rfl (fun b hb => ?_) fun b hb _ => hb
  simp only [CacheState.enter, Bool.if_false_left, Bool.and_eq_true] at hb
  exact hb.2

/-- **A call keeps the summary unmarked.** -/
theorem step_summaryUnmarked {c : Call} (h : s.SummaryUnmarked heap) (hc : c.OwnSummary) :
    (s.step heap c).SummaryUnmarked heap := by
  have henter := h.enter
  have hmem : ∀ {b : BlockObject} (new : List (MessageOf BlockObject)), b ∈ blocksOf s.history →
      b ∈ blocksOf (s.history ++ new) := fun new hb => by
    rw [blocksOf, flatMap_append]
    exact mem_append_left _ hb
  cases c with
  | appendUser content =>
    exact henter.of_kept rfl (fun _ h => h) fun b hb hresult => mem_appendUser content hb hresult
  | appendAssistant m => exact henter.of_kept rfl (fun _ h => h) fun b hb _ => hmem _ hb
  | extend ms =>
    exact henter.of_kept rfl (fun _ h => h) fun b hb hresult =>
      Objects.mem_repaired hresult (hmem ms hb)
  | setHistory ms => exact .of_none rfl
  | applyCompaction text splitPoint => exact summaryUnmarked_summaryOf (s := s) text rfl rfl
  | recordCompression summary =>
    cases summary with
    | message m => exact hc.elim
    | text text => exact summaryUnmarked_summaryOf (s := s) text rfl rfl
  | clear => exact .of_none rfl
  | markCacheCheckpoint =>
    intro m hm b hb
    obtain ⟨hresult, hmarked⟩ := henter m hm b hb
    refine ⟨hresult, fun hmarks => ?_⟩
    rcases (markCacheCheckpoint_marks _ b).mp hmarks with ⟨-, h⟩ | h | ⟨-, h⟩
    · exact h
    · exact mem_of_lastCacheableBlock h
    · exact hmarked h

theorem run_summaryUnmarked (calls : List Call) (h : s.SummaryUnmarked heap)
    (hcalls : ∀ c ∈ calls, c.OwnSummary) : (s.run heap calls).SummaryUnmarked heap := by
  induction calls generalizing s with
  | nil => exact h
  | cons c calls ih =>
    exact ih (step_summaryUnmarked h (hcalls c mem_cons_self))
      fun c hc => hcalls c (mem_cons_of_mem _ hc)

theorem drop_min {α : Type} (l : List α) (n : Nat) : l.drop (min n l.length) = l.drop n := by
  rcases Nat.le_total n l.length with h | h
  · rw [Nat.min_eq_left h]
  · rw [Nat.min_eq_right h, drop_length, drop_eq_nil_of_le h]

/-- A block that is sent is of the history or of the summary. -/
theorem mem_effectiveHistory {b : BlockObject} (h : b ∈ blocksOf (s.effectiveHistory heap)) :
    b ∈ blocksOf s.history ∨ ∃ m, s.summary = some m ∧ b ∈ m.blocks := by
  obtain ⟨m, hm, hb⟩ := mem_flatMap.mp h
  have hhistory : m ∈ s.history → b ∈ blocksOf s.history := fun hm =>
    mem_flatMap.mpr ⟨m, hm, hb⟩
  unfold effectiveHistory at hm
  cases hsummary : s.summary with
  | none =>
    rw [hsummary] at hm
    exact .inl (hhistory hm)
  | some m' =>
    rw [hsummary] at hm
    dsimp only at hm
    split at hm
    · rcases mem_append.mp hm with hm | hm
      · rcases mem_append.mp hm with hm | hm
        · exact .inl (hhistory (mem_of_mem_take (mem_filter.mp hm).1))
        · cases mem_singleton.mp hm
          exact .inr ⟨m, rfl, hb⟩
      · exact .inl (hhistory (mem_of_mem_drop hm))
    · exact .inl (hhistory hm)

theorem tail_suffix (heap : Nat → ContentBlock) (s : CacheState) :
    s.tail <:+ s.history ∧ s.tail ⊆ s.effectiveHistory heap := by
  unfold tail effectiveHistory
  cases hsummary : s.summary with
  | none => simp
  | some summary =>
    by_cases hthrough : 0 < s.compactedThrough
    · simp only [Option.isSome_some, hthrough, and_self, if_true, true_and]
      refine ⟨drop_suffix _ _, fun m hm => ?_⟩
      split
      · rw [drop_min]
        exact mem_append_right _ hm
      · exact mem_of_mem_drop hm
    · simp [hthrough]

/-- **Where the tail has a cacheable block, the last one of the history is sent.** -/
theorem lastCacheableBlock_sent {latest : BlockObject}
    (h : lastCacheableBlock heap s.history = some latest)
    (htail : ∃ b ∈ blocksOf s.tail,
      supportsCacheControl ((BlockObject.types heap 0).view b) = true) :
    latest ∈ blocksOf (s.effectiveHistory heap) := by
  obtain ⟨hsuffix, hsub⟩ := tail_suffix heap s
  obtain ⟨front, hfront⟩ := hsuffix
  obtain ⟨last, hlast⟩ : ∃ last, lastCacheableBlock heap s.tail = some last := by
    obtain ⟨b, hb, hcache⟩ := htail
    exact Option.isSome_iff_exists.mp
      (find?_isSome.mpr ⟨b, mem_reverse.mpr hb, hcache⟩)
  rw [← hfront, lastCacheableBlock_append, hlast] at h
  cases h
  obtain ⟨m, hm, hb⟩ := mem_flatMap.mp (mem_of_lastCacheableBlock hlast)
  exact mem_flatMap.mpr ⟨m, hsub hm, hb⟩

theorem step_markers (h : s.SummaryUnmarked heap) (hs' : s' = s.step heap .markCacheCheckpoint) :
    (∃ a b, ∀ x ∈ blocksOf (s'.effectiveHistory heap), s'.marks x = true → x = a ∨ x = b) ∧
      ∀ latest, lastCacheableBlock heap s'.history = some latest →
        s'.marks latest = true ∧
          ((∃ b ∈ blocksOf s'.tail,
              supportsCacheControl ((BlockObject.types heap 0).view b) = true) →
            latest ∈ blocksOf (s'.effectiveHistory heap)) := by
  subst hs'
  refine ⟨⟨s.previousCheckpoint.getD (.given 0),
    (lastCacheableBlock heap s.history).getD (.given 0), fun x hx hmarks => ?_⟩,
    fun latest hlatest => ⟨?_, lastCacheableBlock_sent hlatest⟩⟩
  · rcases (markCacheCheckpoint_marks s.enter x).mp hmarks with
      ⟨hprevious, -⟩ | hlatest | ⟨hnot, hx'⟩
    · refine .inl ?_
      rw [show s.previousCheckpoint = some x from hprevious, Option.getD_some]
    · refine .inr ?_
      rw [show lastCacheableBlock heap s.history = some x from hlatest, Option.getD_some]
    · rcases mem_effectiveHistory hx with hx | ⟨m, hm, hx⟩
      · exact absurd hx hnot
      · exact absurd ((h.enter m hm x hx).2 hx') hnot
  · exact (markCacheCheckpoint_marks s.enter latest).mpr (.inr (.inl hlatest))

/-- **After every `mark_cache_checkpoint` at most two of the blocks that are sent are marked.**
The last cacheable block of the history is marked, and it is sent if the tail has one. -/
theorem run_markers (heap : Nat → ContentBlock) (history : List (MessageOf BlockObject))
    (marks : BlockObject → Bool) (calls : List Call) (hcalls : ∀ c ∈ calls, c.OwnSummary) :
    let s := CacheState.run heap { history, marks } (calls ++ [.markCacheCheckpoint])
    (∃ a b, ∀ x ∈ blocksOf (s.effectiveHistory heap), s.marks x = true → x = a ∨ x = b) ∧
      ∀ latest, lastCacheableBlock heap s.history = some latest →
        s.marks latest = true ∧
          ((∃ b ∈ blocksOf s.tail,
              supportsCacheControl ((BlockObject.types heap 0).view b) = true) →
            latest ∈ blocksOf (s.effectiveHistory heap)) :=
  step_markers (run_summaryUnmarked calls (.of_none rfl) hcalls)
    (by rw [CacheState.run, foldl_append]; rfl)

/-! ### Runs -/

/-- A text and an answer; the first turn is folded, and both turns were marked. -/
theorem run_markers_folded :
    let heap : Nat → ContentBlock := fun _ => .thinking { thinking := "" }
    let calls : List Call := [.appendUser (.str "one"), .markCacheCheckpoint,
      .applyCompaction "summary" 1, .appendUser (.str "two"), .markCacheCheckpoint]
    let s := CacheState.run heap { history := [], marks := fun _ => true } calls
    (∃ a b, ∀ x ∈ blocksOf (s.effectiveHistory heap), s.marks x = true → x = a ∨ x = b) ∧
      ∀ latest, lastCacheableBlock heap s.history = some latest →
        s.marks latest = true ∧
          ((∃ b ∈ blocksOf s.tail,
              supportsCacheControl ((BlockObject.types heap 0).view b) = true) →
            latest ∈ blocksOf (s.effectiveHistory heap)) :=
  run_markers _ [] _ [.appendUser (.str "one"), .markCacheCheckpoint,
    .applyCompaction "summary" 1, .appendUser (.str "two")] (by simp [Call.OwnSummary])

/-- A summary of a caller's blocks. -/
private def ownSummary : MessageOf BlockObject where
  role := .user
  content := .inr [.given 0, .given 1, .given 2]

private def emptyTexts : Nat → ContentBlock := fun _ => .text { text := "" }

private def allFolded : CacheState :=
  CacheState.run emptyTexts { history := [], marks := fun _ => false }
    [.appendUser (.str "one"), .applyCompaction "summary" 1, .markCacheCheckpoint]

private def allRecorded : CacheState :=
  CacheState.run emptyTexts { history := [], marks := fun _ => true }
    [.appendUser (.str "one"), .recordCompression (.message ownSummary), .markCacheCheckpoint]

/-- Where everything is folded, no marked block is sent; and a summary that the caller makes may
hold any number of them. -/
theorem run_markers_not_sent :
    (lastCacheableBlock emptyTexts allFolded.history = some (.text 0 "one") ∧
      ∀ x ∈ blocksOf (allFolded.effectiveHistory emptyTexts), allFolded.marks x = false) ∧
    (blocksOf (allRecorded.effectiveHistory emptyTexts) = [.given 0, .given 1, .given 2] ∧
      ∀ x ∈ blocksOf (allRecorded.effectiveHistory emptyTexts), allRecorded.marks x = true) := by
  decide

end CacheState

end

end

end KolegaCode.Conversation
