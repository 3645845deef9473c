import KolegaCode.Lib.Except
import KolegaCode.Conversation.RepairValid

/-!
# Conversation — compaction

`apply_compaction` lets a summary stand in for the messages before a boundary; `effective_history`
sends the protected ones among them (skill content), the summary, and everything from the boundary
on.  `compaction_split_point` keeps the last `keep_recent` messages and then moves back past
assistant messages with tool calls, so that no tool result is sent without its call.

A result is traced to its call by position: `effectiveSources` is the effective history with the
index of each message in the full one; the call is in the last assistant message before the result.
-/

namespace KolegaCode

open List

/-- The history and the compaction state of a `Conversation`. -/
structure Conversation where
  history : List Message := []
  summary : Option Message := none
  compactedThrough : Nat := 0
  compactedHistoryLength : Nat := 0

namespace Conversation

/-! ### Protected messages -/

/-- The text of `skill_content_pattern` before the name. -/
def skillContentOpening : List Char := "<skill_content name=\"".toList

/-- `skill_content_pattern` matches at the start of the text: the opening, a name of at least one
character other than the quote, and `">`. -/
def skillContentAt (cs : List Char) : Bool :=
  let rest := cs.drop skillContentOpening.length
  skillContentOpening.isPrefixOf cs && !(rest.takeWhile (· != '"')).isEmpty &&
    "\">".toList.isPrefixOf (rest.dropWhile (· != '"'))

/-- `skill_content_pattern.search`. -/
def skillContentSearch (s : String) : Bool := s.toList.tails.any skillContentAt

/-- `is_protected`. -/
def isProtected (m : Message) : Bool :=
  m.role = .user &&
    match m.content with
    | .str s => skillContentSearch s
    | .blocks bs => bs.any fun
        | .text b => skillContentSearch b.text
        | _ => false

/-! ### The boundary -/

/-- The message holds a tool call that `_snap_to_safe_boundary` does not end the prefix with. -/
def endsWithCall (m : Message) : Bool := m.role = .assistant && m.hasBlocks && !m.calls.isEmpty

/-- A read of `_history` outside its bounds. -/
inductive IndexError where
  | outOfRange (index : Nat)
deriving Repr, DecidableEq

/-- `_snap_to_safe_boundary`. -/
def snapToSafeBoundary (history : List Message) : Nat → Except IndexError Nat
  | 0 => .ok 0
  | idx + 1 =>
      match history[idx]? with
      | none => .error (.outOfRange idx)
      | some prev =>
          if endsWithCall prev then snapToSafeBoundary history idx else .ok (idx + 1)

/-- `compaction_split_point`. -/
def compactionSplitPoint (conv : Conversation) (keepRecent minPrefix : Int) :
    Except IndexError (Option Nat) := do
  let n : Int := conv.history.length
  if n ≤ minPrefix then return none
  let candidate ← snapToSafeBoundary conv.history (max 0 (n - keepRecent)).toNat
  if (candidate : Int) < minPrefix then return none
  return some candidate

/-- `apply_compaction`. -/
def applyCompaction (conv : Conversation) (summaryText : String) (splitPoint : Int) :
    Conversation :=
  { conv with
    summary := some { role := .user, content := .blocks [.text { text := summaryText }] }
    compactedThrough := (max 0 (min splitPoint conv.history.length)).toNat
    compactedHistoryLength := conv.history.length }

/-! ### What is sent -/

/-- `effective_history`. -/
def effectiveHistory (conv : Conversation) : List Message :=
  match conv.summary with
  | none => conv.history
  | some summary =>
      if 0 < conv.compactedThrough ∧ conv.history ≠ [] then
        let cut := min conv.compactedThrough conv.history.length
        (conv.history.take cut).filter isProtected ++ [summary] ++ conv.history.drop cut
      else conv.history

/-- The effective history, each message with its index in the history; the summary has none. -/
def effectiveSources (conv : Conversation) : List (Message × Option Nat) :=
  let indexed := conv.history.zipIdx.map fun p => (p.1, some p.2)
  match conv.summary with
  | none => indexed
  | some summary =>
      if 0 < conv.compactedThrough ∧ conv.history ≠ [] then
        let cut := min conv.compactedThrough conv.history.length
        (indexed.take cut).filter (fun p => isProtected p.1) ++ [(summary, none)] ++
          indexed.drop cut
      else indexed

theorem mem_take_indexed {ms : List Message} {u : Message} {i cut : Nat} :
    (u, some i) ∈ (ms.zipIdx.map (fun p => (p.1, some p.2))).take cut ↔
      ms[i]? = some u ∧ i < cut := by
  rw [mem_iff_getElem?]
  simp only [getElem?_take, getElem?_map, getElem?_zipIdx]
  constructor
  · rintro ⟨j, hj⟩
    split at hj
    · rename_i hlt
      cases hm : ms[j]? with
      | none => simp [hm] at hj
      | some m =>
        simp only [hm, Option.map_some, Option.some.injEq, Prod.mk.injEq] at hj
        obtain ⟨rfl, rfl⟩ := hj
        rw [Nat.zero_add]
        exact ⟨hm, hlt⟩
    · cases hj
  · rintro ⟨hm, hlt⟩
    exact ⟨i, by simp [hlt, hm]⟩

theorem mem_drop_indexed {ms : List Message} {u : Message} {i cut : Nat} :
    (u, some i) ∈ (ms.zipIdx.map (fun p => (p.1, some p.2))).drop cut ↔
      ms[i]? = some u ∧ cut ≤ i := by
  rw [mem_iff_getElem?]
  simp only [getElem?_drop, getElem?_map, getElem?_zipIdx]
  constructor
  · rintro ⟨j, hj⟩
    cases hm : ms[cut + j]? with
    | none => simp [hm] at hj
    | some m =>
      simp only [hm, Option.map_some, Option.some.injEq, Prod.mk.injEq] at hj
      obtain ⟨rfl, rfl⟩ := hj
      rw [Nat.zero_add]
      exact ⟨hm, Nat.le_add_right _ _⟩
  · rintro ⟨hm, hle⟩
    exact ⟨i - cut, by simp [Nat.add_sub_cancel' hle, hm]⟩

/-- After a compaction: the messages from the boundary on, and the protected ones before it. -/
theorem mem_sources_compacted {conv : Conversation} {text : String} {split : Nat} {u : Message}
    {i : Nat} (hle : split ≤ conv.history.length) :
    (u, some i) ∈ (conv.applyCompaction text split).effectiveSources ↔
      conv.history[i]? = some u ∧ (split ≤ i ∨ isProtected u = true) := by
  have hthrough : (max 0 (min (split : Int) conv.history.length)).toNat = split := by omega
  unfold effectiveSources
  simp only [applyCompaction, hthrough, Nat.min_eq_left hle]
  split
  · simp only [mem_append, mem_filter, mem_take_indexed, mem_drop_indexed,
      mem_singleton, Prod.mk.injEq, reduceCtorEq, and_false, or_false]
    constructor
    · rintro (⟨⟨hm, -⟩, hp⟩ | ⟨hm, hle⟩)
      · exact ⟨hm, .inr hp⟩
      · exact ⟨hm, .inl hle⟩
    · rintro ⟨hm, hle | hp⟩
      · exact .inr ⟨hm, hle⟩
      · by_cases h : split ≤ i
        · exact .inr ⟨hm, h⟩
        · exact .inl ⟨⟨hm, Nat.lt_of_not_le h⟩, hp⟩
  · -- nothing is folded: the boundary is at the start, or there is no history
    rename_i hinactive
    have hall := @mem_drop_indexed conv.history u i 0
    rw [drop_zero] at hall
    rw [hall]
    constructor
    · rintro ⟨hm, -⟩
      refine ⟨hm, .inl ?_⟩
      by_contra hlt
      refine hinactive ⟨by omega, fun hnil => ?_⟩
      rw [hnil] at hm
      cases hm
    · rintro ⟨hm, -⟩
      exact ⟨hm, Nat.zero_le i⟩

theorem summary_of_no_source {conv : Conversation} {u : Message}
    (h : (u, none) ∈ conv.effectiveSources) : conv.summary = some u := by
  have hindexed : (u, none) ∉ conv.history.zipIdx.map fun p => (p.1, some p.2) := by simp
  unfold effectiveSources at h
  cases hs : conv.summary with
  | none =>
    rw [hs] at h
    exact absurd h hindexed
  | some summary =>
    rw [hs] at h
    dsimp only at h
    split at h
    · rcases mem_append.mp h with h | h
      · rcases mem_append.mp h with h | h
        · exact absurd (mem_of_mem_take (mem_filter.mp h).1) hindexed
        · exact congrArg some (Prod.mk.inj (mem_singleton.mp h)).1.symm
      · exact absurd (mem_of_mem_drop h) hindexed
    · exact absurd h hindexed

/-- The messages from the boundary on are sent as they are. -/
theorem effectiveHistory_compacted {conv : Conversation} {split : Nat} (text : String)
    (hle : split ≤ conv.history.length) :
    ∃ kept, (conv.applyCompaction text split).effectiveHistory =
      kept ++ conv.history.drop split := by
  have hthrough : (max 0 (min (split : Int) conv.history.length)).toNat = split := by omega
  unfold effectiveHistory
  simp only [applyCompaction, hthrough, Nat.min_eq_left hle]
  split
  · exact ⟨_, rfl⟩
  · exact ⟨conv.history.take split, (take_append_drop _ _).symm⟩

/-! ### The boundary found -/

/-- The snapped boundary is not after the requested one, lies within the history, and no assistant
message with tool calls stands right before it. -/
theorem snapToSafeBoundary_ok {history : List Message} {idx b : Nat}
    (h : snapToSafeBoundary history idx = .ok b) :
    b ≤ history.length ∧ ∀ j m, j + 1 = b → history[j]? = some m → endsWithCall m = false := by
  induction idx with
  | zero =>
    cases h
    exact ⟨Nat.zero_le _, fun j m hj => absurd hj (Nat.succ_ne_zero j)⟩
  | succ idx ih =>
    simp only [snapToSafeBoundary] at h
    split at h
    · cases h
    · rename_i prev hprev
      split at h
      · exact ih h
      · rename_i hends
        cases h
        refine ⟨(List.getElem?_eq_some_iff.mp hprev).1, ?_⟩
        rintro j m hj hm
        obtain rfl : j = idx := Nat.succ.inj hj
        rw [hprev, Option.some.injEq] at hm
        rw [← hm]
        exact Bool.eq_false_iff.mpr hends

theorem compactionSplitPoint_snapped {conv : Conversation} {keepRecent minPrefix : Int}
    {split : Nat} (h : conv.compactionSplitPoint keepRecent minPrefix = .ok (some split)) :
    ∃ idx, snapToSafeBoundary conv.history idx = .ok split := by
  unfold compactionSplitPoint at h
  dsimp only at h
  split at h
  · cases h
  · obtain ⟨candidate, hsnap, h⟩ := bind_eq_ok.mp h
    refine ⟨_, hsnap.trans ?_⟩
    split at h
    · cases h
    · cases h
      rfl

/-! ### No result without its call -/

/-- Index `j` holds the last assistant message before index `i`. -/
def CallSite (history : List Message) (j i : Nat) : Prop :=
  j < i ∧ (∃ a, history[j]? = some a ∧ a.role = .assistant) ∧
    ∀ k m, j < k → k < i → history[k]? = some m → m.role ≠ .assistant

/-- Every tool result answers a call of the last assistant message before it. -/
def ResultsAnswered (history : List Message) : Prop :=
  ∀ i u, history[i]? = some u → ∀ r ∈ u.results,
    ∃ j a, CallSite history j i ∧ history[j]? = some a ∧ ∃ c ∈ a.calls, answers c r = true

/-- Every tool result of the effective history answers a call, of the last assistant message before
it in the history, that is in the effective history too. -/
def NoOrphan (conv : Conversation) : Prop :=
  ∀ u i?, (u, i?) ∈ conv.effectiveSources → ∀ r ∈ u.results,
    ∃ i j a, i? = some i ∧ CallSite conv.history j i ∧ (a, some j) ∈ conv.effectiveSources ∧
      ∃ c ∈ a.calls, answers c r = true

/-- What a boundary must leave out: a protected message before it with a tool result, and a message
after it whose tool results come later than in the message right after the folded call. -/
structure SafelyCut (history : List Message) (splitPoint : Nat) : Prop where
  folded : ∀ i u, i < splitPoint → history[i]? = some u → isProtected u = true → u.results = []
  delayed : ∀ i u, splitPoint ≤ i → history[i]? = some u → u.results ≠ [] →
    ∃ k m, k < i ∧ (splitPoint ≤ k ∨ k + 1 = i) ∧ history[k]? = some m ∧ m.role = .assistant

theorem isProtected_user {m : Message} (h : isProtected m = true) : m.role = .user := by
  unfold isProtected at h
  simp only [Bool.and_eq_true, decide_eq_true_eq] at h
  exact h.1

theorem endsWithCall_of_mem {a : Message} {c : ToolCall} (hrole : a.role = .assistant)
    (hc : c ∈ a.calls) : endsWithCall a = true := by
  have hblocks : a.hasBlocks = true := by
    by_contra hb
    have hnil := Message.blocks_eq_nil_of_not_hasBlocks (Bool.eq_false_iff.mpr hb)
    rw [Message.mem_calls, hnil] at hc
    cases hc
  have hcalls : a.calls.isEmpty = false := by
    rw [isEmpty_eq_false_iff]
    exact ne_nil_of_mem hc
  simp [endsWithCall, hrole, hblocks, hcalls]

section

variable {conv : Conversation} {text : String} {splitPoint : Nat}

theorem le_of_call_sent (hle : splitPoint ≤ conv.history.length) {a : Message} {j i : Nat}
    (hsite : CallSite conv.history j i)
    (h : (a, some j) ∈ (conv.applyCompaction text splitPoint).effectiveSources) :
    splitPoint ≤ j := by
  obtain ⟨-, ⟨a', ha', hrole⟩, -⟩ := hsite
  obtain ⟨ha, hj | hp⟩ := (mem_sources_compacted hle).mp h
  · exact hj
  · rw [ha', Option.some.injEq] at ha
    subst ha
    rw [isProtected_user hp] at hrole
    cases hrole

theorem safelyCut_of_noOrphan (hle : splitPoint ≤ conv.history.length)
    (h : NoOrphan (conv.applyCompaction text splitPoint)) : SafelyCut conv.history splitPoint := by
  refine ⟨fun i u hi hu hp => ?_, fun i u hi hu hr => ?_⟩
  · by_contra hr
    obtain ⟨r, hr⟩ := exists_mem_of_ne_nil _ hr
    obtain ⟨i', j, a, hi', hsite, ha, -⟩ :=
      h u (some i) ((mem_sources_compacted hle).mpr ⟨hu, .inr hp⟩) r hr
    cases hi'
    have hj := le_of_call_sent hle hsite ha
    have hlt : j < i := hsite.1
    omega
  · obtain ⟨r, hr⟩ := exists_mem_of_ne_nil _ hr
    obtain ⟨i', j, a, hi', hsite, ha, -⟩ :=
      h u (some i) ((mem_sources_compacted hle).mpr ⟨hu, .inl hi⟩) r hr
    cases hi'
    have hj := le_of_call_sent hle hsite ha
    obtain ⟨hlt, ⟨a', ha', hrole⟩, -⟩ := hsite
    exact ⟨j, a', hlt, .inl hj, ha', hrole⟩

/-- The call of a result that is sent is not folded.  A result in a folded message is excluded
outright.  After the boundary, an assistant message in between would be the result's own; and the
message right before the boundary holds no call. -/
theorem call_not_folded {keepRecent minPrefix : Int}
    (hsplit : conv.compactionSplitPoint keepRecent minPrefix = .ok (some splitPoint))
    (hcut : SafelyCut conv.history splitPoint) {i j : Nat} {u a : Message} {r : ToolResult}
    {c : ToolCall} (hu : conv.history[i]? = some u)
    (hsent : splitPoint ≤ i ∨ isProtected u = true) (hr : r ∈ u.results)
    (hsite : CallSite conv.history j i) (ha : conv.history[j]? = some a) (hc : c ∈ a.calls) :
    splitPoint ≤ j := by
  have hne : u.results ≠ [] := ne_nil_of_mem hr
  have hi : splitPoint ≤ i := by
    by_contra hlt
    rcases hsent with hsent | hp
    · exact hlt hsent
    · exact hne (hcut.folded i u (Nat.lt_of_not_le hlt) hu hp)
  obtain ⟨hlt, ⟨a', ha', hrole⟩, hlast⟩ := hsite
  rw [ha, Option.some.injEq] at ha'
  subst ha'
  obtain ⟨k, m, hk, hside, hm, hassistant⟩ := hcut.delayed i u hi hu hne
  have hkj : ¬ j < k := fun hjk => hlast k m hjk hk hm hassistant
  rcases hside with hside | hside
  · omega
  · -- the call is right before the result, and not right before the boundary
    obtain rfl : k = j := by omega
    by_contra hfold
    obtain ⟨idx, hsnap⟩ := compactionSplitPoint_snapped hsplit
    have hends := (snapToSafeBoundary_ok hsnap).2 k a (by omega) ha
    rw [endsWithCall_of_mem hrole hc] at hends
    cases hends

/-- **Compaction sends no tool result without its call exactly when no protected message before the
boundary holds a tool result**, for results in the message right after their call; and every
message from the boundary on is sent unchanged. -/
theorem compaction_noOrphan_iff (text : String) {keepRecent minPrefix : Int}
    (hanswered : ResultsAnswered conv.history)
    (hsplit : conv.compactionSplitPoint keepRecent minPrefix = .ok (some splitPoint)) :
    (NoOrphan (conv.applyCompaction text splitPoint) ∧
      ∃ kept, (conv.applyCompaction text splitPoint).effectiveHistory =
        kept ++ conv.history.drop splitPoint) ↔
      SafelyCut conv.history splitPoint := by
  obtain ⟨idx, hsnap⟩ := compactionSplitPoint_snapped hsplit
  have hle := (snapToSafeBoundary_ok hsnap).1
  constructor
  · rintro ⟨h, -⟩
    exact safelyCut_of_noOrphan hle h
  · intro hcut
    refine ⟨fun u i? hu r hr => ?_, effectiveHistory_compacted text hle⟩
    cases i? with
    | none =>
        -- the summary is one text block
        cases summary_of_no_source hu
        cases hr
    | some i =>
        obtain ⟨hu, hsent⟩ := (mem_sources_compacted hle).mp hu
        obtain ⟨j, a, hsite, ha, c, hc, hans⟩ := hanswered i u hu r hr
        have hj := call_not_folded hsplit hcut hu hsent hr hsite ha hc
        exact ⟨i, j, a, rfl, hsite, (mem_sources_compacted hle).mpr ⟨ha, .inl hj⟩, c, hc, hans⟩

end

/-- A history with one tool call, at index 1; the message with its result also holds `note`. -/
def oneCall (note : String) : List Message :=
  [{ role := .user, content := .blocks [.text { text := "go" }] },
   { role := .assistant, content := .blocks [.toolCall
      { id := "toolu_1", name := "skill", input := .obj [], executionId := "exec-1" }] },
   { role := .user, content := .blocks [.toolResult
      { toolUseId := "toolu_1", content := .inl "loaded", name := "skill", isError := false,
        executionId := some "exec-1" }, .text { text := note }] },
   { role := .assistant, content := .blocks [.text { text := "done" }] },
   { role := .user, content := .blocks [.text { text := "next" }] }]

theorem oneCall_answered (note : String) : ResultsAnswered (oneCall note) := by
  intro i u hu r hr
  match i with
  | 0 | 1 | 3 | 4 =>
    cases hu
    cases hr
  | 2 =>
    refine ⟨1, _, ⟨by decide, ⟨_, rfl, rfl⟩, fun k m hk hi => by omega⟩, rfl, _,
      mem_singleton_self _, ?_⟩
    cases hu
    cases mem_singleton.mp hr
    rfl
  | i + 5 => cases hu

theorem oneCall_splitPoint (note : String) :
    compactionSplitPoint { history := oneCall note } 2 1 = .ok (some 3) := rfl

theorem compaction_noOrphan_iff_plainNote :
    SafelyCut (oneCall "ok") 3 ∧
      NoOrphan (applyCompaction { history := oneCall "ok" } "summary" 3) := by
  have hcut : SafelyCut (oneCall "ok") 3 := by
    refine ⟨fun i u hi hu hp => ?_, fun i u hi hu hr => ?_⟩
    · match i with
      | 0 | 1 => cases hu; rfl
      | 2 =>
          cases hu
          exact absurd hp (by decide)
      | i + 3 => omega
    · match i with
      | 0 | 1 | 2 => omega
      | 3 | 4 => cases hu; exact absurd rfl hr
      | i + 5 => cases hu
  have hiff := compaction_noOrphan_iff "summary" (oneCall_answered "ok")
    (oneCall_splitPoint "ok")
  exact ⟨hcut, (hiff.mpr hcut).1⟩

/-- A skill note beside the result is protected, so the result is sent after its call is folded. -/
theorem compaction_orphans_skillNote :
    let history := oneCall "<skill_content name=\"pdf\">"
    isValidForAnthropic history = true ∧ ResultsAnswered history ∧
      compactionSplitPoint { history } 2 1 = .ok (some 3) ∧
      ¬ NoOrphan (applyCompaction { history } "summary" 3) := by
  refine ⟨by decide, oneCall_answered _, oneCall_splitPoint _, fun h => ?_⟩
  have hcut := safelyCut_of_noOrphan (by decide) h
  have hnil := hcut.folded 2 _ (by decide) rfl (by decide)
  cases hnil

end Conversation

end KolegaCode
