import KolegaCode.Session.Recovery
import Mathlib.Data.List.Pairwise

/-!
# Session — what a recovery writes

The events a recovery appends, as changes of the log: a batch with the missing results leaves the
latest turn where it is and answers its calls, and a terminal closes it.  A log with both is again
one that a recorder writes.
-/

namespace KolegaCode.Session

open List
open Json (Dict get?)

/-! ### Results of interrupted calls -/

/-- The provider's id of a call is a string. -/
def HasStringId (call : Dict) : Prop := ∃ id, get? call "id" = some (.str id)

theorem executionId_interruptedResult (call : Dict) :
    (get? (interruptedResult call) "execution_id").filter truthy =
      (get? call "execution_id").filter truthy := by
  cases h : (get? call "execution_id").filter truthy with
  | none =>
    rw [interruptedResult, h]
    rfl
  | some id =>
    have ht : truthy id = true := (Option.filter_eq_some_iff.mp h).2
    rw [interruptedResult, h]
    simp [Json.get?_cons, ht]

variable {call : Dict} {turns : List TurnSummary} {status : TurnStatus} {eventType : String}
  {xs : List SessionEvent}

theorem toolUseId_interruptedResult {id : String} (h : get? call "id" = some (.str id)) :
    get? (interruptedResult call) "tool_use_id" = some (.str id) := by
  simp [interruptedResult, Json.get?_cons, valueOr, h, strOf]

theorem answers_interruptedResult (h : HasStringId call) :
    answers (interruptedResult call) call = true := by
  obtain ⟨id, hid⟩ := h
  rw [answers, executionId_interruptedResult]
  cases (get? call "execution_id").filter truthy with
  | none => simp [toolUseId_interruptedResult hid, hid]
  | some id => simp

theorem shortResult_interruptedResult (call : Dict) : ShortResult (interruptedResult call) where
  type := by simp [interruptedResult, Json.get?_cons]
  content := by
    refine ⟨interruptionText, by simp [interruptedResult, Json.get?_cons], ?_⟩
    rw [show interruptionText.length = _ from String.length_ofList]
    decide

variable (results : List Dict)

theorem nodup_keys_resultsMessage :
    ((resultsMessage results).map Prod.fst).Nodup := by
  simp [resultsMessage]

theorem get?_content_resultsMessage :
    get? (resultsMessage results) "content" = some (.arr (results.map .obj)) := by
  simp [resultsMessage, Json.get?_cons]

theorem messageBlocks_resultsMessage :
    messageBlocks (resultsMessage results) = results := by
  rw [messageBlocks, get?_content_resultsMessage]
  simp only [filterMap_map]
  have h : (asDict? ∘ Json.obj) = some := by
    funext d
    rfl
  rw [h, filterMap_some]

/-! ### Events behind the log -/

section Snoc

variable {es : List SessionEvent} {epochId : String} {turn : TurnSummary} {e : SessionEvent}

/-- An event of the turn. -/
structure InTurn (epochId : String) (turn : TurnSummary) (e : SessionEvent) : Prop where
  epochId : e.epochId = epochId
  root : e.sub = false
  turnId : e.turnId = some turn.turnId
  seq : turn.boundarySeq ≤ e.seq

theorem mem_rootTurnEvents :
    e ∈ rootTurnEvents es epochId turn ↔ e ∈ es ∧ InTurn epochId turn e := by
  rw [rootTurnEvents, mem_filter, decide_eq_true_eq]
  refine and_congr_right fun _ => ?_
  exact ⟨fun h => ⟨h.1, h.2.1, h.2.2.1, h.2.2.2⟩, fun h => ⟨h.epochId, h.root, h.turnId, h.seq⟩⟩

theorem rootTurnEvents_snoc (h : InTurn epochId turn e) :
    rootTurnEvents (es ++ [e]) epochId turn = rootTurnEvents es epochId turn ++ [e] := by
  rw [rootTurnEvents, filter_append]
  refine congrArg _ ?_
  simp [h.epochId, h.root, h.turnId, h.seq]

theorem assistantMessages_snoc (xs : List SessionEvent) (h : e.eventType ≠ "assistant.message") :
    assistantMessages (xs ++ [e]) = assistantMessages xs := by
  simp [assistantMessages, filter_append, h]

theorem resultBlocks_snoc (xs : List SessionEvent) :
    resultBlocks (xs ++ [e]) = resultBlocks xs ++ resultBlocks [e] := by
  simp [resultBlocks, filter_append]

theorem resultBlocks_other (h : e.eventType ≠ "tool.results") : resultBlocks [e] = [] := by
  simp [resultBlocks, h]

theorem resultBlocks_interrupted {calls : List Dict} (ht : e.eventType = "tool.results")
    (hm : storedMessage e = some (resultsMessage (calls.map interruptedResult)))
    (hids : ∀ call ∈ calls, ∃ id, get? call "id" = some (.str id) ∧ id ≠ "") :
    resultBlocks [e] = calls.map interruptedResult := by
  have hkeep : ∀ block ∈ calls.map interruptedResult,
      decide (get? block "type" = some (.str "tool_result") ∧
        (get? block "tool_use_id").any truthy = true) = true := by
    intro block hb
    obtain ⟨call, hc, rfl⟩ := mem_map.mp hb
    obtain ⟨id, hid, hne⟩ := hids call hc
    rw [decide_eq_true_eq, toolUseId_interruptedResult hid]
    exact ⟨(shortResult_interruptedResult call).type, by simp [truthy, hne]⟩
  simp only [resultBlocks, filter_cons, ht, decide_true, if_true, filter_nil,
    flatMap_cons, flatMap_nil, append_nil, hm, Option.map_some, Option.getD_some,
    messageBlocks_resultsMessage]
  exact filter_eq_self.mpr hkeep

theorem collectEpochTurns_snoc :
    collectEpochTurns (es ++ [e]) epochId = turnStep epochId (collectEpochTurns es epochId) e := by
  rw [collectEpochTurns, foldl_append]
  rfl

theorem collectEpochTurns_results (ht : e.eventType = "tool.results") :
    collectEpochTurns (es ++ [e]) epochId = collectEpochTurns es epochId := by
  rw [collectEpochTurns_snoc, turnStep, ht]
  split
  · rfl
  · split
    · rfl
    · rfl

theorem getLast?_settleLast {turnId : String} (h : turns.getLast? = some turn)
    (hid : turn.turnId = turnId) :
    (settleLast (some turnId) status turns).getLast? = some { turn with status := status } := by
  induction turns with
  | nil => cases h
  | cons x turns ih =>
    cases turns with
    | nil =>
      have hx : x = turn := Option.some.inj h
      subst hx
      simp [settleLast, hid]
    | cons y turns =>
      rw [getLast?_cons_cons] at h
      have hany : (y :: turns).any (fun later => some later.turnId = some turnId) = true := by
        rw [any_eq_true]
        exact ⟨turn, mem_of_getLast? h, by simp [hid]⟩
      rw [settleLast, if_pos hany]
      rw [getLast?_cons, ih h]
      rfl

/-- A terminal of the latest turn closes it. -/
theorem getLast?_terminal (h : InTurn epochId turn e)
    (ht : terminalStatus e.eventType = some status)
    (hturn : (collectEpochTurns es epochId).getLast? = some turn) :
    (collectEpochTurns (es ++ [e]) epochId).getLast? = some { turn with status := status } := by
  have hstart : e.eventType ≠ "turn.started" := by
    intro hs
    rw [hs] at ht
    cases ht
  rw [collectEpochTurns_snoc, turnStep, if_neg (not_not.mpr h.epochId), h.root,
    if_neg Bool.false_ne_true, if_neg hstart, ht, h.turnId]
  exact getLast?_settleLast hturn rfl

end Snoc

/-! ### Open turns and their terminals -/

theorem terminalStatus_ne_open (h : terminalStatus eventType = some status) : status ≠ .open := by
  rw [terminalStatus.eq_def] at h
  split at h <;> cases h <;> decide

theorem Kept.turnIds_distinct {es : List SessionEvent} (h : Kept es) (epochId : String) :
    (collectEpochTurns es epochId).Pairwise fun t t' => t.turnId ≠ t'.turnId := by
  have hs := h.turns_sorted epochId
  rw [turnKeys, pairwise_map] at hs
  refine hs.imp_of_mem ?_
  intro t t' ht ht' hlt heq
  obtain ⟨s, hmem, hstart, hseq, -⟩ := h.start_of_mem (mem_map_of_mem ht)
  obtain ⟨s', hmem', hstart', hseq', -⟩ := h.start_of_mem (mem_map_of_mem ht')
  have hstart₂ : IsStart s t'.turnId := heq ▸ hstart
  have := h.start_unique hmem hmem' hstart₂ hstart'
  omega

theorem settleLast_eq_map (turnId : Option String) (status : TurnStatus)
    (h : turns.Pairwise fun t t' => t.turnId ≠ t'.turnId) :
    settleLast turnId status turns =
      turns.map fun t => if some t.turnId = turnId then { t with status := status } else t := by
  induction turns with
  | nil => rfl
  | cons x turns ih =>
    rw [pairwise_cons] at h
    rw [settleLast, map_cons]
    by_cases hx : some x.turnId = turnId
    · have hany : turns.any (fun later => some later.turnId = turnId) = false := by
        rw [any_eq_false]
        intro t ht hid
        rw [decide_eq_true_eq] at hid
        exact h.1 t ht (Option.some.inj (hx.trans hid.symm))
      have hrest : turns.map (fun t => if some t.turnId = turnId then { t with status := status }
          else t) = turns := by
        rw [← ih h.2]
        cases turns with
        | nil => rfl
        | cons y turns =>
          rw [any_cons, Bool.or_eq_false_iff, decide_eq_false_iff_not] at hany
          rw [settleLast, if_neg (by simp [hany.2]), if_neg hany.1]
      rw [hany, if_neg Bool.false_ne_true, if_pos hx, if_pos hx, hrest]
    · rw [if_neg hx, if_neg hx]
      split
      · rw [ih h.2]
      · rename_i hany
        rw [Bool.not_eq_true, any_eq_false] at hany
        refine congrArg _ ?_
        have hsame : ∀ t ∈ turns, (if some t.turnId = turnId then { t with status := status }
            else t) = t := by
          intro t ht
          refine if_neg ?_
          simpa using hany t ht
        rw [map_congr_left hsame, map_id']

/-- A terminal event of the turn, written by the root agent. -/
structure IsTerminal (epochId turnId : String) (x : SessionEvent) : Prop where
  epochId : x.epochId = epochId
  root : x.sub = false
  turnId : x.turnId = some turnId
  terminal : (terminalStatus x.eventType).isSome = true

/-- **A listed turn is closed exactly when it has a terminal.** -/
theorem Kept.closed_iff {es : List SessionEvent} (h : Kept es) {epochId : String} :
    ∀ {turn : TurnSummary}, turn ∈ collectEpochTurns es epochId →
      (turn.status ≠ .open ↔ ∃ x ∈ es, IsTerminal epochId turn.turnId x) := by
  induction h with
  | nil =>
    intro turn ht
    cases ht
  | @snoc es e hr he hseq ih =>
    intro turn ht
    -- an event that is no terminal of the epoch leaves the terminals as they were
    have hold : turn ∈ collectEpochTurns es epochId → ¬ IsTerminal epochId turn.turnId e →
        (turn.status ≠ .open ↔ ∃ x ∈ es ++ [e], IsTerminal epochId turn.turnId x) := by
      intro ht hne
      rw [ih ht]
      refine ⟨?_, ?_⟩
      · intro hx
        obtain ⟨x, hx, hterm⟩ := hx
        exact ⟨x, mem_append_left _ hx, hterm⟩
      · intro hx
        obtain ⟨x, hx, hterm⟩ := hx
        rcases mem_append.mp hx with hx | hx
        · exact ⟨x, hx, hterm⟩
        · rw [mem_singleton.mp hx] at hterm
          exact absurd hterm hne
    rw [collectEpochTurns_snoc, turnStep] at ht
    split at ht
    · rename_i hepoch
      exact hold ht fun hx => hepoch hx.epochId
    split at ht
    · rename_i hsub
      exact hold ht fun hx => absurd (hsub.symm.trans hx.root) (by decide)
    rename_i hepoch hsub
    split at ht
    · rename_i hstart
      have hnt : ∀ turnId, ¬ IsTerminal epochId turnId e := by
        intro turnId hx
        have := hx.terminal
        rw [hstart] at this
        cases this
      rcases mem_append.mp ht with ht | ht
      · exact hold ht (hnt _)
      · -- a new turn is open, and no event in front of its start is of the turn
        rw [mem_singleton] at ht
        obtain ⟨turnId, hst, -, hfresh, -⟩ := he.start_inv (by simpa using hsub) hstart
        subst ht
        refine iff_of_false (not_not.mpr rfl) ?_
        intro hx
        obtain ⟨x, hx, hterm⟩ := hx
        rcases mem_append.mp hx with hx | hx
        · refine hfresh x hx ?_
          rw [hterm.turnId, hst.turnId]
          rfl
        · rw [mem_singleton.mp hx] at hterm
          exact hnt _ hterm
    rename_i hstart
    split at ht
    · rename_i status hstatus
      rw [settleLast_eq_map _ _ (hr.turnIds_distinct epochId)] at ht
      obtain ⟨t, htm, rfl⟩ := mem_map.mp ht
      by_cases hid : some t.turnId = e.turnId
      · rw [if_pos hid]
        refine iff_of_true (terminalStatus_ne_open hstatus) ?_
        exact ⟨e, by simp, not_not.mp hepoch, by simpa using hsub, hid.symm, by rw [hstatus]; rfl⟩
      · rw [if_neg hid] at hold ⊢
        exact hold htm fun hx => hid hx.turnId.symm
    · rename_i hstatus
      have hnt : ∀ turnId, ¬ IsTerminal epochId turnId e := by
        intro turnId hx
        have := hx.terminal
        rw [hstatus] at this
        cases this
      split at ht
      · split at ht
        · exact hold (mem_filter.mp ht).1 (hnt _)
        · exact hold ht (hnt _)
      · exact hold ht (hnt _)

/-! ### The log with the batch and the terminal -/

section Appended

variable {cfg : RecorderConfig} {es : List SessionEvent} {epochId : String} {turn : TurnSummary}
  {e : SessionEvent}

theorem nextAfter_of_numbered (h : Numbered 1 (es ++ [e])) : e.seq = nextAfter es := by
  obtain ⟨hes, he, -⟩ := numbered_append.mp h
  rw [he, nextAfter_eq hes]
  omega

theorem boundarySeq_le (h : Kept es) (hturn : turn ∈ collectEpochTurns es epochId)
    (hseq : e.seq = nextAfter es) : turn.boundarySeq ≤ e.seq := by
  obtain ⟨s, hs, -, hk, -⟩ := h.start_of_mem (mem_map_of_mem hturn)
  have := numbered_bounds h.numbered s hs
  rw [hseq, nextAfter_eq h.numbered]
  have hk : s.seq = turn.boundarySeq := hk
  omega

theorem Written.inTurn {payload : Dict} (hroot : cfg.stamp.depth = 0)
    (hw : Written cfg es eventType payload (some turn.turnId) (some epochId) e)
    (hepoch : epochId ≠ "") (h : Kept es) (hturn : turn ∈ collectEpochTurns es epochId)
    (hseq : e.seq = nextAfter es) : InTurn epochId turn e where
  epochId := hw.given epochId rfl hepoch
  root := hw.root hroot
  turnId := hw.turnId
  seq := boundarySeq_le h hturn hseq

theorem Kept.batch (h : Kept es) (hin : InTurn epochId turn e) (hlast : lastEpoch es = some epochId)
    (hturn : (collectEpochTurns es epochId).getLast? = some turn)
    (ht : e.eventType = "tool.results") {message : Dict} {id : String}
    (hp : e.payload = [("message", .obj message), ("batch_id", .str id)])
    (hseq : e.seq = nextAfter es) : Kept (es ++ [e]) := by
  refine .snoc h (Emits.message hin.root (by simp [ht]) (hin.epochId ▸ hlast) ?_ ?_ ?_).orderly
    hseq
  · exact ⟨message, by simp [hp, Json.get?_cons]⟩
  · simp [hp, Json.get?_cons]
  · intro turnId hid
    refine ⟨turn, hin.epochId ▸ hturn, ?_⟩
    exact Option.some.inj (hin.turnId.symm.trans hid)

theorem Kept.terminal (h : Kept es) (hin : InTurn epochId turn e)
    (hlast : lastEpoch es = some epochId) (ht : (terminalStatus e.eventType).isSome = true)
    (hseq : e.seq = nextAfter es) : Kept (es ++ [e]) :=
  .snoc h (Emits.finishTurn hin.root ht (hin.epochId ▸ hlast)).orderly hseq

end Appended

/-! ### Counting results -/

/-- The results of a turn that answer a call. -/
def resultsFor (turnEvents : List SessionEvent) (call : Dict) : List Dict :=
  (resultBlocks turnEvents).filter fun result => answers result call

/-- The calls of all assistant messages of a turn. -/
def turnCalls (turnEvents : List SessionEvent) : List Dict :=
  (assistantMessages turnEvents).flatMap toolCallBlocks

/-- Neither call is answered by the result of the other. -/
def Apart (call call' : Dict) : Prop :=
  answers (interruptedResult call) call' = false ∧ answers (interruptedResult call') call = false

theorem toolCallBlocks_id {message : Dict} (h : call ∈ toolCallBlocks message) :
    (get? call "id").any truthy = true := by
  rw [toolCallBlocks, mem_filter, decide_eq_true_eq] at h
  exact h.2.2

theorem id_ne_of_truthy (ht : (get? call "id").any truthy = true) (h : HasStringId call) :
    ∃ id, get? call "id" = some (.str id) ∧ id ≠ "" := by
  obtain ⟨id, hid⟩ := h
  refine ⟨id, hid, ?_⟩
  rw [hid] at ht
  simpa [truthy] using ht

theorem mem_unansweredCalls :
    call ∈ unansweredCalls xs ↔
      (∃ message, (assistantMessages xs).getLast? = some message ∧ call ∈ toolCallBlocks message) ∧
        resultsFor xs call = [] := by
  rw [unansweredCalls, mem_filter, Bool.not_eq_true', any_eq_false, resultsFor, filter_eq_nil_iff]
  refine and_congr_left fun _ => ?_
  cases (assistantMessages xs).getLast? <;> simp

theorem unansweredCalls_sublist (xs : List SessionEvent) :
    (unansweredCalls xs).Sublist (turnCalls xs) := by
  refine filter_sublist.trans ?_
  cases h : (assistantMessages xs).getLast? with
  | none => exact nil_sublist _
  | some message =>
    obtain ⟨ms, hms⟩ := getLast?_eq_some_iff.mp h
    rw [turnCalls, hms, flatMap_append]
    simp

/-- Among calls that are apart, one call's result answers that call alone. -/
theorem filter_answers_eq {calls : List Dict} (hapart : calls.Pairwise Apart)
    (hids : ∀ call ∈ calls, HasStringId call) (h : call ∈ calls) :
    calls.filter (fun call' => answers (interruptedResult call') call) = [call] := by
  induction calls with
  | nil => cases h
  | cons x calls ih =>
    rw [pairwise_cons] at hapart
    rcases mem_cons.mp h with rfl | hmem
    · rw [filter_cons, if_pos (answers_interruptedResult (hids call (by simp)))]
      refine congrArg _ (filter_eq_nil_iff.mpr ?_)
      intro c hc
      rw [(hapart.1 c hc).2]
      decide
    · rw [filter_cons, if_neg (by rw [(hapart.1 call hmem).1]; decide)]
      exact ih hapart.2 (fun c hc => hids c (by simp [hc])) hmem

instance : Std.Symm Apart := ⟨fun _ _ h => ⟨h.2, h.1⟩⟩

theorem filter_answers_nil (hapart : (turnCalls xs).Pairwise Apart) (h : call ∈ turnCalls xs)
    (hnot : call ∉ unansweredCalls xs) :
    (unansweredCalls xs).filter (fun call' => answers (interruptedResult call') call) = [] := by
  rw [filter_eq_nil_iff]
  intro c hc
  have hne : c ≠ call := by
    rintro rfl
    exact hnot hc
  have := hapart.forall ((unansweredCalls_sublist xs).subset hc) h hne
  rw [this.1]
  decide

end KolegaCode.Session
