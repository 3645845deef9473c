import KolegaCode.Session.Boundaries
import KolegaCode.Session.RecoveryLog

/-!
# Session — recovering an interrupted turn

What `recover_interrupted_turn` does to any log a recorder left.  It may raise, as any write may;
then the log it found is still there.  When it returns, the latest turn is closed, every call of
its last assistant message is answered, and there is nothing left for a second recovery.
-/

namespace KolegaCode.Session

open List
open Json (Dict get?)

/-! ### Writing a batch that is not in the log -/

variable {e : SessionEvent}

section Writes

variable {cfg : RecorderConfig} {call : Call} {r : Recorder} {es : List SessionEvent}

/-- Nothing disturbs a write: the lock is not held by another process, and the system calls
succeed. -/
structure Smooth (call : Call) : Prop where
  lock : call.lock ≠ .busy
  attempt : call.attempt = {}

/-- What is stored comes back as a message, and a batch as tool results. -/
def Restores (cfg : RecorderConfig) (slot : Slot) (stored : Dict) : Prop :=
  ∃ message, cfg.restore stored = .ok message ∧
    (slot = .toolResults → message.hasBlocks ∧ message.blocks.all fun b => b.asToolResult?.isSome)

/-- The log of the recorder begins with these events. -/
def Keeps (cfg : RecorderConfig) (es : List SessionEvent) (r : Recorder) : Prop :=
  ∃ new, Held cfg.journal r.view (es ++ new)

theorem keeps_self (h : Held cfg.journal r.view es) : Keeps cfg es r :=
  ⟨[], by rwa [append_nil]⟩

theorem leads_appendPrepared_any (h : Held cfg.journal r.view es) {eventType actor : String}
    {payload : Dict} {turnId epochId : Option String} {artifacts : List Dict}
    {htype : eventType ≠ ""} {hactor : actor ≠ ""} {hpayload : Json.Canonical (.obj payload)}
    {hartifacts : ∀ ref ∈ artifacts, Json.Canonical (.obj ref)} {epoch : String}
    (hlast : lastEpoch es = some epoch) :
    Leads (appendPrepared cfg call eventType actor payload turnId epochId artifacts htype hactor
        hpayload hartifacts) r
      (fun e r' => SameRecorder r r' ∧ Held cfg.journal r'.view (es ++ [e]) ∧
        Written cfg es eventType payload turnId epochId e)
      fun r' => Keeps cfg es r' ∧ ¬ Smooth call := by
  by_cases hs : Smooth call
  · exact (leads_appendPrepared_complete h hs.lock hs.attempt hlast).mono (fun _ _ h => h)
      fun _ h => h.elim
  · refine (leads_appendPrepared h).mono (fun _ _ h => h) ?_
    intro r' hraised
    refine ⟨?_, hs⟩
    rcases hraised.2 with hheld | ⟨e, hheld, -⟩
    · exact keeps_self hheld
    · exact ⟨[e], hheld⟩

variable {slot : Slot}

theorem leads_restoreMessage {stored : Dict}
    (hstored : get? e.payload "message" = some (.obj stored)) {q : Recorder → Prop} (hq : q r) :
    Leads (restoreMessage cfg slot e) r (fun _ => q)
      fun r' => q r' ∧ ¬ Restores cfg slot stored := by
  rw [restoreMessage, hstored]
  simp only
  cases hrestore : cfg.restore stored with
  | error text =>
    refine leads_throw ⟨hq, ?_⟩
    intro hr
    obtain ⟨message, hm, -⟩ := hr
    rw [hrestore] at hm
    cases hm
  | ok message =>
    simp only
    split
    · rename_i hbad
      refine leads_throw ⟨hq, ?_⟩
      intro hr
      obtain ⟨message', hm, hres⟩ := hr
      rw [hrestore] at hm
      cases hm
      exact hbad.2 (hres hbad.1)
    · exact leads_pure hq

/-- A message that is in the log leaves its slot. -/
theorem leads_project_settles {p : Pending} {stored : Dict}
    (hstored : get? e.payload "message" = some (.obj stored)) :
    Leads (projectPending cfg slot p false e) r
      (fun _ r' => r'.view = r.view ∧ Frame slot r r' ∧ r'.pending slot = none)
      fun r' => r'.view = r.view ∧ ¬ Restores cfg slot stored := by
  refine leads_bind (leads_modify ?_)
  generalize hr₁ : (if p.committed = false ∧ r.currentTurnId = some p.turnId then r.count slot
    else r) = r₁
  have hframe : r₁.view = r.view ∧ Frame slot r r₁ := by
    rw [← hr₁]
    split
    · exact ⟨view_count r slot, frame_count r slot slot⟩
    · exact ⟨rfl, ⟨rfl, rfl, fun _ _ => rfl⟩⟩
  simp only
  generalize hr₂ : r₁.setPending slot (some { p with committed := true }) = r₂
  have hview : r₂.view = r.view ∧ Frame slot r r₂ := by
    rw [← hr₂]
    exact ⟨(view_setPending _ _ _).trans hframe.1, hframe.2.trans (frame_setPending _ _ _)⟩
  have hq : r₂.view = r.view ∧ Frame slot r r₂ := hview
  refine leads_bind ((leads_restoreMessage (q := fun r' => r'.view = r.view ∧ Frame slot r r')
    hstored hq).mono ?_ ?_)
  · intro message r₃ h
    refine leads_bind (leads_modify (leads_pure ?_))
    exact ⟨(view_setPending _ _ _).trans h.1, h.2.trans (frame_setPending _ _ _), by simp⟩
  · intro r₃ h
    exact ⟨h.1.1, h.2⟩

/-- A batch or a message with a new id is written by its retry. -/
theorem leads_retry_new (h : Held cfg.journal r.view es) {p : Pending}
    (hpend : r.pending slot = some p) (hlive : Live cfg es p.epochId p.turnId)
    (hturn : r.currentTurnId = none ∨ r.currentTurnId = some p.turnId)
    (hnew : p.item slot ∉ items cfg.stamp.agentId es) :
    Leads (commitPending cfg call slot true false) r
      (fun _ r' => Frame slot r r' ∧ r'.pending slot = none ∧ ∃ prepared e,
        cfg.prepare p.message = .ok prepared ∧ Held cfg.journal r'.view (es ++ [e]) ∧
        Written cfg es slot.eventType (slot.payload p prepared.message) (some p.turnId)
          (some p.epochId) e)
      fun r' => Keeps cfg es r' ∧ (Smooth call → (∃ text, cfg.prepare p.message = .error text) ∨
        ∃ prepared, cfg.prepare p.message = .ok prepared ∧
          ∃ stored, get? (slot.payload p prepared.message) "message" = some (.obj stored) ∧
            ¬ Restores cfg slot stored) := by
  refine leads_bind (leads_get ?_)
  rw [hpend]
  simp only [if_true]
  refine leads_bind ((leads_readPendingTurn h hlive hturn).mono ?_ fun _ hr => hr)
  intro events r₁ hread
  obtain ⟨rfl, hsame, hheld⟩ := hread
  have hfind : findPendingEvent cfg (turnEvents es p.epochId p.turnId) slot p.id = none := by
    rw [← Option.not_isSome_iff_eq_none, find_isSome_iff]
    exact hnew
  simp only [hfind]
  cases hprep : cfg.prepare p.message with
  | error text =>
    refine leads_bind ?_
    rw [prepareMessage, hprep]
    exact leads_throw ⟨keeps_self hheld, fun _ => .inl ⟨text, rfl⟩⟩
  | ok prepared =>
    refine leads_bind (leads_prepareMessage_ok hprep (leads_bind
      ((leads_appendPrepared_any hheld hlive.epoch).mono ?_ ?_)))
    · intro e r₂ happ
      obtain ⟨hsame₂, hheld₂, hw⟩ := happ
      have hstored : ∃ stored, get? (slot.payload p prepared.message) "message" =
          some (.obj stored) := by
        cases slot with
        | assistant =>
          refine ⟨withoutLlmCall prepared.message, ?_⟩
          rw [Slot.payload, assistantPayload.eq_def]
          split <;> rfl
        | toolResults => exact ⟨prepared.message, rfl⟩
      obtain ⟨stored, hstored⟩ := hstored
      refine (leads_project_settles (hw.payload ▸ hstored)).mono ?_ ?_
      · intro _ r₃ hproj
        obtain ⟨hview, hframe, hnone⟩ := hproj
        exact ⟨((hsame.frame slot).trans (hsame₂.frame slot)).trans hframe, hnone, prepared, e,
          rfl, hview ▸ hheld₂, hw⟩
      · intro r₃ hproj
        exact ⟨⟨[e], hproj.1 ▸ hheld₂⟩, fun _ => .inr ⟨prepared, rfl, stored, hstored, hproj.2⟩⟩
    · intro r₂ hraised
      exact ⟨hraised.1, fun hs => absurd hs hraised.2⟩

/-- The end of a turn that is not in the log is written by its retry. -/
theorem leads_retryTerminal_new (h : Held cfg.journal r.view es) {p : PendingTurnTerminal}
    (hpend : r.pendingTurnTerminal = some p) (hlive : Live cfg es p.epochId p.turnId)
    (hturn : r.currentTurnId = some p.turnId) (hnew : p.item ∉ items cfg.stamp.agentId es) :
    Leads (retryPendingTurnTerminal cfg call) r
      (fun _ r' => (∀ slot, r'.pending slot = r.pending slot) ∧ r'.pendingTurnTerminal = none ∧
        r'.currentTurnId = none ∧ ∃ e, Held cfg.journal r'.view (es ++ [e]) ∧
        Written cfg es p.ending.eventType p.payload (some p.turnId) (some p.epochId) e)
      fun r' => Keeps cfg es r' ∧ ¬ Smooth call := by
  refine leads_bind (leads_get ?_)
  rw [hpend]
  refine leads_bind ((leads_readPendingTurn h hlive (.inr hturn)).mono ?_ fun _ hr => hr)
  intro events r₁ hread
  obtain ⟨rfl, hsame, hheld⟩ := hread
  simp only
  rw [if_neg fun hany => hnew (any_terminal_iff.mp hany)]
  refine leads_bind ((leads_appendPrepared_any hheld hlive.epoch).mono ?_ fun _ hr => hr)
  intro e r₂ happ
  obtain ⟨hsame₂, hheld₂, hw⟩ := happ
  have hturn₂ : r₂.currentTurnId = some p.turnId :=
    (hsame₂.currentTurnId.trans hsame.currentTurnId).trans hturn
  refine leads_bind (leads_modify (leads_modify ?_))
  simp only [hturn₂, if_true]
  refine ⟨?_, trivial, trivial, e, hheld₂, hw⟩
  intro slot
  rw [← hsame.pending slot, ← hsame₂.pending slot]
  cases slot <;> rfl

/-- `finish_turn` of an open turn that has no terminal. -/
theorem leads_finish_new (h : Held cfg.journal r.view es) {ending : Ending}
    {durationMs : Option Nat} {error reason : Option String} {epochId turnId : String}
    (hterminal : r.pendingTurnTerminal = none) (hturn : r.currentTurnId = some turnId)
    (hlive : Live cfg es epochId turnId)
    (hnew : .terminal epochId turnId ∉ items cfg.stamp.agentId es) :
    Leads (finishTurn cfg call ending durationMs error reason) r
      (fun _ r' => (∀ slot, r'.pending slot = r.pending slot) ∧ r'.pendingTurnTerminal = none ∧
        r'.currentTurnId = none ∧ ∃ e payload, Held cfg.journal r'.view (es ++ [e]) ∧
        Written cfg es ending.eventType payload (some turnId) (some epochId) e)
      fun r' => Keeps cfg es r' ∧ ¬ Smooth call := by
  refine leads_bind (leads_get ?_)
  rw [hterminal]
  simp only [Option.isSome_none, Bool.false_eq_true, if_false]
  refine leads_bind (leads_bind (leads_get ?_))
  rw [hturn]
  refine leads_pure (leads_bind ((leads_currentEpoch h).mono ?_ ?_))
  · intro epoch r₁ hcur
    obtain ⟨hepoch, hsame, hheld⟩ := hcur
    rw [hlive.epoch] at hepoch
    cases hepoch
    refine leads_bind (leads_modify ?_)
    refine Leads.mono (leads_retryTerminal_new ?_ rfl hlive ?_ hnew) ?_ fun _ hr => hr
    · exact hheld
    · exact hsame.currentTurnId.trans hturn
    · intro _ r₂ hdone
      obtain ⟨hslots, hnone, hcurrent, e, hheld₂, hw⟩ := hdone
      refine ⟨?_, hnone, hcurrent, e, _, hheld₂, hw⟩
      intro slot
      rw [hslots slot, ← hsame.pending slot]
      cases slot <;> rfl
  · intro r₁ hcur
    rw [hlive.epoch] at hcur
    cases hcur.1

end Writes

/-! ### The recovery -/

/-- The recorder stores messages through the journal's `prepare_message`. -/
structure UsesStore (cfg : RecorderConfig) (store : ArtifactStore) : Prop where
  prepared : ∀ {message : Dict} {p : Prepared}, cfg.prepare message = .ok p →
    ∃ refs, prepareDict store message = .ok (p.message, refs)
  returns : ∀ {message : Dict}, Json.Canonical (.obj message) →
    prepareDict store message = .ok (message, []) → ∃ p, cfg.prepare message = .ok p

/-- Events of the recorder's own agent are events of the root. -/
def OwnRoot (cfg : RecorderConfig) (es : List SessionEvent) : Prop :=
  ∀ e ∈ es, e.agentId = some cfg.stamp.agentId → e.sub = false

/-- The batch that answers the missing calls, if there are any. -/
def IsBatch (epochId batchId : String) (latest : LatestTurn) (batch : List SessionEvent) : Prop :=
  latest.missing = [] ∧ batch = [] ∨
    latest.missing ≠ [] ∧ ∃ b, batch = [b] ∧ InTurn epochId latest.turn b ∧
      b.eventType = "tool.results" ∧
      b.payload = [("message", .obj (resultsMessage latest.missing)), ("batch_id", .str batchId)]

/-- The terminal of the turn, if it was open. -/
def IsClosing (epochId : String) (latest : LatestTurn) (closing : List SessionEvent) : Prop :=
  latest.turn.status ≠ .open ∧ closing = [] ∨
    latest.turn.status = .open ∧ ∃ t, closing = [t] ∧ InTurn epochId latest.turn t ∧
      (terminalStatus t.eventType).isSome = true

section Recovery

variable {cfg : RecorderConfig} {batch terminal : Call} {batchId : String}
  {durationMs : Option Nat} {r : Recorder} {es : List SessionEvent} {epochId : String}
  {store : ArtifactStore}

theorem leads_readLatestRootTurn {call : Call} (h : Held cfg.journal r.view es) :
    Leads (readLatestRootTurn cfg call) r
      (fun latest r' => (∃ epochId, lastEpoch es = some epochId ∧
        latest = latestRootTurn es epochId) ∧ Unchanged cfg es r r')
      fun r' => lastEpoch es = none ∧ Unchanged cfg es r r' := by
  refine leads_bind ((leads_readEvents h).mono ?_ fun _ hr => hr)
  intro events r₁ hread
  obtain ⟨rfl, hsame, hheld⟩ := hread
  refine leads_bind ((leads_currentEpoch hheld).mono ?_ ?_)
  · intro epoch r₂ hcur
    obtain ⟨hepoch, hsame₂, hheld₂⟩ := hcur
    refine leads_pure ⟨⟨epoch, hepoch, rfl⟩, ?_, hheld₂⟩
    rw [SameRecorder, hsame₂, hsame]
  · intro r₂ hcur
    obtain ⟨hepoch, hsame₂, hheld₂⟩ := hcur
    refine ⟨hepoch, ?_, hheld₂⟩
    rw [SameRecorder, hsame₂, hsame]

theorem canonicalItems_iff {xs : List Json} :
    Json.CanonicalItems xs ↔ ∀ x ∈ xs, Json.Canonical x := by
  induction xs with
  | nil => simp [Json.CanonicalItems]
  | cons x xs ih => rw [Json.CanonicalItems, ih, forall_mem_cons]

theorem canonical_block {message block : Dict} (h : Json.Canonical (.obj message))
    (hb : block ∈ messageBlocks message) : Json.Canonical (.obj block) := by
  rw [messageBlocks] at hb
  split at hb
  · rename_i xs hxs
    obtain ⟨x, hx, hblock⟩ := mem_filterMap.mp hb
    have hcanon : Json.Canonical x := canonicalItems_iff.mp (canonical_get? h hxs) x hx
    cases x with
    | obj fs =>
      cases hblock
      exact hcanon
    | _ => cases hblock
  · cases hb

variable {turn : TurnSummary} {latest : LatestTurn} {new closing : List SessionEvent}

/-- The unanswered calls of a log are values Python can hold. -/
theorem canonical_unanswered (h : Logged cfg.journal es) {call : Dict}
    (hc : call ∈ unansweredCalls (rootTurnEvents es epochId turn)) :
    Json.Canonical (.obj call) := by
  obtain ⟨⟨message, hm, hcall⟩, -⟩ := mem_unansweredCalls.mp hc
  obtain ⟨e, he, hstored⟩ := mem_filterMap.mp (mem_of_getLast? hm)
  have hmem := (mem_rootTurnEvents.mp (mem_filter.mp he).1).1
  refine canonical_block ?_ (mem_filter.mp hcall).1
  rw [storedMessage] at hstored
  obtain ⟨v, hv, hobj⟩ := Option.bind_eq_some_iff.mp hstored
  have hcanon := canonical_get? (h e hmem).1.payload hv
  cases v with
  | obj fs =>
    cases hobj
    exact hcanon
  | _ => cases hobj

theorem canonical_interruptedResult {call : Dict} (h : Json.Canonical (.obj call)) :
    Json.Canonical (.obj (interruptedResult call)) := by
  have hkind : Json.Canonical ((get? call "input_kind").getD (.str "json")) := by
    cases hk : get? call "input_kind" with
    | none => trivial
    | some v => exact canonical_get? h hk
  rw [interruptedResult]
  cases hid : (get? call "execution_id").filter truthy with
  | none =>
    refine ⟨by simp, canonicalFields_iff.mpr ?_⟩
    simp [hkind, Json.Canonical]
  | some id =>
    have hcanon := canonical_get? h (Option.filter_eq_some_iff.mp hid).1
    refine ⟨by simp, canonicalFields_iff.mpr ?_⟩
    simp [hkind, hcanon, Json.Canonical]

theorem canonical_resultsMessage {results : List Dict}
    (h : ∀ block ∈ results, Json.Canonical (.obj block)) :
    Json.Canonical (.obj (resultsMessage results)) := by
  refine ⟨nodup_keys_resultsMessage results, canonicalFields_iff.mpr ?_⟩
  have hitems : Json.Canonical (.arr (results.map .obj)) := by
    refine canonicalItems_iff.mpr ?_
    intro x hx
    obtain ⟨block, hb, rfl⟩ := mem_map.mp hx
    exact h block hb
  simp only [resultsMessage, forall_mem_cons, not_mem_nil, false_imp_iff, implies_true, and_true]
  exact ⟨trivial, hitems, trivial, nodup_nil, trivial⟩

/-- The message of the missing results is stored as it is. -/
theorem prepare_missing (hstore : UsesStore cfg store) {calls : List Dict}
    (hcanon : ∀ call ∈ calls, Json.Canonical (.obj call)) :
    ∃ p, cfg.prepare (resultsMessage (calls.map interruptedResult)) = .ok p ∧
      p.message = resultsMessage (calls.map interruptedResult) := by
  have hshort : ∀ block ∈ calls.map interruptedResult, ShortResult block := by
    intro block hb
    obtain ⟨call, -, rfl⟩ := mem_map.mp hb
    exact shortResult_interruptedResult call
  have hdict : prepareDict store (resultsMessage (calls.map interruptedResult)) = .ok (_, []) :=
    prepareDict_results (nodup_keys_resultsMessage _) (get?_content_resultsMessage _) hshort
  have hmessage : Json.Canonical (.obj (resultsMessage (calls.map interruptedResult))) := by
    refine canonical_resultsMessage ?_
    intro block hb
    obtain ⟨call, hc, rfl⟩ := mem_map.mp hb
    exact canonical_interruptedResult (hcanon call hc)
  obtain ⟨p, hp⟩ := hstore.returns hmessage hdict
  obtain ⟨refs, hprep⟩ := hstore.prepared hp
  rw [hdict] at hprep
  exact ⟨p, hp, (congrArg Prod.fst (Except.ok.inj hprep)).symm⟩

theorem live_of_latest (hlast : lastEpoch es = some epochId)
    (hturn : (collectEpochTurns es epochId).getLast? = some turn) :
    Live cfg es epochId turn.turnId :=
  ⟨hlast, fun _ => mem_map_of_mem (mem_of_getLast? hturn)⟩

theorem no_terminal_item (hrec : Kept es) (hown : OwnRoot cfg es)
    (hturn : turn ∈ collectEpochTurns es epochId) (hopen : turn.status = .open) :
    Item.terminal epochId turn.turnId ∉ items cfg.stamp.agentId es := by
  intro hmem
  obtain ⟨x, hx, hitem⟩ := mem_filterMap.mp hmem
  obtain ⟨hagent, hid, hepoch, hterm⟩ := itemOf_eq_terminal.mp hitem
  have hclosed := (hrec.closed_iff hturn).mpr ⟨x, hx, hepoch, hown x hx hagent, hid, hterm⟩
  exact hclosed hopen

/-- The batch is written into the latest turn, or there is none to write. -/
theorem leads_repair (hroot : cfg.stamp.depth = 0) (hstore : UsesStore cfg store)
    (h : Held cfg.journal r.view es) (hrec : Kept es) (hs : r.settled)
    (hlast : lastEpoch es = some epochId) (hlatest : latestRootTurn es epochId = some latest)
    (hturn : r.currentTurnId = none ∨ r.currentTurnId = some latest.turn.turnId)
    (hnew : ∀ epochId turnId,
      Item.message .toolResults batchId epochId turnId ∉ items cfg.stamp.agentId es) :
    Leads (repairInterruptedToolResults cfg batch batchId false) r
      (fun _ r' => r'.settled ∧ r'.currentTurnId = r.currentTurnId ∧
        ∃ new, Held cfg.journal r'.view (es ++ new) ∧ IsBatch epochId batchId latest new)
      fun r' => Keeps cfg es r' ∧
        (Smooth batch → ¬ Restores cfg .toolResults (resultsMessage latest.missing)) := by
  obtain ⟨turn, hlastTurn, rfl⟩ : ∃ turn, (collectEpochTurns es epochId).getLast? = some turn ∧ _ :=
    Option.map_eq_some_iff.mp hlatest
  have hprepare : ∃ p, cfg.prepare (resultsMessage ((unansweredCalls (rootTurnEvents es epochId
      turn)).map interruptedResult)) = .ok p ∧ p.message = _ :=
    prepare_missing hstore fun call hc => canonical_unanswered h.logged hc
  rw [repairInterruptedToolResults, if_neg (not_not.mpr hroot)]
  refine leads_bind (leads_get ?_)
  rw [hs.2.1, hs.1]
  simp only [Option.isSome_none, Bool.false_eq_true, if_false]
  refine leads_bind ((leads_readLatestRootTurn h).mono ?_ ?_)
  · intro found r₁ hread
    obtain ⟨⟨epoch, hepoch, rfl⟩, hsame, hheld⟩ := hread
    rw [hlast] at hepoch
    cases hepoch
    rw [hlatest]
    simp only
    have hs₁ : r₁.settled := by
      rw [hsame]
      exact hs
    split
    · rename_i hmissing
      refine leads_pure ⟨hs₁, hsame.currentTurnId, [], ?_, .inl ⟨hmissing, rfl⟩⟩
      rwa [append_nil]
    · rename_i hmissing
      refine leads_bind ((leads_currentEpoch hheld).mono ?_ ?_)
      · intro epoch r₂ hcur
        obtain ⟨hepoch, hsame₂, hheld₂⟩ := hcur
        rw [hlast] at hepoch
        cases hepoch
        refine leads_bind (leads_modify (leads_bind (leads_get ?_)))
        simp only [Recorder.pending]
        have hcurrent : r₂.currentTurnId = r.currentTurnId :=
          hsame₂.currentTurnId.trans hsame.currentTurnId
        refine Leads.mono (leads_retry_new ?_ rfl (live_of_latest hlast hlastTurn) ?_
          (hnew _ _)) ?_ ?_
        · exact hheld₂
        · show r₂.currentTurnId = none ∨ r₂.currentTurnId = some turn.turnId
          rw [hcurrent]
          exact hturn
        · intro _ r₃ hdone
          obtain ⟨hframe, hnone, prepared, e, hprep, hheld₃, hw⟩ := hdone
          obtain ⟨p, hp, hmessage⟩ := hprepare
          have hpp : prepared = p := Except.ok.inj (hprep.symm.trans hp)
          rw [hpp, hmessage] at hw
          have hseq := nextAfter_of_numbered hheld₃.numbered
          refine ⟨⟨hnone, ?_, ?_⟩, hframe.currentTurnId.trans hcurrent, [e], hheld₃,
            .inr ⟨hmissing, e, rfl, ?_, hw.eventType, hw.payload⟩⟩
          · refine (hframe.other .assistant (by decide)).trans ?_
            show r₂.pendingAssistant = none
            rw [hsame₂]
            exact hs₁.2.1
          · refine hframe.terminal.trans ?_
            show r₂.pendingTurnTerminal = none
            rw [hsame₂]
            exact hs₁.2.2
          · exact hw.inTurn hroot (epoch_ne h.logged hlast) hrec (mem_of_getLast? hlastTurn)
              hseq
        · intro r₃ hraised
          refine ⟨hraised.1, ?_⟩
          intro hsmooth
          obtain ⟨p, hp, hmessage⟩ := hprepare
          rcases hraised.2 hsmooth with ⟨text, hprep⟩ | ⟨prepared, hprep, stored, hstored, hnot⟩
          · rw [hp] at hprep
            cases hprep
          · have hpp : prepared = p := Except.ok.inj (hprep.symm.trans hp)
            rw [hpp, hmessage] at hstored
            cases hstored
            exact hnot
      · intro r₂ hcur
        rw [hlast] at hcur
        cases hcur.1
  · intro r₁ hread
    rw [hlast] at hread
    cases hread.1

/-- What a recovery that returns has done to the log. -/
def RecoveredLog (cfg : RecorderConfig) (batchId : String) (es : List SessionEvent)
    (epochId : String) (r' : Recorder) : Prop :=
  match latestRootTurn es epochId with
  | none => Held cfg.journal r'.view es
  | some latest => ∃ new closing, Held cfg.journal r'.view (es ++ new ++ closing) ∧
      IsBatch epochId batchId latest new ∧ IsClosing epochId latest closing

theorem IsBatch.kept (hb : IsBatch epochId batchId latest new) (hrec : Kept es)
    (hlast : lastEpoch es = some epochId) (hlatest : latestRootTurn es epochId = some latest)
    (hn : Numbered 1 (es ++ new)) :
    Kept (es ++ new) ∧ lastEpoch (es ++ new) = some epochId ∧
      (collectEpochTurns (es ++ new) epochId).getLast? = some latest.turn := by
  obtain ⟨turn, hturn, rfl⟩ : ∃ turn, (collectEpochTurns es epochId).getLast? = some turn ∧ _ :=
    Option.map_eq_some_iff.mp hlatest
  rcases hb with ⟨-, rfl⟩ | ⟨-, b, rfl, hin, ht, hp⟩
  · rw [append_nil]
    exact ⟨hrec, hlast, hturn⟩
  · refine ⟨hrec.batch hin hlast hturn ht hp (nextAfter_of_numbered hn), ?_, ?_⟩
    · rw [lastEpoch_append, if_neg (by simp [ht])]
      exact hlast
    · rw [collectEpochTurns_results ht]
      exact hturn

theorem IsBatch.terminal_mem (hb : IsBatch epochId batchId latest new) {agentId turnId : String}
    (h : .terminal epochId turnId ∈ items agentId (es ++ new)) :
    .terminal epochId turnId ∈ items agentId es := by
  rcases hb with ⟨-, rfl⟩ | ⟨-, b, rfl, hin, ht, -⟩
  · rwa [append_nil] at h
  · rw [items_snoc, mem_append] at h
    rcases h with h | h
    · exact h
    · have hterm := (itemOf_eq_terminal.mp (Option.mem_toList.mp h)).2.2.2
      rw [ht] at hterm
      cases hterm

theorem leads_closeInterruptedTurn (hroot : cfg.stamp.depth = 0) (h : Held cfg.journal r.view es)
    (hrec : Kept es) (hlast : lastEpoch es = some epochId)
    (hturn : (collectEpochTurns es epochId).getLast? = some turn) (hs : r.settled)
    (hcur : r.currentTurnId = some turn.turnId)
    (hnew : Item.terminal epochId turn.turnId ∉ items cfg.stamp.agentId es)
    (lastAssistant : Option Dict) :
    Leads (closeInterruptedTurn cfg terminal lastAssistant durationMs) r
      (fun _ r' => r'.settled ∧ r'.currentTurnId = none ∧ ∃ t,
        Held cfg.journal r'.view (es ++ [t]) ∧ InTurn epochId turn t ∧
          (terminalStatus t.eventType).isSome = true)
      fun r' => Keeps cfg es r' ∧ ¬ Smooth terminal := by
  have hfinish : ∀ ending error, Leads (finishTurn cfg terminal ending durationMs error none) r
      (fun _ r' => r'.settled ∧ r'.currentTurnId = none ∧ ∃ t,
        Held cfg.journal r'.view (es ++ [t]) ∧ InTurn epochId turn t ∧
          (terminalStatus t.eventType).isSome = true)
      fun r' => Keeps cfg es r' ∧ ¬ Smooth terminal := by
    intro ending error
    refine (leads_finish_new h hs.2.2 hcur (live_of_latest hlast hturn) hnew).mono ?_
      fun _ hr => hr
    intro _ r' hdone
    obtain ⟨hslots, hnone, hcurrent, t, payload, hheld, hw⟩ := hdone
    have htool : r'.pendingToolResults = none := (hslots .toolResults).trans hs.1
    have hassistant : r'.pendingAssistant = none := (hslots .assistant).trans hs.2.1
    refine ⟨⟨htool, hassistant, hnone⟩, hcurrent, t, hheld, ?_, ?_⟩
    · exact hw.inTurn hroot (epoch_ne h.logged hlast) hrec (mem_of_getLast? hturn)
        (nextAfter_of_numbered hheld.numbered)
    · rw [hw.eventType]
      exact terminalStatus_ending ending
  rw [closeInterruptedTurn]
  split
  · exact hfinish _ _
  · exact hfinish _ _

/-- **What a recovery does**, whether it returns or raises. -/
theorem leads_recover (hroot : cfg.stamp.depth = 0) (hstore : UsesStore cfg store)
    (h : Held cfg.journal r.view es) (hrec : Kept es) (hown : OwnRoot cfg es)
    (hs : r.settled) (hcur : r.currentTurnId = none)
    (hnew : ∀ epochId turnId,
      Item.message .toolResults batchId epochId turnId ∉ items cfg.stamp.agentId es) :
    Leads (recoverInterruptedTurn cfg batch terminal batchId durationMs) r
      (fun _ r' => r'.settled ∧ r'.currentTurnId = none ∧ ∃ epochId,
        lastEpoch es = some epochId ∧ RecoveredLog cfg batchId es epochId r')
      fun r' => Keeps cfg es r' ∧ (Smooth batch → Smooth terminal → lastEpoch es = none ∨
        ∃ results, (∀ block ∈ results, ShortResult block) ∧
          ¬ Restores cfg .toolResults (resultsMessage results)) := by
  rw [recoverInterruptedTurn, if_neg (not_not.mpr hroot)]
  refine leads_bind ((leads_readLatestRootTurn h).mono ?_ ?_)
  · intro found r₁ hread
    obtain ⟨⟨epochId, hlast, rfl⟩, hsame, hheld⟩ := hread
    have hs₁ : r₁.settled := by
      rw [hsame]
      exact hs
    have hcur₁ : r₁.currentTurnId = none := hsame.currentTurnId.trans hcur
    cases hlatest : latestRootTurn es epochId with
    | none =>
      refine leads_pure ⟨hs₁, hcur₁, epochId, hlast, ?_⟩
      rw [RecoveredLog, hlatest]
      exact hheld
    | some latest =>
      simp only
      obtain ⟨turn, hturn, hlatestEq⟩ : ∃ turn,
          (collectEpochTurns es epochId).getLast? = some turn ∧ _ :=
        Option.map_eq_some_iff.mp hlatest
      have hturnEq : latest.turn = turn := by
        rw [← hlatestEq]
      have hshort : ∀ block ∈ latest.missing, ShortResult block := by
        rw [← hlatestEq]
        intro block hb
        obtain ⟨call, -, rfl⟩ := mem_map.mp hb
        exact shortResult_interruptedResult call
      split
      · rename_i hdone
        refine leads_pure ⟨hs₁, hcur₁, epochId, hlast, ?_⟩
        rw [RecoveredLog, hlatest]
        refine ⟨[], [], ?_, .inl ⟨hdone.2, rfl⟩, .inl ⟨hdone.1, rfl⟩⟩
        rwa [append_nil, append_nil]
      · -- the two halves: the batch, then the terminal of an open turn
        have hrepair : ∀ r₂ : Recorder, Held cfg.journal r₂.view es → r₂.settled →
            (r₂.currentTurnId = none ∨ r₂.currentTurnId = some latest.turn.turnId) →
            Leads (repairInterruptedToolResults cfg batch batchId false) r₂
              (fun _ r' => r'.settled ∧ r'.currentTurnId = r₂.currentTurnId ∧
                ∃ new, Held cfg.journal r'.view (es ++ new) ∧
                  IsBatch epochId batchId latest new)
              fun r' => Keeps cfg es r' ∧ (Smooth batch → Smooth terminal →
                lastEpoch es = none ∨ ∃ results, (∀ block ∈ results, ShortResult block) ∧
                  ¬ Restores cfg .toolResults (resultsMessage results)) := by
          intro r₂ hheld₂ hs₂ hturn₂
          refine (leads_repair hroot hstore hheld₂ hrec hs₂ hlast hlatest hturn₂ hnew).mono
            (fun _ _ h => h) ?_
          intro r₃ hraised
          exact ⟨hraised.1, fun hb _ => .inr ⟨latest.missing, hshort, hraised.2 hb⟩⟩
        by_cases hopen : latest.turn.status = .open
        · simp only [hopen, if_true]
          refine leads_bind (leads_modify (leads_bind (Leads.mono (hrepair _ ?_ ?_ ?_) ?_
            fun _ hr => hr)))
          · exact hheld
          · exact hs₁
          · exact .inr rfl
          · intro _ r₃ hdone
            obtain ⟨hs₃, hcur₃, new, hheld₃, hb⟩ := hdone
            obtain ⟨hrec₃, hlast₃, hturn₃⟩ := hb.kept hrec hlast hlatest hheld₃.numbered
            have hnone : Item.terminal epochId latest.turn.turnId ∉
                items cfg.stamp.agentId (es ++ new) := by
              intro hmem
              refine no_terminal_item hrec hown ?_ hopen (hb.terminal_mem hmem)
              rw [hturnEq]
              exact mem_of_getLast? hturn
            refine leads_bind ((leads_closeInterruptedTurn hroot hheld₃ hrec₃ hlast₃ hturn₃ hs₃
              hcur₃ hnone latest.lastAssistant).mono ?_ ?_)
            · intro _ r₄ hdone
              obtain ⟨hs₄, hcur₄, t, hheld₄, hin, hterm⟩ := hdone
              refine leads_pure ⟨hs₄, hcur₄, epochId, hlast, ?_⟩
              rw [RecoveredLog, hlatest]
              exact ⟨new, [t], hheld₄, hb, .inr ⟨hopen, t, rfl, hin, hterm⟩⟩
            · intro r₄ hraised
              refine ⟨?_, fun _ hsmooth => absurd hsmooth hraised.2⟩
              obtain ⟨later, hheld₄⟩ := hraised.1
              rw [append_assoc] at hheld₄
              exact ⟨_, hheld₄⟩
        · simp only [hopen, if_false]
          refine leads_bind ((hrepair r₁ hheld hs₁ (.inl hcur₁)).mono ?_ fun _ hr => hr)
          intro _ r₃ hdone
          obtain ⟨hs₃, hcur₃, new, hheld₃, hb⟩ := hdone
          refine leads_pure ⟨hs₃, hcur₃.trans hcur₁, epochId, hlast, ?_⟩
          rw [RecoveredLog, hlatest]
          refine ⟨new, [], ?_, hb, .inl ⟨hopen, rfl⟩⟩
          rwa [append_nil]
  · intro r₁ hread
    exact ⟨keeps_self hread.2.2, fun _ _ => .inl hread.1⟩

/-! ### What is true of the recovered log -/

/-- The calls of the assistant messages in the log have strings for ids. -/
def StringIds (es : List SessionEvent) : Prop :=
  ∀ e ∈ es, e.eventType = "assistant.message" → ∀ message, storedMessage e = some message →
    ∀ call ∈ toolCallBlocks message, HasStringId call

/-- The log `es'` is a recovery of `es`, in its latest turn. -/
structure TurnRecovered (es es' : List SessionEvent) (epochId : String) (turn : TurnSummary) :
    Prop where
  terminal : turn.status ≠ .open ∧ ∃ x ∈ es', IsTerminal epochId turn.turnId x
  answered : ∀ message, (assistantMessages (rootTurnEvents es' epochId turn)).getLast? =
    some message → ∀ call ∈ toolCallBlocks message,
      resultsFor (rootTurnEvents es' epochId turn) call ≠ []
  asked : assistantMessages (rootTurnEvents es' epochId turn) =
    assistantMessages (rootTurnEvents es epochId turn)
  added : resultBlocks (rootTurnEvents es' epochId turn) =
    resultBlocks (rootTurnEvents es epochId turn) ++
      (unansweredCalls (rootTurnEvents es epochId turn)).map interruptedResult
  once : (turnCalls (rootTurnEvents es epochId turn)).Pairwise Apart →
    (∀ call ∈ turnCalls (rootTurnEvents es epochId turn),
      (resultsFor (rootTurnEvents es epochId turn) call).length = 1 ∨
        call ∈ unansweredCalls (rootTurnEvents es epochId turn)) →
    ∀ call ∈ turnCalls (rootTurnEvents es' epochId turn),
      (resultsFor (rootTurnEvents es' epochId turn) call).length = 1
  replayed : ∀ hydrate st, replayState hydrate es' = .ok st →
    ∀ e ∈ rootTurnEvents es' epochId turn, e.eventType ∈ ["assistant.message", "tool.results"] →
      e.seq ∈ st.messages.map Prod.fst

theorem rootTurnEvents_congr {turn' : TurnSummary} (hid : turn'.turnId = turn.turnId)
    (hseq : turn'.boundarySeq = turn.boundarySeq) (xs : List SessionEvent) :
    rootTurnEvents xs epochId turn' = rootTurnEvents xs epochId turn := by
  rw [rootTurnEvents, rootTurnEvents, hid, hseq]

/-- The messages of the latest turn are in the replayed history. -/
theorem Kept.replayed (h : Kept es) (hlast : lastEpoch es = some epochId)
    (hturn : turn ∈ collectEpochTurns es epochId) {hydrate : Dict → Except String Dict}
    {st : ReplayState} (hst : replayState hydrate es = .ok st)
    (he : e ∈ rootTurnEvents es epochId turn)
    (ht : e.eventType ∈ ["assistant.message", "tool.results"]) :
    e.seq ∈ st.messages.map Prod.fst := by
  obtain ⟨hmem, hin⟩ := mem_rootTurnEvents.mp he
  obtain ⟨archived, -, hst⟩ := bind_eq_ok.mp hst
  have hadd : AddsMessage e := by
    refine ⟨hin.root, ?_, ?_⟩
    · simp only [mem_cons, not_mem_nil, or_false] at ht
      rcases ht with ht | ht <;> simp [ht, messageEvents]
    · intro hc
      rw [hc.1] at ht
      simp at ht
  have harch : ¬ (e.eventType = "context.message" ∧ isArchived archived e = true) := by
    intro hc
    rw [hc.1] at ht
    simp at ht
  obtain ⟨front, rest, rfl⟩ := append_of_mem hmem
  refine (listed_iff_survives h hadd (hin.epochId ▸ hlast) hin.turnId harch hst).mp ?_
  rw [hin.epochId]
  exact mem_map_of_mem hturn

/-- The two events a recovery appends, seen from the latest turn. -/
theorem recovered_blocks (hlatest : latestRootTurn es epochId = some latest) (hids : StringIds es)
    (hb : IsBatch epochId batchId latest new) (hc : IsClosing epochId latest closing) :
    assistantMessages (rootTurnEvents (es ++ new ++ closing) epochId latest.turn) =
        assistantMessages (rootTurnEvents es epochId latest.turn) ∧
      resultBlocks (rootTurnEvents (es ++ new ++ closing) epochId latest.turn) =
        resultBlocks (rootTurnEvents es epochId latest.turn) ++
          (unansweredCalls (rootTurnEvents es epochId latest.turn)).map interruptedResult := by
  obtain ⟨turn, hturn, rfl⟩ : ∃ turn, (collectEpochTurns es epochId).getLast? = some turn ∧ _ :=
    Option.map_eq_some_iff.mp hlatest
  have hnew : assistantMessages (rootTurnEvents (es ++ new) epochId turn) =
        assistantMessages (rootTurnEvents es epochId turn) ∧
      resultBlocks (rootTurnEvents (es ++ new) epochId turn) =
        resultBlocks (rootTurnEvents es epochId turn) ++
          (unansweredCalls (rootTurnEvents es epochId turn)).map interruptedResult := by
    rcases hb with ⟨hmissing, rfl⟩ | ⟨-, b, rfl, hin, ht, hp⟩
    · have hmissing : (unansweredCalls (rootTurnEvents es epochId turn)).map interruptedResult =
          [] := hmissing
      rw [append_nil, hmissing, append_nil]
      exact ⟨rfl, rfl⟩
    · have hstored : storedMessage b = some (resultsMessage
          ((unansweredCalls (rootTurnEvents es epochId turn)).map interruptedResult)) := by
        rw [storedMessage, hp]
        rfl
      have hcalls : ∀ call ∈ unansweredCalls (rootTurnEvents es epochId turn),
          ∃ id, get? call "id" = some (.str id) ∧ id ≠ "" := by
        intro call hcall
        obtain ⟨⟨message, hm, hcall⟩, -⟩ := mem_unansweredCalls.mp hcall
        obtain ⟨e, he, hmsg⟩ := mem_filterMap.mp (mem_of_getLast? hm)
        obtain ⟨he, htype⟩ := mem_filter.mp he
        rw [decide_eq_true_eq] at htype
        have hid := hids e (mem_rootTurnEvents.mp he).1 htype message hmsg call hcall
        exact id_ne_of_truthy (toolCallBlocks_id hcall) hid
      rw [rootTurnEvents_snoc hin, assistantMessages_snoc _ (by rw [ht]; decide),
        resultBlocks_snoc, resultBlocks_interrupted ht hstored hcalls]
      exact ⟨rfl, rfl⟩
  rcases hc with ⟨-, rfl⟩ | ⟨-, t, rfl, hin, hterm⟩
  · rw [append_nil]
    exact hnew
  · have hta : t.eventType ≠ "assistant.message" := by
      intro h
      rw [h] at hterm
      cases hterm
    have htr : t.eventType ≠ "tool.results" := by
      intro h
      rw [h] at hterm
      cases hterm
    rw [rootTurnEvents_snoc hin, assistantMessages_snoc _ hta, resultBlocks_snoc,
      resultBlocks_other htr, append_nil]
    exact hnew

theorem stringId_turnCalls (hids : StringIds es) {call : Dict}
    (h : call ∈ turnCalls (rootTurnEvents es epochId turn)) : HasStringId call := by
  obtain ⟨message, hm, hcall⟩ := mem_flatMap.mp h
  obtain ⟨e, he, hmsg⟩ := mem_filterMap.mp hm
  obtain ⟨he, htype⟩ := mem_filter.mp he
  rw [decide_eq_true_eq] at htype
  exact hids e (mem_rootTurnEvents.mp he).1 htype message hmsg call hcall

theorem resultsFor_added {xs ys : List SessionEvent} {calls : List Dict}
    (h : resultBlocks ys = resultBlocks xs ++ calls.map interruptedResult) (call : Dict) :
    resultsFor ys call = resultsFor xs call ++
      (calls.filter fun call' => answers (interruptedResult call') call).map interruptedResult := by
  rw [resultsFor, h, filter_append, filter_map]
  rfl

/-- **What a recovery leaves of the latest turn.** -/
theorem turnRecovered (hrec : Kept es) (hlast : lastEpoch es = some epochId)
    (hlatest : latestRootTurn es epochId = some latest) (hids : StringIds es)
    (hb : IsBatch epochId batchId latest new) (hc : IsClosing epochId latest closing)
    (hn : Numbered 1 (es ++ new ++ closing)) :
    ∃ turn, (collectEpochTurns (es ++ new ++ closing) epochId).getLast? = some turn ∧
      turn.key = latest.turn.key ∧
      TurnRecovered es (es ++ new ++ closing) epochId turn ∧
      unansweredCalls (rootTurnEvents (es ++ new ++ closing) epochId turn) = [] ∧
      lastEpoch (es ++ new ++ closing) = some epochId := by
  obtain ⟨hassistant, hresults⟩ := recovered_blocks hlatest hids hb hc
  -- the recovery keeps the log one that a recorder writes, and its last turn closed
  have hlog : Kept (es ++ new ++ closing) ∧
      lastEpoch (es ++ new ++ closing) = some epochId ∧
      ∃ turn, (collectEpochTurns (es ++ new ++ closing) epochId).getLast? = some turn ∧
        turn.turnId = latest.turn.turnId ∧ turn.boundarySeq = latest.turn.boundarySeq ∧
        turn.status ≠ .open := by
    obtain ⟨hrec', hlast', hturn'⟩ := hb.kept hrec hlast hlatest (numbered_append.mp hn).1
    rcases hc with ⟨hclosed, rfl⟩ | ⟨-, t, rfl, hin, hterm⟩
    · rw [append_nil]
      exact ⟨hrec', hlast', latest.turn, hturn', rfl, rfl, hclosed⟩
    · obtain ⟨status, hstatus⟩ := Option.isSome_iff_exists.mp hterm
      refine ⟨hrec'.terminal hin hlast' hterm (nextAfter_of_numbered hn), ?_, _,
        getLast?_terminal hin hstatus hturn', rfl, rfl, terminalStatus_ne_open hstatus⟩
      have htype : t.eventType ≠ "context.epoch_started" := by
        intro h
        rw [h] at hterm
        cases hterm
      rw [lastEpoch_append, if_neg htype]
      exact hlast'
  obtain ⟨hrec', hlast', turn, hturn, hid, hseq, hclosed⟩ := hlog
  have hmem := mem_of_getLast? hturn
  rw [← rootTurnEvents_congr hid hseq, ← rootTurnEvents_congr hid hseq] at hassistant
  rw [← rootTurnEvents_congr hid hseq, ← rootTurnEvents_congr hid hseq] at hresults
  have hfor := resultsFor_added hresults
  have hanswered : ∀ message,
      (assistantMessages (rootTurnEvents (es ++ new ++ closing) epochId turn)).getLast? =
        some message → ∀ call ∈ toolCallBlocks message,
        resultsFor (rootTurnEvents (es ++ new ++ closing) epochId turn) call ≠ [] := by
    intro message hm call hcall
    rw [hassistant] at hm
    rw [hfor call]
    by_cases hnone : resultsFor (rootTurnEvents es epochId turn) call = []
    · have hun : call ∈ unansweredCalls (rootTurnEvents es epochId turn) :=
        mem_unansweredCalls.mpr ⟨⟨message, hm, hcall⟩, hnone⟩
      have hstr := stringId_turnCalls hids ((unansweredCalls_sublist _).subset hun)
      refine append_ne_nil_of_right_ne_nil _ ?_
      refine ne_nil_of_mem (mem_map_of_mem (mem_filter.mpr ⟨hun, ?_⟩))
      exact answers_interruptedResult hstr
    · exact append_ne_nil_of_left_ne_nil hnone _
  refine ⟨turn, hturn, Prod.ext hseq hid, ⟨?_, hanswered, hassistant, hresults, ?_, ?_⟩, ?_, hlast'⟩
  · exact ⟨hclosed, (hrec'.closed_iff hmem).mp hclosed⟩
  · intro hapart hbefore call hcall
    have hcall : call ∈ turnCalls (rootTurnEvents es epochId turn) := by
      rw [turnCalls, hassistant] at hcall
      exact hcall
    rw [hfor call, length_append, length_map]
    by_cases hun : call ∈ unansweredCalls (rootTurnEvents es epochId turn)
    · have hsub := unansweredCalls_sublist (rootTurnEvents es epochId turn)
      rw [filter_answers_eq (hapart.sublist hsub)
        (fun c hc => stringId_turnCalls hids (hsub.subset hc)) hun, (mem_unansweredCalls.mp hun).2]
      rfl
    · rw [filter_answers_nil hapart hcall hun]
      exact (hbefore call hcall).resolve_right hun
  · intro hydrate st hst e he ht
    exact hrec'.replayed hlast' hmem hst he ht
  · rw [eq_nil_iff_forall_not_mem]
    intro call hcall
    obtain ⟨⟨message, hm, hcall⟩, hnone⟩ := mem_unansweredCalls.mp hcall
    exact hanswered message hm call hcall hnone

/-- A recovery that finds nothing to do. -/
theorem leads_recover_again {es' : List SessionEvent} (hroot : cfg.stamp.depth = 0)
    (h : Held cfg.journal r.view es') (hlast : lastEpoch es' = some epochId)
    (hdone : ∀ turn, (collectEpochTurns es' epochId).getLast? = some turn →
      turn.status ≠ .open ∧ unansweredCalls (rootTurnEvents es' epochId turn) = []) :
    Leads (recoverInterruptedTurn cfg batch terminal batchId durationMs) r
      (fun found r' => found = false ∧ Unchanged cfg es' r r') fun _ => False := by
  rw [recoverInterruptedTurn, if_neg (not_not.mpr hroot)]
  refine leads_bind ((leads_readLatestRootTurn h).mono ?_ ?_)
  · intro found r₁ hread
    obtain ⟨⟨epoch, hepoch, rfl⟩, hsame⟩ := hread
    rw [hlast] at hepoch
    cases hepoch
    rw [latestRootTurn]
    cases hturn : (collectEpochTurns es' epochId).getLast? with
    | none => exact leads_pure ⟨rfl, hsame⟩
    | some turn =>
      obtain ⟨hclosed, hnone⟩ := hdone turn hturn
      simp only [Option.map_some, hnone, map_nil]
      rw [if_pos ⟨hclosed, trivial⟩]
      exact leads_pure ⟨rfl, hsame⟩
  · intro r₁ hread
    rw [hlast] at hread
    cases hread.1

/-- **Recovery of an interrupted turn.**  For every log a recorder left, a recovery that raises
keeps the log; it returns if its writes are not disturbed; and then its latest turn has a terminal,
its last assistant message has a result for every call, and no later recovery appends anything. -/
theorem recover_interrupted (hroot : cfg.stamp.depth = 0) (hstore : UsesStore cfg store)
    (h : Held cfg.journal r.view es) (hrec : Kept es) (hown : OwnRoot cfg es)
    (hids : StringIds es) (hs : r.settled) (hcur : r.currentTurnId = none)
    (hnew : ∀ epochId turnId,
      Item.message .toolResults batchId epochId turnId ∉ items cfg.stamp.agentId es) :
    (∀ text r', recoverInterruptedTurn cfg batch terminal batchId durationMs r = .error text r' →
      Keeps cfg es r') ∧
    (Smooth batch → Smooth terminal → lastEpoch es ≠ none →
      (∀ results, (∀ block ∈ results, ShortResult block) →
        Restores cfg .toolResults (resultsMessage results)) →
      ∃ found r', recoverInterruptedTurn cfg batch terminal batchId durationMs r =
        .ok found r') ∧
    ∀ found r', recoverInterruptedTurn cfg batch terminal batchId durationMs r = .ok found r' →
      ∃ new epochId, Held cfg.journal r'.view (es ++ new) ∧
        lastEpoch (es ++ new) = some epochId ∧
        (∀ turn, (collectEpochTurns (es ++ new) epochId).getLast? = some turn →
          TurnRecovered es (es ++ new) epochId turn) ∧
        ∀ (batch' terminal' : Call) batchId' durationMs' r₂,
          Held cfg.journal r₂.view (es ++ new) →
          ∃ r₃, recoverInterruptedTurn cfg batch' terminal' batchId' durationMs' r₂ =
            .ok false r₃ ∧ Unchanged cfg (es ++ new) r₂ r₃ := by
  have hleads : Leads (recoverInterruptedTurn cfg batch terminal batchId durationMs) r _ _ :=
    leads_recover hroot hstore h hrec hown hs hcur hnew
  refine ⟨fun text r' hx => (hleads.of_error hx).1, ?_, ?_⟩
  · intro hb ht hlast hres
    obtain ⟨found, r', hx, -⟩ := hleads.returns (by
      intro r' hraised
      rcases hraised.2 hb ht with hnone | ⟨results, hshort, hnot⟩
      · exact hlast hnone
      · exact hnot (hres results hshort))
    exact ⟨found, r', hx⟩
  · intro found r' hx
    obtain ⟨-, -, epochId, hlast, hlog⟩ := hleads.of_ok hx
    rw [RecoveredLog] at hlog
    cases hlatest : latestRootTurn es epochId with
    | none =>
      rw [hlatest] at hlog
      have hnone : (collectEpochTurns es epochId).getLast? = none := Option.map_eq_none_iff.mp hlatest
      refine ⟨[], epochId, ?_, ?_, ?_, ?_⟩
      · rwa [append_nil]
      · rwa [append_nil]
      · intro turn hturn
        rw [append_nil, hnone] at hturn
        cases hturn
      · intro batch' terminal' batchId' durationMs' r₂ hheld
        rw [append_nil] at hheld ⊢
        have hagain : Leads (recoverInterruptedTurn cfg batch' terminal' batchId' durationMs') r₂
            (fun found r' => found = false ∧ Unchanged cfg es r₂ r') fun _ => False :=
          leads_recover_again hroot hheld hlast (by simp [hnone])
        obtain ⟨found, r₃, hx, rfl, hu⟩ := hagain.returns fun _ h => h
        exact ⟨r₃, hx, hu⟩
    | some latest =>
      rw [hlatest] at hlog
      obtain ⟨new, closing, hheld, hb, hc⟩ := hlog
      obtain ⟨turn, hturn, -, hrecovered, hnone, hlast'⟩ :=
        turnRecovered hrec hlast hlatest hids hb hc hheld.numbered
      rw [append_assoc] at hheld hturn hrecovered hnone hlast'
      refine ⟨new ++ closing, epochId, hheld, hlast', ?_, ?_⟩
      · intro turn' hturn'
        have heq : turn = turn' := Option.some.inj (hturn.symm.trans hturn')
        exact heq ▸ hrecovered
      · intro batch' terminal' batchId' durationMs' r₂ hheld₂
        have hagain : Leads (recoverInterruptedTurn cfg batch' terminal' batchId' durationMs') r₂
            (fun found r' => found = false ∧ Unchanged cfg (es ++ (new ++ closing)) r₂ r')
            fun _ => False := by
          refine leads_recover_again hroot hheld₂ hlast' ?_
          intro turn' hturn'
          have heq : turn = turn' := Option.some.inj (hturn.symm.trans hturn')
          exact heq ▸ ⟨hrecovered.terminal.1, hnone⟩
        obtain ⟨found, r₃, hx, rfl, hu⟩ := hagain.returns fun _ h => h
        exact ⟨r₃, hx, hu⟩

end Recovery

/-! ### A call without a result -/

/-- A call of a tool. -/
def shellCall : Dict :=
  [("type", .str "tool_call"), ("id", .str "call-1"), ("name", .str "shell"),
    ("input", .obj []), ("execution_id", .str "execution-1"), ("input_kind", .str "json")]

/-- The model asks for the tool, and the process stops. -/
def askEvent : SessionEvent :=
  { createdEvent with
    eventId := "event-3"
    seq := 3
    turnId := some "turn-1"
    actor := "assistant"
    eventType := "assistant.message"
    payload := [("message", .obj [("role", .str "assistant"),
      ("content", .arr [.obj shellCall])]), ("message_id", .str "message-1")] }

/-- A second assistant message, before the tool has answered. -/
def noticeEvent : SessionEvent :=
  { askEvent with
    eventId := "event-4"
    seq := 4
    payload := [("message", .obj [("role", .str "assistant"),
      ("content", .arr [.obj [("type", .str "text"), ("text", .str "stopping")]])]),
      ("message_id", .str "message-2")] }

/-- A store on a full disk. -/
def fullStore : ArtifactStore where
  write _ := .error "Could not persist session artifact"
  path digest := digest
  decode _ := none

/-- `ToolResult.from_dict`, for a result with a text. -/
def resultOfDict (block : Dict) : ContentBlock :=
  .toolResult {
    toolUseId := strOf (valueOr block "tool_use_id")
    content := .inl (strOf (valueOr block "content"))
    name := strOf (valueOr block "name")
    isError := truthy (valueOr block "is_error") }

/-- A recorder whose messages are small, and whose batches come back as tool results. -/
def smallConfig : RecorderConfig where
  journal := sharedConfig
  stamp := sharedConfig.rootStamp
  prepare message :=
    if h : Json.Canonical (.obj message) ∧ prepareDict fullStore message = .ok (message, []) then
      .ok ⟨message, [], h.1, canonical_noArtifacts⟩
    else .error "Could not persist session artifact"
  restore stored := .ok {
    role := .user
    content := .blocks ((messageBlocks stored).map resultOfDict) }

theorem usesStore_smallConfig : UsesStore smallConfig fullStore where
  prepared {message p} h := by
    simp only [smallConfig] at h
    split at h
    · rename_i hc
      cases h
      exact ⟨[], hc.2⟩
    · cases h
  returns {message} hc hp := ⟨_, dif_pos ⟨hc, hp⟩⟩

theorem restores_smallConfig (stored : Dict) : Restores smallConfig .toolResults stored := by
  refine ⟨_, rfl, fun _ => ⟨rfl, ?_⟩⟩
  rw [all_eq_true]
  intro b hb
  obtain ⟨block, -, rfl⟩ := mem_map.mp hb
  rfl

def smallCall (eventId : String) (h : eventId ≠ "" := by decide) : Call where
  eventId := eventId
  timestamp := "2026-01-01T00:00:00+00:00"
  lock := .owned
  eventId_ne := h
  timestamp_ne := sampleTime_ne

theorem smooth_smallCall (eventId : String) (h : eventId ≠ "") : Smooth (smallCall eventId h) :=
  ⟨by simp [smallCall], rfl⟩

def askedEvents : List SessionEvent := [createdEvent, turnEvent, askEvent]

def noticedEvents : List SessionEvent := [createdEvent, turnEvent, askEvent, noticeEvent]

theorem kept_noticedEvents : Kept noticedEvents := by
  have h2 : Kept [createdEvent, turnEvent] := by
    have h := recorded_rewindEvent.kept
    rw [show [createdEvent, turnEvent, rewindEvent] = [createdEvent, turnEvent] ++ [rewindEvent]
      from rfl] at h
    exact h.last.1
  have hturn : ∀ turnId, some "turn-1" = some turnId → ∃ turn,
      (collectEpochTurns [createdEvent, turnEvent] "epoch-1").getLast? = some turn ∧
        turn.turnId = turnId := by
    intro turnId h
    exact ⟨_, rfl, Option.some.inj h⟩
  have h3 : Kept ([createdEvent, turnEvent] ++ [askEvent]) :=
    .snoc h2 (Emits.message rfl (by decide) (by decide) ⟨_, rfl⟩ rfl hturn).orderly rfl
  have hturn' : ∀ turnId, some "turn-1" = some turnId → ∃ turn,
      (collectEpochTurns ([createdEvent, turnEvent] ++ [askEvent]) "epoch-1").getLast? =
        some turn ∧ turn.turnId = turnId := by
    rw [collectEpochTurns_snoc]
    exact hturn
  exact .snoc h3 (Emits.message rfl (by decide) (by decide) ⟨_, rfl⟩ rfl hturn').orderly rfl

theorem logged_noticedEvents : Logged sharedConfig noticedEvents := by
  simp only [Logged, noticedEvents, forall_mem_cons]
  refine ⟨?_, ?_, ?_, ?_, by simp⟩
  · exact logged_rootEvent rfl (by decide) (by decide) (by decide) (by decide) (by decide)
  · exact logged_rootEvent rfl (by decide) (by decide) (by decide) (by decide) (by decide)
  · exact logged_rootEvent rfl (by decide) (by decide) (by decide) (by decide) (by decide)
  · exact logged_rootEvent rfl (by decide) (by decide) (by decide) (by decide) (by decide)

theorem mem_noticedEvents (h : e ∈ noticedEvents) :
    e = createdEvent ∨ e = turnEvent ∨ e = askEvent ∨ e = noticeEvent := by
  simpa [noticedEvents] using h

/-- What a recovery needs to know about the log. -/
structure Recoverable (es : List SessionEvent) : Prop where
  kept : Kept es
  logged : Logged sharedConfig es
  own : OwnRoot smallConfig es
  ids : StringIds es
  fresh : ∀ epochId turnId,
    Item.message .toolResults "batch-1" epochId turnId ∉ items smallConfig.stamp.agentId es

theorem Recoverable.front {es rest : List SessionEvent} (h : Recoverable (es ++ rest)) :
    Recoverable es where
  kept := h.kept.front
  logged e he := h.logged e (mem_append_left _ he)
  own e he := h.own e (mem_append_left _ he)
  ids e he := h.ids e (mem_append_left _ he)
  fresh epochId turnId hmem := by
    refine h.fresh epochId turnId ?_
    rw [items, filterMap_append]
    exact mem_append_left _ hmem

theorem recoverable_noticed : Recoverable noticedEvents where
  kept := kept_noticedEvents
  logged := logged_noticedEvents
  own e he _ := by
    rcases mem_noticedEvents he with rfl | rfl | rfl | rfl <;> rfl
  ids e he ht message hm call hc := by
    rcases mem_noticedEvents he with rfl | rfl | rfl | rfl
    · exact absurd ht (by decide)
    · exact absurd ht (by decide)
    · cases hm
      have hcall : call = shellCall := by simpa [toolCallBlocks, messageBlocks, Json.get?_cons,
        asDict?, shellCall, truthy] using hc
      exact ⟨"call-1", by rw [hcall]; rfl⟩
    · cases hm
      simp [toolCallBlocks, messageBlocks, Json.get?_cons, asDict?] at hc
  fresh epochId turnId hmem := by
    obtain ⟨e, he, hitem⟩ := mem_filterMap.mp hmem
    have htype := (itemOf_eq_message.mp hitem).2.2.2.1
    rcases mem_noticedEvents he with rfl | rfl | rfl | rfl <;> exact absurd htype (by decide)

theorem recoverable_asked : Recoverable askedEvents := by
  have h : Recoverable (askedEvents ++ [noticeEvent]) := recoverable_noticed
  exact h.front

/-- A new recorder on a log. -/
def newRecorder (es : List SessionEvent) : Recorder := { view := ⟨loadedFrom es, render es⟩ }

theorem Recoverable.held {es : List SessionEvent} (h : Recoverable es) :
    Held smallConfig.journal (newRecorder es).view es :=
  held_loaded h.logged h.kept.numbered

theorem settled_newRecorder (es : List SessionEvent) : (newRecorder es).settled :=
  ⟨rfl, rfl, rfl⟩

theorem currentTurnId_newRecorder (es : List SessionEvent) :
    (newRecorder es).currentTurnId = none := rfl

/-- The recovery of the call that has no result. -/
theorem recover_interrupted_asked :
    ∃ found r', recoverInterruptedTurn smallConfig (smallCall "event-4") (smallCall "event-5")
        "batch-1" none (newRecorder askedEvents) = .ok found r' ∧
      ∃ new epochId, Held smallConfig.journal r'.view (askedEvents ++ new) ∧
        lastEpoch (askedEvents ++ new) = some epochId ∧
        ∀ turn, (collectEpochTurns (askedEvents ++ new) epochId).getLast? = some turn →
          TurnRecovered askedEvents (askedEvents ++ new) epochId turn := by
  have hr := recoverable_asked
  have hrecover : (∀ text r', recoverInterruptedTurn smallConfig (smallCall "event-4")
      (smallCall "event-5") "batch-1" none (newRecorder askedEvents) = .error text r' → _) ∧ _ ∧ _ :=
    recover_interrupted rfl usesStore_smallConfig hr.held hr.kept hr.own hr.ids
      (settled_newRecorder _) (currentTurnId_newRecorder _) hr.fresh
  have hlast : lastEpoch askedEvents ≠ none := by decide
  obtain ⟨found, r', hx⟩ := hrecover.2.1 (smooth_smallCall _ _) (smooth_smallCall _ _) hlast
    fun results _ => restores_smallConfig _
  obtain ⟨new, epochId, hheld, hlast', hturn, -⟩ := hrecover.2.2 found r' hx
  exact ⟨found, r', hx, new, epochId, hheld, hlast', hturn⟩

theorem recovers_small {es : List SessionEvent} {r : Recorder} (batch terminal : Call)
    (hr : Recoverable es) (hheld : Held smallConfig.journal r.view es) (hs : r.settled)
    (hcur : r.currentTurnId = none) (hb : Smooth batch) (ht : Smooth terminal)
    (hlast : lastEpoch es ≠ none) :
    ∃ found r', recoverInterruptedTurn smallConfig batch terminal "batch-1" none r =
      .ok found r' ∧ ∃ epochId, lastEpoch es = some epochId ∧
        RecoveredLog smallConfig "batch-1" es epochId r' := by
  have hleads : Leads (recoverInterruptedTurn smallConfig batch terminal "batch-1" none) r _ _ :=
    leads_recover rfl usesStore_smallConfig hheld hr.kept hr.own hs hcur hr.fresh
  obtain ⟨found, r', hx, -, -, hlog⟩ := hleads.returns (by
    intro r' hraised
    rcases hraised.2 hb ht with hnone | ⟨_, -, hnot⟩
    · exact hlast hnone
    · exact hnot (restores_smallConfig _))
  exact ⟨found, r', hx, hlog⟩

/-- **A call of an earlier message stays unanswered.**  The last assistant message of the turn asks
for no tool, so the recovery closes the turn and adds no result. -/
theorem recover_leaves_call : ¬ ∀ (cfg : RecorderConfig) (store : ArtifactStore)
    (batch terminal : Call) (batchId : String) (durationMs : Option Nat) (r : Recorder)
    (es : List SessionEvent), cfg.stamp.depth = 0 → UsesStore cfg store →
    Held cfg.journal r.view es → Kept es → OwnRoot cfg es → StringIds es → r.settled →
    r.currentTurnId = none →
    (∀ epochId turnId,
      Item.message .toolResults batchId epochId turnId ∉ items cfg.stamp.agentId es) →
    ∀ found r', recoverInterruptedTurn cfg batch terminal batchId durationMs r = .ok found r' →
      ∀ es' epochId turn, Held cfg.journal r'.view es' → lastEpoch es' = some epochId →
        (collectEpochTurns es' epochId).getLast? = some turn →
        ∀ call ∈ turnCalls (rootTurnEvents es' epochId turn),
          (resultsFor (rootTurnEvents es' epochId turn) call).length = 1 := by
  intro hclaim
  have hr := recoverable_noticed
  obtain ⟨found, r', hx, epochId, hlast, hlog⟩ := recovers_small (smallCall "event-5")
    (smallCall "event-6") hr hr.held (settled_newRecorder _) (currentTurnId_newRecorder _)
    (smooth_smallCall _ _) (smooth_smallCall _ _) (by decide)
  have hepoch : epochId = "epoch-1" := by
    have h : lastEpoch noticedEvents = some "epoch-1" := by decide
    exact Option.some.inj (hlast.symm.trans h)
  subst hepoch
  have hlatest : ∃ latest, latestRootTurn noticedEvents "epoch-1" = some latest ∧
      latest.turn.key = (2, "turn-1") := by
    have hkeys : ((collectEpochTurns noticedEvents "epoch-1").getLast?.map TurnSummary.key) =
        some (2, "turn-1") := by decide
    obtain ⟨turn, hturn, hkey⟩ := Option.map_eq_some_iff.mp hkeys
    rw [latestRootTurn, hturn]
    exact ⟨_, rfl, hkey⟩
  obtain ⟨latest, hlatest, hkey⟩ := hlatest
  rw [RecoveredLog, hlatest] at hlog
  obtain ⟨new, closing, hheld, hb, hc⟩ := hlog
  obtain ⟨turn, hturn, hsame, hrecovered, -, hlast'⟩ :=
    turnRecovered hr.kept hlast hlatest hr.ids hb hc hheld.numbered
  -- the turn's own events are the two assistant messages
  have hkey' := hsame.trans hkey
  have hseq : turn.boundarySeq = 2 := congrArg Prod.fst hkey'
  have hid : turn.turnId = "turn-1" := congrArg Prod.snd hkey'
  have hevents : rootTurnEvents noticedEvents "epoch-1" turn =
      [turnEvent, askEvent, noticeEvent] := by
    rw [rootTurnEvents, hseq, hid]
    decide
  have hasked := hrecovered.asked
  have hadded := hrecovered.added
  rw [hevents] at hasked hadded
  have hcall : shellCall ∈ turnCalls (rootTurnEvents (noticedEvents ++ new ++ closing) "epoch-1"
      turn) := by
    rw [turnCalls, hasked]
    decide
  have hone := hclaim smallConfig fullStore (smallCall "event-5") (smallCall "event-6") "batch-1"
    none (newRecorder noticedEvents) noticedEvents rfl usesStore_smallConfig hr.held hr.kept hr.own
    hr.ids (settled_newRecorder _) (currentTurnId_newRecorder _) hr.fresh found r' hx _ "epoch-1"
    turn hheld hlast' hturn shellCall hcall
  have hnone : resultBlocks [turnEvent, askEvent, noticeEvent] ++
      (unansweredCalls [turnEvent, askEvent, noticeEvent]).map interruptedResult = [] := by decide
  rw [resultsFor, hadded, hnone] at hone
  cases hone

end KolegaCode.Session
