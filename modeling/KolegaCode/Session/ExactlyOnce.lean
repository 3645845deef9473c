import KolegaCode.Session.RecorderRun

/-!
# Session — every item is committed once

Every call of a recorder keeps the invariant of its runs, so at the end of every run what was
recorded is in the log once, or in a slot.
-/

namespace KolegaCode.Session

open Json (Dict get?)

/-! ### Every call -/

section Calls

variable {cfg : RecorderConfig} {base : List Item} {r : Recorder} {rec : List Item}

variable {q : Recorder → Prop} {es : List SessionEvent} {r' : Recorder} {call : Call} {slot : Slot}
  {message : Dict} {deferProjection : Bool} {allowed : Item → Prop}

theorem leads_discard {α : Type} {x : RecorderM α} (h : Leads x r (fun _ => q) q) :
    Leads (discard x) r (fun _ => q) q :=
  leads_bind (h.mono (fun _ _ hq => leads_pure hq) fun _ hq => hq)

theorem good_unchanged {com : List Item} {m t : Option Item} (h : Inv cfg base es r rec com m t)
    (hu : Unchanged cfg es r r') : Good cfg base r' rec :=
  ⟨es, com, m, t, hu.2, h.same hu.1⟩

section

variable (h : Good cfg base r rec)
include h

theorem good_record {id : String} {reasoningEffort : Option String}
    (hnew : ∀ epochId turnId, .message slot id epochId turnId ∉ known cfg r rec) :
    Good cfg base
      (endState (discard (record cfg call slot id message reasoningEffort deferProjection) r))
      (rec ++ (recordedMessage cfg call r slot id).toList) := by
  obtain ⟨es, com, m, t, hheld, hinv⟩ := h
  rw [known, logOf_eq hheld] at hnew
  have hfresh : ∀ x ∈ recordedMessage cfg call r slot id,
      x ∉ items cfg.stamp.agentId es ++ rec := by
    intro x hx
    rw [recordedMessage] at hx
    split at hx
    · obtain ⟨turnId, -, hx⟩ := Option.bind_eq_some_iff.mp hx
      obtain ⟨epochId, -, rfl⟩ := Option.map_eq_some_iff.mp hx
      exact hnew epochId turnId
    · cases hx
  refine Leads.endState (q := fun r' => Good cfg base r' _)
    (leads_discard (leads_record hheld ?_ ?_ ?_))
  · intro x hx hmem
    exact hfresh x hx (List.mem_append_left _ hmem)
  · intro hnone r' hu
    rw [hnone]
    simpa using good_unchanged hinv hu
  · intro p hrec hepoch hturn hcom r' hc
    have hsettled : r.settled := by
      by_contra hns
      rw [recordedMessage, if_neg hns] at hrec
      cases hrec
    rw [hrec]
    exact (hinv.record hsettled hepoch hturn hcom (hfresh _ hrec)).commits (by simp)
      (hc.setPending _)

theorem good_retry (call : Call) (slot : Slot) (deferProjection : Bool) :
    Good cfg base (endState (discard (retryPending cfg call slot deferProjection) r)) rec := by
  obtain ⟨es, com, m, t, hheld, hinv⟩ := h
  refine Leads.endState (q := fun r' => Good cfg base r' rec)
    (leads_discard (leads_bind (leads_get ?_)))
  cases hp : r.pending slot with
  | none => exact leads_pure ⟨es, com, m, t, hheld, hinv⟩
  | some p =>
    obtain ⟨-, hlive, hturn, -⟩ := hinv.pending slot p hp
    exact (leads_retry hheld hp hlive hturn).mono (fun _ _ hc => hinv.commits hp hc)
      fun _ hc => hinv.commits hp hc

theorem good_acknowledge (slot : Slot) : Good cfg base (endState (acknowledge slot r)) rec := by
  obtain ⟨es, com, m, t, hheld, hinv⟩ := h
  refine Leads.endState (q := fun r' => Good cfg base r' rec) (leads_bind (leads_get ?_))
  cases hp : r.pending slot with
  | none => exact leads_throw ⟨es, com, m, t, hheld, hinv⟩
  | some p =>
    simp only
    split
    · rename_i hc
      refine leads_set ⟨es, com, m, t, ?_, hinv.acknowledge hp hc⟩
      rw [view_setPending]
      exact hheld
    · exact leads_throw ⟨es, com, m, t, hheld, hinv⟩

theorem good_finishTurn {ending : Ending} {durationMs : Option Nat} {error reason : Option String} :
    Good cfg base (endState (finishTurn cfg call ending durationMs error reason r))
      (rec ++ (recordedEnd cfg call r).toList) := by
  obtain ⟨es, com, m, t, hheld, hinv⟩ := h
  refine Leads.endState (q := fun r' => Good cfg base r' _)
    (leads_finishTurn hheld ?_ ?_ ?_ ?_)
  · intro epochId turnId hepoch hturn
    obtain ⟨⟨epochId', hlive⟩, -⟩ := hinv.current turnId hturn
    have hep : epochId' = epochId := Option.some.inj (hlive.epoch.symm.trans hepoch)
    exact hep ▸ hlive
  · intro p hp
    obtain ⟨-, hlive, hturn⟩ := hinv.terminal p hp
    refine ⟨hlive, hturn, ?_⟩
    intro r' he
    rw [recordedEnd, hp]
    simpa using hinv.ends hp he
  · intro _ hnone r' hu
    rw [hnone]
    simpa using good_unchanged hinv hu
  · intro p hnone hrec hepoch hturn r' he
    rw [hrec]
    exact (hinv.recordEnd hnone hepoch hturn).ends rfl
      (he.congr (fun slot => by cases slot <;> rfl) rfl)

theorem good_retryTerminal (call : Call) :
    Good cfg base (endState (retryPendingTurnTerminal cfg call r)) rec := by
  obtain ⟨es, com, m, t, hheld, hinv⟩ := h
  cases hp : r.pendingTurnTerminal with
  | none =>
    refine Leads.endState (q := fun r' => Good cfg base r' rec) (leads_bind (leads_get ?_))
    rw [hp]
    exact leads_pure ⟨es, com, m, t, hheld, hinv⟩
  | some p =>
    obtain ⟨-, hlive, hturn⟩ := hinv.terminal p hp
    exact Leads.endState ((leads_retryTerminal hheld hp hlive hturn).mono
      (fun _ _ he => hinv.ends hp he) fun _ he => hinv.ends hp he)

end

theorem leads_requireNoTurn {text : String} {ok : Unit → Recorder → Prop}
    {raised : Recorder → Prop} (hok : ok () r) (hraised : raised r) :
    Leads (requireNoTurn text) r ok raised := by
  refine leads_bind (leads_get ?_)
  split
  · exact leads_throw hraised
  · exact leads_pure hok

section

variable (h : Good cfg base r rec)
include h

theorem good_startTurn {turnId : String}
    (hnew : ∀ epochId, .terminal epochId turnId ∉ known cfg r rec) :
    Good cfg base (endState (discard (startTurn cfg call turnId message) r)) rec := by
  have hgood := h
  obtain ⟨es, com, m, t, hheld, hinv⟩ := h
  rw [known, logOf_eq hheld] at hnew
  refine Leads.endState (q := fun r' => Good cfg base r' rec) (leads_discard
    (leads_bind (leads_requireSettledContext ?_ fun _ => hgood)))
  intro hs
  refine leads_bind (leads_requireNoTurn ?_ hgood)
  refine leads_bind (leads_prepareMessage ?_ hgood)
  intro prepared
  exact (leads_openTurn hheld).mono (fun _ _ ho => hinv.opens hs hnew ho)
    fun _ ha => hinv.adds ha

theorem good_startContinuationTurn {turnId : String}
    (hnew : ∀ epochId, .terminal epochId turnId ∉ known cfg r rec) :
    Good cfg base (endState (discard (startContinuationTurn cfg call turnId) r)) rec := by
  have hgood := h
  obtain ⟨es, com, m, t, hheld, hinv⟩ := h
  rw [known, logOf_eq hheld] at hnew
  refine Leads.endState (q := fun r' => Good cfg base r' rec) (leads_discard
    (leads_bind (leads_requireSettledContext ?_ fun _ => hgood)))
  intro hs
  refine leads_bind (leads_requireNoTurn ?_ hgood)
  exact (leads_openTurn hheld).mono (fun _ _ ho => hinv.opens hs hnew ho)
    fun _ ha => hinv.adds ha

theorem good_recordContextMessage {actor : String} {hactor : actor ≠ ""} :
    Good cfg base (endState (recordContextMessage cfg call message actor hactor r)) rec := by
  have hgood := h
  obtain ⟨es, com, m, t, hheld, hinv⟩ := h
  refine Leads.endState (q := fun r' => Good cfg base r' rec)
    (leads_bind (leads_requireSettledContext (fun _ => ?_) fun _ => hgood))
  refine leads_bind (leads_prepareMessage ?_ hgood)
  intro prepared
  exact (leads_appendContext hheld (by decide)).mono (fun _ _ ha => hinv.adds ha)
    fun _ ha => hinv.adds ha

theorem good_recordCompaction {payload : Dict} {hpayload : Json.Canonical (.obj payload)} :
    Good cfg base (endState (recordCompaction cfg call payload hpayload r)) rec := by
  have hgood := h
  obtain ⟨es, com, m, t, hheld, hinv⟩ := h
  refine Leads.endState (q := fun r' => Good cfg base r' rec)
    (leads_bind (leads_requireSettledContext (fun _ => ?_) fun _ => hgood))
  exact (leads_appendContext hheld (by decide)).mono (fun _ _ ha => hinv.adds ha)
    fun _ ha => hinv.adds ha

theorem good_beside {lock : Lock} {req : Request} {attempt : Attempt}
    (hd : Drawn cfg r rec (.beside lock req attempt)) :
    Good cfg base (endState (discard (onJournal (append cfg.journal lock req attempt)) r))
      rec := by
  obtain ⟨es, com, m, t, hheld, hinv⟩ := h
  obtain ⟨stamp, hagent, hother, hstart, hrew⟩ := hd
  have hitem : ∀ epoch, itemOf cfg.stamp.agentId (newEvent cfg.journal req (nextAfter es) epoch) =
      none := by
    intro epoch
    rw [itemOf, if_pos]
    rw [newEvent, hagent]
    intro heq
    exact hother (Option.some.inj heq)
  refine Leads.endState (q := fun r' => Good cfg base r' rec)
    (leads_discard (leads_onJournal ?_))
  obtain ⟨v', happ⟩ := append_held hheld lock req attempt
  rcases happ with ⟨epoch, -, happ, hheld'⟩ | ⟨text, happ, hheld'⟩
  · rw [Leads, happ]
    exact hinv.adds ⟨rfl, .inr ⟨_, hheld', hitem epoch, hstart, hrew⟩⟩
  · rw [Leads, happ]
    rcases hheld' with hheld' | ⟨epoch, -, hheld'⟩
    · exact hinv.adds ⟨rfl, .inl hheld'⟩
    · exact hinv.adds ⟨rfl, .inr ⟨_, hheld', hitem epoch, hstart, hrew⟩⟩

/-- **One call keeps the invariant.** -/
theorem good_after {op : Op} (hd : Drawn cfg r rec op) :
    Good cfg base (after cfg r op) (rec ++ (recordedBy cfg r op).toList) := by
  have hnil : ∀ {r' : Recorder}, Good cfg base r' rec →
      Good cfg base r' (rec ++ (none : Option Item).toList) := by
    intro r' hg
    simpa using hg
  cases op with
  | startTurn call turnId message => exact hnil (good_startTurn h hd)
  | startContinuationTurn call turnId => exact hnil (good_startContinuationTurn h hd)
  | recordAssistant call id message effort defer => exact good_record h hd
  | recordToolResults call id message defer => exact good_record h hd
  | retryPendingAssistant call defer => exact hnil (good_retry h call .assistant defer)
  | retryPendingToolResults call defer => exact hnil (good_retry h call .toolResults defer)
  | acknowledgeAssistant => exact hnil (good_acknowledge h .assistant)
  | acknowledgeToolResults => exact hnil (good_acknowledge h .toolResults)
  | finishTurn call ending durationMs error reason => exact good_finishTurn h
  | retryPendingTurnTerminal call => exact hnil (good_retryTerminal h call)
  | recordContextMessage call message actor hactor => exact hnil (good_recordContextMessage h)
  | recordCompaction call payload hpayload => exact hnil (good_recordCompaction h)
  | beside lock req attempt => exact hnil (good_beside h hd)

end

theorem good_run {r₀ : Recorder} (h₀ : Fresh cfg r₀) (h : Run cfg r₀ r rec) :
    Good cfg (items cfg.stamp.agentId (logOf cfg r₀)) r rec := by
  induction h with
  | start =>
    refine ⟨logOf cfg r₀, [], none, none, h₀.held, {
      log := by simp
      stage := .full .nil
      nodup := .nil
      apart := by simp
      one := ?_
      pending := ?_
      terminal := ?_
      missingMessage := by simp
      missingTerminal := by simp
      current := ?_ }⟩
    · intro slot slot' hne
      exact absurd (Recorder.settled_pending h₀.settled slot) hne
    · intro slot p hp
      rw [Recorder.settled_pending h₀.settled slot] at hp
      cases hp
    · intro p hp
      rw [h₀.settled.2.2] at hp
      cases hp
    · intro turnId hturn
      rw [h₀.currentTurnId] at hturn
      cases hturn
  | call _ hd ih => exact good_after ih hd

/-! ### What is written while a slot is full -/

/-- The items in the slots. -/
def pendingItems (r : Recorder) : List Item :=
  (r.pendingAssistant.map (·.item .assistant)).toList ++
    (r.pendingToolResults.map (·.item .toolResults)).toList ++
    (r.pendingTurnTerminal.map (·.item)).toList

theorem mem_pendingItems_of_pending {p : Pending} (h : r.pending slot = some p) :
    p.item slot ∈ pendingItems r := by
  cases slot with
  | assistant =>
    have h : r.pendingAssistant = some p := h
    simp [pendingItems, h]
  | toolResults =>
    have h : r.pendingToolResults = some p := h
    simp [pendingItems, h]

/-- A call of the recorder itself. -/
def Op.own : Op → Prop
  | .beside _ _ _ => False
  | _ => True

/-- The log is as it was, or an event of one of these items is added. -/
def WritesOnly (cfg : RecorderConfig) (es : List SessionEvent) (allowed : Item → Prop)
    (r' : Recorder) : Prop :=
  ∃ es', Held cfg.journal r'.view es' ∧ (es' = es ∨ ∃ e x, es' = es ++ [e] ∧
    itemOf cfg.stamp.agentId e = some x ∧ allowed x)

theorem Commits.writesOnly {p : Pending} (h : Commits cfg slot p es r r')
    (ha : allowed (p.item slot)) : WritesOnly cfg es allowed r' := by
  obtain ⟨-, es', hheld, hlog, -⟩ := h
  refine ⟨es', hheld, ?_⟩
  rcases hlog with hlog | ⟨-, e, hlog, hitem, -⟩
  · exact .inl hlog
  · exact .inr ⟨e, _, hlog, hitem, ha⟩

theorem Ends.writesOnly {p : PendingTurnTerminal} (h : Ends cfg p es r r') (ha : allowed p.item) :
    WritesOnly cfg es allowed r' := by
  obtain ⟨-, es', hheld, hlog, -⟩ := h
  refine ⟨es', hheld, ?_⟩
  rcases hlog with hlog | ⟨-, e, hlog, hitem, -⟩
  · exact .inl hlog
  · exact .inr ⟨e, _, hlog, hitem, ha⟩

theorem leads_unsettled {α : Type} {x : Unit → RecorderM α} (hq : q r) (hns : ¬ r.settled) :
    Leads (requireSettledContext >>= x) r (fun _ => q) q :=
  leads_bind (leads_requireSettledContext (fun hs => absurd hs hns) fun _ => hq)

theorem leads_retryPending_writes {com : List Item} {m t : Option Item}
    (hheld : Held cfg.journal r.view es) (hinv : Inv cfg base es r rec com m t)
    (ha : ∀ x ∈ pendingItems r, allowed x) :
    Leads (retryPending cfg call slot deferProjection) r (fun _ => WritesOnly cfg es allowed)
      (WritesOnly cfg es allowed) := by
  refine leads_bind (leads_get ?_)
  cases hp : r.pending slot with
  | none => exact leads_pure ⟨es, hheld, .inl rfl⟩
  | some p =>
    obtain ⟨-, hlive, hturn, -⟩ := hinv.pending slot p hp
    have hpa := ha _ (mem_pendingItems_of_pending hp)
    exact (leads_retry hheld hp hlive hturn).mono (fun _ _ hc => hc.writesOnly hpa)
      fun _ hc => hc.writesOnly hpa

theorem leads_acknowledge_writes (hheld : Held cfg.journal r.view es) :
    Leads (acknowledge slot) r (fun _ => WritesOnly cfg es allowed)
      (WritesOnly cfg es allowed) := by
  refine leads_bind (leads_get ?_)
  cases hp : r.pending slot with
  | none => exact leads_throw ⟨es, hheld, .inl rfl⟩
  | some p =>
    simp only
    split
    · refine leads_set ⟨es, ?_, .inl rfl⟩
      rw [view_setPending]
      exact hheld
    · exact leads_throw ⟨es, hheld, .inl rfl⟩

/-- **While a slot is full** a call of the recorder writes nothing but what is in a slot, or the
end of the open turn. -/
theorem writesOnly_of_unsettled (h : Good cfg base r rec) (hns : ¬ r.settled) {op : Op}
    (hown : op.own) : WritesOnly cfg (logOf cfg r)
      (fun x => x ∈ pendingItems r ∨ recordedBy cfg r op = some x) (after cfg r op) := by
  obtain ⟨es, com, m, t, hheld, hinv⟩ := h
  rw [logOf_eq hheld]
  have hsame : ∀ {allowed : Item → Prop}, WritesOnly cfg es allowed r :=
    ⟨es, hheld, .inl rfl⟩
  have hterm : ∀ p, r.pendingTurnTerminal = some p → p.item ∈ pendingItems r := by
    intro p hp
    simp [pendingItems, hp]
  refine Leads.endState ?_
  cases op with
  | startTurn call turnId message | startContinuationTurn call turnId =>
    exact leads_discard (leads_unsettled hsame hns)
  | recordAssistant call id message effort defer =>
    exact leads_discard (leads_unsettled hsame hns)
  | recordToolResults call id message defer => exact leads_discard (leads_unsettled hsame hns)
  | retryPendingAssistant call defer | retryPendingToolResults call defer =>
    exact leads_discard (leads_retryPending_writes hheld hinv fun _ hx => .inl hx)
  | acknowledgeAssistant | acknowledgeToolResults => exact leads_acknowledge_writes hheld
  | finishTurn call ending durationMs error reason =>
    refine leads_finishTurn hheld ?_ ?_ ?_ ?_
    · intro epochId turnId hepoch hturn
      obtain ⟨⟨epochId', hlive⟩, -⟩ := hinv.current turnId hturn
      have hep : epochId' = epochId := Option.some.inj (hlive.epoch.symm.trans hepoch)
      exact hep ▸ hlive
    · intro p hp
      obtain ⟨-, hlive, hturn⟩ := hinv.terminal p hp
      exact ⟨hlive, hturn, fun r' he => he.writesOnly (.inl (hterm p hp))⟩
    · intro _ _ r' hu
      exact ⟨es, hu.2, .inl rfl⟩
    · intro p _ hrec _ _ r' he
      exact he.writesOnly (.inr hrec)
  | retryPendingTurnTerminal call =>
    cases hp : r.pendingTurnTerminal with
    | none =>
      refine leads_bind (leads_get ?_)
      rw [hp]
      exact leads_pure hsame
    | some p =>
      obtain ⟨-, hlive, hturn⟩ := hinv.terminal p hp
      exact (leads_retryTerminal hheld hp hlive hturn).mono
        (fun _ _ he => he.writesOnly (.inl (hterm p hp)))
        fun _ he => he.writesOnly (.inl (hterm p hp))
  | recordContextMessage call message actor hactor | recordCompaction call payload hpayload =>
    exact leads_unsettled hsame hns
  | beside lock req attempt => exact absurd hown id

/-- **Exactly once.**  In every run of a recorder, whatever happens to its writes: when the slots
are empty the log holds exactly one event for each item that was recorded, behind the items it held
at first, in the order of recording, except that the end of a turn may stand in front of the message
of that turn recorded directly before it.  While a slot is full, a call writes nothing but an item
in a slot or the end of the open turn. -/
theorem exactly_once {r₀ : Recorder} (h₀ : Fresh cfg r₀) (h : Run cfg r₀ r rec) :
    Held cfg.journal r.view (logOf cfg r) ∧
    (r.settled → ∃ com,
      items cfg.stamp.agentId (logOf cfg r) = items cfg.stamp.agentId (logOf cfg r₀) ++ com ∧
      Swapped rec com ∧ ∀ x ∈ rec, (items cfg.stamp.agentId (logOf cfg r)).count x = 1) ∧
    (¬ r.settled → ∀ op : Op, op.own → WritesOnly cfg (logOf cfg r)
      (fun x => x ∈ pendingItems r ∨ recordedBy cfg r op = some x) (after cfg r op)) := by
  have hgood := good_run h₀ h
  obtain ⟨es, com, m, t, hheld, hinv⟩ := good_run h₀ h
  have hlog := logOf_eq hheld
  refine ⟨hlog ▸ hheld, ?_, fun hns op hown => writesOnly_of_unsettled hgood hns hown⟩
  intro hs
  have hsw := hinv.swapped hs
  rw [hlog]
  refine ⟨com, hinv.log, hsw, ?_⟩
  intro x hx
  have hbase : (items cfg.stamp.agentId (logOf cfg r₀)).count x = 0 :=
    List.count_eq_zero.mpr (hinv.apart x hx)
  rw [hinv.log, List.count_append, hbase, ← hsw.perm.count_eq, Nat.zero_add]
  exact List.count_eq_one_of_mem hinv.nodup hx

end Calls

/-! ### A batch behind the end of its turn -/

/-- A batch of one result, as a dictionary. -/
def batchDict : Dict :=
  [("role", .str "user"), ("content", .arr [.obj [("type", .str "tool_result"),
    ("tool_use_id", .str "call-1"), ("content", .str "done"), ("name", .str "shell"),
    ("is_error", .bool false)]])]

def batchMessage : Message where
  role := .user
  content := .blocks [.toolResult {
    toolUseId := "call-1"
    content := .inl "done"
    name := "shell"
    isError := false }]

theorem canonical_batchDict : Json.Canonical (.obj batchDict) := by
  simp [batchDict, Json.Canonical, Json.CanonicalFields, Json.CanonicalItems]

/-- A recorder of the root agent; the batch is small, so it is stored as it is. -/
def lateConfig : RecorderConfig where
  journal := sharedConfig
  stamp := sharedConfig.rootStamp
  prepare message :=
    if h : message = batchDict then
      .ok { message := message
            message_canonical := h ▸ canonical_batchDict
            artifacts_canonical := canonical_noArtifacts }
    else .error "no such message"
  restore stored := if stored = batchDict then .ok batchMessage else .error "no such message"

def lateCall (eventId : String) (attempt : Attempt) (h : eventId ≠ "" := by decide) :
    Call where
  eventId := eventId
  timestamp := "2026-01-01T00:00:00+00:00"
  lock := .owned
  attempt := attempt
  eventId_ne := h
  timestamp_ne := sampleTime_ne

def lateStart : Recorder := { view := ⟨loadedFrom [firstEvent], render [firstEvent]⟩ }

theorem held_lateStart : Held lateConfig.journal lateStart.view [firstEvent] :=
  held_loaded logged_firstEvent.1 logged_firstEvent.2

theorem fresh_lateStart : Fresh lateConfig lateStart where
  held := by
    rw [logOf_eq held_lateStart]
    exact held_lateStart
  settled := ⟨rfl, rfl, rfl⟩
  currentTurnId := rfl


theorem lateCall_lock (eventId : String) (attempt : Attempt) (h : eventId ≠ "") :
    (lateCall eventId attempt h).lock ≠ .busy := by
  simp [lateCall]

theorem prepare_batchDict : lateConfig.prepare batchDict =
    .ok ⟨batchDict, [], canonical_batchDict, by simp⟩ := by
  simp [lateConfig]

/-- A turn is opened. -/
def lateOp₁ : Op := .startContinuationTurn (lateCall "event-2" {} event2_ne) "turn-1"

/-- The write of a batch raises. -/
def lateOp₂ : Op :=
  .recordToolResults (lateCall "event-3" { raises := true } event3_ne) "batch-1" batchDict false

/-- The turn is ended. -/
def lateOp₃ : Op := .finishTurn (lateCall "event-4" {}) .cancelled none none none

/-- The batch is retried. -/
def lateOp₄ : Op := .retryPendingToolResults (lateCall "event-5" {}) false

def lateBatch : Pending where
  id := "batch-1"
  epochId := "epoch-1"
  turnId := "turn-1"
  message := batchDict

def lateMessage : Item := lateBatch.item .toolResults

def lateTerminal : Item := .terminal "epoch-1" "turn-1"

/-- The turn of the run is in the log, which holds these items. -/
structure LateLog (its : List Item) (es : List SessionEvent) (r : Recorder) : Prop where
  held : Held lateConfig.journal r.view es
  live : Live lateConfig es "epoch-1" "turn-1"
  items : items lateConfig.stamp.agentId es = its

/-- A state of the run. -/
def LateAt (turn : Option String) (batch : Option Pending) (its : List Item) (r : Recorder) :
    Prop :=
  (∃ es, LateLog its es r) ∧ r.currentTurnId = turn ∧ r.pendingToolResults = batch ∧
    r.pendingAssistant = none ∧ r.pendingTurnTerminal = none

theorem late_open {r : Recorder} (hheld : Held lateConfig.journal r.view [firstEvent])
    (hs : r.settled) (hturn : r.currentTurnId = none) :
    LateAt (some "turn-1") none [] (after lateConfig r lateOp₁) := by
  have hlast : lastEpoch [firstEvent] = some "epoch-1" := by decide
  refine Leads.endState (q := LateAt (some "turn-1") none []) (leads_discard ?_)
  refine leads_bind (leads_requireSettledContext ?_ fun hns => absurd hs hns)
  intro _
  refine leads_bind (leads_bind (leads_get ?_))
  rw [hturn]
  refine leads_pure (leads_bind ?_)
  refine (leads_appendPrepared_complete hheld (lateCall_lock _ _ _) rfl hlast).mono ?_
    fun _ h => h.elim
  intro e r' h
  obtain ⟨hsame, hheld', hw⟩ := h
  refine leads_bind (leads_modify (leads_pure ?_))
  have hepoch : e.epochId = "epoch-1" :=
    Option.some.inj ((hw.open_epoch rfl).symm.trans hlast)
  refine ⟨⟨[firstEvent] ++ [e], hheld', hepoch ▸ hw.live, ?_⟩, rfl, ?_⟩
  · rw [items_snoc, (hw.plain (by decide)).1]
    rfl
  · rw [hsame]
    exact hs

theorem late_record {r : Recorder} (h : LateAt (some "turn-1") none [] r) :
    LateAt (some "turn-1") (some lateBatch) [] (after lateConfig r lateOp₂) := by
  obtain ⟨⟨es, hheld, hlive, hitems⟩, hturn, htool, hassistant, hterminal⟩ := h
  refine Leads.endState (q := LateAt (some "turn-1") (some lateBatch) []) (leads_discard ?_)
  refine leads_bind (leads_requireSettledContext ?_ ?_)
  · intro _
    refine leads_bind (leads_bind (leads_get ?_))
    rw [hturn]
    refine leads_pure (leads_bind ((leads_currentEpoch hheld).mono ?_ ?_))
    · intro epoch r₁ hcur
      obtain ⟨hepoch, hsame, hheld₁⟩ := hcur
      rw [hlive.epoch] at hepoch
      cases hepoch
      refine leads_bind (leads_modify (leads_bind (leads_get ?_)))
      rw [pending_setPending, if_pos rfl]
      simp only [Bool.false_eq_true, if_false]
      refine leads_bind (leads_prepareMessage_ok prepare_batchDict ?_)
      have hview : Held lateConfig.journal
          (r₁.setPending .toolResults (some lateBatch)).view es := by
        rw [view_setPending]
        exact hheld₁
      refine leads_bind ((leads_appendPrepared_raises hview (lateCall_lock _ _ _) rfl
        hlive.epoch).mono (fun _ _ h => h.elim) ?_)
      intro r₂ h
      obtain ⟨hsame₂, hheld₂⟩ := h
      refine ⟨⟨es, hheld₂, hlive, hitems⟩, ?_⟩
      rw [hsame₂, hsame]
      exact ⟨hturn, rfl, hassistant, hterminal⟩
    · intro r₁ hcur
      rw [hlive.epoch] at hcur
      cases hcur.1
  · intro hns
    exact absurd ⟨htool, hassistant, hterminal⟩ hns

theorem late_finish {r : Recorder} (h : LateAt (some "turn-1") (some lateBatch) [] r) :
    LateAt none (some lateBatch) [lateTerminal] (after lateConfig r lateOp₃) := by
  obtain ⟨⟨es, hheld, hlive, hitems⟩, hturn, htool, hassistant, hterminal⟩ := h
  refine Leads.endState (q := LateAt none (some lateBatch) [lateTerminal]) ?_
  refine leads_bind (leads_get ?_)
  rw [hterminal]
  simp only [Option.isSome_none, Bool.false_eq_true, if_false]
  refine leads_bind (leads_bind (leads_get ?_))
  rw [hturn]
  refine leads_pure (leads_bind ((leads_currentEpoch hheld).mono ?_ ?_))
  · intro epoch r₁ hcur
    obtain ⟨hepoch, hsame, hheld₁⟩ := hcur
    rw [hlive.epoch] at hepoch
    cases hepoch
    refine leads_bind (leads_modify (leads_bind (leads_get ?_)))
    simp only
    have hturn₁ : r₁.currentTurnId = some "turn-1" := hsame.currentTurnId.trans hturn
    refine leads_bind (Leads.mono (leads_readPendingTurn ?_ hlive ?_) ?_ fun _ h => h)
    · exact hheld₁
    · exact .inr hturn₁
    intro events r₂ hread
    obtain ⟨rfl, hsame₂, hheld₂⟩ := hread
    have hnew : ¬ (turnEvents es "epoch-1" "turn-1").any (fun e =>
        (terminalStatus e.eventType).isSome && e.agentId = some lateConfig.stamp.agentId) = true := by
      rw [any_terminal_iff, hitems]
      simp
    simp only
    rw [if_neg hnew]
    refine leads_bind ((leads_appendPrepared_complete hheld₂ (lateCall_lock _ _ _) rfl
      hlive.epoch).mono ?_ fun _ h => h.elim)
    intro e r₃ h
    obtain ⟨hsame₃, hheld₃, hw⟩ := h
    have htype : e.eventType = "turn.cancelled" := hw.eventType
    have hitem : itemOf lateConfig.stamp.agentId e = some lateTerminal :=
      itemOf_eq_terminal.mpr ⟨hw.agentId, hw.turnId, hw.given _ rfl (by decide), by
        rw [htype]
        rfl⟩
    refine leads_bind (leads_modify (leads_modify ?_))
    have hturn₃ : r₃.currentTurnId = some "turn-1" := by
      rw [hsame₃, hsame₂]
      exact hturn₁
    simp only [hturn₃, if_true]
    refine ⟨⟨es ++ [e], hheld₃, ?_, ?_⟩, rfl, ?_⟩
    · exact hlive.snoc (by rw [htype]; decide) (by rw [htype]; decide)
    · rw [items_snoc, hitems, hitem]
      rfl
    · rw [hsame₃, hsame₂, hsame]
      exact ⟨htool, hassistant, rfl⟩
  · intro r₁ hcur
    rw [hlive.epoch] at hcur
    cases hcur.1

theorem late_retry {r : Recorder} (h : LateAt none (some lateBatch) [lateTerminal] r) :
    LateAt none none [lateTerminal, lateMessage] (after lateConfig r lateOp₄) := by
  obtain ⟨⟨es, hheld, hlive, hitems⟩, hturn, htool, hassistant, hterminal⟩ := h
  refine Leads.endState (q := LateAt none none [lateTerminal, lateMessage]) (leads_discard ?_)
  refine leads_bind (leads_get ?_)
  have hpend : r.pending .toolResults = some lateBatch := htool
  rw [hpend]
  refine leads_bind (leads_get ?_)
  rw [hpend]
  simp only [if_true]
  refine leads_bind ((leads_readPendingTurn hheld hlive (.inl hturn)).mono ?_ fun _ h => h)
  intro events r₁ hread
  obtain ⟨rfl, hsame, hheld₁⟩ := hread
  simp only
  have hfind : findPendingEvent lateConfig (turnEvents es "epoch-1" "turn-1") .toolResults
      "batch-1" = none := by
    rw [← Option.not_isSome_iff_eq_none, find_isSome_iff, hitems]
    simp [lateTerminal]
  simp only [lateBatch, hfind]
  refine leads_bind (leads_prepareMessage_ok prepare_batchDict (leads_bind ?_))
  refine (leads_appendPrepared_complete hheld₁ (lateCall_lock _ _ _) rfl hlive.epoch).mono ?_
    fun _ h => h.elim
  intro e r₂ h
  obtain ⟨hsame₂, hheld₂, hw⟩ := h
  have htype : e.eventType = "tool.results" := hw.eventType
  have hitem : itemOf lateConfig.stamp.agentId e = some lateMessage := hw.item (by decide)
  have hrestore : restoreMessage lateConfig .toolResults e = pure batchMessage := by
    rw [restoreMessage, hw.payload]
    simp [Slot.payload, toolResultsPayload, Json.get?_cons, lateConfig, batchMessage,
      Message.hasBlocks, Message.blocks]
    intro h
    cases h
  have hturn₂ : r₂.currentTurnId = none := by
    rw [hsame₂, hsame]
    exact hturn
  refine leads_bind (leads_modify ?_)
  rw [hrestore]
  refine leads_bind (leads_pure (leads_bind (leads_modify (leads_pure ?_))))
  simp only [hturn₂]
  refine ⟨⟨es ++ [e], hheld₂, ?_, ?_⟩, ?_⟩
  · exact hlive.snoc (by rw [htype]; decide) (by rw [htype]; decide)
  · rw [items_snoc, hitems, hitem]
    rfl
  · simp only [reduceCtorEq, and_false, if_false, Recorder.setPending]
    rw [hsame₂, hsame]
    exact ⟨hturn, trivial, hassistant, hterminal⟩

/-- The run, from any recorder it can start in. -/
def lateEnd (r : Recorder) : Recorder :=
  after lateConfig (after lateConfig (after lateConfig (after lateConfig r lateOp₁) lateOp₂) lateOp₃)
    lateOp₄

theorem known_late {turn : Option String} {batch : Option Pending} {its : List Item}
    {r : Recorder} (h : LateAt turn batch its r) (rec : List Item) :
    known lateConfig r rec = its ++ rec := by
  obtain ⟨⟨es, hheld, -, hitems⟩, -⟩ := h
  rw [known, logOf_eq hheld, hitems]

theorem recorded_lateOp₂ {r : Recorder} (h : LateAt (some "turn-1") none [] r) :
    recordedBy lateConfig r lateOp₂ = some lateMessage := by
  obtain ⟨⟨es, hheld, hlive, -⟩, hturn, hslots⟩ := h
  have hsettled : r.settled := hslots
  rw [lateOp₂, recordedBy, recordedMessage, if_pos hsettled, hturn, epochOf_eq hheld, hlive.epoch]
  rfl

theorem recorded_lateOp₃ {r : Recorder} (h : LateAt (some "turn-1") (some lateBatch) [] r) :
    recordedBy lateConfig r lateOp₃ = some lateTerminal := by
  obtain ⟨⟨es, hheld, hlive, -⟩, hturn, -, -, hterminal⟩ := h
  rw [lateOp₃, recordedBy, recordedEnd, hterminal, hturn, epochOf_eq hheld, hlive.epoch]
  rfl

theorem run_late {r : Recorder} (hheld : Held lateConfig.journal r.view [firstEvent])
    (hs : r.settled) (hturn : r.currentTurnId = none) :
    LateAt none none [lateTerminal, lateMessage] (lateEnd r) ∧
      Run lateConfig r (lateEnd r) [lateMessage, lateTerminal] := by
  have h₁ := late_open hheld hs hturn
  have h₂ := late_record h₁
  have h₃ := late_finish h₂
  refine ⟨late_retry h₃, ?_⟩
  have d₁ : Drawn lateConfig r [] lateOp₁ := by
    intro epochId
    rw [known, logOf_eq hheld]
    exact List.not_mem_nil
  have d₂ : Drawn lateConfig (after lateConfig r lateOp₁) [] lateOp₂ := by
    intro epochId turnId
    rw [known_late h₁]
    exact List.not_mem_nil
  have d₃ : Drawn lateConfig (after lateConfig (after lateConfig r lateOp₁) lateOp₂)
    [lateMessage] lateOp₃ := trivial
  have d₄ : Drawn lateConfig (after lateConfig (after lateConfig (after lateConfig r lateOp₁)
    lateOp₂) lateOp₃) [lateMessage, lateTerminal] lateOp₄ := trivial
  have r₁ : Run lateConfig r _ [] := .call .start d₁
  have r₂ : Run lateConfig r _ [lateMessage] := recorded_lateOp₂ h₁ ▸ Run.call r₁ d₂
  have r₃ : Run lateConfig r _ [lateMessage, lateTerminal] :=
    recorded_lateOp₃ h₂ ▸ Run.call r₂ d₃
  exact .call r₃ d₄

theorem settled_lateStart : lateStart.settled := ⟨rfl, rfl, rfl⟩

theorem currentTurnId_lateStart : lateStart.currentTurnId = none := rfl

theorem late_end : LateAt none none [lateTerminal, lateMessage] (lateEnd lateStart) ∧
    Run lateConfig lateStart (lateEnd lateStart) [lateMessage, lateTerminal] :=
  run_late held_lateStart settled_lateStart currentTurnId_lateStart

/-- The run ends with one event for the batch and one for the end of the turn. -/
theorem exactly_once_late : ∃ com,
    items "root" (logOf lateConfig (lateEnd lateStart)) =
        items "root" (logOf lateConfig lateStart) ++ com ∧
      Swapped [lateMessage, lateTerminal] com ∧
      ∀ x ∈ [lateMessage, lateTerminal],
        (items "root" (logOf lateConfig (lateEnd lateStart))).count x = 1 :=
  (exactly_once fresh_lateStart late_end.2).2.1 late_end.1.2.2

/-- **A batch that is retried when its turn has ended stands behind the end of the turn**, though
it was recorded before it. -/
theorem late_not_in_order : ¬ ∀ (cfg : RecorderConfig) (r₀ r : Recorder) (rec : List Item),
    Fresh cfg r₀ → Run cfg r₀ r rec → r.settled →
      items cfg.stamp.agentId (logOf cfg r) =
        items cfg.stamp.agentId (logOf cfg r₀) ++ rec := by
  intro h
  have horder := h lateConfig lateStart (lateEnd lateStart) _ fresh_lateStart late_end.2
    late_end.1.2.2
  obtain ⟨⟨es, hheld, -, hitems⟩, -⟩ := late_end.1
  rw [logOf_eq hheld, hitems, logOf_eq held_lateStart] at horder
  exact absurd horder (by decide)

end KolegaCode.Session
