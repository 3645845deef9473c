import KolegaCode.Lib.Leads
import KolegaCode.Session.Held
import KolegaCode.Session.Rewind

/-!
# Session — what the recorder's methods do

The events of a recorder that count are its messages, with their ids, and the ends of its turns
(`itemOf`).  A retry looks for its item, and finds it exactly when the log holds it
(`find_isSome_iff`, `any_terminal_iff`).
-/

namespace KolegaCode.Session

open List
open Json (Dict get?)

/-! ### Items -/

/-- A message with its id, or the end of a turn. -/
inductive Item where
  | message (slot : Slot) (id epochId turnId : String)
  | terminal (epochId turnId : String)
deriving Repr, DecidableEq

def Item.turnId : Item → String
  | message _ _ _ turnId => turnId
  | terminal _ turnId => turnId

def Item.epochId : Item → String
  | message _ _ epochId _ => epochId
  | terminal epochId _ => epochId

def slotOf (eventType : String) : Option Slot :=
  if eventType = "assistant.message" then some .assistant
  else if eventType = "tool.results" then some .toolResults
  else none

/-- The item an event of this agent records. -/
def itemOf (agentId : String) (e : SessionEvent) : Option Item :=
  if e.agentId ≠ some agentId then none
  else
    match e.turnId with
    | none => none
    | some turnId =>
      if (terminalStatus e.eventType).isSome then some (.terminal e.epochId turnId)
      else
        match slotOf e.eventType with
        | none => none
        | some slot =>
          match get? e.payload slot.idKey with
          | some (.str id) => some (.message slot id e.epochId turnId)
          | _ => none

def items (agentId : String) (es : List SessionEvent) : List Item := es.filterMap (itemOf agentId)

def Pending.item (p : Pending) (slot : Slot) : Item := .message slot p.id p.epochId p.turnId

def PendingTurnTerminal.item (p : PendingTurnTerminal) : Item := .terminal p.epochId p.turnId

theorem items_snoc (agentId : String) (es : List SessionEvent) (e : SessionEvent) :
    items agentId (es ++ [e]) = items agentId es ++ (itemOf agentId e).toList := by
  rw [items, filterMap_append]
  cases h : itemOf agentId e <;> simp [items, h]

variable {slot : Slot} {agentId id : String} {e : SessionEvent} {message : Dict}

theorem slotOf_eq_some {eventType : String} :
    slotOf eventType = some slot ↔ eventType = slot.eventType := by
  rw [slotOf]
  cases slot with
  | assistant | toolResults =>
    by_cases h : eventType = "assistant.message"
    · simp [h, Slot.eventType]
    · by_cases h' : eventType = "tool.results"
      · simp [h', Slot.eventType]
      · simp [h, h', Slot.eventType]

theorem terminalStatus_slot (slot : Slot) : terminalStatus slot.eventType = none := by
  cases slot <;> rfl

theorem itemOf_eq_message {epochId turnId : String} :
    itemOf agentId e = some (.message slot id epochId turnId) ↔
      e.agentId = some agentId ∧ e.turnId = some turnId ∧ e.epochId = epochId ∧
        e.eventType = slot.eventType ∧ get? e.payload slot.idKey = some (.str id) := by
  refine ⟨?_, ?_⟩
  · intro h
    rw [itemOf] at h
    split at h
    · cases h
    rename_i hagent
    split at h
    · cases h
    rename_i turn hturn
    split at h
    · cases h
    split at h
    · cases h
    rename_i slot' hslot
    split at h
    · rename_i id' hid
      cases h
      exact ⟨not_not.mp hagent, hturn, rfl, slotOf_eq_some.mp hslot, hid⟩
    · cases h
  · intro h
    obtain ⟨hagent, hturn, hepoch, htype, hid⟩ := h
    rw [itemOf, if_neg (not_not.mpr hagent), hturn]
    simp only [htype, terminalStatus_slot, Option.isSome_none, Bool.false_eq_true, if_false,
      slotOf_eq_some.mpr rfl, hid, hepoch]

theorem itemOf_eq_terminal {epochId turnId : String} :
    itemOf agentId e = some (.terminal epochId turnId) ↔
      e.agentId = some agentId ∧ e.turnId = some turnId ∧ e.epochId = epochId ∧
        (terminalStatus e.eventType).isSome := by
  refine ⟨?_, ?_⟩
  · intro h
    rw [itemOf] at h
    split at h
    · cases h
    rename_i hagent
    split at h
    · cases h
    rename_i turn hturn
    split at h
    · rename_i hstatus
      cases h
      exact ⟨not_not.mp hagent, hturn, rfl, hstatus⟩
    split at h
    · cases h
    split at h
    · cases h
    · cases h
  · intro h
    obtain ⟨hagent, hturn, hepoch, hstatus⟩ := h
    rw [itemOf, if_neg (not_not.mpr hagent), hturn]
    simp only [hstatus, if_true, hepoch]

/-- The events a retry looks at. -/
def turnEvents (es : List SessionEvent) (epochId turnId : String) : List SessionEvent :=
  es.filter fun e => e.epochId = epochId ∧ e.turnId = some turnId

theorem find_isSome_iff {cfg : RecorderConfig} {es : List SessionEvent} {epochId turnId : String} :
    (findPendingEvent cfg (turnEvents es epochId turnId) slot id).isSome ↔
      .message slot id epochId turnId ∈ items cfg.stamp.agentId es := by
  rw [findPendingEvent, find?_isSome, items, mem_filterMap]
  simp only [turnEvents, mem_filter, decide_eq_true_eq, itemOf_eq_message]
  refine ⟨?_, ?_⟩
  · intro h
    obtain ⟨e, ⟨he, hepoch, hturn⟩, htype, hagent, hid⟩ := h
    exact ⟨e, he, hagent, hturn, hepoch, htype, hid⟩
  · intro h
    obtain ⟨e, he, hagent, hturn, hepoch, htype, hid⟩ := h
    exact ⟨e, ⟨he, hepoch, hturn⟩, htype, hagent, hid⟩

theorem any_terminal_iff {es : List SessionEvent} {epochId turnId : String} :
    ((turnEvents es epochId turnId).any fun e =>
        (terminalStatus e.eventType).isSome && e.agentId = some agentId) = true ↔
      .terminal epochId turnId ∈ items agentId es := by
  rw [any_eq_true, items, mem_filterMap]
  simp only [turnEvents, mem_filter, decide_eq_true_eq, itemOf_eq_terminal, Bool.and_eq_true]
  refine ⟨?_, ?_⟩
  · intro h
    obtain ⟨e, ⟨he, hepoch, hturn⟩, hstatus, hagent⟩ := h
    exact ⟨e, he, hagent, hturn, hepoch, hstatus⟩
  · intro h
    obtain ⟨e, he, hagent, hturn, hepoch, hstatus⟩ := h
    exact ⟨e, ⟨he, hepoch, hturn⟩, hstatus, hagent⟩

/-! ### The turn of an item -/

/-- The turn is one of the log's epoch, and for the root agent one that has not been rewound. -/
structure Live (cfg : RecorderConfig) (es : List SessionEvent) (epochId turnId : String) : Prop where
  epoch : lastEpoch es = some epochId
  listed : cfg.stamp.depth = 0 →
    turnId ∈ (collectEpochTurns es epochId).map TurnSummary.turnId

theorem mem_turnIds_turnStep {epochId turnId : String} {turns : List TurnSummary}
    (he : e.eventType ≠ "context.rewound") (h : turnId ∈ turns.map TurnSummary.turnId) :
    turnId ∈ (turnStep epochId turns e).map TurnSummary.turnId := by
  have hsettle : ∀ status : TurnStatus,
      (settleLast e.turnId status turns).map TurnSummary.turnId =
        turns.map TurnSummary.turnId := by
    intro status
    have hkeys := congrArg (List.map Prod.snd) (map_key_settleLast e.turnId status turns)
    rwa [map_map, map_map] at hkeys
  rw [turnStep]
  split
  · exact h
  split
  · exact h
  split
  · rw [map_append]
    exact mem_append_left _ h
  split
  · rw [hsettle]
    exact h
  · exact h

/-- An event that starts no epoch and rewinds nothing leaves the turn live. -/
theorem Live.snoc {cfg : RecorderConfig} {es : List SessionEvent} {epochId turnId : String}
    (h : Live cfg es epochId turnId) {e : SessionEvent}
    (hstart : e.eventType ≠ "context.epoch_started") (hrew : e.eventType ≠ "context.rewound") :
    Live cfg (es ++ [e]) epochId turnId := by
  refine ⟨?_, ?_⟩
  · rw [lastEpoch_append, if_neg hstart]
    exact h.epoch
  · intro hroot
    rw [collectEpochTurns, foldl_append]
    exact mem_turnIds_turnStep hrew (h.listed hroot)

theorem epoch_ne {cfg : Config} {es : List SessionEvent} (h : Logged cfg es) {epoch : String}
    (he : lastEpoch es = some epoch) : epoch ≠ "" := by
  induction es using List.reverseRecOn with
  | nil => cases he
  | append_singleton es e ih =>
    rw [lastEpoch_append] at he
    split at he
    · cases he
      exact (h e (by simp)).1.epochId
    · exact ih (fun x hx => h x (by simp [hx])) he

/-! ### Calls of the journal -/

section Methods

variable {cfg : RecorderConfig} {call : Call} {r : Recorder} {es : List SessionEvent}

theorem leads_onJournal {α : Type} {x : JournalM α} {ok : α → Recorder → Prop}
    {raised : Recorder → Prop}
    (h : Leads x r.view (fun a v => ok a { r with view := v })
      fun v => raised { r with view := v }) : Leads (onJournal x) r ok raised := by
  simp only [Leads, onJournal] at h ⊢
  cases hx : x r.view with
  | ok a v | error e v =>
    rw [hx] at h
    exact h

/-- The recorder is as before, but for what it sees of the journal. -/
def SameRecorder (r r' : Recorder) : Prop := r' = { r with view := r'.view }

theorem leads_readEvents (h : Held cfg.journal r.view es) {raised : Recorder → Prop} :
    Leads (onJournal (readEvents cfg.journal call.lock true)) r
      (fun events r' => events = es ∧ SameRecorder r r' ∧ Held cfg.journal r'.view es)
      raised := by
  obtain ⟨v', hread, hheld⟩ := readEvents_held h call.lock
  refine leads_onJournal ?_
  rw [Leads, hread]
  exact ⟨rfl, rfl, hheld⟩

theorem leads_currentEpoch (h : Held cfg.journal r.view es) :
    Leads (onJournal (currentEpoch cfg.journal call.lock)) r
      (fun epoch r' => lastEpoch es = some epoch ∧ SameRecorder r r' ∧
        Held cfg.journal r'.view es)
      fun r' => lastEpoch es = none ∧ SameRecorder r r' ∧ Held cfg.journal r'.view es := by
  obtain ⟨v', hheld, hcur⟩ := currentEpoch_held h call.lock
  refine leads_onJournal ?_
  rw [Leads, hcur]
  cases hl : lastEpoch es with
  | none | some epoch => exact ⟨rfl, rfl, hheld⟩

theorem leads_readPendingTurn (h : Held cfg.journal r.view es) {epochId turnId : String}
    (hlive : Live cfg es epochId turnId)
    (hturn : r.currentTurnId = none ∨ r.currentTurnId = some turnId) {raised : Recorder → Prop} :
    Leads (readPendingTurn cfg call epochId turnId) r
      (fun events r' => events = some (turnEvents es epochId turnId) ∧ SameRecorder r r' ∧
        Held cfg.journal r'.view es)
      raised := by
  refine leads_bind ((leads_readEvents h).mono ?_ fun _ hr => hr)
  intro events r₁ hread
  obtain ⟨rfl, hsame, hheld⟩ := hread
  refine leads_bind ((leads_currentEpoch hheld).mono ?_ ?_)
  · intro epoch r₂ hcur
    obtain ⟨hepoch, hsame₂, hheld₂⟩ := hcur
    rw [hlive.epoch] at hepoch
    cases hepoch
    rw [if_neg (not_not.mpr rfl), if_neg fun hc => hc.2 (hlive.listed hc.1)]
    refine leads_bind (leads_get ?_)
    have hcurrent : r₂.currentTurnId = r.currentTurnId := by
      rw [hsame₂, hsame]
    rw [hcurrent, if_neg ?_]
    · refine leads_pure ⟨rfl, ?_, hheld₂⟩
      rw [SameRecorder, hsame₂, hsame]
    · intro hc
      rcases hturn with ht | ht
      · exact hc.1 ht
      · exact hc.2 ht
  · intro r₂ hcur
    rw [hlive.epoch] at hcur
    cases hcur.1

/-- The event a write of the recorder puts behind a log. -/
structure Written (cfg : RecorderConfig) (es : List SessionEvent) (eventType : String)
    (payload : Dict) (turnId epochId : Option String) (e : SessionEvent) : Prop where
  eventType : e.eventType = eventType
  payload : e.payload = payload
  turnId : e.turnId = turnId
  agentId : e.agentId = some cfg.stamp.agentId
  root : cfg.stamp.depth = 0 → e.sub = false
  given : ∀ epoch, epochId = some epoch → epoch ≠ "" → e.epochId = epoch
  open_epoch : epochId = none → lastEpoch es = some e.epochId

theorem written_newEvent {req : Request} (hagent : req.agent = some cfg.stamp) {epoch : String}
    (he : resolveEpoch req (loadedFrom es) = some epoch) :
    Written cfg es req.eventType req.payload req.turnId req.epochId
      (newEvent cfg.journal req (nextAfter es) epoch) where
  eventType := rfl
  payload := rfl
  turnId := rfl
  agentId := by
    rw [newEvent, hagent]
    rfl
  root hroot := by
    simp only [SessionEvent.sub, newEvent, hagent, Option.getD_some, hroot]
    rfl
  given epoch' hreq hne := by
    rw [resolveEpoch, hreq] at he
    simp only [Option.filter_some, hne, ne_eq, not_false_eq_true, decide_true, if_true,
      Option.some_or, Option.orElse_eq_or, Option.some.injEq, Option.orElse_eq_orElse] at he
    exact he.symm
  open_epoch hreq := by
    rw [resolveEpoch, hreq] at he
    simp only [Option.filter_none, Option.none_or, Option.orElse_eq_or,
      Option.orElse_eq_orElse, Option.filter_eq_some_iff] at he
    exact he.1

theorem leads_appendPrepared (h : Held cfg.journal r.view es) {eventType actor : String}
    {payload : Dict} {turnId epochId : Option String} {artifacts : List Dict}
    {htype : eventType ≠ ""} {hactor : actor ≠ ""} {hpayload : Json.Canonical (.obj payload)}
    {hartifacts : ∀ ref ∈ artifacts, Json.Canonical (.obj ref)} :
    Leads (appendPrepared cfg call eventType actor payload turnId epochId artifacts htype hactor
        hpayload hartifacts) r
      (fun e r' => SameRecorder r r' ∧ Held cfg.journal r'.view (es ++ [e]) ∧
        Written cfg es eventType payload turnId epochId e)
      fun r' => SameRecorder r r' ∧ (Held cfg.journal r'.view es ∨
        ∃ e, Held cfg.journal r'.view (es ++ [e]) ∧
          Written cfg es eventType payload turnId epochId e) := by
  refine leads_onJournal ?_
  obtain ⟨v', happ⟩ := append_held h call.lock _ call.attempt
  rcases happ with ⟨epoch, he, happ, hheld⟩ | ⟨message, happ, hheld⟩
  · rw [Leads, happ]
    exact ⟨rfl, hheld, written_newEvent rfl he⟩
  · rw [Leads, happ]
    refine ⟨rfl, ?_⟩
    rcases hheld with hheld | ⟨epoch, he, hheld⟩
    · exact .inl hheld
    · exact .inr ⟨_, hheld, written_newEvent rfl he⟩

theorem leads_prepareMessage {ok : Prepared → Recorder → Prop} {raised : Recorder → Prop}
    (hok : ∀ prepared, ok prepared r) (hraised : raised r) :
    Leads (prepareMessage cfg message) r ok raised := by
  rw [prepareMessage]
  split
  · exact leads_pure (hok _)
  · exact leads_throw hraised

/-! ### The slots -/

@[simp] theorem pending_setPending (r : Recorder) (slot slot' : Slot) (p : Option Pending) :
    (r.setPending slot p).pending slot' = if slot' = slot then p else r.pending slot' := by
  cases slot <;> cases slot' <;> rfl

@[simp] theorem pending_count (r : Recorder) (slot slot' : Slot) :
    (r.count slot).pending slot' = r.pending slot' := by
  cases slot <;> cases slot' <;> rfl

/-- The turn, its end and the other slot are as before. -/
structure Frame (slot : Slot) (r r' : Recorder) : Prop where
  currentTurnId : r'.currentTurnId = r.currentTurnId
  terminal : r'.pendingTurnTerminal = r.pendingTurnTerminal
  other : ∀ slot', slot' ≠ slot → r'.pending slot' = r.pending slot'

theorem Frame.trans {r₁ r₂ r₃ : Recorder} (h : Frame slot r₁ r₂) (h' : Frame slot r₂ r₃) :
    Frame slot r₁ r₃ where
  currentTurnId := h'.currentTurnId.trans h.currentTurnId
  terminal := h'.terminal.trans h.terminal
  other slot' hne := (h'.other slot' hne).trans (h.other slot' hne)

theorem SameRecorder.pending {r r' : Recorder} (h : SameRecorder r r') (slot : Slot) :
    r'.pending slot = r.pending slot := by
  rw [h]
  cases slot <;> rfl

theorem SameRecorder.currentTurnId {r r' : Recorder} (h : SameRecorder r r') :
    r'.currentTurnId = r.currentTurnId := by
  rw [h]

theorem SameRecorder.terminal {r r' : Recorder} (h : SameRecorder r r') :
    r'.pendingTurnTerminal = r.pendingTurnTerminal := by
  rw [h]

theorem SameRecorder.frame {r r' : Recorder} (h : SameRecorder r r') (slot : Slot) :
    Frame slot r r' :=
  ⟨h.currentTurnId, h.terminal, fun slot' _ => h.pending slot'⟩

theorem frame_setPending (r : Recorder) (slot : Slot) (p : Option Pending) :
    Frame slot r (r.setPending slot p) where
  currentTurnId := by cases slot <;> rfl
  terminal := by cases slot <;> rfl
  other slot' hne := by simp [hne]

theorem frame_count (r : Recorder) (slot slot' : Slot) : Frame slot' r (r.count slot) where
  currentTurnId := by cases slot <;> rfl
  terminal := by cases slot <;> rfl
  other _ _ := by simp

@[simp] theorem view_setPending (r : Recorder) (slot : Slot) (p : Option Pending) :
    (r.setPending slot p).view = r.view := by
  cases slot <;> rfl

@[simp] theorem view_count (r : Recorder) (slot : Slot) : (r.count slot).view = r.view := by
  cases slot <;> rfl

variable {deferProjection : Bool} {es' : List SessionEvent} {p : PendingTurnTerminal}

theorem leads_projectPending {p : Pending} {ok : Option Message → Recorder → Prop}
    {raised : Recorder → Prop}
    (h : ∀ r' : Recorder, r'.view = r.view → Frame slot r r' →
      (r'.pending slot = none ∨ r'.pending slot = some { p with committed := true }) →
      (∀ m, ok m r') ∧ raised r') :
    Leads (projectPending cfg slot p deferProjection e) r ok raised := by
  refine leads_bind (leads_modify ?_)
  generalize hr₁ : (if p.committed = false ∧ r.currentTurnId = some p.turnId then r.count slot
    else r) = r₁
  have hframe : r₁.view = r.view ∧ Frame slot r r₁ := by
    rw [← hr₁]
    split
    · exact ⟨view_count r slot, frame_count r slot slot⟩
    · exact ⟨rfl, ⟨rfl, rfl, fun _ _ => rfl⟩⟩
  have hmarked := frame_setPending r₁ slot (some { p with committed := true })
  have hdone := h (r₁.setPending slot (some { p with committed := true }))
    ((view_setPending _ _ _).trans hframe.1) (hframe.2.trans hmarked) (.inr (by simp))
  refine leads_bind ?_
  have hok : ∀ m : Message, Leads (do
      if !deferProjection then
        modify fun r => r.setPending slot none
      return some m : RecorderM (Option Message))
      (r₁.setPending slot (some { p with committed := true })) ok raised := by
    intro m
    cases deferProjection with
    | true => exact leads_pure (hdone.1 _)
    | false =>
      refine leads_bind (leads_modify (leads_pure ?_))
      have hnone := frame_setPending
        (r₁.setPending slot (some { p with committed := true })) slot none
      exact (h _ (by simpa using hframe.1) ((hframe.2.trans hmarked).trans hnone)
        (.inl (by simp))).1 _
  rw [restoreMessage]
  split
  · split
    · exact leads_throw hdone.2
    · split
      · exact leads_throw hdone.2
      · exact leads_pure (hok _)
  · exact leads_throw hdone.2

/-! ### Committing -/

theorem get?_payload_id (slot : Slot) (p : Pending) (stored : Dict) :
    get? (slot.payload p stored) slot.idKey = some (.str p.id) := by
  cases slot with
  | assistant =>
    rw [Slot.payload, assistantPayload.eq_def]
    split <;> rfl
  | toolResults => rfl

theorem Written.item {p : Pending} {stored : Dict}
    (h : Written cfg es slot.eventType (slot.payload p stored) (some p.turnId) (some p.epochId) e)
    (hne : p.epochId ≠ "") : itemOf cfg.stamp.agentId e = some (p.item slot) :=
  itemOf_eq_message.mpr ⟨h.agentId, h.turnId, h.given _ rfl hne, h.eventType, by
    rw [h.payload, get?_payload_id]⟩

/-- What a commit does: it writes the message only if the log does not hold it, and empties the
slot only if the log does. -/
def Commits (cfg : RecorderConfig) (slot : Slot) (p : Pending) (es : List SessionEvent)
    (r r' : Recorder) : Prop :=
  Frame slot r r' ∧ ∃ es', Held cfg.journal r'.view es' ∧
    (es' = es ∨ p.item slot ∉ items cfg.stamp.agentId es ∧ ∃ e, es' = es ++ [e] ∧
      itemOf cfg.stamp.agentId e = some (p.item slot) ∧ e.eventType = slot.eventType) ∧
    (r'.pending slot = none ∧ p.item slot ∈ items cfg.stamp.agentId es' ∨
      ∃ p', r'.pending slot = some p' ∧ p'.item slot = p.item slot ∧
        (p'.committed = true → p.committed = true ∨
          p.item slot ∈ items cfg.stamp.agentId es'))

theorem leads_project_held {p : Pending} {r₁ : Recorder} (hheld : Held cfg.journal r₁.view es')
    (hframe : Frame slot r r₁)
    (hlog : es' = es ∨ p.item slot ∉ items cfg.stamp.agentId es ∧ ∃ e, es' = es ++ [e] ∧
      itemOf cfg.stamp.agentId e = some (p.item slot) ∧ e.eventType = slot.eventType)
    (hmem : p.item slot ∈ items cfg.stamp.agentId es') :
    Leads (projectPending cfg slot p deferProjection e) r₁ (fun _ => Commits cfg slot p es r)
      (Commits cfg slot p es r) := by
  refine leads_projectPending ?_
  intro r' hview hframe' hpend
  have hc : Commits cfg slot p es r r' := by
    refine ⟨hframe.trans hframe', es', hview ▸ hheld, hlog, ?_⟩
    rcases hpend with hpend | hpend
    · exact .inl ⟨hpend, hmem⟩
    · exact .inr ⟨_, hpend, rfl, fun _ => .inr hmem⟩
  exact ⟨fun _ => hc, hc⟩

theorem leads_writePending (h : Held cfg.journal r.view es) {r₀ : Recorder} {p : Pending}
    (hframe : Frame slot r₀ r) (hpend : r.pending slot = some p) (hne : p.epochId ≠ "")
    (hnew : p.item slot ∉ items cfg.stamp.agentId es) :
    Leads (writePending cfg call slot p deferProjection) r (fun _ => Commits cfg slot p es r₀)
      (Commits cfg slot p es r₀) := by
  have hunwritten : Commits cfg slot p es r₀ r :=
    ⟨hframe, es, h, .inl rfl, .inr ⟨p, hpend, rfl, .inl⟩⟩
  refine leads_bind (leads_prepareMessage ?_ hunwritten)
  intro prepared
  refine leads_bind ((leads_appendPrepared h).mono ?_ ?_)
  · intro e r₁ happ
    obtain ⟨hsame, hheld, hw⟩ := happ
    have hitem := hw.item hne
    refine leads_project_held hheld (hframe.trans (hsame.frame slot))
      (.inr ⟨hnew, e, rfl, hitem, hw.eventType⟩) ?_
    rw [items_snoc, hitem]
    simp
  · intro r₁ happ
    obtain ⟨hsame, hheld⟩ := happ
    have hpend₁ : r₁.pending slot = some p := (hsame.pending slot).trans hpend
    refine ⟨hframe.trans (hsame.frame slot), ?_⟩
    rcases hheld with hheld | ⟨e, hheld, hw⟩
    · exact ⟨es, hheld, .inl rfl, .inr ⟨p, hpend₁, rfl, .inl⟩⟩
    · exact ⟨es ++ [e], hheld, .inr ⟨hnew, e, rfl, hw.item hne, hw.eventType⟩,
        .inr ⟨p, hpend₁, rfl, .inl⟩⟩

/-- **A retry settles its message.** -/
theorem leads_retry (h : Held cfg.journal r.view es) {p : Pending}
    (hpend : r.pending slot = some p) (hlive : Live cfg es p.epochId p.turnId)
    (hturn : r.currentTurnId = none ∨ r.currentTurnId = some p.turnId) :
    Leads (commitPending cfg call slot true deferProjection) r (fun _ => Commits cfg slot p es r)
      (Commits cfg slot p es r) := by
  refine leads_bind (leads_get ?_)
  rw [hpend]
  simp only [if_true]
  refine leads_bind ((leads_readPendingTurn h hlive hturn).mono ?_ fun _ hr => hr)
  intro events r₁ hread
  obtain ⟨rfl, hsame, hheld⟩ := hread
  simp only
  cases hfind : findPendingEvent cfg (turnEvents es p.epochId p.turnId) slot p.id with
  | some e =>
    refine leads_project_held hheld (hsame.frame slot) (.inl rfl) ?_
    exact find_isSome_iff.mp (by rw [hfind]; rfl)
  | none =>
    refine leads_writePending hheld (hsame.frame slot) ((hsame.pending slot).trans hpend)
      (epoch_ne h.logged hlive.epoch) ?_
    intro hmem
    have := find_isSome_iff.mpr hmem
    rw [hfind] at this
    cases this

/-! ### Recording -/

/-- No slot holds anything. -/
def Recorder.settled (r : Recorder) : Prop :=
  r.pendingToolResults = none ∧ r.pendingAssistant = none ∧ r.pendingTurnTerminal = none

instance (r : Recorder) : Decidable r.settled :=
  decidable_of_iff (r.pendingToolResults.isNone ∧ r.pendingAssistant.isNone ∧
    r.pendingTurnTerminal.isNone) (by simp [Recorder.settled])

theorem Recorder.settled_pending {r : Recorder} (h : r.settled) (slot : Slot) :
    r.pending slot = none := by
  cases slot with
  | assistant => exact h.2.1
  | toolResults => exact h.1

theorem leads_requireSettledContext {ok : Unit → Recorder → Prop} {raised : Recorder → Prop}
    (hok : r.settled → ok () r) (hraised : ¬ r.settled → raised r) :
    Leads requireSettledContext r ok raised := by
  refine leads_bind (leads_get ?_)
  split
  · rename_i h
    refine leads_throw (hraised fun hs => ?_)
    rw [hs.1] at h
    cases h
  rename_i h₁
  split
  · rename_i h
    refine leads_throw (hraised fun hs => ?_)
    rw [hs.2.1] at h
    cases h
  rename_i h₂
  split
  · rename_i h
    refine leads_throw (hraised fun hs => ?_)
    rw [hs.2.2] at h
    cases h
  rename_i h₃
  refine leads_pure (hok ⟨?_, ?_, ?_⟩)
  · simpa using h₁
  · simpa using h₂
  · simpa using h₃

/-- The epoch of the log, as the journal answers it. -/
def epochOf (cfg : RecorderConfig) (call : Call) (r : Recorder) : Option String :=
  match currentEpoch cfg.journal call.lock r.view with
  | .ok epoch _ => some epoch
  | .error _ _ => none

theorem epochOf_eq (h : Held cfg.journal r.view es) : epochOf cfg call r = lastEpoch es := by
  obtain ⟨v', -, hcur⟩ := currentEpoch_held h call.lock
  rw [epochOf, hcur]
  cases lastEpoch es <;> rfl

/-- What a call that records a message puts into its slot, if it is not refused. -/
def recordedMessage (cfg : RecorderConfig) (call : Call) (r : Recorder) (slot : Slot)
    (id : String) : Option Item :=
  if r.settled then
    r.currentTurnId.bind fun turnId =>
      (epochOf cfg call r).map fun epochId => .message slot id epochId turnId
  else none

/-- The log is as before, and so is the recorder. -/
def Unchanged (cfg : RecorderConfig) (es : List SessionEvent) (r r' : Recorder) : Prop :=
  SameRecorder r r' ∧ Held cfg.journal r'.view es

variable {done : Recorder → Prop}

theorem leads_record (h : Held cfg.journal r.view es) {reasoningEffort : Option String}
    (hnew : ∀ x ∈ recordedMessage cfg call r slot id, x ∉ items cfg.stamp.agentId es)
    (hrefused : recordedMessage cfg call r slot id = none →
      ∀ r', Unchanged cfg es r r' → done r')
    (hdone : ∀ p : Pending, recordedMessage cfg call r slot id = some (p.item slot) →
      lastEpoch es = some p.epochId → r.currentTurnId = some p.turnId → p.committed = false →
      ∀ r', Commits cfg slot p es r r' → done r') :
    Leads (record cfg call slot id message reasoningEffort deferProjection) r (fun _ => done)
      done := by
  refine leads_bind (leads_requireSettledContext ?_ ?_)
  · intro hsettled
    cases hturn : r.currentTurnId with
    | none =>
      refine leads_bind (leads_bind (leads_get ?_))
      rw [hturn]
      refine leads_throw (hrefused ?_ r ⟨rfl, h⟩)
      rw [recordedMessage, if_pos hsettled, hturn]
      rfl
    | some turnId =>
      refine leads_bind (leads_bind (leads_get ?_))
      rw [hturn]
      refine leads_pure (leads_bind ((leads_currentEpoch h).mono ?_ ?_))
      · intro epoch r₁ hcur
        obtain ⟨hepoch, hsame, hheld⟩ := hcur
        have hrec : recordedMessage cfg call r slot id = some (.message slot id epoch turnId) := by
          rw [recordedMessage, if_pos hsettled, hturn, epochOf_eq h, hepoch]
          rfl
        refine leads_bind (leads_modify ?_)
        generalize hp : Pending.mk id epoch turnId message reasoningEffort false = p
        have hpend : (r₁.setPending slot (some p)).pending slot = some p := by simp
        refine leads_bind (leads_get ?_)
        rw [hpend]
        simp only [Bool.false_eq_true, if_false]
        have hheld' : Held cfg.journal (r₁.setPending slot (some p)).view es := by
          rw [view_setPending]
          exact hheld
        subst hp
        have hdone' := hdone ⟨id, epoch, turnId, message, reasoningEffort, false⟩ hrec hepoch hturn
          rfl
        exact (leads_writePending hheld' ((hsame.frame slot).trans (frame_setPending r₁ slot _))
          hpend (epoch_ne h.logged hepoch) (hnew _ hrec)).mono (fun _ => hdone') hdone'
      · intro r₁ hcur
        refine hrefused ?_ r₁ hcur.2
        rw [recordedMessage, if_pos hsettled, hturn, epochOf_eq h, hcur.1]
        rfl
  · intro hns
    refine hrefused ?_ r ⟨rfl, h⟩
    rw [recordedMessage, if_neg hns]

/-! ### Ends of turns -/

/-- What a retry of the end of a turn does: it writes it only if the log does not hold it, and
forgets it, and closes the turn, only if the log does. -/
def Ends (cfg : RecorderConfig) (p : PendingTurnTerminal) (es : List SessionEvent)
    (r r' : Recorder) : Prop :=
  (∀ slot, r'.pending slot = r.pending slot) ∧ ∃ es', Held cfg.journal r'.view es' ∧
    (es' = es ∨ p.item ∉ items cfg.stamp.agentId es ∧ ∃ e, es' = es ++ [e] ∧
      itemOf cfg.stamp.agentId e = some p.item ∧ e.eventType = p.ending.eventType) ∧
    (r'.pendingTurnTerminal = none ∧ p.item ∈ items cfg.stamp.agentId es' ∧
        r'.currentTurnId =
          (if r.currentTurnId = some p.turnId then none else r.currentTurnId) ∨
      r'.pendingTurnTerminal = some p ∧ r'.currentTurnId = r.currentTurnId)

theorem terminalStatus_ending (ending : Ending) : (terminalStatus ending.eventType).isSome := by
  cases ending <;> rfl

theorem Written.terminalItem
    (h : Written cfg es p.ending.eventType p.payload (some p.turnId) (some p.epochId) e)
    (hne : p.epochId ≠ "") : itemOf cfg.stamp.agentId e = some p.item :=
  itemOf_eq_terminal.mpr ⟨h.agentId, h.turnId, h.given _ rfl hne, by
    rw [h.eventType]
    exact terminalStatus_ending p.ending⟩

theorem leads_closeTurn {r₁ : Recorder} (hslots : ∀ slot, r₁.pending slot = r.pending slot)
    (hcurrent : r₁.currentTurnId = r.currentTurnId) (hheld : Held cfg.journal r₁.view es')
    (hlog : es' = es ∨ p.item ∉ items cfg.stamp.agentId es ∧ ∃ e, es' = es ++ [e] ∧
      itemOf cfg.stamp.agentId e = some p.item ∧ e.eventType = p.ending.eventType)
    (hmem : p.item ∈ items cfg.stamp.agentId es') :
    Leads (do
        modify fun r => { r with pendingTurnTerminal := none }
        modify fun r =>
          if r.currentTurnId = some p.turnId then
            { r with currentTurnId := none, turnStartedAt := none }
          else r : RecorderM Unit) r₁ (fun _ => Ends cfg p es r) (Ends cfg p es r) := by
  refine leads_bind (leads_modify (leads_modify ?_))
  refine ⟨?_, es', ?_, hlog, .inl ⟨?_, hmem, ?_⟩⟩
  · intro slot
    rw [← hslots slot]
    split <;> cases slot <;> rfl
  · split
    · exact hheld
    · exact hheld
  · split <;> rfl
  · simp only [hcurrent]
    split
    · rfl
    · rfl

/-- **A retry settles the end of its turn.** -/
theorem leads_retryTerminal (h : Held cfg.journal r.view es)
    (hpend : r.pendingTurnTerminal = some p) (hlive : Live cfg es p.epochId p.turnId)
    (hturn : r.currentTurnId = none ∨ r.currentTurnId = some p.turnId) :
    Leads (retryPendingTurnTerminal cfg call) r (fun _ => Ends cfg p es r) (Ends cfg p es r) := by
  refine leads_bind (leads_get ?_)
  rw [hpend]
  refine leads_bind ((leads_readPendingTurn h hlive hturn).mono ?_ fun _ hr => hr)
  intro events r₁ hread
  obtain ⟨rfl, hsame, hheld⟩ := hread
  simp only
  split
  · rename_i hany
    exact leads_closeTurn hsame.pending hsame.currentTurnId hheld (.inl rfl)
      (any_terminal_iff.mp hany)
  · rename_i hany
    have hnew : p.item ∉ items cfg.stamp.agentId es := fun hmem => hany (any_terminal_iff.mpr hmem)
    have hne := epoch_ne h.logged hlive.epoch
    refine leads_bind ((leads_appendPrepared hheld).mono ?_ ?_)
    · intro e r₂ happ
      obtain ⟨hsame₂, hheld₂, hw⟩ := happ
      have hitem := hw.terminalItem hne
      refine leads_closeTurn (fun slot => (hsame₂.pending slot).trans (hsame.pending slot))
        (hsame₂.currentTurnId.trans hsame.currentTurnId) hheld₂
        (.inr ⟨hnew, e, rfl, hitem, hw.eventType⟩) ?_
      rw [items_snoc, hitem]
      simp
    · intro r₂ happ
      obtain ⟨hsame₂, hheld₂⟩ := happ
      have hslots : ∀ slot, r₂.pending slot = r.pending slot :=
        fun slot => (hsame₂.pending slot).trans (hsame.pending slot)
      have hopen : r₂.pendingTurnTerminal = some p ∧ r₂.currentTurnId = r.currentTurnId :=
        ⟨(hsame₂.terminal.trans hsame.terminal).trans hpend,
          hsame₂.currentTurnId.trans hsame.currentTurnId⟩
      rcases hheld₂ with hheld₂ | ⟨e, hheld₂, hw⟩
      · exact ⟨hslots, es, hheld₂, .inl rfl, .inr hopen⟩
      · exact ⟨hslots, es ++ [e], hheld₂, .inr ⟨hnew, e, rfl, hw.terminalItem hne, hw.eventType⟩,
          .inr hopen⟩

theorem Ends.congr {r₁ r' : Recorder} (h : Ends cfg p es r₁ r')
    (hslots : ∀ slot, r₁.pending slot = r.pending slot)
    (hcurrent : r₁.currentTurnId = r.currentTurnId) : Ends cfg p es r r' := by
  obtain ⟨hs, es', hheld, hlog, hend⟩ := h
  rw [hcurrent] at hend
  exact ⟨fun slot => (hs slot).trans (hslots slot), es', hheld, hlog, hend⟩

/-- The end of a turn that `finish_turn` records, if it records one. -/
def recordedEnd (cfg : RecorderConfig) (call : Call) (r : Recorder) : Option Item :=
  if r.pendingTurnTerminal.isNone then
    r.currentTurnId.bind fun turnId =>
      (epochOf cfg call r).map fun epochId => .terminal epochId turnId
  else none

theorem leads_finishTurn (h : Held cfg.journal r.view es) {ending : Ending}
    {durationMs : Option Nat} {error reason : Option String}
    (hlive : ∀ epochId turnId, lastEpoch es = some epochId → r.currentTurnId = some turnId →
      Live cfg es epochId turnId)
    (hretry : ∀ p, r.pendingTurnTerminal = some p →
      Live cfg es p.epochId p.turnId ∧
        (r.currentTurnId = none ∨ r.currentTurnId = some p.turnId) ∧
        ∀ r', Ends cfg p es r r' → done r')
    (hrefused : r.pendingTurnTerminal = none → recordedEnd cfg call r = none →
      ∀ r', Unchanged cfg es r r' → done r')
    (hdone : ∀ p : PendingTurnTerminal, r.pendingTurnTerminal = none →
      recordedEnd cfg call r = some p.item → lastEpoch es = some p.epochId →
      r.currentTurnId = some p.turnId → ∀ r', Ends cfg p es r r' → done r') :
    Leads (finishTurn cfg call ending durationMs error reason) r (fun _ => done) done := by
  refine leads_bind (leads_get ?_)
  cases hpend : r.pendingTurnTerminal with
  | some p =>
    obtain ⟨hl, hturn, hend⟩ := hretry p hpend
    simp only [Option.isSome_some, if_true]
    exact (leads_retryTerminal h hpend hl hturn).mono (fun _ => hend) hend
  | none =>
    simp only [Option.isSome_none, Bool.false_eq_true, if_false]
    refine leads_bind (leads_bind (leads_get ?_))
    cases hturn : r.currentTurnId with
    | none =>
      refine leads_throw (hrefused hpend ?_ r ⟨rfl, h⟩)
      rw [recordedEnd, hturn, hpend]
      rfl
    | some turnId =>
      refine leads_pure (leads_bind ((leads_currentEpoch h).mono ?_ ?_))
      · intro epoch r₁ hcur
        obtain ⟨hepoch, hsame, hheld⟩ := hcur
        have hrec : recordedEnd cfg call r = some (.terminal epoch turnId) := by
          rw [recordedEnd, hturn, hpend, epochOf_eq h, hepoch]
          rfl
        refine leads_bind (leads_modify ?_)
        generalize hp : PendingTurnTerminal.mk epoch turnId ending
          (terminalPayload r durationMs error reason) _ = p
        have hpe : p.epochId = epoch := by rw [← hp]
        have hpt : p.turnId = turnId := by rw [← hp]
        rw [← hpe] at hepoch hrec
        rw [← hpt] at hturn hrec
        have hend : ∀ r', Ends cfg p es { r₁ with pendingTurnTerminal := some p } r' → done r' := by
          intro r' he
          refine hdone p hpend hrec hepoch hturn r' (he.congr ?_ hsame.currentTurnId)
          intro slot
          rw [← hsame.pending slot]
          cases slot <;> rfl
        have hheld' : Held cfg.journal { r₁ with pendingTurnTerminal := some p }.view es := hheld
        exact (leads_retryTerminal hheld' rfl (hlive _ _ hepoch hturn)
          (.inr (hsame.currentTurnId.trans hturn))).mono (fun _ => hend) hend
      · intro r₁ hcur
        refine hrefused hpend ?_ r₁ hcur.2
        rw [recordedEnd, hturn, hpend, epochOf_eq h, hcur.1]
        rfl

/-! ### Other events -/

/-- An event that records no item is added, or not; the slots stay. -/
def Adds (cfg : RecorderConfig) (es : List SessionEvent) (r r' : Recorder) : Prop :=
  SameRecorder r r' ∧ (Held cfg.journal r'.view es ∨
    ∃ e, Held cfg.journal r'.view (es ++ [e]) ∧ itemOf cfg.stamp.agentId e = none ∧
      e.eventType ≠ "context.epoch_started" ∧ e.eventType ≠ "context.rewound")

theorem itemOf_eq_none (hterm : terminalStatus e.eventType = none)
    (hslot : slotOf e.eventType = none) : itemOf agentId e = none := by
  rw [itemOf, hterm, hslot]
  split
  · rfl
  split
  · rfl
  · rfl

/-- Event types that record no item and leave the epoch and its turns. -/
def plainTypes : List String := ["turn.started", "context.message", "context.compacted"]

theorem Written.plain {eventType : String} {payload : Dict} {turnId epochId : Option String}
    (h : Written cfg es eventType payload turnId epochId e) (ht : eventType ∈ plainTypes) :
    itemOf cfg.stamp.agentId e = none ∧ e.eventType ≠ "context.epoch_started" ∧
      e.eventType ≠ "context.rewound" := by
  rw [← h.eventType] at ht
  simp only [plainTypes, mem_cons, not_mem_nil, or_false] at ht
  rcases ht with ht | ht | ht
  all_goals
    refine ⟨itemOf_eq_none ?_ ?_, ?_, ?_⟩
    all_goals
      rw [ht]
      decide

theorem leads_appendContext (h : Held cfg.journal r.view es) {eventType actor : String}
    {payload : Dict} {artifacts : List Dict} {htype : eventType ≠ ""} {hactor : actor ≠ ""}
    {hpayload : Json.Canonical (.obj payload)}
    {hartifacts : ∀ ref ∈ artifacts, Json.Canonical (.obj ref)} (ht : eventType ∈ plainTypes) :
    Leads (appendContext cfg call eventType actor payload artifacts htype hactor hpayload
      hartifacts) r (fun _ => Adds cfg es r) (Adds cfg es r) := by
  refine leads_bind (leads_get ?_)
  refine leads_bind ((leads_appendPrepared h).mono ?_ ?_)
  · intro e r' happ
    obtain ⟨hsame, hheld, hw⟩ := happ
    exact leads_pure ⟨hsame, .inr ⟨e, hheld, hw.plain ht⟩⟩
  · intro r' happ
    obtain ⟨hsame, hheld⟩ := happ
    refine ⟨hsame, ?_⟩
    rcases hheld with hheld | ⟨e, hheld, hw⟩
    · exact .inl hheld
    · exact .inr ⟨e, hheld, hw.plain ht⟩

/-- A turn is opened: its start is in the log, and the recorder is in it. -/
def Opens (cfg : RecorderConfig) (turnId : String) (es : List SessionEvent) (r r' : Recorder) :
    Prop :=
  (∀ slot, r'.pending slot = r.pending slot) ∧
    r'.pendingTurnTerminal = r.pendingTurnTerminal ∧ r'.currentTurnId = some turnId ∧
    ∃ e, Held cfg.journal r'.view (es ++ [e]) ∧ itemOf cfg.stamp.agentId e = none ∧
      ∃ epochId, Live cfg (es ++ [e]) epochId turnId

theorem Written.live {turnId : String} {payload : Dict}
    (h : Written cfg es "turn.started" payload (some turnId) none e) :
    Live cfg (es ++ [e]) e.epochId turnId := by
  refine ⟨?_, ?_⟩
  · rw [lastEpoch_append, h.eventType, if_neg (by decide)]
    exact h.open_epoch rfl
  · intro hroot
    have hstart : IsStart e turnId := ⟨h.root hroot, h.eventType, h.turnId⟩
    have hkeys : turnKeys (es ++ [e]) e.epochId = _ := turnKeys_snoc_start hstart
    have hmem : (e.seq, turnId) ∈ turnKeys (es ++ [e]) e.epochId := by
      rw [hkeys]
      simp
    obtain ⟨turn, hturn, hkey⟩ := mem_map.mp hmem
    exact mem_map.mpr ⟨turn, hturn, congrArg Prod.snd hkey⟩

theorem leads_openTurn (h : Held cfg.journal r.view es) {turnId actor : String} {payload : Dict}
    {artifacts : List Dict} {hactor : actor ≠ ""} {hpayload : Json.Canonical (.obj payload)}
    {hartifacts : ∀ ref ∈ artifacts, Json.Canonical (.obj ref)} :
    Leads (openTurn cfg call turnId actor payload artifacts hactor hpayload hartifacts) r
      (fun _ => Opens cfg turnId es r) (Adds cfg es r) := by
  refine leads_bind ((leads_appendPrepared h).mono ?_ ?_)
  · intro e r₁ happ
    obtain ⟨hsame, hheld, hw⟩ := happ
    refine leads_bind (leads_modify (leads_pure ?_))
    refine ⟨?_, hsame.terminal, rfl, e, hheld, (hw.plain (by decide)).1, _, hw.live⟩
    intro slot
    rw [← hsame.pending slot]
    cases slot <;> rfl
  · intro r₁ happ
    obtain ⟨hsame, hheld⟩ := happ
    refine ⟨hsame, ?_⟩
    rcases hheld with hheld | ⟨e, hheld, hw⟩
    · exact .inl hheld
    · exact .inr ⟨e, hheld, hw.plain (by decide)⟩

end Methods

/-! ### Writes that are certain -/

section Certain

variable {cfg : RecorderConfig} {call : Call} {r : Recorder} {es : List SessionEvent}
  {eventType actor : String} {payload : Dict} {turnId epochId : Option String}
  {artifacts : List Dict} {htype : eventType ≠ ""} {hactor : actor ≠ ""}
  {hpayload : Json.Canonical (.obj payload)}
  {hartifacts : ∀ ref ∈ artifacts, Json.Canonical (.obj ref)} {epoch : String}

theorem exists_resolveEpoch (h : Logged cfg.journal es) (hlast : lastEpoch es = some epoch)
    (req : Request) : ∃ epoch', resolveEpoch req (loadedFrom es) = some epoch' := by
  have hne := epoch_ne h hlast
  have hj : (loadedFrom es).epochId = some epoch := hlast
  rw [resolveEpoch, hj]
  cases hreq : req.epochId with
  | none => exact ⟨epoch, by simp [Option.filter, hne]⟩
  | some given =>
    by_cases hg : given = ""
    · exact ⟨epoch, by simp [Option.filter, hg, hne]⟩
    · exact ⟨given, by simp [Option.filter, hg]⟩

theorem leads_appendPrepared_complete (h : Held cfg.journal r.view es) (hl : call.lock ≠ .busy)
    (ha : call.attempt = {}) (hlast : lastEpoch es = some epoch) :
    Leads (appendPrepared cfg call eventType actor payload turnId epochId artifacts htype hactor
        hpayload hartifacts) r
      (fun e r' => SameRecorder r r' ∧ Held cfg.journal r'.view (es ++ [e]) ∧
        Written cfg es eventType payload turnId epochId e)
      fun _ => False := by
  refine leads_onJournal ?_
  rw [ha]
  obtain ⟨epoch', he⟩ := exists_resolveEpoch h.logged hlast _
  obtain ⟨v', happ, hheld⟩ := append_held_complete h (.inl hl) he
  rw [Leads, happ]
  exact ⟨rfl, hheld, written_newEvent rfl he⟩

theorem leads_appendPrepared_raises (h : Held cfg.journal r.view es) (hl : call.lock ≠ .busy)
    (ha : call.attempt = { raises := true }) (hlast : lastEpoch es = some epoch) :
    Leads (appendPrepared cfg call eventType actor payload turnId epochId artifacts htype hactor
        hpayload hartifacts) r
      (fun _ _ => False)
      fun r' => SameRecorder r r' ∧ Held cfg.journal r'.view es := by
  refine leads_onJournal ?_
  rw [ha]
  obtain ⟨epoch', he⟩ := exists_resolveEpoch h.logged hlast _
  obtain ⟨message, v', happ, hheld⟩ := append_held_raises h (.inl hl) he
  rw [Leads, happ]
  exact ⟨rfl, hheld⟩

theorem leads_prepareMessage_ok {prepared : Prepared} (hp : cfg.prepare message = .ok prepared)
    {ok : Prepared → Recorder → Prop} {raised : Recorder → Prop} (h : ok prepared r) :
    Leads (prepareMessage cfg message) r ok raised := by
  rw [prepareMessage, hp]
  exact leads_pure h

end Certain

end KolegaCode.Session
