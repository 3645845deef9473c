import KolegaCode.Presentation.Terminal

/-!
# Presentation — the two projections agree

An event is `Alike` in both languages when its fields have the types the emitters give them, no
name in it is one every JavaScript object has, and it carries no display metadata of a tool, which
only one of the projections keeps.
-/

namespace KolegaCode.Presentation

open Json (Dict get?)
open Recording (AgentEvent)
open Projection (PresentationState)
open Fold (WebState OBJECT_PROTOTYPE)

/-! ### Events both languages read alike -/

def isText : Option Json → Bool
  | none | some .null | some (.str _) => true
  | _ => false

def isFlag : Option Json → Bool
  | none | some .null | some (.bool _) => true
  | _ => false

def isCount : Option Json → Bool
  | none | some .null | some (.int _) => true
  | _ => false

def isNumber : Option Json → Bool
  | none | some .null | some (.int _) | some (.float _) => true
  | _ => false

/-- Without the one name that cannot be a member of an object. -/
def plain (d : Dict) : Bool := d.all fun p => p.1 ≠ "__proto__"

/-- Unset, or a dictionary. -/
def isPlainObject : Option Json → Bool
  | none | some .null => true
  | some (.obj fields) => plain fields
  | _ => false

/-- No list; a dictionary is plain. -/
def isPlainResponse : Option Json → Bool
  | some (.arr _) => false
  | some (.obj fields) => plain fields
  | _ => true

/-- The fields of an event that are read as text. -/
def textFields : String → List String
  | "chat_message" => ["message_type", "tool_call_id", "tool_description", "name", "description",
      "status", "error", "workflow_run_id"]
  | "tool_streaming_update" => ["tool_call_id", "tool_name", "stream_mode"]
  | "log_message" => ["level"]
  | "file_edit_preview" => ["tool_call_id"]
  | "llm_context_update" => ["alert_level"]
  | "turn_started" => ["turn_id", "user_text"]
  | "turn_ended" => ["turn_id", "status"]
  | "browser_launched" | "browser_closed" => ["browser_id"]
  | "control_requested" => ["request_id", "kind"]
  | "control_resolved" => ["request_id", "reason"]
  | _ => []

/-- The fields of an event that are read as truth values. -/
def flagFields : String → List String
  | "assistant_delta" | "thinking_delta" => ["complete"]
  | "tool_streaming_update" => ["is_complete"]
  | _ => []

def infoFields : List String :=
  ["dispatch_id", "agent_id", "agent_name", "task", "label", "phase", "workflow_run_id"]

/-- The message is one about a tool. -/
def aboutTool (event : AgentEvent) : Bool :=
  event.eventType = "tool_streaming_update" ||
    event.eventType = "chat_message" &&
      (Projection.TOOL_STATUS.get? (Projection.contentStr event "message_type" "message")).isSome

structure Alike (event : AgentEvent) : Prop where
  texts : ∀ key ∈ textFields event.eventType, isText (get? event.content key)
  flags : ∀ key ∈ flagFields event.eventType, isFlag (get? event.content key)
  counts : event.eventType = "llm_context_update" →
    ∀ key ∈ ["input_tokens", "max_tokens", "will_compress_at"], isCount (get? event.content key)
  usage : event.eventType = "llm_context_update" →
    isNumber (get? event.content "usage_percentage")
  payload : event.eventType = "control_requested" → isPlainObject (get? event.content "payload")
  response : event.eventType = "control_resolved" →
    isPlainResponse (get? event.content "response")
  names : event.eventType = "chat_message" → ∀ key ∈ ["message_type", "status"],
    ∀ name, get? event.content key = some (.str name) → name ∉ OBJECT_PROTOTYPE
  content : event.eventType ∈ ["file_edit_preview", "llm_context_update", "compaction_status"] →
    plain event.content
  display : aboutTool event → Projection.toolDisplayOf event = none
  info : ∀ info, event.subAgentInfo = some info → ∀ key ∈ infoFields, isText (get? info key)
  key : Projection.subAgentKey event ≠ some "__proto__"

/-! ### Values -/

theorem truthy_eq {value : Json} (h : isText (some value) ∨ isFlag (some value) ∨
    isNumber (some value)) : Fold.truthy value = Session.truthy value := by
  cases value <;> first | rfl | simp [isText, isFlag, isNumber] at h

theorem orElse_eq {a : Option Json} (h : isText a ∨ isFlag a ∨ isNumber a) (b : Option Json) :
    Fold.orElse a b = Recording.orElse a b := by
  cases a with
  | none => rfl
  | some value =>
    simp only [Fold.orElse, Recording.orElse, Option.any_some, truthy_eq h]

theorem isText_orElse {a b : Option Json} (ha : isText a) (hb : isText b) :
    isText (Recording.orElse a b) := by
  rw [Recording.orElse]
  split
  · exact ha
  · exact hb

theorem strOr_eq {value : Option Json} (h : isText value) (default : String) :
    Fold.strOr value default = Recording.strOr value default := by
  rw [Fold.strOr, Recording.strOr, orElse_eq (.inl h)]
  cases value with
  | none => rfl
  | some value =>
    cases value with
    | null => rfl
    | str text => by_cases htext : text = "" <;> simp [Recording.orElse, Session.truthy, htext,
        Fold.string, Session.strOf]
    | _ => simp [isText] at h

variable {event : AgentEvent} {v : View}

theorem contentStr_eq {key : String} (h : isText (get? event.content key)) (default : String) :
    Fold.contentStr event key default = Projection.contentStr event key default := strOr_eq h _

theorem assign_eq {d : Dict} (h : plain d) : Fold.assign d = d :=
  List.filter_eq_self.mpr fun p hp => List.all_eq_true.mp h p hp

variable {name : String} {g : View → AgentEvent → View} {s : PresentationState}

theorem lookup_eq {table : Assoc String String} (h : name ∉ OBJECT_PROTOTYPE) :
    Fold.lookup table name = table.get? name := by
  rw [Fold.lookup, if_neg h]
  cases table.get? name <;> rfl

/-! ### Sub-agents and items -/

theorem subAgentKey_eq (h : Alike event) (hinfo : event.subAgentInfo ≠ some []) :
    Fold.subAgentKey event = Projection.subAgentKey event := by
  rw [Fold.subAgentKey, Projection.subAgentKey]
  cases hi : event.subAgentInfo with
  | none => rfl
  | some info =>
    cases info with
    | nil => exact absurd hi hinfo
    | cons p info =>
      have htext := h.info _ hi
      have hd := htext "dispatch_id" (by decide)
      have ha := htext "agent_id" (by decide)
      have hn := htext "agent_name" (by decide)
      rw [Option.map_some, orElse_eq (.inl hd), orElse_eq (.inl (isText_orElse hd ha)),
        strOr_eq (isText_orElse (isText_orElse hd ha) hn)]

theorem subAgent_eq (h : Alike event) (v : View) (key : String) :
    Fold.subAgent v key event = Projection.subAgent v key event := by
  have htext : ∀ field ∈ infoFields, isText (get? (event.subAgentInfo.getD []) field) := by
    cases hi : event.subAgentInfo with
    | none => exact fun _ _ => rfl
    | some info => exact h.info info hi
  rw [Fold.subAgent, Projection.subAgent]
  cases v.subAgents.get? key with
  | some activity => rfl
  | none =>
    simp only [strOr_eq (htext "agent_name" (by decide)), strOr_eq (htext "task" (by decide)),
      strOr_eq (htext "label" (by decide)), strOr_eq (htext "phase" (by decide)),
      strOr_eq (htext "workflow_run_id" (by decide))]

theorem updateSubAgent_eq (h : Alike event) (v : View) (key : String)
    (f : SubAgentActivity → SubAgentActivity) :
    Fold.updateSubAgent v key event f = Projection.updateSubAgent v key event f := by
  cases hget : (Projection.subAgent v key event).subAgents.get? key with
  | none => simp only [Fold.updateSubAgent, Projection.updateSubAgent, subAgent_eq h, hget]
  | some activity =>
    simp only [Fold.updateSubAgent, Projection.updateSubAgent, subAgent_eq h, hget]

theorem append_eq (h : Alike event) (hinfo : event.subAgentInfo ≠ some []) (v : View)
    (item : ConversationItem) : Fold.append v item event = Projection.append v item event := by
  have hkey := subAgentKey_eq h hinfo
  cases hsub : Projection.subAgentKey event with
  | none => simp only [Fold.append, Projection.append, hkey, hsub]
  | some key => simp only [Fold.append, Projection.append, hkey, hsub, updateSubAgent_eq h]

/-! ### Handlers -/

theorem consumePeerTurn_eq (records : Assoc String PeerMessageRecord) (userText : String)
    (pending : List String) :
    Fold.consumePeerTurn records userText pending =
      Projection.consumePeerTurn records userText pending := by
  induction pending with
  | nil => rfl
  | cons messageId pending ih =>
    rw [Fold.consumePeerTurn, Projection.consumePeerTurn, ih]
    rfl

section Handlers

variable (h : Alike event) (hinfo : event.subAgentInfo ≠ some [])

include h hinfo

theorem onAssistantDelta_eq (hflag : isFlag (get? event.content "complete")) (kind : String)
    (v : View) : Fold.onAssistantDelta kind v event = Projection.onAssistantDelta kind v event := by
  have hcomplete : (get? event.content "complete").any Fold.truthy =
      (get? event.content "complete").any Session.truthy := by
    cases hvalue : get? event.content "complete" with
    | none => rfl
    | some value => exact truthy_eq (.inr (.inl (hvalue ▸ hflag)))
  simp only [Fold.onAssistantDelta, Projection.onAssistantDelta, hcomplete, append_eq h hinfo,
    subAgentKey_eq h hinfo, Fold.resolve, Projection.resolve, Fold.indexOf, Projection.indexOf]
  rfl

section

variable (htype : event.eventType = "chat_message")
include htype

theorem onToolMessage_eq (hdisplay : Projection.toolDisplayOf event = none) (status : String)
    (v : View) : Fold.onToolMessage v event status = Projection.onToolMessage v event status := by
  have htexts := h.texts
  rw [htype] at htexts
  simp only [Fold.onToolMessage, Projection.onToolMessage, append_eq h hinfo, hdisplay,
    contentStr_eq (htexts "tool_call_id" (by decide)),
    contentStr_eq (htexts "tool_description" (by decide)), Fold.toolKey, Projection.toolKey,
    subAgentKey_eq h hinfo, Fold.resolve, Projection.resolve, Fold.indexOf, Projection.indexOf,
    Option.none_or]
  rfl

theorem onWorkflowMessage_eq (messageType tone : String) (v : View) :
    Fold.onWorkflowMessage v event messageType tone =
      Projection.onWorkflowMessage v event messageType tone := by
  have htexts := h.texts
  rw [htype] at htexts
  simp only [Fold.onWorkflowMessage, Projection.onWorkflowMessage, append_eq h hinfo,
    contentStr_eq (htexts "name" (by decide)), contentStr_eq (htexts "description" (by decide)),
    contentStr_eq (htexts "status" (by decide)), contentStr_eq (htexts "error" (by decide)),
    contentStr_eq (htexts "workflow_run_id" (by decide))]
  rfl

theorem onChatMessage_eq (v : View) :
    Fold.onChatMessage v event = Projection.onChatMessage v event := by
  have htexts := h.texts
  rw [htype] at htexts
  have htypeText := htexts "message_type" (by decide)
  have hstatusText := htexts "status" (by decide)
  have hname : Projection.contentStr event "message_type" "message" ∉ OBJECT_PROTOTYPE := by
    rw [Projection.contentStr, Recording.strOr, Recording.orElse]
    cases hvalue : get? event.content "message_type" with
    | none => decide
    | some value =>
      cases value with
      | null => decide
      | str name =>
        have hnot := h.names htype "message_type" (by decide) name hvalue
        by_cases hempty : name = ""
        · subst hempty
          decide
        · simpa [Session.truthy, hempty, Session.strOf] using hnot
      | _ => simp [hvalue, isText] at htypeText
  simp only [Fold.onChatMessage, Projection.onChatMessage, contentStr_eq htypeText,
    lookup_eq hname, append_eq h hinfo, subAgentKey_eq h hinfo, updateSubAgent_eq h,
    onWorkflowMessage_eq h hinfo htype]
  cases htool : Projection.TOOL_STATUS.get? (Projection.contentStr event "message_type" "message")
    with
  | some status =>
    have htool' : Fold.TOOL_STATUS.get? (Projection.contentStr event "message_type" "message") =
        some status := htool
    have habout : aboutTool event := by simp [aboutTool, htype, htool]
    simp only [htool', onToolMessage_eq h hinfo htype (h.display habout)]
  | none =>
    have htool' : Fold.TOOL_STATUS.get? (Projection.contentStr event "message_type" "message") =
        none := htool
    simp only [htool']
    cases hvalue : get? event.content "status" with
    | none => rfl
    | some value =>
      cases value with
      | null => rfl
      | str name =>
        have hnot := h.names htype "status" (by decide) name hvalue
        have hlifecycle : ((Fold.lookup Fold.SUB_AGENT_LIFECYCLE name).bind Fold.orNull).getD
            "running" = (Projection.SUB_AGENT_LIFECYCLE.get? name).getD "running" := by
          rw [lookup_eq hnot]
          simp only [Fold.SUB_AGENT_LIFECYCLE, Projection.SUB_AGENT_LIFECYCLE, Assoc.get?_cons]
          split
          · rfl
          · split <;> rfl
        have hfilter : (some (Json.str name)).filter (· ≠ .null) = some (.str name) := by
          simp [Option.filter]
        have hstring : Fold.string (.str name) = name := rfl
        have hstrOf : Session.strOf (.str name) = name := rfl
        cases Projection.subAgentKey event with
        | none => simp only [hfilter]; rfl
        | some key => simp only [hfilter, hstring, hstrOf, hlifecycle]; rfl
      | _ => simp [hvalue, isText] at hstatusText

end

theorem onToolStreamingUpdate_eq (htype : event.eventType = "tool_streaming_update") (v : View) :
    Fold.onToolStreamingUpdate v event = Projection.onToolStreamingUpdate v event := by
  have htexts := h.texts
  have hflags := h.flags
  rw [htype] at htexts hflags
  have hcomplete : (get? event.content "is_complete").any Fold.truthy =
      (get? event.content "is_complete").any Session.truthy := by
    cases hvalue : get? event.content "is_complete" with
    | none => rfl
    | some value => exact truthy_eq (.inr (.inl (hvalue ▸ hflags "is_complete" (by decide))))
  have hdisplay := h.display (by simp [aboutTool, htype])
  simp only [Fold.onToolStreamingUpdate, Projection.onToolStreamingUpdate, append_eq h hinfo,
    hdisplay, hcomplete, contentStr_eq (htexts "tool_call_id" (by decide)),
    contentStr_eq (htexts "tool_name" (by decide)),
    contentStr_eq (htexts "stream_mode" (by decide)), Fold.toolKey, Projection.toolKey,
    subAgentKey_eq h hinfo, Fold.resolve, Projection.resolve, Fold.indexOf, Projection.indexOf,
    Option.none_or]
  rfl

theorem onFileEditPreview_eq (htype : event.eventType = "file_edit_preview") (v : View) :
    Fold.onFileEditPreview v event = Projection.onFileEditPreview v event := by
  have htexts := h.texts
  rw [htype] at htexts
  simp only [Fold.onFileEditPreview, Projection.onFileEditPreview,
    assign_eq (h.content (by simp [htype])), contentStr_eq (htexts "tool_call_id" (by decide)),
    Fold.toolKey, Projection.toolKey, subAgentKey_eq h hinfo]
  rfl

theorem onCompactionStatus_eq (htype : event.eventType = "compaction_status") (v : View) :
    Fold.onCompactionStatus v event = Projection.onCompactionStatus v event := by
  simp only [Fold.onCompactionStatus, Projection.onCompactionStatus, subAgentKey_eq h hinfo,
    assign_eq (h.content (by simp [htype]))]

theorem onStatusUpdate_eq (v : View) :
    Fold.onStatusUpdate v event = Projection.onStatusUpdate v event := by
  simp only [Fold.onStatusUpdate, Projection.onStatusUpdate, subAgentKey_eq h hinfo,
    updateSubAgent_eq h]
  rfl

theorem onTurnEnded_eq (htype : event.eventType = "turn_ended") (v : View) :
    Fold.onTurnEnded v event = Projection.onTurnEnded v event := by
  have htexts := h.texts
  rw [htype] at htexts
  simp only [Fold.onTurnEnded, Projection.onTurnEnded, subAgentKey_eq h hinfo,
    contentStr_eq (htexts "turn_id" (by decide)), contentStr_eq (htexts "status" (by decide))]
  rfl

theorem onStreamTruncated_eq (v : View) :
    Fold.onStreamTruncated v event = Projection.onStreamTruncated v event := append_eq h hinfo _ _

theorem onSystemMessage_eq (v : View) :
    Fold.onSystemMessage v event = Projection.onSystemMessage v event := by
  simp only [Fold.onSystemMessage, Projection.onSystemMessage, append_eq h hinfo]
  rfl

theorem onTurnStarted_eq (htype : event.eventType = "turn_started") (v : View) :
    Fold.onTurnStarted v event = Projection.onTurnStarted v event := by
  have htexts := h.texts
  rw [htype] at htexts
  simp only [Fold.onTurnStarted, Projection.onTurnStarted, subAgentKey_eq h hinfo,
    append_eq h hinfo, consumePeerTurn_eq, contentStr_eq (htexts "turn_id" (by decide)),
    contentStr_eq (htexts "user_text" (by decide))]
  rfl

theorem onContextUpdate_eq (htype : event.eventType = "llm_context_update") (v : View) :
    Projection.onContextUpdate v event = .ok (Fold.onContextUpdate v event) := by
  have hcount : ∀ key ∈ ["input_tokens", "max_tokens", "will_compress_at"],
      Projection.int (Projection.contentNumber event key) = .ok (Fold.contentNumber event key) := by
    intro key hkey
    have hvalue := h.counts htype key hkey
    rw [Projection.contentNumber, Fold.contentNumber]
    cases hget : get? event.content key with
    | none => rfl
    | some value =>
      rw [hget] at hvalue
      cases value with
      | null => rfl
      | int n =>
        by_cases hn : n = 0 <;>
          simp [Recording.orElse, Fold.orElse, Session.truthy, Fold.truthy, hn, Projection.int,
            Fold.number]
      | _ => simp [isCount] at hvalue
  have husage : Projection.float (Projection.contentNumber event "usage_percentage") =
      .ok (Fold.contentNumber event "usage_percentage") := by
    have hvalue := h.usage htype
    rw [Projection.contentNumber, Fold.contentNumber]
    cases hget : get? event.content "usage_percentage" with
    | none => rfl
    | some value =>
      rw [hget] at hvalue
      cases value with
      | null => rfl
      | int n =>
        by_cases hn : n = 0 <;>
          simp [Recording.orElse, Fold.orElse, Session.truthy, Fold.truthy, hn, Projection.float,
            Fold.number]
      | float repr =>
        by_cases hzero : repr = "0.0" ∨ repr = "-0.0"
        · rcases hzero with rfl | rfl <;> rfl
        · rw [not_or] at hzero
          simp [Recording.orElse, Fold.orElse, Session.truthy, Fold.truthy, hzero,
            Projection.float, Fold.number]
      | _ => simp [isNumber] at hvalue
  have htexts := h.texts
  rw [htype] at htexts
  simp only [Projection.onContextUpdate, Fold.onContextUpdate,
    hcount "input_tokens" (by decide), hcount "max_tokens" (by decide), husage,
    hcount "will_compress_at" (by decide), subAgentKey_eq h hinfo, updateSubAgent_eq h,
    assign_eq (h.content (by simp [htype])), contentStr_eq (htexts "alert_level" (by decide))]
  cases Projection.subAgentKey event <;> rfl

omit hinfo in
theorem onControlRequested_eq (htype : event.eventType = "control_requested") (v : View) :
    Projection.onControlRequested v event = .ok (Fold.onControlRequested v event) := by
  have htexts := h.texts
  rw [htype] at htexts
  have hpayload : Projection.dict (get? event.content "payload") =
      .ok (Fold.assignOr (get? event.content "payload")) := by
    have hvalue := h.payload htype
    rw [Projection.dict, Fold.assignOr]
    cases hget : get? event.content "payload" with
    | none => rfl
    | some value =>
      rw [hget] at hvalue
      cases value with
      | null => rfl
      | obj fields =>
        have hplain : plain fields := hvalue
        cases fields with
        | nil => rfl
        | cons p fields =>
          simp [Recording.orElse, Fold.orElse, Session.truthy, Fold.truthy, assign_eq hplain]
      | _ => simp [isPlainObject] at hvalue
  simp only [Projection.onControlRequested, Fold.onControlRequested, hpayload,
    contentStr_eq (htexts "request_id" (by decide)), contentStr_eq (htexts "kind" (by decide))]
  split <;> rfl

omit hinfo in
theorem onControlResolved_eq (htype : event.eventType = "control_resolved") (v : View) :
    Fold.onControlResolved v event = Projection.onControlResolved v event := by
  have htexts := h.texts
  rw [htype] at htexts
  have hvalue := h.response htype
  simp only [Fold.onControlResolved, Projection.onControlResolved,
    contentStr_eq (htexts "request_id" (by decide)), contentStr_eq (htexts "reason" (by decide))]
  cases hget : get? event.content "response" with
  | none => rfl
  | some value =>
    rw [hget] at hvalue
    cases value with
    | obj fields =>
      have hplain : plain fields := hvalue
      simp only [assign_eq hplain]
      rfl
    | arr xs => simp [isPlainResponse] at hvalue
    | _ => rfl

end Handlers

/-- The event is of a type that both projections handle. -/
def Known (event : AgentEvent) : Prop := event.eventType ∈ Assoc.keys Projection.HANDLERS

instance (event : AgentEvent) : Decidable (Known event) :=
  inferInstanceAs (Decidable (event.eventType ∈ Assoc.keys Projection.HANDLERS))

/-- Handlers of one type that do the same. -/
def Matching (name : String) (p : Projection.Handler) (j : Fold.Handler) : Prop :=
  ∀ event, event.eventType = name → Alike event → event.subAgentInfo ≠ some [] →
    ∀ s : PresentationState, Sound s.buffer →
      ∃ s', p s event = .ok s' ∧ web s' = j (web s) event ∧ Sound s'.buffer

theorem matching_view {f : View → AgentEvent → View}
    (hfg : ∀ event, event.eventType = name → Alike event → event.subAgentInfo ≠ some [] →
      ∀ v, g v event = f v event) : Matching name (Projection.onView f) (Fold.onView g) := by
  intro event htype h hinfo s hsound
  refine ⟨_, rfl, ?_, hsound⟩
  rw [Fold.onView, web_toView, hfg event htype h hinfo]
  rfl

theorem matching_viewM {f : View → AgentEvent → Except String View}
    (hfg : ∀ event, event.eventType = name → Alike event → event.subAgentInfo ≠ some [] →
      ∀ v, f v event = .ok (g v event)) : Matching name (Projection.onViewM f) (Fold.onView g) := by
  intro event htype h hinfo s hsound
  refine ⟨{ s with toView := g s.toView event }, ?_, rfl, hsound⟩
  rw [Projection.onViewM, hfg event htype h hinfo]
  rfl

theorem matching_terminalOutput : Matching "terminal_output"
    (fun s event => .ok (Projection.onTerminalOutput s event)) Fold.onTerminalOutput :=
  fun _ _ _ _ s hsound => ⟨_, rfl, appendTerminal_web s _ hsound⟩

theorem matching_terminalCommand : Matching "terminal_command"
    (fun s event => .ok (Projection.onTerminalCommand s event)) Fold.onTerminalCommand := by
  intro event _ _ _ s hsound
  refine ⟨_, rfl, ?_⟩
  have hactivity : ∀ s : PresentationState, web { s with activity := "running_tool" } =
      { web s with activity := "running_tool" } := fun _ => rfl
  rw [Projection.onTerminalCommand, Fold.onTerminalCommand]
  have htext : Fold.textOf event ["command"] = Projection.textOf event ["command"] := rfl
  rw [htext]
  by_cases hcommand : Projection.textOf event ["command"] = ""
  · rw [if_neg (not_not_intro hcommand), if_neg (not_not_intro hcommand)]
    exact ⟨rfl, hsound⟩
  · rw [if_pos hcommand, if_pos hcommand]
    obtain ⟨hweb, hsound⟩ := appendTerminal_web s _ hsound
    rw [← hweb]
    exact ⟨hactivity _, hsound⟩

/-- **The tables of handlers match.** -/
theorem handlers_match {p : Projection.Handler} (hmem : (name, p) ∈ Projection.HANDLERS) :
    ∃ j, Fold.HANDLERS.get? name = some j ∧ Matching name p j := by
  have hall : ∀ q ∈ Projection.HANDLERS, ∃ j, Fold.HANDLERS.get? q.1 = some j ∧
      Matching q.1 q.2 j := by
    have hignore : ∀ name, Matching name (Projection.onView Projection.ignore)
        (Fold.onView Fold.ignore) := fun _ => matching_view fun _ _ _ _ _ => rfl
    have hstatus : ∀ name, Matching name (Projection.onView Projection.onStatusUpdate)
        (Fold.onView Fold.onStatusUpdate) :=
      fun _ => matching_view fun _ _ h hinfo v => onStatusUpdate_eq h hinfo v
    have hpeer : ∀ name status, Matching name
        (Projection.onView (Projection.onPeerMessage status))
        (Fold.onView (Fold.onPeerMessage status)) :=
      fun _ _ => matching_view fun _ _ _ _ _ => rfl
    simp only [Projection.HANDLERS, List.forall_mem_cons]
    refine ⟨⟨_, rfl, matching_view fun event htype h hinfo v => ?_⟩,
      ⟨_, rfl, matching_view fun event htype h hinfo v => ?_⟩,
      ⟨_, rfl, matching_view fun event htype h hinfo v => onChatMessage_eq h hinfo htype v⟩,
      ⟨_, rfl, matching_view fun event htype h hinfo v => onToolStreamingUpdate_eq h hinfo htype v⟩,
      ⟨_, rfl, matching_terminalCommand⟩, ⟨_, rfl, matching_terminalOutput⟩,
      ⟨_, rfl, hignore _⟩, ⟨_, rfl, hignore _⟩,
      ⟨_, rfl, matching_view fun event htype h hinfo v => ?_⟩,
      ⟨_, rfl, matching_view fun event htype h hinfo v => onFileEditPreview_eq h hinfo htype v⟩,
      ⟨_, rfl, matching_viewM fun event htype h hinfo v => onContextUpdate_eq h hinfo htype v⟩,
      ⟨_, rfl, matching_view fun event htype h hinfo v => onCompactionStatus_eq h hinfo htype v⟩,
      ⟨_, rfl, hstatus _⟩, ⟨_, rfl, hstatus _⟩,
      ⟨_, rfl, matching_view fun event htype h hinfo v => onTurnStarted_eq h hinfo htype v⟩,
      ⟨_, rfl, matching_view fun event htype h hinfo v => onTurnEnded_eq h hinfo htype v⟩,
      ⟨_, rfl, matching_view fun event htype h hinfo v => ?_⟩,
      ⟨_, rfl, matching_view fun event htype h hinfo v => ?_⟩,
      ⟨_, rfl, matching_view fun event htype h hinfo v => onStreamTruncated_eq h hinfo v⟩,
      ⟨_, rfl, matching_viewM fun event htype h hinfo v => onControlRequested_eq h htype v⟩,
      ⟨_, rfl, matching_view fun event htype h hinfo v => onControlResolved_eq h htype v⟩,
      ⟨_, rfl, matching_view fun event htype h hinfo v => onSystemMessage_eq h hinfo v⟩,
      ⟨_, rfl, hpeer _ _⟩, ⟨_, rfl, hpeer _ _⟩, ⟨_, rfl, hignore _⟩, ⟨_, rfl, hstatus _⟩,
      ⟨_, rfl, hignore _⟩, ⟨_, rfl, hignore _⟩, fun _ hmem => nomatch hmem⟩
    · exact onAssistantDelta_eq h hinfo (h.flags _ (by rw [htype]; decide)) _ v
    · exact onAssistantDelta_eq h hinfo (h.flags _ (by rw [htype]; decide)) _ v
    · rw [Fold.onLogMessage, contentStr_eq (h.texts _ (by rw [htype]; decide))]
      rfl
    · rw [Fold.onBrowserLaunched, contentStr_eq (h.texts _ (by rw [htype]; decide))]
      rfl
    · rw [Fold.onBrowserClosed, contentStr_eq (h.texts _ (by rw [htype]; decide))]
      rfl
  exact hall _ hmem

/-! ### Folding -/

/-- **One event.**  Both folds raise the same error or go on to states that show the same. -/
theorem fold_agree (h : Alike event) (hinfo : event.subAgentInfo ≠ some []) (hknown : Known event)
    (hsound : Sound s.buffer) :
    (∃ s', Projection.fold s event = .ok s' ∧ Fold.fold (web s) event = .ok (web s') ∧
      Sound s'.buffer) ∨
    ∃ error, Projection.fold s event = .error error ∧ Fold.fold (web s) event = .error error := by
  have hadvance : Fold.advance (web s).toView event = Projection.advance s.toView event := rfl
  rw [Projection.fold, Fold.fold, hadvance]
  cases Projection.advance s.toView event with
  | error error => exact .inr ⟨error, rfl, rfl⟩
  | ok v =>
    cases hp : Projection.HANDLERS.get? event.eventType with
    | none => exact absurd hknown (Assoc.get?_eq_none_iff.mp hp)
    | some p =>
      obtain ⟨j, hj, hmatching⟩ := handlers_match (Assoc.mem_of_get? hp)
      obtain ⟨s', hs', hweb, hsound'⟩ := hmatching event rfl h hinfo { s with toView := v } hsound
      refine .inl ⟨s', hs', ?_, hsound'⟩
      simp only [hj, hweb]
      rfl

theorem foldlM_agree {events : List AgentEvent}
    (h : ∀ e ∈ events, Alike e ∧ e.subAgentInfo ≠ some [] ∧ Known e) (hsound : Sound s.buffer) :
    (events.foldlM Projection.fold s).map web = events.foldlM Fold.fold (web s) := by
  induction events generalizing s with
  | nil => rfl
  | cons e events ih =>
    obtain ⟨halike, hinfo, hknown⟩ := h e List.mem_cons_self
    rw [List.foldlM_cons, List.foldlM_cons]
    rcases fold_agree halike hinfo hknown hsound with ⟨s', hp, hj, hsound'⟩ | ⟨error, hp, hj⟩
    · rw [hp, hj]
      exact ih (fun e he => h e (List.mem_cons_of_mem _ he)) hsound'
    · rw [hp, hj]
      rfl

end KolegaCode.Presentation
