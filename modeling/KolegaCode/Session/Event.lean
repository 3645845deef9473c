import KolegaCode.Lib.Except
import KolegaCode.Lib.JsonText

/-!
# Session — events

`SessionEvent` and its JSON object: `toDict` is what is written to the log, `fromDict` checks what
is read.  An event that satisfies `WellFormed` comes back as it was written
(`fromDict_toDict`).
-/

namespace KolegaCode.Session

open Json (Dict get?)

def publicEventSchema : String := "kolega.session.event"

/-- The agent an event is recorded for, with the names `fromDict` asks for. -/
structure AgentStamp where
  agentId : String
  agentName : String
  parentAgentId : Option String
  parentToolCallId : Option String
  depth : Nat
  agentId_ne : agentId ≠ ""
  agentName_ne : agentName ≠ ""
  parentAgentId_ne : parentAgentId ≠ some ""
  parentToolCallId_ne : parentToolCallId ≠ some ""
deriving DecidableEq

structure SessionEvent where
  version : Int
  eventId : String
  sessionId : String
  seq : Int
  epochId : String
  turnId : Option String
  timestamp : String
  actor : String
  eventType : String
  payload : Dict
  artifacts : List Dict
  agentId : Option String := none
  agentName : Option String := none
  parentAgentId : Option String := none
  parentToolCallId : Option String := none
  depth : Option Int := none
deriving Repr, DecidableEq

/-! ### Python values -/

/-- `bool(value)`. -/
def truthy : Json → Bool
  | .null => false
  | .bool b => b
  | .int n => n ≠ 0
  | .float repr => repr ≠ "0.0" && repr ≠ "-0.0"
  | .str s => s ≠ ""
  | .arr xs => !xs.isEmpty
  | .obj fs => !fs.isEmpty

/-- The integer of a value for which `isinstance(value, int)` holds; a boolean is one. -/
def asInt? : Json → Option Int
  | .int n => some n
  | .bool b => some (if b then 1 else 0)
  | _ => none

def asDict? : Json → Option Dict
  | .obj fs => some fs
  | _ => none

/-- `str(value)`; a list or a dictionary is shown as its JSON text. -/
def strOf : Json → String
  | .null => "None"
  | .bool b => if b then "True" else "False"
  | .int n => toString n
  | .float repr => repr
  | .str s => s
  | v => String.ofList (Json.dumps v)

/-- `None`, or a string. -/
def optStr : Option String → Json
  | none => .null
  | some s => .str s

namespace SessionEvent

/-- `event.depth` is truthy: the event belongs to a subagent. -/
def sub (e : SessionEvent) : Bool := e.depth.any (· ≠ 0)

/-! ### Writing -/

def toDict (e : SessionEvent) : Dict :=
  [("version", .int e.version),
   ("id", .str e.eventId),
   ("session_id", .str e.sessionId),
   ("seq", .int e.seq),
   ("epoch_id", .str e.epochId),
   ("turn_id", optStr e.turnId),
   ("timestamp", .str e.timestamp),
   ("actor", .str e.actor),
   ("type", .str e.eventType),
   ("payload", .obj e.payload),
   ("artifacts", .arr (e.artifacts.map .obj))] ++
  if 2 ≤ e.version then
    [("schema", .str publicEventSchema),
     ("agent_id", optStr e.agentId),
     ("agent_name", optStr e.agentName),
     ("parent_agent_id", optStr e.parentAgentId),
     ("parent_tool_call_id", optStr e.parentToolCallId),
     ("depth", (e.depth.map Json.int).getD .null)]
  else []

/-! ### Reading -/

/-- The fields every event has, in alphabetical order. -/
def required : List String :=
  ["actor", "epoch_id", "id", "payload", "seq", "session_id", "timestamp", "type", "version"]

def missing (data : Dict) : List String := required.filter fun field => (get? data field).isNone

/-- The version, if it is a supported one. -/
def checkVersion (value : Json) : Except String Int :=
  match asInt? value with
  | some n =>
    if n = 1 ∨ n = 2 then .ok n
    else .error ("Unsupported session event version: " ++ strOf value)
  | none => .error ("Unsupported session event version: " ++ strOf value)

def checkSeq (value : Json) : Except String Int :=
  match asInt? value with
  | some n =>
    if n < 1 then .error "Session event sequence must be a positive integer" else .ok n
  | none => .error "Session event sequence must be a positive integer"

def checkPayload : Json → Except String Dict
  | .obj fs => .ok fs
  | _ => .error "Session event payload must be an object"

/-- The items of a list whose items are all dictionaries. -/
def dicts? : List Json → Option (List Dict)
  | [] => some []
  | x :: xs => do
    let fs ← asDict? x
    let rest ← dicts? xs
    some (fs :: rest)

/-- `data.get("artifacts") or []`, which has to be a list of dictionaries. -/
def checkArtifacts (value : Option Json) : Except String (List Dict) :=
  match value.filter truthy with
  | none => .ok []
  | some (.arr xs) =>
    match dicts? xs with
    | some refs => .ok refs
    | none => .error "Session event artifacts must be a list of objects"
  | some _ => .error "Session event artifacts must be a list of objects"

def checkText (data : Dict) (field : String) : Except String String :=
  match get? data field with
  | some (.str s) =>
    if s = "" then .error s!"Session event field {field} must be a non-empty string" else .ok s
  | _ => .error s!"Session event field {field} must be a non-empty string"

def checkDepth (value : Option Json) : Except String Int :=
  match value.bind asInt? with
  | some n =>
    if n < 0 then .error "Session event depth must be a non-negative integer" else .ok n
  | none => .error "Session event depth must be a non-negative integer"

def checkParent (data : Dict) (field : String) : Except String (Option String) :=
  match get? data field with
  | none | some .null => .ok none
  | some (.str s) =>
    if s = "" then .error s!"Session event field {field} must be null or a non-empty string"
    else .ok (some s)
  | some _ => .error s!"Session event field {field} must be null or a non-empty string"

/-- `str(data["turn_id"]) if data.get("turn_id") is not None else None`. -/
def turnIdOf (data : Dict) : Option String :=
  match get? data "turn_id" with
  | none | some .null => none
  | some v => some (strOf v)

/-- The fields a version 2 event adds. -/
def withLineage (data : Dict) (e : SessionEvent) : Except String SessionEvent := do
  let agentId ← checkText data "agent_id"
  let agentName ← checkText data "agent_name"
  let depth ← checkDepth (get? data "depth")
  let parentAgentId ← checkParent data "parent_agent_id"
  let parentToolCallId ← checkParent data "parent_tool_call_id"
  return { e with
    agentId := some agentId
    agentName := some agentName
    parentAgentId := parentAgentId
    parentToolCallId := parentToolCallId
    depth := some depth }

def fromDict (data : Dict) : Except String SessionEvent := do
  if missing data ≠ [] then
    throw ("Session event is missing fields: " ++ ", ".intercalate (missing data))
  let version ← checkVersion ((get? data "version").getD .null)
  let seq ← checkSeq ((get? data "seq").getD .null)
  let payload ← checkPayload ((get? data "payload").getD .null)
  let artifacts ← checkArtifacts (get? data "artifacts")
  let eventId ← checkText data "id"
  let sessionId ← checkText data "session_id"
  let epochId ← checkText data "epoch_id"
  let timestamp ← checkText data "timestamp"
  let actor ← checkText data "actor"
  let eventType ← checkText data "type"
  let e : SessionEvent :=
    { version := version, eventId := eventId, sessionId := sessionId, seq := seq
      epochId := epochId, turnId := turnIdOf data, timestamp := timestamp, actor := actor
      eventType := eventType, payload := payload, artifacts := artifacts }
  if 2 ≤ version then withLineage data e else return e

/-! ### Round trip -/

/-- The lineage of a version 2 event. -/
structure HasLineage (e : SessionEvent) : Prop where
  agentId : ∃ a, a ≠ "" ∧ e.agentId = some a
  agentName : ∃ a, a ≠ "" ∧ e.agentName = some a
  depth : ∃ d, 0 ≤ d ∧ e.depth = some d
  parentAgentId : e.parentAgentId ≠ some ""
  parentToolCallId : e.parentToolCallId ≠ some ""

/-- A version 1 event has no lineage. -/
structure NoLineage (e : SessionEvent) : Prop where
  agentId : e.agentId = none
  agentName : e.agentName = none
  parentAgentId : e.parentAgentId = none
  parentToolCallId : e.parentToolCallId = none
  depth : e.depth = none

/-- An event that `fromDict` accepts, with values Python can hold. -/
structure WellFormed (e : SessionEvent) : Prop where
  lineage : e.version = 2 ∧ e.HasLineage ∨ e.version = 1 ∧ e.NoLineage
  seq : 1 ≤ e.seq
  eventId : e.eventId ≠ ""
  sessionId : e.sessionId ≠ ""
  epochId : e.epochId ≠ ""
  timestamp : e.timestamp ≠ ""
  actor : e.actor ≠ ""
  eventType : e.eventType ≠ ""
  payload : Json.Canonical (.obj e.payload)
  artifacts : ∀ ref ∈ e.artifacts, Json.Canonical (.obj ref)

theorem WellFormed.withSeq {e : SessionEvent} (h : e.WellFormed) {n : Int} (hn : 1 ≤ n) :
    { e with seq := n }.WellFormed where
  lineage := by
    rcases h.lineage with ⟨hv, hl⟩ | ⟨hv, hl⟩
    · exact .inl ⟨hv, ⟨hl.agentId, hl.agentName, hl.depth, hl.parentAgentId, hl.parentToolCallId⟩⟩
    · exact .inr ⟨hv, ⟨hl.agentId, hl.agentName, hl.parentAgentId, hl.parentToolCallId, hl.depth⟩⟩
  seq := hn
  eventId := h.eventId
  sessionId := h.sessionId
  epochId := h.epochId
  timestamp := h.timestamp
  actor := h.actor
  eventType := h.eventType
  payload := h.payload
  artifacts := h.artifacts

theorem dicts?_map_obj (refs : List Dict) : dicts? (refs.map Json.obj) = some refs := by
  induction refs with
  | nil => rfl
  | cons fs refs ih =>
    rw [List.map_cons, dicts?, ih]
    rfl

theorem checkArtifacts_map_obj (refs : List Dict) :
    checkArtifacts (some (.arr (refs.map Json.obj))) = .ok refs := by
  cases refs with
  | nil => rfl
  | cons fs refs =>
    have ht : truthy (.arr ((fs :: refs).map Json.obj)) = true := rfl
    rw [checkArtifacts, Option.filter_some_pos ht]
    dsimp only
    rw [dicts?_map_obj]

theorem checkText_eq_ok {data : Dict} {field s : String} (h : get? data field = some (.str s))
    (hs : s ≠ "") : checkText data field = .ok s := by
  rw [checkText, h]
  exact if_neg hs

theorem checkParent_optStr {data : Dict} {field : String} {p : Option String}
    (h : get? data field = some (optStr p)) (hp : p ≠ some "") : checkParent data field = .ok p := by
  rw [checkParent, h]
  cases p with
  | none => rfl
  | some s =>
    refine if_neg ?_
    intro hs
    exact hp (congrArg some hs)

theorem turnIdOf_optStr {data : Dict} {t : Option String}
    (h : get? data "turn_id" = some (optStr t)) : turnIdOf data = t := by
  rw [turnIdOf, h]
  cases t <;> rfl

/-- The fields of every event stand in front of those of its lineage. -/
theorem get?_toDict (e : SessionEvent) :
    get? e.toDict "version" = some (.int e.version) ∧ get? e.toDict "id" = some (.str e.eventId) ∧
    get? e.toDict "session_id" = some (.str e.sessionId) ∧
    get? e.toDict "seq" = some (.int e.seq) ∧ get? e.toDict "epoch_id" = some (.str e.epochId) ∧
    get? e.toDict "turn_id" = some (optStr e.turnId) ∧
    get? e.toDict "timestamp" = some (.str e.timestamp) ∧
    get? e.toDict "actor" = some (.str e.actor) ∧ get? e.toDict "type" = some (.str e.eventType) ∧
    get? e.toDict "payload" = some (.obj e.payload) ∧
    get? e.toDict "artifacts" = some (.arr (e.artifacts.map .obj)) := by
  simp [toDict, Json.get?_cons]

theorem missing_toDict (e : SessionEvent) : missing e.toDict = [] := by
  obtain ⟨h1, h2, h3, h4, h5, -, h7, h8, h9, h10, -⟩ := get?_toDict e
  simp [missing, required, h1, h2, h3, h4, h5, h7, h8, h9, h10]

theorem withLineage_toDict {e e' : SessionEvent} (hv : e.version = 2) (h : e.HasLineage)
    (he : { e' with
      agentId := e.agentId, agentName := e.agentName, parentAgentId := e.parentAgentId
      parentToolCallId := e.parentToolCallId, depth := e.depth } = e) :
    withLineage e.toDict e' = .ok e := by
  obtain ⟨a, ha, hae⟩ := h.agentId
  obtain ⟨n, hn, hne⟩ := h.agentName
  obtain ⟨d, hd, hde⟩ := h.depth
  have hdict : get? e.toDict "agent_id" = some (.str a) ∧
      get? e.toDict "agent_name" = some (.str n) ∧
      get? e.toDict "depth" = some (.int d) ∧
      get? e.toDict "parent_agent_id" = some (optStr e.parentAgentId) ∧
      get? e.toDict "parent_tool_call_id" = some (optStr e.parentToolCallId) := by
    simp [toDict, Json.get?_cons, hv, hae, hne, hde, optStr]
  obtain ⟨h1, h2, h3, h4, h5⟩ := hdict
  have hdepth : checkDepth (get? e.toDict "depth") = .ok d := by
    rw [h3, checkDepth]
    exact if_neg (by omega)
  rw [withLineage, checkText_eq_ok h1 ha, checkText_eq_ok h2 hn, hdepth,
    checkParent_optStr h4 h.parentAgentId, checkParent_optStr h5 h.parentToolCallId]
  rw [hae, hne, hde] at he
  exact congrArg Except.ok he

/-- **What is written is read back.** -/
theorem fromDict_toDict {e : SessionEvent} (h : e.WellFormed) : fromDict e.toDict = .ok e := by
  obtain ⟨h1, h2, h3, h4, h5, h6, h7, h8, h9, h10, h11⟩ := get?_toDict e
  have hver : checkVersion (.int e.version) = .ok e.version := by
    rcases h.lineage with ⟨hv, -⟩ | ⟨hv, -⟩ <;> rw [hv] <;> rfl
  have hseq : checkSeq (.int e.seq) = .ok e.seq := if_neg (by have := h.seq; omega)
  rw [fromDict, missing_toDict, if_neg (by simp), h1, h4, h10, h11, turnIdOf_optStr h6,
    checkText_eq_ok h2 h.eventId, checkText_eq_ok h3 h.sessionId, checkText_eq_ok h5 h.epochId,
    checkText_eq_ok h7 h.timestamp, checkText_eq_ok h8 h.actor, checkText_eq_ok h9 h.eventType]
  simp only [Option.getD_some, hver, hseq, checkPayload, checkArtifacts_map_obj]
  rcases h.lineage with ⟨hv, hl⟩ | ⟨hv, hl⟩
  · have hif : (2 : Int) ≤ e.version := by omega
    simp only [bind, Except.bind, pure, Except.pure, if_pos hif]
    exact withLineage_toDict hv hl rfl
  · have hif : ¬ (2 : Int) ≤ e.version := by omega
    simp only [bind, Except.bind, pure, Except.pure, if_neg hif]
    obtain ⟨ha, hn, hp, hc, hd⟩ := hl
    cases e
    simp only at ha hn hp hc hd
    subst ha hn hp hc hd
    rfl

theorem canonicalItems_map_obj {refs : List Dict} (h : ∀ ref ∈ refs, Json.Canonical (.obj ref)) :
    Json.CanonicalItems (refs.map Json.obj) := by
  induction refs with
  | nil => trivial
  | cons fs refs ih => exact ⟨h fs (by simp), ih fun ref hr => h ref (by simp [hr])⟩

theorem canonical_optStr (s : Option String) : Json.Canonical (optStr s) := by
  cases s <;> trivial

theorem canonical_toDict {e : SessionEvent} (h : e.WellFormed) :
    Json.Canonical (.obj e.toDict) := by
  have hrefs := canonicalItems_map_obj h.artifacts
  have hdepth : Json.Canonical ((e.depth.map Json.int).getD .null) := by
    cases e.depth <;> trivial
  rw [Json.Canonical, toDict]
  split
  · refine ⟨by simp, ?_⟩
    exact ⟨trivial, trivial, trivial, trivial, trivial, canonical_optStr _, trivial, trivial,
      trivial, h.payload, hrefs, trivial, canonical_optStr _, canonical_optStr _,
      canonical_optStr _, canonical_optStr _, hdepth, trivial⟩
  · refine ⟨by simp, ?_⟩
    exact ⟨trivial, trivial, trivial, trivial, trivial, canonical_optStr _, trivial, trivial,
      trivial, h.payload, hrefs, trivial⟩

end SessionEvent

end KolegaCode.Session
