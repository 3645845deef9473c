import KolegaCode.Lib.JsonDict
import KolegaCode.Session.Event

/-!
# Session — metadata

A session's metadata is kept twice: as the snapshot `metadata.json`, and as patches in the journal.
`save` journals the fields that changed and then writes the snapshot.  A workspace switch journals
the new root only, and writes the snapshot with whatever else the record holds.  `load` takes the
snapshot and applies every patch of the journal to it again, so a field that an earlier `save`
patched and a switch changed comes back with the earlier value.

A dictionary's keys are in the order of the file, which is sorted, so that two dictionaries that
Python holds equal are equal here.
-/

namespace KolegaCode.SessionStore

open Json (Dict get? set update dictOf)
open Session (truthy)

/-! ### Records -/

structure SessionRecord where
  schemaVersion : Json
  sessionId : Json
  projectPath : Json
  workspaceId : Json
  threadId : Json
  mode : Json
  name : Json
  title : Json
  description : Json
  titlePinned : Json
  createdAt : Json
  updatedAt : Json
  config : Json
  taskListMarkdown : Json
  latestPlanMarkdown : Json
  planPending : Json
  planReofferable : Json
  interactionMode : Json
  permissionMode : Json
  gigacodeEnabled : Json
  webSearchMode : Json
  goal : Json
  loop : Json
  activeProjectPath : Json
  parentSessionId : Json

def SessionRecord.toMetadataDict (r : SessionRecord) : Dict :=
  [("schema_version", r.schemaVersion),
   ("session_id", r.sessionId),
   ("project_path", r.projectPath),
   ("workspace_id", r.workspaceId),
   ("thread_id", r.threadId),
   ("mode", r.mode),
   ("name", r.name),
   ("title", r.title),
   ("description", r.description),
   ("title_pinned", r.titlePinned),
   ("created_at", r.createdAt),
   ("updated_at", r.updatedAt),
   ("config", r.config),
   ("task_list_markdown", r.taskListMarkdown),
   ("latest_plan_markdown", r.latestPlanMarkdown),
   ("plan_pending", r.planPending),
   ("plan_reofferable", r.planReofferable),
   ("interaction_mode", r.interactionMode),
   ("permission_mode", r.permissionMode),
   ("gigacode_enabled", r.gigacodeEnabled),
   ("web_search_mode", r.webSearchMode),
   ("goal", r.goal),
   ("loop", r.loop),
   ("active_project_path", r.activeProjectPath),
   ("parent_session_id", r.parentSessionId)]

inductive StoreError where
  | unsupportedSchemaVersion (version : Option Json)
  | keyError (key : String)
  | immutableProjectPath (stored given : Json)
  | noRecoverableMetadata
  | unsettledContext
deriving DecidableEq

/-- `data[key]`. -/
def require (data : Dict) (key : String) : Except StoreError Json :=
  match get? data key with
  | some value => .ok value
  | none => .error (.keyError key)

/-- `data.get(key) or default`. -/
def getOr (data : Dict) (key : String) (default : Json) : Json :=
  match get? data key with
  | some value => if truthy value then value else default
  | none => default

/-- `bool(data.get(key, default))`. -/
def getBool (data : Dict) (key : String) (default : Bool) : Bool :=
  match get? data key with
  | some value => truthy value
  | none => default

/-- `SessionRecord.from_dict`; `generated` is the name `generate_session_name` would give. -/
def SessionRecord.fromDict (generated : String) (data : Dict) : Except StoreError SessionRecord := do
  if get? data "schema_version" ≠ some (.int 1) then
    .error (.unsupportedSchemaVersion (get? data "schema_version"))
  else
    let latestPlanMarkdown := getOr data "latest_plan_markdown" (.str "")
    let planPending := truthy latestPlanMarkdown && getBool data "plan_pending" false
    let rawTitle := getOr data "title" (.str "")
    let name := getOr data "name" (if truthy rawTitle then rawTitle else .str generated)
    let sessionId ← require data "session_id"
    let projectPath ← require data "project_path"
    let workspaceId ← require data "workspace_id"
    let threadId ← require data "thread_id"
    let mode ← require data "mode"
    let createdAt ← require data "created_at"
    let updatedAt ← require data "updated_at"
    .ok
      { schemaVersion := .int 1
        sessionId := sessionId
        projectPath := projectPath
        workspaceId := workspaceId
        threadId := threadId
        mode := mode
        name := name
        title := if truthy rawTitle then rawTitle else name
        description := getOr data "description" (.str "")
        titlePinned := .bool (getBool data "title_pinned" false)
        createdAt := createdAt
        updatedAt := updatedAt
        config := getOr data "config" (.obj [])
        taskListMarkdown := getOr data "task_list_markdown" (.str "")
        latestPlanMarkdown := latestPlanMarkdown
        planPending := .bool planPending
        planReofferable :=
          .bool (truthy latestPlanMarkdown && getBool data "plan_reofferable" planPending)
        interactionMode := getOr data "interaction_mode" (.str "build")
        permissionMode := getOr data "permission_mode" (.str "ask")
        gigacodeEnabled := .bool (getBool data "gigacode_enabled" false)
        webSearchMode := getOr data "web_search_mode" .null
        goal := getOr data "goal" (.obj [])
        loop := getOr data "loop" (.obj [])
        activeProjectPath := getOr data "active_project_path" .null
        parentSessionId := getOr data "parent_session_id" .null }

/-! ### The store -/

/-- An event of the journal, as far as it bears on the metadata. -/
inductive Event where
  | created (metadata : Option Dict)
  | metadataUpdated (patch : Dict)
  | workspaceSwitched (newRoot : String)
  | other
deriving DecidableEq

/-- The snapshot, where it can be read, and the journal. -/
structure Store where
  snapshot : Option Dict
  events : List Event

/-- What a switch to `newRoot` stores: the launch checkout is stored as `None`. -/
def activePath (newRoot : String) (projectPath : Option Json) : Json :=
  if some (.str newRoot) ≠ projectPath then .str newRoot else .null

def applyEvent (result : Dict) : Event → Dict
  | .metadataUpdated patch => update result patch
  | .workspaceSwitched newRoot =>
    set result "active_project_path" (activePath newRoot (get? result "project_path"))
  | _ => result

/-- `_metadata_with_event_patches`. -/
def metadataWithEventPatches (metadata : Dict) (events : List Event) : Dict :=
  events.foldl applyEvent metadata

/-- The metadata of the first `session.created` event that has some. -/
def createdMetadata (events : List Event) : Option Dict :=
  events.findSome? fun
    | .created metadata => metadata
    | _ => none

/-- `_metadata_projection`; `repaired` says that writing the snapshot anew succeeds. -/
def metadataProjection (generated : String) (repaired : Bool) (s : Store) :
    Except StoreError Dict × Store :=
  match s.snapshot.or (createdMetadata s.events) with
  | none => (.error .noRecoverableMetadata, s)
  | some metadata =>
    let metadata := metadataWithEventPatches metadata s.events
    match SessionRecord.fromDict generated metadata with
    | .error e => (.error e, s)
    | .ok _ =>
      (.ok metadata,
        if s.snapshot ≠ some metadata ∧ repaired then { s with snapshot := some metadata } else s)

/-- `_validate_immutable_project_path`. -/
def validateImmutableProjectPath (record : SessionRecord) (current : Dict) : Except StoreError Unit :=
  match get? current "project_path" with
  | none | some .null => .ok ()
  | some stored =>
    if record.projectPath ≠ stored then .error (.immutableProjectPath stored record.projectPath)
    else .ok ()

/-- The record as it is written, at the time `now`. -/
def SessionRecord.touched (record : SessionRecord) (now : String) : SessionRecord :=
  { record with updatedAt := .str now }

/-- The fields of `updated` that `current.get` does not give. -/
def changedFields (current updated : Dict) : Dict :=
  updated.filter fun p => (get? current p.1).getD .null ≠ p.2

/-- What is journaled and written, once the current metadata is known. -/
def saveOver (current : Dict) (record : SessionRecord) (now : String) (s : Store) :
    Except StoreError Unit × Store :=
  match validateImmutableProjectPath record current with
  | .error e => (.error e, s)
  | .ok () =>
    let updated := (record.touched now).toMetadataDict
    let patch := changedFields current updated
    (.ok (),
      { snapshot := some updated
        events := if patch ≠ [] then s.events ++ [.metadataUpdated patch] else s.events })

/-- `SessionStore.save`. -/
def save (generated : String) (repaired : Bool) (record : SessionRecord) (now : String) (s : Store) :
    Except StoreError Unit × Store :=
  match s.snapshot with
  | some current => saveOver current record now s
  | none =>
    match metadataProjection generated repaired s with
    | (.error e, s) => (.error e, s)
    | (.ok current, s) => saveOver current record now s

/-- `SessionStore.save_workspace_switch`.  The recorder refuses the event while its context is not
`settled`; `refreshed` says that writing the snapshot succeeds. -/
def saveWorkspaceSwitch (generated : String) (repaired : Bool) (record : SessionRecord)
    (now newRoot : String) (settled refreshed : Bool) (s : Store) : Except StoreError Unit × Store :=
  match metadataProjection generated repaired s with
  | (.error e, s) => (.error e, s)
  | (.ok current, s) =>
    match validateImmutableProjectPath record current with
    | .error e => (.error e, s)
    | .ok () =>
      if settled then
        (.ok (),
          { snapshot := if refreshed then some (record.touched now).toMetadataDict else s.snapshot
            events := s.events ++ [.workspaceSwitched newRoot] })
      else (.error .unsettledContext, s)

/-- `SessionStore.load`, its metadata. -/
def load (generated : String) (repaired : Bool) (s : Store) :
    Except StoreError SessionRecord × Store :=
  match metadataProjection generated repaired s with
  | (.error e, s) => (.error e, s)
  | (.ok metadata, s) => (SessionRecord.fromDict generated metadata, s)

/-- The store of a session that was just created. -/
def Store.create (record : SessionRecord) : Store where
  snapshot := some record.toMetadataDict
  events := [.created (some record.toMetadataDict), .other]

/-! ### Dictionaries with the same items -/

/-- What is read from the two is the same. -/
def Same (d d' : Dict) : Prop := ∀ key, get? d key = get? d' key

theorem fromDict_same {d d' : Dict} (h : Same d d') (generated : String) :
    SessionRecord.fromDict generated d = SessionRecord.fromDict generated d' := by
  have hget : get? d = get? d' := funext h
  have hrequire : require d = require d' := by
    funext key
    rw [require, require, hget]
  have hor : getOr d = getOr d' := by
    funext key default
    rw [getOr, getOr, hget]
  have hbool : getBool d = getBool d' := by
    funext key default
    rw [getBool, getBool, hget]
  rw [SessionRecord.fromDict, SessionRecord.fromDict, hget, hrequire, hor, hbool]

theorem validate_same {d d' : Dict} (h : Same d d') (record : SessionRecord) :
    validateImmutableProjectPath record d = validateImmutableProjectPath record d' := by
  rw [validateImmutableProjectPath, validateImmutableProjectPath, h]

section

variable (record record' : SessionRecord)

theorem keys_toMetadataDict :
    record.toMetadataDict.map Prod.fst = record'.toMetadataDict.map Prod.fst := rfl

theorem nodup_toMetadataDict : (record.toMetadataDict.map Prod.fst).Nodup := by
  simp only [SessionRecord.toMetadataDict, List.map_cons, List.map_nil]
  decide

theorem get?_project_path :
    get? record.toMetadataDict "project_path" = some record.projectPath := rfl

theorem get?_active_project_path :
    get? record.toMetadataDict "active_project_path" = some record.activeProjectPath := rfl

theorem get?_toMetadataDict_eq_none {field : String} :
    get? record.toMetadataDict field = none ↔ get? record'.toMetadataDict field = none := by
  rw [Json.get?_eq_none_iff, Json.get?_eq_none_iff, keys_toMetadataDict record record']

end

/-! ### What the journal does to a field -/

/-- The value a patch gives the field. -/
def Event.patched (field : String) : Event → Option Json
  | .metadataUpdated patch => get? (dictOf patch) field
  | _ => none

/-- The value the last patch gives the field. -/
def lastPatched (field : String) (events : List Event) : Option Json :=
  events.reverse.findSome? (Event.patched field)

variable {d d' : Dict} {events : List Event} {field : String}

theorem patched_concat (d : Dict) (events : List Event) (event : Event) :
    metadataWithEventPatches d (events ++ [event]) =
      applyEvent (metadataWithEventPatches d events) event := by
  rw [metadataWithEventPatches, List.foldl_append]
  rfl

theorem get?_applyEvent (hfield : field ≠ "active_project_path") (d : Dict) (event : Event) :
    get? (applyEvent d event) field = (event.patched field).or (get? d field) := by
  cases event with
  | metadataUpdated patch => exact Json.get?_update d patch field
  | workspaceSwitched newRoot =>
    rw [applyEvent, Json.get?_set, if_neg hfield]
    rfl
  | created metadata => rfl
  | other => rfl

theorem get?_patched (hfield : field ≠ "active_project_path") (d : Dict) (events : List Event) :
    get? (metadataWithEventPatches d events) field =
      (lastPatched field events).or (get? d field) := by
  induction events using List.reverseRecOn with
  | nil => rfl
  | append_singleton events event ih =>
    rw [patched_concat, get?_applyEvent hfield, ih, lastPatched, lastPatched, List.reverse_concat,
      List.findSome?_cons]
    cases event.patched field with
    | none => rfl
    | some value => rfl

/-- Over two dictionaries with one project path, the journal gives a field the same value, or leaves
it as it is in both. -/
theorem patched_cases (events : List Event)
    (hpath : get? d "project_path" = get? d' "project_path") (field : String) :
    get? (metadataWithEventPatches d events) field =
        get? (metadataWithEventPatches d' events) field ∨
      get? (metadataWithEventPatches d events) field = get? d field ∧
        get? (metadataWithEventPatches d' events) field = get? d' field := by
  induction events using List.reverseRecOn generalizing field with
  | nil => exact .inr ⟨rfl, rfl⟩
  | append_singleton events event ih =>
    rw [patched_concat, patched_concat]
    cases event with
    | metadataUpdated patch =>
      rw [applyEvent, applyEvent, Json.get?_update, Json.get?_update]
      cases get? (dictOf patch) field with
      | some value => exact .inl rfl
      | none => exact ih field
    | workspaceSwitched newRoot =>
      rw [applyEvent, applyEvent, Json.get?_set, Json.get?_set]
      split
      · have hsame : get? (metadataWithEventPatches d events) "project_path" =
            get? (metadataWithEventPatches d' events) "project_path" := by
          rcases ih "project_path" with h | ⟨h, h'⟩
          · exact h
          · rw [h, h', hpath]
        rw [hsame]
        exact .inl rfl
      · exact ih field
    | created metadata => exact ih field
    | other => exact ih field

theorem patched_same (h : Same d d') (events : List Event) :
    Same (metadataWithEventPatches d events) (metadataWithEventPatches d' events) := by
  intro field
  rcases patched_cases events (h "project_path") field with h' | ⟨hd, hd'⟩
  · exact h'
  · rw [hd, hd', h]

/-! ### Runs -/

/-- The store, and the record as it was last written. -/
structure World where
  store : Store
  written : SessionRecord

def World.create (record : SessionRecord) : World := ⟨Store.create record, record⟩

/-- The record a switch writes: the active workspace is the one of its event. -/
def SessionRecord.switched (record : SessionRecord) (now newRoot : String) : SessionRecord :=
  { record.touched now with activeProjectPath := activePath newRoot (some record.projectPath) }

/-- An operation with its outside inputs; `recorded` is an event of another kind that the session's
recorder journals. -/
inductive Op where
  | save (generated : String) (repaired : Bool) (record : SessionRecord) (now : String)
  | saveWorkspaceSwitch (generated : String) (repaired : Bool) (record : SessionRecord)
      (now newRoot : String) (settled refreshed : Bool)
  | load (generated : String) (repaired : Bool)
  | recorded

/-- One operation; one that is refused writes no record. -/
def World.step (w : World) : Op → World
  | .save generated repaired record now =>
    match save generated repaired record now w.store with
    | (.ok (), s) => ⟨s, record.touched now⟩
    | (.error _, s) => ⟨s, w.written⟩
  | .saveWorkspaceSwitch generated repaired record now newRoot settled refreshed =>
    match saveWorkspaceSwitch generated repaired record now newRoot settled refreshed w.store with
    | (.ok (), s) => ⟨s, record.switched now newRoot⟩
    | (.error _, s) => ⟨s, w.written⟩
  | .load generated repaired => ⟨(load generated repaired w.store).2, w.written⟩
  | .recorded => ⟨{ w.store with events := w.store.events ++ [.other] }, w.written⟩

def World.run (w : World) (ops : List Op) : World := ops.foldl World.step w

/-- A record that `from_dict` reads back as it is, with a project path. -/
structure SessionRecord.Normal (record : SessionRecord) : Prop where
  readBack : ∀ generated, SessionRecord.fromDict generated record.toMetadataDict = .ok record
  path : record.projectPath ≠ .null

/-- What is saved reads back as it is.  A switch refreshes the snapshot, its record has the active
workspace that its root stands for, and every other field that a patch of the journal gives has the
value of the last patch. -/
def Careful (w : World) : Op → Prop
  | .save _ _ record now =>
    record.projectPath = w.written.projectPath → (record.touched now).Normal
  | .saveWorkspaceSwitch _ _ record now newRoot settled refreshed =>
    settled = true → record.projectPath = w.written.projectPath →
      (record.touched now).Normal ∧ refreshed = true ∧
        record.activeProjectPath = activePath newRoot (some record.projectPath) ∧
        ∀ field, field ≠ "active_project_path" → ∀ value,
          lastPatched field w.store.events = some value →
            get? (record.touched now).toMetadataDict field = some value
  | _ => True

def CarefulRun (w : World) : List Op → Prop
  | [] => True
  | op :: ops => Careful w op ∧ CarefulRun (w.step op) ops

/-! ### Snapshot and journal agree -/

/-- The snapshot is the record that was last written, and the patches do not change it. -/
structure Agrees (w : World) : Prop where
  normal : w.written.Normal
  snapshot : ∃ m, w.store.snapshot = some m ∧ Same m w.written.toMetadataDict
  patched : Same (metadataWithEventPatches w.written.toMetadataDict w.store.events)
    w.written.toMetadataDict

variable {w : World}

theorem Agrees.create {record : SessionRecord} (h : record.Normal) : Agrees (World.create record) :=
  ⟨h, ⟨_, rfl, fun _ => rfl⟩, fun _ => rfl⟩

/-- The projection is the record that was last written. -/
theorem Agrees.projection (h : Agrees w) (generated : String) (repaired : Bool) :
    ∃ m s, metadataProjection generated repaired w.store = (.ok m, s) ∧
      Same m w.written.toMetadataDict ∧ Agrees ⟨s, w.written⟩ ∧ s.events = w.store.events := by
  obtain ⟨m, hsnapshot, hm⟩ := h.snapshot
  have hpatched : Same (metadataWithEventPatches m w.store.events) w.written.toMetadataDict :=
    fun key => (patched_same hm w.store.events key).trans (h.patched key)
  have hread : SessionRecord.fromDict generated (metadataWithEventPatches m w.store.events) =
      .ok w.written := (fromDict_same hpatched generated).trans (h.normal.readBack generated)
  rw [metadataProjection, hsnapshot]
  simp only [Option.some_or, hread]
  refine ⟨metadataWithEventPatches m w.store.events, _, rfl, hpatched, ?_, ?_⟩
  · split
    · exact ⟨h.normal, ⟨_, rfl, hpatched⟩, h.patched⟩
    · exact h
  · split <;> rfl

/-- What a load returns is the record that was last written. -/
theorem Agrees.load (h : Agrees w) (generated : String) (repaired : Bool) :
    (load generated repaired w.store).1 = .ok w.written := by
  obtain ⟨m, s, hprojection, hm, -, -⟩ := h.projection generated repaired
  rw [SessionStore.load, hprojection]
  exact (fromDict_same hm generated).trans (h.normal.readBack generated)

/-- A record that is not refused has the session's project path. -/
theorem path_of_validate {current : Dict} {record : SessionRecord} (h : Agrees w)
    (hm : Same current w.written.toMetadataDict)
    (hvalid : validateImmutableProjectPath record current = .ok ()) :
    record.projectPath = w.written.projectPath := by
  rw [validate_same hm, validateImmutableProjectPath, get?_project_path] at hvalid
  have hpath := h.normal.path
  by_contra hne
  split at hvalid
  · next heq => cases heq
  · next heq => exact hpath (Option.some.inj heq)
  · next stored _ heq =>
    cases heq
    rw [if_pos hne] at hvalid
    cases hvalid

/-- Over a record with the session's project path, the journal leaves a field as it is where the
record has the value that was last written. -/
theorem Agrees.patched_over {record : SessionRecord} (h : Agrees w)
    (hpath : record.projectPath = w.written.projectPath)
    (hfield : get? record.toMetadataDict field = get? w.written.toMetadataDict field) :
    get? (metadataWithEventPatches record.toMetadataDict w.store.events) field =
      get? record.toMetadataDict field := by
  have hpaths : get? record.toMetadataDict "project_path" =
      get? w.written.toMetadataDict "project_path" := congrArg some hpath
  rcases patched_cases w.store.events hpaths field with h' | ⟨h', -⟩
  · rw [h', h.patched, hfield]
  · exact h'

/-- **A save is read back**: it patches the fields that change, and the journal agrees with it on
the others already. -/
theorem Agrees.patched_save {m : Dict} (record : SessionRecord) (h : Agrees w)
    (hm : Same m w.written.toMetadataDict) (hpath : record.projectPath = w.written.projectPath) :
    Same (metadataWithEventPatches record.toMetadataDict
      (if changedFields m record.toMetadataDict ≠ [] then
        w.store.events ++ [.metadataUpdated (changedFields m record.toMetadataDict)]
      else w.store.events)) record.toMetadataDict := by
  intro field
  have hnodup := nodup_toMetadataDict record
  have hpatch : dictOf (changedFields m record.toMetadataDict) =
      changedFields m record.toMetadataDict :=
    Json.dictOf_eq_self (hnodup.sublist (List.filter_sublist.map Prod.fst))
  have hget : get? (metadataWithEventPatches record.toMetadataDict
      (if changedFields m record.toMetadataDict ≠ [] then
        w.store.events ++ [.metadataUpdated (changedFields m record.toMetadataDict)]
      else w.store.events)) field =
      (get? (changedFields m record.toMetadataDict) field).or
        (get? (metadataWithEventPatches record.toMetadataDict w.store.events) field) := by
    split
    · rw [patched_concat, applyEvent, Json.get?_update, hpatch]
    · next hnone =>
      rw [not_not.mp hnone]
      rfl
  rw [hget, changedFields,
    Json.get?_filter (fun key value => decide ((get? m key).getD .null ≠ value)) _ hnodup]
  cases hfield : get? record.toMetadataDict field with
  | none =>
    have hnone := (get?_toMetadataDict_eq_none record w.written).mp hfield
    rw [Option.filter_none, Option.none_or, h.patched_over hpath (hfield.trans hnone.symm), hfield]
  | some value =>
    rw [Option.filter_some]
    split
    · rfl
    · next hkeep =>
      have hvalue : (get? m field).getD .null = value := by simpa using hkeep
      have hwritten : get? w.written.toMetadataDict field = some value := by
        cases hw : get? w.written.toMetadataDict field with
        | none =>
          rw [(get?_toMetadataDict_eq_none w.written record).mp hw] at hfield
          cases hfield
        | some value' =>
          rw [hm, hw, Option.getD_some] at hvalue
          rw [hvalue]
      rw [Option.none_or, h.patched_over hpath (hfield.trans hwritten.symm), hfield]

theorem Agrees.saveOver {m : Dict} {record : SessionRecord} {now : String} (h : Agrees w)
    (hm : Same m w.written.toMetadataDict) (hpath : record.projectPath = w.written.projectPath)
    (hnormal : (record.touched now).Normal)
    (hvalid : validateImmutableProjectPath record m = .ok ()) :
    ∃ s, saveOver m record now w.store = (.ok (), s) ∧ Agrees ⟨s, record.touched now⟩ := by
  rw [SessionStore.saveOver, hvalid]
  exact ⟨_, rfl, hnormal, ⟨_, rfl, fun _ => rfl⟩, h.patched_save (record.touched now) hm hpath⟩

/-- **A switch is read back** where its record is the journal's. -/
theorem Agrees.patched_switch (record : SessionRecord) {newRoot : String} (h : Agrees w)
    (hpath : record.projectPath = w.written.projectPath)
    (hactive : record.activeProjectPath = activePath newRoot (some record.projectPath))
    (hfields : ∀ field, field ≠ "active_project_path" → ∀ value,
      lastPatched field w.store.events = some value →
        get? record.toMetadataDict field = some value) :
    Same (metadataWithEventPatches record.toMetadataDict
      (w.store.events ++ [.workspaceSwitched newRoot])) record.toMetadataDict := by
  intro field
  rw [patched_concat, applyEvent, Json.get?_set]
  split
  · next hfield =>
    have hprojectPath : get? record.toMetadataDict "project_path" =
        get? w.written.toMetadataDict "project_path" := congrArg some hpath
    rw [h.patched_over hpath hprojectPath, get?_project_path, hfield, get?_active_project_path,
      hactive]
  · next hfield =>
    rw [get?_patched hfield]
    cases hlast : lastPatched field w.store.events with
    | none => rfl
    | some value =>
      rw [hfields field hfield value hlast]
      rfl

/-! ### Every run -/

/-- **What one operation preserves.** -/
theorem Agrees.step (h : Agrees w) {op : Op} (hop : Careful w op) : Agrees (w.step op) := by
  cases op with
  | save generated repaired record now =>
    obtain ⟨m, hsnapshot, hm⟩ := h.snapshot
    rw [World.step, save, hsnapshot]
    dsimp only
    cases hvalid : validateImmutableProjectPath record m with
    | error e =>
      rw [SessionStore.saveOver, hvalid]
      exact h
    | ok _ =>
      have hpath := path_of_validate h hm hvalid
      obtain ⟨s, hsave, hs⟩ := h.saveOver hm hpath (hop hpath) hvalid
      rw [hsave]
      exact hs
  | saveWorkspaceSwitch generated repaired record now newRoot settled refreshed =>
    obtain ⟨m, s, hprojection, hm, hs, hevents⟩ := h.projection generated repaired
    rw [World.step, saveWorkspaceSwitch, hprojection]
    dsimp only
    cases hvalid : validateImmutableProjectPath record m with
    | error e => exact hs
    | ok _ =>
      cases settled with
      | false => exact hs
      | true =>
        have hpath := path_of_validate h hm hvalid
        obtain ⟨hnormal, rfl, hactive, hfields⟩ := hop rfl hpath
        have hswitched : record.switched now newRoot = record.touched now := by
          rw [SessionRecord.switched, ← hactive]
          rfl
        have hpatched := hs.patched_switch (record.touched now) hpath hactive
          (hevents ▸ hfields)
        exact ⟨hswitched ▸ hnormal, ⟨_, rfl, fun key => by rw [hswitched]; rfl⟩,
          hswitched ▸ hpatched⟩
  | load generated repaired =>
    obtain ⟨m, s, hprojection, -, hs, -⟩ := h.projection generated repaired
    rw [World.step, SessionStore.load, hprojection]
    exact hs
  | recorded =>
    refine ⟨h.normal, h.snapshot, fun key => ?_⟩
    rw [World.step, patched_concat]
    exact h.patched key

theorem Agrees.run (h : Agrees w) {ops : List Op} (hops : CarefulRun w ops) :
    Agrees (w.run ops) := by
  induction ops generalizing w with
  | nil => exact h
  | cons op ops ih => exact ih (h.step hops.1) hops.2

/-- **A load returns what was last written**, in every state of a careful run. -/
theorem load_eq_written {record : SessionRecord} (hrecord : record.Normal) {ops : List Op}
    (hops : CarefulRun (World.create record) ops) (generated : String) (repaired : Bool) :
    (load generated repaired ((World.create record).run ops).store).1 =
      .ok ((World.create record).run ops).written :=
  ((Agrees.create hrecord).run hops).load generated repaired

/-! ### Two runs -/

/-- A session as it was created. -/
def wombat : SessionRecord where
  schemaVersion := .int 1
  sessionId := .str "s1"
  projectPath := .str "/repo"
  workspaceId := .str "cli-1"
  threadId := .str "t1"
  mode := .str "code"
  name := .str "cosmic-wombat-1234"
  title := .str "cosmic-wombat-1234"
  description := .str ""
  titlePinned := .bool false
  createdAt := .str "2026-01-01T00:00:00"
  updatedAt := .str "2026-01-01T00:00:00"
  config := .obj []
  taskListMarkdown := .str ""
  latestPlanMarkdown := .str ""
  planPending := .bool false
  planReofferable := .bool false
  interactionMode := .str "build"
  permissionMode := .str "ask"
  gigacodeEnabled := .bool false
  webSearchMode := .null
  goal := .obj []
  loop := .obj []
  activeProjectPath := .null
  parentSessionId := .null

/-- The session in a linked worktree, under a title. -/
def wombatIn (root title : String) : SessionRecord :=
  { wombat with title := .str title, activeProjectPath := .str root }

/-- The workspace is switched first, and then the session is given a title. -/
def switchedThenSaved : List Op :=
  [.saveWorkspaceSwitch "n" true (wombatIn "/linked" "one") "2026-01-01T00:00:01" "/linked" true true,
    .save "n" true (wombatIn "/linked" "two") "2026-01-01T00:00:02"]

theorem load_switchedThenSaved :
    (load "n" true ((World.create wombat).run switchedThenSaved).store).1 =
      .ok ((World.create wombat).run switchedThenSaved).written :=
  @load_eq_written wombat ⟨fun _ => rfl, by decide⟩ switchedThenSaved
    ⟨fun _ _ => ⟨⟨fun _ => rfl, by decide⟩, rfl, by decide, fun _ _ _ h => nomatch h⟩,
      fun _ => ⟨fun _ => rfl, by decide⟩, trivial⟩ "n" true

/-- The session is given a title, and is given another with the switch. -/
def savedThenSwitched : List Op :=
  [.save "n" true { wombat with title := .str "one" } "2026-01-01T00:00:01",
    .saveWorkspaceSwitch "n" true (wombatIn "/linked" "two") "2026-01-01T00:00:02" "/linked" true true]

/-- **The older title comes back.**  The patch of the save is applied over the switch's snapshot. -/
theorem title_comes_back :
    (load "n" true ((World.create wombat).run savedThenSwitched).store).1 ≠
      .ok ((World.create wombat).run savedThenSwitched).written := by
  intro h
  have htitle := congrArg (fun result => result.toOption.map SessionRecord.title) h
  exact absurd htitle (by decide)

end KolegaCode.SessionStore
