import KolegaCode.Snapshots.Capture

/-!
# Snapshots — the snapshot service

`SnapshotService` captures the paths a tool names, lets the tool run, captures them again and keeps
the two captures as a record when they differ.  `restore_snapshot` takes a record back.  Unless it
is forced, or the record was made by hand, it raises when the project is not as the mutation left
it; then `_apply_states` removes what the record says was missing, makes the directories, and
writes the files.

The functions work on the project's files, the blobs and the records, and leave them as they are
at the point where they raise.  Identifiers and times are inputs.
-/

namespace KolegaCode.Snapshots

structure SnapshotRecord where
  snapshotId : String
  projectPath : String
  createdAt : String
  touchedPaths : List Path
  before : States
  after : States
  manual : Bool
deriving DecidableEq

/-- What the service is set up with. -/
structure Service where
  sha256 : Bytes → String
  /-- a digest is a string of hexadecimal digits -/
  sha256_ne_empty : ∀ data, sha256 data ≠ ""
  /-- the project, an absolute path -/
  project : Path
  cwd : Path

/-- The project's files, and the private store: `blobs_dir` and `snapshots_dir`, by file name. -/
structure Store where
  fs : Disk
  blobs : Blobs
  records : Assoc String SnapshotRecord

/-- What a function of the service raises. -/
inductive Raised where
  | snapshot (error : SnapshotError)
  | os (error : OsError)
  /-- an error of the tool whose mutation is recorded -/
  | tool (error : String)
deriving DecidableEq

abbrev OnStore := EStateM Raised Store

abbrev OnDisk := EStateM Raised Disk

/-- A computation on the project's files. -/
def onDisk {α : Type} (x : OnDisk α) : OnStore α := fun s =>
  match x s.fs with
  | .ok a fs => .ok a { s with fs }
  | .error e fs => .error e { s with fs }

/-- One call of the operating system. -/
def os (f : Disk → Except OsError Disk) : OnDisk Unit := fun fs =>
  match f fs with
  | .ok fs' => .ok () fs'
  | .error e => .error (.os e) fs

def raiseSnapshot {α : Type} : Except SnapshotError α → OnStore α
  | .ok a => pure a
  | .error e => throw (.snapshot e)

/-- An identifier and a time for a new record. -/
structure Mint where
  hex : String
  now : String

/-- `_new_id("snap")`. -/
def Mint.id (mint : Mint) : String := "snap_" ++ mint.hex

/-! ### Capturing -/

/-- The loop of `capture_paths` over paths as they are spelled. -/
def captureSpelled (svc : Service) (fs : Disk) :
    List String → Capture → Except SnapshotError Unit × Capture
  | [], c => (.ok (), c)
  | raw :: raws, c =>
    match normalizePath svc.project raw with
    | .error e => (.error e, c)
    | .ok path =>
      captureSpelled svc fs raws (capturePath svc.sha256 fs (fs.height + 1) path c)

/-- `capture_paths`. -/
def capturePaths (svc : Service) (paths : List String) : OnStore States := do
  let s ← get
  let (outcome, c) := captureSpelled svc s.fs paths { blobs := s.blobs, states := [] }
  set { s with blobs := c.blobs }
  raiseSnapshot outcome
  return c.states.insertionSort fun a b => posix a.1 ≤ posix b.1

/-- `tuple(dict.fromkeys(self.normalize_path(path) for path in paths))`. -/
def touched (svc : Service) (paths : List String) : Except SnapshotError (List Path) := do
  let normalized ← paths.mapM (normalizePath svc.project)
  return normalized.eraseDups

/-- `left == right` of two dictionaries. -/
def statesEqual (left right : States) : Bool :=
  (left.keys ++ right.keys).all fun path => left.get? path = right.get? path

/-! ### Recording -/

/-- `_write_snapshot`. -/
def writeSnapshot (svc : Service) (mint : Mint) (touchedPaths : List Path) (before after : States)
    (manual : Bool) : OnStore SnapshotRecord := do
  let record : SnapshotRecord :=
    { snapshotId := mint.id, projectPath := "/" ++ posix svc.project, createdAt := mint.now,
      touchedPaths, before, after, manual }
  modify fun s => { s with records := s.records.set record.snapshotId record }
  return record

/-- `record_mutation`: the result of the mutation, and the record where the states differ. -/
def recordMutation {α : Type} (svc : Service) (mint : Mint) (paths : List String)
    (mutate : OnDisk α) : OnStore (α × Option SnapshotRecord) := do
  let touchedPaths ← raiseSnapshot (touched svc paths)
  let before ← capturePaths svc (touchedPaths.map posix)
  let result ← onDisk mutate
  let after ← capturePaths svc (touchedPaths.map posix)
  if statesEqual before after then return (result, none)
  let record ← writeSnapshot svc mint touchedPaths before after false
  return (result, some record)

/-- `create_manual_snapshot`. -/
def createManualSnapshot (svc : Service) (mint : Mint) (paths : List String) :
    OnStore SnapshotRecord := do
  let touchedPaths ← raiseSnapshot (touched svc paths)
  if touchedPaths.isEmpty then throw (.snapshot .noPaths)
  let current ← capturePaths svc (touchedPaths.map posix)
  writeSnapshot svc mint touchedPaths current current true

/-! ### Restoring -/

/-- `_is_current_project`. -/
def isCurrentProject (svc : Service) (recordedPath : String) : Bool :=
  resolve svc.cwd recordedPath = svc.project

/-- `latest_snapshot`: the newest record of the project. -/
def latestSnapshot (svc : Service) (s : Store) : Option SnapshotRecord :=
  (((s.records.map Prod.snd).filter fun r => isCurrentProject svc r.projectPath).insertionSort
    fun a b => b.createdAt ≤ a.createdAt).head?

/-- `load_snapshot`. -/
def loadSnapshot (svc : Service) (snapshotId : String) : OnStore SnapshotRecord := do
  let s ← get
  if snapshotId = "latest" then
    match latestSnapshot svc s with
    | none => throw (.snapshot .noSnapshots)
    | some record => return record
  else
    match s.records.get? snapshotId with
    | none => throw (.snapshot (.notFound snapshotId))
    | some record =>
      if isCurrentProject svc record.projectPath then return record
      else throw (.snapshot (.otherProject snapshotId))

/-- The state an absent item stands for. -/
def stateAt (states : States) (path : Path) : FileState :=
  (states.get? path).getD { path, kind := .missing }

/-- The paths of either dictionary, sorted, at which the two differ. -/
def mismatches (expected current : States) : List Path :=
  ((expected.keys ++ current.keys).eraseDups.insertionSort fun a b => posix a ≤ posix b).filter
    fun path => stateAt expected path ≠ stateAt current path

/-- `diff_expected_current`: the paths whose state is not the expected one. -/
def diffExpectedCurrent (svc : Service) (expected : States) : OnStore (List Path) := do
  if expected.isEmpty then return []
  let current ← capturePaths svc (expected.keys.map posix)
  return mismatches expected current

/-- `_read_blob`. -/
def readBlob (sha256 : Bytes → String) (blobs : Blobs) (state : FileState) :
    Except SnapshotError Bytes :=
  match state.blobId with
  | none => .error (.missingBlobId state.path)
  | some blobId =>
    if blobId = "" then .error (.missingBlobId state.path)
    else
      match blobs.get? blobId with
      | none => .error (.missingBlob state.path blobId)
      | some data =>
        if some (sha256 data) = state.sha256 then .ok data
        else .error (.blobMismatch state.path)

/-- `_remove_existing`. -/
def removeExisting (path : Path) : OnDisk Unit := do
  let fs ← get
  if fs.exists path then
    if fs.isDir path then os (·.rmtree path) else os (·.unlink path true)

/-- A path that was a directory becomes one. -/
def restoreDirectory (path : Path) : OnDisk Unit := do
  let fs ← get
  if fs.exists path && !fs.isDir path then removeExisting path
  let fs ← get
  if !fs.exists path then os (·.makeDirs path)

/-- A path that was a file gets back what it held. -/
def restoreFile (sha256 : Bytes → String) (blobs : Blobs) (state : FileState) : OnDisk Unit := do
  let fs ← get
  let parent := state.path.dropLast
  -- `get_parent` of a name at the top is `.`
  if parent ≠ [] && !fs.exists parent then os (·.makeDirs parent)
  let fs ← get
  if fs.exists state.path && fs.isDir state.path then os (·.rmtree state.path)
  match readBlob sha256 blobs state with
  | .error e => throw (.snapshot e)
  | .ok data => os (·.writeBytes state.path data)

/-- The states of one kind, in the order they are taken in. -/
def ofKind (kind : SnapshotKind) (states : States) : List FileState :=
  let chosen := (states.map Prod.snd).filter fun s => s.kind = kind
  match kind with
  | .missing => chosen.insertionSort fun a b => b.path.length ≤ a.path.length
  | _ => chosen.insertionSort fun a b => a.path.length ≤ b.path.length

/-- `_apply_states`. -/
def applyStates (sha256 : Bytes → String) (blobs : Blobs) (states : States) : OnDisk Unit := do
  (ofKind .missing states).forM fun state => removeExisting state.path
  (ofKind .directory states).forM fun state => restoreDirectory state.path
  (ofKind .file states).forM fun state => restoreFile sha256 blobs state

structure RestoreResult where
  snapshotId : String
  restoredPaths : List Path
  forced : Bool
deriving DecidableEq

/-- `restore_snapshot`. -/
def restoreSnapshot (svc : Service) (snapshotId : String) (force : Bool) :
    OnStore RestoreResult := do
  let record ← loadSnapshot svc snapshotId
  if !isCurrentProject svc record.projectPath then
    throw (.snapshot (.otherProject record.snapshotId))
  if !force && !record.manual then
    let mismatches ← diffExpectedCurrent svc record.after
    if !mismatches.isEmpty then throw (.snapshot (.changed record.snapshotId mismatches))
  let s ← get
  onDisk (applyStates svc.sha256 s.blobs record.before)
  return { snapshotId := record.snapshotId, restoredPaths := record.touchedPaths, forced := force }

end KolegaCode.Snapshots
