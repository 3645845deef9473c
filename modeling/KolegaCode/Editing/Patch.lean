import KolegaCode.CodexPatch.Apply
import KolegaCode.Editing.Files
import KolegaCode.Lib.Assoc

/-!
# Editing — applying a patch

`apply_patch` plans all operations of a patch on the texts that it reads, and writes only when
everything is planned: the files that go first, the deepest before the others, then the files that
are written, the deepest last.  The plan knows a file by the spelling of its path.
-/

namespace KolegaCode.Editing

open CodexPatch (PatchChunk PatchOperation applyUpdateChunks parseCodexPatch)
open Snapshots (Name)

abbrev Path := List Char

/-- `_resolve_path` of a path in a patch. -/
def Workspace.locate (w : Workspace) (path : Path) : List (Step Name) :=
  w.resolvePath (String.ofList path)

/-! ### Planning -/

/-- `initial` and `working`: the text of every path that was named, `none` where there is no
file. -/
structure Plan where
  initial : Assoc Path (Option (List Char))
  working : Assoc Path (Option (List Char))

/-- What is read of a path that is named for the first time. -/
def readPath (w : Workspace) (disk : Disk) (path : Path) : Except EditError (Option (List Char)) :=
  if disk.exists (w.locate path) then
    if disk.isFile (w.locate path) then (readText disk (w.locate path)).map some
    else .error (.isADirectory (String.ofList path))
  else .ok none

/-- `load`. -/
def Plan.load (w : Workspace) (disk : Disk) (plan : Plan) (path : Path) :
    Except EditError (Plan × Option (List Char)) :=
  match plan.working.get? path with
  | some value => .ok (plan, value)
  | none => do
    let value ← readPath w disk path
    return (⟨plan.initial.set path value, plan.working.set path value⟩, value)

/-- `load` of a path that must exist. -/
def Plan.loadExisting (w : Workspace) (disk : Disk) (plan : Plan) (path : Path) :
    Except EditError (Plan × List Char) := do
  let (plan, value) ← plan.load w disk path
  match value with
  | some text => return (plan, text)
  | none => .error (.fileNotFound (String.ofList path))

def Plan.put (plan : Plan) (path : Path) (value : Option (List Char)) : Plan :=
  { plan with working := plan.working.set path value }

/-- `apply_update_chunks`. -/
def updateText (text : List Char) (chunks : List PatchChunk) (path : Path) :
    Except EditError (List Char) :=
  (applyUpdateChunks text chunks path).mapError .patchApply

/-- The text of an added file: over a file that is there, with that file's line ending. -/
def addedText (w : Workspace) (disk : Disk) (path : Path) (addLines : List (List Char))
    (previous : Option (List Char)) : List Char :=
  let content := ['\n'].intercalate addLines ++ ['\n']
  match previous with
  | none => content
  | some text =>
    normalizeLineEndings content (detectDominantLineEnding disk (w.locate path) text)

/-- One operation. -/
def Plan.operation (w : Workspace) (disk : Disk) (plan : Plan) :
    PatchOperation → Except EditError Plan
  | .add path addLines => do
    let (plan, previous) ← plan.load w disk path
    return plan.put path (some (addedText w disk path addLines previous))
  | .delete path => do
    let (plan, _) ← plan.loadExisting w disk path
    return plan.put path none
  | .update path moveTo chunks => do
    let (plan, original) ← plan.loadExisting w disk path
    let updated ← updateText original chunks path
    match moveTo with
    | none => return plan.put path (some updated)
    | some target =>
      let (plan, _) ← plan.load w disk target
      return (plan.put path none).put target (some updated)

/-- The paths whose text is another than it was. -/
def Plan.changed (plan : Plan) : List Path :=
  plan.working.keys.filter fun path =>
    (plan.initial.get? path).join ≠ (plan.working.get? path).join

/-! ### Writing -/

/-- `len(Path(item).parts)`: the leading slash is a part. -/
def partCount (path : Path) : Nat :=
  (stepsOf (String.ofList path)).length + if path.head? = some '/' then 1 else 0

/-- The files that go. -/
def Plan.removed (plan : Plan) : List Path :=
  (plan.changed.filter fun path => (plan.working.get? path).join = none).insertionSort
    fun a b => partCount b ≤ partCount a

/-- The files that are written. -/
def Plan.written (plan : Plan) : List Path :=
  (plan.changed.filter fun path => (plan.working.get? path).join ≠ none).insertionSort
    fun a b => partCount a ≤ partCount b

def removePath (w : Workspace) (disk : Disk) (path : Path) : Except EditError Disk :=
  if disk.exists (w.locate path) then os (disk.unlink (w.locate path) true) else .ok disk

def Plan.writePath (w : Workspace) (plan : Plan) (disk : Disk) (path : Path) :
    Except EditError Disk :=
  w.writeFile disk (w.locate path) ((plan.working.get? path).join.getD [])

/-- `mutate`. -/
def Plan.mutate (w : Workspace) (plan : Plan) (disk : Disk) : Except EditError Disk := do
  let disk ← plan.removed.foldlM (removePath w) disk
  plan.written.foldlM (plan.writePath w) disk

/-- The directories above what is written are directories. -/
def Plan.validateParents (w : Workspace) (plan : Plan) (disk : Disk) : Except EditError Unit :=
  plan.working.forM fun (path, content) =>
    if content = none then .ok () else w.validatePatchParent disk (w.locate path)

/-! ### The patch -/

/-- The paths of an operation. -/
def pathsOf : PatchOperation → List Path
  | .add path _ | .delete path => [path]
  | .update path moveTo _ => path :: moveTo.toList

/-- The line of the result for an operation. -/
def summary : PatchOperation → List Char
  | .add path _ => "A ".toList ++ path
  | .delete path => "D ".toList ++ path
  | .update path none _ => "M ".toList ++ path
  | .update path (some target) _ => "M ".toList ++ path ++ " -> ".toList ++ target

/-- What a call that raises nothing answers. -/
inductive PatchAnswer where
  /-- "You are not allowed to edit this file: …" -/
  | blocked (path : Path)
  /-- "Success. Updated the following files:", and a line for each operation -/
  | success (summaries : List (List Char))
deriving DecidableEq, Repr

/-- The plan of a patch, checked. -/
def planPatch (w : Workspace) (disk : Disk) (operations : List PatchOperation) :
    Except EditError Plan := do
  let plan ← operations.foldlM (Plan.operation w disk) ⟨[], []⟩
  plan.validateParents w disk
  return plan

/-- `apply_patch`. -/
def applyPatch (w : Workspace) (disk : Disk) (patch : List Char) :
    Except EditError (Disk × PatchAnswer) := do
  let operations ← (parseCodexPatch patch).mapError .patchParse
  let affected := operations.flatMap pathsOf
  if affected.any fun path => blank (String.ofList path) then .error .pathRequired
  else
    match affected.find? fun path => w.enforceVibeEditPolicy (String.ofList path) with
    | some path => .ok (disk, .blocked path)
    | none => do
      let plan ← planPatch w disk operations
      return (← plan.mutate w disk, .success (operations.map summary))

end KolegaCode.Editing
