import KolegaCode.CodexPatch.Apply
import KolegaCode.Hashline.Edits
import KolegaCode.Lib.Links
import KolegaCode.Lib.Lines
import KolegaCode.Lib.Utf8
import KolegaCode.Snapshots.Paths

/-!
# Editing — the files of a workspace

`LocalFileSystem`: a path is taken from the project's root unless it is absolute, and `pathlib`
drops its doubled slashes and its `.` parts, but no `..`.  Text is read with every line ending
translated to a line feed and written as it is.
-/

namespace KolegaCode.Editing

open Linked (namei toEnd toEntry toMade)
open Snapshots (Bytes Name parts)
open Text (dominantEnding normalizeNewlines replaceLineFeeds)

/-- The whole disk. -/
abbrev Disk := Linked Name Bytes

structure Workspace where
  /-- `root_path` -/
  root : List (Step Name)
  /-- the base names that may not be edited; none but in vibe mode -/
  protectedFiles : List String

/-- The parts of a path, as `pathlib` keeps them. -/
def stepsOf (path : String) : List (Step Name) :=
  (parts path).filterMap fun part =>
    if part = ".." then some .up else (Name.of? part).map .down

/-- `_resolve_path`. -/
def Workspace.resolvePath (w : Workspace) (path : String) : List (Step Name) :=
  if path.toList.head? = some '/' then stepsOf path else w.root ++ stepsOf path

inductive EditError where
  /-- "file_path is required", "Patch path is required." -/
  | pathRequired
  /-- "delete and rename cannot be combined." -/
  | deleteAndRename
  /-- "delete requires an empty edits array." -/
  | deleteWithEdits
  /-- "Path is a directory, not a file: …", and of a destination, and of a patch -/
  | isADirectory (path : String)
  /-- "Cannot rename a file that does not exist." -/
  | renameMissing
  /-- "File not found: …" -/
  | fileNotFound (path : String)
  /-- "No changes made. The edits array is empty." -/
  | noChanges
  /-- "Patch parent is not a directory: …" -/
  | parentNotADirectory (parent : List (Step Name))
  | hashline (error : Hashline.HashlineError)
  | patchParse (error : CodexPatch.ParseError)
  | patchApply (error : CodexPatch.ApplyError)
  | unicodeDecode
  | os (error : PathError)
deriving DecidableEq

/-! ### Text -/

def os {α : Type} (x : Except PathError α) : Except EditError α := x.mapError .os

/-- `read_text`. -/
def readText (disk : Disk) (steps : List (Step Name)) : Except EditError (List Char) := do
  match Utf8.decode (← os (disk.read steps)) with
  | some text => return normalizeNewlines text
  | none => throw .unicodeDecode

/-- `write_text`. -/
def writeText (disk : Disk) (steps : List (Step Name)) (content : List Char) :
    Except EditError Disk :=
  os (disk.write steps (Utf8.encode content))

/-- `raw.decode("utf-8", errors="replace")`, as far as line endings go: what is ill-formed is none,
and hides none. -/
def decodeReplaced (raw : Bytes) : List Char :=
  (Utf8.decode raw).getD (raw.map fun b => Char.ofNat b.toNat)

/-- `_detect_dominant_line_ending`: of the text that was read, or of the file where that has no
carriage return. -/
def detectDominantLineEnding (disk : Disk) (steps : List (Step Name)) (content : List Char) :
    List Char :=
  if '\r' ∈ content then dominantEnding content
  else
    match disk.read steps with
    | .ok raw => dominantEnding (decodeReplaced raw)
    | .error _ => ['\n']

/-- `_normalize_line_endings`. -/
def normalizeLineEndings (text target : List Char) : List Char :=
  if target = ['\n'] then normalizeNewlines text else replaceLineFeeds target (normalizeNewlines text)

/-! ### Parents -/

/-- The directories above a path, from the nearest up to the root. -/
def Workspace.parentsWithin (w : Workspace) (steps : List (Step Name)) : List (List (Step Name)) :=
  steps.dropLast.inits.reverse.takeWhile (· ≠ w.root)

/-- `_validate_patch_parent`. -/
def Workspace.validatePatchParent (w : Workspace) (disk : Disk) (steps : List (Step Name)) :
    Except EditError Unit :=
  match (w.parentsWithin steps).find? fun parent => disk.exists parent && !disk.isDir parent with
  | some parent => .error (.parentNotADirectory parent)
  | none => .ok ()

/-- The parents of a file, created where the nearest is missing. -/
def Workspace.makeParent (w : Workspace) (disk : Disk) (steps : List (Step Name)) :
    Except EditError Disk :=
  let parent := steps.dropLast
  if parent ≠ w.root && !disk.exists parent then os (disk.makeDirs parent.reverse) else .ok disk

/-- `_write_file`. -/
def Workspace.writeFile (w : Workspace) (disk : Disk) (steps : List (Step Name))
    (content : List Char) : Except EditError Disk := do
  writeText (← w.makeParent disk steps) steps content

/-- `_enforce_vibe_edit_policy`: whether a path may not be edited. -/
def Workspace.enforceVibeEditPolicy (w : Workspace) (path : String) : Bool :=
  w.protectedFiles.contains ((parts path).getLastD "")

/-- `not path.strip()`. -/
def blank (path : String) : Bool := path.toList.all Hashline.isSpace

/-! ### What a write leaves -/

theorem os_ok {α : Type} {x : Except PathError α} {a : α} (h : os x = .ok a) : x = .ok a := by
  cases x with
  | error e => cases h
  | ok b => exact congrArg _ (Except.ok.inj h)

theorem writeFile_ok {w : Workspace} {disk disk' : Disk} {steps : List (Step Name)}
    {content : List Char} (h : w.writeFile disk steps content = .ok disk') :
    ∃ made f i, Linked.Makes disk.tree made.tree ∧ namei toEnd made.tree steps = .ok f ∧
      Linked.Wrote made disk' f i (Utf8.encode content) := by
  obtain ⟨made, hmade, hwrite⟩ := bind_eq_ok.mp h
  obtain ⟨f, i, hf, hwrote⟩ := Linked.write_ok (os_ok hwrite)
  refine ⟨made, f, i, ?_, hf, hwrote⟩
  unfold Workspace.makeParent at hmade
  dsimp only at hmade
  split at hmade
  · exact (Linked.makeDirs_ok (os_ok hmade)).1
  · cases hmade
    exact .refl _

theorem read_of_writeFile {w : Workspace} {disk disk' : Disk} {steps : List (Step Name)}
    {content : List Char} (h : w.writeFile disk steps content = .ok disk') :
    disk'.read steps = .ok (Utf8.encode content) := by
  obtain ⟨made, f, i, -, hf, hwrote⟩ := writeFile_ok h
  exact hwrote.read (Linked.namei_mono rfl hwrote.more hf (.inr ⟨i, hwrote.entry⟩))

/-- The way to the destination, its missing directories made, leads over the entry of the
source. -/
def LeadsOver (w : Workspace) (disk : Disk) (source destination : String) : Prop :=
  ∃ e f, namei toEntry disk.tree (w.resolvePath source) = .ok e ∧
    namei toMade disk.tree (w.resolvePath destination) = .ok f ∧ e.path ∈ f.passed

/-- A disk with one file. -/
def oneFile (path : String) (data : Bytes) : Disk :=
  match (Linked.empty []).write (stepsOf path) data with
  | .ok disk => disk
  | .error _ => Linked.empty []

end KolegaCode.Editing
