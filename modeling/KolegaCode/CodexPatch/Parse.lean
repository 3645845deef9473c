import KolegaCode.Lib.Text
import KolegaCode.Lib.Except
import KolegaCode.Hashline.Hash

/-!
# CodexPatch — parsing the `apply_patch` language

The lines between `*** Begin Patch` and `*** End Patch` are file operations, each a marker line with
the lines that belong to it.  The parser is a line loop with one inner loop for the lines of an
added file and one for the chunks of an updated file; here each loop returns the lines it leaves.
-/

namespace KolegaCode.CodexPatch

open Text (normalizeNewlines splitlines strip)
open Hashline (isSpace)

/-! ### Operations -/

/-- A line of a patch, as its characters. -/
abbrev Line := List Char

/-- The first character of a change line. -/
inductive LineMark
  | context
  | remove
  | add
  deriving DecidableEq, Repr

/-- The character a change line starts with. -/
def LineMark.char : LineMark → Char
  | .context => ' '
  | .remove => '-'
  | .add => '+'

/-- `PatchChunk`. -/
structure PatchChunk where
  context : Option Line
  lines : List (LineMark × Line)
  endOfFile : Bool
  deriving DecidableEq, Repr

/-- `PatchOperation`, one constructor for each `PatchKind`. -/
inductive PatchOperation
  | add (path : Line) (addLines : List Line)
  | delete (path : Line)
  | update (path : Line) (moveTo : Option Line) (chunks : List PatchChunk)
  deriving DecidableEq, Repr

/-- The marker lines that name a path. -/
inductive Marker
  | addFile
  | deleteFile
  | updateFile
  | moveTo
  deriving DecidableEq, Repr

def Marker.text : Marker → Line
  | .addFile => "*** Add File: ".toList
  | .deleteFile => "*** Delete File: ".toList
  | .updateFile => "*** Update File: ".toList
  | .moveTo => "*** Move to: ".toList

/-- The messages of `CodexPatchParseError`. -/
inductive ParseError
  /-- "Patch must start with '*** Begin Patch'." -/
  | noBegin
  /-- "Patch must end with '*** End Patch'." -/
  | noEnd
  /-- "Missing path after '…'.", with the marker. -/
  | missingPath (marker : Marker)
  /-- "Add File lines must start with '+': …" -/
  | addLine (line : Line)
  /-- "Add File requires at least one '+' line: …" -/
  | addEmpty (path : Line)
  /-- "'*** End of File' must be the final line of an update." -/
  | endOfFileNotFinal
  /-- "An update may contain only one '*** End of File' marker." -/
  | endOfFileTwice
  /-- "Invalid Update File line: …" -/
  | updateLine (line : Line)
  /-- "Update File has no changes: …" -/
  | noChanges (path : Line)
  /-- "Invalid patch operation marker: …" -/
  | invalidMarker (line : Line)
  /-- "Patch must contain at least one file operation." -/
  | noOperations
  deriving DecidableEq, Repr

/-! ### Marker lines -/

/-- `line.startswith(start)`. -/
def startsWith (line start : Line) : Bool := start.isPrefixOf line

/-- `_is_operation_marker`. -/
def isOperationMarker (line : Line) : Bool :=
  startsWith line Marker.addFile.text || startsWith line Marker.deleteFile.text ||
    startsWith line Marker.updateFile.text

/-- `_path_after`: the path is stripped, and may not be blank. -/
def pathAfter (line : Line) (marker : Marker) : Except ParseError Line :=
  let path := strip isSpace (line.drop marker.text.length)
  if path.isEmpty then .error (.missingPath marker) else .ok path

/-! ### The lines of an operation -/

/-- The text of an added line, when it starts with `+`. -/
def plusLine : Line → Option Line
  | '+' :: text => some text
  | _ => none

/-- The inner loop of an added file: its lines, and the lines that are left. -/
def takeAdded : List Line → Except ParseError (List Line × List Line)
  | [] => .ok ([], [])
  | line :: lines =>
      if startsWith line "*** ".toList then .ok ([], line :: lines)
      else match plusLine line with
        | some text => do
            let (added, rest) ← takeAdded lines
            return (text :: added, rest)
        | none => .error (.addLine line)

/-- What the loop over an update's lines has read: the finished chunks and the open one. -/
structure ChunkState where
  chunks : List PatchChunk
  context : Option Line
  changeLines : List (LineMark × Line)
  eof : Bool

/-- `finish_chunk`: an open chunk with nothing in it is dropped. -/
def finishChunk (s : ChunkState) : ChunkState :=
  { chunks :=
      if s.context.isSome || !s.changeLines.isEmpty || s.eof then
        s.chunks ++ [⟨s.context, s.changeLines, s.eof⟩]
      else s.chunks
    context := none
    changeLines := []
    eof := false }

/-- The mark of a change line, when `line[:1] in {"+", "-", " "}`. -/
def changeLine : Line → Option (LineMark × Line)
  | '+' :: text => some (.add, text)
  | '-' :: text => some (.remove, text)
  | ' ' :: text => some (.context, text)
  | _ => none

/-- One line of an update. -/
def updateStep (s : ChunkState) (line : Line) : Except ParseError ChunkState :=
  if line = "@@".toList || startsWith line "@@ ".toList then
    if s.eof then .error .endOfFileNotFinal
    else
      .ok { finishChunk s with
        context := if startsWith line "@@ ".toList then some (line.drop 3) else none }
  else if line = "*** End of File".toList then
    if s.eof then .error .endOfFileTwice else .ok { s with eof := true }
  else match changeLine line with
    | some change =>
        if s.eof then .error .endOfFileNotFinal
        else .ok { s with changeLines := s.changeLines ++ [change] }
    | none => .error (.updateLine line)

/-- The inner loop of an updated file, up to the next operation. -/
def updateLines (s : ChunkState) : List Line → Except ParseError (ChunkState × List Line)
  | [] => .ok (s, [])
  | line :: lines =>
      if isOperationMarker line then .ok (s, line :: lines)
      else do
        let s ← updateStep s line
        updateLines s lines

/-- The optional `*** Move to: ` line. -/
def takeMove : List Line → Except ParseError (Option Line × List Line)
  | [] => .ok (none, [])
  | line :: lines =>
      if startsWith line Marker.moveTo.text then do
        let path ← pathAfter line .moveTo
        return (some path, lines)
      else .ok (none, line :: lines)

/-- One round of the outer loop: the operation a marker line starts, and the lines that are
left. -/
def parseOperation (marker : Line) (lines : List Line) :
    Except ParseError (PatchOperation × List Line) :=
  if startsWith marker Marker.addFile.text then do
    let path ← pathAfter marker .addFile
    let (added, rest) ← takeAdded lines
    if added.isEmpty then .error (.addEmpty path) else .ok (.add path added, rest)
  else if startsWith marker Marker.deleteFile.text then do
    let path ← pathAfter marker .deleteFile
    return (.delete path, lines)
  else if startsWith marker Marker.updateFile.text then do
    let path ← pathAfter marker .updateFile
    let (moveTo, lines) ← takeMove lines
    let (s, rest) ← updateLines ⟨[], none, [], false⟩ lines
    let chunks := (finishChunk s).chunks
    if chunks.isEmpty && moveTo.isNone then .error (.noChanges path)
    else .ok (.update path moveTo chunks, rest)
  else .error (.invalidMarker marker)

/-! ### The loops leave fewer lines -/

theorem takeAdded_length : ∀ {lines added rest : List Line},
    takeAdded lines = .ok (added, rest) → rest.length ≤ lines.length
  | [], _, _, h => by
      cases h
      exact Nat.le_refl 0
  | line :: lines, added, rest, h => by
      rw [takeAdded] at h
      split at h
      · cases h
        exact Nat.le_refl _
      · split at h
        · obtain ⟨⟨added', rest'⟩, hrest, h⟩ := bind_eq_ok.mp h
          cases h
          exact Nat.le_succ_of_le (takeAdded_length hrest)
        · cases h

theorem updateLines_length : ∀ {lines rest : List Line} {s s' : ChunkState},
    updateLines s lines = .ok (s', rest) → rest.length ≤ lines.length
  | [], _, _, _, h => by
      cases h
      exact Nat.le_refl 0
  | line :: lines, rest, s, s', h => by
      rw [updateLines] at h
      split at h
      · cases h
        exact Nat.le_refl _
      · obtain ⟨s₁, -, h⟩ := bind_eq_ok.mp h
        exact Nat.le_succ_of_le (updateLines_length h)

theorem takeMove_length {lines rest : List Line} {path : Option Line}
    (h : takeMove lines = .ok (path, rest)) : rest.length ≤ lines.length := by
  cases lines with
  | nil =>
    cases h
    exact Nat.le_refl 0
  | cons line lines =>
    rw [takeMove] at h
    split at h
    · obtain ⟨path', -, h⟩ := bind_eq_ok.mp h
      cases h
      exact Nat.le_succ _
    · cases h
      exact Nat.le_refl _

theorem parseOperation_length {marker : Line} {lines rest : List Line} {op : PatchOperation}
    (h : parseOperation marker lines = .ok (op, rest)) : rest.length ≤ lines.length := by
  rw [parseOperation] at h
  split at h
  · obtain ⟨path, -, h⟩ := bind_eq_ok.mp h
    obtain ⟨⟨added, rest'⟩, hrest, h⟩ := bind_eq_ok.mp h
    dsimp only at h
    split at h
    · cases h
    · cases h
      exact takeAdded_length hrest
  · split at h
    · obtain ⟨path, -, h⟩ := bind_eq_ok.mp h
      cases h
      exact Nat.le_refl _
    · split at h
      · obtain ⟨path, -, h⟩ := bind_eq_ok.mp h
        obtain ⟨⟨move, lines'⟩, hmove, h⟩ := bind_eq_ok.mp h
        obtain ⟨⟨s, rest'⟩, hrest, h⟩ := bind_eq_ok.mp h
        dsimp only at h
        split at h
        · cases h
        · cases h
          exact Nat.le_trans (updateLines_length hrest) (takeMove_length hmove)
      · cases h

/-! ### The patch -/

/-- The outer loop, over the lines between the first and the last. -/
def parseOperations : List Line → Except ParseError (List PatchOperation)
  | [] => .ok []
  | marker :: lines =>
      match _h : parseOperation marker lines with
      | .error e => .error e
      | .ok (op, rest) => do
          let ops ← parseOperations rest
          return op :: ops
termination_by lines => lines.length
decreasing_by exact Nat.lt_succ_of_le (parseOperation_length _h)

/-- `parse_codex_patch`. -/
def parseCodexPatch (raw : List Char) : Except ParseError (List PatchOperation) :=
  let lines := splitlines (normalizeNewlines raw)
  match lines with
  | [] => .error .noBegin
  | first :: rest =>
      if strip isSpace first ≠ "*** Begin Patch".toList then .error .noBegin
      else match rest.getLast? with
        | none => .error .noEnd
        | some last =>
            if strip isSpace last ≠ "*** End Patch".toList then .error .noEnd
            else do
              let operations ← parseOperations rest.dropLast
              if operations.isEmpty then .error .noOperations else .ok operations

theorem parseOperations_cons (marker : Line) (lines : List Line) :
    parseOperations (marker :: lines) = (do
      let (op, rest) ← parseOperation marker lines
      let ops ← parseOperations rest
      return op :: ops) := by
  rw [parseOperations]
  split
  · next e h => rw [h]; rfl
  · next op rest h => rw [h]; rfl

end KolegaCode.CodexPatch
