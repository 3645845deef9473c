import KolegaCode.CodexPatch.Parse
import KolegaCode.Lib.Patch

/-!
# CodexPatch — applying the chunks of an update

`apply_update_chunks`: the chunks are applied one after the other, each below the ones before it.
A chunk's context and removed lines are looked for from the cursor on, first as they are and then
at three looser levels; the place found is replaced by the chunk's context and added lines.
-/

namespace KolegaCode.CodexPatch

open Text (dominantEnding normalizeNewlines replaceLineFeeds rstrip strip)
open Hashline (isSpace)

/-! ### Looser matching -/

/-- `_SMART_TRANSLATION`. -/
def smartTranslation (c : Char) : Char :=
  let n := c.toNat
  if 0x2018 ≤ n ∧ n ≤ 0x201b then '\''
  else if 0x201c ≤ n ∧ n ≤ 0x201f then '"'
  else c

/-- How closely a line is compared: the modes of `_forms`, in order. -/
inductive Level
  | exact
  | rstrip
  | strip
  | quotes
  deriving DecidableEq, Repr

def levels : List Level := [.exact, .rstrip, .strip, .quotes]

/-- `_forms(value)[mode]`. -/
def form (level : Level) (value : Line) : Line :=
  match level with
  | .exact => value
  | .rstrip => rstrip isSpace value
  | .strip => strip isSpace value
  | .quotes => value.map smartTranslation

/-- `_find_line`. -/
def findLine (lines : List Line) (needle : Line) (start : Nat) : Option Nat :=
  levels.findSome? fun level =>
    (List.range' start (lines.length - start)).find? fun index =>
      lines[index]?.map (form level) = some (form level needle)

/-- `_find_sequence`. -/
def findSequence (lines needle : List Line) (start : Nat) (atEnd : Bool) : Option (Nat × Nat) :=
  if lines.length < needle.length then none
  else
    let last := lines.length - needle.length
    let candidates := if atEnd then [last] else List.range' start (last + 1 - start)
    levels.findSome? fun level =>
      let wanted := needle.map (form level)
      (candidates.find? fun index =>
        start ≤ index ∧ ((lines.drop index).take needle.length).map (form level) = wanted).map
          fun index => (index, index + needle.length)

/-! ### Chunks -/

/-- The messages of `CodexPatchApplyError`. -/
inductive ApplyError
  /-- "Update chunk #… context does not match …: …" -/
  | context (number : Nat) (path : Line) (context : Line)
  /-- "Update chunk #… does not match …:" and the first five lines looked for. -/
  | chunk (number : Nat) (path : Line) (preview : Line)
  deriving DecidableEq, Repr

/-- The lines a chunk looks for. -/
def oldLines (c : PatchChunk) : List Line :=
  (c.lines.filter fun l => l.1 = .context || l.1 = .remove).map Prod.snd

/-- The lines a chunk writes. -/
def newLines (c : PatchChunk) : List Line :=
  (c.lines.filter fun l => l.1 = .context || l.1 = .add).map Prod.snd

/-- Where the search for a chunk starts: below its header, if it has a named one. -/
def chunkHint (path : Line) (number : Nat) (c : PatchChunk) (lines : List Line) (cursor : Nat) :
    Except ApplyError Nat :=
  match c.context with
  | none => .ok cursor
  | some context =>
      match findLine lines context cursor with
      | none => .error (.context number path context)
      | some index => .ok (index + 1)

/-- The lines `start:end` a chunk replaces. -/
def chunkPlace (path : Line) (number : Nat) (c : PatchChunk) (lines : List Line) (hint : Nat) :
    Except ApplyError (Nat × Nat) :=
  if (oldLines c).isEmpty then
    let start := if c.endOfFile then lines.length else hint
    .ok (start, start)
  else
    match findSequence lines (oldLines c) hint c.endOfFile with
    | none => .error (.chunk number path (['\n'].intercalate ((oldLines c).take 5)))
    | some place => .ok place

/-- One round of the loop: the lines and the cursor after the chunk. -/
def applyChunk (path : Line) (number : Nat) (c : PatchChunk) (lines : List Line) (cursor : Nat) :
    Except ApplyError (List Line × Nat) := do
  let hint ← chunkHint path number c lines cursor
  let (start, stop) ← chunkPlace path number c lines hint
  return (splice lines start stop (newLines c), start + (newLines c).length)

/-- The loop over the chunks, the first of which has the given number. -/
def applyChunks (path : Line) (number : Nat) (lines : List Line) (cursor : Nat) :
    List PatchChunk → Except ApplyError (List Line)
  | [] => .ok lines
  | c :: chunks => do
      let (lines, cursor) ← applyChunk path number c lines cursor
      applyChunks path (number + 1) lines cursor chunks

/-! ### The file -/

/-- Whether the file ends with a line ending. -/
def hadFinalNewline (content : List Char) : Bool :=
  (normalizeNewlines content).getLast? = some '\n'

/-- The lines of a file, without their endings. -/
def fileLines (content : List Char) : List Line :=
  let lines := (normalizeNewlines content).splitOn '\n'
  if hadFinalNewline content then lines.dropLast else lines

/-- `apply_update_chunks`. -/
def applyUpdateChunks (content : List Char) (chunks : List PatchChunk) (path : Line) :
    Except ApplyError (List Char) := do
  let lines ← applyChunks path 1 (fileLines content) 0 chunks
  let result := ['\n'].intercalate lines ++ if hadFinalNewline content then ['\n'] else []
  if dominantEnding content ≠ ['\n'] then
    return replaceLineFeeds (dominantEnding content) result
  else return result

end KolegaCode.CodexPatch
