import KolegaCode.Hashline.Tagged
import KolegaCode.Lib.Lines

/-!
# Hashline — reading a file

The `read` tool shows some lines of a file: from an offset on, up to a limit, two thousand lines and
fifty kilobytes.  With a formatter the lines carry their tags.
-/

namespace KolegaCode.ReadFile

open Hashline (encodeUtf8)
open Text (splitlinesKeepends)

def maxLines : Nat := 2000
def maxBytes : Nat := 50 * 1024

inductive ReadError where
  | fileNotFound (path : String)
  | offsetTooSmall (offset : Int)
  | limitTooSmall (limit : Int)
  | offsetTooLarge (offset : Int) (total : Nat)
deriving DecidableEq, Repr

def ReadError.message : ReadError → String
  | fileNotFound path => "File not found: " ++ path
  | offsetTooSmall offset => "Offset must be at least 1, got " ++ toString offset
  | limitTooSmall limit => "Limit must be at least 1, got " ++ toString limit
  | offsetTooLarge offset total =>
    "Offset " ++ toString offset ++ " exceeds file length " ++ toString total

/-! ### The lines that are shown -/

/-- `len(line.encode("utf-8"))`. -/
def size (line : List Char) : Nat := (encodeUtf8 line).length

/-- How many of the requested lines are shown, and how large the next one is if it is too large for
any budget: the loop over them, with `usedBytes` shown already. -/
def takeLines (usedBytes : Nat) : List (List Char) → Nat × Option Nat
  | [] => (0, none)
  | line :: lines =>
    if maxBytes < size line then (0, some (size line))
    else if maxBytes < usedBytes + size line then (0, none)
    else
      let (shown, giant) := takeLines (usedBytes + size line) lines
      (shown + 1, giant)

/-- What is shown of a file. -/
structure Shown where
  firstLine : Nat
  lastLine : Nat
  totalLines : Nat
  /-- the ceiling of lines cut the range short -/
  lineCapBound : Bool
  /-- the budget of bytes did -/
  byteCapBound : Bool
  giantLine : Option (Nat × Nat)
  content : List Char
deriving DecidableEq, Repr

/-- `read`, short of formatting. -/
def showLines (fileContent : String) (offset : Int) (limit : Option Int) :
    Except ReadError Shown :=
  let lines := splitlinesKeepends fileContent.toList
  let totalLines := lines.length
  if offset < 1 then .error (.offsetTooSmall offset)
  else if limit.any (· < 1) then .error (.limitTooSmall (limit.getD 0))
  else if (totalLines : Int) < offset then .error (.offsetTooLarge offset totalLines)
  else
    let start := (offset - 1).toNat
    let cap := min ((limit.map Int.toNat).getD maxLines) maxLines
    let requestedEnd := min (start + cap) totalLines
    let requested := (lines.drop start).take (requestedEnd - start)
    let (shown, giant) := takeLines 0 requested
    let shownEnd := start + shown
    .ok
      { firstLine := start + 1
        lastLine := shownEnd
        totalLines
        lineCapBound := cap = maxLines && shownEnd = requestedEnd &&
          requestedEnd = start + cap && requestedEnd < totalLines
        byteCapBound := shownEnd < requestedEnd
        giantLine := giant.map fun giantSize => (shownEnd, giantSize)
        content := (requested.take shown).flatten }

/-- The section that is tagged: without the ending of its last line where the file goes on. -/
def anchoredContent (s : Shown) : List Char :=
  if s.lastLine < s.totalLines then
    if s.content.getLast? = some '\n' ∧ s.content.dropLast.getLast? = some '\r' then
      s.content.dropLast.dropLast
    else if s.content.getLast? = some '\n' ∨ s.content.getLast? = some '\r' then s.content.dropLast
    else s.content
  else s.content

/-! ### The text of the result -/

/-- Digits in groups of three. -/
def grouped (n : Nat) : String :=
  if n < 1000 then toString n
  else
    let last := toString (n % 1000)
    grouped (n / 1000) ++ "," ++ String.ofList (List.replicate (3 - last.length) '0') ++ last

def notice (s : Shown) : String :=
  match s.giantLine with
  | some (giantLine, giantSize) =>
    if s.lastLine < s.firstLine then
      "Line " ++ toString (giantLine + 1) ++ " is " ++ grouped giantSize ++
        " bytes, exceeding the 50KB output budget, so it cannot be displayed. Use rg or " ++
        "exec_command for targeted extraction; a partial excerpt would not contain the answer.\n\n"
    else
      "Showing lines " ++ toString s.firstLine ++ "-" ++ toString s.lastLine ++ " of " ++
        toString s.totalLines ++ ": line " ++ toString (giantLine + 1) ++ " is " ++
        grouped giantSize ++ " bytes, exceeding the 50KB output budget, so it is omitted. Use rg " ++
        "or exec_command for targeted extraction; the excerpt may not contain the answer.\n\n"
  | none =>
    if s.lineCapBound || s.byteCapBound then
      "[Showing lines " ++ toString s.firstLine ++ "-" ++ toString s.lastLine ++ " of " ++
        toString s.totalLines ++ " (" ++ (if s.byteCapBound then "50KB" else "2000-line") ++
        " limit). Use offset=" ++ toString (s.lastLine + 1) ++ " to continue.]\n\n"
    else ""

/-- `_format_file_content`. -/
def formatFileContent (path : String) (s : Shown) (content : String) : String :=
  let range := if s.firstLine ≤ s.lastLine ∧ (s.firstLine ≠ 1 ∨ s.lastLine ≠ s.totalLines) then
    [" (lines " ++ toString s.firstLine ++ "-" ++ toString s.lastLine ++ ")"] else []
  let truncated := if s.lineCapBound || s.byteCapBound then [" (TRUNCATED)"] else []
  "# " ++ path ++ String.join (range ++ truncated) ++ "\n\n" ++ notice s ++ "```\n" ++ content ++
    "\n```"

/-- The section as it is shown. -/
def shownContent (lineFormatter : Option (String → Nat → String)) (s : Shown) : String :=
  match lineFormatter with
  | none => String.ofList s.content
  | some formatter =>
    if anchoredContent s = [] then ""
    else formatter (String.ofList (anchoredContent s)) s.firstLine

/-- The `read` tool; a path where there is no file has none. -/
def read (filePath : String) (file : Option String) (offset : Int) (limit : Option Int)
    (lineFormatter : Option (String → Nat → String)) : Except ReadError String :=
  match file with
  | none => .error (.fileNotFound filePath)
  | some fileContent =>
    (showLines fileContent offset limit).map fun s =>
      formatFileContent filePath s (shownContent lineFormatter s)

end KolegaCode.ReadFile
