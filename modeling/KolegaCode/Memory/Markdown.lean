import KolegaCode.Lib.Text
import KolegaCode.Lib.Walk
import Mathlib.Algebra.GroupWithZero.Nat

/-!
# Memory — the private Markdown files

`MarkdownMemoryBackend` keeps the notes of a project as Markdown files below a private directory, a
file tree whose files are texts.  Every operation first scans the whole tree, and the scan raises
where the tree is beyond one of its limits.  What the operating system refuses comes in as a `Disk`
with every call.
-/

namespace KolegaCode.Memory

/-! ### Limits, errors and results -/

def MAX_FILES : Nat := 100
def MAX_FILE_BYTES : Nat := 128 * 1024
def MAX_TOTAL_BYTES : Nat := 1024 * 1024
def MAX_SCAN_ENTRIES : Nat := 1000
def MAX_SCAN_DIRECTORIES : Nat := 100
def MAX_DIRECTORY_DEPTH : Nat := 32
def PROMPT_MAX_LINES : Nat := 200
def PROMPT_MAX_BYTES : Nat := 25 * 1024
def INDEX_REFERENCE : String := "MEMORY.md"

/-- The `MemorySafetyError`s of the backend, and an `OSError` that passes through it. -/
inductive MemorySafetyError where
  | emptyPath
  | separators
  | notRelative
  | notMarkdown
  | reservedPath
  | depth
  | component
  | target
  | readLimit
  | persist
  | delete
  | entryCount
  | directoryCount
  | fileCount
  | totalSize
  | osError
deriving DecidableEq, Repr

def MemorySafetyError.text : MemorySafetyError → String
  | .emptyPath => "memory path must be a non-empty relative Markdown path"
  | .separators => "memory path must use normalized '/' separators"
  | .notRelative => "memory path must be normalized and relative"
  | .notMarkdown => "memory path must be normalized and end in .md"
  | .reservedPath => "reserved memory path"
  | .depth => "memory directory depth exceeds safety limit"
  | .component => "memory path component is not a directory"
  | .target => "memory target must be a regular non-symlink file"
  | .readLimit => "memory file exceeds 128 KiB read limit"
  | .persist => "unable to persist memory entry safely"
  | .delete => "unable to delete memory entry safely"
  | .entryCount => "memory directory entry count exceeds scan safety limit"
  | .directoryCount => "memory directory count exceeds scan safety limit"
  | .fileCount => "memory file count exceeds safety limit"
  | .totalSize => "memory total size exceeds safety limit"
  | .osError => ""

/-- Why an operation is refused without an exception. -/
inductive Refusal where
  | fileTooLarge
  | countLimit
  | totalTooLarge
  | missing
  | emptyOldString
  | notFound
  | ambiguous (occurrences : Nat)
deriving DecidableEq, Repr

def Refusal.text : Refusal → String
  | .fileTooLarge => "memory file exceeds 128 KiB"
  | .countLimit => "memory file count limit reached"
  | .totalTooLarge => "memory total size exceeds 1 MiB"
  | .missing => "entry is missing"
  | .emptyOldString => "old_string must not be empty"
  | .notFound => "old_string was not found"
  | .ambiguous n => "old_string appears " ++ toString n ++ " times; provide more context"

/-- The warning about a long `MEMORY.md`, with the lines and bytes that it names. -/
structure IndexWarning where
  lines : Nat
  bytes : Nat
deriving DecidableEq, Repr

structure MemoryWriteResult where
  success : Bool
  reference : String
  byteCount : Nat := 0
  error : Option Refusal := none
  warnings : List IndexWarning := []
deriving DecidableEq, Repr

structure MemoryEntry where
  reference : String
  content : Option String
  byteCount : Nat
  isPresent : Bool
deriving DecidableEq, Repr

structure MemoryEntrySummary where
  reference : String
  byteCount : Nat
  displayName : String
deriving DecidableEq, Repr

/-- The private directory. -/
abbrev Root := FileTree String String

/-- What the operating system refuses during a call: to make some directories, to write the file,
to unlink it. -/
structure Disk where
  refusesMkdir : List String → Bool := fun _ => false
  refusesWrite : Bool := false
  refusesUnlink : Bool := false

/-- What Python takes from Unicode: `str.casefold` character by character, and `str.isspace`. -/
structure Unicode where
  fold : Char → List Char
  isSpace : Char → Bool

variable (u : Unicode)

def casefold (s : String) : List Char := s.toList.flatMap u.fold

/-! ### References -/

/-- `PurePosixPath(reference).parts` of a relative path. -/
def pureParts (reference : String) : List String :=
  ((reference.toList.splitOn '/').filter fun p => p ≠ [] ∧ p ≠ ['.']).map String.ofList

/-- `PurePath.suffix` of the last name. -/
def suffix (name : List Char) : List Char :=
  let head := name.rdropWhile (· ≠ '.')
  if 1 < head.length ∧ head.length < name.length then name.drop (head.length - 1) else []

def joined (parts : List String) : String :=
  String.ofList (['/'].intercalate (parts.map String.toList))

def asPosix (parts : List String) : String := if parts = [] then "." else joined parts

/-- `_reference`: the parts of a reference. -/
def reference (ref : String) : Except MemorySafetyError (List String) :=
  let parts := pureParts ref
  if ref = "" ∨ '\x00' ∈ ref.toList then .error .emptyPath
  else if '\\' ∈ ref.toList then .error .separators
  else if ref.toList.head? = some '/' ∨ ".." ∈ parts then .error .notRelative
  else if asPosix parts ≠ ref ∨
      casefold u (String.ofList (suffix (parts.getLast?.getD "").toList)) ≠ ".md".toList then
    .error .notMarkdown
  else if ∃ part ∈ parts, casefold u part = "manifest.json".toList then .error .reservedPath
  else .ok parts

/-- What the scan takes for a memory file. -/
def isMarkdown (name : String) : Bool := ".md".toList.isSuffixOf (casefold u name)

/-! ### Reading -/

/-- The directories of a path, from one that is there down; `false` where one is not there. -/
def parentThere (root : Root) : (path rest : List String) → Except MemorySafetyError Bool
  | _, [] => .ok true
  | path, part :: rest =>
    match root.get (path ++ [part]) with
    | none => .ok false
    | some (.file _) => .error .component
    | some .dir => parentThere root (path ++ [part]) rest

/-- `_read_path`. -/
def readPath (root : Root) (parts : List String) : Except MemorySafetyError (Option String) := do
  let there ← parentThere root [] parts.dropLast
  if there then
    match root.get parts with
    | none => return none
    | some .dir => throw .target
    | some (.file data) =>
      if MAX_FILE_BYTES < data.utf8ByteSize then throw .readLimit else return some data
  else return none

def readEntry (root : Root) (ref : String) : Except MemorySafetyError MemoryEntry := do
  let parts ← reference u ref
  match ← readPath root parts with
  | none => return ⟨ref, none, 0, false⟩
  | some data => return ⟨ref, some data, data.utf8ByteSize, true⟩

/-! ### The scan -/

structure ScannedFile where
  reference : String
  data : String
deriving DecidableEq, Repr

/-- What a scan has found so far, and its `_ScanBudget`. -/
structure Scan where
  files : List ScannedFile := []
  entries : Nat := 0
  directories : Nat := 1
  totalBytes : Nat := 0
deriving DecidableEq, Repr

def scanFile (path : List String) (data : String) (scan : Scan) :
    Except MemorySafetyError Scan :=
  if MAX_FILES ≤ scan.files.length then .error .fileCount
  else if MAX_FILE_BYTES < data.utf8ByteSize then .error .readLimit
  else if MAX_TOTAL_BYTES < scan.totalBytes + data.utf8ByteSize then .error .totalSize
  else .ok { scan with
    totalBytes := scan.totalBytes + data.utf8ByteSize
    files := scan.files ++ [⟨joined path, data⟩] }

/-- One entry of a directory, up to where a directory is entered. -/
def visit (scan : Scan) (path : List String) (entry : Entry String) :
    Except MemorySafetyError Scan :=
  let scan := { scan with entries := scan.entries + 1 }
  if MAX_SCAN_ENTRIES < scan.entries then .error .entryCount
  else match entry with
    | .dir =>
      let scan := { scan with directories := scan.directories + 1 }
      if MAX_SCAN_DIRECTORIES < scan.directories then .error .directoryCount else .ok scan
    | .file data =>
      if isMarkdown u (path.getLast?.getD "") then scanFile path data scan else .ok scan

/-- `_scan_directory`.  The recursion is bounded: what is deeper than `MAX_DIRECTORY_DEPTH`
raises. -/
def scanDirectory (root : Root) : (fuel : Nat) → (path : List String) → Scan →
    Except MemorySafetyError Scan
  | 0, _, _ => .error .depth
  | fuel + 1, path, scan =>
    if MAX_DIRECTORY_DEPTH < path.length then .error .depth
    else (root.listdir path).foldlM (fun scan name => do
      match root.get (path ++ [name]) with
      | some .dir =>
        let scan ← visit u scan (path ++ [name]) .dir
        scanDirectory root fuel (path ++ [name]) scan
      | some (.file data) => visit u scan (path ++ [name]) (.file data)
      | none => return scan) scan

def scanMarkdownFiles (root : Root) : Except MemorySafetyError (List ScannedFile) := do
  let scan ← scanDirectory u root (MAX_DIRECTORY_DEPTH + 2) [] {}
  return scan.files

/-! ### Listing -/

def displayName (ref : String) (data : String) : String :=
  let stripped := ((Text.splitlines data.toList).take 5).map (Text.lstrip u.isSpace)
  match stripped.find? (·.head? = some '#') with
  | none => ref
  | some line =>
    let title := (Text.strip u.isSpace (Text.lstrip (· = '#') line)).take 80
    if title = [] then ref else String.ofList title

/-- The order of a listing: the index first, then by folded reference. -/
def listedBefore (a b : MemoryEntrySummary) : Bool :=
  if a.reference = INDEX_REFERENCE then true
  else if b.reference = INDEX_REFERENCE then false
  else ¬ casefold u b.reference < casefold u a.reference

def listEntries (root : Root) (query : Option String) :
    Except MemorySafetyError (List MemoryEntrySummary) := do
  let lowered := (query.map (casefold u)).getD []
  let files ← scanMarkdownFiles u root
  let found := files.filter fun item =>
    lowered = [] ∨ lowered <:+: casefold u item.reference ∨ lowered <:+: casefold u item.data
  return (found.map fun item =>
    (⟨item.reference, item.data.utf8ByteSize, displayName u item.reference item.data⟩ :
      MemoryEntrySummary)).mergeSort (listedBefore u)

/-! ### Writing -/

/-- `_ensure_parent`, from a directory that is there down.  What was made stays where a later part
raises. -/
def ensureParentFrom (disk : Disk) : (rest : List String) → (root : Root) →
    (base : List String) → root.get base = some .dir → Root × Option MemorySafetyError
  | [], root, _, _ => (root, none)
  | part :: rest, root, base, h =>
    match he : root.get (base ++ [part]) with
    | some .dir => ensureParentFrom disk rest root (base ++ [part]) he
    | some (.file _) => (root, some .component)
    | none =>
      if disk.refusesMkdir (base ++ [part]) then (root, some .osError)
      else ensureParentFrom disk rest
        (root.put (base ++ [part]) .dir (FileTree.puts_dir h part)) (base ++ [part])
        (FileTree.get_put_self (FileTree.puts_dir h part))

def ensureParent (disk : Disk) (root : Root) (parts : List String) :
    Root × Option MemorySafetyError :=
  if MAX_DIRECTORY_DEPTH < parts.length then (root, some .depth)
  else ensureParentFrom disk parts root [] rfl

/-- What the files of a scan add up to. -/
def totalSize (files : List ScannedFile) : Nat := (files.map (·.data.utf8ByteSize)).sum

/-- What `_commit` checks before it touches the directory: the limits that a caller is told of. -/
def checks (root : Root) (parts : List String) (candidate : String) :
    Except MemorySafetyError (Option Refusal) := do
  if MAX_FILE_BYTES < candidate.utf8ByteSize then return some .fileTooLarge
  else
    let files ← scanMarkdownFiles u root
    let opened ← readPath root parts
    if opened = none ∧ MAX_FILES ≤ files.length then return some .countLimit
    else
      let oldSize := (opened.map (·.utf8ByteSize)).getD 0
      if MAX_TOTAL_BYTES < totalSize files - oldSize + candidate.utf8ByteSize then
        return some .totalTooLarge
      else return none

/-- The write itself. -/
def persist (disk : Disk) (root : Root) (parts : List String) (ref candidate : String) :
    Root × Except MemorySafetyError MemoryWriteResult :=
  if root.isDir parts then (root, .error .target)
  else if disk.refusesWrite then (root, .error .persist)
  else match root.writeBytes parts candidate with
    | .error _ => (root, .error .persist)
    | .ok root' =>
      let lineCount := (Text.splitlines candidate.toList).length
      let long := ref = INDEX_REFERENCE ∧
        (PROMPT_MAX_LINES < lineCount ∨ PROMPT_MAX_BYTES < candidate.utf8ByteSize)
      (root', .ok {
        success := true
        reference := ref
        byteCount := candidate.utf8ByteSize
        warnings := if long then [⟨lineCount, candidate.utf8ByteSize⟩] else [] })

/-- `_commit`. -/
def commit (disk : Disk) (root : Root) (parts : List String) (ref candidate : String) :
    Root × Except MemorySafetyError MemoryWriteResult :=
  match checks u root parts candidate with
  | .error e => (root, .error e)
  | .ok (some refusal) => (root, .ok { success := false, reference := ref, error := refusal })
  | .ok none =>
    match ensureParent disk root parts.dropLast with
    | (root, some e) => (root, .error e)
    | (root, none) => persist disk root parts ref candidate

def writeEntry (disk : Disk) (root : Root) (ref content : String) :
    Root × Except MemorySafetyError MemoryWriteResult :=
  match reference u ref with
  | .error e => (root, .error e)
  | .ok parts => commit u disk root parts ref content

def deleteEntry (disk : Disk) (root : Root) (ref : String) :
    Root × Except MemorySafetyError MemoryWriteResult :=
  match (reference u ref).bind fun parts => (readPath root parts).map (parts, ·) with
  | .error e => (root, .error e)
  | .ok (_, none) => (root, .ok { success := false, reference := ref, error := some .missing })
  | .ok (parts, some _) =>
    if disk.refusesUnlink then (root, .error .delete)
    else match root.unlink parts false with
      | .error _ => (root, .error .delete)
      | .ok root' => (root', .ok { success := true, reference := ref })

/-- Exact matches, those that overlap included. -/
def countOccurrences (oldString : List Char) : (content : List Char) → Nat
  | [] => 0
  | c :: content =>
    (if oldString <+: c :: content then 1 else 0) + countOccurrences oldString content

/-- `content.replace(old_string, new_string, 1)`. -/
def replaceFirst (oldString newString : List Char) : (content : List Char) → List Char
  | [] => []
  | c :: content =>
    if oldString <+: c :: content then newString ++ (c :: content).drop oldString.length
    else c :: replaceFirst oldString newString content

def editTool (disk : Disk) (root : Root) (oldString newString ref : String) :
    Root × Except MemorySafetyError MemoryWriteResult :=
  match readEntry u root ref with
  | .error e => (root, .error e)
  | .ok entry =>
    let refused (refusal : Refusal) : Root × Except MemorySafetyError MemoryWriteResult :=
      (root, .ok { success := false, reference := entry.reference, error := some refusal })
    if oldString = "" then refused .emptyOldString
    else
      let content := (entry.content.getD "").toList
      match countOccurrences oldString.toList content with
      | 0 => refused .notFound
      | 1 => writeEntry u disk root entry.reference
          (String.ofList (replaceFirst oldString.toList newString.toList content))
      | n => refused (.ambiguous n)

end KolegaCode.Memory
