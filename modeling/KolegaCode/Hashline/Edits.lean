import KolegaCode.Hashline.Hash
import KolegaCode.Lib.Patch
import Mathlib.Data.List.Sort

/-!
# Hashline — applying edits

`apply_hashline_edits`: every anchor is checked against the file as it is, duplicate edits are
dropped, and the rest are executed in the order of `sortKey`, each at the line numbers of its
anchors.  The same execution runs on lines that remember where they come from.
-/

namespace KolegaCode.Hashline

variable {α β : Type}

/-! ### Edits -/

/-- An edit with the anchors its operation has; an `append` or a `prepend` may have none. -/
inductive HashlineEdit (α : Type) where
  | set (tag : LineTag) (content : List α)
  | replace (first last : LineTag) (content : List α)
  | append (after : Option LineTag) (content : List α)
  | prepend (before : Option LineTag) (content : List α)
  | insert (after before : LineTag) (content : List α)
deriving Repr, DecidableEq

namespace HashlineEdit

def content : HashlineEdit α → List α
  | set _ c | replace _ _ c | append _ c | prepend _ c | insert _ _ c => c

/-- The edit with another content. -/
def withContent (c : List β) : HashlineEdit α → HashlineEdit β
  | set tag _ => set tag c
  | replace first last _ => replace first last c
  | append after _ => append after c
  | prepend before _ => prepend before c
  | insert after before _ => insert after before c

end HashlineEdit

/-! ### Errors -/

structure HashMismatch where
  line : Nat
  expected : String
  actual : String
deriving Repr, DecidableEq

/-- A `ValueError`, or the `HashlineMismatchError` of stale anchors. -/
inductive HashlineError where
  | value (message : String)
  | mismatch (mismatches : List HashMismatch) (fileLines : List String)
deriving Repr, DecidableEq

/-- The lines shown around stale anchors, with dots between lines that do not follow each other. -/
def renderDisplay (mismatches : List HashMismatch) (fileLines : List String) :
    (previous : Option Nat) → List Nat → List String
  | _, [] => []
  | previous, lineNumber :: display =>
    let dots := if previous.any (· + 1 < lineNumber) then ["    ..."] else []
    let content := fileLines.getD (lineNumber - 1) ""
    let rendered := formatLineTag lineNumber content ++ ":" ++ content
    let mark := if mismatches.any (·.line == lineNumber) then ">>> " else "    "
    dots ++ (mark ++ rendered) :: renderDisplay mismatches fileLines (some lineNumber) display

/-- The text of the error. -/
def HashlineError.message : HashlineError → String
  | value message => message
  | mismatch mismatches fileLines =>
    let display := (List.range' 1 fileLines.length).filter fun k =>
      mismatches.any fun m => max 1 (m.line - 2) ≤ k && k ≤ min fileLines.length (m.line + 2)
    let subject := if mismatches.length = 1 then "line has" else "lines have"
    joinLines
      ((toString mismatches.length ++ " " ++ subject ++ " changed since last read. " ++
          "Use the updated LINE#ID references shown below (>>> marks changed lines).") ::
        "" :: renderDisplay mismatches fileLines none display)

/-! ### Validation -/

/-- Checks one anchor and collects a stale one. -/
def validateTag (tag : LineTag) (fileLines : List String) (mismatches : List HashMismatch) :
    Except HashlineError (List HashMismatch) :=
  if tag.line < 1 ∨ fileLines.length < tag.line then
    .error (.value ("Line " ++ toString tag.line ++ " does not exist (file has " ++
      toString fileLines.length ++ " lines)."))
  else
    let actual := computeLineHash (fileLines.getD (tag.line - 1) "")
    if actual = tag.hash then .ok mismatches
    else .ok (mismatches ++ [{ line := tag.line, expected := tag.hash, actual := actual }])

/-- The checks of one edit. -/
def validate (fileLines : List String) (mismatches : List HashMismatch) :
    HashlineEdit String → Except HashlineError (List HashMismatch)
  | .set tag _ => validateTag tag fileLines mismatches
  | .replace first last _ =>
    if last.line < first.line then
      .error (.value ("Range start line " ++ toString first.line ++
        " must be less than or equal to end line " ++ toString last.line ++ "."))
    else do validateTag last fileLines (← validateTag first fileLines mismatches)
  | .append after content =>
    if content = [] then .error (.value "Append requires non-empty content.")
    else match after with
      | some tag => validateTag tag fileLines mismatches
      | none => .ok mismatches
  | .prepend before content =>
    if content = [] then .error (.value "Prepend requires non-empty content.")
    else match before with
      | some tag => validateTag tag fileLines mismatches
      | none => .ok mismatches
  | .insert after before content =>
    if content = [] then .error (.value "Insert requires non-empty content.")
    else if before.line ≠ after.line + 1 then
      .error (.value ("insert requires adjacent anchors (after " ++ toString after.line ++
        ", before " ++ toString before.line ++ ")."))
    else do validateTag before fileLines (← validateTag after fileLines mismatches)

/-! ### Order of execution -/

/-- Whether two edits have the same operation, anchor lines and content: the key of
`deduplicated`. -/
def sameKey [DecidableEq α] : HashlineEdit α → HashlineEdit α → Bool
  | .set t c, .set t' c' => t.line = t'.line && c = c'
  | .replace f l c, .replace f' l' c' => f.line = f'.line && l.line = l'.line && c = c'
  | .append t c, .append t' c' => t.map (·.line) = t'.map (·.line) && c = c'
  | .prepend t c, .prepend t' c' => t.map (·.line) = t'.map (·.line) && c = c'
  | .insert t u c, .insert t' u' c' => t.line = t'.line && u.line = u'.line && c = c'
  | _, _ => false

/-- One step of the loop over the enumerated edits: an edit is kept unless its key was seen. -/
def keepNew [DecidableEq α] (kept : List (Nat × HashlineEdit α)) (item : HashlineEdit α × Nat) :
    List (Nat × HashlineEdit α) :=
  if kept.any fun seen => sameKey seen.2 item.1 then kept else kept ++ [(item.2, item.1)]

/-- The edits with their indexes, without those that have the key of an earlier one. -/
def deduplicated [DecidableEq α] (edits : List (HashlineEdit α)) : List (Nat × HashlineEdit α) :=
  edits.zipIdx.foldl keepNew []

/-- The sort key, with the line as a number that is sorted downwards. -/
structure SortKey where
  line : Nat
  kind : Nat
  index : Nat
deriving Repr, DecidableEq

/-- Larger lines first, then smaller kinds, then smaller indexes. -/
def SortKey.Le (a b : SortKey) : Prop :=
  b.line < a.line ∨ a.line = b.line ∧ (a.kind < b.kind ∨ a.kind = b.kind ∧ a.index ≤ b.index)

instance : DecidableRel SortKey.Le := fun a b => inferInstanceAs (Decidable
  (b.line < a.line ∨ a.line = b.line ∧ (a.kind < b.kind ∨ a.kind = b.kind ∧ a.index ≤ b.index)))

/-- `sort_key`, in a file of `n` lines. -/
def sortKey (n : Nat) : Nat × HashlineEdit α → SortKey
  | (index, .set tag _) => ⟨tag.line, 0, index⟩
  | (index, .replace _ last _) => ⟨last.line, 0, index⟩
  | (index, .append after _) => ⟨(after.map (·.line)).getD (n + 1), 1, index⟩
  | (index, .prepend before _) => ⟨(before.map (·.line)).getD 0, 2, index⟩
  | (index, .insert _ before _) => ⟨before.line, 3, index⟩

/-- The edits that are executed, in the order in which they are. -/
def ranked [DecidableEq α] (n : Nat) (edits : List (HashlineEdit α)) :
    List (Nat × HashlineEdit α) :=
  (deduplicated edits).insertionSort fun a b => (sortKey n a).Le (sortKey n b)

/-! ### Execution -/

/-- One edit.  An edit without an anchor takes the place of a list that is one empty line. -/
def applyEdit (text : α → String) (fileLines : List α) : HashlineEdit α → List α
  | .set tag content => splice fileLines (tag.line - 1) tag.line content
  | .replace first last content => splice fileLines (first.line - 1) last.line content
  | .append (some after) content => splice fileLines after.line after.line content
  | .append none content =>
    if fileLines.map text = [""] then content else fileLines ++ content
  | .prepend (some before) content =>
    splice fileLines (before.line - 1) (before.line - 1) content
  | .prepend none content =>
    if fileLines.map text = [""] then content else splice fileLines 0 0 content
  | .insert _ before content => splice fileLines (before.line - 1) (before.line - 1) content

/-- The edits one after the other. -/
def applyAll (text : α → String) (fileLines : List α) (edits : List (HashlineEdit α)) : List α :=
  edits.foldl (applyEdit text) fileLines

/-- `apply_hashline_edits`. -/
def applyHashlineEdits (content : String) (edits : List (HashlineEdit String)) :
    Except HashlineError String :=
  if edits = [] then .ok content
  else do
    let fileLines := splitLines content
    let mismatches ← edits.foldlM (validate fileLines) []
    if mismatches ≠ [] then
      .error (.mismatch mismatches.eraseDups fileLines)
    else
      let result := joinLines
        (applyAll id fileLines ((ranked fileLines.length edits).map Prod.snd))
      if result = content then
        .error (.value "No changes made. The edits produced identical content.")
      else .ok result

end KolegaCode.Hashline
