import KolegaCode.CodexPatch.Parse

/-!
# CodexPatch — what a rendered patch parses to

`Renders` writes a list of operations in `CODEX_APPLY_PATCH_GRAMMAR`, in every spelling the grammar
has for it.  The parser returns the operations with their paths stripped and without the chunks
that say nothing (`asRead`), and fails exactly when a path is blank or an update says nothing at
all (`Accepted`).  The texts may hold no character at which `splitlines` breaks a line.
-/

namespace KolegaCode.CodexPatch

open List Option
open Text (isLineBreak normalizeNewlines normalizeNewlines_eq_self splitlines
  splitlines_unlines_append strip unlines)
open Hashline (isSpace)

/-! ### Rendering -/

/-- `change_context`. -/
def headerLine (c : PatchChunk) : Line :=
  match c.context with
  | some text => "@@ ".toList ++ text
  | none => "@@".toList

/-- The change lines of a chunk and its `eof_line`. -/
def chunkBody (c : PatchChunk) : List Line :=
  c.lines.map (fun l => l.1.char :: l.2) ++
    if c.endOfFile then ["*** End of File".toList] else []

/-- The lines of a chunk.  A `bare` chunk starts at its change lines, which the grammar allows
when it has some and no named header. -/
def chunkLines (bare : Bool) (c : PatchChunk) : List Line :=
  if bare && c.context.isNone && !c.lines.isEmpty then chunkBody c
  else headerLine c :: chunkBody c

/-- `change`: every chunk after the first has its header. -/
def changeLines (bare : Bool) : List PatchChunk → List Line
  | [] => []
  | c :: cs => chunkLines bare c ++ cs.flatMap (chunkLines false)

/-- The first line of an operation. -/
def markerLine : PatchOperation → Line
  | .add path _ => Marker.addFile.text ++ path
  | .delete path => Marker.deleteFile.text ++ path
  | .update path _ _ => Marker.updateFile.text ++ path

/-- `change_move?`. -/
def moveLine (moveTo : Option Line) : List Line :=
  (moveTo.map fun path => Marker.moveTo.text ++ path).toList

/-- The lines of an operation after the first. -/
def operationBody (bare : Bool) : PatchOperation → List Line
  | .add _ lines => lines.map fun text => '+' :: text
  | .delete _ => []
  | .update _ moveTo chunks => moveLine moveTo ++ changeLines bare chunks

/-- `hunk+`, with a choice of spelling for each operation. -/
inductive Renders : List PatchOperation → List Line → Prop
  | nil : Renders [] []
  | cons (bare : Bool) {op : PatchOperation} {ops : List PatchOperation} {body : List Line} :
      Renders ops body → Renders (op :: ops) (markerLine op :: operationBody bare op ++ body)

/-- `start`, with or without the last line feed. -/
def patchText (body : List Line) (lineFeed : Bool) : List Char :=
  unlines ("*** Begin Patch".toList :: body) ++
    ("*** End Patch".toList ++ if lineFeed then ['\n'] else [])

/-! ### Well-formed operations -/

/-- The paths of an operation. -/
def paths : PatchOperation → List Line
  | .add path _ => [path]
  | .delete path => [path]
  | .update path moveTo _ => path :: moveTo.toList

/-- The texts of a chunk. -/
def chunkTexts (c : PatchChunk) : List Line := c.context.toList ++ c.lines.map Prod.snd

/-- The texts of an operation. -/
def texts (op : PatchOperation) : List Line :=
  paths op ++ match op with
    | .add _ lines => lines
    | .delete _ => []
    | .update _ _ chunks => chunks.flatMap chunkTexts

/-- What the grammar asks of an operation: file names and named headers are not empty, an added
file has a line, and only the last chunk of an update is at the end of the file. -/
def WellFormed (op : PatchOperation) : Prop :=
  (∀ path ∈ paths op, path ≠ []) ∧
    match op with
    | .add _ lines => lines ≠ []
    | .delete _ => True
    | .update _ _ chunks =>
        (∀ c ∈ chunks, c.context ≠ some []) ∧ ∀ c ∈ chunks.dropLast, c.endOfFile = false

/-- No text has a character that ends a line. -/
def Unbroken (op : PatchOperation) : Prop := ∀ text ∈ texts op, ∀ c ∈ text, isLineBreak c = false

/-- A chunk that says something. -/
def speaks (c : PatchChunk) : Bool := c.context.isSome || !c.lines.isEmpty || c.endOfFile

/-- The parser accepts an operation whose paths are not blank and that, as an update, moves the
file or has a chunk that says something. -/
def Accepted (op : PatchOperation) : Prop :=
  (∀ path ∈ paths op, strip isSpace path ≠ []) ∧
    match op with
    | .update _ moveTo chunks => moveTo.isSome ∨ ∃ c ∈ chunks, speaks c
    | _ => True

/-- An operation as the parser returns it. -/
def asRead : PatchOperation → PatchOperation
  | .add path lines => .add (strip isSpace path) lines
  | .delete path => .delete (strip isSpace path)
  | .update path moveTo chunks =>
      .update (strip isSpace path) (moveTo.map (strip isSpace)) (chunks.filter speaks)

/-! ### Markers -/

theorem startsWith_append (start text : Line) : startsWith (start ++ text) start = true := by
  rw [startsWith, isPrefixOf_iff_prefix]
  exact prefix_append start text

variable (marker : Marker)

theorem pathAfter_marker (path : Line) :
    pathAfter (marker.text ++ path) marker =
      if (strip isSpace path).isEmpty then .error (.missingPath marker)
      else .ok (strip isSpace path) := by
  rw [pathAfter, drop_left]

theorem pathAfter_ok {path : Line} (h : strip isSpace path ≠ []) :
    pathAfter (marker.text ++ path) marker = .ok (strip isSpace path) := by
  rw [pathAfter_marker, isEmpty_eq_false_iff.mpr h]
  rfl

theorem pathAfter_error {path : Line} (h : strip isSpace path = []) :
    pathAfter (marker.text ++ path) marker = .error (.missingPath marker) := by
  rw [pathAfter_marker, h]
  rfl

/-- What follows an operation: nothing, or the marker of the next one. -/
def EndsOperation (rest : List Line) : Prop := ∀ line ∈ rest.head?, isOperationMarker line = true

variable {ops : List PatchOperation} {body rest : List Line} {line : Line} {s : ChunkState}
  {chunks : List PatchChunk} {op : PatchOperation}

theorem endsOperation_of_renders (h : Renders ops body) : EndsOperation body := by
  cases h with
  | nil =>
    intro line hline
    cases hline
  | @cons bare op ops body _ =>
    intro line hline
    cases hline
    cases op with
    | add path lines => rfl
    | delete path => rfl
    | update path moveTo chunks => rfl

theorem operationMarker_cases (h : isOperationMarker line = true) :
    startsWith line "*** ".toList = true ∧ startsWith line Marker.moveTo.text = false := by
  simp only [isOperationMarker, startsWith, Bool.or_eq_true, isPrefixOf_iff_prefix] at h
  rcases h with (⟨text, rfl⟩ | ⟨text, rfl⟩) | ⟨text, rfl⟩
  · exact ⟨rfl, rfl⟩
  · exact ⟨rfl, rfl⟩
  · exact ⟨rfl, rfl⟩

/-! ### The lines of an added file -/

theorem takeAdded_rest (h : EndsOperation rest) : takeAdded rest = .ok ([], rest) := by
  cases rest with
  | nil => rfl
  | cons line rest =>
    rw [takeAdded, if_pos (operationMarker_cases (h line rfl)).1]

theorem takeAdded_lines (h : EndsOperation rest) (lines : List Line) :
    takeAdded (lines.map (fun text => '+' :: text) ++ rest) = .ok (lines, rest) := by
  induction lines with
  | nil => exact takeAdded_rest h
  | cons text lines ih =>
    rw [map_cons, cons_append, takeAdded, ih]
    rfl

/-! ### The lines of an update -/

theorem updateStep_header (hs : s.eof = false) (c : PatchChunk) :
    updateStep s (headerLine c) =
      .ok ⟨(finishChunk s).chunks, c.context, [], false⟩ := by
  rw [updateStep, hs]
  obtain ⟨context, lines, eof⟩ := c
  cases context with
  | none => rfl
  | some text => rfl

theorem updateStep_change (hs : s.eof = false) (mark : LineMark) (text : Line) :
    updateStep s (mark.char :: text) =
      .ok { s with changeLines := s.changeLines ++ [(mark, text)] } := by
  rw [updateStep, hs]
  cases mark with
  | context => rfl
  | remove => rfl
  | add => rfl

theorem updateStep_endOfFile (hs : s.eof = false) :
    updateStep s "*** End of File".toList = .ok { s with eof := true } := by
  rw [updateStep, hs]
  rfl

theorem updateLines_cons {s' : ChunkState} (rest : List Line)
    (hline : isOperationMarker line = false) (hs : updateStep s line = .ok s') :
    updateLines s (line :: rest) = updateLines s' rest := by
  rw [updateLines, hline, if_neg Bool.false_ne_true, hs]
  rfl

theorem updateLines_rest (h : EndsOperation rest) (s : ChunkState) :
    updateLines s rest = .ok (s, rest) := by
  cases rest with
  | nil => rfl
  | cons line rest => rw [updateLines, if_pos (h line rfl)]

theorem headerLine_not_marker (c : PatchChunk) :
    isOperationMarker (headerLine c) = false ∧
      startsWith (headerLine c) Marker.moveTo.text = false := by
  obtain ⟨context, lines, eof⟩ := c
  cases context with
  | none => exact ⟨rfl, rfl⟩
  | some text => exact ⟨rfl, rfl⟩

theorem change_not_marker (mark : LineMark) (text : Line) :
    isOperationMarker (mark.char :: text) = false ∧
      startsWith (mark.char :: text) Marker.moveTo.text = false := by
  cases mark with
  | context => exact ⟨rfl, rfl⟩
  | remove => exact ⟨rfl, rfl⟩
  | add => exact ⟨rfl, rfl⟩

theorem updateLines_changes (hs : s.eof = false) (rest : List Line)
    (lines : List (LineMark × Line)) :
    updateLines s (lines.map (fun l => l.1.char :: l.2) ++ rest) =
      updateLines { s with changeLines := s.changeLines ++ lines } rest := by
  induction lines generalizing s with
  | nil => rw [map_nil, nil_append, append_nil]
  | cons l lines ih =>
    rw [map_cons, cons_append,
      updateLines_cons _ (change_not_marker l.1 l.2).1 (updateStep_change hs l.1 l.2)]
    have hl := @ih { s with changeLines := s.changeLines ++ [l] } hs
    rw [append_assoc, singleton_append] at hl
    exact hl

theorem updateLines_body (hs : s.eof = false) (rest : List Line) (c : PatchChunk) :
    updateLines s (chunkBody c ++ rest) =
      updateLines { s with changeLines := s.changeLines ++ c.lines, eof := c.endOfFile } rest := by
  rw [chunkBody, append_assoc, updateLines_changes hs]
  cases hc : c.endOfFile with
  | false =>
    rw [if_neg Bool.false_ne_true, nil_append, ← hs]
  | true =>
    rw [if_pos rfl, singleton_append]
    exact updateLines_cons rest rfl (updateStep_endOfFile hs)

theorem updateLines_chunk (hs : s.eof = false) (rest : List Line) (c : PatchChunk) :
    updateLines s (chunkLines false c ++ rest) =
      updateLines ⟨(finishChunk s).chunks, c.context, c.lines, c.endOfFile⟩ rest := by
  rw [chunkLines, Bool.false_and, Bool.false_and, if_neg Bool.false_ne_true, cons_append,
    updateLines_cons _ (headerLine_not_marker c).1 (updateStep_header hs c)]
  exact updateLines_body rfl rest c

theorem finishChunk_opened (chunks : List PatchChunk) (c : PatchChunk) :
    (finishChunk ⟨chunks, c.context, c.lines, c.endOfFile⟩).chunks =
      chunks ++ [c].filter speaks := by
  rw [finishChunk]
  cases hc : speaks c with
  | true =>
    rw [filter_cons_of_pos hc]
    exact if_pos hc
  | false =>
    rw [filter_cons_of_neg (by rw [hc]; exact Bool.false_ne_true), filter_nil, append_nil]
    refine if_neg ?_
    rw [← speaks, hc]
    exact Bool.false_ne_true

/-- **Chunks with their headers**: the loop collects those that say something. -/
theorem updateLines_chunks {rest : List Line} (hrest : EndsOperation rest) :
    ∀ {chunks : List PatchChunk} {s : ChunkState}, s.eof = false →
      (∀ c ∈ chunks.dropLast, c.endOfFile = false) →
      ∃ s', updateLines s (chunks.flatMap (chunkLines false) ++ rest) = .ok (s', rest) ∧
        (finishChunk s').chunks = (finishChunk s).chunks ++ chunks.filter speaks
  | [], s, _, _ => by
      refine ⟨s, ?_, ?_⟩
      · rw [flatMap_nil, nil_append, updateLines_rest hrest]
      · rw [filter_nil, append_nil]
  | [c], s, hs, _ => by
      refine ⟨_, ?_, finishChunk_opened _ c⟩
      rw [flatMap_singleton, updateLines_chunk hs, updateLines_rest hrest]
  | c :: c' :: chunks, s, hs, heof => by
      have hc : c.endOfFile = false := heof c mem_cons_self
      obtain ⟨s', hs', hchunks⟩ :=
        @updateLines_chunks rest hrest (c' :: chunks)
          ⟨(finishChunk s).chunks, c.context, c.lines, c.endOfFile⟩ hc
          fun d hd => heof d (mem_cons_of_mem _ hd)
      refine ⟨s', ?_, ?_⟩
      · rw [flatMap_cons, append_assoc, updateLines_chunk hs, hs']
      · rw [hchunks, finishChunk_opened, append_assoc, ← filter_append, singleton_append]

/-- A change may leave out its first header, and is read all the same. -/
theorem updateLines_change (hrest : EndsOperation rest) (bare : Bool)
    (heof : ∀ c ∈ chunks.dropLast, c.endOfFile = false) :
    ∃ s, updateLines ⟨[], none, [], false⟩ (changeLines bare chunks ++ rest) = .ok (s, rest) ∧
      (finishChunk s).chunks = chunks.filter speaks := by
  cases chunks with
  | nil =>
    refine ⟨⟨[], none, [], false⟩, ?_, rfl⟩
    rw [changeLines, nil_append, updateLines_rest hrest]
  | cons c chunks =>
    obtain ⟨s, hs, hchunks⟩ :=
      @updateLines_chunks rest hrest (c :: chunks) ⟨[], none, [], false⟩ rfl heof
    refine ⟨s, ?_, hchunks⟩
    rw [← hs, flatMap_cons, changeLines, append_assoc, append_assoc,
      updateLines_chunk rfl, chunkLines]
    split
    · next h =>
      have hcontext : c.context = none := by
        rw [Bool.and_eq_true, Bool.and_eq_true] at h
        exact isNone_iff_eq_none.mp h.1.2
      rw [updateLines_body rfl, hcontext]
      rfl
    · rw [cons_append, updateLines_cons _ (headerLine_not_marker c).1 (updateStep_header rfl c)]
      exact updateLines_body rfl _ c

/-! ### One operation -/

theorem takeMove_change (hrest : EndsOperation rest) (bare : Bool) (chunks : List PatchChunk) :
    takeMove (changeLines bare chunks ++ rest) = .ok (none, changeLines bare chunks ++ rest) := by
  have stays : ∀ (line : Line) (lines : List Line), startsWith line Marker.moveTo.text = false →
      takeMove (line :: lines) = .ok (none, line :: lines) := by
    intro line lines hline
    rw [takeMove, hline, if_neg Bool.false_ne_true]
  cases chunks with
  | nil =>
    rw [changeLines, nil_append]
    cases rest with
    | nil => rfl
    | cons line rest => exact stays line rest (operationMarker_cases (hrest line rfl)).2
  | cons c chunks =>
    rw [changeLines, chunkLines]
    split
    · next h =>
      -- a bare chunk has a change line, and starts with it
      rw [Bool.and_eq_true, Bool.not_eq_true', isEmpty_eq_false_iff] at h
      obtain ⟨l, lines, hlines⟩ := exists_cons_of_ne_nil h.2
      rw [chunkBody, hlines]
      exact stays _ _ (change_not_marker l.1 l.2).2
    · exact stays _ _ (headerLine_not_marker c).2

theorem takeMove_lines (hrest : EndsOperation rest) (bare : Bool) (chunks : List PatchChunk)
    (move : Option Line) (hmove : ∀ path ∈ move, strip isSpace path ≠ []) :
    takeMove (moveLine move ++ changeLines bare chunks ++ rest) =
      .ok (move.map (strip isSpace), changeLines bare chunks ++ rest) := by
  cases move with
  | none => exact takeMove_change hrest bare chunks
  | some path =>
    have hpath := pathAfter_ok .moveTo (hmove path rfl)
    rw [moveLine, Option.map_some, Option.toList_some, append_assoc, singleton_append,
      takeMove, startsWith_append, if_pos rfl, hpath]
    rfl

/-- **An accepted operation is read back**, up to blanks around paths and empty chunks. -/
theorem parseOperation_accepted (hrest : EndsOperation rest) (bare : Bool) (hwf : WellFormed op)
    (h : Accepted op) :
    parseOperation (markerLine op) (operationBody bare op ++ rest) = .ok (asRead op, rest) := by
  cases op with
  | add path lines =>
    have hpath := pathAfter_ok .addFile (h.1 path mem_cons_self)
    have hlines : lines.isEmpty = false := isEmpty_eq_false_iff.mpr hwf.2
    rw [parseOperation, markerLine, startsWith_append, if_pos rfl, hpath, operationBody]
    rw [takeAdded_lines hrest]
    show (if lines.isEmpty then _ else _) = _
    rw [hlines]
    rfl
  | delete path =>
    have hpath := pathAfter_ok .deleteFile (h.1 path mem_cons_self)
    rw [parseOperation, markerLine, hpath]
    rfl
  | update path move chunks =>
    have hpath := pathAfter_ok .updateFile (h.1 path mem_cons_self)
    have hmove := takeMove_lines hrest bare chunks move fun q hq =>
      h.1 q (mem_cons_of_mem _ (mem_toList.mpr hq))
    obtain ⟨s, hs, hchunks⟩ := updateLines_change hrest bare hwf.2.2
    have hsome : ((chunks.filter speaks).isEmpty && (move.map (strip isSpace)).isNone) = false := by
      rw [Bool.and_eq_false_iff]
      rcases h.2 with hm | ⟨c, hc, hspeaks⟩
      · right
        rw [Option.isNone_map]
        exact Option.isNone_eq_false_iff.mpr hm
      · left
        exact isEmpty_eq_false_iff.mpr
          (ne_nil_of_mem (mem_filter.mpr ⟨hc, hspeaks⟩))
    rw [parseOperation, markerLine, hpath, operationBody]
    rw [hmove]
    show (updateLines _ _ >>= _) = _
    rw [hs]
    show (if (finishChunk s).chunks.isEmpty && _ then _ else _) = _
    rw [hchunks, hsome]
    rfl

/-- **An operation with a blank path, or an update that says nothing, is refused.** -/
theorem parseOperation_refused (hrest : EndsOperation rest) (bare : Bool) (hwf : WellFormed op)
    (h : ¬Accepted op) :
    ∃ e, parseOperation (markerLine op) (operationBody bare op ++ rest) = .error e := by
  have blank : ∀ {path : Line}, ¬strip isSpace path ≠ [] → strip isSpace path = [] :=
    fun h => Classical.byContradiction h
  cases op with
  | add path lines =>
    have hpath : strip isSpace path = [] := by
      refine blank fun hpath => h ⟨fun q hq => ?_, trivial⟩
      rw [mem_singleton.mp hq]
      exact hpath
    refine ⟨.missingPath .addFile, ?_⟩
    rw [parseOperation, markerLine, startsWith_append, if_pos rfl, pathAfter_error .addFile hpath]
    rfl
  | delete path =>
    have hpath : strip isSpace path = [] := by
      refine blank fun hpath => h ⟨fun q hq => ?_, trivial⟩
      rw [mem_singleton.mp hq]
      exact hpath
    refine ⟨.missingPath .deleteFile, ?_⟩
    rw [parseOperation, markerLine, pathAfter_error .deleteFile hpath]
    rfl
  | update path move chunks =>
    rw [parseOperation, markerLine, operationBody]
    by_cases hpath : strip isSpace path = []
    · refine ⟨.missingPath .updateFile, ?_⟩
      rw [pathAfter_error .updateFile hpath]
      rfl
    rw [pathAfter_ok .updateFile hpath]
    by_cases hblank : ∃ q ∈ move, strip isSpace q = []
    · obtain ⟨q, hq, hblank⟩ := hblank
      cases hq
      refine ⟨.missingPath .moveTo, ?_⟩
      show (takeMove ((Marker.moveTo.text ++ q) :: _) >>= _) = _
      rw [takeMove, startsWith_append, if_pos rfl, pathAfter_error .moveTo hblank]
      rfl
    · have hmove : ∀ q ∈ move, strip isSpace q ≠ [] := fun q hq hq' => hblank ⟨q, hq, hq'⟩
      obtain ⟨s, hs, hchunks⟩ := updateLines_change hrest bare hwf.2.2
      -- both paths are good, so the update moves nothing and says nothing
      have hpaths : ∀ q ∈ path :: move.toList, strip isSpace q ≠ [] := by
        intro q hq
        rcases mem_cons.mp hq with rfl | hq
        · exact hpath
        · exact hmove q (mem_toList.mp hq)
      have hnone : move = none := by
        cases move with
        | none => rfl
        | some q => exact absurd ⟨hpaths, Or.inl rfl⟩ h
      have hnothing : chunks.filter speaks = [] := by
        refine filter_eq_nil_iff.mpr fun c hc hspeaks => ?_
        exact h ⟨hpaths, Or.inr ⟨c, hc, hspeaks⟩⟩
      refine ⟨.noChanges (strip isSpace path), ?_⟩
      rw [takeMove_lines hrest bare chunks move hmove]
      show (updateLines _ _ >>= _) = _
      rw [hs]
      show (if (finishChunk s).chunks.isEmpty && _ then _ else _) = _
      rw [hchunks, hnothing, hnone]
      rfl

/-! ### The lines of a rendered patch -/

/-- A line without a character that ends it. -/
def Whole (line : Line) : Prop := ∀ c ∈ line, isLineBreak c = false

instance (line : Line) : Decidable (Whole line) :=
  decidable_of_iff (line.all fun c => !isLineBreak c) (by simp [Whole])

theorem Whole.append {a b : Line} (ha : Whole a) (hb : Whole b) : Whole (a ++ b) := by
  intro c hc
  rcases mem_append.mp hc with hc | hc
  · exact ha c hc
  · exact hb c hc

theorem whole_marker : Whole marker.text := by
  cases marker with
  | addFile => decide
  | deleteFile => decide
  | updateFile => decide
  | moveTo => decide

theorem whole_change (mark : LineMark) {text : Line} (h : Whole text) :
    Whole (mark.char :: text) := by
  have hmark : Whole [mark.char] := by
    cases mark with
    | context => decide
    | remove => decide
    | add => decide
  exact hmark.append h

theorem whole_chunkLines {c : PatchChunk} (h : ∀ text ∈ chunkTexts c, Whole text) (bare : Bool) :
    ∀ line ∈ chunkLines bare c, Whole line := by
  have hbody : ∀ line ∈ chunkBody c, Whole line := by
    intro line hline
    rcases mem_append.mp hline with hline | hline
    · obtain ⟨l, hl, rfl⟩ := mem_map.mp hline
      exact whole_change l.1 (h l.2 (mem_append_right _ (mem_map_of_mem hl)))
    · split at hline
      · rw [mem_singleton.mp hline]
        exact (by decide : Whole "*** End of File".toList)
      · cases hline
  have hheader : Whole (headerLine c) := by
    rw [headerLine]
    split
    · next text hc =>
      have htext : text ∈ chunkTexts c := by
        rw [chunkTexts, hc]
        exact mem_cons_self
      exact Whole.append (by decide : Whole "@@ ".toList) (h text htext)
    · exact (by decide : Whole "@@".toList)
  intro line hline
  rw [chunkLines] at hline
  split at hline
  · exact hbody line hline
  · rcases mem_cons.mp hline with rfl | hline
    · exact hheader
    · exact hbody line hline

theorem mem_changeLines {bare : Bool} (h : line ∈ changeLines bare chunks) :
    ∃ c ∈ chunks, ∃ bare, line ∈ chunkLines bare c := by
  cases chunks with
  | nil => cases h
  | cons c chunks =>
    rcases mem_append.mp h with h | h
    · exact ⟨c, mem_cons_self, bare, h⟩
    · obtain ⟨d, hd, h⟩ := mem_flatMap.mp h
      exact ⟨d, mem_cons_of_mem _ hd, false, h⟩

theorem whole_markerLine (h : Unbroken op) : Whole (markerLine op) := by
  cases op with
  | add path lines => exact (whole_marker .addFile).append (h path mem_cons_self)
  | delete path => exact (whole_marker .deleteFile).append (h path mem_cons_self)
  | update path move chunks => exact (whole_marker .updateFile).append (h path mem_cons_self)

theorem whole_operationBody (h : Unbroken op) (bare : Bool) :
    ∀ line ∈ operationBody bare op, Whole line := by
  intro line hline
  cases op with
  | add path lines =>
    obtain ⟨text, htext, rfl⟩ := mem_map.mp hline
    exact whole_change .add (h text (mem_append_right _ htext))
  | delete path => cases hline
  | update path move chunks =>
    rcases mem_append.mp hline with hline | hline
    · obtain ⟨q, hq, rfl⟩ := map_eq_some_iff.mp (mem_toList.mp hline)
      refine (whole_marker .moveTo).append (h q (mem_append_left _ ?_))
      exact mem_cons_of_mem _ (mem_toList.mpr hq)
    · obtain ⟨c, hc, bare', hline⟩ := mem_changeLines hline
      refine whole_chunkLines (fun text htext => ?_) bare' line hline
      exact h text (mem_append_right _ (mem_flatMap.mpr ⟨c, hc, htext⟩))

theorem whole_of_renders (h : Renders ops body) (hops : ∀ op ∈ ops, Unbroken op) :
    ∀ line ∈ body, Whole line := by
  induction h with
  | nil =>
    intro line hline
    cases hline
  | @cons bare op ops body _ ih =>
    intro line hline
    have hop := hops op mem_cons_self
    rcases mem_append.mp hline with hline | hline
    · rcases mem_cons.mp hline with rfl | hline
      · exact whole_markerLine hop
      · exact whole_operationBody hop bare line hline
    · exact ih (fun op hop => hops op (mem_cons_of_mem _ hop)) line hline

theorem splitlines_patchText (h : ∀ line ∈ body, Whole line) (lineFeed : Bool) :
    splitlines (normalizeNewlines (patchText body lineFeed)) =
      "*** Begin Patch".toList :: (body ++ ["*** End Patch".toList]) := by
  have hwhole : ∀ line ∈ "*** Begin Patch".toList :: body, Whole line := by
    intro line hline
    rcases mem_cons.mp hline with rfl | hline
    · decide
    · exact h line hline
  have hend : splitlines ("*** End Patch".toList ++ if lineFeed then ['\n'] else []) =
      ["*** End Patch".toList] := by
    cases lineFeed <;> decide
  have hcr : '\r' ∉ patchText body lineFeed := by
    intro hmem
    rcases mem_append.mp hmem with hmem | hmem
    · rcases Text.mem_unlines hmem with hmem | ⟨line, hline, hmem⟩
      · cases hmem
      · exact absurd (hwhole line hline _ hmem) (by decide)
    · cases lineFeed <;> exact absurd hmem (by decide)
  rw [normalizeNewlines_eq_self hcr, patchText, splitlines_unlines_append hwhole, hend]
  rfl

/-- The patch is the operations of its lines. -/
theorem parseCodexPatch_patchText (h : ∀ line ∈ body, Whole line) (lineFeed : Bool) :
    parseCodexPatch (patchText body lineFeed) = (do
      let operations ← parseOperations body
      if operations.isEmpty then .error .noOperations else .ok operations) := by
  rw [parseCodexPatch, splitlines_patchText h]
  have hbegin : ¬strip isSpace "*** Begin Patch".toList ≠ "*** Begin Patch".toList := by decide
  have hend : ¬strip isSpace "*** End Patch".toList ≠ "*** End Patch".toList := by decide
  dsimp only
  rw [if_neg hbegin, getLast?_concat, dropLast_concat]
  dsimp only
  rw [if_neg hend]

/-! ### Every operation -/

theorem parseOperations_accepted (h : Renders ops body) (hwf : ∀ op ∈ ops, WellFormed op)
    (hops : ∀ op ∈ ops, Accepted op) : parseOperations body = .ok (ops.map asRead) := by
  induction h with
  | nil => rw [parseOperations, map_nil]
  | @cons bare op ops body hbody ih =>
    have hop := parseOperation_accepted (endsOperation_of_renders hbody) bare
      (hwf op mem_cons_self) (hops op mem_cons_self)
    have hrest := ih (fun op hop => hwf op (mem_cons_of_mem _ hop))
      fun op hop => hops op (mem_cons_of_mem _ hop)
    rw [cons_append, parseOperations_cons, hop]
    show (parseOperations body >>= _) = _
    rw [hrest]
    rfl

theorem parseOperations_refused (h : Renders ops body) (hwf : ∀ op ∈ ops, WellFormed op)
    (hops : ¬∀ op ∈ ops, Accepted op) : ∃ e, parseOperations body = .error e := by
  induction h with
  | nil => exact absurd (fun op hop => absurd hop not_mem_nil) hops
  | @cons bare op ops body hbody ih =>
    have hwf_op := hwf op mem_cons_self
    have hends := endsOperation_of_renders hbody
    rw [cons_append, parseOperations_cons]
    by_cases hop : Accepted op
    · have hrest : ¬∀ op ∈ ops, Accepted op := by
        intro hrest
        refine hops fun op' hop' => ?_
        rcases mem_cons.mp hop' with rfl | hop'
        · exact hop
        · exact hrest op' hop'
      obtain ⟨e, he⟩ := ih (fun op hop => hwf op (mem_cons_of_mem _ hop)) hrest
      refine ⟨e, ?_⟩
      rw [parseOperation_accepted hends bare hwf_op hop]
      show (parseOperations body >>= _) = _
      rw [he]
      rfl
    · obtain ⟨e, he⟩ := parseOperation_refused hends bare hwf_op hop
      refine ⟨e, ?_⟩
      rw [he]
      rfl

/-- **What a rendered patch parses to.**  A non-empty list of well-formed operations, rendered in
any spelling of the grammar, comes back with its paths stripped and without the chunks that say
nothing, when no path is blank and every update moves the file or has a chunk that says something.
Otherwise the parser fails. -/
theorem parseCodexPatch_renders {ops : List PatchOperation} {body : List Line} (lineFeed : Bool)
    (hne : ops ≠ []) (hwf : ∀ op ∈ ops, WellFormed op) (hunbroken : ∀ op ∈ ops, Unbroken op)
    (hbody : Renders ops body) :
    ((∀ op ∈ ops, Accepted op) →
        parseCodexPatch (patchText body lineFeed) = .ok (ops.map asRead)) ∧
      ((¬∀ op ∈ ops, Accepted op) →
        ∃ e, parseCodexPatch (patchText body lineFeed) = .error e) := by
  rw [parseCodexPatch_patchText (whole_of_renders hbody hunbroken)]
  refine ⟨fun hops => ?_, fun hops => ?_⟩
  · have hmap : (ops.map asRead).isEmpty = false := by
      rw [isEmpty_map]
      exact isEmpty_eq_false_iff.mpr hne
    rw [parseOperations_accepted hbody hwf hops]
    show (if (ops.map asRead).isEmpty then _ else _) = _
    rw [hmap]
    rfl
  · obtain ⟨e, he⟩ := parseOperations_refused hbody hwf hops
    refine ⟨e, ?_⟩
    rw [he]
    rfl

/-- A moved file with a chunk comes back without the blanks after its name. -/
theorem parseCodexPatch_renders_moved :
    parseCodexPatch (patchText
        ["*** Update File: a.txt ".toList, "*** Move to: b.txt".toList, "-x".toList, "+y".toList]
        true) =
      .ok [.update "a.txt".toList (some "b.txt".toList)
        [⟨none, [(.remove, "x".toList), (.add, "y".toList)], false⟩]] := by
  let op : PatchOperation := .update "a.txt ".toList (some "b.txt".toList)
    [⟨none, [(.remove, "x".toList), (.add, "y".toList)], false⟩]
  have hwf : ∀ op' ∈ [op], WellFormed op' := by
    intro op' hop'
    rw [mem_singleton.mp hop']
    refine ⟨by decide, ?_, ?_⟩
    · decide
    · decide
  have hunbroken : ∀ op' ∈ [op], Unbroken op' := by
    intro op' hop'
    rw [mem_singleton.mp hop']
    exact (by decide : ∀ text ∈ texts op, Whole text)
  have haccepted : ∀ op' ∈ [op], Accepted op' := by
    intro op' hop'
    rw [mem_singleton.mp hop']
    exact ⟨by decide, Or.inl rfl⟩
  exact (parseCodexPatch_renders true (cons_ne_nil op []) hwf hunbroken
    (Renders.cons true Renders.nil)).1 haccepted

/-! ### What does not come back -/

/-- A list of operations comes back as it was written, if it is one the grammar can write and its
texts have no line feed and no carriage return. -/
def ReadBack (ops : List PatchOperation) : Prop :=
  ops ≠ [] → (∀ op ∈ ops, WellFormed op) →
    (∀ op ∈ ops, ∀ text ∈ texts op, '\n' ∉ text ∧ '\r' ∉ text) →
      ∀ body lineFeed, Renders ops body → parseCodexPatch (patchText body lineFeed) = .ok ops

/-- One well-formed operation that is read as something else. -/
theorem not_readBack {op : PatchOperation} {result : Except ParseError (List PatchOperation)}
    (hwf : WellFormed op) (htexts : ∀ text ∈ texts op, '\n' ∉ text ∧ '\r' ∉ text)
    (hresult : parseCodexPatch (patchText (markerLine op :: operationBody false op) true) = result)
    (hne : result ≠ .ok [op]) : ¬ReadBack [op] := by
  intro h
  have hbody : Renders [op] (markerLine op :: operationBody false op) := by
    have hcons : Renders [op] (markerLine op :: operationBody false op ++ []) :=
      Renders.cons false Renders.nil
    rwa [append_nil] at hcons
  refine hne (hresult.symm.trans (h (cons_ne_nil op []) ?_ ?_ _ true hbody))
  · intro op' hop'
    rw [mem_singleton.mp hop']
    exact hwf
  · intro op' hop'
    rw [mem_singleton.mp hop']
    exact htexts

/-- **Not every list comes back.**  Blanks at the end of a path are stripped; an update without a
move or a chunk is refused; a chunk that is a bare `@@` is dropped; and a form feed breaks an added
line in two. -/
theorem parseCodexPatch_not_inverse :
    ¬ReadBack [.delete "a.txt ".toList] ∧
      ¬ReadBack [.update "a.txt".toList none []] ∧
      ¬ReadBack [.update "a.txt".toList (some "b.txt".toList) [⟨none, [], false⟩]] ∧
      ¬ReadBack [.add "a.txt".toList ["x\x0cy".toList]] := by
  refine ⟨?_, ?_, ?_, ?_⟩
  · refine @not_readBack _ (.ok [.delete "a.txt".toList]) ⟨by decide, trivial⟩ (by decide)
      (by decide +kernel) (by decide)
  · refine @not_readBack _ (.error (.noChanges "a.txt".toList)) ⟨by decide, by decide, by decide⟩
      (by decide) (by decide +kernel) (by decide)
  · refine @not_readBack _ (.ok [.update "a.txt".toList (some "b.txt".toList) []])
      ⟨by decide, by decide, by decide⟩ (by decide) (by decide +kernel) (by decide)
  · refine @not_readBack _ (.error (.addLine "y".toList)) ⟨by decide, by decide⟩ (by decide)
      (by decide +kernel) (by decide)

end KolegaCode.CodexPatch
