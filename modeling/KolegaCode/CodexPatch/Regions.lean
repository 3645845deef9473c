import KolegaCode.CodexPatch.Apply
import Mathlib.Data.List.Infix

/-!
# CodexPatch — which lines an update touches

`Replaced` says what a list of chunks may do to the lines of a file: cut out one region for each
chunk, in the chunks' order and apart, and put the chunk's lines in its place.  `Rewrites` reads a
chunk against its region line by line: where a chunk matched at a looser level, its context lines
are written as the patch has them (`applyUpdateChunks_rewrites_context`).
-/

namespace KolegaCode.CodexPatch

open List
open Text (dominantEnding normalizeNewlines replaceLineFeeds unlines)

/-! ### What a chunk may do -/

/-- The line of the file and the line of the patch are the same at this level. -/
def Agrees (level : Level) (line text : Line) : Prop := form level line = form level text

/-- A chunk's lines read against the region they are for: `region` is what the chunk looks for and
`written` what it leaves.  `keep` is the line that is left for a context line, of the file's line
and the patch's. -/
inductive Rewrites (keep : Line → Line → Line) (level : Level) :
    List (LineMark × Line) → List Line → List Line → Prop
  | nil : Rewrites keep level [] [] []
  | context {line text : Line} {lines : List (LineMark × Line)} {region written : List Line} :
      Agrees level line text → Rewrites keep level lines region written →
        Rewrites keep level ((.context, text) :: lines) (line :: region)
          (keep line text :: written)
  | remove {line text : Line} {lines : List (LineMark × Line)} {region written : List Line} :
      Agrees level line text → Rewrites keep level lines region written →
        Rewrites keep level ((.remove, text) :: lines) (line :: region) written
  | add {text : Line} {lines : List (LineMark × Line)} {region written : List Line} :
      Rewrites keep level lines region written →
        Rewrites keep level ((.add, text) :: lines) region (text :: written)

/-- A chunk stands where it says: below a line that agrees with its named header, and at the end
of the file when it is marked so. -/
structure Placed (c : PatchChunk) (kept rest : List Line) : Prop where
  header : ∀ text, c.context = some text → ∃ line ∈ kept, ∃ level, Agrees level line text
  atEnd : c.endOfFile = true → rest = []

/-- The second list is the first with one region for each chunk rewritten; the lines before, between
and after the regions are the same. -/
inductive Replaced (keep : Line → Line → Line) :
    List PatchChunk → List Line → List Line → Prop
  | nil (lines : List Line) : Replaced keep [] lines lines
  | cons {c : PatchChunk} {chunks : List PatchChunk} (level : Level)
      {kept region written rest out : List Line} :
      Placed c kept rest → Rewrites keep level c.lines region written →
        Replaced keep chunks rest out →
          Replaced keep (c :: chunks) (kept ++ (region ++ rest)) (kept ++ (written ++ out))

/-- The file's own line. -/
def fileLine (line _text : Line) : Line := line

/-- The patch's line. -/
def patchLine (_line text : Line) : Line := text

/-! ### Finding a place -/

theorem agrees_of_map_eq {level : Level} :
    ∀ {c : List (LineMark × Line)} {region : List Line},
      region.map (form level) =
          ((c.filter fun l => l.1 = .context || l.1 = .remove).map Prod.snd).map (form level) →
        Rewrites patchLine level c region
          ((c.filter fun l => l.1 = .context || l.1 = .add).map Prod.snd)
  | [], region, h => by
      have hnil : region = [] := map_eq_nil_iff.mp h
      rw [hnil]
      exact .nil
  | (.add, text) :: c, region, h => .add (agrees_of_map_eq h)
  | (.context, text) :: c, region, h => by
      cases region with
      | nil => cases h
      | cons line region =>
        obtain ⟨hline, hrest⟩ := cons_eq_cons.mp h
        exact .context hline (agrees_of_map_eq hrest)
  | (.remove, text) :: c, region, h => by
      cases region with
      | nil => cases h
      | cons line region =>
        obtain ⟨hline, hrest⟩ := cons_eq_cons.mp h
        exact .remove hline (agrees_of_map_eq hrest)

variable {lines : List Line} {start number : Nat} {path : Line} {c : PatchChunk}

theorem findLine_some {needle : Line} {index : Nat} (h : findLine lines needle start = some index) :
    start ≤ index ∧ ∃ line level, lines[index]? = some line ∧ Agrees level line needle := by
  obtain ⟨level, -, hfind⟩ := exists_of_findSome?_eq_some h
  have hmem := mem_of_find?_eq_some hfind
  have hform := find?_some hfind
  rw [decide_eq_true_eq] at hform
  obtain ⟨line, hline, hagree⟩ := Option.map_eq_some_iff.mp hform
  rw [mem_range'_1] at hmem
  exact ⟨hmem.1, line, level, hline, hagree⟩

/-- The place of a sequence: at or below the start, as long as what was looked for, and at the end
of the lines when that was asked. -/
theorem findSequence_some {needle : List Line} {first stop : Nat} {atEnd : Bool}
    (h : findSequence lines needle start atEnd = some (first, stop)) :
    start ≤ first ∧ stop = first + needle.length ∧ stop ≤ lines.length ∧
      (atEnd = true → stop = lines.length) ∧
      ∃ level, ((lines.drop first).take needle.length).map (form level) =
        needle.map (form level) := by
  rw [findSequence] at h
  split at h
  · cases h
  · next hlength =>
    obtain ⟨level, -, hfind⟩ := exists_of_findSome?_eq_some h
    obtain ⟨index, hindex, hplace⟩ := Option.map_eq_some_iff.mp hfind
    cases hplace
    have hmem := mem_of_find?_eq_some hindex
    have hfound := find?_some hindex
    rw [decide_eq_true_eq] at hfound
    obtain ⟨hstart, hform⟩ := hfound
    have hbound : first ≤ lines.length - needle.length := by
      split at hmem
      · exact Nat.le_of_eq (mem_singleton.mp hmem)
      · rw [mem_range'_1] at hmem
        omega
    refine ⟨hstart, rfl, by omega, fun hend => ?_, level, hform⟩
    rw [if_pos hend] at hmem
    have hlast := mem_singleton.mp hmem
    omega

/-! ### One chunk -/

/-- Where a chunk is looked for: at or below the cursor, and below a line that agrees with its
named header. -/
theorem chunkHint_ok {cursor hint : Nat} (hcursor : cursor ≤ lines.length)
    (h : chunkHint path number c lines cursor = .ok hint) :
    cursor ≤ hint ∧ hint ≤ lines.length ∧
      ∀ text, c.context = some text →
        ∃ line ∈ (lines.take hint).drop cursor, ∃ level, Agrees level line text := by
  rw [chunkHint] at h
  split at h
  · next hc =>
    cases h
    refine ⟨Nat.le_refl _, hcursor, fun text htext => ?_⟩
    rw [hc] at htext
    cases htext
  · next context hc =>
    split at h
    · cases h
    · next index hfind =>
      cases h
      obtain ⟨hle, line, level, hline, hagree⟩ := findLine_some hfind
      have hlt : index < lines.length := List.getElem?_eq_some_iff.mp hline |>.1
      refine ⟨Nat.le_succ_of_le hle, hlt, fun text htext => ?_⟩
      rw [hc] at htext
      cases htext
      refine ⟨line, ?_, level, hagree⟩
      refine mem_of_getElem? (i := index - cursor) ?_
      rw [getElem?_drop, getElem?_take_of_lt (by omega), ← hline]
      congr 1
      omega

theorem chunkPlace_ok {hint stop : Nat} (hhint : hint ≤ lines.length)
    (h : chunkPlace path number c lines hint = .ok (start, stop)) :
    hint ≤ start ∧ start ≤ stop ∧ stop ≤ lines.length ∧
      (c.endOfFile = true → stop = lines.length) ∧
      ∃ level, Rewrites patchLine level c.lines ((lines.drop start).take (stop - start))
        (newLines c) := by
  rw [chunkPlace] at h
  split at h
  · next hold =>
    -- nothing to look for: the chunk is put at the hint, or at the end
    have hnil : oldLines c = [] := List.isEmpty_iff.mp hold
    cases h
    refine ⟨?_, Nat.le_refl _, ?_, fun hend => if_pos hend, .exact, ?_⟩
    · split
      · exact hhint
      · exact Nat.le_refl _
    · split
      · exact Nat.le_refl _
      · exact hhint
    · refine agrees_of_map_eq ?_
      rw [← oldLines, hnil, Nat.sub_self, take_zero]
  · split at h
    · cases h
    · next place hfind =>
      cases h
      obtain ⟨hstart, hstop, hlength, hend, level, hform⟩ := findSequence_some hfind
      refine ⟨hstart, by omega, hlength, hend, level, agrees_of_map_eq ?_⟩
      rw [← oldLines, ← hform, hstop, Nat.add_sub_cancel_left]

/-- **One chunk** replaces one region at or below the cursor, and leaves the cursor behind the
lines it wrote. -/
theorem applyChunk_ok {cursor cursor' : Nat} {lines' : List Line} (hcursor : cursor ≤ lines.length)
    (h : applyChunk path number c lines cursor = .ok (lines', cursor')) :
    ∃ front region rest level, lines = front ++ (region ++ rest) ∧ cursor ≤ front.length ∧
      Placed c (front.drop cursor) rest ∧ Rewrites patchLine level c.lines region (newLines c) ∧
      lines' = front ++ (newLines c ++ rest) ∧ cursor' = (front ++ newLines c).length := by
  obtain ⟨hint, hhint, h⟩ := bind_eq_ok.mp h
  obtain ⟨⟨start, stop⟩, hplace, h⟩ := bind_eq_ok.mp h
  cases h
  obtain ⟨hle, hlength, hheader⟩ := chunkHint_ok hcursor hhint
  obtain ⟨hstart, hss, hstop, hend, level, hrewrites⟩ := chunkPlace_ok hlength hplace
  have hfront : (lines.take start).length = start := length_take_of_le (by omega)
  refine ⟨lines.take start, (lines.drop start).take (stop - start), lines.drop stop, level, ?_,
    ?_, ⟨?_, ?_⟩, hrewrites, ?_, ?_⟩
  · have hdrop : lines.drop stop = (lines.drop start).drop (stop - start) := by
      rw [drop_drop]
      congr 1
      omega
    rw [hdrop, take_append_drop, take_append_drop]
  · omega
  · intro text htext
    obtain ⟨line, hline, hagree⟩ := hheader text htext
    refine ⟨line, ?_, hagree⟩
    have habove : lines.take hint <+: lines.take start := take_prefix_take_left hstart
    exact (habove.drop cursor).subset hline
  · intro heof
    rw [hend heof, drop_length]
  · rw [splice, Nat.max_eq_right hss, append_assoc]
  · rw [length_append, hfront]

/-! ### Every chunk -/

/-- What is above the cursor stays, and below it the chunks replace their regions. -/
theorem applyChunks_replaced {path : Line} :
    ∀ {chunks : List PatchChunk} {number : Nat} {done rest lines : List Line},
      applyChunks path number (done ++ rest) done.length chunks = .ok lines →
        ∃ out, lines = done ++ out ∧ Replaced patchLine chunks rest out
  | [], _, done, rest, lines, h => by
      cases h
      exact ⟨rest, rfl, .nil rest⟩
  | c :: chunks, number, done, rest, lines, h => by
      obtain ⟨⟨lines₁, cursor₁⟩, hchunk, h⟩ := bind_eq_ok.mp h
      have hdone : done.length ≤ (done ++ rest).length := by
        rw [length_append]
        exact Nat.le_add_right _ _
      obtain ⟨front, region, rest₁, level, hsplit, hcursor, hplaced, hrewrites, rfl, rfl⟩ :=
        applyChunk_ok hdone hchunk
      -- the cursor is not above what is done, so the region lies in `rest`
      obtain ⟨kept, rfl⟩ : done <+: front :=
        prefix_of_prefix_length_le (prefix_append done rest)
          (hsplit ▸ prefix_append front (region ++ rest₁)) hcursor
      rw [append_assoc, append_cancel_left_eq] at hsplit
      rw [drop_left] at hplaced
      dsimp only at h
      rw [← append_assoc] at h
      obtain ⟨out, rfl, hout⟩ := applyChunks_replaced h
      refine ⟨kept ++ (newLines c ++ out), ?_, ?_⟩
      · rw [append_assoc, append_assoc]
      · rw [hsplit]
        exact .cons level hplaced hrewrites hout

/-! ### The text of the file -/

/-- Lines with a line feed between them, and one after the last when the file has one there. -/
def linesText (final : Bool) (lines : List Line) : List Char :=
  if final then unlines lines else ['\n'].intercalate lines

/-- The lines of a file are its text, up to the endings. -/
theorem linesText_fileLines (content : List Char) :
    linesText (hadFinalNewline content) (fileLines content) = normalizeNewlines content := by
  cases hfinal : hadFinalNewline content with
  | false =>
    rw [fileLines, hfinal, if_neg Bool.false_ne_true, linesText, if_neg Bool.false_ne_true,
      intercalate_splitOn]
  | true =>
    have hlast : (normalizeNewlines content).getLast? = some '\n' := of_decide_eq_true hfinal
    obtain ⟨text, htext⟩ := getLast?_eq_some_iff.mp hlast
    have hsplit : (text ++ ['\n']).splitOn '\n' = text.splitOn '\n' ++ [[]] :=
      splitOn_append_cons_self text []
    rw [fileLines, hfinal, if_pos rfl, linesText, if_pos rfl, htext, hsplit, dropLast_concat,
      ← Text.intercalate_lineFeed (splitOn_ne_nil _ _), intercalate_splitOn]

/-- **Which lines an update touches.**  The lines of the file are cut into one region for each
chunk, in the chunks' order and apart, and the lines between the regions.  In a region, the lines
that agree with the chunk's `-` lines are gone, its `+` lines stand at their position, and the lines
that agree with its context lines are the patch's; every other line is as it was.  The file is
written with its most frequent ending, and ends with one if it did, where a line is left. -/
theorem applyUpdateChunks_replaced {content out : List Char} {chunks : List PatchChunk}
    {path : Line} (h : applyUpdateChunks content chunks path = .ok out) :
    normalizeNewlines content = linesText (hadFinalNewline content) (fileLines content) ∧
      ∃ lines, Replaced patchLine chunks (fileLines content) lines ∧
        (lines ≠ [] ∨ hadFinalNewline content = false →
          out = replaceLineFeeds (dominantEnding content)
            (linesText (hadFinalNewline content) lines)) := by
  refine ⟨(linesText_fileLines content).symm, ?_⟩
  obtain ⟨lines, hlines, h⟩ := bind_eq_ok.mp h
  obtain ⟨_, rfl, hreplaced⟩ := @applyChunks_replaced path chunks 1 [] (fileLines content) lines
    hlines
  refine ⟨lines, hreplaced, fun hsome => ?_⟩
  have htext : ['\n'].intercalate lines ++ (if hadFinalNewline content then ['\n'] else []) =
      linesText (hadFinalNewline content) lines := by
    cases hfinal : hadFinalNewline content with
    | false => rw [linesText, if_neg Bool.false_ne_true, if_neg Bool.false_ne_true, append_nil]
    | true =>
      rw [hfinal] at hsome
      rw [linesText, if_pos rfl, if_pos rfl,
        Text.intercalate_lineFeed (hsome.resolve_right Bool.noConfusion)]
  rw [htext] at h
  split at h
  · cases h
    rfl
  · next hending =>
    cases h
    rw [not_not.mp hending, Text.replaceLineFeeds_self]

/-- A file of two lines, indented and not. -/
def indentedFile : List Char := "  a\nb\n".toList

/-- A chunk that has the first line without its indent, and replaces the second. -/
def unindentedChunk : PatchChunk :=
  ⟨none, [(.context, "a".toList), (.remove, "b".toList), (.add, "c".toList)], false⟩

theorem applyUpdateChunks_unindented :
    applyUpdateChunks indentedFile [unindentedChunk] "p".toList = .ok "a\nc\n".toList := by
  decide

theorem applyUpdateChunks_replaced_unindented :
    ∃ lines, Replaced patchLine [unindentedChunk] (fileLines indentedFile) lines ∧
      (lines ≠ [] ∨ hadFinalNewline indentedFile = false →
        "a\nc\n".toList = replaceLineFeeds (dominantEnding indentedFile)
          (linesText (hadFinalNewline indentedFile) lines)) :=
  (applyUpdateChunks_replaced applyUpdateChunks_unindented).2

/-- **A context line is not left as it was.**  The chunk matches the indented line at a looser
level, and the update takes the indent away. -/
theorem applyUpdateChunks_rewrites_context :
    applyUpdateChunks indentedFile [unindentedChunk] "p".toList = .ok "a\nc\n".toList ∧
      ¬∃ lines, Replaced fileLine [unindentedChunk] (fileLines indentedFile) lines ∧
        "a\nc\n".toList = replaceLineFeeds (dominantEnding indentedFile)
          (linesText (hadFinalNewline indentedFile) lines) := by
  refine ⟨applyUpdateChunks_unindented, ?_⟩
  rintro ⟨lines, hreplaced, htext⟩
  -- the chunk's three lines fix the region, which is the whole file
  have hlines : lines = ["  a".toList, "c".toList] := by
    have hfile : fileLines indentedFile = ["  a".toList, "b".toList] := by decide
    rw [hfile] at hreplaced
    generalize hlist : ["  a".toList, "b".toList] = file at hreplaced
    obtain _ | ⟨level, hplaced, hrewrites, hrest⟩ := hreplaced
    obtain _ | ⟨hfirst, hrewrites⟩ := hrewrites
    obtain _ | _ | ⟨hsecond, hrewrites⟩ := hrewrites
    obtain _ | _ | _ | hrewrites := hrewrites
    cases hrewrites
    cases hrest
    rename_i kept rest first second
    have hlength := congrArg List.length hlist
    simp only [length_append, length_cons, length_nil] at hlength
    have hkept : kept = [] := eq_nil_of_length_eq_zero (by omega)
    have hrest : rest = [] := eq_nil_of_length_eq_zero (by omega)
    rw [hkept, hrest] at hlist ⊢
    obtain ⟨hfirst, -⟩ := cons_eq_cons.mp hlist
    rw [hfirst]
    rfl
  rw [hlines] at htext
  exact absurd htext (by decide)

end KolegaCode.CodexPatch
