import KolegaCode.CodexPatch.Regions
import KolegaCode.Lib.Lines

/-!
# CodexPatch — the lines that a patch writes

The parser reads a patch line by line, with every line ending a line feed, so no line of its chunks
has a carriage return; `applyUpdateChunks_clean` carries that to the text of an update.
-/

namespace KolegaCode.CodexPatch

open List
open Text (dominantEnding normalizeNewlines)

/-- No line of the chunks has a carriage return. -/
def CleanChunks (chunks : List PatchChunk) : Prop := ∀ c ∈ chunks, ∀ l ∈ c.lines, '\r' ∉ l.2

structure CleanState (s : ChunkState) : Prop where
  chunks : CleanChunks s.chunks
  changeLines : ∀ l ∈ s.changeLines, '\r' ∉ l.2

variable {s : ChunkState} {lines rest : List Line} {chunks : List PatchChunk}

theorem CleanState.finishChunk (h : CleanState s) : CleanState (finishChunk s) := by
  refine ⟨fun c hc => ?_, fun l hl => absurd hl not_mem_nil⟩
  unfold CodexPatch.finishChunk at hc
  dsimp only at hc
  split at hc
  · rcases mem_append.mp hc with hc | hc
    · exact h.chunks c hc
    · rw [mem_singleton.mp hc]
      exact h.changeLines
  · exact h.chunks c hc

theorem changeLine_clean {line : Line} {change : LineMark × Line} (h : changeLine line = some change)
    (hline : '\r' ∉ line) : '\r' ∉ change.2 := by
  unfold changeLine at h
  split at h
  all_goals cases h
  all_goals exact fun hmem => hline (mem_cons_of_mem _ hmem)

theorem CleanState.updateStep {s' : ChunkState} {line : Line} (h : CleanState s)
    (hline : '\r' ∉ line) (hs : updateStep s line = .ok s') : CleanState s' := by
  unfold CodexPatch.updateStep at hs
  split at hs
  · split at hs
    · cases hs
    · cases hs
      exact ⟨h.finishChunk.chunks, h.finishChunk.changeLines⟩
  · split at hs
    · split at hs
      · cases hs
      · cases hs
        exact ⟨h.chunks, h.changeLines⟩
    · split at hs
      · next change hchange =>
        split at hs
        · cases hs
        · cases hs
          refine ⟨h.chunks, fun l hl => ?_⟩
          rcases mem_append.mp hl with hl | hl
          · exact h.changeLines l hl
          · rw [mem_singleton.mp hl]
            exact changeLine_clean hchange hline
      · cases hs

theorem CleanState.updateLines {s' : ChunkState} (h : CleanState s)
    (hlines : ∀ line ∈ lines, '\r' ∉ line) (hs : updateLines s lines = .ok (s', rest)) :
    CleanState s' ∧ rest <:+ lines := by
  induction lines generalizing s with
  | nil =>
    cases hs
    exact ⟨h, suffix_refl _⟩
  | cons line lines ih =>
    rw [CodexPatch.updateLines] at hs
    split at hs
    · cases hs
      exact ⟨h, suffix_refl _⟩
    · obtain ⟨s₁, hstep, hs⟩ := bind_eq_ok.mp hs
      obtain ⟨hclean, hrest⟩ := ih (h.updateStep (hlines line mem_cons_self) hstep)
        (fun l hl => hlines l (mem_cons_of_mem _ hl)) hs
      exact ⟨hclean, hrest.trans (suffix_cons _ _)⟩

theorem takeAdded_suffix {added : List Line} (h : takeAdded lines = .ok (added, rest)) :
    rest <:+ lines := by
  induction lines generalizing added with
  | nil =>
    cases h
    exact suffix_refl _
  | cons line lines ih =>
    rw [takeAdded] at h
    split at h
    · cases h
      exact suffix_refl _
    · split at h
      · obtain ⟨⟨added', rest'⟩, hrest, h⟩ := bind_eq_ok.mp h
        cases h
        exact (ih hrest).trans (suffix_cons _ _)
      · cases h

theorem takeMove_suffix {path : Option Line} (h : takeMove lines = .ok (path, rest)) :
    rest <:+ lines := by
  cases lines with
  | nil =>
    cases h
    exact suffix_refl _
  | cons line lines =>
    rw [takeMove] at h
    split at h
    · obtain ⟨path', -, h⟩ := bind_eq_ok.mp h
      cases h
      exact suffix_cons _ _
    · cases h
      exact suffix_refl _

/-- The chunks of an operation have no carriage return. -/
def CleanOperation : PatchOperation → Prop
  | .update _ _ chunks => CleanChunks chunks
  | _ => True

theorem parseOperation_clean {marker : Line} {op : PatchOperation}
    (hlines : ∀ line ∈ lines, '\r' ∉ line) (h : parseOperation marker lines = .ok (op, rest)) :
    CleanOperation op ∧ rest <:+ lines := by
  rw [parseOperation] at h
  split at h
  · obtain ⟨path, -, h⟩ := bind_eq_ok.mp h
    obtain ⟨⟨added, rest'⟩, hrest, h⟩ := bind_eq_ok.mp h
    dsimp only at h
    split at h
    · cases h
    · cases h
      exact ⟨trivial, takeAdded_suffix hrest⟩
  · split at h
    · obtain ⟨path, -, h⟩ := bind_eq_ok.mp h
      cases h
      exact ⟨trivial, suffix_refl _⟩
    · split at h
      · obtain ⟨path, -, h⟩ := bind_eq_ok.mp h
        obtain ⟨⟨move, lines'⟩, hmove, h⟩ := bind_eq_ok.mp h
        obtain ⟨⟨s, rest'⟩, hrest, h⟩ := bind_eq_ok.mp h
        dsimp only at h
        have hsuffix := takeMove_suffix hmove
        have hempty : CleanState ⟨[], none, [], false⟩ :=
          ⟨fun _ hc => absurd hc not_mem_nil, fun _ hl => absurd hl not_mem_nil⟩
        obtain ⟨hclean, hrest'⟩ :=
          hempty.updateLines (fun l hl => hlines l (hsuffix.subset hl)) hrest
        split at h
        · cases h
        · cases h
          exact ⟨hclean.finishChunk.chunks, hrest'.trans hsuffix⟩
      · cases h

theorem parseOperations_clean (hlines : ∀ line ∈ lines, '\r' ∉ line) :
    ∀ {ops : List PatchOperation}, parseOperations lines = .ok ops →
      ∀ op ∈ ops, CleanOperation op := by
  induction hn : lines.length using Nat.strongRecOn generalizing lines with
  | ind n ih =>
    intro ops h
    cases lines with
    | nil =>
      rw [parseOperations] at h
      cases h
      exact fun _ hop => absurd hop not_mem_nil
    | cons marker lines =>
      rw [parseOperations_cons] at h
      obtain ⟨⟨op, rest⟩, hop, h⟩ := bind_eq_ok.mp h
      obtain ⟨ops', hops, h⟩ := bind_eq_ok.mp h
      cases h
      obtain ⟨hclean, hsuffix⟩ :=
        parseOperation_clean (fun l hl => hlines l (mem_cons_of_mem _ hl)) hop
      have hlength : rest.length < n := by
        rw [← hn, length_cons]
        exact Nat.lt_succ_of_le hsuffix.length_le
      have hrest := ih rest.length hlength
        (fun l hl => hlines l (mem_cons_of_mem _ (hsuffix.subset hl))) rfl hops
      exact forall_mem_cons.mpr ⟨hclean, hrest⟩

/-- A patch puts no carriage return into a file. -/
theorem parseCodexPatch_clean {patch : List Char} {ops : List PatchOperation}
    (h : parseCodexPatch patch = .ok ops) : ∀ op ∈ ops, CleanOperation op := by
  have hlines : ∀ line ∈ Text.splitlines (normalizeNewlines patch), '\r' ∉ line :=
    fun line hline hc => Text.not_mem_normalizeNewlines patch (Text.mem_of_mem_splitlines hline hc)
  unfold parseCodexPatch at h
  dsimp only at h
  split at h
  · cases h
  · next first rest hsplit =>
    rw [hsplit] at hlines
    split at h
    · cases h
    · split at h
      · cases h
      · split at h
        · cases h
        · obtain ⟨ops', hops, h⟩ := bind_eq_ok.mp h
          split at h
          · cases h
          · cases h
            exact parseOperations_clean (fun l hl =>
              hlines l (mem_cons_of_mem _ (mem_of_mem_dropLast hl))) hops

theorem applyChunks_clean {path : Line} (hchunks : CleanChunks chunks) :
    ∀ {number cursor : Nat} {lines lines' : List Line}, (∀ l ∈ lines, '\r' ∉ l) →
      applyChunks path number lines cursor chunks = .ok lines' → ∀ l ∈ lines', '\r' ∉ l := by
  induction chunks with
  | nil =>
    intro number cursor lines lines' hlines h
    cases h
    exact hlines
  | cons c chunks ih =>
    intro number cursor lines lines' hlines h
    obtain ⟨⟨lines₁, cursor₁⟩, hchunk, h⟩ := bind_eq_ok.mp h
    refine ih (fun c' hc' => hchunks c' (mem_cons_of_mem _ hc')) (fun l hl => ?_) h
    obtain ⟨hint, -, hchunk⟩ := bind_eq_ok.mp hchunk
    obtain ⟨⟨start, stop⟩, -, hchunk⟩ := bind_eq_ok.mp hchunk
    cases hchunk
    rw [splice, mem_append, mem_append] at hl
    rcases hl with (hl | hl) | hl
    · exact hlines l (mem_of_mem_take hl)
    · obtain ⟨change, hchange, rfl⟩ := mem_map.mp hl
      exact hchunks c mem_cons_self change (mem_of_mem_filter hchange)
    · exact hlines l (mem_of_mem_drop hl)

/-- What a clean update writes has no carriage return. -/
theorem applyUpdateChunks_clean {content out : List Char} {path : Line}
    (hcontent : '\r' ∉ content) (hchunks : CleanChunks chunks)
    (h : applyUpdateChunks content chunks path = .ok out) :
    '\r' ∉ out ∧ ∃ lines, Replaced patchLine chunks (fileLines content) lines ∧
      out = ['\n'].intercalate lines ++ if hadFinalNewline content then ['\n'] else [] := by
  obtain ⟨lines, hlines, h⟩ := bind_eq_ok.mp h
  rw [Text.dominantEnding_eq_lf hcontent, if_neg (not_not.mpr rfl)] at h
  cases h
  have hfile : ∀ l ∈ fileLines content, '\r' ∉ l := by
    intro l hl hmem
    have hsplit : l ∈ (normalizeNewlines content).splitOn '\n' := by
      unfold fileLines at hl
      dsimp only at hl
      split at hl
      · exact mem_of_mem_dropLast hl
      · exact hl
    exact Text.not_mem_normalizeNewlines content ((Text.mem_splitOn hsplit).2 _ hmem)
  have hclean := applyChunks_clean hchunks hfile hlines
  obtain ⟨_, rfl, hreplaced⟩ := @applyChunks_replaced path chunks 1 [] (fileLines content) lines
    hlines
  refine ⟨fun hmem => ?_, _, hreplaced, rfl⟩
  rcases mem_append.mp hmem with hmem | hmem
  · by_cases hnil : lines = []
    · rw [hnil] at hmem
      cases hmem
    · have hunlines := Text.intercalate_lineFeed hnil
      rcases Text.mem_unlines (hunlines ▸ mem_append_left _ hmem) with hc | ⟨l, hl, hc⟩
      · cases hc
      · exact hclean l hl hc
  · split at hmem <;> simp at hmem

end KolegaCode.CodexPatch
