import KolegaCode.Lib.Lines
import KolegaCode.Hashline.Hash

/-!
# Hashline — tagged output

`format_hash_lines` writes every line of a section of a file behind its tag, for the model to name
the lines it edits.
-/

namespace KolegaCode.Hashline

open List
open Text (isDecimal normalizeNewlines)

/-! ### Tagged output -/

def bom : Char := '\uFEFF'

/-- `line[1:]` where the line starts with the byte order mark. -/
def dropBom (line : List Char) : List Char := if line.head? = some bom then line.drop 1 else line

/-- A line of the output: `LINE#ID:CONTENT`. -/
def taggedLine (lineNumber : Nat) (line : String) : String :=
  formatLineTag lineNumber line ++ ":" ++ line

/-- The lines of a section of a file with their numbers; a byte order mark is not part of line
1. -/
def numberedLines (content : String) (startLine : Nat) : List (Nat × String) :=
  ((splitLines (String.ofList (normalizeNewlines content.toList))).zipIdx startLine).map
    fun (line, lineNumber) =>
      (lineNumber, if lineNumber = 1 then String.ofList (dropBom line.toList) else line)

/-- `format_hash_lines`. -/
def formatHashLines (content : String) (startLine : Nat) : String :=
  joinLines ((numberedLines content startLine).map fun (lineNumber, line) =>
    taggedLine lineNumber line)

/-! ### The tag of a line -/

theorem isDecimal_of_isDigit {c : Char} (h : c.isDigit = true) :
    isDecimal c = true ∧ isSpace c = false ∧ Text.isLineBreak c = false ∧ c ≠ '>' := by
  have hrange : 0x30 ≤ c.toNat ∧ c.toNat ≤ 0x39 := by
    simpa [Char.isDigit, UInt32.le_iff_toNat_le] using h
  refine ⟨?_, ?_, ?_, ?_⟩
  · refine any_eq_true.mpr ⟨0x30, by decide, ?_⟩
    simpa using hrange
  · unfold isSpace
    simp
    omega
  · unfold Text.isLineBreak
    simp
    omega
  · rintro rfl
    revert hrange
    decide

theorem isDigit_toDigits {n : Nat} {c : Char} (h : c ∈ Nat.toDigits 10 n) : c.isDigit = true :=
  Nat.isDigit_of_mem_toDigits (by decide) (by decide) h

theorem toDigits_cons (n : Nat) : ∃ d ds, Nat.toDigits 10 n = d :: ds ∧ d.isDigit = true := by
  obtain ⟨d, ds, hd⟩ := exists_cons_of_ne_nil (@Nat.toDigits_ne_nil n 10)
  exact ⟨d, ds, hd, isDigit_toDigits (hd ▸ mem_cons_self)⟩

theorem scan_toDigits (n : Nat) {rest : List Char} (h : ∀ c ∈ rest.head?, isDecimal c = false) :
    (Nat.toDigits 10 n ++ rest).takeWhile isDecimal = Nat.toDigits 10 n ∧
      (Nat.toDigits 10 n ++ rest).dropWhile isDecimal = rest := by
  have hall : ∀ c ∈ Nat.toDigits 10 n, isDecimal c = true := fun c hc =>
    (isDecimal_of_isDigit (isDigit_toDigits hc)).1
  rw [takeWhile_append_of_pos hall, dropWhile_append_of_pos hall]
  cases rest with
  | nil => exact ⟨append_nil _, rfl⟩
  | cons c rest =>
    rw [takeWhile_cons, dropWhile_cons, h c rfl]
    exact ⟨append_nil _, rfl⟩

theorem alphabet_clean {c : Char} (h : c ∈ alphabet) :
    Text.isLineBreak c = false ∧ isSpace c = false := by
  have hletters : alphabet.all (fun c => !Text.isLineBreak c && !isSpace c) = true := by decide
  simpa using all_eq_true.mp hletters c h

theorem alphabet_getD_mem (i : Nat) : alphabet.getD i 'Z' ∈ alphabet := by
  rw [getD_eq_getElem?_getD]
  cases h : alphabet[i]? with
  | none => decide
  | some c => exact mem_of_getElem? h

theorem computeLineHash_chars (line : String) : ∃ a b, a ∈ alphabet ∧ b ∈ alphabet ∧
    computeLineHash line = String.ofList [a, b] := by
  refine ⟨_, _, ?_, ?_, rfl⟩
  · exact alphabet_getD_mem _
  · exact alphabet_getD_mem _

theorem tag_toList (n : Nat) (line : String) : ∃ a b, a ∈ alphabet ∧ b ∈ alphabet ∧
    (formatLineTag n line ++ ":").toList = Nat.toDigits 10 n ++ ['#', a, b, ':'] := by
  unfold formatLineTag
  dsimp only
  generalize (if n = 1 ∧ line.toList.head? = some '\uFEFF' then
    String.ofList (line.toList.drop 1) else line) = content
  obtain ⟨a, b, ha, hb, hhash⟩ := computeLineHash_chars content
  refine ⟨a, b, ha, hb, ?_⟩
  have hn : (toString n).toList = Nat.toDigits 10 n := String.toList_ofList
  have hab : (String.ofList [a, b]).toList = [a, b] := String.toList_ofList
  rw [hhash, String.toList_append, String.toList_append, String.toList_append, hn, hab,
    append_assoc, append_assoc]
  rfl

theorem tag_not_break {a b : Char} (n : Nat) (ha : a ∈ alphabet) (hb : b ∈ alphabet) :
    ∀ c ∈ Nat.toDigits 10 n ++ ['#', a, b, ':'], Text.isLineBreak c = false := by
  intro c hc
  rcases mem_append.mp hc with hc | hc
  · exact (isDecimal_of_isDigit (isDigit_toDigits hc)).2.2.1
  · simp only [mem_cons, not_mem_nil, or_false] at hc
    rcases hc with rfl | rfl | rfl | rfl
    · rfl
    · exact (alphabet_clean ha).1
    · exact (alphabet_clean hb).1
    · rfl

/-! ### The lines of a file -/

/-- The lines of a file, as its tagged output shows them. -/
def logicalLines (content : String) : List String := (numberedLines content 1).map Prod.snd

theorem not_mem_normalizeNewlines (cs : List Char) : '\r' ∉ normalizeNewlines cs := by
  intro hmem
  obtain ⟨c, -, hc⟩ := mem_map.mp hmem
  split at hc
  · cases hc
  · next hne => exact hne hc

theorem mem_dropBom {line : List Char} {c : Char} (h : c ∈ dropBom line) : c ∈ line := by
  unfold dropBom at h
  split at h
  · exact mem_of_mem_drop h
  · exact h

theorem logicalLines_clean {content line : String} (h : line ∈ logicalLines content) :
    '\r' ∉ line.toList ∧ '\n' ∉ line.toList := by
  obtain ⟨⟨n, shown⟩, hmem, rfl⟩ := mem_map.mp h
  obtain ⟨⟨read, k⟩, hread, heq⟩ := mem_map.mp hmem
  rw [Prod.mk.injEq] at heq
  obtain ⟨rfl, rfl⟩ := heq
  have hsplit : read ∈ splitLines (String.ofList (normalizeNewlines content.toList)) :=
    fst_mem_of_mem_zipIdx hread
  obtain ⟨cs, hcs, rfl⟩ := mem_map.mp hsplit
  rw [String.toList_ofList] at hcs
  have hmem : ∀ c ∈ (if k = 1 then String.ofList (dropBom (String.ofList cs).toList)
      else String.ofList cs).toList, c ∈ cs := by
    intro c hc
    split at hc
    · rw [String.toList_ofList, String.toList_ofList] at hc
      exact mem_dropBom hc
    · rwa [String.toList_ofList] at hc
  obtain ⟨hsep, hall⟩ := Text.mem_splitOn hcs
  refine ⟨fun hr => ?_, fun hn => hsep (hmem _ hn)⟩
  exact not_mem_normalizeNewlines content.toList (hall _ (hmem _ hr))

theorem logicalLines_ne_nil (content : String) : logicalLines content ≠ [] := by
  unfold logicalLines numberedLines
  simp [splitLines_ne_nil]

end KolegaCode.Hashline
