import Mathlib.Data.List.DropRight

/-!
# Lib — Python's view of a text

Lines, stripping and character classes as Python's `str` has them.  A text is the list of its
characters; the class of characters that is stripped is a parameter.
-/

namespace KolegaCode.Text

open List

/-- A named proof, for the modules that test whether a text is among others. -/
theorem lawfulBEq : LawfulBEq (List Char) := inferInstance

/-! ### Lines -/

/-- The characters at which `str.splitlines` ends a line. -/
def isLineBreak (c : Char) : Bool :=
  let n := c.toNat
  (0x0a ≤ n && n ≤ 0x0d) || (0x1c ≤ n && n ≤ 0x1e) || n = 0x85 || n = 0x2028 || n = 0x2029

/-- The lines of a text, each with its ending; `line` is what was read of the current one. -/
def linesFrom (line : List Char) : List Char → List (List Char × List Char)
  | [] => if line.isEmpty then [] else [(line, [])]
  | '\r' :: '\n' :: cs => (line, ['\r', '\n']) :: linesFrom [] cs
  | c :: cs => if isLineBreak c then (line, [c]) :: linesFrom [] cs else linesFrom (line ++ [c]) cs

/-- `text.splitlines()`. -/
def splitlines (cs : List Char) : List (List Char) := (linesFrom [] cs).map Prod.fst

/-- `text.splitlines(keepends=True)`. -/
def splitlinesKeepends (cs : List Char) : List (List Char) :=
  (linesFrom [] cs).map fun l => l.1 ++ l.2

/-- `text.replace("\r\n", "\n")`. -/
def replaceCrlf : List Char → List Char
  | [] => []
  | '\r' :: '\n' :: cs => '\n' :: replaceCrlf cs
  | c :: cs => c :: replaceCrlf cs

/-- `text.replace("\r\n", "\n").replace("\r", "\n")`. -/
def normalizeNewlines (cs : List Char) : List Char :=
  (replaceCrlf cs).map fun c => if c = '\r' then '\n' else c

variable {cs : List Char} {lines : List (List Char)}

theorem replaceCrlf_eq_self (h : '\r' ∉ cs) : replaceCrlf cs = cs := by
  fun_induction replaceCrlf cs with
  | case1 => rfl
  | case2 cs ih => exact absurd mem_cons_self h
  | case3 c cs _ ih => rw [ih fun hc => h (mem_cons_of_mem _ hc)]

theorem normalizeNewlines_eq_self (h : '\r' ∉ cs) : normalizeNewlines cs = cs := by
  rw [normalizeNewlines, replaceCrlf_eq_self h]
  refine (map_congr_left fun c hc => if_neg ?_).trans (map_id cs)
  rintro rfl
  exact h hc

/-- `text.count("\r\n")`. -/
def countCrlf : List Char → Nat
  | [] => 0
  | '\r' :: '\n' :: cs => countCrlf cs + 1
  | _ :: cs => countCrlf cs

/-- `text.replace("\n", ending)`. -/
def replaceLineFeeds (ending cs : List Char) : List Char :=
  cs.flatMap fun c => if c = '\n' then ending else [c]

/-- The line ending that is most frequent: `"\r\n"` before `"\n"` before `"\r"` where they tie. -/
def dominantEnding (content : List Char) : List Char :=
  let crlf := countCrlf content
  let lf := content.count '\n' - crlf
  let cr := content.count '\r' - crlf
  if 0 < crlf ∧ lf ≤ crlf ∧ cr ≤ crlf then ['\r', '\n']
  else if 0 < cr ∧ lf < cr then ['\r']
  else ['\n']

/-- The lines of a text that has a line feed after each of them. -/
def unlines (lines : List (List Char)) : List Char := lines.flatMap fun l => l ++ ['\n']

theorem replaceLineFeeds_self (cs : List Char) : replaceLineFeeds ['\n'] cs = cs := by
  have hself : ∀ c : Char, (if c = '\n' then ['\n'] else [c]) = [c] := by
    intro c
    split
    · next hc => rw [hc]
    · rfl
  rw [replaceLineFeeds, funext hself, flatMap_singleton']

theorem intercalate_lineFeed (h : lines ≠ []) :
    ['\n'].intercalate lines ++ ['\n'] = unlines lines := by
  induction lines with
  | nil => exact absurd rfl h
  | cons l lines ih =>
    cases lines with
    | nil => simp [unlines]
    | cons l' lines =>
      rw [intercalate_cons_cons, append_assoc, ih (cons_ne_nil l' lines)]
      simp [unlines]

theorem mem_unlines {c : Char} (h : c ∈ unlines lines) : c = '\n' ∨ ∃ l ∈ lines, c ∈ l := by
  obtain ⟨l, hl, hc⟩ := mem_flatMap.mp h
  rcases mem_append.mp hc with hc | hc
  · exact Or.inr ⟨l, hl, hc⟩
  · exact Or.inl (mem_singleton.mp hc)

theorem linesFrom_cons (line : List Char) {c : Char}
    (h : ∀ rest, c = '\r' → cs = '\n' :: rest → False) : linesFrom line (c :: cs) =
      if isLineBreak c then (line, [c]) :: linesFrom [] cs else linesFrom (line ++ [c]) cs :=
  linesFrom.eq_3 line c cs h

/-- Characters that break no line join the line that is being read. -/
theorem linesFrom_append {line cs rest : List Char} (h : ∀ c ∈ line, isLineBreak c = false) :
    linesFrom cs (line ++ rest) = linesFrom (cs ++ line) rest := by
  induction line generalizing cs with
  | nil => rw [nil_append, append_nil]
  | cons c line ih =>
    have hc := h c mem_cons_self
    have hr : c ≠ '\r' := by
      rintro rfl
      cases hc
    rw [cons_append, linesFrom_cons _ fun _ hr' => absurd hr' hr, hc,
      if_neg Bool.false_ne_true, ih fun c hc => h c (mem_cons_of_mem _ hc), append_assoc]
    rfl

theorem linesFrom_lineFeed (line rest : List Char) :
    linesFrom line ('\n' :: rest) = (line, ['\n']) :: linesFrom [] rest := rfl

/-- `splitlines` takes the lines of a text apart again, when no line has a break of its own. -/
theorem splitlines_unlines_append (h : ∀ l ∈ lines, ∀ c ∈ l, isLineBreak c = false)
    (rest : List Char) : splitlines (unlines lines ++ rest) = lines ++ splitlines rest := by
  induction lines with
  | nil => rfl
  | cons l lines ih =>
    have hl := h l mem_cons_self
    have hlines := ih fun l hl => h l (mem_cons_of_mem _ hl)
    rw [unlines, flatMap_cons, ← unlines, splitlines, append_assoc, append_assoc,
      linesFrom_append hl, nil_append, singleton_append, linesFrom_lineFeed,
      map_cons, ← splitlines, hlines, cons_append]

/-! ### Stripping -/

section

variable (p : Char → Bool)

/-- `text.lstrip()`, for the characters of the class `p`. -/
def lstrip (cs : List Char) : List Char := cs.dropWhile p

/-- `text.rstrip()`. -/
def rstrip (cs : List Char) : List Char := cs.rdropWhile p

/-- `text.strip()`. -/
def strip (cs : List Char) : List Char := rstrip p (lstrip p cs)

theorem lstrip_rstrip (cs : List Char) :
    lstrip p (rstrip p (lstrip p cs)) = rstrip p (lstrip p cs) := by
  rw [lstrip, dropWhile_eq_self_iff]
  intro hl
  have hpre : rstrip p (lstrip p cs) <+: lstrip p cs := rdropWhile_prefix p _
  have hne : lstrip p cs ≠ [] := fun h => by
    rw [h] at hl
    exact Nat.lt_irrefl 0 hl
  rw [hpre.getElem hl]
  exact dropWhile_get_zero_not p cs _

theorem strip_eq_self (h : ∀ c ∈ cs, p c = false) : strip p cs = cs := by
  have hl : lstrip p cs = cs := by
    cases cs with
    | nil => rfl
    | cons c cs =>
      rw [lstrip, dropWhile_cons_of_neg]
      rw [h c mem_cons_self]
      exact Bool.false_ne_true
  rw [strip, hl, rstrip, rdropWhile_eq_self_iff]
  intro hne
  rw [h _ (getLast_mem hne)]
  exact Bool.false_ne_true

/-- A stripped text has nothing left to strip. -/
theorem strip_strip (cs : List Char) : strip p (strip p cs) = strip p cs := by
  rw [strip, strip, lstrip_rstrip, rstrip, rstrip, rdropWhile_idempotent]

end

/-! ### Separators -/

/-- `text.split(sep, 1)`, where the separator occurs: what is before it and what is after it. -/
def cut? (sep : List Char) : List Char → Option (List Char × List Char)
  | [] => if sep.isPrefixOf [] then some ([], []) else none
  | c :: cs =>
    if sep.isPrefixOf (c :: cs) then some ([], (c :: cs).drop sep.length)
    else (cut? sep cs).map fun p => (c :: p.1, p.2)

theorem cut?_append {sep : List Char} (hsep : sep ≠ []) (rest : List Char) :
    ∀ {before : List Char}, cut? sep (before ++ sep.dropLast) = none →
      cut? sep (before ++ (sep ++ rest)) = some (before, rest)
  | [], _ => by
    obtain ⟨c, cs, rfl⟩ := exists_cons_of_ne_nil hsep
    have hpre : (c :: cs).isPrefixOf (c :: cs ++ rest) = true :=
      isPrefixOf_iff_prefix.mpr (prefix_append _ _)
    rw [nil_append, cons_append] at *
    rw [cut?, if_pos hpre, ← cons_append, drop_left]
  | c :: before, h => by
    rw [cons_append, cut?] at h ⊢
    have hpre : ¬ sep.isPrefixOf (c :: (before ++ sep.dropLast)) = true := by
      intro hpre
      rw [if_pos hpre] at h
      cases h
    rw [if_neg hpre, Option.map_eq_none_iff] at h
    -- the first characters are the same, as many as the separator has
    have hpre' : ¬ sep.isPrefixOf (c :: (before ++ (sep ++ rest))) = true := by
      intro hp
      rw [ isPrefixOf_iff_prefix] at hp hpre
      have hlong : c :: (before ++ sep.dropLast) <+: c :: (before ++ (sep ++ rest)) := by
        refine (cons_prefix_cons).mpr ⟨rfl, (prefix_append_right_inj before).mpr ?_⟩
        exact ( dropLast_prefix sep).trans (prefix_append sep rest)
      refine hpre (prefix_of_prefix_length_le hp hlong ?_)
      rw [length_cons, length_append, length_dropLast]
      omega
    rw [if_neg hpre', cut?_append hsep rest h]
    rfl

/-! ### Digits -/

/-- The zeros of the scripts whose digits have the category `Nd` (Unicode 14). -/
def decimalZeros : List Nat :=
  [0x30, 0x660, 0x6f0, 0x7c0, 0x966, 0x9e6, 0xa66, 0xae6, 0xb66, 0xbe6, 0xc66, 0xce6, 0xd66, 0xde6,
    0xe50, 0xed0, 0xf20, 0x1040, 0x1090, 0x17e0, 0x1810, 0x1946, 0x19d0, 0x1a80, 0x1a90, 0x1b50,
    0x1bb0, 0x1c40, 0x1c50, 0xa620, 0xa8d0, 0xa900, 0xa9d0, 0xa9f0, 0xaa50, 0xabf0, 0xff10, 0x104a0,
    0x10d30, 0x11066, 0x110f0, 0x11136, 0x111d0, 0x112f0, 0x11450, 0x114d0, 0x11650, 0x116c0,
    0x11730, 0x118e0, 0x11950, 0x11c50, 0x11d50, 0x11da0, 0x16a60, 0x16ac0, 0x16b50, 0x1d7ce,
    0x1d7d8, 0x1d7e2, 0x1d7ec, 0x1d7f6, 0x1e140, 0x1e2f0, 0x1e950, 0x1fbf0]

/-- The characters `\d` matches in a Python string. -/
def isDecimal (c : Char) : Bool := decimalZeros.any fun z => z ≤ c.toNat && c.toNat ≤ z + 9

end KolegaCode.Text
