import KolegaCode.Hashline.Read
import KolegaCode.Hashline.Edits
import KolegaCode.Lib.Decimal

/-!
# Hashline — the tags that a read shows

`read` numbers lines as `str.splitlines` does, and an edit as line feeds do.  The two agree on a
part of a file when every line before it, and the part itself, ends at a line feed.
`read_usable_iff` says that then, and only then, a tag names the line it is shown with.
-/

namespace KolegaCode.ReadFile

open List
open Hashline (alphabet bom computeLineHash dropBom formatHashLines formatLineTag isSpace LineTag
  numberedLines splitLines taggedLine validateTag)
open Text (AtLineEnd AtLineStart endsLine isDecimal lineStart Lone normalizeNewlines
  splitlinesKeepends Stands)

/-! ### The tag that comes back -/

/-- What `_TAG_RE` finds in a line reference: the digits and the id. -/
def matchTag (value : List Char) : Option (List Char × List Char) :=
  let rest := (value.dropWhile isSpace).dropWhile fun c => c = '>' || c = '+' || c = '-'
  let rest := rest.dropWhile isSpace
  let digits := rest.takeWhile isDecimal
  match digits, (rest.dropWhile isDecimal).dropWhile isSpace with
  | _ :: _, '#' :: rest =>
    match rest.dropWhile isSpace with
    | a :: b :: _ =>
      if alphabet.contains a && alphabet.contains b then some (digits, [a, b]) else none
    | _ => none
  | _, _ => none

inductive TagError where
  | invalid (value : String)
  | lineTooSmall (value : String)
deriving DecidableEq, Repr

/-- `parse_tag`. -/
def parseTag (value : String) : Except TagError LineTag :=
  match matchTag value.toList with
  | none => .error (.invalid value)
  | some (digits, hash) =>
    let line := Decimal.ofDigits digits
    if line < 1 then .error (.lineTooSmall value) else .ok ⟨line, String.ofList hash⟩

theorem ofDigits_append (a : List Char) (c : Char) :
    Decimal.ofDigits (a ++ [c]) = 10 * Decimal.ofDigits a + Decimal.digitVal c := by
  rw [Decimal.ofDigits, Decimal.ofDigits, foldl_append]
  rfl

theorem digitVal_digitChar (d : Nat) (h : d < 10) : Decimal.digitVal (Nat.digitChar d) = d := by
  have hall : (List.range 10).all (fun d => Decimal.digitVal (Nat.digitChar d) = d) = true := by
    decide
  simpa using all_eq_true.mp hall d (List.mem_range.mpr h)

theorem ofDigits_toDigits (n : Nat) : Decimal.ofDigits (Nat.toDigits 10 n) = n := by
  induction n using Nat.strongRecOn with
  | ind n ih =>
    by_cases hn : n < 10
    · rw [Nat.toDigits_of_lt_base hn]
      refine (ofDigits_append [] _).trans ?_
      rw [digitVal_digitChar n hn]
      exact Nat.zero_add n
    · rw [Nat.toDigits_of_base_le (by decide) (by omega), ofDigits_append,
        ih (n / 10) (by omega), digitVal_digitChar _ (Nat.mod_lt n (by decide))]
      omega

/-- The tag that stands before a line. -/
def tagOf (n : Nat) (line : String) : LineTag :=
  ⟨n, computeLineHash (if n = 1 then String.ofList (dropBom line.toList) else line)⟩

theorem formatLineTag_eq (n : Nat) (line : String) :
    formatLineTag n line = toString n ++ "#" ++ (tagOf n line).hash := by
  unfold formatLineTag tagOf dropBom
  by_cases hn : n = 1
  · by_cases hbom : line.toList.head? = some bom
    · rw [if_pos ⟨hn, hbom⟩, if_pos hn, if_pos hbom]
    · rw [if_neg fun h => hbom h.2, if_pos hn, if_neg hbom, String.ofList_toList]
  · rw [if_neg fun h => hn h.1, if_neg hn]

/-- A tag is read as it was written. -/
theorem parseTag_formatLineTag {n : Nat} (hn : 1 ≤ n) (line : String) :
    parseTag (formatLineTag n line) = .ok (tagOf n line) := by
  obtain ⟨a, b, ha, hb, hhash⟩ := Hashline.computeLineHash_chars
    (if n = 1 then String.ofList (dropBom line.toList) else line)
  have htext : (formatLineTag n line).toList = Nat.toDigits 10 n ++ ['#', a, b] := by
    have hnum : (toString n).toList = Nat.toDigits 10 n := String.toList_ofList
    have hab : (String.ofList [a, b]).toList = [a, b] := String.toList_ofList
    rw [formatLineTag_eq, tagOf, hhash, String.toList_append, String.toList_append, hnum, hab,
      append_assoc]
    rfl
  obtain ⟨d, ds, hd, hdigit⟩ := Hashline.toDigits_cons n
  obtain ⟨-, hspace, -, -⟩ := Hashline.isDecimal_of_isDigit hdigit
  obtain ⟨htake, hdrop⟩ := @Hashline.scan_toDigits n ['#', a, b] fun c hc => by
    cases hc
    decide
  have hsign : ¬ (d = '>' ∨ d = '+' ∨ d = '-') := by
    rintro (rfl | rfl | rfl) <;> cases hdigit
  have hmatch : matchTag (formatLineTag n line).toList = some (Nat.toDigits 10 n, [a, b]) := by
    rw [htext]
    generalize hT : Nat.toDigits 10 n ++ ['#', a, b] = T at htake hdrop
    rw [hd, cons_append] at hT
    have hspaces : T.dropWhile isSpace = T := by
      rw [← hT, dropWhile_cons, hspace]
      rfl
    have hsigns : (T.dropWhile fun c => c = '>' || c = '+' || c = '-') = T := by
      rw [← hT, dropWhile_cons, if_neg (by simpa [and_assoc] using hsign)]
    have hletter : ['#', a, b].dropWhile isSpace = ['#', a, b] := rfl
    have hspaceA : [a, b].dropWhile isSpace = [a, b] := by
      rw [dropWhile_cons, (Hashline.alphabet_clean ha).2]
      rfl
    unfold matchTag
    dsimp only
    have hab : (alphabet.contains a && alphabet.contains b) = true := by
      rw [contains_iff_mem.mpr ha, contains_iff_mem.mpr hb, Bool.and_self]
    rw [hspaces, hsigns, hspaces, htake, hdrop, hletter, hd]
    simp only [hspaceA]
    exact if_pos hab
  rw [parseTag, hmatch]
  dsimp only
  rw [ofDigits_toDigits, if_neg (by omega), tagOf, hhash]

/-! ### The budget -/

/-- How many of the lines fit into the budget together with what is used of it. -/
def fitting (usedBytes : Nat) (lines : List (List Char)) : Nat :=
  (lines.inits.tail.takeWhile fun shown => usedBytes + (shown.map size).sum ≤ maxBytes).length

theorem fitting_cons (usedBytes : Nat) (line : List Char) (lines : List (List Char)) :
    fitting usedBytes (line :: lines) =
      if usedBytes + size line ≤ maxBytes then fitting (usedBytes + size line) lines + 1 else 0 := by
  have htail : (line :: lines).inits.tail = (lines.inits).map (line :: ·) := by
    rw [inits_cons, tail_cons]
  have hinits : lines.inits = [] :: lines.inits.tail := by
    cases lines with
    | nil => rfl
    | cons l lines => rfl
  rw [fitting, htail, hinits, map_cons, takeWhile_cons]
  have hone : (([line] : List (List Char)).map size).sum = size line := by
    rw [map_singleton, sum_singleton]
  by_cases hfit : usedBytes + size line ≤ maxBytes
  · rw [if_pos (by rw [hone]; exact decide_eq_true hfit), if_pos hfit, length_cons, fitting,
      takeWhile_map, length_map]
    congr 2
    refine congrArg₂ _ (funext fun shown => ?_) rfl
    rw [Function.comp_apply, map_cons, sum_cons, Nat.add_assoc]
  · rw [if_neg (by rw [hone]; simpa using hfit), if_neg hfit]
    rfl

/-- The loop shows the lines that fit. -/
theorem takeLines_fst (lines : List (List Char)) :
    ∀ usedBytes, (takeLines usedBytes lines).1 = fitting usedBytes lines := by
  induction lines with
  | nil => exact fun _ => rfl
  | cons line lines ih =>
    intro usedBytes
    rw [takeLines, fitting_cons]
    by_cases hgiant : maxBytes < size line
    · rw [if_pos hgiant, if_neg (by omega)]
    · rw [if_neg hgiant]
      by_cases hfull : maxBytes < usedBytes + size line
      · rw [if_pos hfull, if_neg (by omega)]
      · rw [if_neg hfull, if_pos (by omega), ← ih]

theorem fitting_le (usedBytes : Nat) (lines : List (List Char)) :
    fitting usedBytes lines ≤ lines.length := by
  refine ( takeWhile_prefix _).length_le.trans (Nat.le_of_eq ?_)
  rw [length_tail, length_inits, Nat.add_sub_cancel]

/-! ### The range that is shown -/

/-- The line that `offset` names, counted from zero. -/
def firstShown (offset : Int) : Nat := (offset - 1).toNat

/-- The line after the last that is shown: as many as are asked for and as fit. -/
def endShown (fileContent : String) (offset : Int) (limit : Option Int) : Nat :=
  let cap := min ((limit.map Int.toNat).getD maxLines) maxLines
  firstShown offset +
    fitting 0 (((splitlinesKeepends fileContent.toList).drop (firstShown offset)).take cap)

/-- Lines of the file. -/
def linesBetween (fileContent : String) (first last : Nat) : List (List Char) :=
  ((splitlinesKeepends fileContent.toList).drop first).take (last - first)

theorem showLines_ok {fileContent : String} {offset : Int} {limit : Option Int} {s : Shown}
    (h : showLines fileContent offset limit = .ok s) :
    s.firstLine = firstShown offset + 1 ∧ s.lastLine = endShown fileContent offset limit ∧
      s.totalLines = (splitlinesKeepends fileContent.toList).length ∧
      firstShown offset < s.totalLines ∧ firstShown offset ≤ s.lastLine ∧
      s.lastLine ≤ s.totalLines ∧
      s.content = (linesBetween fileContent (firstShown offset) s.lastLine).flatten := by
  unfold showLines at h
  dsimp only at h
  split at h
  · cases h
  · next hoffset =>
    split at h
    · cases h
    · split at h
      · cases h
      · next htotal =>
        set lines := splitlinesKeepends fileContent.toList with hlines
        have hfirst : firstShown offset < lines.length := by
          unfold firstShown
          omega
        generalize hcap : min ((limit.map Int.toNat).getD maxLines) maxLines = cap at h
        have hrequested : (lines.drop (firstShown offset)).take
            (min (firstShown offset + cap) lines.length - firstShown offset) =
              (lines.drop (firstShown offset)).take cap := by
          rw [take_eq_take_iff, length_drop]
          omega
        have hend : endShown fileContent offset limit = firstShown offset +
            fitting 0 ((lines.drop (firstShown offset)).take cap) := by
          rw [endShown, hcap]
        have hle := fitting_le 0 ((lines.drop (firstShown offset)).take cap)
        rw [length_take, length_drop] at hle
        rw [show (offset - 1).toNat = firstShown offset from rfl, hrequested] at h
        have hshown := takeLines_fst ((lines.drop (firstShown offset)).take cap) 0
        cases htake : takeLines 0 ((lines.drop (firstShown offset)).take cap) with
        | mk shown giant =>
          rw [htake] at h hshown
          dsimp only at h hshown
          cases h
          dsimp only
          refine ⟨rfl, by rw [hend, hshown], rfl, hfirst, by omega, by omega, ?_⟩
          rw [linesBetween, ← hlines, take_take, Nat.add_sub_cancel_left, min_eq_left (by omega)]

/-! ### The file, line feed by line feed -/

/-- The text an edit works on: without the byte order mark, every line ended by a line feed. -/
def editorText (fileContent : String) : List Char := normalizeNewlines (dropBom fileContent.toList)

/-- The lines of the file with normalised endings. -/
def pieces (fileContent : String) : List (List Char) :=
  (splitlinesKeepends fileContent.toList).map normalizeNewlines

section Pieces

variable (fileContent : String)

theorem isChain_lines : (splitlinesKeepends fileContent.toList).IsChain Text.Apart :=
  Text.isChain_linesFrom fileContent.toList []

theorem line_ok {l : List Char} (h : l ∈ splitlinesKeepends fileContent.toList) :
    l ≠ [] ∧ Lone (normalizeNewlines l) ∧
      ((normalizeNewlines l).getLast? = some '\n' ↔ endsLine l = true) := by
  obtain ⟨p, hp, rfl⟩ := mem_map.mp h
  have hok := Text.linesFrom_ok fileContent.toList [] (fun _ hc => absurd hc not_mem_nil) p hp
  exact ⟨hok.nonempty, hok.normalize⟩

theorem lone_pieces : ∀ q ∈ pieces fileContent, Lone q := by
  intro q hq
  obtain ⟨l, hl, rfl⟩ := mem_map.mp hq
  exact (line_ok fileContent hl).2.1

theorem normalize_lines {lines : List (List Char)}
    (h : lines <:+: splitlinesKeepends fileContent.toList) :
    normalizeNewlines lines.flatten = (lines.map normalizeNewlines).flatten :=
  have hchain := List.IsChain.infix (isChain_lines fileContent) h
  Text.normalizeNewlines_flatten hchain fun _ hl => (line_ok fileContent (h.subset hl)).1

theorem normalize_file : normalizeNewlines fileContent.toList = (pieces fileContent).flatten := by
  have h := normalize_lines fileContent (infix_refl _)
  rwa [Text.flatten_splitlinesKeepends] at h

end Pieces

theorem dropBom_append {a b : List Char} (h : a ≠ []) : dropBom (a ++ b) = dropBom a ++ b := by
  obtain ⟨c, a, rfl⟩ := exists_cons_of_ne_nil h
  rw [cons_append, dropBom, dropBom, head?_cons, head?_cons]
  split
  · rfl
  · rfl

variable (cs : List Char)

theorem dropBom_normalize :
    dropBom (normalizeNewlines cs) = normalizeNewlines (dropBom cs) := by
  cases cs with
  | nil => rfl
  | cons c cs =>
    by_cases hc : c = bom
    · have hone : normalizeNewlines (c :: cs) = c :: normalizeNewlines cs := by
        rw [hc]
        rfl
      rw [hone, dropBom, dropBom, head?_cons, head?_cons, if_pos (congrArg some hc),
        if_pos (congrArg some hc)]
      rfl
    · have hself : dropBom (c :: cs) = c :: cs := if_neg fun h => hc (Option.some.inj h)
      rw [hself, dropBom, if_neg]
      rw [Text.normalizeNewlines_head]
      split
      · exact fun hbom => by cases hbom
      · exact fun hbom => hc (Option.some.inj hbom)

theorem normalize_anchored :
    normalizeNewlines (if cs.getLast? = some '\n' ∧ cs.dropLast.getLast? = some '\r' then
        cs.dropLast.dropLast
      else if cs.getLast? = some '\n' ∨ cs.getLast? = some '\r' then cs.dropLast else cs) =
      if (normalizeNewlines cs).getLast? = some '\n' then (normalizeNewlines cs).dropLast
      else normalizeNewlines cs := by
  by_cases hnil : cs = []
  · rw [hnil]
    rfl
  obtain ⟨t, c, rfl⟩ : ∃ t c, cs = t ++ [c] :=
    ⟨cs.dropLast, cs.getLast hnil, (dropLast_concat_getLast hnil).symm⟩
  rw [getLast?_concat, dropLast_concat]
  by_cases hn : c = '\n'
  · subst hn
    by_cases hr : t.getLast? = some '\r'
    · obtain ⟨u, rfl⟩ : ∃ u, t = u ++ ['\r'] :=
        ⟨t.dropLast, (dropLast_append_getLast? '\r' hr).symm⟩
      have happ : normalizeNewlines (u ++ ['\r', '\n']) = normalizeNewlines u ++ ['\n'] :=
        Text.normalizeNewlines_append fun hboth => by cases hboth.2
      rw [if_pos ⟨rfl, hr⟩, append_assoc, singleton_append, happ, getLast?_concat,
        if_pos rfl, dropLast_concat, dropLast_concat]
    · have happ : normalizeNewlines (t ++ ['\n']) = normalizeNewlines t ++ ['\n'] :=
        Text.normalizeNewlines_append fun hboth => hr hboth.1
      rw [if_neg fun h => hr h.2, if_pos (.inl rfl), happ, getLast?_concat, if_pos rfl,
        dropLast_concat]
  · have happ : normalizeNewlines (t ++ [c]) =
        normalizeNewlines t ++ [if c = '\r' then '\n' else c] := by
      rw [Text.normalizeNewlines_append fun hboth => hn (by simpa using hboth.2)]
      unfold normalizeNewlines
      rw [Text.replaceCrlf.eq_3 _ _ fun _ _ hcs => by cases hcs]
      rfl
    rw [if_neg fun h => hn (Option.some.inj h.1), happ, getLast?_concat, dropLast_concat]
    by_cases hr : c = '\r'
    · rw [if_pos (.inr (congrArg some hr)), if_pos hr, if_pos rfl]
    · rw [if_neg (by simp [hn, hr]), if_neg hr, if_neg (by simpa using hn), happ, if_neg hr]

/-! ### What is shown, and what an edit makes of it -/

/-- The tagged lines of a result. -/
def shownTags (s : Shown) : List (Nat × String) :=
  if anchoredContent s = [] then []
  else numberedLines (String.ofList (anchoredContent s)) s.firstLine

/-- The text of the file before a line. -/
def textBefore (fileContent : String) (first : Nat) : List Char :=
  dropBom (normalizeNewlines (linesBetween fileContent 0 first).flatten)

/-- A tag names the line it is shown with: the line stands in the file where it was read, it is of
the tag's number, and an edit accepts the tag for it. -/
structure Usable (fileContent : String) (position n : Nat) (line : String) : Prop where
  stands : Stands (editorText fileContent) position n line.toList
  accepted : ∃ tag, parseTag (formatLineTag n line) = .ok tag ∧ tag.line = n ∧
    validateTag tag (splitLines (String.ofList (editorText fileContent))) [] = .ok [] ∧
    (splitLines (String.ofList (editorText fileContent)))[n - 1]? = some line

/-- The range is empty, or a line without text whose ending is not shown. -/
def NothingShown (fileContent : String) (first last : Nat) : Prop :=
  linesBetween fileContent first last = [] ∨
    last < (splitlinesKeepends fileContent.toList).length ∧
      (linesBetween fileContent first last).map normalizeNewlines = [['\n']]

/-- The range begins and ends where lines do by their line feeds. -/
def Aligned (fileContent : String) (first last : Nat) : Prop :=
  (∀ l ∈ linesBetween fileContent 0 first, endsLine l = true) ∧
    (last = (splitlinesKeepends fileContent.toList).length ∨
      (∃ l ∈ (linesBetween fileContent first last).getLast?, endsLine l = true) ∨
      ∃ l ∈ (splitlinesKeepends fileContent.toList)[last]?, normalizeNewlines l = ['\n'])

/-- The id of the first line is the same without a second byte order mark. -/
def FirstTag (fileContent : String) : Prop :=
  let line := ((editorText fileContent).splitOn '\n').headD []
  computeLineHash (String.ofList (dropBom line)) = computeLineHash (String.ofList line)

/-- An edit accepts the tag of a line that stands where it says. -/
theorem usable_iff {fileContent : String} {position n : Nat} {line : String}
    (hline : '\n' ∉ line.toList) :
    Usable fileContent position n line ↔ Stands (editorText fileContent) position n line.toList ∧
      (n = 1 → computeLineHash (String.ofList (dropBom line.toList)) = computeLineHash line) := by
  have hget : Stands (editorText fileContent) position n line.toList → 1 ≤ n ∧
      (splitLines (String.ofList (editorText fileContent)))[n - 1]? = some line := by
    intro hstands
    obtain ⟨hn, hnth⟩ := hstands.getElem hline
    refine ⟨hn, ?_⟩
    rw [splitLines, String.toList_ofList, getElem?_map, hnth, Option.map_some, String.ofList_toList]
  have htag : ∀ h : 1 ≤ n ∧ (splitLines (String.ofList (editorText fileContent)))[n - 1]? =
      some line, (validateTag (tagOf n line) (splitLines (String.ofList (editorText fileContent))) []
        = .ok [] ↔ computeLineHash line = (tagOf n line).hash) := by
    rintro ⟨hn, hnth⟩
    obtain ⟨hlt, -⟩ := List.getElem?_eq_some_iff.mp hnth
    rw [validateTag, show (tagOf n line).line = n from rfl, if_neg (by omega),
      getD_eq_getElem?_getD, hnth, Option.getD_some]
    dsimp only
    split
    · next heq => exact iff_of_true rfl heq
    · next hne => exact iff_of_false (fun h => by cases h) hne
  constructor
  · rintro ⟨hstands, tag, hparse, -, hvalid, -⟩
    have hnth := hget hstands
    rw [parseTag_formatLineTag hnth.1] at hparse
    cases hparse
    refine ⟨hstands, fun hone => ?_⟩
    have hhash := (htag hnth).mp hvalid
    rw [tagOf, if_pos hone] at hhash
    exact hhash.symm
  · rintro ⟨hstands, hfirst⟩
    have hnth := hget hstands
    refine ⟨hstands, tagOf n line, parseTag_formatLineTag hnth.1 line, rfl, (htag hnth).mpr ?_,
      hnth.2⟩
    rw [tagOf]
    split
    · next hone => exact (hfirst hone).symm
    · rfl

/-! ### The parts of a file -/

theorem normalizeNewlines_eq_nil_iff : normalizeNewlines cs = [] ↔ cs = [] := by
  cases cs with
  | nil => exact iff_of_true rfl rfl
  | cons c cs =>
    refine iff_of_false (fun h => ?_) (cons_ne_nil c cs)
    have hhead := Text.normalizeNewlines_head c cs
    rw [h] at hhead
    cases hhead

variable (fileContent : String)

theorem isInfix_linesBetween (first last : Nat) :
    linesBetween fileContent first last <:+: splitlinesKeepends fileContent.toList :=
  ( take_prefix _ _).isInfix.trans (drop_suffix _ _).isInfix

theorem normalize_between (first last : Nat) :
    normalizeNewlines (linesBetween fileContent first last).flatten =
      (((pieces fileContent).drop first).take (last - first)).flatten := by
  rw [normalize_lines fileContent (isInfix_linesBetween fileContent first last), linesBetween,
    map_take, map_drop]
  rfl

theorem editorText_parts {first last : Nat} (h : first ≤ last) :
    normalizeNewlines fileContent.toList =
      normalizeNewlines (linesBetween fileContent 0 first).flatten ++
        (normalizeNewlines (linesBetween fileContent first last).flatten ++
          ((pieces fileContent).drop last).flatten) := by
  rw [normalize_between, normalize_between, normalize_file, Nat.sub_zero, drop_zero]
  conv_lhs => rw [← take_append_drop first (pieces fileContent),
    ← take_append_drop (last - first) ((pieces fileContent).drop first), drop_drop,
    Nat.add_sub_cancel' h]
  rw [flatten_append, flatten_append]

theorem splitOn_dropBom :
    (dropBom cs).splitOn '\n' = (cs.splitOn '\n').modifyHead dropBom := by
  cases cs with
  | nil => rfl
  | cons c cs =>
    obtain ⟨head, tail, hsplit⟩ := exists_cons_of_ne_nil (splitOn_ne_nil '\n' cs)
    by_cases hc : c = bom
    · rw [splitOn_cons_eq_if_modifyHead, if_neg (by rw [hc]; decide), hsplit,
        modifyHead_cons, modifyHead_cons, dropBom, dropBom, head?_cons,
        head?_cons, if_pos (congrArg some hc), if_pos (congrArg some hc)]
      exact hsplit
    · have hself : dropBom (c :: cs) = c :: cs := if_neg fun h => hc (Option.some.inj h)
      rw [hself, splitOn_cons_eq_if_modifyHead]
      split
      · rfl
      · rw [hsplit, modifyHead_cons, modifyHead_cons, dropBom, head?_cons,
          if_neg fun h => hc (Option.some.inj h)]

/-- The part of the file that is shown, as an edit has it. -/
def shownPart (s : Shown) : List Char :=
  if s.firstLine = 1 then dropBom (normalizeNewlines (anchoredContent s))
  else normalizeNewlines (anchoredContent s)

/-- The tagged lines are the lines of the part, numbered on. -/
theorem shownTags_getElem {s : Shown} (hne : anchoredContent s ≠ []) (hpos : 1 ≤ s.firstLine)
    (i n : Nat) (line : String) :
    (shownTags s)[i]? = some (n, line) ↔
      n = s.firstLine + i ∧ ((shownPart s).splitOn '\n')[i]? = some line.toList := by
  have hpart : ((shownPart s).splitOn '\n')[i]? =
      ((normalizeNewlines (anchoredContent s)).splitOn '\n')[i]?.map fun p =>
        if s.firstLine + i = 1 then dropBom p else p := by
    unfold shownPart
    split
    · next hone =>
      rw [splitOn_dropBom, getElem?_modifyHead]
      cases i with
      | zero => rw [hone]; rfl
      | succ i => rw [if_neg (by omega)]; simp [hone]
    · next hmore =>
      have hn : ¬ s.firstLine + i = 1 := by omega
      simp [hn]
  rw [shownTags, if_neg hne, numberedLines, getElem?_map, getElem?_zipIdx, splitLines,
    String.toList_ofList, getElem?_map, hpart]
  rw [String.toList_ofList]
  cases ((normalizeNewlines (anchoredContent s)).splitOn '\n')[i]? with
  | none => simp
  | some p =>
    simp only [Option.map_some, Option.some.injEq, Prod.mk.injEq, String.toList_ofList]
    constructor
    · rintro ⟨rfl, rfl⟩
      refine ⟨rfl, ?_⟩
      split
      · rw [String.toList_ofList]
      · rw [String.toList_ofList]
    · rintro ⟨rfl, hline⟩
      refine ⟨rfl, ?_⟩
      rw [← String.ofList_toList (s := line), ← hline]
      split
      · rfl
      · rfl

theorem map_shownTags {s : Shown} (hne : anchoredContent s ≠ []) (hpos : 1 ≤ s.firstLine) :
    ((shownTags s).map fun e => e.2.toList) = (shownPart s).splitOn '\n' := by
  refine ext_getElem? fun i => ?_
  rw [getElem?_map]
  cases hget : (shownTags s)[i]? with
  | some e =>
    exact ((shownTags_getElem hne hpos i e.1 e.2).mp hget).2.symm
  | none =>
    cases hline : ((shownPart s).splitOn '\n')[i]? with
    | none => rfl
    | some line =>
      have hsome := (shownTags_getElem hne hpos i (s.firstLine + i) (String.ofList line)).mpr
        ⟨rfl, by rw [hline, String.toList_ofList]⟩
      rw [hget] at hsome
      cases hsome

/-! ### Where the range begins -/

theorem count_dropBom : (dropBom cs).count '\n' = cs.count '\n' := by
  cases cs with
  | nil => rfl
  | cons c cs =>
    rw [dropBom]
    split
    · next hbom =>
      have hc : c = bom := Option.some.inj hbom
      rw [hc, count_cons_of_ne (by decide)]
      rfl
    · rfl

theorem getLast?_dropBom {cs : List Char} (h : dropBom cs ≠ []) :
    (dropBom cs).getLast? = cs.getLast? := by
  cases cs with
  | nil => rfl
  | cons c cs =>
    rw [dropBom] at h ⊢
    split at h
    · next hbom =>
      rw [if_pos hbom]
      obtain ⟨d, ds, hd⟩ := exists_cons_of_ne_nil (show cs ≠ [] from h)
      rw [hd]
      rfl
    · next hbom => rw [if_neg hbom]

theorem atLineStart_dropBom {cs : List Char} {k : Nat} (h : cs = [] ∨ k ≠ 0) :
    (dropBom cs).count '\n' = k ∧ AtLineStart (dropBom cs) ↔
      cs.count '\n' = k ∧ AtLineStart cs := by
  rw [count_dropBom]
  refine and_congr_right fun hcount => ?_
  rcases h with rfl | hk
  · exact Iff.rfl
  · have hmem : '\n' ∈ cs := count_pos_iff.mp (by omega)
    have hmem' : '\n' ∈ dropBom cs :=
      count_pos_iff.mp (by rw [count_dropBom]; omega)
    have hne : cs ≠ [] := ne_nil_of_mem hmem
    have hne' : dropBom cs ≠ [] := ne_nil_of_mem hmem'
    rw [AtLineStart, AtLineStart, getLast?_dropBom hne', or_iff_right hne, or_iff_right hne']

theorem before_iff {fileContent : String} {first : Nat}
    (h : first < (splitlinesKeepends fileContent.toList).length) :
    (textBefore fileContent first).count '\n' = first ∧
        AtLineStart (textBefore fileContent first) ↔
      ∀ l ∈ linesBetween fileContent 0 first, endsLine l = true := by
  have hflat := normalize_between fileContent 0 first
  rw [Nat.sub_zero, drop_zero] at hflat
  have hlen : ((pieces fileContent).take first).length = first := by
    rw [length_take, pieces, length_map]
    omega
  have hcases : (normalizeNewlines (linesBetween fileContent 0 first).flatten) = [] ∨ first ≠ 0 := by
    by_cases h0 : first = 0
    · rw [h0]
      exact .inl rfl
    · exact .inr h0
  have hcount := Text.count_pieces fun q hq =>
    lone_pieces fileContent q (mem_of_mem_take (i := first) hq)
  rw [hlen] at hcount
  rw [textBefore, atLineStart_dropBom hcases, hflat, hcount, pieces, ← map_take, forall_mem_map]
  have hlines : linesBetween fileContent 0 first =
      (splitlinesKeepends fileContent.toList).take first := by
    rw [linesBetween, drop_zero, Nat.sub_zero]
  rw [hlines]
  refine forall₂_congr fun l hl => ?_
  exact (line_ok fileContent (mem_of_mem_take hl)).2.2

/-! ### Where the range ends -/

theorem section_ends {fileContent : String} {first last : Nat} :
    (normalizeNewlines (linesBetween fileContent first last).flatten).getLast? = some '\n' ↔
      ∃ l ∈ (linesBetween fileContent first last).getLast?, endsLine l = true := by
  rw [normalize_lines fileContent (isInfix_linesBetween fileContent first last)]
  have hmem := (isInfix_linesBetween fileContent first last).subset
  generalize linesBetween fileContent first last = lines at hmem ⊢
  by_cases hnil : lines = []
  · rw [hnil]
    simp
  · obtain ⟨init, l, rfl⟩ : ∃ init l, lines = init ++ [l] :=
      ⟨lines.dropLast, lines.getLast hnil, (dropLast_concat_getLast hnil).symm⟩
    obtain ⟨hne, hlone, hends⟩ := line_ok fileContent
      (hmem (mem_append_right init mem_cons_self))
    rw [map_append, map_singleton, flatten_append, flatten_singleton,
      getLast?_append_of_ne_nil _ hlone.nonempty, hends, getLast?_concat]
    simp

theorem after_iff {fileContent : String} {last : Nat} :
    AtLineEnd ((pieces fileContent).drop last).flatten ↔
      (splitlinesKeepends fileContent.toList).length ≤ last ∨
        ∃ l ∈ (splitlinesKeepends fileContent.toList)[last]?, normalizeNewlines l = ['\n'] := by
  cases hget : (splitlinesKeepends fileContent.toList)[last]? with
  | none =>
    have hlen := List.getElem?_eq_none_iff.mp hget
    refine iff_of_true (.inl ?_) (.inl hlen)
    rw [pieces, ← map_drop, drop_eq_nil_of_le hlen]
    rfl
  | some l =>
    obtain ⟨hlt, hl⟩ := List.getElem?_eq_some_iff.mp hget
    obtain ⟨-, hlone, -⟩ := line_ok fileContent (mem_of_getElem? hget)
    have hdrop : (pieces fileContent).drop last =
        normalizeNewlines l :: (pieces fileContent).drop (last + 1) := by
      rw [pieces, ← map_drop, drop_eq_getElem_cons hlt, hl, map_cons, map_drop]
    rw [hdrop, flatten_cons, AtLineEnd, head?_append_of_ne_nil _ hlone.nonempty]
    constructor
    · rintro (hnil | hhead)
      · exact absurd (append_eq_nil_iff.mp hnil).1 hlone.nonempty
      · exact .inr ⟨l, rfl, hlone.eq_of_head hhead⟩
    · rintro (hle | ⟨l', hl', hlf⟩)
      · omega
      · cases hl'
        rw [hlf]
        exact .inr rfl

/-! ### The part that is shown -/

/-- What is read of a file, and what an edit has of it. -/
structure ShownOf (fileContent : String) (first last : Nat) (s : Shown) : Prop where
  firstLine : s.firstLine = first + 1
  lastLine : s.lastLine = last
  totalLines : s.totalLines = (splitlinesKeepends fileContent.toList).length
  first_lt : first < (splitlinesKeepends fileContent.toList).length
  first_le : first ≤ last
  last_le : last ≤ (splitlinesKeepends fileContent.toList).length
  content : s.content = (linesBetween fileContent first last).flatten

section Shown

variable {fileContent : String} {first last : Nat} {s : Shown}

theorem ShownOf.anchored (h : ShownOf fileContent first last s) :
    normalizeNewlines (anchoredContent s) =
      if last < (splitlinesKeepends fileContent.toList).length ∧
          (normalizeNewlines s.content).getLast? = some '\n' then
        (normalizeNewlines s.content).dropLast
      else normalizeNewlines s.content := by
  unfold anchoredContent
  rw [h.lastLine, h.totalLines]
  by_cases hlt : last < (splitlinesKeepends fileContent.toList).length
  · rw [if_pos hlt, normalize_anchored]
    by_cases hlast : (normalizeNewlines s.content).getLast? = some '\n'
    · rw [if_pos hlast, if_pos ⟨hlt, hlast⟩]
    · rw [if_neg hlast, if_neg fun hb => hlast hb.2]
  · rw [if_neg hlt, if_neg fun hb => hlt hb.1]

theorem flatten_eq_nil {lines : List (List Char)} (h : ∀ l ∈ lines, l ≠ []) :
    lines.flatten = [] ↔ lines = [] := by
  cases lines with
  | nil => exact iff_of_true rfl rfl
  | cons l lines =>
    refine iff_of_false (fun hnil => ?_) (cons_ne_nil _ _)
    exact h l mem_cons_self (append_eq_nil_iff.mp hnil).1

/-- Nothing is tagged where nothing is shown. -/
theorem ShownOf.nothing_iff (h : ShownOf fileContent first last s) :
    anchoredContent s = [] ↔ NothingShown fileContent first last := by
  have hlines : ∀ l ∈ linesBetween fileContent first last, l ≠ [] ∧ normalizeNewlines l ≠ [] :=
    fun l hl => by
      obtain ⟨hne, hlone, -⟩ :=
        line_ok fileContent ((isInfix_linesBetween fileContent first last).subset hl)
      exact ⟨hne, hlone.nonempty⟩
  have hnorm := normalize_lines fileContent (isInfix_linesBetween fileContent first last)
  rw [← h.content] at hnorm
  have hpieces : ∀ q ∈ (linesBetween fileContent first last).map normalizeNewlines, q ≠ [] :=
    forall_mem_map.mpr fun l hl => (hlines l hl).2
  have hempty : normalizeNewlines s.content = [] ↔ linesBetween fileContent first last = [] := by
    rw [hnorm, flatten_eq_nil hpieces, map_eq_nil_iff]
  rw [← normalizeNewlines_eq_nil_iff, h.anchored, NothingShown]
  split
  · next hcut =>
    obtain ⟨hlt, hlast⟩ := hcut
    have hne : normalizeNewlines s.content ≠ [] := fun hnil => by
      rw [hnil] at hlast
      cases hlast
    rw [or_iff_right fun hnil => hne (hempty.mpr hnil), and_iff_right hlt]
    have hdrop : (normalizeNewlines s.content).dropLast = [] ↔
        normalizeNewlines s.content = ['\n'] := by
      have hcat := dropLast_append_getLast? '\n' hlast
      constructor
      · intro hnil
        rw [hnil] at hcat
        exact hcat.symm
      · intro heq
        rw [heq]
        rfl
    rw [hdrop, hnorm]
    constructor
    · intro hone
      cases hmap : (linesBetween fileContent first last).map normalizeNewlines with
      | nil =>
        rw [hmap] at hone
        cases hone
      | cons q rest =>
        rw [hmap] at hone hpieces
        have hq := hpieces q mem_cons_self
        rw [flatten_cons, append_eq_singleton_iff] at hone
        rcases hone with ⟨hnil, -⟩ | ⟨hq', hrest⟩
        · exact absurd hnil hq
        · rw [hq', (flatten_eq_nil fun r hr => hpieces r (mem_cons_of_mem _ hr)).mp hrest]
    · intro hmap
      rw [hmap]
      rfl
  · next hwhole =>
    rw [hempty]
    refine (or_iff_left ?_).symm
    rintro ⟨hlt, hmap⟩
    refine hwhole ⟨hlt, ?_⟩
    rw [hnorm, hmap]
    rfl

/-- The text an edit works on: before the part, the part, and behind it. -/
theorem ShownOf.parts (h : ShownOf fileContent first last s) (hne : anchoredContent s ≠ []) :
    ∃ rest, editorText fileContent = textBefore fileContent first ++ (shownPart s ++ rest) ∧
      (AtLineEnd rest ↔ last = (splitlinesKeepends fileContent.toList).length ∨
        (∃ l ∈ (linesBetween fileContent first last).getLast?, endsLine l = true) ∨
        ∃ l ∈ (splitlinesKeepends fileContent.toList)[last]?, normalizeNewlines l = ['\n']) := by
  have hparts := editorText_parts fileContent h.first_le
  rw [← h.content] at hparts
  have hends := @section_ends fileContent first last
  rw [← h.content] at hends
  have hafter := @after_iff fileContent last
  have hlast : (splitlinesKeepends fileContent.toList).length ≤ last ↔
      last = (splitlinesKeepends fileContent.toList).length := by
    have := h.last_le
    omega
  rw [hlast] at hafter
  obtain ⟨rest, hrest, hiff⟩ : ∃ rest, normalizeNewlines s.content ++
      ((pieces fileContent).drop last).flatten = normalizeNewlines (anchoredContent s) ++ rest ∧
      (AtLineEnd rest ↔ last = (splitlinesKeepends fileContent.toList).length ∨
        (∃ l ∈ (linesBetween fileContent first last).getLast?, endsLine l = true) ∨
        ∃ l ∈ (splitlinesKeepends fileContent.toList)[last]?, normalizeNewlines l = ['\n']) := by
    rw [h.anchored]
    split
    · next hcut =>
      refine ⟨'\n' :: ((pieces fileContent).drop last).flatten, ?_,
        iff_of_true (.inr rfl) (.inr (.inl (hends.mp hcut.2)))⟩
      conv_lhs => rw [← dropLast_append_getLast? '\n' hcut.2]
      rw [append_assoc]
      rfl
    · next hwhole =>
      refine ⟨_, rfl, hafter.trans ?_⟩
      rw [← hends]
      have := h.last_le
      by_cases hl : last = (splitlinesKeepends fileContent.toList).length
      · exact iff_of_true (.inl hl) (.inl hl)
      · rw [or_iff_right hl, or_iff_right hl, or_iff_right fun hb => hwhole ⟨by omega, hb⟩]
  rw [hrest] at hparts
  have hpart : normalizeNewlines (anchoredContent s) ≠ [] :=
    fun hnil => hne ((normalizeNewlines_eq_nil_iff _).mp hnil)
  refine ⟨rest, ?_, hiff⟩
  rw [editorText, ← dropBom_normalize, hparts, textBefore, shownPart, h.firstLine]
  by_cases hfirst : first = 0
  · rw [if_pos (by omega), hfirst]
    exact dropBom_append hpart
  · rw [if_neg (by omega)]
    refine dropBom_append fun hnil => hfirst ?_
    rw [normalizeNewlines_eq_nil_iff, flatten_eq_nil fun l hl => (line_ok fileContent
      ((isInfix_linesBetween fileContent 0 first).subset hl)).1, linesBetween, drop_zero,
      Nat.sub_zero, take_eq_nil_iff] at hnil
    rcases hnil with h0 | hnil
    · exact h0
    · have hlt := h.first_lt
      rw [hnil] at hlt
      cases hlt

end Shown

/-- **The tags of a read.**  Every tag that a read shows names the line it is shown with exactly
where the lines before and the part that is shown end at line feeds, and, for the first line, a
second byte order mark does not change its id. -/
theorem read_usable_iff {fileContent : String} {offset : Int} {limit : Option Int} {s : Shown}
    (h : showLines fileContent offset limit = .ok s) :
    (∀ i n line, (shownTags s)[i]? = some (n, line) →
      Usable fileContent ((textBefore fileContent (firstShown offset)).length +
        lineStart ((shownTags s).map fun e => e.2.toList) i) n line) ↔
      NothingShown fileContent (firstShown offset) (endShown fileContent offset limit) ∨
        Aligned fileContent (firstShown offset) (endShown fileContent offset limit) ∧
          (firstShown offset = 0 → FirstTag fileContent) := by
  obtain ⟨hfirst, hlast, htotal, hlt, hle, hle', hcontent⟩ := showLines_ok h
  rw [htotal] at hlt hle'
  rw [hlast] at hle hle' hcontent
  have hshown : ShownOf fileContent (firstShown offset) (endShown fileContent offset limit) s :=
    ⟨hfirst, hlast, htotal, hlt, hle, hle', hcontent⟩
  generalize firstShown offset = first at *
  generalize endShown fileContent offset limit = last at *
  rw [← hshown.nothing_iff]
  by_cases hnil : anchoredContent s = []
  · refine iff_of_true (fun i n line hget => ?_) (.inl hnil)
    rw [shownTags, if_pos hnil] at hget
    cases hget
  · obtain ⟨rest, htext, hrest⟩ := hshown.parts hnil
    have hpos : 1 ≤ s.firstLine := by omega
    rw [or_iff_right hnil, map_shownTags hnil hpos, Aligned, ← hrest, ← before_iff hlt, and_assoc,
      and_assoc]
    have hstands := Text.stands_iff (textBefore fileContent first) (shownPart s) rest first
    rw [← htext] at hstands
    have hclean : ∀ (i : Nat) (line : String),
        ((shownPart s).splitOn '\n')[i]? = some line.toList → '\n' ∉ line.toList :=
      fun i line hline => (Text.mem_splitOn (mem_of_getElem? hline)).1
    obtain ⟨top, more, htop⟩ := exists_cons_of_ne_nil (splitOn_ne_nil '\n' (shownPart s))
    -- the first line of the part is the first of the file where the part begins with the file
    have htopLine : first = 0 → Stands (editorText fileContent) 0 1 top →
        ((editorText fileContent).splitOn '\n').headD [] = top := by
      intro _ hstand
      have hmem := (Text.mem_splitOn (htop ▸ mem_cons_self : top ∈ _)).1
      have hget := (hstand.getElem hmem).2
      rw [headD_eq_head?_getD, head?_eq_getElem?, hget]
      rfl
    have hbefore : first = 0 → (textBefore fileContent first).length = 0 := by
      rintro rfl
      rfl
    constructor
    · intro hall
      have hline : ∀ j line, ((shownPart s).splitOn '\n')[j]? = some line →
          Stands (editorText fileContent) ((textBefore fileContent first).length +
            lineStart ((shownPart s).splitOn '\n') j) (first + 1 + j) line ∧
          (first + 1 + j = 1 → computeLineHash (String.ofList (dropBom line)) =
            computeLineHash (String.ofList line)) := by
        intro j line hj
        have hj' : ((shownPart s).splitOn '\n')[j]? = some (String.ofList line).toList := by
          rw [hj, String.toList_ofList]
        have husable := hall j (s.firstLine + j) (String.ofList line)
          ((shownTags_getElem hnil hpos j _ _).mpr ⟨rfl, hj'⟩)
        rw [hfirst, usable_iff (hclean j _ hj'), String.toList_ofList] at husable
        exact husable
      obtain ⟨hcount, hstart, hend⟩ := hstands.mp fun j line hj => (hline j line hj).1
      refine ⟨hcount, hstart, hend, fun h0 => ?_⟩
      obtain ⟨hstand, hhash⟩ := hline 0 top (by rw [htop]; rfl)
      rw [hbefore h0, h0] at hstand
      rw [FirstTag, htopLine h0 hstand]
      exact hhash (by omega)
    · rintro ⟨hcount, hstart, hend, hhash⟩ i n line hget
      obtain ⟨rfl, hline⟩ := (shownTags_getElem hnil hpos i n line).mp hget
      have hstand := hstands.mpr ⟨hcount, hstart, hend⟩ i _ hline
      rw [usable_iff (hclean i line hline), hfirst]
      refine ⟨hstand, fun hone => ?_⟩
      have h0 : first = 0 := by omega
      have hi : i = 0 := by omega
      have htoplast : top = line.toList := by
        rw [hi, htop] at hline
        exact Option.some.inj hline
      have hhash := hhash h0
      rw [hi, hbefore h0, h0] at hstand
      rw [FirstTag, htopLine h0 (htoplast ▸ hstand), htoplast, String.ofList_toList] at hhash
      exact hhash

theorem read_usable_two :
    showLines "a\nb" 2 (some 5) = .ok ⟨2, 2, 2, false, false, none, ['b']⟩ ∧
      ∀ i n line, (shownTags ⟨2, 2, 2, false, false, none, ['b']⟩)[i]? = some (n, line) →
        Usable "a\nb" ((textBefore "a\nb" (firstShown 2)).length +
          lineStart ((shownTags ⟨2, 2, 2, false, false, none, ['b']⟩).map fun e => e.2.toList) i)
          n line :=
  have h : showLines "a\nb" 2 (some 5) = .ok ⟨2, 2, 2, false, false, none, ['b']⟩ := by decide
  ⟨h, (read_usable_iff h).mpr (.inr ⟨by unfold Aligned; decide, fun h0 => by cases h0⟩)⟩

/-- A form feed ends a line for `read` alone: what it shows as the third line, no edit finds. -/
theorem formFeed_not_usable :
    showLines "a\x0cb\nc" 2 none =
        .ok ⟨2, 3, 3, false, false, none, ['b', '\n', 'c']⟩ ∧
      (3, "c") ∈ shownTags ⟨2, 3, 3, false, false, none, ['b', '\n', 'c']⟩ ∧
      ∀ tag, parseTag (formatLineTag 3 "c") = .ok tag →
        validateTag tag (splitLines (String.ofList (editorText "a\x0cb\nc"))) [] ≠ .ok [] := by
  refine ⟨by decide, by decide, fun tag htag => ?_⟩
  rw [parseTag_formatLineTag (by decide)] at htag
  cases htag
  have hlines : splitLines (String.ofList (editorText "a\x0cb\nc")) = ["a\x0cb", "c"] := by decide
  rw [hlines]
  exact fun h => by cases h

end KolegaCode.ReadFile
