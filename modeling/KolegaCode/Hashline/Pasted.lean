import KolegaCode.Hashline.ReadOutput
import KolegaCode.Hashline.Tagged

/-!
# Hashline — pasted output

`strip_hashline_read_output` takes the tags of a read result away again.  The tags stand where a
`\n` ends a line; what is stripped stands where `str.splitlines` finds one, so a file with a form
feed in a line may lose more than its tags.
-/

namespace KolegaCode.Hashline

open List
open Text (flatten_splitlinesKeepends isDecimal linesFrom splitlinesKeepends unlines)

/-! ### Stripping line by line -/

/-- What `strip_hashline_read_output` looks at of a line. -/
def lineBody (line : List Char) : List Char :=
  if line.getLast? = some '\n' then line.dropLast else line

/-- The line has the shape of tagged output. -/
def hasAnchor (line : List Char) : Bool := (matchAnchor (lineBody line)).isSome

/-- One round of `strip_hashline_read_output`. -/
def stripLine (search : Bool) (line : List Char) : List Char :=
  let ending := if line.getLast? = some '\n' then ['\n'] else []
  match matchAnchor (lineBody line) with
  | none => line
  | some (indent, lineNumber, content) =>
      if search then indent ++ "Line ".toList ++ lineNumber ++ ": ".toList ++ content ++ ending
      else indent ++ content ++ ending

theorem stripHashlineReadOutput_eq (text : String) (search : Bool) :
    stripHashlineReadOutput text search =
      String.ofList ((splitlinesKeepends text.toList).flatMap (stripLine search)) := rfl

variable {line : List Char}

theorem stripLine_of_not_hasAnchor (h : hasAnchor line = false) (search : Bool) :
    stripLine search line = line := by
  rw [hasAnchor, Option.isSome_eq_false_iff, Option.isNone_iff_eq_none] at h
  rw [stripLine, h]

theorem matchAnchor_some {body indent lineNumber content : List Char}
    (h : matchAnchor body = some (indent, lineNumber, content)) :
    ∃ mark a b, body = indent ++ mark ++ lineNumber ++ '#' :: a :: b :: ':' :: content ∧
      (mark = [] ∨ ∃ spaces, mark = ">>>".toList ++ spaces) ∧
      ∃ d ds, lineNumber = d :: ds ∧ isDecimal d = true := by
  unfold matchAnchor at h
  dsimp only at h
  set rest := body.dropWhile isSpace with hrest
  have hbody : body = body.takeWhile isSpace ++ rest := (takeWhile_append_dropWhile).symm
  obtain ⟨mark, after, hmark, hsplit, hafter⟩ : ∃ mark after,
      (mark = [] ∨ ∃ spaces, mark = ">>>".toList ++ spaces) ∧ rest = mark ++ after ∧
      (if ">>>".toList.isPrefixOf rest ∧ (rest.drop 3).head?.any isSpace then
        (rest.drop 3).dropWhile isSpace else rest) = after := by
    split
    · next hpre =>
      obtain ⟨tail, htail⟩ := isPrefixOf_iff_prefix.mp hpre.1
      have hdrop : rest.drop 3 = tail := by
        rw [← htail]
        exact @List.drop_left _ ">>>".toList tail
      refine ⟨">>>".toList ++ tail.takeWhile isSpace, tail.dropWhile isSpace, .inr ⟨_, rfl⟩, ?_, ?_⟩
      · rw [append_assoc, takeWhile_append_dropWhile, htail]
      · rw [hdrop]
    · exact ⟨[], rest, .inl rfl, rfl, rfl⟩
  rw [hafter] at h
  split at h
  · next d ds a b found hnumber hid =>
    split at h
    · cases h
      refine ⟨mark, a, b, ?_, hmark, d, ds, hnumber, ?_⟩
      · calc body = body.takeWhile isSpace ++ (mark ++ (after.takeWhile isDecimal ++
              after.dropWhile isDecimal)) := by
                rw [takeWhile_append_dropWhile, ← hsplit, ← hbody]
          _ = _ := by
                rw [hid]
                simp only [append_assoc]
      · have hmem : d ∈ after.takeWhile isDecimal := by
          rw [hnumber]
          exact mem_cons_self
        exact mem_takeWhile_imp hmem
    · cases h
  · cases h

theorem lineBody_append_ending (line : List Char) :
    lineBody line ++ (if line.getLast? = some '\n' then ['\n'] else []) = line := by
  unfold lineBody
  split
  · next hlast => exact dropLast_append_getLast? '\n' hlast
  · exact append_nil line

theorem length_stripLine_lt (h : hasAnchor line = true) :
    (stripLine false line).length < line.length := by
  obtain ⟨⟨indent, lineNumber, content⟩, hmatch⟩ := Option.isSome_iff_exists.mp h
  obtain ⟨mark, a, b, hbody, -, -⟩ := matchAnchor_some hmatch
  have hline := congrArg List.length (lineBody_append_ending line)
  rw [hbody] at hline
  rw [stripLine, hmatch]
  simp only [Bool.false_eq_true, if_false, length_append, length_cons] at hline ⊢
  omega

theorem length_stripLine_le (line : List Char) : (stripLine false line).length ≤ line.length := by
  cases h : hasAnchor line with
  | true => exact Nat.le_of_lt (length_stripLine_lt h)
  | false => rw [stripLine_of_not_hasAnchor h]

/-- A numbered line that replaces an anchor does not begin as the line does. -/
theorem stripLine_clash (h : hasAnchor line = true) :
    ∃ p c c' t t', c ≠ c' ∧ line = p ++ c :: t ∧ stripLine true line = p ++ c' :: t' := by
  obtain ⟨⟨indent, lineNumber, content⟩, hmatch⟩ := Option.isSome_iff_exists.mp h
  obtain ⟨mark, a, b, hbody, hmark, d, ds, hnumber, hdigit⟩ := matchAnchor_some hmatch
  have hline := lineBody_append_ending line
  rw [hbody, hnumber] at hline
  have hstrip : ∃ t', stripLine true line = indent ++ 'L' :: t' := by
    rw [stripLine, hmatch]
    exact ⟨_, by simp only [if_true, append_assoc]; rfl⟩
  obtain ⟨t', ht'⟩ := hstrip
  rcases hmark with rfl | ⟨spaces, rfl⟩
  · obtain ⟨t, ht⟩ : ∃ t, line = indent ++ d :: t := by
      rw [← hline]
      simp only [append_assoc, cons_append, append_nil]
      exact ⟨_, rfl⟩
    refine ⟨indent, d, 'L', t, t', ?_, ht, ht'⟩
    rintro rfl
    revert hdigit
    decide
  · obtain ⟨t, ht⟩ : ∃ t, line = indent ++ '>' :: t := by
      rw [← hline]
      simp only [append_assoc, cons_append]
      exact ⟨_, rfl⟩
    exact ⟨indent, '>', 'L', t, t', by decide, ht, ht'⟩

/-! ### Texts -/

theorem flatMap_eq_flatMap_iff {α : Type} {f g : α → List Char} {l : List α}
    (h : ∀ x ∈ l, (f x).length ≤ (g x).length) :
    l.flatMap f = l.flatMap g ↔ ∀ x ∈ l, f x = g x := by
  have hle : ∀ l : List α, (∀ x ∈ l, (f x).length ≤ (g x).length) →
      (l.flatMap f).length ≤ (l.flatMap g).length := by
    intro l hl
    induction l with
    | nil => exact Nat.le_refl 0
    | cons x l ih =>
      have hx := hl x mem_cons_self
      have ih := ih fun y hy => hl y (mem_cons_of_mem _ hy)
      rw [flatMap_cons, flatMap_cons, length_append, length_append]
      omega
  induction l with
  | nil => exact iff_of_true rfl fun _ hx => absurd hx not_mem_nil
  | cons x l ih =>
    have hrest := hle l fun y hy => h y (mem_cons_of_mem _ hy)
    have hx := h x mem_cons_self
    have ih := ih fun y hy => h y (mem_cons_of_mem _ hy)
    rw [flatMap_cons, flatMap_cons, forall_mem_cons]
    constructor
    · intro heq
      have hlen := congrArg List.length heq
      rw [length_append, length_append] at hlen
      obtain ⟨hhead, htail⟩ := append_inj heq (by omega)
      exact ⟨hhead, ih.mp htail⟩
    · rintro ⟨hhead, htail⟩
      rw [hhead, ih.mpr htail]

/-- A text of which the first changed part clashes with the old one is changed. -/
theorem flatMap_eq_flatten_of_clash {f : List Char → List Char} {pieces : List (List Char)}
    (h : ∀ piece ∈ pieces, f piece = piece ∨
      ∃ p c c' t t', c ≠ c' ∧ piece = p ++ c :: t ∧ f piece = p ++ c' :: t')
    (heq : pieces.flatMap f = pieces.flatten) : ∀ piece ∈ pieces, f piece = piece := by
  induction pieces with
  | nil => exact fun _ hp => absurd hp not_mem_nil
  | cons piece pieces ih =>
    rw [flatMap_cons, flatten_cons] at heq
    rcases h piece mem_cons_self with hsame | ⟨p, c, c', t, t', hne, hpiece, hf⟩
    · rw [hsame, append_right_inj] at heq
      refine forall_mem_cons.mpr ⟨hsame, ih (fun q hq => ?_) heq⟩
      exact h q (mem_cons_of_mem _ hq)
    · rw [hf, hpiece, append_assoc, append_assoc, append_right_inj] at heq
      rw [cons_append, cons_append, List.cons.injEq] at heq
      exact absurd heq.1.symm hne

theorem stripLine_flatMap_iff (pieces : List (List Char)) :
    pieces.flatMap (stripLine false) = pieces.flatten ↔
      ∀ piece ∈ pieces, stripLine false piece = piece := by
  have hid : pieces.flatten = pieces.flatMap id := flatMap_id.symm
  rw [hid]
  exact flatMap_eq_flatMap_iff fun piece _ => length_stripLine_le piece

/-- Nothing is stripped exactly where no line, as `splitlines` has them, has the shape. -/
theorem strip_eq_self_iff (text : String) (search : Bool) :
    stripHashlineReadOutput text search = text ↔
      ∀ line ∈ splitlinesKeepends text.toList, hasAnchor line = false := by
  have htext : text = String.ofList (splitlinesKeepends text.toList).flatten := by
    rw [flatten_splitlinesKeepends, String.ofList_toList]
  constructor
  · intro heq line hline
    replace heq := congrArg String.toList heq
    rw [stripHashlineReadOutput_eq, String.toList_ofList] at heq
    replace heq := heq.trans (flatten_splitlinesKeepends text.toList).symm
    by_contra hanchor
    rw [Bool.not_eq_false] at hanchor
    cases search with
    | false =>
      have hsame := (stripLine_flatMap_iff _).mp heq line hline
      have hlt := length_stripLine_lt hanchor
      rw [hsame] at hlt
      exact Nat.lt_irrefl _ hlt
    | true =>
      have hsame := flatMap_eq_flatten_of_clash (fun l _ => ?_) heq line hline
      · obtain ⟨p, c, c', t, t', hne, hp, hf⟩ := stripLine_clash hanchor
        rw [hf, hp, append_right_inj, List.cons.injEq] at hsame
        exact hne hsame.1.symm
      · cases hl : hasAnchor l with
        | true => exact .inr (stripLine_clash hl)
        | false => exact .inl (stripLine_of_not_hasAnchor hl true)
  · intro hall
    rw [stripHashlineReadOutput_eq]
    conv_rhs => rw [htext]
    rw [← flatMap_id]
    refine congrArg String.ofList (flatMap_congr fun l hl => ?_)
    exact stripLine_of_not_hasAnchor (hall l hl) search

/-! ### Tagged lines are stripped -/

theorem stripLine_eq_self_iff (line : List Char) :
    stripLine false line = line ↔ hasAnchor line = false := by
  constructor
  · intro heq
    by_contra hanchor
    have hlt := length_stripLine_lt (Bool.not_eq_false _ ▸ hanchor)
    rw [heq] at hlt
    exact Nat.lt_irrefl _ hlt
  · exact fun h => stripLine_of_not_hasAnchor h false

/-- A line feed at the end of a line stays there. -/
theorem stripLine_lineFeed (h : '\n' ∉ line) (search : Bool) :
    stripLine search (line ++ ['\n']) = stripLine search line ++ ['\n'] := by
  have hlast : line.getLast? ≠ some '\n' := fun hl => h (mem_of_getLast? hl)
  have hbody : lineBody (line ++ ['\n']) = lineBody line := by
    rw [lineBody, lineBody, if_pos (getLast?_concat ..), if_neg hlast, dropLast_concat]
  rw [stripLine, stripLine, hbody, if_pos (getLast?_concat ..), if_neg hlast]
  cases matchAnchor (lineBody line) with
  | none => rfl
  | some found =>
    obtain ⟨indent, lineNumber, content⟩ := found
    dsimp only
    split
    · rw [append_nil]
    · rw [append_nil]

/-- The text with every line stripped. -/
def stripText (search : Bool) (text : List Char) : List Char :=
  (splitlinesKeepends text).flatMap (stripLine search)

theorem stripText_lineFeed (hr : '\r' ∉ line) (hn : '\n' ∉ line) (search : Bool)
    (rest : List Char) :
    stripText search (line ++ '\n' :: rest) =
      stripText search line ++ '\n' :: stripText search rest := by
  have hfrom : ∀ cs before : List Char, '\r' ∉ cs → '\n' ∉ cs → '\n' ∉ before →
      ((linesFrom before (cs ++ '\n' :: rest)).map fun l => l.1 ++ l.2).flatMap (stripLine search) =
        ((linesFrom before cs).map fun l => l.1 ++ l.2).flatMap (stripLine search) ++
          '\n' :: stripText search rest := by
    intro cs
    induction cs with
    | nil =>
      intro before _ _ hbefore
      have hone : ((linesFrom before []).map fun l => l.1 ++ l.2).flatMap (stripLine search) =
          stripLine search before := by
        rw [linesFrom]
        split
        · next hnil =>
          rw [List.isEmpty_iff.mp hnil]
          cases search <;> rfl
        · rw [map_singleton, append_nil, flatMap_singleton]
      rw [hone, nil_append, Text.linesFrom_lineFeed, map_cons, flatMap_cons,
        stripLine_lineFeed hbefore, append_assoc]
      rfl
    | cons c cs ih =>
      intro before hr hn hbefore
      have hc : c ≠ '\r' := fun he => hr (he ▸ mem_cons_self)
      have hcn : c ≠ '\n' := fun he => hn (he ▸ mem_cons_self)
      have ih := fun before => ih before (fun h => hr (mem_cons_of_mem _ h))
        (fun h => hn (mem_cons_of_mem _ h))
      rw [cons_append, Text.linesFrom_cons _ fun _ he => absurd he hc,
        Text.linesFrom_cons _ fun _ he => absurd he hc]
      split
      · rw [map_cons, flatMap_cons, ih [] not_mem_nil, map_cons, flatMap_cons, append_assoc]
      · refine ih (before ++ [c]) fun hmem => ?_
        rcases mem_append.mp hmem with hmem | hmem
        · exact hbefore hmem
        · exact hcn (mem_singleton.mp hmem).symm
  exact hfrom line [] hr hn not_mem_nil

theorem stripText_intercalate {lines : List (List Char)} (search : Bool)
    (h : ∀ line ∈ lines, '\r' ∉ line ∧ '\n' ∉ line) :
    stripText search (['\n'].intercalate lines) =
      ['\n'].intercalate (lines.map (stripText search)) := by
  induction lines with
  | nil => rfl
  | cons line lines ih =>
    have ih := ih fun l hl => h l (mem_cons_of_mem _ hl)
    obtain ⟨hr, hn⟩ := h line mem_cons_self
    cases lines with
    | nil => simp
    | cons next lines =>
      rw [intercalate_cons_cons, append_assoc, singleton_append,
        stripText_lineFeed hr hn, ih, map_cons, map_cons, map_cons,
        intercalate_cons_cons, append_assoc]
      rfl

theorem linesFrom_before {before : List Char} (hne : before ≠ []) (cs : List Char) :
    ∀ line, (linesFrom (before ++ line) cs).map (fun l => l.1 ++ l.2) =
      (before ++ ((linesFrom line cs).map fun l => l.1 ++ l.2).headD []) ::
        ((linesFrom line cs).map fun l => l.1 ++ l.2).tail := by
  intro line
  fun_induction linesFrom line cs with
  | case1 line hnil =>
    rw [List.isEmpty_iff.mp hnil, linesFrom, append_nil, if_neg (by simpa using hne)]
    rfl
  | case2 line hfull =>
    rw [linesFrom, if_neg (by simp [hne])]
    simp
  | case3 line cs ih => simp [linesFrom]
  | case4 line c cs hcr hbreak ih => simp [Text.linesFrom_cons _ hcr, hbreak]
  | case5 line c cs hcr hbreak ih =>
    rw [Text.linesFrom_cons _ hcr, if_neg hbreak, append_assoc]
    exact ih

theorem matchAnchor_tag {a b : Char} (n : Nat) (ha : a ∈ alphabet) (hb : b ∈ alphabet)
    (content : List Char) :
    matchAnchor (Nat.toDigits 10 n ++ ['#', a, b, ':'] ++ content) =
      some ([], Nat.toDigits 10 n, content) := by
  obtain ⟨d, ds, hd, hdigit⟩ := toDigits_cons n
  obtain ⟨-, hspace, -, hmark⟩ := isDecimal_of_isDigit hdigit
  obtain ⟨htake, hdrop⟩ := @scan_toDigits n ('#' :: a :: b :: ':' :: content) fun c hc => by
    cases hc
    decide
  rw [append_assoc]
  generalize hT : Nat.toDigits 10 n ++ (['#', a, b, ':'] ++ content) = T
  rw [show Nat.toDigits 10 n ++ '#' :: a :: b :: ':' :: content = T from hT] at htake hdrop
  rw [hd, cons_append] at hT
  have hspaces : T.takeWhile isSpace = [] ∧ T.dropWhile isSpace = T := by
    rw [← hT, takeWhile_cons, dropWhile_cons, hspace]
    exact ⟨rfl, rfl⟩
  have hpre : ">>>".toList.isPrefixOf T = false := by
    cases hp : ">>>".toList.isPrefixOf T with
    | false => rfl
    | true =>
      obtain ⟨t, ht⟩ := isPrefixOf_iff_prefix.mp hp
      rw [← hT] at ht
      exact absurd (List.cons.inj ht).1.symm hmark
  unfold matchAnchor
  dsimp only
  rw [hspaces.1, hspaces.2, hpre, if_neg (by nofun), htake, hdrop, hd]
  have hab : (alphabet.contains a && alphabet.contains b) = true := by
    rw [contains_iff_mem.mpr ha, contains_iff_mem.mpr hb, Bool.and_self]
  exact if_pos hab

/-- A tagged line without its tag: the first of its pieces is clean, the others are stripped. -/
theorem stripText_taggedLine (n : Nat) {line : String} (hn : '\n' ∉ line.toList) :
    stripText false (taggedLine n line).toList =
      (splitlinesKeepends line.toList).headD [] ++
        (splitlinesKeepends line.toList).tail.flatMap (stripLine false) := by
  obtain ⟨a, b, ha, hb, htag⟩ := tag_toList n line
  have hne : Nat.toDigits 10 n ++ ['#', a, b, ':'] ≠ [] := by simp
  rw [taggedLine, String.toList_append, htag, stripText, splitlinesKeepends,
    Text.linesFrom_append (tag_not_break n ha hb), nil_append]
  have hbefore := linesFrom_before hne line.toList []
  rw [append_nil] at hbefore
  rw [hbefore, flatMap_cons]
  have hlast : '\n' ∉ (splitlinesKeepends line.toList).headD [] := by
    intro hmem
    refine hn ?_
    rw [← flatten_splitlinesKeepends line.toList]
    cases hpieces : splitlinesKeepends line.toList with
    | nil =>
      rw [hpieces] at hmem
      cases hmem
    | cons piece pieces =>
      rw [hpieces] at hmem
      exact mem_append_left _ hmem
  have hstrip : ∀ piece : List Char, '\n' ∉ piece →
      stripLine false (Nat.toDigits 10 n ++ ['#', a, b, ':'] ++ piece) = piece := by
    intro piece hpiece
    have hend : (Nat.toDigits 10 n ++ ['#', a, b, ':'] ++ piece).getLast? ≠ some '\n' := by
      intro hl
      rcases mem_append.mp (mem_of_getLast? hl) with hm | hm
      · exact absurd (tag_not_break n ha hb _ hm) (by decide)
      · exact hpiece hm
    rw [stripLine, lineBody, if_neg hend, matchAnchor_tag n ha hb]
    dsimp only
    rw [if_neg Bool.false_ne_true, if_neg hend]
    exact append_nil piece
  exact congrArg (· ++ _) (hstrip _ hlast)

theorem stripText_taggedLine_iff (n : Nat) {line : String} (hn : '\n' ∉ line.toList) :
    stripText false (taggedLine n line).toList = line.toList ↔
      ∀ piece ∈ (splitlinesKeepends line.toList).tail, hasAnchor piece = false := by
  have hline : (splitlinesKeepends line.toList).headD [] ++
      (splitlinesKeepends line.toList).tail.flatten = line.toList := by
    refine Eq.trans ?_ (flatten_splitlinesKeepends line.toList)
    cases splitlinesKeepends line.toList with
    | nil => rfl
    | cons piece pieces => rfl
  rw [stripText_taggedLine n hn]
  refine (Eq.congr_right hline.symm).trans ?_
  rw [append_right_inj, stripLine_flatMap_iff]
  exact forall₂_congr fun piece _ => stripLine_eq_self_iff piece

theorem formatHashLines_eq (content : String) :
    formatHashLines content 1 = joinLines ((numberedLines content 1).map fun e =>
      taggedLine e.1 e.2) := rfl

/-- The texts of two lists of lines, the lines of one nowhere longer. -/
theorem joinLines_eq_iff {α : Type} {f g : α → List Char} {l : List α} (hne : l ≠ [])
    (h : ∀ x ∈ l, (f x).length ≤ (g x).length) :
    ['\n'].intercalate (l.map f) = ['\n'].intercalate (l.map g) ↔ ∀ x ∈ l, f x = g x := by
  have hunlines : ∀ k : α → List Char, ['\n'].intercalate (l.map k) ++ ['\n'] =
      l.flatMap fun x => k x ++ ['\n'] := by
    intro k
    rw [Text.intercalate_lineFeed (by simpa using hne), unlines, flatMap_map]
  rw [← append_left_inj ['\n'], hunlines f, hunlines g, flatMap_eq_flatMap_iff]
  · exact forall₂_congr fun x _ => append_left_inj _
  · intro x hx
    rw [length_append, length_append]
    exact Nat.add_le_add_right (h x hx) 1

theorem length_stripText_taggedLine (n : Nat) {line : String} (hn : '\n' ∉ line.toList) :
    (stripText false (taggedLine n line).toList).length ≤ line.toList.length := by
  have hline := congrArg List.length (flatten_splitlinesKeepends line.toList)
  rw [stripText_taggedLine n hn, ← hline]
  have hle : ∀ pieces : List (List Char),
      (pieces.flatMap (stripLine false)).length ≤ pieces.flatten.length := by
    intro pieces
    induction pieces with
    | nil => exact Nat.le_refl 0
    | cons piece pieces ih =>
      have hpiece := length_stripLine_le piece
      rw [flatMap_cons, flatten_cons, length_append, length_append]
      omega
  cases splitlinesKeepends line.toList with
  | nil => exact Nat.le_refl 0
  | cons piece pieces =>
    have hpieces := hle pieces
    rw [headD_cons, tail_cons, flatten_cons, length_append, length_append]
    omega

/-- The tags of a file are stripped exactly where no line of it has a further line, as `splitlines`
has them, of the shape of tagged output. -/
theorem strip_tagged_iff (content : String) :
    stripHashlineReadOutput (formatHashLines content 1) false = joinLines (logicalLines content) ↔
      ∀ line ∈ logicalLines content, ∀ piece ∈ (splitlinesKeepends line.toList).tail,
        hasAnchor piece = false := by
  have hclean : ∀ e ∈ numberedLines content 1, '\r' ∉ e.2.toList ∧ '\n' ∉ e.2.toList :=
    fun e he => logicalLines_clean (mem_map_of_mem he)
  have htagged : ∀ line ∈ (numberedLines content 1).map fun e => (taggedLine e.1 e.2).toList,
      '\r' ∉ line ∧ '\n' ∉ line := by
    intro line hline
    obtain ⟨e, he, rfl⟩ := mem_map.mp hline
    obtain ⟨a, b, ha, hb, htag⟩ := tag_toList e.1 e.2
    have hbreak := tag_not_break e.1 ha hb
    rw [taggedLine, String.toList_append, htag]
    refine ⟨fun hmem => ?_, fun hmem => ?_⟩
    · rcases mem_append.mp hmem with hmem | hmem
      · exact absurd (hbreak _ hmem) (by decide)
      · exact (hclean e he).1 hmem
    · rcases mem_append.mp hmem with hmem | hmem
      · exact absurd (hbreak _ hmem) (by decide)
      · exact (hclean e he).2 hmem
  have hnumbered : numberedLines content 1 ≠ [] := fun hnil =>
    logicalLines_ne_nil content (by rw [logicalLines, hnil]; rfl)
  have hleft : stripHashlineReadOutput (formatHashLines content 1) false =
      String.ofList (['\n'].intercalate ((numberedLines content 1).map fun e =>
        stripText false (taggedLine e.1 e.2).toList)) := by
    rw [stripHashlineReadOutput_eq, formatHashLines_eq, joinLines, String.toList_ofList, map_map]
    refine congrArg String.ofList ((stripText_intercalate false htagged).trans ?_)
    rw [map_map, Function.comp_def]
  have hright : joinLines (logicalLines content) =
      String.ofList (['\n'].intercalate ((numberedLines content 1).map fun e => e.2.toList)) := by
    rw [joinLines, logicalLines, map_map]
    rfl
  rw [hleft, hright, logicalLines, forall_mem_map]
  have hlists : ∀ a b : List Char, String.ofList a = String.ofList b ↔ a = b := fun a b =>
    ⟨fun h => by simpa using congrArg String.toList h, congrArg String.ofList⟩
  rw [hlists, joinLines_eq_iff hnumbered fun e he =>
    length_stripText_taggedLine e.1 (hclean e he).2]
  exact forall₂_congr fun e he => stripText_taggedLine_iff e.1 (hclean e he).2

/-- **Pasted output.**  Tagged output without its tags is the file's lines, and a text is left
alone, exactly where no line that `splitlines` finds beyond a tag has the shape of tagged output. -/
theorem strip_formatHashLines_iff (content text : String) (search : Bool) :
    (stripHashlineReadOutput (formatHashLines content 1) false =
        joinLines (logicalLines content) ↔
      ∀ line ∈ logicalLines content, ∀ piece ∈ (splitlinesKeepends line.toList).tail,
        hasAnchor piece = false) ∧
    (stripHashlineReadOutput text search = text ↔
      ∀ line ∈ splitlinesKeepends text.toList, hasAnchor line = false) :=
  ⟨strip_tagged_iff content, strip_eq_self_iff text search⟩

/-- A form feed in a line, and what looks like a tag behind it. -/
def formFeed : String := "a\x0c7#ZZ:b"

/-- **More than the tags is taken away.** -/
theorem strip_formFeed :
    logicalLines formFeed = [formFeed] ∧ formatHashLines formFeed 1 = "1#SR:" ++ formFeed ∧
      stripHashlineReadOutput (formatHashLines formFeed 1) false =
        "a\x0cb" ∧
      (∀ line ∈ splitLines formFeed, hasAnchor line.toList = false) ∧
      stripHashlineReadOutput formFeed false ≠ formFeed := by
  decide

end KolegaCode.Hashline
