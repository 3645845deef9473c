import KolegaCode.BrowserExtension.Patterns
import KolegaCode.Hashline.Tagged

/-!
# Browser extension — the grammar of the patterns

A pattern is a sequence of items: an anchor, or an atom with at most one quantifier behind it.  The
scanner accepts the sentences of the grammar over the digits of all scripts (`scan_eq_ok_iff`);
over ASCII digits they are the same where no other digit stands in the place of one
(`sentence_ascii_iff`).
-/

namespace KolegaCode.BrowserExtension

open List
open Text (isDecimal)
open Hashline (isSpace isDecimal_of_isDigit)

/-- The digits of the repetition bounds, and those that `\0` may not stand before. -/
structure Digits where
  decimal : Char → Bool
  digit : Char → Bool

/-- The digits `\d` and `str.isdigit` take. -/
def Digits.python : Digits := ⟨isDecimal, isDigit⟩

def Digits.ascii : Digits := ⟨Char.isDigit, Char.isDigit⟩

/-! ### Items -/

/-- A character that stands for itself nowhere, or only in a class. -/
def isSpecial (c : Char) : Bool := c ∈ "\\[]\x7b\x7d()|*+?^$".toList

section

variable (digits : Digits) (unicodeMode : Bool)

/-- An escape at the front of a text, and the rest. -/
inductive Escape (inClass : Bool) : List Char → List Char → Prop where
  | hex {code rest : List Char} : code.length = 2 → (∀ d ∈ code, isHexDigit d = true) →
      Escape inClass ('\\' :: 'x' :: (code ++ rest)) rest
  | unicode {code rest : List Char} : code.length = 4 → (∀ d ∈ code, isHexDigit d = true) →
      Escape inClass ('\\' :: 'u' :: (code ++ rest)) rest
  | null {rest : List Char} : (∀ d more, rest = d :: more → digits.digit d = false) →
      Escape inClass ('\\' :: '0' :: rest) rest
  | other {c : Char} {rest : List Char} : isReference c = false → c ∉ ['x', 'u', '0'] →
      (unicodeMode = true →
        isSimpleEscape c = true ∨ isSyntaxEscape c = true ∨ c = '-' ∧ inClass = true) →
      Escape inClass ('\\' :: c :: rest) rest

/-- A class behind its opening bracket, and the rest: no bracket opens in it. -/
inductive ClassBody : List Char → List Char → Prop where
  | closed {rest : List Char} : ClassBody (']' :: rest) rest
  | escape {text more rest : List Char} : Escape digits unicodeMode true text more →
      ClassBody more rest → ClassBody text rest
  | char {c : Char} {text rest : List Char} : c ≠ '\\' → c ≠ '[' → c ≠ ']' →
      ClassBody text rest → ClassBody (c :: text) rest

/-- A literal or the dot, an escape, or a class. -/
inductive Atom : List Char → List Char → Prop where
  | char {c : Char} {rest : List Char} : isSpecial c = false → Atom (c :: rest) rest
  | escape {text rest : List Char} : Escape digits unicodeMode false text rest → Atom text rest
  | cls {text rest : List Char} : ClassBody digits unicodeMode text rest → Atom ('[' :: text) rest

/-- One to four digits. -/
structure Count (count : List Char) : Prop where
  pos : 1 ≤ count.length
  le : count.length ≤ 4
  digits : ∀ d ∈ count, digits.decimal d = true

inductive Quantifier : List Char → List Char → Prop where
  | short {c : Char} {rest : List Char} : c ∈ ['?', '*', '+'] → Quantifier (c :: rest) rest
  | exactly {n rest : List Char} : Count digits n → intOf n ≤ MAX_PATTERN_REPETITION →
      Quantifier ('{' :: (n ++ '}' :: rest)) rest
  | atLeast {n rest : List Char} : Count digits n → intOf n ≤ MAX_PATTERN_REPETITION →
      Quantifier ('{' :: (n ++ ',' :: '}' :: rest)) rest
  | between {n m rest : List Char} : Count digits n → Count digits m → intOf n ≤ intOf m →
      intOf m ≤ MAX_PATTERN_REPETITION → Quantifier ('{' :: (n ++ ',' :: (m ++ '}' :: rest))) rest

/-- A sequence of items with this many quantifiers. -/
inductive Items : Nat → List Char → Prop where
  | nil : Items 0 []
  | anchor {n : Nat} {c : Char} {rest : List Char} : c ∈ ['^', '$'] → Items n rest →
      Items n (c :: rest)
  | atom {n : Nat} {text rest : List Char} : Atom digits unicodeMode text rest → Items n rest →
      Items n text
  | quantified {n : Nat} {text more rest : List Char} : Atom digits unicodeMode text more →
      Quantifier digits more rest → Items n rest → Items (n + 1) text

end

/-- A pattern in slashes with its flags: letters, and no line feed between the slashes. -/
structure Literal (expression source flags : List Char) : Prop where
  eq : expression = '/' :: (source ++ '/' :: flags)
  flags : ∀ c ∈ flags, isLowercase c = true
  source : '\n' ∉ source

/-- A pattern, alone or in slashes with distinct flags, with at most four quantifiers. -/
inductive Sentence (digits : Digits) (expression : List Char) : Prop where
  | plain {n : Nat} : (∀ source flags, ¬ Literal expression source flags) →
      Items digits false n expression → n ≤ MAX_PATTERN_QUANTIFIERS → Sentence digits expression
  | literal {n : Nat} {source flags : List Char} : Literal expression source flags →
      (∀ c ∈ flags, c ∈ ['i', 'm', 'u']) → flags.Nodup → Items digits ('u' ∈ flags) n source →
      n ≤ MAX_PATTERN_QUANTIFIERS → Sentence digits expression

/-! ### Escapes and classes -/

section

variable {name : String} {unicodeMode inClass : Bool} {digits : Digits}

theorem Escape.head {text rest : List Char} (h : Escape digits unicodeMode inClass text rest) :
    ∃ more, text = '\\' :: more := by
  cases h <;> exact ⟨_, rfl⟩

variable {p : Char → Bool} {c : Char} {expression flags : List Char}

theorem take_append_of_all {n : Nat} {source rest : List Char} :
    ((source.take n).length = n ∧ (source.take n).all p = true ∧ source.drop n = rest) ↔
      ∃ code : List Char, code.length = n ∧ (∀ d ∈ code, p d = true) ∧ source = code ++ rest := by
  constructor
  · rintro ⟨hlength, hall, rfl⟩
    exact ⟨source.take n, hlength, all_eq_true.mp hall, (take_append_drop n source).symm⟩
  · rintro ⟨code, rfl, hall, rfl⟩
    rw [List.take_left, drop_left]
    exact ⟨rfl, all_eq_true.mpr hall, rfl⟩

theorem escape_of_readEscape {source rest : List Char}
    (h : readEscape name unicodeMode inClass source = .ok rest) :
    Escape .python unicodeMode inClass ('\\' :: source) rest := by
  cases source with
  | nil => cases h
  | cons c source =>
    rw [readEscape] at h
    dsimp only at h
    split at h
    · cases h
    · next hrefused =>
      obtain ⟨hreference, hnull⟩ := not_or.mp hrefused
      split at h
      · next hx =>
        split at h
        · cases h
        · next hdigits =>
          obtain ⟨hlength, hall⟩ := not_or.mp hdigits
          cases h
          obtain ⟨code, hcode, hhex, heq⟩ := take_append_of_all.mp
            ⟨not_not.mp hlength, (Bool.not_eq_false _).mp hall, rfl⟩
          have hescape : Escape .python unicodeMode inClass
            ('\\' :: 'x' :: (code ++ source.drop 2)) (source.drop 2) := .hex hcode hhex
          rwa [← heq, ← hx] at hescape
      · next hx =>
        split at h
        · next hu =>
          split at h
          · cases h
          · next hdigits =>
            obtain ⟨hlength, hall⟩ := not_or.mp hdigits
            cases h
            obtain ⟨code, hcode, hhex, heq⟩ := take_append_of_all.mp
              ⟨not_not.mp hlength, (Bool.not_eq_false _).mp hall, rfl⟩
            have hescape : Escape .python unicodeMode inClass
              ('\\' :: 'u' :: (code ++ source.drop 4)) (source.drop 4) := .unicode hcode hhex
            rwa [← heq, ← hu] at hescape
        · next hu =>
          split at h
          · cases h
          · next hpermitted =>
            cases h
            by_cases hzero : c = '0'
            · rw [hzero]
              refine .null fun d more hmore => ?_
              have hnone := not_and.mp hnull hzero
              rw [hmore] at hnone
              exact (Bool.not_eq_true _).mp hnone
            · refine .other ((Bool.not_eq_true _).mp hreference) (by simp [hx, hu, hzero]) ?_
              intro hmode
              by_contra hnone
              simp only [not_or, Bool.not_eq_true] at hnone
              exact hpermitted ⟨hmode, hnone.1, hnone.2.1, hnone.2.2⟩

theorem readEscape_of_escape (name : String) {source rest : List Char}
    (h : Escape .python unicodeMode inClass ('\\' :: source) rest) :
    readEscape name unicodeMode inClass source = .ok rest := by
  cases h with
  | @hex code _ hlength hhex =>
    have hcode : ((code ++ rest).take 2).length = 2 ∧
        ((code ++ rest).take 2).all isHexDigit = true ∧ (code ++ rest).drop 2 = rest :=
      take_append_of_all.mpr ⟨code, hlength, hhex, rfl⟩
    rw [readEscape, if_neg (by simp [isReference]), if_pos rfl]
    rw [if_neg (by simp only [hcode.1, hcode.2.1]; decide), hcode.2.2]
  | @unicode code _ hlength hhex =>
    have hcode : ((code ++ rest).take 4).length = 4 ∧
        ((code ++ rest).take 4).all isHexDigit = true ∧ (code ++ rest).drop 4 = rest :=
      take_append_of_all.mpr ⟨code, hlength, hhex, rfl⟩
    rw [readEscape, if_neg (by simp [isReference]), if_neg (by decide), if_pos rfl]
    rw [if_neg (by simp only [hcode.1, hcode.2.1]; decide), hcode.2.2]
  | null hnull =>
    have hdigit : rest.head?.any isDigit = false := by
      cases rest with
      | nil => rfl
      | cons d more => exact hnull d more rfl
    simp [readEscape, hdigit, isReference, isSimpleEscape]
  | @other c _ hreference hother hpermitted =>
    simp only [mem_cons, not_mem_nil, or_false, not_or] at hother
    obtain ⟨hx, hu, hzero⟩ := hother
    rw [readEscape, if_neg (by simp [hreference, hzero]), if_neg hx, if_neg hu, if_neg]
    rintro ⟨hmode, hsimple, hpunctuation, hminus⟩
    rcases hpermitted hmode with h | h | h
    · rw [hsimple] at h
      cases h
    · rw [hpunctuation] at h
      cases h
    · exact hminus h

theorem ClassBody.ne_nil {text rest : List Char} (h : ClassBody digits unicodeMode text rest) :
    text ≠ [] := by
  cases h with
  | closed => exact cons_ne_nil _ _
  | escape hescape _ =>
    obtain ⟨more, rfl⟩ := hescape.head
    exact cons_ne_nil _ _
  | char => exact cons_ne_nil _ _

theorem classBody_cons_iff {text rest : List Char} :
    ClassBody digits unicodeMode (c :: text) rest ↔
      c = ']' ∧ rest = text ∨
        (∃ more, Escape digits unicodeMode true (c :: text) more ∧
          ClassBody digits unicodeMode more rest) ∨
        (c ≠ '\\' ∧ c ≠ '[' ∧ c ≠ ']') ∧ ClassBody digits unicodeMode text rest := by
  constructor
  · intro h
    cases h with
    | closed => exact .inl ⟨rfl, rfl⟩
    | escape hescape hbody => exact .inr (.inl ⟨_, hescape, hbody⟩)
    | char hb ho hc hbody => exact .inr (.inr ⟨⟨hb, ho, hc⟩, hbody⟩)
  · rintro (⟨rfl, rfl⟩ | ⟨more, hescape, hbody⟩ | ⟨⟨hb, ho, hc⟩, hbody⟩)
    · exact .closed
    · exact .escape hescape hbody
    · exact .char hb ho hc hbody

/-- **The scanner reads classes.** -/
theorem scanClass_eq_ok_iff {source rest : List Char} :
    scanClass name unicodeMode source = .ok rest ↔ ClassBody .python unicodeMode source rest := by
  have hbackslash : ∀ {more text : List Char} {c : Char}, c ≠ '\\' →
      ¬ Escape .python unicodeMode true (c :: text) more := by
    intro more text c hc h
    obtain ⟨_, heq⟩ := h.head
    exact hc (List.cons.inj heq).1
  fun_induction scanClass name unicodeMode source with
  | case1 => exact ⟨fun h => (by cases h), fun h => absurd rfl h.ne_nil⟩
  | case2 source e hread =>
    rw [classBody_cons_iff]
    refine ⟨fun h => (by cases h), ?_⟩
    rintro (⟨h, -⟩ | ⟨more, hescape, -⟩ | ⟨⟨h, -⟩, -⟩)
    · exact absurd h (by decide)
    · rw [readEscape_of_escape name hescape] at hread
      cases hread
    · exact absurd rfl h
  | case3 source more hread ih =>
    refine ih.trans ?_
    rw [classBody_cons_iff]
    constructor
    · exact fun h => .inr (.inl ⟨more, escape_of_readEscape hread, h⟩)
    · rintro (⟨h, -⟩ | ⟨more', hescape, hbody⟩ | ⟨⟨h, -⟩, -⟩)
      · exact absurd h (by decide)
      · rw [readEscape_of_escape name hescape] at hread
        cases hread
        exact hbody
      · exact absurd rfl h
  | case4 source =>
    rw [classBody_cons_iff]
    refine ⟨fun h => (by cases h), ?_⟩
    rintro (⟨h, -⟩ | ⟨more, hescape, -⟩ | ⟨⟨-, h, -⟩, -⟩)
    · exact absurd h (by decide)
    · exact absurd hescape (hbackslash (by decide))
    · exact absurd rfl h
  | case5 source =>
    rw [classBody_cons_iff]
    constructor
    · intro h
      cases h
      exact .inl ⟨rfl, rfl⟩
    · rintro (⟨-, rfl⟩ | ⟨more, hescape, -⟩ | ⟨⟨-, -, h⟩, -⟩)
      · rfl
      · exact absurd hescape (hbackslash (by decide))
      · exact absurd rfl h
  | case6 inner source hb ho hc ih =>
    refine ih.trans ?_
    rw [classBody_cons_iff]
    constructor
    · exact fun h => .inr (.inr ⟨⟨hb, ho, hc⟩, h⟩)
    · rintro (⟨h, -⟩ | ⟨more, hescape, -⟩ | ⟨-, hbody⟩)
      · exact absurd h hc
      · exact absurd hescape (hbackslash hb)
      · exact hbody

/-! ### Bounds -/

/-- The shapes of a bound between its braces. -/
def BoundOk (bound : List Char) : Prop :=
  (∃ n, Count .python n ∧ intOf n ≤ MAX_PATTERN_REPETITION ∧ (bound = n ∨ bound = n ++ [','])) ∨
    ∃ n m, Count .python n ∧ Count .python m ∧ intOf n ≤ intOf m ∧
      intOf m ≤ MAX_PATTERN_REPETITION ∧ bound = n ++ ',' :: m

theorem takeWhile_append_cons {n : List Char} (rest : List Char) (hn : ∀ d ∈ n, p d = true)
    (hc : p c = false) :
    (n ++ c :: rest).takeWhile p = n ∧ (n ++ c :: rest).dropWhile p = c :: rest := by
  rw [takeWhile_append_of_pos hn, dropWhile_append_of_pos hn,
    takeWhile_cons_of_neg (by simp [hc]), dropWhile_cons_of_neg (by simp [hc]), append_nil]
  exact ⟨rfl, rfl⟩

/-- What stands behind the characters other than `c` starts with it. -/
theorem eq_of_dropWhile {x : Char} {l more : List Char}
    (h : l.dropWhile (fun d => decide (d ≠ c)) = x :: more) : x = c := by
  have hne : l.dropWhile (fun d => decide (d ≠ c)) ≠ [] := by
    rw [h]
    exact cons_ne_nil _ _
  have hhead := head_dropWhile_not (fun d => decide (d ≠ c)) hne
  simp only [h, head_cons] at hhead
  simpa using hhead

theorem Count.ne {n : List Char} (h : Count .python n) (hc : isDecimal c = false) :
    ∀ d ∈ n, decide (d ≠ c) = true := by
  intro d hd
  refine decide_eq_true fun heq => ?_
  have hdecimal : isDecimal d = true := h.digits d hd
  rw [heq, hc] at hdecimal
  cases hdecimal

theorem isDecimal_comma : isDecimal ',' = false := by decide

theorem isDecimal_brace : isDecimal '}' = false := by decide

/-- **The bounds the expression matches.** -/
theorem matchBound_eq_some_iff {bound n : List Char} {m : Option (List Char)} :
    matchBound bound = some (n, m) ↔
      Count .python n ∧
        match m with
        | none => bound = n
        | some m => bound = n ++ ',' :: m ∧ m.length ≤ 4 ∧ ∀ d ∈ m, isDecimal d = true := by
  have hsplit := takeWhile_append_dropWhile (p := fun c => decide (c ≠ ',')) (l := bound)
  constructor
  · intro h
    rw [matchBound] at h
    split at h
    · next hminimum =>
      have hcount : Count .python (bound.takeWhile fun c => decide (c ≠ ',')) :=
        ⟨hminimum.1, hminimum.2.1, all_eq_true.mp hminimum.2.2⟩
      split at h
      · next hdrop =>
        cases h
        rw [hdrop, append_nil] at hsplit
        exact ⟨hcount, hsplit.symm⟩
      · next comma maximum hdrop =>
        split at h
        · next hmaximum =>
          cases h
          rw [hdrop, eq_of_dropWhile hdrop] at hsplit
          exact ⟨hcount, hsplit.symm, hmaximum.1, all_eq_true.mp hmaximum.2⟩
        · cases h
    · cases h
  · rintro ⟨hcount, hm⟩
    have hne := hcount.ne isDecimal_comma
    cases m with
    | none =>
      subst hm
      have htake : bound.takeWhile (fun c => decide (c ≠ ',')) = bound :=
        takeWhile_eq_self_iff.mpr hne
      have hdrop : bound.dropWhile (fun c => decide (c ≠ ',')) = [] :=
        dropWhile_eq_nil_iff.mpr hne
      rw [matchBound, htake, hdrop]
      exact if_pos ⟨hcount.pos, hcount.le, all_eq_true.mpr hcount.digits⟩
    | some m =>
      obtain ⟨rfl, hlength, hdigits⟩ := hm
      obtain ⟨htake, hdrop⟩ := takeWhile_append_cons m hne
        (show decide (',' ≠ ',') = false from rfl)
      rw [matchBound, htake, hdrop]
      dsimp only
      rw [if_pos ⟨hcount.pos, hcount.le, all_eq_true.mpr hcount.digits⟩,
        if_pos ⟨hlength, all_eq_true.mpr hdigits⟩]

theorem checkBound_eq_ok_iff {quantifiable : Bool} {bound : List Char} :
    checkBound name quantifiable bound = .ok () ↔ quantifiable = true ∧ BoundOk bound := by
  rw [checkBound]
  constructor
  · intro h
    split at h
    · cases h
    · next n m hmatch =>
      obtain ⟨hcount, hm⟩ := matchBound_eq_some_iff.mp hmatch
      split at h
      · cases h
      · next hquantifiable =>
        refine ⟨(Bool.not_eq_false _).mp hquantifiable, ?_⟩
        dsimp only at h
        split at h
        · cases h
        · next hordered =>
          split at h
          · cases h
          · next hle =>
            have hle := Nat.max_le.mp (Nat.not_lt.mp hle)
            match m, hm, hordered, hle with
            | none, hm, _, hle => exact .inl ⟨n, hcount, hle.1, .inl hm⟩
            | some [], hm, _, hle => exact .inl ⟨n, hcount, hle.1, .inr hm.1⟩
            | some (d :: m), hm, hordered, hle =>
              refine .inr ⟨n, d :: m, hcount, ⟨Nat.succ_pos _, hm.2.1, hm.2.2⟩, ?_, hle.2, hm.1⟩
              simpa [maximumOf] using hordered
  · rintro ⟨rfl, ⟨n, hcount, hle, rfl | rfl⟩ | ⟨n, m, hcount, hcount', hnm, hle, rfl⟩⟩
    · rw [(matchBound_eq_some_iff (m := none)).mpr ⟨hcount, rfl⟩]
      dsimp only
      rw [if_neg (by decide), if_neg (by simp [maximumOf]), if_neg]
      simp only [maximumOf, Option.getD_some, Nat.max_self]
      exact Nat.not_lt.mpr hle
    · rw [(matchBound_eq_some_iff (m := some [])).mpr ⟨hcount, rfl, Nat.zero_le _, by simp⟩]
      dsimp only
      rw [if_neg (by decide), if_neg (by simp [maximumOf]), if_neg]
      simp only [maximumOf, Option.getD_none, Nat.max_zero]
      exact Nat.not_lt.mpr hle
    · have hm : maximumOf (intOf n) (some m) = some (intOf m) := by
        cases m with
        | nil => exact absurd hcount'.pos (Nat.not_succ_le_zero _)
        | cons d m => rfl
      rw [(matchBound_eq_some_iff (m := some m)).mpr ⟨hcount, rfl, hcount'.le, hcount'.digits⟩]
      dsimp only
      rw [hm, if_neg (by decide), if_neg (by simpa using hnm), if_neg]
      exact Nat.not_lt.mpr (Nat.max_le.mpr ⟨hnm.trans hle, hle⟩)

theorem quantifier_brace_iff {source rest : List Char} :
    Quantifier .python ('{' :: source) rest ↔
      '}' ∈ source ∧ BoundOk (source.takeWhile fun c => decide (c ≠ '}')) ∧
        rest = (source.dropWhile fun c => decide (c ≠ '}')).drop 1 := by
  have hbound : ∀ (bound rest : List Char), (∀ d ∈ bound, decide (d ≠ '}') = true) →
      BoundOk bound → '}' ∈ bound ++ '}' :: rest ∧
        BoundOk ((bound ++ '}' :: rest).takeWhile fun c => decide (c ≠ '}')) ∧
        rest = ((bound ++ '}' :: rest).dropWhile fun c => decide (c ≠ '}')).drop 1 := by
    intro bound rest hne hok
    obtain ⟨htake, hdrop⟩ := takeWhile_append_cons rest hne
      (show decide ('}' ≠ '}') = false from rfl)
    rw [htake, hdrop]
    exact ⟨by simp, hok, rfl⟩
  have hcomma : decide (',' ≠ '}') = true := by decide
  constructor
  · intro h
    cases h with
    | short hc => exact absurd hc (by decide)
    | exactly hcount hle =>
      exact hbound _ _ (hcount.ne isDecimal_brace) (.inl ⟨_, hcount, hle, .inl rfl⟩)
    | @atLeast n _ hcount hle =>
      have h := hbound (n ++ [',']) rest
        (by simpa [or_imp, forall_and] using hcount.ne isDecimal_brace)
        (.inl ⟨_, hcount, hle, .inr rfl⟩)
      rwa [List.append_assoc] at h
    | @between n m _ hcount hcount' hnm hle =>
      have hne := hcount.ne isDecimal_brace
      have hne' := hcount'.ne isDecimal_brace
      have h := hbound (n ++ ',' :: m) rest
        (List.forall_mem_append.mpr ⟨hne, List.forall_mem_cons.mpr ⟨hcomma, hne'⟩⟩)
        (.inr ⟨_, _, hcount, hcount', hnm, hle, rfl⟩)
      rwa [List.append_assoc] at h
  · rintro ⟨hmem, hok, rfl⟩
    have hsplit := List.takeWhile_append_dropWhile (p := fun c => decide (c ≠ '}')) (l := source)
    have hdrop : source.dropWhile (fun c => decide (c ≠ '}')) =
        '}' :: (source.dropWhile fun c => decide (c ≠ '}')).drop 1 := by
      cases hd : source.dropWhile fun c => decide (c ≠ '}') with
      | nil => exact absurd (List.dropWhile_eq_nil_iff.mp hd _ hmem) (by decide)
      | cons c more =>
        rw [eq_of_dropWhile hd]
        rfl
    generalize (source.dropWhile fun c => decide (c ≠ '}')).drop 1 = rest at hdrop ⊢
    rw [hdrop] at hsplit
    rw [← hsplit]
    rcases hok with ⟨n, hcount, hle, htake | htake⟩ | ⟨n, m, hcount, hcount', hnm, hle, htake⟩
    · rw [htake]
      exact .exactly hcount hle
    · rw [htake, List.append_assoc]
      exact .atLeast hcount hle
    · rw [htake, List.append_assoc]
      exact .between hcount hcount' hnm hle

/-! ### Items -/

variable {k : Nat}

/-- What may follow: items, and behind an atom a quantifier and items. -/
def After (digits : Digits) (unicodeMode quantifiable : Bool) (k : Nat) (text : List Char) : Prop :=
  Items digits unicodeMode k text ∨
    quantifiable = true ∧ ∃ more k', Quantifier digits text more ∧ k = k' + 1 ∧
      Items digits unicodeMode k' more

theorem after_false {text : List Char} :
    After digits unicodeMode false k text ↔ Items digits unicodeMode k text := by
  simp [After]

theorem items_cons_iff {text : List Char} :
    Items digits unicodeMode k (c :: text) ↔
      c ∈ ['^', '$'] ∧ Items digits unicodeMode k text ∨
        ∃ more, Atom digits unicodeMode (c :: text) more ∧
          After digits unicodeMode true k more := by
  constructor
  · intro h
    cases h with
    | anchor hc h => exact .inl ⟨hc, h⟩
    | atom hatom h => exact .inr ⟨_, hatom, .inl h⟩
    | quantified hatom hq h => exact .inr ⟨_, hatom, .inr ⟨rfl, _, _, hq, rfl, h⟩⟩
  · rintro (⟨hc, h⟩ | ⟨more, hatom, h | ⟨-, more', k', hq, rfl, h⟩⟩)
    · exact .anchor hc h
    · exact .atom hatom h
    · exact .quantified hatom hq h

theorem atom_cons_iff {text rest : List Char} :
    Atom digits unicodeMode (c :: text) rest ↔
      isSpecial c = false ∧ rest = text ∨
        Escape digits unicodeMode false (c :: text) rest ∨
        c = '[' ∧ ClassBody digits unicodeMode text rest := by
  constructor
  · intro h
    cases h with
    | char hc => exact .inl ⟨hc, rfl⟩
    | escape h => exact .inr (.inl h)
    | cls h => exact .inr (.inr ⟨rfl, h⟩)
  · rintro (⟨hc, rfl⟩ | h | ⟨rfl, h⟩)
    · exact .char hc
    · exact .escape h
    · exact .cls h

theorem Escape.head_eq {text rest : List Char}
    (h : Escape digits unicodeMode inClass (c :: text) rest) : c = '\\' := by
  obtain ⟨more, heq⟩ := h.head
  exact (List.cons.inj heq).1

theorem Quantifier.head_mem {text rest : List Char} (h : Quantifier digits (c :: text) rest) :
    c ∈ ['?', '*', '+', '{'] := by
  cases h with
  | short hc => exact List.mem_append_left ['{'] hc
  | exactly | atLeast | between =>
    exact List.mem_append_right ['?', '*', '+'] (List.mem_singleton_self _)

theorem after_cons_iff {quantifiable : Bool} {text : List Char} :
    After digits unicodeMode quantifiable k (c :: text) ↔
      (c ∈ ['^', '$'] ∧ Items digits unicodeMode k text) ∨
      (isSpecial c = false ∧ After digits unicodeMode true k text) ∨
      (∃ more, Escape digits unicodeMode false (c :: text) more ∧
        After digits unicodeMode true k more) ∨
      (c = '[' ∧ ∃ more, ClassBody digits unicodeMode text more ∧
        After digits unicodeMode true k more) ∨
      (quantifiable = true ∧ ∃ more k', Quantifier digits (c :: text) more ∧ k = k' + 1 ∧
        Items digits unicodeMode k' more) := by
  rw [After, items_cons_iff]
  simp only [atom_cons_iff]
  constructor
  · rintro ((h | ⟨more, ⟨hc, rfl⟩ | h | ⟨rfl, h⟩, hafter⟩) | h)
    · exact .inl h
    · exact .inr (.inl ⟨hc, hafter⟩)
    · exact .inr (.inr (.inl ⟨more, h, hafter⟩))
    · exact .inr (.inr (.inr (.inl ⟨rfl, more, h, hafter⟩)))
    · exact .inr (.inr (.inr (.inr h)))
  · rintro (h | ⟨hc, hafter⟩ | ⟨more, h, hafter⟩ | ⟨rfl, more, h, hafter⟩ | h)
    · exact .inl (.inl h)
    · exact .inl (.inr ⟨text, .inl ⟨hc, rfl⟩, hafter⟩)
    · exact .inl (.inr ⟨more, .inr (.inl h), hafter⟩)
    · exact .inl (.inr ⟨more, .inr (.inr ⟨rfl, h⟩), hafter⟩)
    · exact .inr h

theorem items_nil_iff : Items digits unicodeMode k [] ↔ k = 0 := by
  constructor
  · intro h
    cases h with
    | nil => rfl
    | atom hatom | quantified hatom =>
      cases hatom with
      | escape h => cases h
  · rintro rfl
    exact .nil

/-! ### What follows, case by case -/

section Heads

variable {quantifiable : Bool} {text : List Char}

theorem after_backslash :
    After digits unicodeMode quantifiable k ('\\' :: text) ↔
      ∃ more, Escape digits unicodeMode false ('\\' :: text) more ∧
        After digits unicodeMode true k more := by
  rw [after_cons_iff]
  constructor
  · rintro (⟨h, -⟩ | ⟨h, -⟩ | h | ⟨h, -⟩ | ⟨-, more, k', h, -⟩)
    · exact absurd h (by decide)
    · exact absurd h (by decide)
    · exact h
    · exact absurd h (by decide)
    · exact absurd h.head_mem (by decide)
  · exact fun h => .inr (.inr (.inl h))

theorem after_bracket :
    After digits unicodeMode quantifiable k ('[' :: text) ↔
      ∃ more, ClassBody digits unicodeMode text more ∧ After digits unicodeMode true k more := by
  rw [after_cons_iff]
  constructor
  · rintro (⟨h, -⟩ | ⟨h, -⟩ | ⟨more, h, -⟩ | ⟨-, h⟩ | ⟨-, more, k', h, -⟩)
    · exact absurd h (by decide)
    · exact absurd h (by decide)
    · exact absurd h.head_eq (by decide)
    · exact h
    · exact absurd h.head_mem (by decide)
  · exact fun h => .inr (.inr (.inr (.inl ⟨rfl, h⟩)))

theorem forall_mem_of_all {p : Char → Prop} [DecidablePred p] {l : List Char}
    (h : (l.all fun c => decide (p c)) = true) : ∀ c ∈ l, p c :=
  fun c hc => of_decide_eq_true (all_eq_true.mp h c hc)

/-- Parentheses, the bar and closing brackets start nothing. -/
theorem not_after (hc : c ∈ ['(', ')', '|', ']', '}']) :
    ¬ After digits unicodeMode quantifiable k (c :: text) := by
  have hnone : ∀ d ∈ ['(', ')', '|', ']', '}'], d ∉ ['^', '$'] ∧ isSpecial d = true ∧ d ∉ ['?', '*', '+', '{'] :=
    forall_mem_of_all (by decide)
  specialize hnone c hc
  rw [after_cons_iff]
  rintro (⟨h, -⟩ | ⟨h, -⟩ | ⟨more, h, -⟩ | ⟨h, -⟩ | ⟨-, more, k', h, -⟩)
  · exact hnone.1 h
  · rw [hnone.2.1] at h
    cases h
  · rw [h.head_eq] at hc
    exact absurd hc (by decide)
  · rw [h] at hc
    exact absurd hc (by decide)
  · exact hnone.2.2 h.head_mem

theorem after_short (hc : c ∈ ['*', '+', '?']) :
    After digits unicodeMode quantifiable k (c :: text) ↔
      quantifiable = true ∧ ∃ k', k = k' + 1 ∧ After digits unicodeMode false k' text := by
  have hother : ∀ d ∈ ['*', '+', '?'], d ∉ ['^', '$'] ∧ isSpecial d = true ∧ d ∈ ['?', '*', '+'] :=
    forall_mem_of_all (by decide)
  specialize hother c hc
  rw [after_cons_iff]
  constructor
  · rintro (⟨h, -⟩ | ⟨h, -⟩ | ⟨more, h, -⟩ | ⟨h, -⟩ | ⟨hquantifiable, more, k', h, rfl, hitems⟩)
    · exact absurd h hother.1
    · rw [hother.2.1] at h
      cases h
    · rw [h.head_eq] at hc
      exact absurd hc (by decide)
    · rw [h] at hc
      exact absurd hc (by decide)
    · refine ⟨hquantifiable, k', rfl, after_false.mpr ?_⟩
      cases h with
      | short => exact hitems
      | exactly | atLeast | between => exact absurd hc (by decide)
  · rintro ⟨hquantifiable, k', rfl, h⟩
    exact .inr (.inr (.inr (.inr
      ⟨hquantifiable, text, k', .short hother.2.2, rfl, after_false.mp h⟩)))

theorem after_brace :
    After digits unicodeMode quantifiable k ('{' :: text) ↔
      quantifiable = true ∧ ∃ more k', Quantifier digits ('{' :: text) more ∧ k = k' + 1 ∧
        After digits unicodeMode false k' more := by
  rw [after_cons_iff]
  simp only [after_false]
  constructor
  · rintro (⟨h, -⟩ | ⟨h, -⟩ | ⟨more, h, -⟩ | ⟨h, -⟩ | h)
    · exact absurd h (by decide)
    · exact absurd h (by decide)
    · exact absurd h.head_eq (by decide)
    · exact absurd h (by decide)
    · exact h
  · exact fun h => .inr (.inr (.inr (.inr h)))

theorem after_anchor (hc : c ∈ ['^', '$']) :
    After digits unicodeMode quantifiable k (c :: text) ↔
      After digits unicodeMode false k text := by
  have hother : ∀ d ∈ ['^', '$'], isSpecial d = true ∧ d ∉ ['?', '*', '+', '{'] :=
    forall_mem_of_all (by decide)
  specialize hother c hc
  rw [after_cons_iff, after_false]
  constructor
  · rintro (⟨-, h⟩ | ⟨h, -⟩ | ⟨more, h, -⟩ | ⟨h, -⟩ | ⟨-, more, k', h, -⟩)
    · exact h
    · rw [hother.1] at h
      cases h
    · rw [h.head_eq] at hc
      exact absurd hc (by decide)
    · rw [h] at hc
      exact absurd hc (by decide)
    · exact absurd h.head_mem hother.2
  · exact fun h => .inl ⟨hc, h⟩

theorem after_plain (hc : isSpecial c = false) :
    After digits unicodeMode quantifiable k (c :: text) ↔
      After digits unicodeMode true k text := by
  have hspecial : ∀ d : Char, isSpecial d = true → c ≠ d := by
    rintro d hd rfl
    rw [hc] at hd
    cases hd
  rw [after_cons_iff]
  constructor
  · rintro (⟨h, -⟩ | ⟨-, h⟩ | ⟨more, h, -⟩ | ⟨h, -⟩ | ⟨-, more, k', h, -⟩)
    · simp only [mem_cons, not_mem_nil, or_false] at h
      rcases h with h | h <;> exact absurd h (hspecial _ (by decide))
    · exact h
    · exact absurd h.head_eq (hspecial _ (by decide))
    · exact absurd h (hspecial _ (by decide))
    · have hmem := h.head_mem
      simp only [mem_cons, not_mem_nil, or_false] at hmem
      rcases hmem with h | h | h | h <;> exact absurd h (hspecial _ (by decide))
  · exact fun h => .inr (.inl ⟨hc, h⟩)

end Heads

/-! ### The scan -/

section Scan

variable {n m : Nat} {quantifiable : Bool} {source rest : List Char}

theorem after_escape_iff (hread : readEscape name unicodeMode false source = .ok rest) :
    After .python unicodeMode quantifiable k ('\\' :: source) ↔
      After .python unicodeMode true k rest := by
  rw [after_backslash]
  constructor
  · rintro ⟨more, hescape, hafter⟩
    rw [readEscape_of_escape name hescape] at hread
    cases hread
    exact hafter
  · exact fun h => ⟨rest, escape_of_readEscape hread, h⟩

theorem after_class_iff (hclass : scanClass name unicodeMode source = .ok rest) :
    After .python unicodeMode quantifiable k ('[' :: source) ↔
      After .python unicodeMode true k rest := by
  rw [after_bracket]
  constructor
  · rintro ⟨more, hbody, hafter⟩
    rw [scanClass_eq_ok_iff.mpr hbody] at hclass
    cases hclass
    exact hafter
  · exact fun h => ⟨rest, scanClass_eq_ok_iff.mp hclass, h⟩

theorem after_bound_iff (name : String) :
    After .python unicodeMode quantifiable k ('{' :: source) ↔
      '}' ∈ source ∧
        checkBound name quantifiable (source.takeWhile fun c => decide (c ≠ '}')) = .ok () ∧
        ∃ k', k = k' + 1 ∧ After .python unicodeMode false k'
          ((source.dropWhile fun c => decide (c ≠ '}')).drop 1) := by
  rw [after_brace, checkBound_eq_ok_iff]
  constructor
  · rintro ⟨hquantifiable, more, k', hq, rfl, h⟩
    obtain ⟨hmem, hbound, rfl⟩ := quantifier_brace_iff.mp hq
    exact ⟨hmem, ⟨hquantifiable, hbound⟩, k', rfl, h⟩
  · rintro ⟨hmem, ⟨hquantifiable, hbound⟩, k', rfl, h⟩
    exact ⟨hquantifiable, _, k', quantifier_brace_iff.mpr ⟨hmem, hbound, rfl⟩, rfl, h⟩

theorem refused_iff {e : ProtocolValidationError}
    (h : ∀ k, ¬ After .python unicodeMode quantifiable k source) :
    (Except.error e : Except ProtocolValidationError Nat) = .ok m ↔
      ∃ k, m = n + k ∧ After .python unicodeMode quantifiable k source :=
  ⟨fun h => (nomatch h), fun ⟨k, _, hafter⟩ => absurd hafter (h k)⟩

theorem exists_succ_iff {P : Nat → Prop} :
    (∃ k, m = n + 1 + k ∧ P k) ↔ ∃ k, m = n + k ∧ ∃ k', k = k' + 1 ∧ P k' := by
  constructor
  · rintro ⟨k, rfl, h⟩
    exact ⟨k + 1, by omega, k, rfl, h⟩
  · rintro ⟨_, rfl, k, rfl, h⟩
    exact ⟨k, by omega, h⟩

/-- **The scanner accepts what the grammar derives over the digits of all scripts**, and counts the
quantifiers. -/
theorem scan_eq_ok_iff :
    scan name unicodeMode n quantifiable source = .ok m ↔
      ∃ k, m = n + k ∧ After .python unicodeMode quantifiable k source := by
  fun_induction scan name unicodeMode n quantifiable source with
  | case1 n quantifiable =>
    simp only [After, items_nil_iff]
    constructor
    · intro h
      cases h
      exact ⟨0, rfl, .inl rfl⟩
    · rintro ⟨k, rfl, rfl | ⟨-, more, k', hq, -⟩⟩
      · rfl
      · cases hq
  | case2 n quantifiable source e hread =>
    refine refused_iff fun k h => ?_
    obtain ⟨more, hescape, -⟩ := after_backslash.mp h
    rw [readEscape_of_escape name hescape] at hread
    cases hread
  | case3 n quantifiable source rest hread ih =>
    refine ih.trans ?_
    simp only [after_escape_iff hread]
  | case4 n quantifiable source e hclass =>
    refine refused_iff fun k h => ?_
    obtain ⟨more, hbody, -⟩ := after_bracket.mp h
    rw [scanClass_eq_ok_iff.mpr hbody] at hclass
    cases hclass
  | case5 n quantifiable source rest hclass _ ih =>
    refine ih.trans ?_
    simp only [after_class_iff hclass]
  | case6 n quantifiable c source _ _ hc =>
    exact refused_iff fun k => not_after (by rcases hc with rfl | rfl <;> decide)
  | case7 n quantifiable source => exact refused_iff fun k => not_after (by decide)
  | case8 n c source _ _ _ _ hc =>
    have hc : c ∈ ['*', '+', '?'] := by simpa using hc
    exact refused_iff fun k h => Bool.noConfusion ((after_short hc).mp h).1
  | case9 n quantifiable c source _ _ _ _ hc hquantifiable ih =>
    have hc : c ∈ ['*', '+', '?'] := by simpa using hc
    have hquantifiable := (Bool.not_eq_false _).mp hquantifiable
    refine ih.trans ?_
    simp only [after_short hc, hquantifiable, true_and]
    exact exists_succ_iff
  | case10 n quantifiable source hmem =>
    exact refused_iff fun k h => hmem ((after_bound_iff name).mp h).1
  | case11 n quantifiable source _ e hbound =>
    refine refused_iff fun k h => ?_
    rw [((after_bound_iff name).mp h).2.1] at hbound
    cases hbound
  | case12 n quantifiable source hmem _ hbound _ _ _ _ _ ih =>
    refine ih.trans ?_
    simp only [after_bound_iff name, not_not.mp hmem, hbound, true_and]
    exact exists_succ_iff
  | case13 n quantifiable c source _ _ _ _ _ _ hc =>
    exact refused_iff fun k => not_after (by rcases hc with rfl | rfl <;> decide)
  | case14 n quantifiable c source hb ho hp hbar hs hbrace hclose ih =>
    refine ih.trans ?_
    by_cases hanchor : c ∈ ['^', '$']
    · have hfalse : (decide (c ≠ '^') && decide (c ≠ '$')) = false := by
        simpa [or_iff_not_imp_left] using hanchor
      simp only [hfalse, after_anchor hanchor]
    · have hplain : isSpecial c = false := by
        simp only [mem_cons, not_mem_nil, or_false, not_or] at hanchor
        simp [isSpecial]
        tauto
      have htrue : (decide (c ≠ '^') && decide (c ≠ '$')) = true := by
        simpa using hanchor
      simp only [htrue, after_plain hplain]

end Scan

/-! ### Other digits -/

/-- Where digits decide, the first notion's are the second's. -/
structure Agree (digits digits' : Digits) (text : List Char) : Prop where
  null {d : Char} {more : List Char} : '\\' :: '0' :: d :: more <:+ text →
    digits.digit d = false → digits'.digit d = false
  decimal {n more : List Char} {d : Char} : '{' :: (n ++ d :: more) <:+ text →
    (∀ c ∈ n, digits.decimal c = true ∨ c = ',') → digits.decimal d = true →
    digits'.decimal d = true

section Transfer

variable {digits' : Digits} {text rest : List Char}

theorem Agree.mono (h : Agree digits digits' text) (hrest : rest <:+ text) :
    Agree digits digits' rest where
  null hsuffix := h.null (hsuffix.trans hrest)
  decimal hsuffix := h.decimal (hsuffix.trans hrest)

theorem Escape.suffix (h : Escape digits unicodeMode inClass text rest) : rest <:+ text := by
  cases h with
  | @hex code _ _ _ => exact ⟨'\\' :: 'x' :: code, rfl⟩
  | @unicode code _ _ _ => exact ⟨'\\' :: 'u' :: code, rfl⟩
  | null => exact ⟨['\\', '0'], rfl⟩
  | @other c => exact ⟨['\\', c], rfl⟩

theorem ClassBody.suffix (h : ClassBody digits unicodeMode text rest) : rest <:+ text := by
  induction h with
  | closed => exact suffix_cons _ _
  | escape hescape _ ih => exact ih.trans hescape.suffix
  | char _ _ _ _ ih => exact ih.trans (suffix_cons _ _)

theorem Atom.suffix (h : Atom digits unicodeMode text rest) : rest <:+ text := by
  cases h with
  | char => exact suffix_cons _ _
  | escape h => exact h.suffix
  | cls h => exact h.suffix.trans (suffix_cons _ _)

theorem Quantifier.suffix (h : Quantifier digits text rest) : rest <:+ text := by
  cases h with
  | short => exact suffix_cons _ _
  | @exactly n => exact ⟨'{' :: (n ++ ['}']), by simp⟩
  | @atLeast n => exact ⟨'{' :: (n ++ [',', '}']), by simp⟩
  | @between n m => exact ⟨'{' :: (n ++ ',' :: (m ++ ['}'])), by simp⟩

theorem Escape.transfer (hagree : Agree digits digits' text)
    (h : Escape digits unicodeMode inClass text rest) :
    Escape digits' unicodeMode inClass text rest := by
  cases h with
  | hex hlength hall => exact .hex hlength hall
  | unicode hlength hall => exact .unicode hlength hall
  | null hnull =>
    refine .null fun d more hmore => ?_
    rw [hmore] at hagree
    exact hagree.null (suffix_refl _) (hnull d more hmore)
  | other hreference hother hpermitted => exact .other hreference hother hpermitted

theorem ClassBody.transfer (h : ClassBody digits unicodeMode text rest)
    (hagree : Agree digits digits' text) : ClassBody digits' unicodeMode text rest := by
  induction h with
  | closed => exact .closed
  | escape hescape _ ih => exact .escape (hescape.transfer hagree) (ih (hagree.mono hescape.suffix))
  | char hb ho hc _ ih => exact .char hb ho hc (ih (hagree.mono (suffix_cons _ _)))

theorem Atom.transfer (hagree : Agree digits digits' text)
    (h : Atom digits unicodeMode text rest) : Atom digits' unicodeMode text rest := by
  cases h with
  | char hc => exact .char hc
  | escape h => exact .escape (h.transfer hagree)
  | cls h => exact .cls (h.transfer (hagree.mono (suffix_cons _ _)))

/-- A count behind a brace, with only digits and commas between. -/
theorem Count.transfer {n : List Char} (front more : List Char) (h : Count digits n)
    (hagree : Agree digits digits' ('{' :: (front ++ (n ++ more))))
    (hfront : ∀ c ∈ front, digits.decimal c = true ∨ c = ',') : Count digits' n where
  pos := h.pos
  le := h.le
  digits d hd := by
    obtain ⟨before, behind, rfl⟩ := List.append_of_mem hd
    have hsuffix : '{' :: ((front ++ before) ++ d :: (behind ++ more)) <:+
        '{' :: (front ++ (before ++ d :: behind ++ more)) := by simp
    refine hagree.decimal hsuffix ?_ (h.digits d hd)
    intro c hc
    rcases List.mem_append.mp hc with hc | hc
    · exact hfront c hc
    · exact .inl (h.digits c (List.mem_append_left _ hc))

theorem Quantifier.transfer (hagree : Agree digits digits' text) (h : Quantifier digits text rest) :
    Quantifier digits' text rest := by
  have hnone : ∀ c ∈ ([] : List Char), digits.decimal c = true ∨ c = ',' := by simp
  cases h with
  | short hc => exact .short hc
  | exactly hcount hle => exact .exactly (hcount.transfer [] _ hagree hnone) hle
  | atLeast hcount hle => exact .atLeast (hcount.transfer [] _ hagree hnone) hle
  | @between n m rest hcount hcount' hnm hle =>
    have hfront : ∀ c ∈ n ++ [','], digits.decimal c = true ∨ c = ',' := by
      intro c hc
      rcases mem_append.mp hc with hc | hc
      · exact .inl (hcount.digits c hc)
      · exact .inr (mem_singleton.mp hc)
    refine .between (hcount.transfer [] _ hagree hnone)
      (hcount'.transfer (n ++ [',']) ('}' :: rest) ?_ hfront) hnm hle
    rwa [append_assoc]

/-- **Where the digits agree, the grammars do.** -/
theorem Items.transfer (h : Items digits unicodeMode k text) (hagree : Agree digits digits' text) :
    Items digits' unicodeMode k text := by
  induction h with
  | nil => exact .nil
  | anchor hc _ ih => exact .anchor hc (ih (hagree.mono (suffix_cons _ _)))
  | atom hatom _ ih => exact .atom (hatom.transfer hagree) (ih (hagree.mono hatom.suffix))
  | quantified hatom hq _ ih =>
    have hmore := hagree.mono hatom.suffix
    exact .quantified (hatom.transfer hagree) (hq.transfer hmore) (ih (hmore.mono hq.suffix))

end Transfer

/-- No digit of another script stands right behind `\0`, nor behind an opening brace with only
digits and commas between. -/
structure Clean (text : List Char) : Prop where
  null {d : Char} {more : List Char} : '\\' :: '0' :: d :: more <:+ text →
    isDigit d = true → d.isDigit = true
  decimal {n more : List Char} {d : Char} : '{' :: (n ++ d :: more) <:+ text →
    (∀ c ∈ n, isDecimal c = true ∨ c = ',') → isDecimal d = true → d.isDigit = true

theorem isDigit_of_ascii (h : c.isDigit = true) : isDigit c = true :=
  (Bool.or_eq_true _ _).mpr (.inl (isDecimal_of_isDigit h).1)

theorem Clean.ascii {text : List Char} (h : Clean text) : Agree .python .ascii text where
  null _ hdigit :=
    Bool.eq_false_iff.mpr fun hascii => Bool.eq_false_iff.mp hdigit (isDigit_of_ascii hascii)
  decimal := h.decimal

theorem Clean.python {text : List Char} (h : Clean text) : Agree .ascii .python text where
  null hsuffix hdigit :=
    Bool.eq_false_iff.mpr fun hpython => Bool.eq_false_iff.mp hdigit (h.null hsuffix hpython)
  decimal _ _ hdigit := (isDecimal_of_isDigit hdigit).1

theorem Clean.mono {text rest : List Char} (h : Clean text) (hrest : rest <:+: text) :
    Clean rest := by
  obtain ⟨before, behind, rfl⟩ := hrest
  have hsuffix : ∀ {t : List Char}, t <:+ rest → t ++ behind <:+ before ++ rest ++ behind := by
    rintro t ⟨front, rfl⟩
    exact ⟨before ++ front, by simp⟩
  constructor
  · exact fun ht => h.null (hsuffix ht)
  · intro n more d ht
    have ht := hsuffix ht
    rw [cons_append, append_assoc] at ht
    exact h.decimal ht

theorem clean_of_ascii {text : List Char} (h : ∀ c ∈ text, isDigit c = true → c.isDigit = true) :
    Clean text where
  null ht := h _ (ht.subset (by simp))
  decimal ht _ hd := h _ (ht.subset (by simp)) ((Bool.or_eq_true _ _).mpr (.inl hd))

theorem items_python_iff_ascii {text : List Char} (h : Clean text) :
    Items .python unicodeMode k text ↔ Items .ascii unicodeMode k text :=
  ⟨fun hitems => hitems.transfer h.ascii, fun hitems => hitems.transfer h.python⟩

/-! ### Whole patterns -/

theorem rdropWhile_append_cons {n rest : List Char} (hrest : ∀ d ∈ rest, p d = true)
    (hc : p c = false) :
    (n ++ c :: rest).rdropWhile p = n ++ [c] ∧ (n ++ c :: rest).rtakeWhile p = rest := by
  have hreverse : (n ++ c :: rest).reverse = rest.reverse ++ c :: n.reverse := by simp
  obtain ⟨htake, hdrop⟩ := takeWhile_append_cons n.reverse
    (fun d hd => hrest d (mem_reverse.mp hd)) hc
  rw [List.rdropWhile, List.rtakeWhile, hreverse, htake, hdrop]
  simp

/-- **What the expression for slashes and flags matches.** -/
theorem matchLiteral_eq_some_iff {source : List Char} :
    matchLiteral expression = some (source, flags) ↔ Literal expression source flags := by
  constructor
  · intro h
    unfold matchLiteral at h
    split at h
    · next rest =>
      dsimp only at h
      split at h
      · next hfront =>
        cases h
        obtain ⟨hlast, hline⟩ := hfront
        obtain ⟨front, hfront⟩ := getLast?_eq_some_iff.mp hlast
        have hsplit := rdropWhile_append_rtakeWhile (p := isLowercase) (l := rest)
        rw [hfront, append_assoc] at hsplit
        rw [hfront, dropLast_concat] at hline ⊢
        exact ⟨congrArg ('/' :: ·) hsplit.symm, fun c hc => mem_rtakeWhile_imp hc, hline⟩
      · cases h
    · cases h
  · rintro ⟨rfl, hflags, hsource⟩
    obtain ⟨hdrop, htake⟩ := rdropWhile_append_cons (n := source) hflags
      (show isLowercase '/' = false by decide)
    rw [matchLiteral, hdrop, htake]
    simp [hsource]

theorem Literal.infix {source : List Char} (h : Literal expression source flags) :
    source <:+: expression :=
  ⟨['/'], '/' :: flags, by simp [h.eq]⟩

theorem Literal.unique {source source' flags' : List Char} (h : Literal expression source flags)
    (h' : Literal expression source' flags') : source = source' ∧ flags = flags' := by
  have heq := (matchLiteral_eq_some_iff.mpr h).symm.trans (matchLiteral_eq_some_iff.mpr h')
  cases heq
  exact ⟨rfl, rfl⟩

/-- What is checked of the source and the flags. -/
theorem validateSafePattern_eq_ok_iff_items {text : List Char} :
    validateSafePattern text name = .ok () ↔
      StringParam 200 true text ∧
        ((∀ c ∈ ((matchLiteral text).getD (text, [])).2, c ∈ ['i', 'm', 'u']) ∧
          ((matchLiteral text).getD (text, [])).2.Nodup ∧
          ∃ k ≤ MAX_PATTERN_QUANTIFIERS,
            Items .python (decide ('u' ∈ ((matchLiteral text).getD (text, [])).2)) k
              ((matchLiteral text).getD (text, [])).1) := by
  rw [validateSafePattern]
  split
  · next hparam =>
    rw [and_iff_right hparam]
    obtain ⟨source, flags⟩ := (matchLiteral text).getD (text, [])
    dsimp only
    split
    · next hflags =>
      refine ⟨fun h => (nomatch h), fun h => ?_⟩
      rcases hflags with ⟨c, hc, hnone⟩ | hnodup
      · exact absurd (h.1 c hc) hnone
      · exact absurd h.2.1 hnodup
    · next hflags =>
      obtain ⟨hletters, hnodup⟩ := not_or.mp hflags
      have hletters : ∀ c ∈ flags, c ∈ ['i', 'm', 'u'] := fun c hc =>
        by_contra fun hnone => hletters ⟨c, hc, hnone⟩
      rw [and_iff_right hletters, and_iff_right (not_not.mp hnodup)]
      constructor
      · intro h
        split at h
        · cases h
        · next quantifiers hscan =>
          obtain ⟨k, heq, hafter⟩ := scan_eq_ok_iff.mp hscan
          split at h
          · cases h
          · next hle => exact ⟨k, by omega, after_false.mp hafter⟩
      · rintro ⟨k, hle, hitems⟩
        rw [scan_eq_ok_iff.mpr ⟨k, rfl, after_false.mpr hitems⟩]
        dsimp only
        rw [if_neg (by omega)]
  · next hparam => exact ⟨fun h => (nomatch h), fun h => absurd h.1 hparam⟩

/-- A sentence, read as the validator reads it. -/
theorem sentence_iff {text : List Char} :
    Sentence digits text ↔
      (∀ c ∈ ((matchLiteral text).getD (text, [])).2, c ∈ ['i', 'm', 'u']) ∧
        ((matchLiteral text).getD (text, [])).2.Nodup ∧
        ∃ k ≤ MAX_PATTERN_QUANTIFIERS,
          Items digits (decide ('u' ∈ ((matchLiteral text).getD (text, [])).2)) k
            ((matchLiteral text).getD (text, [])).1 := by
  cases hmatch : matchLiteral text with
  | none =>
    have hnone : ∀ source flags, ¬ Literal text source flags := by
      intro source flags h
      rw [matchLiteral_eq_some_iff.mpr h] at hmatch
      cases hmatch
    constructor
    · rintro (⟨-, hitems, hle⟩ | ⟨hliteral, -⟩)
      · exact ⟨by simp, nodup_nil, _, hle, hitems⟩
      · exact absurd hliteral (hnone _ _)
    · rintro ⟨-, -, k, hle, hitems⟩
      exact .plain hnone hitems hle
  | some parts =>
    obtain ⟨source, flags⟩ := parts
    have hliteral := matchLiteral_eq_some_iff.mp hmatch
    constructor
    · rintro (⟨hnone, -⟩ | ⟨hliteral', hletters, hnodup, hitems, hle⟩)
      · exact absurd hliteral (hnone _ _)
      · obtain ⟨rfl, rfl⟩ := hliteral.unique hliteral'
        exact ⟨hletters, hnodup, _, hle, hitems⟩
    · rintro ⟨hletters, hnodup, k, hle, hitems⟩
      exact .literal hliteral hletters hnodup hitems hle

/-- **The validator accepts the sentences of the grammar over the digits of all scripts**, among the
texts that fit, are not blank and hold no null. -/
theorem validateSafePattern_eq_ok_iff_python {text : List Char} :
    validateSafePattern text name = .ok () ↔ StringParam 200 true text ∧ Sentence .python text := by
  rw [validateSafePattern_eq_ok_iff_items, sentence_iff]

/-- Over a clean text the two grammars are one. -/
theorem sentence_ascii_iff {text : List Char} (h : Clean text) :
    Sentence .python text ↔ Sentence .ascii text := by
  constructor
  · rintro (⟨hnone, hitems, hle⟩ | ⟨hliteral, hletters, hnodup, hitems, hle⟩)
    · exact .plain hnone ((items_python_iff_ascii h).mp hitems) hle
    · exact .literal hliteral hletters hnodup
        ((items_python_iff_ascii (h.mono hliteral.infix)).mp hitems) hle
  · rintro (⟨hnone, hitems, hle⟩ | ⟨hliteral, hletters, hnodup, hitems, hle⟩)
    · exact .plain hnone ((items_python_iff_ascii h).mpr hitems) hle
    · exact .literal hliteral hletters hnodup
        ((items_python_iff_ascii (h.mono hliteral.infix)).mpr hitems) hle

/-- **The validator accepts exactly the sentences of its grammar** among the texts within the limit
that are not blank and hold no null, where no digit of another script stands for a digit. -/
theorem validateSafePattern_eq_ok_iff {text : List Char} (name : String)
    (hlength : utf16Length text ≤ 200) (hclean : Clean text) :
    validateSafePattern text name = .ok () ↔
      ((∃ c ∈ text, isSpace c = false) ∧ '\x00' ∉ text) ∧ Sentence .ascii text := by
  rw [validateSafePattern_eq_ok_iff_python, sentence_ascii_iff hclean]
  refine and_congr_left' ⟨?_, ?_⟩
  · exact fun h => ⟨h.2.1 rfl, h.2.2⟩
  · exact fun h => ⟨hlength, fun _ => h.1, h.2⟩

theorem validateSafePattern_eq_ok_iff_bound :
    validateSafePattern "[a-z]\x7b2,4\x7d".toList "regex" = .ok () ↔
      ((∃ c ∈ "[a-z]\x7b2,4\x7d".toList, isSpace c = false) ∧
        '\x00' ∉ "[a-z]\x7b2,4\x7d".toList) ∧ Sentence .ascii "[a-z]\x7b2,4\x7d".toList :=
  validateSafePattern_eq_ok_iff "regex" (by decide) (clean_of_ascii (forall_mem_of_all (by decide)))

/-- A space is a literal, and refused. -/
theorem validateSafePattern_blank :
    utf16Length [' '] ≤ 200 ∧ Sentence .ascii [' '] ∧
      validateSafePattern [' '] "regex" ≠ .ok () := by
  refine ⟨by decide, .plain ?_ (.atom (.char (by decide)) .nil) (Nat.zero_le _), ?_⟩
  · intro source flags h
    exact absurd (List.cons.inj h.eq).1 (by decide)
  · intro h
    obtain ⟨c, hc, hspace⟩ := (validateSafePattern_eq_ok_iff_python.mp h).1.2.1 rfl
    rw [mem_singleton.mp hc] at hspace
    exact absurd hspace (by decide)

end

end KolegaCode.BrowserExtension
