import KolegaCode.Hashline.Hash
import KolegaCode.Lib.Regex

/-!
# Subjects — the first URL of a text

`_url_start` looks for the slashes of a URL first and widens them to the left over a scheme, so that
a long run of scheme characters is read once.
-/

namespace KolegaCode.Subjects

open List
open Re
open Hashline (isSpace)

/-! ### Characters -/

def isAscii (c : Char) : Bool := c.toNat < 128

/-- `(?i)[a-z0-9+.-]`. -/
def schemeClass (c : Char) : Bool :=
  caselessLetter c || ('0' ≤ c && c ≤ '9') || ['+', '.', '-'].contains c

def SCHEME_LETTERS : List Char := "abcdefghijklmnopqrstuvwxyzABCDEFGHIJKLMNOPQRSTUVWXYZ".toList

def SCHEME_CHARS : List Char :=
  "abcdefghijklmnopqrstuvwxyzABCDEFGHIJKLMNOPQRSTUVWXYZ0123456789+.-".toList

def URL_BODY_STOP : List Char := ['<', '>', '"', '\'']

def isSchemeChar (c : Char) : Bool :=
  if isAscii c then SCHEME_CHARS.contains c else schemeClass c

def isSchemeLetter (c : Char) : Bool :=
  if isAscii c then SCHEME_LETTERS.contains c else caselessLetter c

def isUrlBodyChar (c : Char) : Bool := !(isSpace c || URL_BODY_STOP.contains c)

variable {c : Char} {text : List Char} {i : Nat}

theorem mem_chars {first n : Nat} (h : first + n ≤ 128) :
    c ∈ (List.range' first n).map Char.ofNat ↔ first ≤ c.toNat ∧ c.toNat < first + n := by
  have htoNat : ∀ m < 128, (Char.ofNat m).toNat = m := by decide
  rw [mem_map]
  constructor
  · rintro ⟨m, hm, rfl⟩
    rw [mem_range'_1] at hm
    rwa [htoNat m (by omega)]
  · exact fun hc => ⟨c.toNat, mem_range'_1.mpr hc, Char.ofNat_toNat c⟩

theorem SCHEME_LETTERS_eq : SCHEME_LETTERS =
    (List.range' 97 26).map Char.ofNat ++ (List.range' 65 26).map Char.ofNat :=
  String.toList_ofList.trans (by decide)

theorem mem_SCHEME_LETTERS :
    c ∈ SCHEME_LETTERS ↔ 97 ≤ c.toNat ∧ c.toNat < 123 ∨ 65 ≤ c.toNat ∧ c.toNat < 91 := by
  rw [SCHEME_LETTERS_eq, mem_append, mem_chars (by decide), mem_chars (by decide)]

theorem mem_SCHEME_CHARS :
    c ∈ SCHEME_CHARS ↔ c ∈ SCHEME_LETTERS ∨ 48 ≤ c.toNat ∧ c.toNat < 58 ∨ c ∈ ['+', '.', '-'] := by
  have hchars : SCHEME_CHARS =
      SCHEME_LETTERS ++ ((List.range' 48 10).map Char.ofNat ++ ['+', '.', '-']) :=
    String.toList_ofList.trans (by rw [SCHEME_LETTERS_eq]; decide)
  rw [hchars, mem_append, mem_append, mem_chars (by decide)]

theorem caselessLetter_ascii (h : isAscii c = true) :
    caselessLetter c = true ↔ 97 ≤ c.toNat ∧ c.toNat < 123 ∨ 65 ≤ c.toNat ∧ c.toNat < 91 := by
  have hother : ['\u0130', '\u0131', '\u017f', '\u212a'].contains c = false := by
    rw [← Bool.not_eq_true, contains_iff_mem]
    intro hmem
    have hascii : ∀ d ∈ ['\u0130', '\u0131', '\u017f', '\u212a'], isAscii d = false := by
      simp only [forall_mem_cons]
      exact ⟨rfl, rfl, rfl, rfl, forall_mem_nil _⟩
    exact absurd (h.symm.trans (hascii c hmem)) (by decide)
  rw [caselessLetter, hother, Bool.or_false, Bool.or_eq_true, Bool.and_eq_true, Bool.and_eq_true,
    decide_eq_true_eq, decide_eq_true_eq, decide_eq_true_eq, decide_eq_true_eq]
  exact or_congr (and_congr Iff.rfl Nat.lt_succ_iff.symm) (and_congr Iff.rfl Nat.lt_succ_iff.symm)

theorem isSchemeLetter_eq : isSchemeLetter = caselessLetter := by
  funext c
  rw [isSchemeLetter]
  split
  · next h =>
    rw [Bool.eq_iff_iff, contains_iff_mem, mem_SCHEME_LETTERS, caselessLetter_ascii h]
  · rfl

theorem isSchemeChar_eq : isSchemeChar = schemeClass := by
  funext c
  rw [isSchemeChar]
  split
  · next h =>
    rw [Bool.eq_iff_iff, contains_iff_mem, mem_SCHEME_CHARS, mem_SCHEME_LETTERS, schemeClass,
      Bool.or_eq_true, Bool.or_eq_true, caselessLetter_ascii h, contains_iff_mem,
      Bool.and_eq_true, decide_eq_true_eq, decide_eq_true_eq, ← or_assoc]
    exact or_congr_left (or_congr_right (and_congr Iff.rfl Nat.lt_succ_iff))
  · rfl

/-! ### The scan -/

/-- `text.find("//", start)`. -/
def findSlashes (text : List Char) (start : Nat) : Option Nat :=
  (List.range' start (text.length - start)).find? fun i => ['/', '/'].isPrefixOf (text.drop i)

/-- Where the run of scheme characters that ends before the place starts. -/
def runStart (text : List Char) : Nat → Nat
  | 0 => 0
  | n + 1 => if text[n]?.any isSchemeChar then runStart text n else n + 1

def schemeStart (text : List Char) (slash : Nat) : Nat :=
  if slash < 2 ∨ text[slash - 1]? ≠ some ':' ∨ text[slash - 2]?.any isSchemeChar = false then slash
  else
    let first := runStart text (slash - 2)
    ((List.range' first (slash - 1 - first)).find? fun i =>
      text[i]?.any isSchemeLetter).getD slash

def urlLoop (text : List Char) : (fuel : Nat) → Option Nat → Option Nat
  | 0, _ => none
  | _ + 1, none => none
  | fuel + 1, some start =>
    if text[start + 2]?.any isUrlBodyChar then some (schemeStart text start)
    else urlLoop text fuel (findSlashes text (start + 1))

/-- `_url_start`. -/
def urlStart (text : List Char) : Option Nat :=
  urlLoop text (text.length + 1) (findSlashes text 0)

/-- The expression the scan stands for. -/
def URL_PATTERN : Regex :=
  .seq (.opt (.seq (.chr caselessLetter) (.seq (.many 0 none schemeClass) (.chr (· = ':')))))
    (.seq (Regex.lit ['/', '/']) (.many 1 none isUrlBodyChar))

/-! ### What the scan finds -/

/-- The slashes of a URL are at the place. -/
def bodyAt (text : List Char) (i : Nat) : Bool :=
  ['/', '/'].isPrefixOf (text.drop i) && text[i + 2]?.any isUrlBodyChar

theorem bodyAt_iff :
    bodyAt text i = true ↔ ∃ c rest, text.drop i = '/' :: '/' :: c :: rest ∧
      isUrlBodyChar c = true := by
  have hget : text[i + 2]? = (text.drop i)[2]? := by rw [getElem?_drop]
  rw [bodyAt, Bool.and_eq_true, hget]
  match text.drop i with
  | [] => simp
  | [a] => simp
  | [a, b] => simp
  | a :: b :: c :: rest =>
    simp only [List.isPrefixOf, Bool.and_true, Bool.and_eq_true, beq_iff_eq, List.cons.injEq,
      getElem?_cons_succ, getElem?_cons_zero, Option.any_some]
    constructor
    · rintro ⟨⟨rfl, rfl⟩, hc⟩
      exact ⟨c, rest, ⟨rfl, rfl, rfl, rfl⟩, hc⟩
    · rintro ⟨c', rest', ⟨rfl, rfl, rfl, rfl⟩, hc⟩
      exact ⟨⟨rfl, rfl⟩, hc⟩

theorem bodyAt_lt (h : bodyAt text i = true) : i < text.length := by
  obtain ⟨c, rest, hdrop, -⟩ := bodyAt_iff.mp h
  by_contra hge
  rw [drop_eq_nil_of_le (Nat.le_of_not_lt hge)] at hdrop
  cases hdrop

theorem findSlashes_eq_some {start : Nat} :
    findSlashes text start = some i ↔ ['/', '/'].isPrefixOf (text.drop i) = true ∧ start ≤ i ∧
      i < text.length ∧ ∀ j, start ≤ j → j < i → ['/', '/'].isPrefixOf (text.drop j) = false := by
  rw [findSlashes, find?_range'_eq_some, mem_range'_1]
  simp only [Bool.not_eq_true']
  constructor
  · rintro ⟨hp, ⟨hle, hlt⟩, hall⟩
    exact ⟨hp, hle, by omega, hall⟩
  · rintro ⟨hp, hle, hlt, hall⟩
    exact ⟨hp, ⟨hle, by omega⟩, hall⟩

/-- The loop goes from slashes to slashes, and ends at the first that start a URL. -/
theorem urlLoop_eq (text : List Char) (fuel start : Nat) (h : text.length < start + fuel) :
    urlLoop text fuel (findSlashes text start) =
      ((List.range' start (text.length - start)).find? (bodyAt text)).map (schemeStart text) := by
  induction fuel generalizing start with
  | zero =>
    have hzero : text.length - start = 0 := by omega
    simp [urlLoop, hzero]
  | succ fuel ih =>
    cases hfind : findSlashes text start with
    | none =>
      have hnone : (List.range' start (text.length - start)).find? (bodyAt text) = none := by
        rw [find?_eq_none]
        intro i hi hbody
        rw [findSlashes, find?_eq_none] at hfind
        exact hfind i hi (Bool.and_eq_true _ _ ▸ hbody).1
      rw [urlLoop, hnone]
      rfl
    | some i =>
      obtain ⟨hp, hle, hlt, hbefore⟩ := findSlashes_eq_some.mp hfind
      have hsplit : List.range' start (text.length - start) =
          List.range' start (i - start) ++ i :: List.range' (i + 1) (text.length - (i + 1)) := by
        have hlength : text.length - start = (i - start) + (text.length - (i + 1) + 1) := by omega
        rw [hlength, ← range'_append_1, Nat.add_sub_cancel' hle, range'_succ]
      have hskip : (List.range' start (i - start)).find? (bodyAt text) = none := by
        rw [find?_eq_none]
        intro j hj hbody
        rw [mem_range'_1] at hj
        rw [bodyAt, hbefore j hj.1 (by omega)] at hbody
        cases hbody
      rw [urlLoop, hsplit, find?_append, hskip, Option.none_or, find?_cons]
      have hbody : bodyAt text i = text[i + 2]?.any isUrlBodyChar := by
        rw [bodyAt, hp, Bool.true_and]
      rw [hbody]
      cases text[i + 2]?.any isUrlBodyChar with
      | true => rfl
      | false => exact ih (i + 1) (by omega)

theorem urlStart_eq (text : List Char) :
    urlStart text = ((List.range text.length).find? (bodyAt text)).map (schemeStart text) := by
  rw [urlStart, urlLoop_eq text _ 0 (by omega), Nat.sub_zero, range_eq_range']

/-! ### The scheme -/

theorem runStart_le (text : List Char) (n : Nat) : runStart text n ≤ n := by
  induction n with
  | zero => exact Nat.le_refl 0
  | succ n ih =>
    rw [runStart]
    split
    · exact Nat.le_succ_of_le ih
    · exact Nat.le_refl _

theorem runStart_all {n : Nat} (hi : runStart text n ≤ i) (hn : i < n) :
    text[i]?.any isSchemeChar = true := by
  induction n with
  | zero => exact absurd hn (Nat.not_lt_zero i)
  | succ n ih =>
    rw [runStart] at hi
    split at hi
    · next hchar =>
      rcases Nat.lt_or_ge i n with hlt | hge
      · exact ih hi hlt
      · rw [Nat.le_antisymm (Nat.le_of_lt_succ hn) hge]
        exact hchar
    · exact absurd hn (by omega)

theorem runStart_le_of_all {n p : Nat} (h : ∀ i, p ≤ i → i < n → text[i]?.any isSchemeChar = true)
    (hp : p ≤ n) : runStart text n ≤ p := by
  induction n with
  | zero => rw [Nat.le_zero.mp hp]; exact Nat.le_refl 0
  | succ n ih =>
    rw [runStart]
    rcases Nat.lt_or_ge n p with hlt | hge
    · rw [Nat.le_antisymm hp hlt]
      split
      · exact Nat.le_succ_of_le (runStart_le text n)
      · exact Nat.le_refl _
    · rw [if_pos (h n hge (Nat.lt_succ_self n))]
      exact ih (fun i hi hn => h i hi (Nat.lt_succ_of_lt hn)) hge

/-- A scheme starts at the one place and ends with the colon at the other. -/
structure SchemeAt (text : List Char) (p colon : Nat) : Prop where
  letter : text[p]?.any caselessLetter = true
  chars : ∀ i, p < i → i < colon → text[i]?.any schemeClass = true
  ends : text[colon]? = some ':'
  lt : p < colon

theorem schemeClass_of_letter (h : caselessLetter c = true) : schemeClass c = true := by
  simp [schemeClass, h]

theorem any_mono {p q : Char → Bool} (hpq : ∀ c, p c = true → q c = true) {o : Option Char}
    (h : o.any p = true) : o.any q = true := by
  cases o with
  | none => cases h
  | some c => exact hpq c h

/-- **The widened slashes**: the place is theirs, or the first at which a scheme before them
starts. -/
theorem schemeStart_cases (text : List Char) (slash : Nat) :
    (schemeStart text slash = slash ∧ ∀ p, ¬ SchemeAt text p (slash - 1)) ∨
      (SchemeAt text (schemeStart text slash) (slash - 1) ∧ schemeStart text slash < slash ∧
        ∀ p, SchemeAt text p (slash - 1) → schemeStart text slash ≤ p) := by
  simp only [schemeStart, isSchemeChar_eq, isSchemeLetter_eq]
  split
  · next hno =>
    refine .inl ⟨rfl, fun p hp => ?_⟩
    have hlt := hp.lt
    rcases hno with hno | hno | hno
    · have hcolon := hp.ends
      omega
    · exact hno hp.ends
    · have hlast : text[slash - 2]?.any schemeClass = true := by
        rcases Nat.lt_or_ge p (slash - 2) with h | h
        · exact hp.chars _ h (by omega)
        · rw [show slash - 2 = p by omega]
          exact any_mono (fun _ => schemeClass_of_letter) hp.letter
      rw [hlast] at hno
      cases hno
  · next hyes =>
    simp only [not_or, Nat.not_lt, not_not, Bool.not_eq_false] at hyes
    obtain ⟨htwo, hcolon, hchar⟩ := hyes
    have hfirst := runStart_le text (slash - 2)
    have hscheme : ∀ i, runStart text (slash - 2) ≤ i → i < slash - 1 →
        text[i]?.any schemeClass = true := by
      intro i hi hlt
      rcases Nat.lt_or_ge i (slash - 2) with h | h
      · rw [← isSchemeChar_eq]
        exact runStart_all hi h
      · rw [show i = slash - 2 by omega]
        exact hchar
    have hleft : ∀ p, SchemeAt text p (slash - 1) → runStart text (slash - 2) ≤ p := by
      intro p hp
      have hlt := hp.lt
      refine runStart_le_of_all (fun i hi hn => ?_) (by omega)
      rw [isSchemeChar_eq]
      rcases Nat.lt_or_ge p i with h | h
      · exact hp.chars i h (by omega)
      · rw [Nat.le_antisymm h hi]
        exact any_mono (fun _ => schemeClass_of_letter) hp.letter
    cases hfind : (List.range' (runStart text (slash - 2))
        (slash - 1 - runStart text (slash - 2))).find? fun i => text[i]?.any caselessLetter with
    | none =>
      refine .inl ⟨rfl, fun p hp => ?_⟩
      rw [find?_eq_none] at hfind
      have hlt := hp.lt
      have hmem := hleft p hp
      exact hfind p (mem_range'_1.mpr ⟨hmem, by omega⟩) hp.letter
    | some p =>
      obtain ⟨hletter, hmem, hall⟩ := find?_range'_eq_some.mp hfind
      rw [mem_range'_1] at hmem
      refine .inr ?_
      rw [Option.getD_some]
      refine ⟨⟨hletter, fun i hi hlt => hscheme i (by omega) hlt, hcolon, by omega⟩, by omega,
        fun q hq => ?_⟩
      by_contra hlt
      have hno := hall q (hleft q hq) (Nat.lt_of_not_le hlt)
      rw [hq.letter] at hno
      cases hno

/-! ### What the expression finds -/

theorem matches_slashes {s : Cursor} :
    (∃ t, Matches (.seq (Regex.lit ['/', '/']) (.many 1 none isUrlBodyChar)) s t) ↔
      ∃ c rest, s.after = '/' :: '/' :: c :: rest ∧ isUrlBodyChar c = true := by
  constructor
  · rintro ⟨t, ht⟩
    obtain ⟨u, hu, ht⟩ := matches_seq.mp ht
    obtain ⟨hafter, -⟩ := matches_lit.mp hu
    obtain ⟨w, hlength, hall, hw, -⟩ := matches_many.mp ht
    cases w with
    | nil => cases hlength
    | cons c w =>
      refine ⟨c, w ++ t.after, ?_, hall c mem_cons_self⟩
      rw [hafter, hw]
      rfl
  · rintro ⟨c, rest, hafter, hc⟩
    refine ⟨⟨[c] ++ (['/', '/'].reverse ++ s.before), rest⟩, matches_seq.mpr
      ⟨⟨['/', '/'].reverse ++ s.before, c :: rest⟩, matches_lit.mpr ⟨hafter, rfl⟩,
        matches_many.mpr ⟨[c], Nat.le_refl 1, fun d hd => ?_, rfl, rfl⟩⟩⟩
    rw [mem_singleton.mp hd]
    exact hc

/-- The expression matches where a URL's slashes are, or a scheme that ends at them starts. -/
theorem matchAt_url {p : Nat} :
    (matchAt URL_PATTERN (Cursor.skip (.start text) p)).isSome = true ↔
      bodyAt text p = true ∨ ∃ colon, SchemeAt text p colon ∧ bodyAt text (colon + 1) = true := by
  rw [matchAt_isSome]
  have hafter : (Cursor.skip (.start text) p).after = text.drop p := rfl
  constructor
  · rintro ⟨t, ht⟩
    obtain ⟨u, hu, ht⟩ := matches_seq.mp ht
    obtain ⟨c, rest, hbody, hc⟩ := matches_slashes.mp ⟨t, ht⟩
    rcases matches_opt.mp hu with hu | rfl
    · obtain ⟨v, hv, hu⟩ := matches_seq.mp hu
      obtain ⟨x, hx, hu⟩ := matches_seq.mp hu
      obtain ⟨l, hl, hlafter, -⟩ := matches_chr.mp hv
      obtain ⟨w, -, hw, hwafter, -⟩ := matches_many.mp hx
      obtain ⟨k, hk, hkafter, -⟩ := matches_chr.mp hu
      rw [decide_eq_true_eq] at hk
      have hdrop : text.drop p = l :: w ++ ':' :: u.after := by
        rw [← hafter, hlafter, hwafter, hkafter, hk]
        rfl
      have hget : ∀ i, text[p + i]? = (l :: w ++ ':' :: u.after)[i]? := by
        intro i
        rw [← hdrop, getElem?_drop]
      refine .inr ⟨p + (w.length + 1), ⟨?_, fun i hi hlt => ?_, ?_, by omega⟩, ?_⟩
      · have hfirst := hget 0
        rw [Nat.add_zero] at hfirst
        rw [hfirst]
        exact hl
      · obtain ⟨j, rfl⟩ := Nat.exists_eq_add_of_lt hi
        have hj : j < w.length := by omega
        rw [Nat.add_assoc, hget, cons_append, getElem?_cons_succ,
          getElem?_append_left hj, getElem?_eq_getElem hj]
        exact hw _ (getElem_mem hj)
      · rw [hget, getElem?_append_right (by simp)]
        simp
      · refine bodyAt_iff.mpr ⟨c, rest, ?_, hc⟩
        rw [Nat.add_assoc, ← drop_drop, hdrop, ← hbody]
        rw [show w.length + 1 + 1 = (l :: w).length + 1 from rfl, drop_append]
        simp
    · exact .inl (bodyAt_iff.mpr ⟨c, rest, hbody, hc⟩)
  · rintro (hbody | ⟨colon, hscheme, hbody⟩)
    · obtain ⟨c, rest, hdrop, hc⟩ := bodyAt_iff.mp hbody
      obtain ⟨t, ht⟩ := matches_slashes.mpr ⟨c, rest, hafter.trans hdrop, hc⟩
      exact ⟨t, matches_seq.mpr ⟨_, matches_opt.mpr (.inr rfl), ht⟩⟩
    · obtain ⟨c, rest, hdrop, hc⟩ := bodyAt_iff.mp hbody
      have hlt := hscheme.lt
      have hcolon := (List.getElem?_eq_some_iff.mp hscheme.ends)
      obtain ⟨hclt, hceq⟩ := hcolon
      have hplt : p < text.length := by omega
      -- the text from the place on: the letter, the other characters, the colon, the slashes
      have htext : text.drop p = text[p] ::
          ((text.drop (p + 1)).take (colon - (p + 1)) ++ ':' :: '/' :: '/' :: c :: rest) := by
        rw [drop_eq_getElem_cons hplt]
        congr 1
        conv_lhs => rw [← take_append_drop (colon - (p + 1)) (text.drop (p + 1))]
        rw [drop_drop, Nat.add_sub_cancel' hlt, drop_eq_getElem_cons hclt, hceq, hdrop]
      set w := (text.drop (p + 1)).take (colon - (p + 1)) with hw
      have hall : ∀ d ∈ w, schemeClass d = true := by
        intro d hd
        obtain ⟨i, hi, rfl⟩ := mem_iff_getElem.mp hd
        have hilt : i < colon - (p + 1) := by
          rw [hw, length_take] at hi
          omega
        have hchar := hscheme.chars (p + 1 + i) (by omega) (by omega)
        have hget : text[p + 1 + i]? = some w[i] := by
          rw [← getElem?_eq_getElem hi, hw, getElem?_take_of_lt hilt, getElem?_drop]
        rw [hget] at hchar
        exact hchar
      have hletter : caselessLetter text[p] = true := by
        have h := hscheme.letter
        rw [getElem?_eq_getElem hplt] at h
        exact h
      let s := Cursor.skip (.start text) p
      let slashes : Cursor :=
        ⟨':' :: (w.reverse ++ text[p] :: s.before), '/' :: '/' :: c :: rest⟩
      have hslashes : slashes.after = '/' :: '/' :: c :: rest := rfl
      obtain ⟨t, ht⟩ := matches_slashes.mpr ⟨c, rest, hslashes, hc⟩
      refine ⟨t, matches_seq.mpr ⟨_, matches_opt.mpr (.inl (matches_seq.mpr
        ⟨⟨text[p] :: s.before, w ++ ':' :: '/' :: '/' :: c :: rest⟩,
          matches_chr.mpr ⟨text[p], hletter, htext, rfl⟩, matches_seq.mpr
            ⟨⟨w.reverse ++ text[p] :: s.before, ':' :: '/' :: '/' :: c :: rest⟩,
              matches_many.mpr ⟨w, Nat.zero_le _, hall, rfl, rfl⟩,
              matches_chr.mpr ⟨':', by simp, rfl, rfl⟩⟩⟩)), ht⟩⟩

/-- **The scan finds what the expression finds.** -/
theorem urlStart_eq_search (text : List Char) :
    urlStart text = (search URL_PATTERN [] text).map fun m => m.start.pos := by
  have hzero : (fun i : Nat => ([] : List Char).length + i) = id := by
    funext i
    exact Nat.zero_add i
  rw [urlStart_eq, search_pos, hzero, Option.map_id, id]
  have hbefore : ∀ i, Cursor.skip ⟨[], text⟩ i = Cursor.skip (.start text) i := fun _ => rfl
  cases hfind : (List.range text.length).find? (bodyAt text) with
  | none =>
    rw [find?_eq_none] at hfind
    have hno : ∀ i, bodyAt text i = false := by
      intro i
      rw [← Bool.not_eq_true]
      exact fun h => hfind i (List.mem_range.mpr (bodyAt_lt h)) h
    refine (find?_eq_none.mpr fun p _ hp => ?_).symm
    rcases matchAt_url.mp hp with h | ⟨colon, -, h⟩
    · rw [hno] at h
      cases h
    · rw [hno] at h
      cases h
  | some slash =>
    obtain ⟨hbody, hmem, hfirst⟩ := find?_range_eq_some.mp hfind
    rw [List.mem_range] at hmem
    refine (find?_range_eq_some.mpr ⟨?_, ?_, fun p hp => ?_⟩).symm
    · refine matchAt_url.mpr ?_
      rcases schemeStart_cases text slash with ⟨heq, -⟩ | ⟨hscheme, hlt, -⟩
      · rw [heq]
        exact .inl hbody
      · refine .inr ⟨slash - 1, hscheme, ?_⟩
        rwa [Nat.sub_add_cancel (by omega)]
    · rw [List.mem_range]
      rcases schemeStart_cases text slash with ⟨heq, -⟩ | ⟨-, hlt, -⟩ <;> omega
    · rw [Bool.not_eq_true']
      rw [← Bool.not_eq_true]
      intro hmatch
      have hle : schemeStart text slash ≤ slash := by
        rcases schemeStart_cases text slash with ⟨heq, -⟩ | ⟨-, hlt, -⟩ <;> omega
      rcases matchAt_url.mp hmatch with h | ⟨colon, hscheme, h⟩
      · have hno := hfirst p (by omega)
        rw [h] at hno
        cases hno
      · -- the slashes after the scheme are the first ones: a scheme has no slash in it
        have hslash : slash = colon + 1 := by
          by_contra hne
          rcases Nat.lt_or_ge (colon + 1) slash with hlt | hge
          · have hno := hfirst (colon + 1) hlt
            rw [h] at hno
            cases hno
          · obtain ⟨c, rest, hdrop, -⟩ := bodyAt_iff.mp hbody
            have hget : text[slash]? = some '/' := by
              have := congrArg (fun xs : List Char => xs[0]?) hdrop
              rwa [getElem?_drop] at this
            rcases Nat.lt_or_ge slash colon with hlt | hge'
            · have hchar := hscheme.chars slash (by omega) hlt
              rw [hget] at hchar
              revert hchar
              decide
            · rw [show slash = colon by omega, hscheme.ends] at hget
              cases hget
        rcases schemeStart_cases text slash with ⟨-, hno⟩ | ⟨-, -, hleft⟩
        · refine hno p ?_
          rwa [hslash, Nat.add_sub_cancel]
        · have hle' := hleft p (by rwa [hslash, Nat.add_sub_cancel])
          omega

end KolegaCode.Subjects
