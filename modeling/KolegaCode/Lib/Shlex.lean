import Mathlib.Data.List.Basic

/-!
# Lib — command lines

Python's two ways of taking a command line apart: `shlex.split`, which knows quotes and
backslashes, and `str.split`.  A text is the list of its characters.
-/

namespace KolegaCode.Shlex

open List

/-! ### `shlex.split` -/

/-- `shlex.whitespace`. -/
def isBlank (c : Char) : Bool := c = ' ' || c = '\t' || c = '\r' || c = '\n'

/-- `shlex.quotes`. -/
def isQuote (c : Char) : Bool := c = '"' || c = '\''

/-- The lexer's state: between words, in a word, in quotes, or after a backslash, in a word or in
quotes. -/
inductive LexState
  | space
  | word
  | quoted (quote : Char)
  | escaped (quote : Option Char)
  deriving DecidableEq, Repr

/-- The words of the rest of a command line; `token` is what was read of the current one.  A word
that was begun is always given out, also an empty one in quotes. -/
def wordsFrom : LexState → List Char → List Char → Option (List (List Char))
  | .space, _, [] => some []
  | .word, token, [] => some [token]
  -- "No closing quotation", "No escaped character"
  | .quoted _, _, [] => none
  | .escaped _, _, [] => none
  | .space, _, c :: cs =>
      if isBlank c then wordsFrom .space [] cs
      else if c = '\\' then wordsFrom (.escaped none) [] cs
      else if isQuote c then wordsFrom (.quoted c) [] cs
      else wordsFrom .word [c] cs
  | .word, token, c :: cs =>
      if isBlank c then (wordsFrom .space [] cs).map (token :: ·)
      else if isQuote c then wordsFrom (.quoted c) token cs
      else if c = '\\' then wordsFrom (.escaped none) token cs
      else wordsFrom .word (token ++ [c]) cs
  | .quoted q, token, c :: cs =>
      if c = q then wordsFrom .word token cs
      else if c = '\\' ∧ q = '"' then wordsFrom (.escaped (some q)) token cs
      else wordsFrom (.quoted q) (token ++ [c]) cs
  | .escaped none, token, c :: cs => wordsFrom .word (token ++ [c]) cs
  | .escaped (some q), token, c :: cs =>
      -- in quotes only the quote and the backslash may be escaped
      let token := if c ≠ '\\' ∧ c ≠ q then token ++ ['\\', c] else token ++ [c]
      wordsFrom (.quoted q) token cs

/-- `shlex.split(command)`; nothing when it raises `ValueError`. -/
def split (command : List Char) : Option (List (List Char)) := wordsFrom .space [] command

/-- A character that stands for itself in a word. -/
def isPlain (c : Char) : Bool := !isBlank c && !isQuote c && c ≠ '\\'

theorem isPlain_cases {c : Char} (h : isPlain c = true) :
    isBlank c = false ∧ isQuote c = false ∧ c ≠ '\\' := by
  simpa [isPlain, and_assoc] using h

theorem wordsFrom_plain {word : List Char} (h : ∀ c ∈ word, isPlain c = true) :
    ∀ token rest : List Char,
      wordsFrom .word token (word ++ rest) = wordsFrom .word (token ++ word) rest := by
  induction word with
  | nil =>
    intro token rest
    rw [nil_append, append_nil]
  | cons c word ih =>
    intro token rest
    obtain ⟨hblank, hquote, hback⟩ := isPlain_cases (h c mem_cons_self)
    rw [cons_append, wordsFrom, hblank, hquote, if_neg Bool.false_ne_true,
      if_neg Bool.false_ne_true, if_neg hback, ih fun c hc => h c (mem_cons_of_mem _ hc),
      append_assoc]
    rfl

theorem wordsFrom_space_plain {word : List Char} (h : ∀ c ∈ word, isPlain c = true)
    (hne : word ≠ []) (rest : List Char) :
    wordsFrom .space [] (word ++ rest) = wordsFrom .word word rest := by
  cases word with
  | nil => exact absurd rfl hne
  | cons c word =>
    obtain ⟨hblank, hquote, hback⟩ := isPlain_cases (h c mem_cons_self)
    rw [cons_append, wordsFrom, hblank, hquote, if_neg Bool.false_ne_true, if_neg hback,
      if_neg Bool.false_ne_true, wordsFrom_plain fun c hc => h c (mem_cons_of_mem _ hc)]
    rfl

theorem split_plain {word : List Char} (h : ∀ c ∈ word, isPlain c = true) (hne : word ≠ [])
    (rest : List Char) : split (word ++ ' ' :: rest) = (split rest).map (word :: ·) := by
  rw [split, wordsFrom_space_plain h hne]
  rfl

theorem split_plain_last {word : List Char} (h : ∀ c ∈ word, isPlain c = true) (hne : word ≠ []) :
    split word = some [word] := by
  have hword := wordsFrom_space_plain h hne []
  rw [append_nil] at hword
  rw [split, hword, wordsFrom]

/-! ### `str.split` -/

section

-- the class of characters that separate words
variable (p : Char → Bool)

/-- The words of the rest of a text; `word` is what was read of the current one. -/
def splitFrom (word : List Char) : List Char → List (List Char)
  | [] => if word.isEmpty then [] else [word]
  | c :: cs =>
      if p c then (if word.isEmpty then splitFrom [] cs else word :: splitFrom [] cs)
      else splitFrom (word ++ [c]) cs

/-- `text.split()`. -/
def splitWhitespace (text : List Char) : List (List Char) := splitFrom p [] text

end

end KolegaCode.Shlex
