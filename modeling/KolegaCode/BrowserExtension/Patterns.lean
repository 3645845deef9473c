import KolegaCode.Lib.Text
import KolegaCode.Lib.Except
import KolegaCode.Hashline.Hash
import Mathlib.Data.List.DropRight

/-!
# Browser extension — the patterns a request may hold

`_validate_safe_pattern` scans a pattern and refuses what its grammar has not: groups, alternation,
backreferences, and a quantifier on more than one atom.
-/

namespace KolegaCode.BrowserExtension

open Text (isDecimal decimalZeros)
open Hashline (isSpace)

/-! ### Errors and texts -/

def MAX_ERROR_MESSAGE_LENGTH : Nat := 240

structure ProtocolValidationError where
  code : String
  message : String
deriving DecidableEq, Repr

/-- `_invalid`: the message is bounded. -/
def invalid (code message : String) : ProtocolValidationError where
  code := code
  message := String.ofList (message.toList.take MAX_ERROR_MESSAGE_LENGTH)

def paramsError (message : String) : ProtocolValidationError := invalid "invalid_params" message

/-- `_utf16_length`. -/
def utf16Length (value : List Char) : Nat :=
  (value.map fun c => if c.toNat > 0xFFFF then 2 else 1).sum

/-- A string `_string_param` takes. -/
def StringParam (maximum : Nat) (nonempty : Bool) (value : List Char) : Prop :=
  utf16Length value ≤ maximum ∧ (nonempty = true → ∃ c ∈ value, isSpace c = false) ∧
    '\x00' ∉ value

instance (maximum : Nat) (nonempty : Bool) (value : List Char) :
    Decidable (StringParam maximum nonempty value) :=
  inferInstanceAs (Decidable (_ ∧ (_ → ∃ c ∈ value, _) ∧ _))

/-! ### Digits -/

/-- The characters other than decimal digits for which `str.isdigit` holds (Unicode 14). -/
def otherDigits : List (Nat × Nat) :=
  [(0xb2, 0xb3), (0xb9, 0xb9), (0x1369, 0x1371), (0x19da, 0x19da), (0x2070, 0x2070),
    (0x2074, 0x2079), (0x2080, 0x2089), (0x2460, 0x2468), (0x2474, 0x247c), (0x2488, 0x2490),
    (0x24ea, 0x24ea), (0x24f5, 0x24fd), (0x24ff, 0x24ff), (0x2776, 0x277e), (0x2780, 0x2788),
    (0x278a, 0x2792), (0x10a40, 0x10a43), (0x10e60, 0x10e68), (0x11052, 0x1105a),
    (0x1f100, 0x1f10a)]

/-- `character.isdigit()`. -/
def isDigit (c : Char) : Bool :=
  isDecimal c || otherDigits.any fun r => r.1 ≤ c.toNat && c.toNat ≤ r.2

/-- The value of a decimal digit of any script. -/
def digitValue (c : Char) : Nat :=
  ((decimalZeros.find? fun z => z ≤ c.toNat && c.toNat ≤ z + 9).map (c.toNat - ·)).getD 0

/-- `int(text)` of decimal digits. -/
def intOf (digits : List Char) : Nat := digits.foldl (fun n c => 10 * n + digitValue c) 0

/-! ### The scanner -/

def MAX_PATTERN_QUANTIFIERS : Nat := 4
def MAX_PATTERN_REPETITION : Nat := 1000

def isHexDigit (c : Char) : Bool := c ∈ "0123456789abcdefABCDEF".toList

def isSimpleEscape (c : Char) : Bool := c ∈ "bBdfnrsStvwW0".toList

def isSyntaxEscape (c : Char) : Bool := c ∈ "^$\\.*+?()[]\x7b\x7d|/".toList

/-- What `[1-9kpP]` matches. -/
def isReference (c : Char) : Bool := c ∈ "123456789kpP".toList

def PATTERN_SUBSET_HINT : String :=
  "supported: literals, '.', character classes, anchors, escapes, and the quantifiers ?, *, + and " ++
    "\x7bn,m\x7d applied to a single character or class; not supported: groups, alternation, " ++
    "backreferences"

section

variable (name : String)

def unsupported : ProtocolValidationError :=
  paramsError (name ++ " uses unsupported syntax; " ++ PATTERN_SUBSET_HINT)

/-- `read_escape`, behind the backslash: what follows the escape. -/
def readEscape (unicodeMode inClass : Bool) :
    List Char → Except ProtocolValidationError (List Char)
  | [] => .error (paramsError (name ++ " is invalid"))
  | character :: rest =>
    if isReference character = true ∨ character = '0' ∧ rest.head?.any isDigit = true then
      .error (paramsError
        (name ++ " does not support backreferences or unicode property escapes"))
    else if character = 'x' then
      let digits := rest.take 2
      if digits.length ≠ 2 ∨ digits.all isHexDigit = false then .error (unsupported name)
      else .ok (rest.drop 2)
    else if character = 'u' then
      let digits := rest.take 4
      if digits.length ≠ 4 ∨ digits.all isHexDigit = false then .error (unsupported name)
      else .ok (rest.drop 4)
    else if unicodeMode = true ∧ isSimpleEscape character = false ∧
        isSyntaxEscape character = false ∧ ¬ (character = '-' ∧ inClass = true) then
      .error (unsupported name)
    else .ok rest

theorem length_readEscape_lt {unicodeMode inClass : Bool} {source rest : List Char}
    (h : readEscape name unicodeMode inClass source = .ok rest) : rest.length < source.length := by
  cases source with
  | nil => cases h
  | cons character source =>
    simp only [readEscape] at h
    rw [List.length_cons]
    split at h
    · cases h
    · split at h
      · split at h <;> cases h
        rw [List.length_drop]
        omega
      · split at h
        · split at h <;> cases h
          rw [List.length_drop]
          omega
        · split at h <;> cases h
          exact Nat.lt_succ_self _

/-- The inner loop, behind an opening bracket: what follows the class. -/
def scanClass (unicodeMode : Bool) (source : List Char) :
    Except ProtocolValidationError (List Char) :=
  match source with
  | [] => .error (paramsError (name ++ " is invalid"))
  | inner :: source =>
    if inner = '\\' then
      match _h : readEscape name unicodeMode true source with
      | .error e => .error e
      | .ok rest => scanClass unicodeMode rest
    else if inner = '[' then .error (unsupported name)
    else if inner = ']' then .ok source
    else scanClass unicodeMode source
termination_by source.length
decreasing_by
  · have := length_readEscape_lt name _h
    simp only [List.length_cons]
    omega
  · simp

theorem length_scanClass_lt {unicodeMode : Bool} {source rest : List Char}
    (h : scanClass name unicodeMode source = .ok rest) : rest.length < source.length := by
  fun_induction scanClass name unicodeMode source with
  | case1 => cases h
  | case2 => cases h
  | case3 source rest' hread ih =>
    have := length_readEscape_lt name hread
    have := ih h
    rw [List.length_cons]
    omega
  | case4 => cases h
  | case5 source =>
    cases h
    exact Nat.lt_succ_self _
  | case6 inner source _ _ _ ih =>
    rw [List.length_cons]
    exact Nat.lt_succ_of_lt (ih h)

end

/-- The groups of `(\d{1,4})(?:,(\d{0,4}))?`, matched against all of a bound. -/
def matchBound (bound : List Char) : Option (List Char × Option (List Char)) :=
  let minimum := bound.takeWhile (· ≠ ',')
  if 1 ≤ minimum.length ∧ minimum.length ≤ 4 ∧ minimum.all isDecimal = true then
    match bound.dropWhile (· ≠ ',') with
    | [] => some (minimum, none)
    | _ :: maximum =>
      if maximum.length ≤ 4 ∧ maximum.all isDecimal = true then some (minimum, some maximum)
      else none
  else none

/-- The largest number of repetitions, if there is one. -/
def maximumOf (minimum : Nat) : Option (List Char) → Option Nat
  | none => some minimum
  | some [] => none
  | some text => some (intOf text)

/-- A repetition bound, between its braces. -/
def checkBound (name : String) (quantifiable : Bool) (bound : List Char) :
    Except ProtocolValidationError Unit :=
  match matchBound bound with
  | none => .error (paramsError (name ++ " has an invalid repetition bound"))
  | some (minimumText, maximumText) =>
    if quantifiable = false then
      .error (paramsError (name ++ " has a quantifier with nothing to repeat"))
    else
      let minimum := intOf minimumText
      let maximum := maximumOf minimum maximumText
      if maximum.any (· < minimum) = true then
        .error (paramsError (name ++ " has an invalid repetition bound"))
      else if max minimum (maximum.getD 0) > MAX_PATTERN_REPETITION then
        .error (paramsError
          (name ++ " allows repetition counts up to " ++ toString MAX_PATTERN_REPETITION))
      else .ok ()

/-- The main loop: the number of quantifiers. -/
def scan (name : String) (unicodeMode : Bool) (quantifiers : Nat) (quantifiable : Bool)
    (source : List Char) : Except ProtocolValidationError Nat :=
  match source with
  | [] => .ok quantifiers
  | character :: source =>
    if character = '\\' then
      match _h : readEscape name unicodeMode false source with
      | .error e => .error e
      | .ok rest => scan name unicodeMode quantifiers true rest
    else if character = '[' then
      match _h : scanClass name unicodeMode source with
      | .error e => .error e
      | .ok rest => scan name unicodeMode quantifiers true rest
    else if character = '(' ∨ character = ')' then
      .error (paramsError (name ++ " does not support groups; remove '(' and ')'"))
    else if character = '|' then
      .error (paramsError (name ++ " does not support alternation; remove '|'"))
    else if character = '*' ∨ character = '+' ∨ character = '?' then
      if quantifiable = false then
        .error (paramsError (name ++ " has a quantifier with nothing to repeat"))
      else scan name unicodeMode (quantifiers + 1) false source
    else if character = '{' then
      if '}' ∉ source then
        .error (paramsError (name ++ " has an unterminated repetition bound"))
      else
        match checkBound name quantifiable (source.takeWhile (· ≠ '}')) with
        | .error e => .error e
        | .ok _ =>
          scan name unicodeMode (quantifiers + 1) false ((source.dropWhile (· ≠ '}')).drop 1)
    else if character = ']' ∨ character = '}' then .error (unsupported name)
    else scan name unicodeMode quantifiers (character ≠ '^' && character ≠ '$') source
termination_by source.length
decreasing_by
  · have := length_readEscape_lt name _h
    simp only [List.length_cons]
    omega
  · have := length_scanClass_lt name _h
    simp only [List.length_cons]
    omega
  · simp
  · have := (List.dropWhile_sublist (fun c => decide (c ≠ '}')) (l := source)).length_le
    simp only [List.length_cons, List.length_drop]
    omega
  · simp

/-- A letter of `[a-z]`. -/
def isLowercase (c : Char) : Bool := 'a' ≤ c && c ≤ 'z'

/-- The groups of `/(.*)/([a-z]*)`, matched against all of an expression. -/
def matchLiteral : List Char → Option (List Char × List Char)
  | '/' :: rest =>
    let front := rest.rdropWhile isLowercase
    if front.getLast? = some '/' ∧ '\n' ∉ front.dropLast then
      some (front.dropLast, rest.rtakeWhile isLowercase)
    else none
  | _ => none

-- the flags are gone through, not all characters
attribute [local instance (high)] List.decidableBEx

def validateSafePattern (value : List Char) (name : String) :
    Except ProtocolValidationError Unit :=
  if StringParam 200 true value then
    let (source, flags) := (matchLiteral value).getD (value, [])
    if (∃ c ∈ flags, c ∉ ['i', 'm', 'u']) ∨ ¬ flags.Nodup then
      .error (paramsError (name ++ " has unsupported flags"))
    else
      match scan name ('u' ∈ flags) 0 false source with
      | .error e => .error e
      | .ok quantifiers =>
        if quantifiers > MAX_PATTERN_QUANTIFIERS then
          .error (paramsError
            (name ++ " allows at most " ++ toString MAX_PATTERN_QUANTIFIERS ++ " quantifiers"))
        else .ok ()
  else .error (paramsError (name ++ " is invalid"))

end KolegaCode.BrowserExtension
