import KolegaCode.Lib.Json

/-!
# Lib — JSON text

`dumps` is `json.dumps` with compact separators and without ASCII escapes; `loads` is `json.loads`
of a text, Python's scanner: a value is read from the front of the text and the rest is returned,
white space is skipped between the tokens, a repeated key keeps its first place and its last value,
and a string may hold no control character.
-/

namespace KolegaCode.Json

/-! ### Writing -/

/-- The letter of the short escape of a character, if it has one. -/
def shortEscape : Char → Option Char
  | '\\' => some '\\'
  | '"' => some '"'
  | '\x08' => some 'b'
  | '\x0c' => some 'f'
  | '\n' => some 'n'
  | '\r' => some 'r'
  | '\t' => some 't'
  | _ => none

/-- The characters of a string as they are written between quotes. -/
def escapeChar (c : Char) : List Char :=
  match shortEscape c with
  | some e => ['\\', e]
  | none =>
    if c.toNat < 0x20 then
      ['\\', 'u', '0', '0', Nat.digitChar (c.toNat / 16), Nat.digitChar (c.toNat % 16)]
    else [c]

def dumpsString (s : String) : List Char := '"' :: (s.toList.flatMap escapeChar ++ ['"'])

def dumpsInt : Int → List Char
  | .ofNat n => Nat.toDigits 10 n
  | .negSucc n => '-' :: Nat.toDigits 10 (n + 1)

mutual

/-- `json.dumps(value, separators=(",", ":"), ensure_ascii=False)`. -/
def dumps : Json → List Char
  | null => ['n', 'u', 'l', 'l']
  | bool true => ['t', 'r', 'u', 'e']
  | bool false => ['f', 'a', 'l', 's', 'e']
  | int n => dumpsInt n
  | float repr => repr.toList
  | str s => dumpsString s
  | arr xs => '[' :: (dumpsItems xs ++ [']'])
  | obj fs => '{' :: (dumpsFields fs ++ ['}'])

/-- The items of a list, with commas between them. -/
def dumpsItems : List Json → List Char
  | [] => []
  | [x] => dumps x
  | x :: xs => dumps x ++ ',' :: dumpsItems xs

/-- The items of a dictionary, with commas between them. -/
def dumpsFields : Dict → List Char
  | [] => []
  | [(k, v)] => dumpsString k ++ ':' :: dumps v
  | (k, v) :: fs => dumpsString k ++ ':' :: (dumps v ++ ',' :: dumpsFields fs)

end

/-! ### Reading -/

/-- The white space of JSON. -/
def isWs (c : Char) : Bool := c = ' ' || c = '\t' || c = '\n' || c = '\r'

def skipWs (s : List Char) : List Char := s.dropWhile isWs

def hexValue (c : Char) : Option Nat :=
  if c.isDigit then some (c.toNat - '0'.toNat)
  else if 'a' ≤ c ∧ c ≤ 'f' then some (c.toNat - 'a'.toNat + 10)
  else if 'A' ≤ c ∧ c ≤ 'F' then some (c.toNat - 'A'.toNat + 10)
  else none

/-- The four digits after `\u`, and the rest. -/
def scanHex : List Char → Option (Nat × List Char)
  | a :: b :: c :: d :: s => do
    let a ← hexValue a
    let b ← hexValue b
    let c ← hexValue c
    let d ← hexValue d
    some (4096 * a + 256 * b + 16 * c + d, s)
  | _ => none

/-- The character of an escape `\e` other than `\u`. -/
def unescape : Char → Option Char
  | '"' => some '"'
  | '\\' => some '\\'
  | '/' => some '/'
  | 'b' => some '\x08'
  | 'f' => some '\x0c'
  | 'n' => some '\n'
  | 'r' => some '\r'
  | 't' => some '\t'
  | _ => none

/-- The character of an escape after its backslash, and the rest.  Two `\u` escapes of a surrogate
pair are one character; an unpaired surrogate is no character and is refused. -/
def scanEscape : List Char → Option (Char × List Char)
  | 'u' :: s => do
    let (n, s) ← scanHex s
    if 0xd800 ≤ n ∧ n ≤ 0xdbff then
      match s with
      | '\\' :: 'u' :: s => do
        let (m, s) ← scanHex s
        if 0xdc00 ≤ m ∧ m ≤ 0xdfff then
          some (Char.ofNat (0x10000 + (n - 0xd800) * 1024 + (m - 0xdc00)), s)
        else none
      | _ => none
    else if 0xdc00 ≤ n ∧ n ≤ 0xdfff then none
    else some (Char.ofNat n, s)
  | e :: s => do
    let c ← unescape e
    some (c, s)
  | [] => none

/-- The characters of a string after its opening quote, and the rest. -/
def scanString : (fuel : Nat) → List Char → Option (List Char × List Char)
  | 0, _ => none
  | _, [] => none
  | fuel + 1, c :: s =>
    if c = '"' then some ([], s)
    else if c = '\\' then do
      let (c, s) ← scanEscape s
      let (cs, s) ← scanString fuel s
      some (c :: cs, s)
    else if c.toNat < 0x20 then none
    else do
      let (cs, s) ← scanString fuel s
      some (c :: cs, s)

/-- The digits at the front, and the rest. -/
def scanDigits (s : List Char) : List Char × List Char :=
  (s.takeWhile Char.isDigit, s.dropWhile Char.isDigit)

/-- The digits of a number before its point: `0`, or digits that do not start with it. -/
def scanWhole : List Char → Option (List Char × List Char)
  | [] => none
  | c :: s =>
    if c = '0' then some ([c], s) else if c.isDigit then some (scanDigits (c :: s)) else none

/-- A point with at least one digit behind it, if there is one. -/
def scanFraction : List Char → List Char × List Char
  | [] => ([], [])
  | c :: s =>
    if c = '.' ∧ (scanDigits s).1 ≠ [] then (c :: (scanDigits s).1, (scanDigits s).2)
    else ([], c :: s)

/-- One of the signs `signs`, if there is one. -/
def scanSign (signs : List Char) : List Char → List Char × List Char
  | [] => ([], [])
  | c :: s => if c ∈ signs then ([c], s) else ([], c :: s)

/-- An exponent with at least one digit, if there is one. -/
def scanExponent : List Char → List Char × List Char
  | [] => ([], [])
  | c :: s =>
    let sign := scanSign ['-', '+'] s
    let digits := scanDigits sign.2
    if (c = 'e' ∨ c = 'E') ∧ digits.1 ≠ [] then (c :: (sign.1 ++ digits.1), digits.2)
    else ([], c :: s)

/-- A number: the text of a float is kept as it is. -/
def scanNumber (s : List Char) : Option (Json × List Char) := do
  let (sign, s) := scanSign ['-'] s
  let (whole, s) ← scanWhole s
  let (fraction, s) := scanFraction s
  let (exponent, s) := scanExponent s
  if fraction = [] ∧ exponent = [] then
    let n : Nat := Nat.ofDigitChars 10 whole 0
    some (.int (if sign = [] then n else -n), s)
  else some (.float (String.ofList (sign ++ whole ++ fraction ++ exponent)), s)

/-- `d[key] = value`. -/
def set : Dict → String → Json → Dict
  | [], key, value => [(key, value)]
  | (k, v) :: d, key, value => if k = key then (k, value) :: d else (k, v) :: set d key value

/-- The dictionary of a list of pairs. -/
def dictOf (pairs : Dict) : Dict := pairs.foldl (fun d p => set d p.1 p.2) []

mutual

/-- A value at the front of the text, and the rest. -/
def scanOnce : (fuel : Nat) → List Char → Option (Json × List Char)
  | 0, _ => none
  | fuel + 1, s =>
    match s with
    | '"' :: s => do
      let (cs, s) ← scanString (s.length + 1) s
      some (.str (String.ofList cs), s)
    | '{' :: s =>
      match skipWs s with
      | '}' :: s => some (.obj [], s)
      | s => do
        let (pairs, s) ← scanPairs fuel s
        some (.obj (dictOf pairs), s)
    | '[' :: s =>
      match skipWs s with
      | ']' :: s => some (.arr [], s)
      | s => do
        let (xs, s) ← scanItems fuel s
        some (.arr xs, s)
    | 'n' :: 'u' :: 'l' :: 'l' :: s => some (.null, s)
    | 't' :: 'r' :: 'u' :: 'e' :: s => some (.bool true, s)
    | 'f' :: 'a' :: 'l' :: 's' :: 'e' :: s => some (.bool false, s)
    | 'N' :: 'a' :: 'N' :: s => some (.float "NaN", s)
    | 'I' :: 'n' :: 'f' :: 'i' :: 'n' :: 'i' :: 't' :: 'y' :: s => some (.float "Infinity", s)
    | '-' :: 'I' :: 'n' :: 'f' :: 'i' :: 'n' :: 'i' :: 't' :: 'y' :: s =>
      some (.float "-Infinity", s)
    | s => scanNumber s

/-- The items of a list up to its end. -/
def scanItems : (fuel : Nat) → List Char → Option (List Json × List Char)
  | 0, _ => none
  | fuel + 1, s => do
    let (x, s) ← scanOnce fuel s
    match skipWs s with
    | ']' :: s => some ([x], s)
    | ',' :: s => do
      let (xs, s) ← scanItems fuel (skipWs s)
      some (x :: xs, s)
    | _ => none

/-- The items of a dictionary up to its end, starting at the quote of a key. -/
def scanPairs : (fuel : Nat) → List Char → Option (Dict × List Char)
  | 0, _ => none
  | fuel + 1, s =>
    match s with
    | '"' :: s => do
      let (key, s) ← scanString (s.length + 1) s
      match skipWs s with
      | ':' :: s => do
        let (value, s) ← scanOnce fuel (skipWs s)
        match skipWs s with
        | '}' :: s => some ([(String.ofList key, value)], s)
        | ',' :: s => do
          let (pairs, s) ← scanPairs fuel (skipWs s)
          some ((String.ofList key, value) :: pairs, s)
        | _ => none
      | _ => none
    | _ => none

end

/-- `json.loads(text)`; `none` is a `JSONDecodeError`. -/
def loads (text : List Char) : Option Json := do
  let (value, s) ← scanOnce (text.length + 1) (skipWs text)
  if skipWs s = [] then some value else none

/-! ### Values Python can hold -/

mutual

/-- A value Python can hold: the text of a float is one, and no dictionary has a key twice. -/
def Canonical : Json → Prop
  | float s =>
    s = "NaN" ∨ s = "Infinity" ∨ s = "-Infinity" ∨ scanNumber s.toList = some (.float s, [])
  | arr xs => CanonicalItems xs
  | obj fs => (fs.map Prod.fst).Nodup ∧ CanonicalFields fs
  | _ => True

def CanonicalItems : List Json → Prop
  | [] => True
  | x :: xs => Canonical x ∧ CanonicalItems xs

def CanonicalFields : Dict → Prop
  | [] => True
  | (_, v) :: fs => Canonical v ∧ CanonicalFields fs

end

mutual

def decCanonical : (v : Json) → Decidable (Canonical v)
  | .null => .isTrue (by simp [Canonical])
  | .bool _ => .isTrue (by simp [Canonical])
  | .int _ => .isTrue (by simp [Canonical])
  | .str _ => .isTrue (by simp [Canonical])
  | .float s => decidable_of_iff (s = "NaN" ∨ s = "Infinity" ∨ s = "-Infinity" ∨
      scanNumber s.toList = some (.float s, [])) (by simp only [Canonical])
  | .arr xs => @decidable_of_iff _ (CanonicalItems xs) (by simp only [Canonical])
      (decCanonicalItems xs)
  | .obj fs => @decidable_of_iff _ ((fs.map Prod.fst).Nodup ∧ CanonicalFields fs)
      (by simp only [Canonical]) (@instDecidableAnd _ _ _ (decCanonicalFields fs))

def decCanonicalItems : (xs : List Json) → Decidable (CanonicalItems xs)
  | [] => .isTrue (by simp [CanonicalItems])
  | x :: xs => @decidable_of_iff _ (Canonical x ∧ CanonicalItems xs) (by simp only [CanonicalItems])
      (@instDecidableAnd _ _ (decCanonical x) (decCanonicalItems xs))

def decCanonicalFields : (fs : Dict) → Decidable (CanonicalFields fs)
  | [] => .isTrue (by simp [CanonicalFields])
  | (_, v) :: fs => @decidable_of_iff _ (Canonical v ∧ CanonicalFields fs)
      (by simp only [CanonicalFields])
      (@instDecidableAnd _ _ (decCanonical v) (decCanonicalFields fs))

end

instance : DecidablePred Canonical := decCanonical

end KolegaCode.Json
