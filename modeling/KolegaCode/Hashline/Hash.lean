import Mathlib.Data.List.Basic
import Mathlib.Algebra.GroupWithZero.Nat

/-!
# Hashline — line tags

The two-character id of a line: xxHash32 of the line without its whitespace, of which the low byte
is written in an alphabet of sixteen letters.  A tag is a line number with such an id.
-/

namespace KolegaCode.Hashline

/-! ### xxHash32 -/

def mask32 : Nat := 0xFFFFFFFF
def prime32_1 : Nat := 0x9E3779B1
def prime32_2 : Nat := 0x85EBCA77
def prime32_3 : Nat := 0xC2B2AE3D
def prime32_4 : Nat := 0x27D4EB2F
def prime32_5 : Nat := 0x165667B1

def rotl32 (value count : Nat) : Nat := ((value <<< count) ||| (value >>> (32 - count))) &&& mask32

def round32 (accumulator value : Nat) : Nat :=
  let accumulator := (accumulator + value * prime32_2) &&& mask32
  let accumulator := rotl32 accumulator 13
  (accumulator * prime32_1) &&& mask32

/-- `int.from_bytes(data, "little")`. -/
def fromBytes (data : List UInt8) : Nat := data.foldr (fun b acc => b.toNat + 256 * acc) 0

/-- The four accumulators of the digest. -/
structure Lanes where
  v1 : Nat
  v2 : Nat
  v3 : Nat
  v4 : Nat

/-- The loop over the full stripes of sixteen bytes, `count` of them, and the bytes behind them. -/
def stripes : (count : Nat) → Lanes → List UInt8 → Lanes × List UInt8
  | 0, v, data => (v, data)
  | count + 1, v, data =>
    let v : Lanes :=
      { v1 := round32 v.v1 (fromBytes (data.take 4))
        v2 := round32 v.v2 (fromBytes ((data.drop 4).take 4))
        v3 := round32 v.v3 (fromBytes ((data.drop 8).take 4))
        v4 := round32 v.v4 (fromBytes ((data.drop 12).take 4)) }
    stripes count v (data.drop 16)

/-- The loop over the full words of four bytes, `count` of them, and the bytes behind them. -/
def words : (count : Nat) → Nat → List UInt8 → Nat × List UInt8
  | 0, digest, data => (digest, data)
  | count + 1, digest, data =>
    let digest := (digest + fromBytes (data.take 4) * prime32_3) &&& mask32
    words count ((rotl32 digest 17 * prime32_4) &&& mask32) (data.drop 4)

/-- The loop over the last bytes. -/
def lastBytes (digest : Nat) (data : List UInt8) : Nat :=
  data.foldl (fun digest b =>
    (rotl32 ((digest + b.toNat * prime32_5) &&& mask32) 11 * prime32_1) &&& mask32) digest

def xxhash32 (data : List UInt8) (seed : Nat) : Nat :=
  let length := data.length
  let (digest, data) :=
    if 16 ≤ length then
      let v : Lanes :=
        { v1 := (seed + prime32_1 + prime32_2) &&& mask32
          v2 := (seed + prime32_2) &&& mask32
          v3 := seed &&& mask32
          v4 := (seed + 2 ^ 32 - prime32_1) &&& mask32 }
      let (v, data) := stripes (length / 16) v data
      ((rotl32 v.v1 1 + rotl32 v.v2 7 + rotl32 v.v3 12 + rotl32 v.v4 18) &&& mask32, data)
    else ((seed + prime32_5) &&& mask32, data)
  let (digest, data) := words (data.length / 4) ((digest + length) &&& mask32) data
  let digest := lastBytes digest data
  let digest := digest ^^^ (digest >>> 15)
  let digest := (digest * prime32_2) &&& mask32
  let digest := digest ^^^ (digest >>> 13)
  let digest := (digest * prime32_3) &&& mask32
  (digest ^^^ (digest >>> 16)) &&& mask32

/-! ### Tags -/

def alphabet : List Char := "ZPMQVRWSNKTXJBYH".toList

/-- The characters `\s` matches in a Python string. -/
def isSpace (c : Char) : Bool :=
  let n := c.toNat
  (0x09 ≤ n && n ≤ 0x0d) || (0x1c ≤ n && n ≤ 0x20) || n = 0x85 || n = 0xa0 || n = 0x1680 ||
    (0x2000 ≤ n && n ≤ 0x200a) || n = 0x2028 || n = 0x2029 || n = 0x202f || n = 0x205f || n = 0x3000

/-- `line.encode("utf-8")`. -/
def encodeUtf8 (line : List Char) : List UInt8 := line.flatMap String.utf8EncodeChar

def computeLineHash (line : String) : String :=
  let line := line.toList
  let line := if line.getLast? = some '\r' then line.dropLast else line
  let normalized := line.filter (!isSpace ·)
  let value := xxhash32 (encodeUtf8 normalized) 0 &&& 0xFF
  String.ofList [alphabet.getD (value >>> 4) 'Z', alphabet.getD (value &&& 0x0F) 'Z']

def formatLineTag (lineNumber : Nat) (content : String) : String :=
  let content :=
    if lineNumber = 1 ∧ content.toList.head? = some '\uFEFF' then String.ofList (content.toList.drop 1)
    else content
  toString lineNumber ++ "#" ++ computeLineHash content

structure LineTag where
  line : Nat
  hash : String
deriving Repr, DecidableEq

/-! ### Lines -/

/-- `content.split("\n")`. -/
def splitLines (content : String) : List String :=
  (content.toList.splitOn '\n').map String.ofList

/-- `"\n".join(lines)`. -/
def joinLines (lines : List String) : String :=
  String.ofList (['\n'].intercalate (lines.map String.toList))

theorem joinLines_splitLines (content : String) : joinLines (splitLines content) = content := by
  have h : String.toList ∘ String.ofList = id := funext fun cs => String.toList_ofList
  rw [joinLines, splitLines, List.map_map, h, List.map_id, List.intercalate_splitOn,
    String.ofList_toList]

theorem splitLines_ne_nil (content : String) : splitLines content ≠ [] := by
  simp [splitLines]

theorem splitLines_eq_blank_iff (content : String) : splitLines content = [""] ↔ content = "" := by
  refine ⟨fun h => ?_, fun h => ?_⟩
  · rw [← joinLines_splitLines content, h]
    rfl
  · rw [h]
    rfl

end KolegaCode.Hashline
