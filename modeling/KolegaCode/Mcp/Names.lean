import Mathlib.Data.List.Sort
import KolegaCode.Lib.Assoc
import KolegaCode.Lib.Fresh
import KolegaCode.Lib.JsonText
import KolegaCode.Lib.Text
import KolegaCode.Hashline.Hash
import Mathlib.Data.Char
import Mathlib.Data.List.Lex

/-!
# Mcp — the names of exposed tools

A wire name is `mcp__<server>__<tool>`, made of the characters every provider takes and cut to 64
of them.  Names that clash get a suffix with a digest, and a number where that is taken too.
Permission rules read the server back from the name, up to the first `__`; a server whose
identifier would be read back differently is given an alias.

The hash functions are parameters: `sha1`, and `sha256` of the salt of the process and a text.
-/

namespace KolegaCode.Mcp

open Hashline (isSpace)

attribute [local instance] Text.lawfulBEq

/-! ### Digests and identifiers -/

def isHexDigit (c : Char) : Bool := "0123456789abcdef".toList.contains c

/-- `hexdigest()`. -/
structure HexDigest (n : Nat) where
  text : List Char
  length_eq : text.length = n
  isHex : text.all isHexDigit = true

structure Hashes where
  sha1 : List Char → HexDigest 40
  saltedSha256 : List Char → HexDigest 64

/-- The characters of `[A-Za-z0-9_-]`. -/
def isWire (c : Char) : Bool :=
  ('A' ≤ c && c ≤ 'Z') || ('a' ≤ c && c ≤ 'z') || ('0' ≤ c && c ≤ '9') || c = '_' || c = '-'

/-- `sanitize_mcp_server_id`; `none` where it raises. -/
def sanitizeMcpServerId (sha1 : List Char → HexDigest 40) (value : List Char) :
    Option (List Char) :=
  let value := Text.strip isSpace value
  if value = [] then none
  else if !value.all isWire then none
  else if value.length ≤ 32 then some value
  else some (value.take 24 ++ '_' :: (sha1 value).text.take 7)

/-- `MCPServerConfig`, as far as the names read it; the identifier has been validated. -/
structure McpServerConfig (H : Hashes) where
  id : List Char
  validated : ∃ value, sanitizeMcpServerId H.sha1 value = some id

/-- `MCPExposedTool`. -/
structure McpExposedTool (H : Hashes) where
  server : McpServerConfig H
  toolId : List Char

/-! ### Wire names -/

def mcpToolPrefix : List Char := ['m', 'c', 'p', '_', '_']
def mcpToolSeparator : List Char := ['_', '_']
def mcpToolNameMaxLength : Nat := 64

/-- `mcp_tool_name`. -/
def mcpToolName (serverId toolId : List Char) : List Char :=
  mcpToolPrefix ++ (serverId ++ (mcpToolSeparator ++ toolId))

/-- `text[:n]`. -/
def upTo (n : Int) (text : List Char) : List Char :=
  if 0 ≤ n then text.take n.toNat else text.take (text.length - n.natAbs)

/-- The prefix a long name keeps, and the tool it is cut to. -/
def splitPrefix (sanitized : List Char) : List Char × List Char :=
  if mcpToolPrefix.isPrefixOf sanitized then
    match Text.cut? mcpToolSeparator (sanitized.drop mcpToolPrefix.length) with
    | some (serverId, toolId) => (mcpToolPrefix ++ (serverId ++ mcpToolSeparator), toolId)
    | none => ([], sanitized)
  else ([], sanitized)

/-- `sanitize_mcp_tool_name`. -/
def sanitizeMcpToolName (name : List Char) : List Char :=
  let sanitized := name.map fun c => if isWire c then c else '_'
  if sanitized.length ≤ mcpToolNameMaxLength then sanitized
  else
    let (start, toolId) := splitPrefix sanitized
    let budget : Int := mcpToolNameMaxLength - start.length
    if budget ≤ 0 then sanitized.take mcpToolNameMaxLength
    else start ++ toolId.take budget.toNat

/-- A name with a suffix, cut so that both fit. -/
def suffixed (name suffix : List Char) : List Char :=
  upTo (mcpToolNameMaxLength - suffix.length) name ++ suffix

/-- The `n`-th name to try after `base`. -/
def numbered (base : List Char) (n : Nat) : List Char := suffixed base ('_' :: Nat.toDigits 10 n)

/-- The name of a tool that clashes: with a digest, and with a number if that is taken. -/
def renamed (digest : HexDigest 40) (name : List Char) (taken : List (List Char)) : List Char :=
  let base := suffixed name ('_' :: digest.text.take 8)
  if base ∈ taken then Fresh.firstFree taken (numbered base) taken.length 2 else base

/-- The indices of the names that clash, in the order of their keys. -/
def collisions {K : Type} (key : Nat → K) (le : K → K → Bool) (names : List (List Char)) :
    List Nat :=
  (Fresh.clashing names).insertionSort fun i j => le (key i) (key j) = true

/-- Python's order on pairs of texts. -/
def lePair (a b : List Char × List Char) : Bool := a.1 < b.1 || (a.1 = b.1 && a.2 ≤ b.2)

/-- The name of a tool before clashes are looked at. -/
def candidate (serverId toolId : List Char) : List Char :=
  sanitizeMcpToolName (mcpToolName serverId (if toolId = [] then ['_'] else toolId))

/-- The final names of the tools of a server. -/
def finalNamesFor (H : Hashes) (serverId : List Char) (tools : List (List Char)) :
    List (List Char) :=
  let raw (i : Nat) := mcpToolName serverId (tools.getD i [])
  let candidates := tools.map (candidate serverId)
  -- the sort is stable, so that the index decides between equal raw names
  let indices := collisions raw (· ≤ ·) candidates
  Fresh.reassign (fun i name taken => renamed (H.sha1 (raw i)) name taken) indices candidates
    candidates

/-- `exposed_tool_names_for`. -/
def exposedToolNamesFor (H : Hashes) (serverId : List Char) (tools : List (List Char)) :
    List (List Char × List Char) :=
  (tools.map (mcpToolName serverId)).zip (finalNamesFor H serverId tools)

/-! ### Aliases of servers -/

/-- The identifier would be read back differently from a name. -/
def ambiguous (serverId : List Char) : Bool :=
  (Text.cut? mcpToolSeparator serverId).isSome || serverId.getLast? = some '_'

/-- The alias of an ambiguous identifier, if it is not used yet. -/
def saltedAlias (H : Hashes) (serverId : List Char) : List Char :=
  's' :: (H.saltedSha256 serverId).text.take 24

abbrev Aliases := Assoc (List Char) (List Char)

/-- An ambiguous identifier gets an alias that is not used. -/
def addAlias (H : Hashes) (aliases : Aliases) (serverId : List Char) : Aliases :=
  let used := aliases.map Prod.snd
  let first := saltedAlias H serverId
  let next (n : Nat) := first ++ '-' :: Nat.toDigits 10 n
  aliases.set serverId (if first ∈ used then Fresh.firstFree used next used.length 2 else first)

/-- The aliases of the servers. -/
def aliasesOf (H : Hashes) (serverIds : List (List Char)) : Aliases :=
  let plain := serverIds.filter (!ambiguous ·)
  let sorted := serverIds.insertionSort (· ≤ ·)
  (sorted.filter ambiguous).foldl (addAlias H) (plain.map fun id => (id, id))

/-! ### The names of all tools -/

section

variable {H : Hashes} (exposed : List (McpExposedTool H))

/-- The servers of `by_server`. -/
def serverIds : List (List Char) := (exposed.map fun t => t.server.id).eraseDups

/-- The indices of `by_server`. -/
def indicesOf (serverId : List Char) : List Nat :=
  (List.range exposed.length).filter fun i => (exposed[i]?).any fun t => t.server.id = serverId

/-- The tools of a server. -/
def toolsOf (serverId : List Char) : List (List Char) :=
  (indicesOf exposed serverId).filterMap fun i => (exposed[i]?).map (·.toolId)

/-- The names of the tools of one server are put in their places. -/
def placeServer (aliases : Aliases) (names : List (List Char)) (serverId : List Char) :
    List (List Char) :=
  let pairs := exposedToolNamesFor H ((aliases.get? serverId).getD []) (toolsOf exposed serverId)
  Fresh.place names (indicesOf exposed serverId) (pairs.map Prod.snd)

/-- The names that are unique for each server. -/
def serverNames : List (List Char) :=
  let ids := serverIds exposed
  ids.foldl (placeServer exposed (aliasesOf H ids)) (List.replicate exposed.length [])

/-- A character of a text as `json.dumps` writes it, with everything but ASCII escaped. -/
def escapeAscii (c : Char) : List Char :=
  let hex4 (n : Nat) : List Char :=
    '\\' :: 'u' :: [n / 4096 % 16, n / 256 % 16, n / 16 % 16, n % 16].map Nat.digitChar
  match Json.shortEscape c with
  | some e => ['\\', e]
  | none =>
    if ' ' ≤ c ∧ c ≤ '~' then [c]
    else if c.toNat < 0x10000 then hex4 c.toNat
    else hex4 (0xd800 + (c.toNat - 0x10000) / 1024) ++ hex4 (0xdc00 + (c.toNat - 0x10000) % 1024)

/-- `json.dumps([server_id, tool_id])`. -/
def identityText (serverId toolId : List Char) : List Char :=
  '[' :: '"' :: (serverId.flatMap escapeAscii ++
    ('"' :: ',' :: ' ' :: '"' :: (toolId.flatMap escapeAscii ++ ['"', ']'])))

/-- The server and the tool of an index. -/
def routeOf (i : Nat) : List Char × List Char :=
  ((exposed[i]?).map fun t => (t.server.id, t.toolId)).getD ([], [])

/-- The final names of all tools. -/
def finalNames : List (List Char) :=
  let names := serverNames exposed
  let indices := collisions (routeOf exposed) lePair names
  Fresh.reassign
    (fun i name taken => renamed
      (H.sha1 (identityText (routeOf exposed i).1 (routeOf exposed i).2)) name taken)
    indices names names

/-- `exposed_tool_names`. -/
def exposedToolNames : List (List Char × List Char) :=
  (exposed.map fun t => mcpToolName t.server.id t.toolId).zip (finalNames exposed)

end

end KolegaCode.Mcp
