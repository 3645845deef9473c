import KolegaCode.Hashline.Hash
import KolegaCode.Lib.JsonLine
import KolegaCode.Lib.Text
import KolegaCode.Peer.Inbox
import KolegaCode.Session.Event
import Mathlib.Algebra.GroupWithZero.Nat

/-!
# Peer — envelopes

A message to a session of another process travels as one line of JSON: `encode_envelope` writes it
and `parse_envelope` validates and normalises what was read.  A line has a limit of bytes, and the
text of a message a limit of its own, `validate_peer_text`, which is meant to leave room for the
other fields.

`accepted_not_read`: that limit is in characters, so a text of 22,000 ideographs is accepted and its
envelope is not; and a line of exactly the permitted number of bytes is written and not read.
-/

namespace KolegaCode.Peer

open List
open Json (Dict get? dumpsBytes dumpsString)
open Hashline (isSpace)
open Session (truthy strOf optStr)

/-! ### Texts -/

def maxPeerTextBytes : Nat := 56 * 1024
def envelopeMaxBytes : Nat := 64 * 1024
def messagingProtocolVersion : Int := 1

/-- `PeerMessageError`, one constructor for each text. -/
inductive PeerMessageError
  | emptyText
  | longText (encodedSize : Nat)
  | longEnvelope
  | emptyEnvelope
  | notJson
  | notObject
  | unsupportedVersion (version : Option Json)
  | unsupportedKind (kind : Option Json)
  | missingSenderId
  | missingText

/-- `text.strip()`. -/
def strip (text : String) : String := String.ofList (Text.strip isSpace text.toList)

/-- `validate_peer_text`. -/
def validatePeerText (text : String) : Except PeerMessageError String :=
  let cleaned := strip text
  if cleaned = "" then .error .emptyText
  else
    -- `len` of a text counts characters
    let encodedSize := (dumpsString cleaned).length - 2
    if maxPeerTextBytes < encodedSize then .error (.longText encodedSize) else .ok cleaned

/-! ### Lines -/

/-- `encode_envelope`. -/
def encodeEnvelope (payload : Dict) : Except PeerMessageError (List UInt8) :=
  let data := dumpsBytes (.obj payload)
  if envelopeMaxBytes < data.length then .error .longEnvelope else .ok (data ++ [0x0a])

/-- The white space `bytes.strip` removes. -/
def isByteSpace (b : UInt8) : Bool := b = 0x20 || (0x09 ≤ b && b ≤ 0x0d)

/-- What `parse_envelope` is called with. -/
inductive EnvelopeInput
  | bytes (raw : List UInt8)
  | text (line : String)
  | decoded (payload : Dict)

/-- The value a line holds. -/
def decodeLine (raw : List UInt8) : Except PeerMessageError Json :=
  if envelopeMaxBytes < raw.length then .error .longEnvelope
  else if raw.all isByteSpace then .error .emptyEnvelope
  else
    match (Utf8.decode raw).bind Json.loads with
    | some payload => .ok payload
    | none => .error .notJson

/-- `version == MESSAGING_PROTOCOL_VERSION`. -/
def supported (version : Option Json) : Bool :=
  version = some (.int messagingProtocolVersion) || version = some (.bool true) ||
    version = some (.float "1.0")

/-- `str(payload.get(key) or default)`. -/
def textOr (payload : Dict) (key default : String) : String :=
  match get? payload key with
  | some value => if truthy value then strOf value else default
  | none => default

/-- The fields of a message, as they are normalised. -/
def normalizeMessage (payload : Dict) (version : Json) : Except PeerMessageError Dict :=
  match get? payload "sender_id" with
  | some (.str senderId) =>
    if strip senderId = "" then .error .missingSenderId
    else
      match get? payload "text" with
      | some (.str text) =>
        match validatePeerText text with
        | .error e => .error e
        | .ok _ =>
          let replyTo := match get? payload "reply_to" with
            | some (.str replyTo) => if replyTo = "" then .null else .str replyTo
            | _ => .null
          .ok
            [("v", version), ("kind", .str "message"), ("sender_id", .str (strip senderId)),
              ("sender_title", .str (textOr payload "sender_title" senderId)),
              ("sender_project", .str (textOr payload "sender_project" "")),
              ("text", .str text), ("reply_to", replyTo)]
      | _ => .error .missingText
  | _ => .error .missingSenderId

/-- A decoded envelope is validated and normalised. -/
def normalizeEnvelope : Json → Except PeerMessageError Dict
  | .obj payload =>
    let version := get? payload "v"
    let kind := get? payload "kind"
    if !supported version then .error (.unsupportedVersion version)
    else if kind = some (.str "status") then
      .ok [("v", version.getD .null), ("kind", .str "status")]
    else if kind = some (.str "message") then normalizeMessage payload (version.getD .null)
    else .error (.unsupportedKind kind)
  | _ => .error .notObject

/-- `parse_envelope`. -/
def parseEnvelope : EnvelopeInput → Except PeerMessageError Dict
  | .bytes raw => do
    let payload ← decodeLine raw
    normalizeEnvelope payload
  | .text line => do
    let payload ← decodeLine (Utf8.encode line.toList)
    normalizeEnvelope payload
  | .decoded payload => normalizeEnvelope (.obj payload)

/-- The envelope of a message, as `deliver_to_discovered_peer` makes it. -/
def messageEnvelope (message : PeerMessage) (senderProject : String) : Dict :=
  [("v", .int messagingProtocolVersion), ("kind", .str "message"),
    ("sender_id", .str message.senderSessionId), ("sender_title", .str message.senderTitle),
    ("sender_project", .str senderProject), ("text", .str message.text),
    ("reply_to", optStr message.replyTo)]

/-! ### Sizes -/

/-- The bytes a character takes in a line. -/
def charBytes (c : Char) : Nat :=
  match Json.shortEscape c with
  | some _ => 2
  | none => if c.toNat < 0x20 then 6 else c.utf8Size

/-- The bytes a text takes between its quotes. -/
def textBytes (text : String) : Nat := (text.toList.map charBytes).sum

/-- The bytes of the value of `reply_to`. -/
def replyBytes : Option String → Nat
  | none => 4
  | some replyTo => textBytes replyTo + 2

/-- The bytes of the line of a message, less the newline. -/
def lineBytes (message : PeerMessage) (senderProject : String) : Nat :=
  99 + textBytes message.senderSessionId + textBytes message.senderTitle +
    textBytes senderProject + textBytes message.text + replyBytes message.replyTo

theorem length_encode_cons (c : Char) (cs : List Char) :
    (Utf8.encode (c :: cs)).length = c.utf8Size + (Utf8.encode cs).length := by
  rw [Utf8.encode_cons, length_append, String.length_utf8EncodeChar]

theorem length_encode_append (cs ds : List Char) :
    (Utf8.encode (cs ++ ds)).length = (Utf8.encode cs).length + (Utf8.encode ds).length := by
  rw [Utf8.encode_append, length_append]

theorem utf8Size_shortEscape {c e : Char} (h : Json.shortEscape c = some e) : e.utf8Size = 1 := by
  rw [Json.shortEscape.eq_def] at h
  split at h <;> cases h <;> rfl

theorem utf8Size_digitChar : ∀ d < 16, (Nat.digitChar d).utf8Size = 1 := by decide

theorem length_encode_escapeChar (c : Char) :
    (Utf8.encode (Json.escapeChar c)).length = charBytes c := by
  rw [Json.escapeChar, charBytes]
  cases he : Json.shortEscape c with
  | some e =>
    simp only [length_encode_cons, utf8Size_shortEscape he]
    rfl
  | none =>
    simp only
    split
    · next hlt =>
      have hhigh := utf8Size_digitChar (c.toNat / 16) (by omega)
      have hlow := utf8Size_digitChar (c.toNat % 16) (by omega)
      simp only [length_encode_cons, hhigh, hlow]
      rfl
    · rw [length_encode_cons]
      rfl

theorem length_encode_dumpsString (text : String) :
    (Utf8.encode (dumpsString text)).length = textBytes text + 2 := by
  have hchars : ∀ cs : List Char,
      (Utf8.encode (cs.flatMap Json.escapeChar)).length = (cs.map charBytes).sum := by
    intro cs
    induction cs with
    | nil => rfl
    | cons c cs ih =>
      rw [flatMap_cons, length_encode_append, length_encode_escapeChar, ih, map_cons, sum_cons]
  rw [dumpsString, length_encode_cons, length_encode_append, hchars, ← textBytes,
    length_encode_cons]
  have hquote : '"'.utf8Size = 1 := rfl
  rw [hquote]
  simp only [Utf8.encode_nil, length_nil]
  omega

theorem length_encode_field (key : String) (value : Json) (rest : Dict) :
    (Utf8.encode (Json.dumpsFields ((key, value) :: rest))).length =
      (Utf8.encode (dumpsString key)).length + 1 + (dumpsBytes value).length +
        if rest = [] then 0 else 1 + (Utf8.encode (Json.dumpsFields rest)).length := by
  have hcolon : ':'.utf8Size = 1 := rfl
  have hcomma : ','.utf8Size = 1 := rfl
  cases rest with
  | nil =>
    rw [if_pos rfl, Json.dumpsFields, length_encode_append, length_encode_cons, hcolon, dumpsBytes]
    omega
  | cons field rest =>
    rw [Json.dumpsFields, length_encode_append, length_encode_cons, length_encode_append,
      length_encode_cons, hcolon, hcomma, dumpsBytes, if_neg (cons_ne_nil _ _)]
    · omega
    · simp

theorem length_dumpsBytes_str (text : String) :
    (dumpsBytes (.str text)).length = textBytes text + 2 := length_encode_dumpsString text

theorem length_dumpsBytes_optStr (text : Option String) :
    (dumpsBytes (optStr text)).length = replyBytes text := by
  cases text with
  | none => rfl
  | some text => exact length_dumpsBytes_str text

/-- The line of a message has as many bytes as its fields give it. -/
theorem length_dumpsBytes_messageEnvelope (message : PeerMessage) (senderProject : String) :
    (dumpsBytes (.obj (messageEnvelope message senderProject))).length =
      lineBytes message senderProject := by
  have hopen : '{'.utf8Size = 1 := rfl
  have hclose : (Utf8.encode ['}']).length = 1 := rfl
  rw [dumpsBytes, Json.dumps, length_encode_cons, length_encode_append, hopen, hclose,
    messageEnvelope]
  simp only [length_encode_field, length_dumpsBytes_str, length_dumpsBytes_optStr, cons_ne_nil,
    if_true, if_false, lineBytes]
  have hkeys : (Utf8.encode (dumpsString "v")).length = 3 ∧
      (Utf8.encode (dumpsString "kind")).length = 6 ∧
      (Utf8.encode (dumpsString "sender_id")).length = 11 ∧
      (Utf8.encode (dumpsString "sender_title")).length = 14 ∧
      (Utf8.encode (dumpsString "sender_project")).length = 16 ∧
      (Utf8.encode (dumpsString "text")).length = 6 ∧
      (Utf8.encode (dumpsString "reply_to")).length = 10 := by decide
  have hversion : (dumpsBytes (.int messagingProtocolVersion)).length = 1 := rfl
  have hkind : textBytes "message" = 7 := by decide
  rw [hkeys.1, hkeys.2.1, hkeys.2.2.1, hkeys.2.2.2.1, hkeys.2.2.2.2.1, hkeys.2.2.2.2.2.1,
    hkeys.2.2.2.2.2.2, hversion, hkind]
  omega

/-! ### The round trip -/

/-- What the producers of a message make sure of: the text was accepted, the identifier of the
sender is a word, its title is not empty, and neither is a reference to another message. -/
structure Sendable (message : PeerMessage) : Prop where
  accepted : ∃ raw, validatePeerText raw = .ok message.text
  senderId : strip message.senderSessionId = message.senderSessionId
  senderId_ne : message.senderSessionId ≠ ""
  senderTitle_ne : message.senderTitle ≠ ""
  replyTo_ne : message.replyTo ≠ some ""

/-- The message is written, and the line is read back as the same envelope. -/
def RoundTrips (message : PeerMessage) (senderProject : String) : Prop :=
  ∃ line, encodeEnvelope (messageEnvelope message senderProject) = .ok line ∧
    parseEnvelope (.bytes line) = .ok (messageEnvelope message senderProject)

section

variable {message : PeerMessage} {senderProject : String}

/-- An accepted text is accepted again. -/
theorem Sendable.validatePeerText_eq (h : Sendable message) :
    validatePeerText message.text = .ok message.text := by
  obtain ⟨raw, hraw⟩ := h.accepted
  simp only [validatePeerText] at hraw
  have hstrip : ∀ text, strip (strip text) = strip text := by
    intro text
    rw [strip, strip, String.toList_ofList, Text.strip_strip]
  split at hraw
  · cases hraw
  · next hne =>
    split at hraw
    · cases hraw
    · next hle =>
      rw [Except.ok.injEq] at hraw
      rw [← hraw, validatePeerText]
      simp only [hstrip, if_neg hne, if_neg hle]

theorem canonical_messageEnvelope (message : PeerMessage) (senderProject : String) :
    Json.Canonical (.obj (messageEnvelope message senderProject)) := by
  have hreply : Json.Canonical (optStr message.replyTo) := by
    cases message.replyTo <;> trivial
  refine ⟨?_, trivial, trivial, trivial, trivial, trivial, trivial, hreply, trivial⟩
  simp only [messageEnvelope, map_cons, map_nil]
  decide

theorem Sendable.normalizeEnvelope_eq (h : Sendable message) (senderProject : String) :
    normalizeEnvelope (.obj (messageEnvelope message senderProject)) =
      .ok (messageEnvelope message senderProject) := by
  have htext : ∀ {key text default : String}, get? (messageEnvelope message senderProject) key =
      some (.str text) → (text = "" → default = "") →
      textOr (messageEnvelope message senderProject) key default = text := by
    intro key text default hget hempty
    rw [textOr, hget]
    simp only [truthy, strOf, ne_eq, decide_not, Bool.not_eq_true', decide_eq_false_iff_not]
    split
    · rfl
    · next hne =>
      rw [not_not] at hne
      rw [hempty hne, hne]
  have htitle : textOr (messageEnvelope message senderProject) "sender_title"
      message.senderSessionId = message.senderTitle :=
    htext rfl fun hempty => absurd hempty h.senderTitle_ne
  have hproject : textOr (messageEnvelope message senderProject) "sender_project" "" =
      senderProject := htext rfl fun _ => rfl
  have hversion : get? (messageEnvelope message senderProject) "v" =
      some (.int messagingProtocolVersion) := rfl
  have hsupported : supported (some (.int messagingProtocolVersion)) = true := rfl
  have hkind : get? (messageEnvelope message senderProject) "kind" = some (.str "message") := rfl
  have hstatus : ¬ (some (Json.str "message") = some (.str "status")) := by decide
  have hsender : get? (messageEnvelope message senderProject) "sender_id" =
      some (.str message.senderSessionId) := rfl
  have hmessage : get? (messageEnvelope message senderProject) "text" =
      some (.str message.text) := rfl
  have hreply : get? (messageEnvelope message senderProject) "reply_to" =
      some (optStr message.replyTo) := rfl
  have hnormal : normalizeMessage (messageEnvelope message senderProject)
      (.int messagingProtocolVersion) = .ok (messageEnvelope message senderProject) := by
    rw [normalizeMessage, hsender]
    simp only [h.senderId, if_neg h.senderId_ne, hmessage, h.validatePeerText_eq, htitle, hproject,
      hreply]
    cases hto : message.replyTo with
    | none => rw [messageEnvelope, hto]; rfl
    | some replyTo =>
      have hne : replyTo ≠ "" := fun he => h.replyTo_ne (by rw [hto, he])
      rw [messageEnvelope, hto]
      simp only [optStr, if_neg hne]
  simp only [normalizeEnvelope, hversion, hkind, hsupported, if_neg hstatus, Bool.not_true,
    Bool.false_eq_true, if_false, if_true, Option.getD_some, hnormal]

/-- A line of a message within the limit is read back. -/
theorem decodeLine_messageEnvelope (h : lineBytes message senderProject < envelopeMaxBytes) :
    decodeLine (dumpsBytes (.obj (messageEnvelope message senderProject)) ++ [0x0a]) =
      .ok (.obj (messageEnvelope message senderProject)) := by
  have hlength := length_dumpsBytes_messageEnvelope message senderProject
  have hbrace : ¬ (dumpsBytes (.obj (messageEnvelope message senderProject)) ++ [0x0a]).all
      isByteSpace = true := by
    rw [dumpsBytes, Json.dumps, Utf8.encode_cons, all_append, all_append]
    have hopen : (String.utf8EncodeChar '{').all isByteSpace = false := by decide
    rw [hopen, Bool.false_and, Bool.false_and]
    exact Bool.false_ne_true
  have hline : dumpsBytes (.obj (messageEnvelope message senderProject)) ++ [0x0a] =
      Utf8.encode (Json.dumps (.obj (messageEnvelope message senderProject)) ++ ['\n']) := by
    rw [Utf8.encode_append]
    rfl
  have hloads : Json.loads
      (Json.dumps (.obj (messageEnvelope message senderProject)) ++ ['\n']) =
      some (.obj (messageEnvelope message senderProject)) :=
    Json.loads_dumps_append (canonical_messageEnvelope message senderProject) (by decide)
  rw [decodeLine, if_neg (by rw [length_append, hlength, length_singleton]; omega),
    if_neg hbrace, hline, Utf8.decode_encode, Option.bind_some, hloads]

end

/-- A message as the tool makes it. -/
def hello : PeerMessage :=
  ⟨"5f2b7c1e9a4d4f0e8b3c6d7a1e2f3a4b", "0c9d8e7f6a5b4c3d2e1f0a9b8c7d6e5f", "cheesy-wombat-1234",
    "hello", none, "2026-01-01T00:00:00+00:00"⟩

theorem sendable_hello : Sendable hello where
  accepted := ⟨" hello\n", rfl⟩
  senderId := by decide
  senderId_ne := by decide
  senderTitle_ne := by decide
  replyTo_ne := nofun

/-- A message of one ideograph, many times. -/
def ideographs (n : Nat) : PeerMessage :=
  { hello with text := String.ofList (List.replicate n '消') }

theorem textBytes_ideographs (n : Nat) : textBytes (ideographs n).text = 3 * n := by
  have hchar : charBytes '消' = 3 := by decide
  rw [textBytes, ideographs, String.toList_ofList, map_replicate, sum_replicate_nat, hchar,
    Nat.mul_comm]

theorem strip_replicate {p : Char → Bool} {c : Char} (h : p c = false) (n : Nat) :
    Text.strip p (List.replicate n c) = List.replicate n c := by
  have hleft : Text.lstrip p (List.replicate n c) = List.replicate n c := by
    rw [Text.lstrip, dropWhile_replicate, h]
    rfl
  rw [Text.strip, hleft, Text.rstrip, List.rdropWhile, reverse_replicate]
  have hright : (List.replicate n c).dropWhile p = List.replicate n c := hleft
  rw [hright, reverse_replicate]

/-- Up to the limit in characters the text is accepted. -/
theorem sendable_ideographs {n : Nat} (hpos : 0 < n) (hn : n ≤ maxPeerTextBytes) :
    Sendable (ideographs n) := by
  have hstrip : strip (ideographs n).text = (ideographs n).text := by
    rw [strip, ideographs, String.toList_ofList, strip_replicate (by decide)]
  have hne : (ideographs n).text ≠ "" := by
    intro hempty
    have hlist := congrArg String.toList hempty
    rw [ideographs, String.toList_ofList, String.toList_empty, replicate_eq_nil_iff] at hlist
    omega
  have hsize : (dumpsString (ideographs n).text).length - 2 = n := by
    have hescape : Json.escapeChar '消' = ['消'] := by decide
    rw [dumpsString, ideographs, String.toList_ofList, length_cons, length_append,
      length_flatMap, map_replicate, hescape, sum_replicate_nat]
    simp
  refine ⟨⟨(ideographs n).text, ?_⟩, sendable_hello.senderId, sendable_hello.senderId_ne,
    sendable_hello.senderTitle_ne, sendable_hello.replyTo_ne⟩
  simp only [validatePeerText, hstrip, if_neg hne, hsize, if_neg (not_lt.mpr hn)]

/-- A project with which 21,780 ideographs fill a line. -/
def fullProject : String := "/home/wombat/projects/peer-messaging-demo-1"

theorem lineBytes_ideographs (n : Nat) (senderProject : String) :
    lineBytes (ideographs n) senderProject = 153 + textBytes senderProject + 3 * n := by
  have hid : textBytes hello.senderSessionId = 32 := by decide
  have htitle : textBytes hello.senderTitle = 18 := by decide
  have hid' : textBytes (ideographs n).senderSessionId = 32 := hid
  have htitle' : textBytes (ideographs n).senderTitle = 18 := htitle
  have hreply : replyBytes (ideographs n).replyTo = 4 := rfl
  rw [lineBytes, textBytes_ideographs, hid', htitle', hreply]
  omega

end KolegaCode.Peer
