import KolegaCode.BrowserExtension.Envelope
import KolegaCode.BrowserExtension.Patterns
import KolegaCode.Lib.JsonSorted
import Mathlib.Data.List.Infix

/-!
# Browser extension — the protocol

`Envelope.from_mapping` takes a message apart and checks every part: the identifiers, the deadline,
the payload of each type, and for a request the parameters of its operation.
-/

namespace KolegaCode.BrowserExtension

open Json (Dict get? set)
open Hashline (isSpace)

def PROTOCOL_VERSION : Int := 1
def MAX_SAFE_INTEGER : Int := 2 ^ 53 - 1
def MAX_PROTOCOL_JSON_BYTES : Nat := 1048576
def MAX_PROTOCOL_RESPONSE_JSON_BYTES : Nat := 67108864

/-- What ends a validation: an error of the protocol, or one the code does not expect. -/
inductive Failure where
  | validation (e : ProtocolValidationError)
  /-- A list or a dictionary is looked up in a set. -/
  | typeError
  /-- An integer is too large for a float. -/
  | overflowError
  /-- A float that is not finite is written. -/
  | valueError
deriving DecidableEq, Repr

def fail {α : Type} (code message : String) : Except Failure α :=
  .error (.validation (invalid code message))

def paramsFail {α : Type} (message : String) : Except Failure α :=
  .error (.validation (paramsError message))

/-- What is asked of Python and its packages: floats by their tokens, the `repr` of a string, and
what `_normalize_http_url` does with a URL that has a scheme. -/
structure Python where
  floatRepr : String → String
  isFinite : String → Bool
  /-- `minimum <= value <= maximum`. -/
  between : String → Int → Int → Bool
  stringRepr : String → String
  httpUrl : List Char → Except ProtocolValidationError String

/-! ### Names -/

/-- A first character and at most `maximum` others. -/
def matchesWord (first rest : Char → Bool) (maximum : Nat) : List Char → Bool
  | [] => false
  | c :: cs => first c && decide (cs.length ≤ maximum) && cs.all rest

/-- `_IDENTIFIER_RE`. -/
def isIdentifier : List Char → Bool :=
  matchesWord Char.isAlphanum (fun c => c.isAlphanum || c ∈ ['.', '_', '~', '-']) 127

/-- `_NAME_RE`. -/
def isName : List Char → Bool :=
  matchesWord isLowercase (fun c => isLowercase c || c.isDigit || c ∈ ['_', '.', '-']) 127

/-- `_ERROR_CODE_RE`. -/
def isErrorCode : List Char → Bool :=
  matchesWord isLowercase (fun c => isLowercase c || c.isDigit || c = '_') 63

def identifier (value : Json) (field : String) : Except Failure String :=
  match value with
  | .str s =>
    if isIdentifier s.toList = true then .ok s
    else fail "invalid_identifier" (field ++ " is invalid")
  | _ => fail "invalid_identifier" (field ++ " is invalid")

/-! ### Dictionaries -/

/-- `set(value) == keys`. -/
def HasKeys (fs : Dict) (keys : List String) : Prop :=
  (∀ k ∈ keys, k ∈ fs.map Prod.fst) ∧ ∀ k ∈ fs.map Prod.fst, k ∈ keys

instance (fs : Dict) (keys : List String) : Decidable (HasKeys fs keys) :=
  inferInstanceAs (Decidable (_ ∧ _))

def exactMapping (value : Json) (keys : List String) (label : String) : Except Failure Dict :=
  match value with
  | .obj fs =>
    if HasKeys fs keys then .ok fs else fail "invalid_schema" (label ++ " has an invalid schema")
  | _ => fail "invalid_schema" (label ++ " has an invalid schema")

/-- `value[key]`, of a key that is there. -/
def field (value : Dict) (key : String) : Json := (get? value key).getD .null

/-! ### Values -/

def checkDepth (depth : Nat) : Except Failure Unit :=
  if depth > 64 then fail "invalid_json_value" "JSON nesting is too deep" else .ok ()

section

variable (python : Python)

mutual

/-- `_validate_json_value`; every string here is valid Unicode, and every key a string. -/
def validateJsonValue (depth : Nat) : Json → Except Failure Json
  | .null => do
    checkDepth depth
    .ok .null
  | .bool b => do
    checkDepth depth
    .ok (.bool b)
  | .str s => do
    checkDepth depth
    .ok (.str s)
  | .int n => do
    checkDepth depth
    if n.natAbs > MAX_SAFE_INTEGER then
      fail "invalid_json_value" "JSON integer exceeds the safe range"
    else .ok (.int n)
  | .float s => do
    checkDepth depth
    if python.isFinite s = false then fail "invalid_json_value" "JSON numbers must be finite"
    else .ok (.float s)
  | .arr xs => do
    checkDepth depth
    let xs ← validateItems (depth + 1) xs
    .ok (.arr xs)
  | .obj fs => do
    checkDepth depth
    let fs ← validateFields (depth + 1) fs
    .ok (.obj fs)

def validateItems (depth : Nat) : List Json → Except Failure (List Json)
  | [] => .ok []
  | x :: xs => do
    let x ← validateJsonValue depth x
    let xs ← validateItems depth xs
    .ok (x :: xs)

def validateFields (depth : Nat) : Dict → Except Failure Dict
  | [] => .ok []
  | (k, v) :: fs => do
    let v ← validateJsonValue depth v
    let fs ← validateFields depth fs
    .ok ((k, v) :: fs)

end

/-- `_validate_json_value` of a dictionary. -/
def validateObject (value : Dict) : Except Failure Dict := do
  checkDepth 0
  validateFields python 1 value

/-! ### Parameters -/

/-- `_exact_params`: the keys that miss and those that are too many are named. -/
def exactParams (params : Dict) (keys : List String) : Except Failure Unit :=
  if HasKeys params keys then .ok ()
  else
    let present := params.map Prod.fst
    let missing := (keys.filter (· ∉ present)).insertionSort (· ≤ ·)
    let unexpected := (present.filter (· ∉ keys)).insertionSort (· ≤ ·)
    let details :=
      (if missing = [] then []
        else ["missing " ++ String.intercalate ", " missing ++
          " (pass null when not applicable)"]) ++
      if unexpected = [] then [] else ["unexpected " ++ String.intercalate ", " unexpected]
    paramsFail ("Operation parameters have an invalid schema: " ++
      String.intercalate "; " details)

def stringParam (value : Json) (name : String) (nullable : Bool) (maximum : Nat)
    (nonempty : Bool) : Except Failure (Option String) :=
  match value with
  | .null => if nullable = true then .ok none else paramsFail (name ++ " is invalid")
  | .str s =>
    if StringParam maximum nonempty s.toList then .ok (some s)
    else paramsFail (name ++ " is invalid")
  | _ => paramsFail (name ++ " is invalid")

def target (value : Json) (name : String) (nullable : Bool) : Except Failure (Option String) :=
  stringParam value name nullable 2000 true

def nullableInteger (value : Json) (name : String) (minimum maximum : Int) :
    Except Failure Unit :=
  match value with
  | .null => .ok ()
  | .int n =>
    if minimum ≤ n ∧ n ≤ maximum then .ok ()
    else paramsFail (name ++ " must be an integer between " ++ toString minimum ++ " and " ++
      toString maximum ++ ", or JSON null")
  | .str s => paramsFail (name ++ " must be an integer or JSON null, not the string " ++
      python.stringRepr s)
  | _ => paramsFail (name ++ " must be an integer between " ++ toString minimum ++ " and " ++
      toString maximum ++ ", or JSON null")

/-- The integers from this one on are no floats. -/
def FLOAT_OVERFLOW : Int := 2 ^ 1024 - 2 ^ 970

def nullableNumber (value : Json) (name : String) (minimum maximum : Int) : Except Failure Unit :=
  match value with
  | .null => .ok ()
  | .int n =>
    if FLOAT_OVERFLOW ≤ n.natAbs then .error .overflowError
    else if minimum ≤ n ∧ n ≤ maximum then .ok ()
    else paramsFail (name ++ " is invalid")
  | .float s =>
    if python.isFinite s = true ∧ python.between s minimum maximum = true then .ok ()
    else paramsFail (name ++ " is invalid")
  | _ => paramsFail (name ++ " is invalid")

/-- A character as `re.IGNORECASE` compares it with a letter of `localhost`. -/
def foldCase (c : Char) : Char := if c = 'ſ' then 's' else c.toLower

/-- `^(?:localhost|127\.0\.0\.1|\[::1\])(?::|/|$)`. -/
def isLocalAddress (candidate : List Char) : Bool :=
  ["localhost", "127.0.0.1", "[::1]"].any fun host =>
    (candidate.take host.length).map foldCase = host.toList &&
      (candidate.drop host.length).head?.all fun c => c = ':' || c = '/'

def normalizeHttpUrl (value : Json) (nullable : Bool) : Except Failure (Option String) := do
  match ← stringParam value "url" nullable 8192 true with
  | none => .ok none
  | some raw =>
    let stripped := Text.strip isSpace raw.toList
    let candidate :=
      if "://".toList <:+: stripped then stripped
      else (if isLocalAddress stripped then "http" else "https").toList ++ "://".toList ++ stripped
    match python.httpUrl candidate with
    | .ok url => .ok (some url)
    | .error e => .error (.validation e)

/-- `_validate_safe_pattern` of a value. -/
def safePattern (value : Json) (name : String) : Except Failure Unit :=
  match value with
  | .str s =>
    match validateSafePattern s.toList name with
    | .ok () => .ok ()
    | .error e => .error (.validation e)
  | _ => paramsFail (name ++ " is invalid")

/-- `value in {…}`, of strings. -/
def inSet (value : Json) (options : List String) : Except Failure Bool :=
  match value with
  | .str s => .ok (s ∈ options)
  | .arr _ | .obj _ => .error .typeError
  | _ => .ok false

def isBool : Json → Bool
  | .bool _ => true
  | _ => false

/-! ### Operations -/

/-- `ALLOWED_OPERATIONS`. -/
inductive Operation where
  | navigate
  | navigateBack
  | snapshot
  | find
  | waitFor
  | click
  | type
  | fillForm
  | selectOption
  | hover
  | drag
  | pressKey
  | scroll
  | tabs
  | networkRequests
  | screenshot
  | detach
deriving DecidableEq, Repr

def ALLOWED_OPERATIONS : List (String × Operation) :=
  [("browser.navigate", .navigate), ("browser.navigate_back", .navigateBack),
    ("browser.snapshot", .snapshot), ("browser.find", .find), ("browser.wait_for", .waitFor),
    ("browser.click", .click), ("browser.type", .type), ("browser.fill_form", .fillForm),
    ("browser.select_option", .selectOption), ("browser.hover", .hover), ("browser.drag", .drag),
    ("browser.press_key", .pressKey), ("browser.scroll", .scroll), ("browser.tabs", .tabs),
    ("browser.network_requests", .networkRequests), ("browser.screenshot", .screenshot),
    ("browser.detach", .detach)]

def MODIFIERS : List String := ["Alt", "Control", "ControlOrMeta", "Meta", "Shift"]
def FORM_TYPES : List String := ["textbox", "checkbox", "radio", "combobox", "slider"]

/-- The modifiers of a click: distinct ones of the five. -/
def areModifiers : Json → Bool
  | .arr xs =>
    decide (xs.length ≤ MODIFIERS.length) &&
      (xs.all fun x => MODIFIERS.any fun m => decide (x = .str m)) && decide xs.Nodup
  | _ => false

def checkClick (values : Dict) : Except Failure Unit := do
  exactParams values ["button", "double_click", "modifiers", "target"]
  let _ ← target (field values "target") "target" false
  if isBool (field values "double_click") = false then paramsFail "click parameters are invalid"
  else if !(← inSet (field values "button") ["left", "right", "middle"]) then
    paramsFail "click parameters are invalid"
  else if areModifiers (field values "modifiers") = false then
    paramsFail "click parameters are invalid"
  else .ok ()

def checkFormField (entry : Json) : Except Failure Unit :=
  match entry with
  | .obj fs => do
    if ¬ HasKeys fs ["name", "target", "type", "value"] then
      paramsFail "A form field has an invalid schema"
    else
      let _ ← stringParam (field fs "name") "field name" false 200 true
      let _ ← target (field fs "target") "target" false
      if !(← inSet (field fs "type") FORM_TYPES) then paramsFail "field type is invalid"
      else
        let value ← stringParam (field fs "value") "field value" false 20000 false
        match field fs "type" with
        | .str type =>
          -- No character but an ASCII letter has one of these letters for its lower case.
          if type ∈ ["checkbox", "radio"] ∧
              (value.getD "").toList.map Char.toLower ∉ ["true".toList, "false".toList] then
            paramsFail (type ++ " value must be true or false")
          else .ok ()
        | _ => .ok ()
  | _ => paramsFail "A form field has an invalid schema"

def checkFillForm (values : Dict) : Except Failure Unit := do
  exactParams values ["fields"]
  match field values "fields" with
  | .arr entries =>
    if entries.length < 1 ∨ entries.length > 50 then
      paramsFail "fields must contain between 1 and 50 entries"
    else entries.forM checkFormField
  | _ => paramsFail "fields must contain between 1 and 50 entries"

def checkSelectOption (values : Dict) : Except Failure Unit := do
  exactParams values ["target", "values"]
  let _ ← target (field values "target") "target" false
  match field values "values" with
  | .arr options =>
    if options.length < 1 ∨ options.length > 100 then paramsFail "values are invalid"
    else
      options.forM fun option => do
        let _ ← stringParam option "option value" false 2000 false
  | _ => paramsFail "values are invalid"

/-- Exactly one of the three movements is asked for. -/
def checkScroll (values : Dict) : Except Failure Unit := do
  exactParams values ["by_pages", "target", "x", "y"]
  let _ ← target (field values "target") "target" true
  nullableNumber python (field values "by_pages") "by_pages" (-10) 10
  nullableInteger python (field values "x") "x" 0 10000000
  nullableInteger python (field values "y") "y" 0 10000000
  let modes := [decide (field values "target" ≠ .null), decide (field values "by_pages" ≠ .null),
    decide (field values "x" ≠ .null) || decide (field values "y" ≠ .null)]
  if modes.count true ≠ 1 then paramsFail "Provide exactly one of target, by_pages, or x/y"
  else .ok ()

/-- The parameters of `browser.tabs`, with the URL as it is normalized. -/
def checkTabs (values : Dict) : Except Failure Dict := do
  exactParams values ["action", "index", "url"]
  if !(← inSet (field values "action") ["list", "new", "close", "select"]) then
    paramsFail "tab action is invalid"
  else
    nullableInteger python (field values "index") "index" 0 1000
    let url ← normalizeHttpUrl python (field values "url") true
    let values := set values "url" (url.elim .null .str)
    let action := match field values "action" with
      | .str action => action
      | _ => ""
    if action = "select" ∧ field values "index" = .null then
      paramsFail "index is required when selecting a tab; pass index: <tab index>, url: null"
    else if action ∈ ["list", "new"] ∧ field values "index" ≠ .null then
      paramsFail ("index is not accepted for the " ++ action ++ " tab action; pass index: null")
    else if action ≠ "new" ∧ url ≠ none then
      paramsFail ("url is only accepted when creating a tab; pass url: null for the " ++ action ++
        " action")
    else .ok values

/-- The parameters of an operation. -/
def checkParams (operation : Operation) (values : Dict) : Except Failure Dict :=
  match operation with
  | .navigate => do
    exactParams values ["url"]
    let url ← normalizeHttpUrl python (field values "url") false
    .ok (set values "url" (url.elim .null .str))
  | .navigateBack | .detach => do
    exactParams values []
    .ok values
  | .snapshot => do
    exactParams values ["depth", "target"]
    let _ ← target (field values "target") "target" true
    nullableInteger python (field values "depth") "depth" 1 20
    .ok values
  | .find => do
    exactParams values ["regex", "text"]
    let text ← stringParam (field values "text") "text" true 500 true
    let regex ← stringParam (field values "regex") "regex" true 200 true
    if text.isNone = regex.isNone then paramsFail "Provide exactly one of text or regex"
    else
      if regex ≠ none then safePattern (field values "regex") "regex"
      .ok values
  | .waitFor => do
    exactParams values ["text", "text_gone", "time"]
    nullableNumber python (field values "time") "time" 0 30
    let text ← stringParam (field values "text") "text" true 500 true
    let textGone ← stringParam (field values "text_gone") "text_gone" true 500 true
    if field values "time" = .null ∧ text = none ∧ textGone = none then
      paramsFail "Provide time, text, or text_gone"
    else .ok values
  | .click => do
    checkClick values
    .ok values
  | .type => do
    exactParams values ["slowly", "submit", "target", "text"]
    let _ ← target (field values "target") "target" false
    let _ ← stringParam (field values "text") "text" false 50000 false
    if isBool (field values "submit") = false ∨ isBool (field values "slowly") = false then
      paramsFail "type flags must be booleans"
    else .ok values
  | .fillForm => do
    checkFillForm values
    .ok values
  | .selectOption => do
    checkSelectOption values
    .ok values
  | .hover => do
    exactParams values ["target"]
    let _ ← target (field values "target") "target" false
    .ok values
  | .drag => do
    exactParams values ["end_target", "start_target"]
    let _ ← target (field values "start_target") "start_target" false
    let _ ← target (field values "end_target") "end_target" false
    .ok values
  | .pressKey => do
    exactParams values ["key"]
    let key ← stringParam (field values "key") "key" false 64 true
    if (key.getD "").toList.any fun c => decide (c.toNat < 0x20 ∨ c.toNat = 0x7F) then
      paramsFail "key is invalid"
    else .ok values
  | .scroll => do
    checkScroll python values
    .ok values
  | .tabs => checkTabs python values
  | .networkRequests => do
    exactParams values ["filter_pattern", "include_static"]
    if isBool (field values "include_static") = false then
      paramsFail "include_static must be a boolean"
    else
      let pattern ← stringParam (field values "filter_pattern") "filter_pattern" true 200 true
      if pattern ≠ none then safePattern (field values "filter_pattern") "filter_pattern"
      .ok values
  | .screenshot => do
    exactParams values ["full_page", "image_type", "scale", "target"]
    let _ ← target (field values "target") "target" true
    if isBool (field values "full_page") = false then paramsFail "full_page must be a boolean"
    else if !(← inSet (field values "image_type") ["png", "jpeg"]) then
      paramsFail "screenshot format or scale is invalid"
    else if !(← inSet (field values "scale") ["css", "device"]) then
      paramsFail "screenshot format or scale is invalid"
    else if field values "target" ≠ .null ∧ field values "full_page" = .bool true then
      paramsFail "full_page cannot be combined with an element target"
    else .ok values

def validateOperationRequest (operation params : Json) : Except Failure Dict :=
  match operation with
  | .str name =>
    if isName name.toList = false then fail "invalid_operation" "request operation is invalid"
    else
      match ALLOWED_OPERATIONS.lookup name with
      | none => fail "unsupported_operation" "Operation is not supported"
      | some operation =>
        match params with
        | .obj params => do
          let values ← checkParams python operation params
          validateObject python values
        | _ => paramsFail "Operation params must be an object"
  | _ => fail "invalid_operation" "request operation is invalid"

/-! ### Payloads -/

inductive MessageType where
  | request
  | response
  | error
  | cancel
  | event
deriving DecidableEq, Repr

def MessageType.value : MessageType → String
  | .request => "request"
  | .response => "response"
  | .error => "error"
  | .cancel => "cancel"
  | .event => "event"

/-- The keys of the payloads of a type. -/
def MessageType.schema : MessageType → List String
  | .request => ["operation", "params"]
  | .response => ["result"]
  | .error => ["code", "message", "retryable"]
  | .cancel => ["reason"]
  | .event => ["event", "data"]

/-- A string of one to `MAX_ERROR_MESSAGE_LENGTH` characters. -/
def isMessage : Json → Bool
  | .str s => decide (s ≠ "" ∧ s.toList.length ≤ MAX_ERROR_MESSAGE_LENGTH)
  | _ => false

def strOf : Json → String
  | .str s => s
  | _ => ""

def dictOf : Json → Dict
  | .obj fs => fs
  | _ => []

/-- The checked dictionary, as a payload. -/
def Payload.ofDict (payload : Dict) : MessageType → Payload
  | .request => .request (strOf (field payload "operation")) (dictOf (field payload "params"))
  | .response => .response (field payload "result")
  | .error => .error (strOf (field payload "code")) (strOf (field payload "message"))
      (decide (field payload "retryable" = .bool true))
  | .cancel => .cancel (strOf (field payload "reason"))
  | .event => .event (strOf (field payload "event")) (dictOf (field payload "data"))

/-- What is checked of the payloads of a type; a request gets the parameters its operation
returns. -/
def checkPayload (type : MessageType) (payload : Dict) : Except Failure Dict :=
  match type with
  | .request => do
    let params ← validateOperationRequest python (field payload "operation")
      (field payload "params")
    .ok (set payload "params" (.obj params))
  | .response => .ok payload
  | .error =>
    match field payload "code" with
    | .str code =>
      if isErrorCode code.toList = false then fail "invalid_error" "error code is invalid"
      else if isMessage (field payload "message") = false then
        fail "invalid_error" "error message is invalid"
      else if isBool (field payload "retryable") = false then
        fail "invalid_error" "error retryable flag is invalid"
      else .ok payload
    | _ => fail "invalid_error" "error code is invalid"
  | .cancel =>
    if isMessage (field payload "reason") = false then
      fail "invalid_cancel" "cancel reason is invalid"
    else .ok payload
  | .event =>
    match field payload "event", field payload "data" with
    | .str name, .obj _ =>
      if isName name.toList = false then fail "invalid_event" "event name is invalid"
      else .ok payload
    | .str name, _ =>
      if isName name.toList = false then fail "invalid_event" "event name is invalid"
      else fail "invalid_schema" "event data must be an object"
    | _, _ => fail "invalid_event" "event name is invalid"

def validatePayload (type : MessageType) (value : Json) : Except Failure Payload := do
  let payload ← exactMapping value type.schema (type.value ++ " payload")
  let payload ← checkPayload python type payload
  let validated ← validateObject python payload
  .ok (Payload.ofDict validated type)

end

/-! ### Envelopes -/

def MessageDirection.value : MessageDirection → String
  | .runtimeToExtension => "runtime_to_extension"
  | .extensionToRuntime => "extension_to_runtime"

/-- `MessageDirection(value)`. -/
def MessageDirection.ofValue (value : Json) : Option MessageDirection :=
  [MessageDirection.runtimeToExtension, .extensionToRuntime].find? fun d =>
    decide (value = .str d.value)

/-- `MessageType(value)`. -/
def MessageType.ofValue (value : Json) : Option MessageType :=
  [MessageType.request, .response, .error, .cancel, .event].find? fun t =>
    decide (value = .str t.value)

def ENVELOPE_KEYS : List String :=
  ["version", "direction", "type", "request_id", "runtime_id", "session_id", "deadline_ms",
    "payload"]

def orFail {α : Type} (code message : String) : Option α → Except Failure α
  | some a => .ok a
  | none => fail code message

def deadline : Json → Except Failure Nat
  | .int n =>
    if n ≤ 0 ∨ n > MAX_SAFE_INTEGER then fail "invalid_deadline" "deadline_ms is invalid"
    else .ok n.toNat
  | _ => fail "invalid_deadline" "deadline_ms is invalid"

def checkVersion (value : Json) : Except Failure Unit :=
  if value = .int PROTOCOL_VERSION then .ok ()
  else fail "unsupported_version" "protocol version is unsupported"

namespace Envelope

/-- The byte bound of a direction. -/
def sizeLimit : MessageDirection → Nat
  | .extensionToRuntime => MAX_PROTOCOL_RESPONSE_JSON_BYTES
  | .runtimeToExtension => MAX_PROTOCOL_JSON_BYTES

def fromMapping (python : Python) (value : Json) : Except Failure Envelope := do
  let envelope ← exactMapping value ENVELOPE_KEYS "envelope"
  checkVersion (field envelope "version")
  let direction ← orFail "invalid_direction" "message direction is invalid"
    (MessageDirection.ofValue (field envelope "direction"))
  let type ← orFail "invalid_type" "message type is invalid"
    (MessageType.ofValue (field envelope "type"))
  let requestId ← identifier (field envelope "request_id") "request_id"
  let runtimeId ← identifier (field envelope "runtime_id") "runtime_id"
  let sessionId ← identifier (field envelope "session_id") "session_id"
  let deadlineMs ← deadline (field envelope "deadline_ms")
  let payload ← validatePayload python type (field envelope "payload")
  .ok { direction, requestId, runtimeId, sessionId, deadlineMs, payload }

end Envelope

def Payload.type : Payload → MessageType
  | .request .. => .request
  | .response _ => .response
  | .error .. => .error
  | .cancel _ => .cancel
  | .event .. => .event

def Payload.toDict : Payload → Dict
  | .request operation params => [("operation", .str operation), ("params", .obj params)]
  | .response result => [("result", result)]
  | .error code message retryable =>
    [("code", .str code), ("message", .str message), ("retryable", .bool retryable)]
  | .cancel reason => [("reason", .str reason)]
  | .event name data => [("event", .str name), ("data", .obj data)]

namespace Envelope

def toMapping (e : Envelope) : Dict :=
  [("version", .int PROTOCOL_VERSION), ("direction", .str e.direction.value),
    ("type", .str e.payload.type.value), ("request_id", .str e.requestId),
    ("runtime_id", .str e.runtimeId), ("session_id", .str e.sessionId),
    ("deadline_ms", .int e.deadlineMs), ("payload", .obj e.payload.toDict)]

variable (python : Python)

/-- `to_json`: no float that is not finite, and no more bytes than the direction admits. -/
def toJson (e : Envelope) : Except Failure (List Char) :=
  if ∀ s ∈ Json.floats (.obj e.toMapping), python.isFinite s = true then
    let encoded := Json.dumpsSorted python.floatRepr (.obj e.toMapping)
    if (Utf8.encode encoded).length > sizeLimit e.direction then
      fail "message_too_large" "protocol message exceeds the size limit"
    else .ok encoded
  else .error .valueError

/-- The constructor, with its `__post_init__`. -/
def construct (e : Envelope) : Except Failure Envelope := do
  let validated ← fromMapping python (.obj e.toMapping)
  let e := { e with payload := validated.payload }
  let _ ← toJson python e
  .ok e

/-! ### Texts -/

/-- `str | bytes`. -/
inductive Raw where
  | text (s : List Char)
  | bytes (b : List UInt8)

/-- `json.loads` with the two hooks. -/
def parse (text : List Char) : Except Failure Json :=
  match Json.loadsWith (Json.Hooks.strict
      (invalid "duplicate_key" "JSON contains a duplicate object key")
      (invalid "invalid_json" "JSON contains a non-finite number")) text with
  | .ok value => .ok value
  | .error (.hook e) => .error (.validation e)
  | .error .syntaxError => fail "invalid_json" "protocol message is not valid JSON"

/-- `from_json` up to the object. -/
def readJson (raw : Raw) (maxBytes : Int) : Except Failure Json :=
  match raw with
  | .bytes b =>
    if b.length > maxBytes then
      fail "message_too_large" "protocol message exceeds the size limit"
    else
      match Utf8.decode b with
      | none => fail "invalid_json" "protocol message is not valid UTF-8"
      | some text => parse text
  | .text s =>
    if (Utf8.encode s).length > maxBytes then
      fail "message_too_large" "protocol message exceeds the size limit"
    else parse s

def fromJson (raw : Raw) (maxBytes : Int) : Except Failure Envelope := do
  let value ← readJson raw maxBytes
  fromMapping python value

end Envelope

end KolegaCode.BrowserExtension
