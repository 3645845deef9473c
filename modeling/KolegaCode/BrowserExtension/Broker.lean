import KolegaCode.BrowserExtension.Envelope
import KolegaCode.Lib.Pending

/-!
# Browser extension — the broker of the native host

The native host relays envelopes between one browser and several runtimes.  It keeps a table of the
requests passed on, by direction, runtime and id, and answers for a side that is gone: at a
deadline, when a runtime disconnects and when the browser's port closes.
-/

namespace KolegaCode.BrowserExtension

/-! ### The state -/

/-- A key of the table: the direction of the request, its runtime and its id. -/
abbrev RelayKey := MessageDirection × String × String

/-- `_RelayPending`, with the connection of the runtime that the request came from. -/
structure RelayPending where
  request : Envelope
  origin : Option Nat
deriving DecidableEq

def RelayPending.key (pending : RelayPending) : RelayKey :=
  (pending.request.direction, pending.request.runtimeId, pending.request.requestId)

/-- `_RuntimeRelay`: a connection of a runtime. -/
structure RuntimeRelay where
  runtimeId : String
  sessionId : String
  /-- its channel can be written -/
  writable : Bool
  /-- its reader task is at work -/
  reading : Bool
deriving DecidableEq

inductive Side where
  | extension
  | runtime (relay : Nat)
deriving DecidableEq

/-- What the broker hands to a side. -/
inductive Sent where
  /-- the answer to a request -/
  | answered (request : Nat) (side : Side) (envelope : Envelope)
  /-- the requester's cancel -/
  | withdrawn (request : Nat) (side : Side) (envelope : Envelope)
  | forwarded (request : Nat) (side : Side) (envelope : Envelope)
  /-- a cancel of the broker's own -/
  | revoked (request : Nat) (side : Side) (envelope : Envelope)
  /-- an error for a request that is not passed on -/
  | refused (side : Side) (envelope : Envelope)
  | event (side : Side) (envelope : Envelope)
deriving DecidableEq

structure BrokerConfig where
  maxRuntimes : Nat
  maxPendingRequests : Nat
  /-- the frame of an envelope is within the limit of the browser's port -/
  fits : Envelope → Bool

/-- `NativeHostBroker`. -/
structure Broker where
  pending : Pending RelayPending.key
  /-- every connection that there has been -/
  relays : List RuntimeRelay
  /-- `_runtimes` -/
  runtimes : Assoc String Nat
  /-- the calls of `_runtime_disconnected` that are under way, and what is left of their lists -/
  loops : List (Nat × List (RelayKey × Nat))
  /-- the browser's port can be written -/
  extension : Bool
  closed : Bool
  log : List Sent

/-- `MAX_DEADLINE_AHEAD_MS`. -/
def maxDeadlineAheadMs : Nat := 300000

/-- `_response_matches` of the broker, which does not look at the direction. -/
def Envelope.Matches (request response : Envelope) : Prop :=
  response.runtimeId = request.runtimeId ∧ response.sessionId = request.sessionId ∧
    response.requestId = request.requestId ∧ response.deadlineMs = request.deadlineMs

instance (request response : Envelope) : Decidable (request.Matches response) :=
  inferInstanceAs (Decidable (_ ∧ _))

namespace Broker

def start : Broker := ⟨.empty _, [], [], [], true, false, []⟩

def record (s : Broker) (entry : Sent) : Broker := { s with log := s.log ++ [entry] }

/-! ### Writes -/

/-- The channel of a relay takes an envelope. -/
def Takes (s : Broker) (r : Nat) (envelope : Envelope) : Prop :=
  (s.relays[r]?).any (fun relay => relay.writable && relay.runtimeId = envelope.runtimeId &&
    relay.sessionId = envelope.sessionId) = true

instance (s : Broker) (r : Nat) (envelope : Envelope) : Decidable (s.Takes r envelope) :=
  inferInstanceAs (Decidable (_ = _))

/-- `relay.channel.write(envelope)`; `none` stands for a `RuntimeTransportError`. -/
def toRuntime (s : Broker) (r : Nat) (entry : Side → Envelope → Sent) (envelope : Envelope) :
    Option Broker :=
  if s.Takes r envelope then some (s.record (entry (.runtime r) envelope)) else none

/-- `self.endpoint.write(envelope)` for an envelope of the broker's own. -/
def toExtension (s : Broker) (entry : Side → Envelope → Sent) (envelope : Envelope) :
    Option Broker :=
  if s.extension then some (s.record (entry .extension envelope)) else none

/-- `self.endpoint.write(envelope)` for one that is passed on, and may be too large. -/
def passOn (c : BrokerConfig) (s : Broker) (entry : Side → Envelope → Sent) (envelope : Envelope) :
    Option Broker :=
  if c.fits envelope then s.toExtension entry envelope else none

/-! ### The table -/

/-- `_settle_pending`. -/
def settlePending (s : Broker) (key : RelayKey) : Option (Nat × Envelope) × Broker :=
  match s.pending.get? key with
  | none => (none, s)
  | some n =>
    ((s.pending.issued[n]?).map fun pending => (n, pending.request),
      { s with pending := s.pending.drop key })

/-- `_register_pending` for a request that is neither a duplicate nor one too many. -/
def register (s : Broker) (request : Envelope) (origin : Option Nat) : Broker :=
  { s with pending := s.pending.register ⟨request, origin⟩ }

/-- `_runtime_disconnected`, up to its loop. -/
def disconnect (s : Broker) (r : Nat) : Broker :=
  match s.relays[r]? with
  | none => s
  | some relay =>
    if s.runtimes.get? relay.runtimeId ≠ some r then s
    else
      { s with
        runtimes := s.runtimes.erase relay.runtimeId
        loops := s.loops ++
          [(r, s.pending.table.filter fun entry => entry.1.2.1 = relay.runtimeId)] }

/-- `await relay.channel.close()`, after which its reader ends. -/
def closeChannel (s : Broker) (r : Nat) : Broker :=
  { s with relays := s.relays.modify r fun relay =>
      { relay with writable := false, reading := false } }

/-- One turn of the loop of `_runtime_disconnected`, and its end. -/
def disconnectStep (s : Broker) (i : Nat) : Broker :=
  match s.loops[i]? with
  | none => s
  | some (r, []) => { s.closeChannel r with loops := s.loops.eraseIdx i }
  | some (r, (key, n) :: items) =>
    let settled := s.settlePending key
    let s' := { settled.2 with loops := s.loops.set i (r, items) }
    match settled.1 with
    | none => s'
    | some (m, request) =>
      if m ≠ n ∨ s.closed then s'
      else
        let written := if request.direction = .extensionToRuntime then
            s'.toExtension (.answered n)
              (request.errorFor "runtime_disconnected" "Runtime disconnected" true)
          else s'.toExtension (.revoked n) (request.cancelFor "runtime_disconnected")
        written.getD { s' with loops := s.loops.set i (r, []) }

/-! ### The end -/

/-- What `close` does for an entry of the table. -/
def closeItem (runtimes : Assoc String Nat) (s : Broker) (key : RelayKey) : Broker :=
  let settled := s.settlePending key
  match settled.1 with
  | none => settled.2
  | some (n, request) =>
    match runtimes.get? request.runtimeId with
    | none => settled.2
    | some r =>
      let written := if request.direction = .runtimeToExtension then
          settled.2.toRuntime r (.answered n)
            (request.errorFor "extension_disconnected" "Chrome extension disconnected" true)
        else settled.2.toRuntime r (.revoked n) (request.cancelFor "extension_disconnected")
      written.getD settled.2

/-- `close`; nothing else is done for an entry once it has been taken out. -/
def close (s : Broker) : Broker :=
  if s.closed then s
  else
    let s' := s.pending.table.keys.foldl (closeItem s.runtimes)
      { s with closed := true, runtimes := [] }
    { s' with relays := s'.relays.map fun relay =>
        { relay with writable := false, reading := false } }

/-- A write to the browser in `run` that fails ends it. -/
def refuseExtension (s : Broker) (request : Envelope) (code message : String)
    (retryable : Bool) : Broker :=
  (s.toExtension .refused (request.errorFor code message retryable)).getD s.close

/-- The reader of a relay ends. -/
def endReader (s : Broker) (r : Nat) : Broker :=
  { s with relays := s.relays.modify r fun relay => { relay with reading := false } }.disconnect r

/-- A write to the runtime in its reader that fails ends the reader. -/
def refuseRuntime (s : Broker) (r : Nat) (request : Envelope) (code message : String)
    (retryable : Bool) : Broker :=
  (s.toRuntime r .refused (request.errorFor code message retryable)).getD (s.endReader r)

/-! ### Envelopes of the browser -/

/-- `_runtime_for`; whether a new connection succeeds is an input. -/
def runtimeFor (c : BrokerConfig) (s : Broker) (envelope : Envelope) (connects : Bool) :
    Option (Nat × Broker) :=
  match s.runtimes.get? envelope.runtimeId with
  | some r =>
    if (s.relays[r]?).map RuntimeRelay.sessionId = some envelope.sessionId then some (r, s) else none
  | none =>
    if c.maxRuntimes ≤ s.runtimes.length ∨ ¬ connects then none
    else some (s.relays.length, { s with
      relays := s.relays ++ [⟨envelope.runtimeId, envelope.sessionId, true, true⟩]
      runtimes := s.runtimes.set envelope.runtimeId s.relays.length })

/-- A request of the browser, once its runtime is known. -/
def requestRuntime (c : BrokerConfig) (s : Broker) (r : Nat) (envelope : Envelope) (now : Nat) :
    Broker :=
  if envelope.IsExpired now then
    s.refuseExtension envelope "deadline_exceeded" "Request deadline exceeded" true
  else if (s.pending.get? (RelayPending.key ⟨envelope, none⟩)).isSome then s
  else if c.maxPendingRequests ≤ s.pending.size then
    s.refuseExtension envelope "request_limit" "Native-host request limit reached" true
  else
    let s' := s.register envelope none
    (s'.toRuntime r (.forwarded s.pending.issued.length) envelope).getD (s'.disconnect r)

/-- An answer of the browser; of the writes, only the last is guarded. -/
def answerRuntime (s : Broker) (r : Nat) (envelope : Envelope) (now : Nat) : Broker :=
  let settled := s.settlePending
    (envelope.direction.opposite, envelope.runtimeId, envelope.requestId)
  match settled.1 with
  | none => settled.2
  | some (n, request) =>
    if ¬ request.Matches envelope then
      (settled.2.toRuntime r (.answered n) (request.errorFor "invalid_response"
        "Extension response metadata is invalid" false)).getD settled.2.close
    else if request.IsExpired now then
      (settled.2.toRuntime r (.answered n) (request.errorFor "deadline_exceeded"
        "Request deadline exceeded" true)).getD settled.2.close
    else (settled.2.toRuntime r (.answered n) envelope).getD (settled.2.disconnect r)

/-- A cancel of the browser. -/
def cancelRuntime (s : Broker) (r : Nat) (envelope : Envelope) : Broker :=
  let settled := s.settlePending (envelope.direction, envelope.runtimeId, envelope.requestId)
  match settled.1 with
  | none => settled.2
  | some (n, request) =>
    if ¬ request.Matches envelope then settled.2
    else
      let s' := settled.2.record (.withdrawn n (.runtime r) envelope)
      if s.Takes r envelope then s' else s'.disconnect r

/-- `_route_from_extension`; the clock is read before and after the runtime is connected. -/
def routeFromExtension (c : BrokerConfig) (s : Broker) (envelope : Envelope) (now later : Nat)
    (connects : Bool) : Broker :=
  match envelope.payload with
  | .request _ _ =>
    if now + maxDeadlineAheadMs < envelope.deadlineMs then
      s.refuseExtension envelope "invalid_deadline" "Request deadline exceeds the protocol limit" false
    else if envelope.IsExpired now then
      s.refuseExtension envelope "deadline_exceeded" "Request deadline exceeded" true
    else
      match s.runtimeFor c envelope connects with
      | none =>
        if envelope.IsExpired later then
          s.refuseExtension envelope "deadline_exceeded" "Request deadline exceeded" true
        else s.refuseExtension envelope "runtime_unavailable" "Requested runtime is unavailable" true
      | some (r, s) => s.requestRuntime c r envelope later
  | .response _ | .error _ _ _ =>
    match s.runtimeFor c envelope connects with
    | none => s
    | some (r, s) => s.answerRuntime r envelope later
  | .cancel _ =>
    match s.runtimeFor c envelope connects with
    | none => s
    | some (r, s) => s.cancelRuntime r envelope
  | .event _ _ =>
    match s.runtimeFor c envelope connects with
    | none => s
    | some (r, s) => (s.toRuntime r .event envelope).getD (s.disconnect r)

/-! ### Envelopes of the runtimes -/

/-- A request of a runtime. -/
def requestExtension (c : BrokerConfig) (s : Broker) (r : Nat) (envelope : Envelope) (now : Nat) :
    Broker :=
  if now + maxDeadlineAheadMs < envelope.deadlineMs then
    s.refuseRuntime r envelope "invalid_deadline" "Request deadline exceeds the protocol limit" false
  else if envelope.IsExpired now then
    s.refuseRuntime r envelope "deadline_exceeded" "Request deadline exceeded" true
  else if (s.pending.get? (RelayPending.key ⟨envelope, some r⟩)).isSome then s
  else if c.maxPendingRequests ≤ s.pending.size then
    s.refuseRuntime r envelope "request_limit" "Native-host request limit reached" true
  else
    let s' := s.register envelope (some r)
    (s'.passOn c (.forwarded s.pending.issued.length) envelope).getD (s'.endReader r)

/-- An answer of a runtime; a write that fails ends its reader. -/
def answerExtension (c : BrokerConfig) (s : Broker) (r : Nat) (envelope : Envelope) (now : Nat) :
    Broker :=
  let settled := s.settlePending
    (envelope.direction.opposite, envelope.runtimeId, envelope.requestId)
  match settled.1 with
  | none => settled.2
  | some (n, request) =>
    if ¬ request.Matches envelope then
      (settled.2.toExtension (.answered n) (request.errorFor "invalid_response"
        "Runtime response metadata is invalid" false)).getD (settled.2.endReader r)
    else if request.IsExpired now then
      (settled.2.toExtension (.answered n) (request.errorFor "deadline_exceeded"
        "Request deadline exceeded" true)).getD (settled.2.endReader r)
    else (settled.2.passOn c (.answered n) envelope).getD (settled.2.endReader r)

/-- A cancel of a runtime. -/
def cancelExtension (c : BrokerConfig) (s : Broker) (r : Nat) (envelope : Envelope) : Broker :=
  let settled := s.settlePending (envelope.direction, envelope.runtimeId, envelope.requestId)
  match settled.1 with
  | none => settled.2
  | some (n, request) =>
    if ¬ request.Matches envelope then settled.2
    else
      let s' := settled.2.record (.withdrawn n .extension envelope)
      if s.extension ∧ c.fits envelope then s' else s'.endReader r

/-- `_route_from_runtime`. -/
def routeFromRuntime (c : BrokerConfig) (s : Broker) (r : Nat) (envelope : Envelope) (now : Nat) :
    Broker :=
  match envelope.payload with
  | .request _ _ => s.requestExtension c r envelope now
  | .response _ | .error _ _ _ => s.answerExtension c r envelope now
  | .cancel _ => s.cancelExtension c r envelope
  | .event _ _ => (s.passOn c .event envelope).getD (s.endReader r)

/-! ### Deadlines -/

/-- `_expire_pending`, from the end of its sleep. -/
def expirePending (s : Broker) (n : Nat) : Broker :=
  match s.pending.issued[n]? with
  | none => s
  | some pending =>
    let request := pending.request
    let error := request.errorFor "deadline_exceeded" "Request deadline exceeded" true
    let cancel := request.cancelFor "deadline_exceeded"
    let s := { s with pending := s.pending.drop pending.key }
    match request.direction, s.runtimes.get? request.runtimeId with
    | .extensionToRuntime, none => (s.toExtension (.answered n) error).getD s
    | .extensionToRuntime, some r =>
      match s.toExtension (.answered n) error with
      | none => s
      | some s => (s.toRuntime r (.revoked n) cancel).getD s
    | .runtimeToExtension, none => s
    | .runtimeToExtension, some r =>
      let s := (s.toRuntime r (.answered n) error).getD s
      (s.toExtension (.revoked n) cancel).getD s

end Broker

/-! ### A run -/

inductive BrokerEvent where
  | fromExtension (envelope : Envelope) (now later : Nat) (connects : Bool)
  | fromRuntime (relay : Nat) (envelope : Envelope) (now : Nat)
  /-- the reader of a relay ends, or fails -/
  | readerEnds (relay : Nat)
  /-- the sleep of the timer of a request ends -/
  | expire (request : Nat)
  | disconnecting (loop : Nat)
  /-- the channel of a relay can no longer be written -/
  | relayLost (relay : Nat)
  /-- the browser's port can no longer be written -/
  | extensionLost
  /-- `run` ends -/
  | close

namespace Broker

/-- The checks of `RuntimeChannel.read`. -/
def Reads (relay : RuntimeRelay) (envelope : Envelope) : Prop :=
  envelope.runtimeId = relay.runtimeId ∧ envelope.sessionId = relay.sessionId ∧
    envelope.direction = .runtimeToExtension

instance (relay : RuntimeRelay) (envelope : Envelope) : Decidable (Reads relay envelope) :=
  inferInstanceAs (Decidable (_ ∧ _))

/-- One step; what is not possible in a state changes nothing. -/
def step (c : BrokerConfig) (s : Broker) : BrokerEvent → Broker
  | .fromExtension envelope now later connects =>
    if s.closed then s
    -- "Chrome sent an envelope with an invalid direction"
    else if envelope.direction ≠ .extensionToRuntime then s.close
    else s.routeFromExtension c envelope now later connects
  | .fromRuntime r envelope now =>
    match s.relays[r]? with
    | none => s
    | some relay =>
      if ¬ relay.reading then s
      else if Reads relay envelope then s.routeFromRuntime c r envelope now
      else s.endReader r
  | .readerEnds r => s.endReader r
  | .expire n => if s.pending.IsOpen n then s.expirePending n else s
  | .disconnecting i => s.disconnectStep i
  | .relayLost r =>
    { s with relays := s.relays.modify r fun relay => { relay with writable := false } }
  | .extensionLost => { s with extension := false }
  | .close => s.close

def run (c : BrokerConfig) (events : List BrokerEvent) : Broker := events.foldl (step c) start

end Broker

end KolegaCode.BrowserExtension
