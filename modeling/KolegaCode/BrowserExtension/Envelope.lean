import KolegaCode.Lib.JsonDict

/-!
# Browser extension — envelopes

A runtime and the browser extension exchange envelopes.  An answer belongs to a request when it
comes the other way and carries the same runtime, session, request and deadline; a cancel, when it
comes the same way.
-/

namespace KolegaCode.BrowserExtension

open Json (Dict)

/-- `MessageDirection`. -/
inductive MessageDirection where
  | runtimeToExtension
  | extensionToRuntime
deriving DecidableEq, Repr

/-- `MessageDirection.opposite`. -/
def MessageDirection.opposite : MessageDirection → MessageDirection
  | .runtimeToExtension => .extensionToRuntime
  | .extensionToRuntime => .runtimeToExtension

/-- The payload, by `MessageType`. -/
inductive Payload where
  | request (operation : String) (params : Dict)
  | response (result : Json)
  | error (code message : String) (retryable : Bool)
  | cancel (reason : String)
  | event (name : String) (data : Dict)
deriving DecidableEq

/-- `Envelope`. -/
structure Envelope where
  direction : MessageDirection
  requestId : String
  runtimeId : String
  sessionId : String
  deadlineMs : Nat
  payload : Payload
deriving DecidableEq

namespace Envelope

/-- `Envelope.is_expired`. -/
def IsExpired (e : Envelope) (now : Nat) : Prop := e.deadlineMs ≤ now

instance (e : Envelope) (now : Nat) : Decidable (e.IsExpired now) :=
  inferInstanceAs (Decidable (_ ≤ _))

/-- `Envelope.response_for`. -/
def responseFor (request : Envelope) (result : Json) : Envelope :=
  { request with direction := request.direction.opposite, payload := .response result }

/-- `Envelope.error_for`. -/
def errorFor (request : Envelope) (code message : String) (retryable : Bool := false) : Envelope :=
  { request with
    direction := request.direction.opposite
    payload := .error code message retryable }

/-- `Envelope.cancel_for`. -/
def cancelFor (request : Envelope) (reason : String) : Envelope :=
  { request with payload := .cancel reason }

/-- `_response_matches`. -/
def Answers (request response : Envelope) : Prop :=
  response.direction = request.direction.opposite ∧ response.runtimeId = request.runtimeId ∧
    response.sessionId = request.sessionId ∧ response.requestId = request.requestId ∧
    response.deadlineMs = request.deadlineMs

instance (request response : Envelope) : Decidable (request.Answers response) :=
  inferInstanceAs (Decidable (_ ∧ _))

/-- A cancel belongs to a request. -/
def Cancels (request cancel : Envelope) : Prop :=
  cancel.direction = request.direction ∧ cancel.runtimeId = request.runtimeId ∧
    cancel.sessionId = request.sessionId ∧ cancel.deadlineMs = request.deadlineMs

instance (request cancel : Envelope) : Decidable (request.Cancels cancel) :=
  inferInstanceAs (Decidable (_ ∧ _))

end Envelope

end KolegaCode.BrowserExtension
