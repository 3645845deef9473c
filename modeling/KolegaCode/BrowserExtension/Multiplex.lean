import KolegaCode.BrowserExtension.Envelope
import KolegaCode.Lib.Pending

/-!
# Browser extension — a multiplexed peer

One connection carries the requests of both sides.  A request that goes out waits in a table for
its answer, its deadline, its caller to give up or the connection to close; a request that comes in
is handled by a task of its own, which a cancel interrupts.  Entries are found by request id, which
may be used again while an older request of that id is not over.
-/

namespace KolegaCode.BrowserExtension

open Json (Dict)

/-! ### The state -/

/-- What a request settles with. -/
inductive Outcome where
  | result (value : Json)
  /-- `RemoteRequestError` -/
  | remote (code message : String) (retryable : Bool)
  /-- "Response metadata does not match the request" -/
  | mismatch
  /-- "Request deadline exceeded" -/
  | deadline
  /-- `ConnectionClosedError` -/
  | closed (reason : String)
  /-- the future is cancelled -/
  | abandoned
deriving DecidableEq

/-- Where a call of `request` is. -/
inductive CallPhase where
  /-- `await self.channel.write(envelope)` -/
  | writing
  /-- `await asyncio.shield(future)` -/
  | waiting
  | over (outcome : Outcome)
deriving DecidableEq

/-- A call of `request`: its future, whether its timer is armed, and where it is. -/
structure Call where
  future : Option Outcome
  timer : Bool
  phase : CallPhase
deriving DecidableEq

/-- Where the task of a request that has come in is. -/
inductive TaskPhase where
  | created
  /-- `await self.request_handler(envelope)` -/
  | handling
  /-- its answer waits for the write lock -/
  | replying (reply : Payload)
  /-- its answer has been written, and waits for the buffer to drain -/
  | draining
  | done
deriving DecidableEq

/-- A task whose `cancel` is called: it ends, unless its handler has to. -/
def TaskPhase.interrupt : TaskPhase → TaskPhase
  | .handling => .handling
  | _ => .done

/-- How a handler ends. -/
inductive Handled where
  | returned (result : Json)
  /-- a `TimeoutError`, of the deadline or of its own -/
  | timedOut
  /-- a `CancelledError` -/
  | cancelled
  /-- another `Exception` -/
  | raised
deriving DecidableEq

/-- What a peer does that others can see. -/
inductive Entry where
  /-- an envelope of the channel is dispatched -/
  | read (envelope : Envelope)
  | settled (call : Nat) (outcome : Outcome)
  | cancelling (request : Envelope) (reason : String)
  | accepted (task : Nat) (request : Envelope)
  | rejected (request : Envelope) (reply : Payload)
  | replied (task : Nat) (reply : Payload)
deriving DecidableEq

/-- The channel and the bounds of a peer. -/
structure Config where
  outboundDirection : MessageDirection
  runtimeId : String
  sessionId : String
  maxPendingRequests : Nat
  maxInflightRequests : Nat
  /-- `request_handler` is not `None` -/
  handles : Bool
  /-- the constructor of `Envelope` -/
  accepts : Envelope → Bool

/-- `MultiplexedPeer`. -/
structure Peer where
  pending : Pending Envelope.requestId
  calls : List Call
  inflight : Pending Envelope.requestId
  tasks : List TaskPhase
  closing : Bool
  closedReason : String
  /-- the transport of the channel is closing -/
  lost : Bool
  log : List Entry

namespace Peer

def start : Peer := ⟨.empty _, [], .empty _, [], false, "Runtime connection closed", false, []⟩

/-- `closed`. -/
def Closed (s : Peer) : Prop := s.closing = true ∨ s.lost = true

instance (s : Peer) : Decidable s.Closed := inferInstanceAs (Decidable (_ ∨ _))

def record (s : Peer) (entry : Entry) : Peer := { s with log := s.log ++ [entry] }

/-! ### Requests that go out -/

/-- A future is set unless it is done. -/
def settle (s : Peer) (n : Nat) (outcome : Outcome) : Peer :=
  match s.calls[n]? with
  | some ⟨none, _, _⟩ =>
    { s with
      calls := s.calls.modify n fun call => { call with future := some outcome }
      log := s.log ++ [.settled n outcome] }
  | _ => s

/-- `timeout_handle.cancel()`. -/
def disarm (s : Peer) (n : Nat) : Peer :=
  { s with calls := s.calls.modify n fun call => { call with timer := false } }

/-- `_pop_pending`. -/
def popPending (s : Peer) (requestId : String) : Option Nat × Peer :=
  match s.pending.get? requestId with
  | none => (none, s)
  | some n => (some n, ({ s with pending := s.pending.drop requestId }).disarm n)

def setPhase (s : Peer) (n : Nat) (phase : CallPhase) : Peer :=
  { s with calls := s.calls.modify n fun call => { call with phase } }

/-- `_send_cancel`, for the request of a call. -/
def sendCancel (s : Peer) (n : Nat) (reason : String) : Peer :=
  match s.pending.issued[n]? with
  | some request => if s.Closed then s else s.record (.cancelling request reason)
  | none => s

/-- `close`, up to its first wait. -/
def close (s : Peer) (reason : String) : Peer :=
  if s.closing then s
  else
    let items := s.pending.numbers
    let s' := items.foldl (fun s n => (s.disarm n).settle n (.closed reason))
      { s with closing := true, closedReason := reason, pending := s.pending.clear }
    { s' with
      inflight := s.inflight.clear
      tasks := s.tasks.mapIdx fun n phase =>
        if s.inflight.IsOpen n then phase.interrupt else phase }

/-- `request`, up to its write. -/
def request (c : Config) (s : Peer) (envelope : Envelope) : Peer :=
  if s.Closed ∨ c.maxPendingRequests ≤ s.pending.size ∨
      (s.pending.get? envelope.requestId).isSome ∨ ¬ c.accepts envelope then s
  else
    { s with
      pending := s.pending.register envelope
      calls := s.calls ++ [⟨none, true, .writing⟩] }

/-- `_settle_abandoned_future(pending.future if pending is not None else future)`, for a call whose
write has not succeeded. -/
def abandonWrite (s : Peer) (n : Nat) (requestId : String) : Option Nat × Peer :=
  match s.popPending requestId with
  | (some m, s) => (some m, s.settle m .abandoned)
  | (none, s) => (none, s.settle n .abandoned)

/-- A call's write exceeds its deadline. -/
def writeTimedOut (s : Peer) (n : Nat) (requestId : String) : Peer :=
  (((s.abandonWrite n requestId).2.close "Runtime request write exceeded its deadline").setPhase n
    (.over .deadline))

/-- A call's write fails. -/
def writeFailed (s : Peer) (n : Nat) (requestId : String) : Peer :=
  (((s.abandonWrite n requestId).2.close "Runtime connection is closed").setPhase n
    (.over (.closed "Runtime connection is closed")))

/-- A `CancelledError` reaches a call in its write. -/
def writeCancelled (s : Peer) (n : Nat) (requestId : String) : Peer :=
  match s.abandonWrite n requestId with
  | (some m, s) => (s.sendCancel m "caller_cancelled").setPhase n (.over .abandoned)
  | (none, s) => s.setPhase n (.over .abandoned)

/-- A `CancelledError` reaches a call that waits for its future. -/
def waitCancelled (s : Peer) (n : Nat) (requestId : String) : Peer :=
  match s.popPending requestId with
  | (some m, s) =>
    ((s.settle m .abandoned).sendCancel m "caller_cancelled").setPhase n (.over .abandoned)
  | (none, s) => s.setPhase n (.over .abandoned)

/-- A call that waits goes on with its future; a cancelled one raises `CancelledError` in it. -/
def resume (s : Peer) (n : Nat) (requestId : String) : Outcome → Peer
  | .abandoned => s.waitCancelled n requestId
  | outcome => s.setPhase n (.over outcome)

/-- `_expire_request`. -/
def expireRequest (s : Peer) (requestId : String) : Peer :=
  match s.popPending requestId with
  | (some m, s) => (s.settle m .deadline).sendCancel m "deadline_exceeded"
  | (none, s) => s

/-- What `_handle_response` and `_handle_error` have in common. -/
def handleAnswer (s : Peer) (envelope : Envelope) (now : Nat) (outcome : Outcome) : Peer :=
  match s.popPending envelope.requestId with
  | (some m, s) =>
    match s.pending.issued[m]? with
    | some request =>
      s.settle m (if ¬ request.Answers envelope then .mismatch
        else if request.IsExpired now then .deadline else outcome)
    | none => s
  | (none, s) => s

/-- `_handle_response`. -/
def handleResponse (s : Peer) (envelope : Envelope) (now : Nat) (result : Json) : Peer :=
  s.handleAnswer envelope now (.result result)

/-- `_handle_error`. -/
def handleError (s : Peer) (envelope : Envelope) (now : Nat) (code message : String)
    (retryable : Bool) : Peer :=
  s.handleAnswer envelope now (.remote code message retryable)

/-! ### Requests that come in -/

def setTask (s : Peer) (n : Nat) (phase : TaskPhase) : Peer :=
  { s with tasks := s.tasks.modify n fun _ => phase }

/-- A task ends, and takes its entry out if it still is its own. -/
def finish (s : Peer) (n : Nat) (requestId : String) : Peer :=
  let s := s.setTask n .done
  if s.inflight.IsOpen n then { s with inflight := s.inflight.drop requestId } else s

/-- "Request deadline exceeded" -/
def deadlineExceeded : Payload := .error "deadline_exceeded" "Request deadline exceeded" true

/-- "Runtime operation failed" -/
def internalError : Payload := .error "internal_error" "Runtime operation failed" false

/-- `_send_error` in the task of a request. -/
def sendError (s : Peer) (n : Nat) (requestId : String) (reply : Payload) : Peer :=
  if s.Closed then s.finish n requestId else s.setTask n (.replying reply)

/-- `_send_error` for a request that is not accepted. -/
def reject (s : Peer) (request : Envelope) (reply : Payload) : Peer :=
  if s.Closed then s else s.record (.rejected request reply)

/-- `_start_incoming_request`. -/
def startIncomingRequest (c : Config) (s : Peer) (envelope : Envelope) (now : Nat) : Peer :=
  if envelope.IsExpired now then s.reject envelope deadlineExceeded
  else if (s.inflight.get? envelope.requestId).isSome then s
  else if c.maxInflightRequests ≤ s.inflight.size then
    s.reject envelope (.error "server_busy" "Runtime request limit reached" true)
  else
    { s with
      inflight := s.inflight.register envelope
      tasks := s.tasks ++ [.created]
      log := s.log ++ [.accepted s.tasks.length envelope] }

/-- `_run_handler`, up to the call of the handler. -/
def startHandler (c : Config) (s : Peer) (n : Nat) (request : Envelope) (now : Nat) : Peer :=
  if ¬ c.handles then
    s.sendError n request.requestId
      (.error "unsupported_operation" "Operation is not supported" false)
  else if request.IsExpired now then s.sendError n request.requestId deadlineExceeded
  else s.setTask n .handling

/-- `_run_handler`, from the end of the handler; the clock is read before and after the response
is built. -/
def endHandler (c : Config) (s : Peer) (n : Nat) (request : Envelope) (now later : Nat) :
    Handled → Peer
  | .timedOut => s.sendError n request.requestId deadlineExceeded
  | .cancelled => s.finish n request.requestId
  | .raised => s.sendError n request.requestId internalError
  | .returned result =>
    if ¬ s.inflight.IsOpen n then s.finish n request.requestId
    else if request.IsExpired now then s.sendError n request.requestId deadlineExceeded
    else if ¬ c.accepts (request.responseFor result) then
      s.sendError n request.requestId internalError
    else if request.IsExpired later then s.sendError n request.requestId deadlineExceeded
    else s.setTask n (.replying (.response result))

/-- `_handle_cancel`. -/
def handleCancel (s : Peer) (envelope : Envelope) : Peer :=
  match s.inflight.get? envelope.requestId with
  | none => s
  | some n =>
    match s.inflight.issued[n]? with
    | some request =>
      if request.Cancels envelope then
        { s with
          inflight := s.inflight.drop envelope.requestId
          tasks := s.tasks.modify n TaskPhase.interrupt }
      else s
    | none => s

/-- `_dispatch`. -/
def dispatch (c : Config) (s : Peer) (envelope : Envelope) (now : Nat) : Peer :=
  match envelope.payload with
  | .response result => s.handleResponse envelope now result
  | .error code message retryable => s.handleError envelope now code message retryable
  | .request _ _ => s.startIncomingRequest c envelope now
  | .cancel _ => s.handleCancel envelope
  | .event _ _ => s

end Peer

/-! ### A run -/

inductive Event where
  /-- `request` is called -/
  | request (requestId : String) (deadlineMs : Nat) (operation : String) (params : Dict)
  | written (call : Nat)
  | writeTimedOut (call : Nat)
  | writeFailed (call : Nat)
  /-- the caller of `request` is cancelled -/
  | callerCancelled (call : Nat)
  | resume (call : Nat)
  /-- the timer of a call fires -/
  | expire (call : Nat)
  | read (envelope : Envelope) (now : Nat)
  | started (task : Nat) (now : Nat)
  | handled (task : Nat) (outcome : Handled) (now later : Nat)
  /-- the answer of a task gets the write lock -/
  | put (task : Nat)
  | drained (task : Nat)
  /-- the write of an answer fails or exceeds its deadline -/
  | replyFailed (task : Nat) (reason : String)
  | close (reason : String)
  | lost

/-- The checks of `RuntimeChannel.read`. -/
def Config.Reads (c : Config) (envelope : Envelope) : Prop :=
  envelope.runtimeId = c.runtimeId ∧ envelope.sessionId = c.sessionId ∧
    envelope.direction = c.outboundDirection.opposite

instance (c : Config) (envelope : Envelope) : Decidable (c.Reads envelope) :=
  inferInstanceAs (Decidable (_ ∧ _))

/-- The envelope of a call of `request`. -/
def Config.requestEnvelope (c : Config) (requestId : String) (deadlineMs : Nat) (operation : String)
    (params : Dict) : Envelope where
  direction := c.outboundDirection
  requestId
  runtimeId := c.runtimeId
  sessionId := c.sessionId
  deadlineMs
  payload := .request operation params

namespace Peer

/-- The request id of a call. -/
def callId (s : Peer) (n : Nat) : String :=
  ((s.pending.issued[n]?).map Envelope.requestId).getD ""

/-- One step; what is not possible in a state changes nothing. -/
def step (c : Config) (s : Peer) : Event → Peer
  | .request requestId deadlineMs operation params =>
    s.request c (c.requestEnvelope requestId deadlineMs operation params)
  | .written n =>
    match s.calls[n]? with
    | some ⟨_, _, .writing⟩ => s.setPhase n .waiting
    | _ => s
  | .writeTimedOut n =>
    match s.calls[n]? with
    | some ⟨_, _, .writing⟩ => s.writeTimedOut n (s.callId n)
    | _ => s
  | .writeFailed n =>
    match s.calls[n]? with
    | some ⟨_, _, .writing⟩ => s.writeFailed n (s.callId n)
    | _ => s
  | .callerCancelled n =>
    match s.calls[n]? with
    | some ⟨_, _, .writing⟩ => s.writeCancelled n (s.callId n)
    | some ⟨_, _, .waiting⟩ => s.waitCancelled n (s.callId n)
    | _ => s
  | .resume n =>
    match s.calls[n]? with
    | some ⟨some outcome, _, .waiting⟩ => s.resume n (s.callId n) outcome
    | _ => s
  | .expire n =>
    match s.calls[n]? with
    | some ⟨_, true, _⟩ => s.expireRequest (s.callId n)
    | _ => s
  | .read envelope now =>
    if s.closing then s
    else if c.Reads envelope then (s.record (.read envelope)).dispatch c envelope now
    else s.close "Runtime connection protocol failed"
  | .started n now =>
    match s.tasks[n]?, s.inflight.issued[n]? with
    | some .created, some request => s.startHandler c n request now
    | _, _ => s
  | .handled n outcome now later =>
    match s.tasks[n]?, s.inflight.issued[n]? with
    | some .handling, some request => s.endHandler c n request now later outcome
    | _, _ => s
  | .put n =>
    match s.tasks[n]? with
    | some (.replying reply) =>
      if s.Closed then s else (s.setTask n .draining).record (.replied n reply)
    | _ => s
  | .drained n =>
    match s.tasks[n]?, s.inflight.issued[n]? with
    | some .draining, some request => s.finish n request.requestId
    | _, _ => s
  | .replyFailed n reason =>
    match s.tasks[n]?, s.inflight.issued[n]? with
    | some (.replying _), some request => (s.close reason).finish n request.requestId
    | some .draining, some request => (s.close reason).finish n request.requestId
    | _, _ => s
  | .close reason => s.close reason
  | .lost => { s with lost := true }

def run (c : Config) (events : List Event) : Peer := events.foldl (step c) start

end Peer

end KolegaCode.BrowserExtension
