import KolegaCode.Lib.Assoc

/-!
# Control — the channel for answers of a human

`request` first awaits the announcement of the request and then a shielded wait with a timeout for
its future.  A step is a stretch of a coroutine between two awaits, a call of a client, or
something the event loop does to a waiter: its timer fires, or its task is cancelled.

A fired timer or a cancellation reaches the coroutine only when it is resumed, whatever happens to
the future in between.
-/

namespace KolegaCode.Control

/-- Where the coroutine of a request stands. -/
inductive Waiter (Msg : Type) where
  /-- Awaiting the announcement of the request. -/
  | announcing
  /-- In the shielded wait. -/
  | waiting
  /-- The timer of the wait has fired, the coroutine has not been resumed. -/
  | expired
  /-- The task has been cancelled, the coroutine has not been resumed. -/
  | cancelling
  | returned (result : Msg)
  | cancelled
deriving DecidableEq

/-- The coroutine has ended. -/
def Waiter.ended {Msg : Type} : Waiter Msg → Bool
  | .returned _ | .cancelled => true
  | _ => false

/-- A `ControlRequest`, with the coroutine that made it. -/
structure ControlRequest (Msg : Type) where
  kind : String
  payload : Msg
  default : Msg
  delivered : Bool
  future : Option Msg
  waiter : Waiter Msg
deriving DecidableEq

inductive Reason where
  | answered
  | controllerLeft
  | noController
  | timeout
  | cancelled
deriving DecidableEq

/-- What can be seen of a channel: its announcements, the answers it accepted, and how the
coroutines ended. -/
inductive Entry (Id Msg : Type) where
  | requested (id : Id) (hasController : Bool)
  | resolved (id : Id) (response : Msg) (reason : Reason)
  | accepted (id : Id) (response : Msg)
  | returned (id : Id) (result : Msg)
  | cancelled (id : Id)
deriving DecidableEq

structure ControlChannel (Id Client Msg : Type) where
  lease : Option Client
  /-- Every request that was made. -/
  requests : Assoc Id (ControlRequest Msg)
  /-- The keys of `_pending`. -/
  pending : List Id
  log : List (Entry Id Msg)

/-- Raised when a client tries to take a lease another client holds. -/
structure ControlLeaseError

variable {Id Client Msg : Type} [DecidableEq Id] [DecidableEq Client]

def ControlChannel.new (Id Client Msg : Type) : ControlChannel Id Client Msg where
  lease := none
  requests := []
  pending := []
  log := []

namespace ControlChannel

omit [DecidableEq Id] [DecidableEq Client] in
def hasController (s : ControlChannel Id Client Msg) : Bool := s.lease.isSome

def write (s : ControlChannel Id Client Msg) (entry : Entry Id Msg) : ControlChannel Id Client Msg :=
  { s with log := s.log ++ [entry] }

def setRequest (s : ControlChannel Id Client Msg) (id : Id) (request : ControlRequest Msg) :
    ControlChannel Id Client Msg :=
  { s with requests := s.requests.set id request }

/-- `future.set_result` unless it is done. -/
def resolve (request : ControlRequest Msg) (response : Msg) : ControlRequest Msg :=
  { request with future := some (request.future.getD response) }

/-- `_settle`: the announcement is made by a task of its own. -/
def settle (s : ControlChannel Id Client Msg) (id : Id) (response : Msg) (reason : Reason) :
    ControlChannel Id Client Msg :=
  match s.requests.get? id with
  | none => s
  | some request =>
    { s with
      pending := s.pending.filter (· ≠ id)
      requests := s.requests.set id (resolve request response)
      log := s.log ++ [.resolved id response reason] }

/-! ### The lease -/

def acquire (s : ControlChannel Id Client Msg) (client : Client) :
    Except ControlLeaseError (ControlChannel Id Client Msg) :=
  if s.lease ≠ none ∧ s.lease ≠ some client then .error ⟨⟩
  else .ok { s with lease := some client }

/-- The default of a request, for the requests `release` settles. -/
def settleDefault (reason : Reason) (s : ControlChannel Id Client Msg) (id : Id) :
    ControlChannel Id Client Msg :=
  match s.requests.get? id with
  | none => s
  | some request => s.settle id request.default reason

def release (s : ControlChannel Id Client Msg) (client : Client) : ControlChannel Id Client Msg :=
  if s.lease ≠ some client then s
  else s.pending.foldl (settleDefault .controllerLeft) { s with lease := none }

/-! ### The agent's side -/

/-- `request` up to its first await. -/
def request (s : ControlChannel Id Client Msg) (id : Id) (kind : String) (payload default : Msg) :
    ControlChannel Id Client Msg :=
  ({ s with
    requests := s.requests.set id
      { kind, payload, default, delivered := false, future := none, waiter := .announcing }
    pending := s.pending ++ [id] }).write (.requested id s.hasController)

/-- The coroutine returns. -/
def finish (s : ControlChannel Id Client Msg) (id : Id) (result : Msg) :
    ControlChannel Id Client Msg :=
  match s.requests.get? id with
  | none => s
  | some request => (s.setRequest id { request with waiter := .returned result }).write
      (.returned id result)

/-- `return await request.future`, of a future that is done. -/
def finishFuture (s : ControlChannel Id Client Msg) (id : Id) : ControlChannel Id Client Msg :=
  match (s.requests.get? id).bind ControlRequest.future with
  | none => s
  | some result => s.finish id result

/-- The announcement is over, or has failed: from there to the shielded wait. -/
def announced (s : ControlChannel Id Client Msg) (id : Id) (request : ControlRequest Msg) :
    ControlChannel Id Client Msg :=
  if !s.hasController then (s.settle id request.default .noController).finishFuture id
  else if request.future.isSome then s.finishFuture id
  else s.setRequest id { request with waiter := .waiting }

/-- The coroutine is resumed; a wait with nothing to report is not. -/
def resume (s : ControlChannel Id Client Msg) (id : Id) (request : ControlRequest Msg) :
    Option (ControlChannel Id Client Msg) :=
  match request.waiter with
  | .waiting => if request.future.isSome then some (s.finishFuture id) else none
  | .expired => some ((s.settle id request.default .timeout).finish id request.default)
  | .cancelling =>
    let s' := s.settle id request.default .cancelled
    (s'.requests.get? id).map fun request =>
      (s'.setRequest id { request with waiter := .cancelled }).write (.cancelled id)
  | _ => none

/-! ### The clients' side -/

/-- Marks a live prompt as presented. -/
def markDelivered (s : ControlChannel Id Client Msg) (id : Id) : ControlChannel Id Client Msg :=
  match s.requests.get? id with
  | none => s
  | some request =>
    if !s.hasController || !decide (id ∈ s.pending) || request.delivered || request.future.isSome
    then s
    else s.setRequest id { request with delivered := true }

def respond (s : ControlChannel Id Client Msg) (id : Id) (response : Msg)
    (client : Option Client) : Except ControlLeaseError (Bool × ControlChannel Id Client Msg) :=
  if client ≠ none ∧ s.lease ≠ none ∧ client ≠ s.lease then .error ⟨⟩
  else if !s.hasController || !decide (id ∈ s.pending) then .ok (false, s)
  else .ok (true, s.settle id response .answered)

end ControlChannel

/-! ### Steps and runs -/

inductive Event (Id Client Msg : Type) where
  | acquire (client : Client)
  | release (client : Client)
  | request (id : Id) (kind : String) (payload default : Msg)
  | announced (id : Id)
  | timeout (id : Id)
  | cancel (id : Id)
  | resume (id : Id)
  | markDelivered (id : Id)
  | respond (id : Id) (response : Msg) (client : Option Client)

/-- One step; `none` where the event cannot happen. -/
def step (s : ControlChannel Id Client Msg) :
    Event Id Client Msg → Option (ControlChannel Id Client Msg)
  | .acquire client =>
    match s.acquire client with
    | .ok s' => some s'
    | .error _ => some s
  | .release client => some (s.release client)
  | .request id kind payload default =>
    -- a request id is a new uuid
    if id ∈ s.requests.keys then none else some (s.request id kind payload default)
  | .announced id =>
    match s.requests.get? id with
    | some request =>
      match request.waiter with
      | .announcing => some (s.announced id request)
      | _ => none
    | none => none
  | .timeout id =>
    match s.requests.get? id with
    | some request =>
      match request.waiter with
      | .waiting => some (s.setRequest id { request with waiter := .expired })
      | _ => none
    | none => none
  | .cancel id =>
    match s.requests.get? id with
    | some request =>
      if request.waiter.ended then none
      else some (s.setRequest id { request with waiter := .cancelling })
    | none => none
  | .resume id =>
    match s.requests.get? id with
    | some request => s.resume id request
    | none => none
  | .markDelivered id => some (s.markDelivered id)
  | .respond id response client =>
    match s.respond id response client with
    | .ok (true, s') => some (s'.write (.accepted id response))
    | .ok (false, s') => some s'
    | .error _ => some s

/-- A run, from any channel. -/
def run (s : ControlChannel Id Client Msg) :
    List (Event Id Client Msg) → Option (ControlChannel Id Client Msg)
  | [] => some s
  | event :: events => (step s event).bind fun s' => run s' events

end KolegaCode.Control
