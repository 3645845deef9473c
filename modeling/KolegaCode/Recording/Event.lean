import KolegaCode.Lib.JsonDict
import KolegaCode.Session.Event

/-!
# Recording — the events of a session

An `AgentEvent`, with what its recording and its projections look at.
-/

namespace KolegaCode.Recording

structure AgentEvent where
  uuid : String
  eventType : String
  sender : String
  content : Json.Dict
  isStreaming : Bool
  subAgentInfo : Option Json.Dict
  /-- Given by the store when the event is appended. -/
  seq : Option Int
  elapsedMs : Int
  artifacts : List Json.Dict
deriving DecidableEq

/-- `a or b`, for the values of two keys. -/
def orElse (a b : Option Json) : Option Json := if a.any Session.truthy then a else b

/-- `str(value or default)`. -/
def strOr (value : Option Json) (default : String) : String :=
  match orElse value none with
  | some v => Session.strOf v
  | none => default

end KolegaCode.Recording
