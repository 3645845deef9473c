import Mathlib.Data.List.Sort
import KolegaCode.Lib.Assoc
import KolegaCode.Recording.Event

/-!
# Presentation — the state of a projection

The records both projections keep, and the sequences of items an event may target: the main
transcript, or the steps of the sub-agent the event belongs to.  Items are only ever added at the
end and changed in place.
-/

namespace KolegaCode.Presentation

open Json (Dict)
open Recording (AgentEvent)

/-- One block in the transcript. -/
structure ConversationItem where
  kind : String
  text : String := ""
  complete : Bool := true
  streamId : Option String := none
  toolName : Option String := none
  toolCallId : Option String := none
  status : Option String := none
  tone : Option String := none
  subAgent : Option String := none
  seq : Option Int := none
  elapsedMs : Int := 0
  artifacts : List Dict := []
  editPreview : Option Dict := none
  toolSubject : Option String := none
  toolDisplay : Option Dict := none

/-- Live state of one delegated agent. -/
structure SubAgentActivity where
  key : String
  name : String
  task : String
  status : String := "running"
  notice : String := ""
  steps : List ConversationItem := []
  lastText : String := ""
  context : Option Dict := none
  label : String
  phase : String
  workflowRunId : String

structure TurnMarker where
  turnId : String
  status : String := "open"
  userText : String
  startedSeq : Option Int
  startedMs : Int
  endedMs : Option Int := none

/-- A decision point, outstanding until it has a reason. -/
structure PendingPrompt where
  requestId : String
  kind : String
  payload : Dict
  response : Option Dict := none
  reason : Option String := none
  seq : Option Int
  elapsedMs : Int

/-- The numbers are JSON numbers. -/
structure ContextStatus where
  inputTokens : Json
  maxTokens : Json
  usagePercentage : Json
  alertLevel : String
  message : Json
  willCompressAt : Json

/-- Correlation of one peer message's lifecycle. -/
structure PeerMessageRecord where
  index : Nat
  senderId : String
  sender : String
  body : String
  delivered : Bool

/-- The state, without the terminal's text. -/
structure View where
  conversation : List ConversationItem := []
  subAgents : Assoc String SubAgentActivity := []
  turns : List TurnMarker := []
  terminalTruncated : Bool := false
  logs : List (String × String) := []
  editPreviews : List Dict := []
  context : Option ContextStatus := none
  compaction : Option Dict := none
  prompts : List PendingPrompt := []
  status : String := ""
  activity : String := "idle"
  openBrowsers : List String := []
  lastSeq : Int := 0
  elapsedMs : Int := 0
  recordingTruncated : Bool := false
  unknownEventTypes : List String := []
  streams : Assoc String Nat := []
  tools : Assoc String Nat := []
  peerMessages : Assoc String PeerMessageRecord := []
  pendingPeerTurns : List String := []

def TERMINAL_BUFFER_CHARS : Nat := 2000000
def LOG_BUFFER_LINES : Nat := 2000

/-! ### Sequences of items -/

/-- The steps of the sub-agent with the key, or the main transcript. -/
def View.items (v : View) (key : Option String) : List ConversationItem :=
  match key.bind v.subAgents.get? with
  | some activity => activity.steps
  | none => v.conversation

def View.setItems (v : View) (key : Option String) (items : List ConversationItem) : View :=
  match key with
  | none => { v with conversation := items }
  | some k =>
    match v.subAgents.get? k with
    | some activity => { v with subAgents := v.subAgents.set k { activity with steps := items } }
    | none => { v with conversation := items }

/-- The item an index of the sequence points at is changed in place. -/
def View.modifyItem (v : View) (key : Option String) (index : Nat)
    (f : ConversationItem → ConversationItem) : View :=
  v.setItems key ((v.items key).modify index f)

/-- A set of strings, in the order they were added. -/
def addTo (set : List String) (value : String) : List String :=
  if value ∈ set then set else set ++ [value]

def sorted (set : List String) : List String := set.insertionSort (· ≤ ·)

/-- A value that may be unset. -/
def orNull {α : Type} (f : α → Json) : Option α → Json
  | some a => f a
  | none => .null

/-- A field that is left out when it is unset. -/
def optional (key : String) (value : Option Json) : Dict :=
  match value with
  | some v => [(key, v)]
  | none => []

end KolegaCode.Presentation
