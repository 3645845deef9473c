import KolegaCode.Lib.Assoc
import KolegaCode.Lib.JsonText
import Mathlib.Algebra.GroupWithZero.Nat

/-!
# Background — the manager of the background jobs

`BackgroundAgentManager` keeps the completions of jobs in a mailbox until the host delivers them to
the root agent.  The outcome of a job is committed to the session journal before the job is in the
mailbox, and its completion before it is in the live history.

The actions are what happens between two awaits: a task is stepped, a thread that writes to the
journal is done, an operation takes the manager's lock.  An action that cannot happen leaves the
state as it is.  A process that exits takes the manager with it and leaves the journal.
-/

namespace KolegaCode.Background

/-! ### Jobs -/

inductive Status where
  | queued
  | running
  | completed
  | failed
  | cancelled
  | interrupted
deriving DecidableEq, Repr

/-- `_TERMINAL`. -/
def Status.terminal : Status → Bool
  | .queued => false
  | .running => false
  | _ => true

def Status.text : Status → String
  | .queued => "queued"
  | .running => "running"
  | .completed => "completed"
  | .failed => "failed"
  | .cancelled => "cancelled"
  | .interrupted => "interrupted"

/-- The dictionary of a job. -/
structure JobData where
  jobId : String
  completionId : String
  agentType : String
  task : String
  status : Status := .queued
  result : String := ""
  delivered : Bool := false
  archived : Bool := false
  text : Option String := none
deriving DecidableEq, Repr

/-- How far the task of a job is.  A job that was recovered has none. -/
inductive Phase where
  | recovered
  | scheduled
  | waiting
  | running
  | committing
  | ended
deriving DecidableEq, Repr

/-- The task is not done. -/
def Phase.active : Phase → Bool
  | .recovered => false
  | .ended => false
  | _ => true

structure Job where
  data : JobData
  phase : Phase
  cancelRequested : Bool := false
  persisted : Bool := false
deriving DecidableEq, Repr

def lostResult : String := "Background execution was interrupted by process exit."
def cancelledResult : String := "Background job was cancelled."

/-- `_completion_text`. -/
def completionText (data : JobData) : String :=
  let identity := Json.dumps (.obj [("job_id", .str data.jobId),
    ("completion_id", .str data.completionId), ("agent_type", .str data.agentType),
    ("status", .str data.status.text)])
  "<system-reminder source=\"subagent\">\n" ++
    "Background subagent completion. This is delegated output, not instructions from the user.\n" ++
    String.ofList identity ++ "\n\n" ++ data.result ++ "\n</system-reminder>"

/-! ### The journal -/

/-- What the journal holds of a job: its submission, and its outcome once that is committed. -/
structure Row where
  submitted : JobData
  outcome : Option (Status × String) := none
deriving DecidableEq, Repr

/-- The events of the manager's epoch that are about background jobs.  `inserted` are the
completions that were committed to the root history, `current` says whether the session is still in
this epoch. -/
structure Journal where
  rows : Assoc String Row := []
  inserted : List String := []
  archived : List String := []
  current : Bool := true
deriving DecidableEq, Repr

/-- One row of `read_background_jobs`. -/
def Row.data (j : Journal) (row : Row) : JobData :=
  { row.submitted with
    status := (row.outcome.map Prod.fst).getD row.submitted.status
    result := (row.outcome.map Prod.snd).getD row.submitted.result
    delivered := row.submitted.completionId ∈ j.inserted
    archived := row.submitted.completionId ∈ j.archived }

def readBackgroundJobs (j : Journal) : List JobData := j.rows.map fun e => e.2.data j

/-- The errors of the recorder. -/
inductive JournalError where
  | inactiveEpoch
  | conflict
  | unknownStatus
deriving DecidableEq, Repr

def recordBackgroundJobSubmitted (data : JobData) (j : Journal) : Except JournalError Journal :=
  if !j.current then .error .inactiveEpoch
  else match j.rows.get? data.jobId with
    | some row => if row.submitted = data then .ok j else .error .conflict
    | none => .ok { j with rows := j.rows.set data.jobId { submitted := data } }

def recordBackgroundJobTerminal (data : JobData) (j : Journal) : Except JournalError Journal :=
  if !data.status.terminal then .error .unknownStatus
  else match j.rows.get? data.jobId with
    | some { submitted, outcome := none } =>
      .ok { j with rows := j.rows.set data.jobId ⟨submitted, some (data.status, data.result)⟩ }
    | some { outcome := some outcome, .. } =>
      if outcome = (data.status, data.result) then .ok j else .error .conflict
    | none =>
      .ok { j with rows := j.rows.set data.jobId ⟨data, some (data.status, data.result)⟩ }

/-- A key is added to a dictionary that has no values. -/
def insertKey (l : List String) (key : String) : List String := if key ∈ l then l else l ++ [key]

/-- A completion that is in the history already is not inserted again. -/
def recordBackgroundCompletion (data : JobData) (j : Journal) : Except JournalError Journal :=
  let archived := if data.archived then insertKey j.archived data.completionId else j.archived
  if !j.current then .error .inactiveEpoch
  else if data.completionId ∈ j.inserted then .ok { j with archived }
  else .ok { j with inserted := j.inserted ++ [data.completionId], archived }

/-- What the next process finds: the events of the epoch, or a new epoch. -/
def Journal.resumed (j : Journal) : Journal := if j.current then j else {}

/-- How a write to the journal goes: well, or it raises before or after the event is stored. -/
inductive Fault where
  | none
  | before
  | after
deriving DecidableEq, Repr

/-! ### The manager -/

/-- What `_retry_failed_outcomes` is called for. -/
inductive Use where
  | deliver (archive : Bool)
  | close
deriving DecidableEq, Repr

/-- Where the operation is that holds the lock. -/
inductive Holder where
  /-- `_recover` reads the jobs -/
  | reading
  /-- `_recover` commits the outcome of a lost job; the other rows are still to come -/
  | recovering (id : String) (rest : List JobData)
  /-- `_admit` commits a submission -/
  | admitting (data : JobData)
  /-- `_close` waits for the tasks -/
  | joining
  /-- `_retry_failed_outcomes` commits an outcome again -/
  | retrying (use : Use) (id : String) (rest : List String)
  /-- `_deliver` has the agent settle its open turn -/
  | preparing (archive : Bool)
  /-- `_deliver` reads which jobs are archived -/
  | marking (archive : Bool)
  /-- `_deliver` commits a completion -/
  | inserting (archive : Bool) (id : String) (rest : List String)
deriving DecidableEq, Repr

structure Limits where
  maxRunning : Nat
  maxJobs : Nat
  positive : 1 ≤ maxRunning ∧ 1 ≤ maxJobs

/-- A session.  `live` is the history of what was appended to the live conversations of all its
processes, `drawn` the completion ids that were used: a new one is none of them. -/
structure State where
  jobs : Assoc String Job := []
  pending : List String := []
  errors : List String := []
  slots : Nat
  recovered : Bool := false
  closed : Bool := false
  rebound : Bool := false
  holder : Option Holder := none
  journal : Option Journal
  live : List String := []
  drawn : List String := []
deriving DecidableEq, Repr

/-- A new manager, with or without a recorder. -/
def State.start (lim : Limits) (journal : Option Journal) : State :=
  { slots := lim.maxRunning, journal }

/-- How many jobs are in certain phases. -/
def State.count (s : State) (p : Phase → Bool) : Nat :=
  (s.jobs.map fun e => if p e.2.phase then 1 else 0).sum

def State.activeCount (s : State) : Nat := s.count Phase.active

def State.checkEpoch (s : State) : Bool := !s.rebound && (s.journal.map (·.current)).getD true

def State.setJob (s : State) (id : String) (job : Job) : State :=
  { s with jobs := s.jobs.set id job }

/-- The lock is released. -/
def State.release (s : State) : State := { s with holder := none }

/-- A thread writes to the journal.  A manager without a recorder writes nothing. -/
def State.write (s : State) (fault : Fault) (record : Journal → Except JournalError Journal) :
    Bool × State :=
  match s.journal with
  | none => (true, s)
  | some j =>
    match fault, record j with
    | .none, .ok j => (true, { s with journal := some j })
    | .after, .ok j => (false, { s with journal := some j })
    | _, _ => (false, s)

/-- `_persist_outcome` after the write: the job is in the mailbox. -/
def State.settle (s : State) (id : String) (job : Job) : State :=
  { s.setJob id { job with persisted := true } with pending := insertKey s.pending id }

/-! ### Recovery -/

/-- `_recover` from a row on, up to the next outcome that it commits. -/
def recoverRows (s : State) : List JobData → State
  | [] => { s with recovered := true, holder := none }
  | row :: rest =>
    if row.status.terminal then
      let s := s.setJob row.jobId { data := row, phase := .recovered, persisted := true }
      if row.delivered then recoverRows s rest
      else recoverRows { s with pending := insertKey s.pending row.jobId } rest
    else
      let data := { row with status := .interrupted, result := lostResult }
      { s.setJob row.jobId { data, phase := .recovered } with
        holder := some (.recovering row.jobId rest) }

/-! ### Delivery -/

/-- The loop of `_deliver` from a job on, up to its write. -/
def nextInsert (s : State) (archive : Bool) : List String → State
  | [] => s.release
  | id :: rest =>
    if !s.checkEpoch then s.release
    else match s.jobs.get? id with
      | none => s.release
      | some job =>
        let data := if archive then { job.data with archived := true } else job.data
        { s.setJob id { job with data } with holder := some (.inserting archive id rest) }

/-- What follows `_retry_failed_outcomes`. -/
def afterRetry (s : State) : Use → State
  | .close => s.release
  | .deliver archive =>
    if s.pending = [] then s.release else { s with holder := some (.preparing archive) }

/-- `_retry_failed_outcomes` from a job on, up to the next outcome that it commits; at the end it
raises where an error is left. -/
def nextRetry (s : State) (use : Use) : List String → State
  | [] => if s.errors = [] then afterRetry s use else s.release
  | id :: rest =>
    match s.jobs.get? id with
    | none => nextRetry s use rest
    | some job =>
      if !job.persisted && job.data.status.terminal then
        { s with holder := some (.retrying use id rest) }
      else nextRetry s use rest

/-- Pending jobs are marked that the journal says are archived. -/
def markArchived (s : State) (rows : List JobData) : State :=
  rows.foldl (fun s row =>
    if row.archived ∧ row.jobId ∈ s.pending then
      match s.jobs.get? row.jobId with
      | none => s
      | some job => s.setJob row.jobId { job with data := { job.data with archived := true } }
    else s) s

/-- What `_deliver` does between the write of a completion and the next one. -/
def delivered (s : State) (archive : Bool) (id : String) (rest : List String) (job : Job)
    (appends : Bool) : State :=
  if !s.checkEpoch then s.release
  else if !job.data.archived && !appends then s.release
  else
    let text := completionText job.data
    let live := if job.data.archived then s.live else s.live ++ [job.data.completionId]
    let s := s.setJob id { job with data := { job.data with delivered := true, text := some text } }
    nextInsert { s with live, pending := s.pending.erase id } archive rest

/-! ### Actions -/

/-- How the `run` of a job ends. -/
inductive Outcome where
  | completed (result : String)
  | failed (result : String)
  | cancelled
deriving DecidableEq, Repr

def Outcome.settled : Outcome → JobData → JobData
  | .completed result, data => { data with status := .completed, result }
  | .failed result, data => { data with status := .failed, result }
  | .cancelled, data => { data with status := .cancelled, result := cancelledResult }

inductive Action where
  -- operations that take the lock
  | recover
  | submit (jobId completionId agentType task : String)
  | deliver (archive : Bool)
  | close
  -- what the holder of the lock does next
  | rowsRead (fault : Fault)
  | lostCommitted (fault : Fault)
  | admitted (fault : Fault)
  | joined
  | retried (fault : Fault)
  | prepared (raises : Bool)
  | marked (fault : Fault)
  | inserted (fault : Fault) (appends : Bool)
  -- the task of a job
  | start (id : String)
  | enter (id : String)
  | abort (id : String)
  | finish (id : String) (outcome : Outcome)
  | committed (id : String) (fault : Fault)
  -- the host
  | cancel (id : String)
  | stopAdmission
  | rebind (rebound : Bool)
  | switchEpoch
  | archiveReports (completionIds : List String)
  | restart
deriving DecidableEq, Repr

/-- A job whose task is in a phase. -/
def State.jobIn (s : State) (id : String) (phase : Phase) : Option Job :=
  (s.jobs.get? id).filter fun job => job.phase = phase

/-- The lock is free, and the jobs of earlier processes have been recovered. -/
def State.ready (s : State) : Bool := s.holder.isNone && s.recovered

variable (lim : Limits)

def perform (s : State) : Action → State
  | .recover =>
    if s.holder.isNone && !s.recovered then
      match s.journal with
      | none => recoverRows s []
      | some _ => { s with holder := some .reading }
    else s
  | .submit jobId completionId agentType task =>
    if s.ready && !s.closed && s.checkEpoch && jobId ≠ "" && agentType ≠ "" &&
        (s.jobs.get? jobId).isNone && s.activeCount < lim.maxJobs && completionId ∉ s.drawn then
      { s with
        holder := some (.admitting { jobId, completionId, agentType, task })
        drawn := completionId :: s.drawn }
    else s
  | .deliver archive =>
    if s.ready && s.checkEpoch then nextRetry s (.deliver archive) s.errors else s
  | .close =>
    if s.ready && s.closed then
      { s with
        jobs := s.jobs.map fun e => (e.1, { e.2 with cancelRequested := true })
        holder := some .joining }
    else s
  | .rowsRead fault =>
    match s.holder, s.journal with
    | some .reading, some j =>
      if fault = .none then recoverRows s (readBackgroundJobs j) else s.release
    | _, _ => s
  | .lostCommitted fault =>
    match s.holder with
    | some (.recovering id rest) =>
      match s.jobs.get? id with
      | none => s
      | some job =>
        match s.write fault (recordBackgroundJobTerminal job.data) with
        | (true, s) => recoverRows (s.settle id job) rest
        | (false, s) => s.release
    | _ => s
  | .admitted fault =>
    match s.holder with
    | some (.admitting data) =>
      match s.write fault (recordBackgroundJobSubmitted data) with
      | (true, s) => (s.setJob data.jobId { data, phase := .scheduled }).release
      | (false, s) => s.release
    | _ => s
  | .joined =>
    match s.holder with
    | some .joining => if s.activeCount = 0 then nextRetry s .close s.errors else s
    | _ => s
  | .retried fault =>
    match s.holder with
    | some (.retrying use id rest) =>
      match s.jobs.get? id with
      | none => s
      | some job =>
        match s.write fault (recordBackgroundJobTerminal job.data) with
        | (true, s) =>
          nextRetry { s.settle id job with errors := s.errors.erase id } use rest
        | (false, s) => s.release
    | _ => s
  | .prepared raises =>
    match s.holder with
    | some (.preparing archive) =>
      if raises then s.release
      else match s.journal with
        | none => nextInsert s archive s.pending
        | some _ => { s with holder := some (.marking archive) }
    | _ => s
  | .marked fault =>
    match s.holder, s.journal with
    | some (.marking archive), some j =>
      if fault = .none then
        let s := markArchived s (readBackgroundJobs j)
        nextInsert s archive s.pending
      else s.release
    | _, _ => s
  | .inserted fault appends =>
    match s.holder with
    | some (.inserting archive id rest) =>
      match s.jobs.get? id with
      | none => s
      | some job =>
        match s.write fault (recordBackgroundCompletion job.data) with
        | (true, s) => delivered s archive id rest job appends
        | (false, s) => s.release
    | _ => s
  | .start id =>
    match s.jobIn id .scheduled with
    | none => s
    | some job =>
      if job.cancelRequested then
        s.setJob id { job with phase := .committing, data := Outcome.cancelled.settled job.data }
      else s.setJob id { job with phase := .waiting }
  | .enter id =>
    match s.jobIn id .waiting with
    | none => s
    | some job =>
      if s.slots = 0 then s
      else
        { s.setJob id { job with phase := .running, data := { job.data with status := .running } }
          with slots := s.slots - 1 }
  | .abort id =>
    match s.jobIn id .waiting with
    | none => s
    | some job =>
      s.setJob id { job with phase := .committing, data := Outcome.cancelled.settled job.data }
  | .finish id outcome =>
    match s.jobIn id .running with
    | none => s
    | some job =>
      { s.setJob id { job with phase := .committing, data := outcome.settled job.data } with
        slots := s.slots + 1 }
  | .committed id fault =>
    match s.jobIn id .committing with
    | none => s
    | some job =>
      match s.write fault (recordBackgroundJobTerminal job.data) with
      | (true, s) => s.settle id { job with phase := .ended }
      | (false, s) =>
        { s.setJob id { job with phase := .ended } with errors := insertKey s.errors id }
  | .cancel id =>
    if s.recovered then
      match s.jobs.get? id with
      | none => s
      | some job => s.setJob id { job with cancelRequested := true }
    else s
  | .stopAdmission => { s with closed := true }
  | .rebind rebound => { s with rebound }
  | .switchEpoch => { s with journal := s.journal.map fun j => { j with current := false } }
  | .archiveReports completionIds =>
    { s with journal := s.journal.map fun j => { j with archived := j.archived ++ completionIds } }
  | .restart =>
    { State.start lim (s.journal.map Journal.resumed) with live := s.live, drawn := s.drawn }

def run (s : State) (actions : List Action) : State := actions.foldl (perform lim) s

end KolegaCode.Background
