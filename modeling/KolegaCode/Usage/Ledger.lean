import KolegaCode.Lib.Assoc
import KolegaCode.Lib.Except
import KolegaCode.Session.Event
import KolegaCode.Usage.Observation

/-!
# Usage — the ledger

`UsageLedger`: one record for each request to a model, opened by `begin` and settled by a response,
a failure or an abandonment, whichever comes first.  Observations of what the request used may come
before and after.  An observer hears of the begin, of the settlement, and of later observations.

The ledger never raises: what goes wrong inside an operation is logged and the operation ends where
it is.
-/

namespace KolegaCode.Usage

open List
open Json (Dict get?)

/-- `LlmCallOrigin`. -/
structure LlmCallOrigin where
  kind : String
  agentName : Option String := none
  agentId : Option String := none
  parentToolCallId : Option String := none
  depth : Option Int := none
  helper : Option String := none
  deriving DecidableEq, Repr

/-- `_RequestState`. -/
inductive RequestState
  | «open»
  | responded
  | failed
  | abandoned
  deriving DecidableEq, Repr

/-- `_RequestRecord`. -/
structure RequestRecord where
  provider : String
  model : Option String
  origin : Option LlmCallOrigin := none
  state : RequestState := .open
  usage : Option NormalizedUsage := none
  error : Option String := none
  promptId : Option String := none
  revision : Nat := 0
  observation : Option UsageObservation := none
  cost : Dict := []
  pricingContext : Dict := []
  pinnedPricing : Dict := []
  startedAt : String := ""

/-- `SettledRequest`: a record as it is handed to the observer. -/
structure SettledRequest extends RequestRecord where
  requestId : String
  runId : String

/-- The final message of a response, as far as the ledger reads and stamps it. -/
structure FinalMessage where
  usageObservation : Option UsageObservation := none
  usageMetadata : Option Dict := none

/-- What the observer is called with. -/
inductive Notification
  | onBegin (request : SettledRequest)
  | onResponse (settled : SettledRequest) (message : Option FinalMessage)
  | onFailure (settled : SettledRequest)
  | onObservation (request : SettledRequest)

/-- The code around the ledger: the pricing resolver, which may raise, the observer, which may
raise too, and Python's `==` on dictionaries. -/
structure Host where
  pin : String → Option String → Dict → Option Dict
  calculate : Dict → Option NormalizedUsage → Option UsageObservation → Option Dict
  raises : Notification → Bool
  sameDict : Dict → Dict → Bool

/-- `UsageLedger`, with the notifications so far. -/
structure UsageLedger where
  runId : String
  records : Assoc String RequestRecord := []
  persistFailures : Nat := 0
  revision : Nat := 0
  notified : List Notification := []

section

variable (h : Host)

/-! ### Parts of the operations -/

/-- `merged == previous`. -/
def sameObservation (a b : UsageObservation) : Bool :=
  a.provider = b.provider && a.model = b.model &&
    (tokenFields.all fun n => a.tokens n = b.tokens n) && a.complete = b.complete &&
    (match a.cost, b.cost with
      | some c, some d => h.sameDict c d
      | none, none => true
      | _, _ => false) &&
    h.sameDict a.pricingQuantities b.pricingQuantities &&
    a.unavailableReason = b.unavailableReason

/-- The usage a complete observation stands for. -/
def observedUsage (o : UsageObservation) : NormalizedUsage where
  provider := o.provider
  model := o.model
  reported := true
  tokens := o.tokens
  unavailableReason := none

/-- `_merge_observation`: the record with the merged observation, or `none` when it adds nothing. -/
def mergeObservation (r : RequestRecord) (o : UsageObservation) :
    Except String (Option RequestRecord) :=
  let take (merged : UsageObservation) : RequestRecord :=
    { r with
      observation := some merged
      usage := if merged.complete then some (observedUsage merged) else r.usage }
  match r.observation with
  | none => .ok (some (take o))
  | some previous =>
    match previous.refinedBy o with
    | .error e => .error e
    | .ok merged => .ok (if sameObservation h merged previous then none else some (take merged))

/-- `[*value]`, where the value can be iterated over. -/
def iterate? : Json → Option (List Json)
  | .arr xs => some xs
  | .str s => some (s.toList.map fun c => .str c.toString)
  | .obj fs => some (fs.map fun p => .str p.1)
  | _ => none

/-- The cost of an unpriced request. -/
def unavailableCost : Dict :=
  [("source", .str "unavailable"), ("amount", .null), ("currency", .null), ("denomination", .null),
    ("complete", .bool false), ("missing_components", .arr [.str "pricing_calculation_failed"]),
    ("provenance", .obj [])]

/-- The price of the record, where nothing raises. -/
def calculated (r : RequestRecord) : Option Dict := do
  let cost ← h.calculate r.pinnedPricing r.usage r.observation
  if get? cost "source" = some (.str "estimated") ∧ r.observation.any fun o => !o.complete then
    let missing ← iterate? ((get? cost "missing_components").getD (.arr []))
    pure (Json.set (Json.set cost "complete" (.bool false)) "missing_components"
      (.arr (missing ++ [.str "token_usage_incomplete"])))
  else pure cost

/-- `_price`. -/
def price (r : RequestRecord) : RequestRecord :=
  { r with
    cost :=
      match calculated h r with
      | some cost => cost
      | none => (r.observation.bind (·.cost)).getD unavailableCost }

/-- The record, priced and in its next revision. -/
def repriced (r : RequestRecord) : RequestRecord :=
  { price h r with revision := r.revision + 1 }

variable (r : RequestRecord)

@[simp] theorem repriced_usage : (repriced h r).usage = r.usage := rfl

/-- `describe_error` and `record_failure` keep so many characters. -/
def errorTruncation : Nat := 500

def abandonedError : String := "stream abandoned before completion"

namespace UsageLedger

/-- The record of the request is replaced. -/
def put (s : UsageLedger) (id : String) (r : RequestRecord) : UsageLedger :=
  { s with records := s.records.set id r }

/-- `_settled`. -/
def settled (s : UsageLedger) (id : String) (r : RequestRecord) : SettledRequest :=
  { r with requestId := id, runId := s.runId }

/-- `_notify`. -/
def notify (s : UsageLedger) (n : Notification) : UsageLedger :=
  let s := { s with notified := s.notified ++ [n] }
  if h.raises n then
    { s with persistFailures := s.persistFailures + 1, revision := s.revision + 1 }
  else s

/-- `_price` and `_changed` on a record. -/
def change (s : UsageLedger) (id : String) (r : RequestRecord) : UsageLedger :=
  { s.put id (repriced h r) with revision := s.revision + 1 }

/-- `_price`, `_changed` and `_notify` on a record. -/
def publish (s : UsageLedger) (id : String) (r : RequestRecord)
    (notification : SettledRequest → Notification) : UsageLedger :=
  (s.change h id r).notify h (notification (s.settled id (repriced h r)))

/-! ### The operations -/

/-- `begin`; `uuid4` has made the identifier. -/
def begin (s : UsageLedger) (id startedAt provider : String) (model : Option String)
    (origin : Option LlmCallOrigin) (promptId : Option String) (context : Dict) : UsageLedger :=
  let pricingContext := Json.set context "requested_at" (.str startedAt)
  let r : RequestRecord :=
    { provider, model, origin, promptId, pricingContext, startedAt
      pinnedPricing := (h.pin provider model pricingContext).getD [] }
  s.publish h id r .onBegin

/-- `_stamp_message`. -/
def stampMessage (s : UsageLedger) (id : String) (r : RequestRecord) (message : FinalMessage) :
    FinalMessage :=
  { message with
    usageMetadata := some (Json.set (message.usageMetadata.getD []) "llm_call"
      (.obj [("llm_call_id", .str id), ("run_id", .str s.runId), ("provider", .str r.provider),
        ("model", Session.optStr r.model)])) }

/-- The record once the response has settled it, before what it used is merged. -/
def responded (r : RequestRecord) (usage : Option NormalizedUsage) : RequestRecord :=
  { r with
    state := .responded
    usage :=
      if r.observation.all (!·.complete) || usage.any (·.reported) then usage else r.usage }

/-- What a response merges: the observation of its message, or else the usage. -/
def mergeResponse (r : RequestRecord) (message : Option FinalMessage) :
    Except String RequestRecord :=
  match message.bind (·.usageObservation), r.usage with
  | some o, _ => do
    let merged ← mergeObservation h r o
    pure (merged.getD r)
  | none, some u => do
    let o ← UsageObservation.fromUsage u
    let merged ← mergeObservation h r o
    pure (merged.getD r)
  | none, none => pure r

/-- `record_response`. -/
def recordResponse (s : UsageLedger) (id : String) (usage : Option NormalizedUsage)
    (message : Option FinalMessage) : UsageLedger :=
  match s.records.get? id with
  | none => s
  | some r =>
    let message := message.map (s.stampMessage id r)
    if r.state ≠ .open then s
    else
      let r := responded r usage
      match mergeResponse h r message with
      -- logged, with the record as it is by then
      | .error _ => s.put id r
      | .ok r => s.publish h id r (.onResponse · message)

/-- `record_failure`. -/
def recordFailure (s : UsageLedger) (id error : String) : UsageLedger :=
  match s.records.get? id with
  | none => s
  | some r =>
    if r.state ≠ .open then s
    else
      let error := String.ofList (error.toList.take errorTruncation)
      s.publish h id { r with state := .failed, error := some error } .onFailure

/-- `record_abandonment`. -/
def recordAbandonment (s : UsageLedger) (id : String) : UsageLedger :=
  match s.records.get? id with
  | none => s
  | some r =>
    if r.state ≠ .open then s
    else s.publish h id { r with state := .abandoned, error := some abandonedError } .onFailure

/-- `record_observation`; an open request changes without a notification. -/
def recordObservation (s : UsageLedger) (id : String) (o : UsageObservation) : UsageLedger :=
  match s.records.get? id with
  | none => s
  | some r =>
    match mergeObservation h r o with
    | .error _ | .ok none => s
    | .ok (some r) =>
      if r.state = .open then s.change h id r else s.publish h id r .onObservation

/-- `note_persist_failure`. -/
def notePersistFailure (s : UsageLedger) : UsageLedger :=
  { s with persistFailures := s.persistFailures + 1, revision := s.revision + 1 }

/-! ### What the parts keep -/

variable {h}

variable (s : UsageLedger)

@[simp] theorem notify_records (n : Notification) : (s.notify h n).records = s.records := by
  unfold notify
  split <;> rfl

@[simp] theorem notify_notified (n : Notification) :
    (s.notify h n).notified = s.notified ++ [n] := by
  unfold notify
  split <;> rfl

@[simp] theorem change_records (id : String) (r : RequestRecord) :
    (s.change h id r).records = s.records.set id (repriced h r) := rfl

@[simp] theorem change_notified (id : String) (r : RequestRecord) :
    (s.change h id r).notified = s.notified := rfl

@[simp] theorem publish_records (id : String) (r : RequestRecord)
    (notification : SettledRequest → Notification) :
    (s.publish h id r notification).records = s.records.set id (repriced h r) := by
  simp [publish]

@[simp] theorem publish_notified (id : String) (r : RequestRecord)
    (notification : SettledRequest → Notification) :
    (s.publish h id r notification).notified =
      s.notified ++ [notification (s.settled id (repriced h r))] := by
  simp [publish]

variable (h)

end UsageLedger

/-! ### Runs -/

inductive Op
  | begin (id startedAt provider : String) (model : Option String) (origin : Option LlmCallOrigin)
      (promptId : Option String) (context : Dict)
  | recordResponse (id : String) (usage : Option NormalizedUsage) (message : Option FinalMessage)
  | recordFailure (id error : String)
  | recordAbandonment (id : String)
  | recordObservation (id : String) (o : UsageObservation)
  | notePersistFailure

/-- The identifier the operation makes. -/
def Op.minted : Op → Option String
  | .begin id .. => some id
  | _ => none

def step (s : UsageLedger) : Op → UsageLedger
  | .begin id startedAt provider model origin promptId context =>
    s.begin h id startedAt provider model origin promptId context
  | .recordResponse id usage message => s.recordResponse h id usage message
  | .recordFailure id error => s.recordFailure h id error
  | .recordAbandonment id => s.recordAbandonment h id
  | .recordObservation id o => s.recordObservation h id o
  | .notePersistFailure => s.notePersistFailure

def run (s : UsageLedger) (ops : List Op) : UsageLedger := ops.foldl (step h) s

/-- A ledger as it is made. -/
def UsageLedger.new (runId : String) : UsageLedger := { runId }

/-! ### What merging keeps -/

variable {r r' : RequestRecord} {o : UsageObservation} {P : RequestRecord → Prop}
  {message : Option FinalMessage} {s : UsageLedger} {op : Op} {ops : List Op}

section

variable {h}

/-- The record with the merged observation, whichever way it was merged. -/
theorem mergeObservation_eq_some (hm : mergeObservation h r o = .ok (some r')) :
    ∃ merged : UsageObservation,
      r' = { r with
        observation := some merged
        usage := if merged.complete then some (observedUsage merged) else r.usage } ∧
      (r.observation = none ∧ merged = o ∨
        ∃ previous, r.observation = some previous ∧ previous.refinedBy o = .ok merged) := by
  unfold mergeObservation at hm
  split at hm
  · next hr =>
    cases hm
    exact ⟨o, rfl, .inl ⟨hr, rfl⟩⟩
  · next previous hr =>
    split at hm
    · cases hm
    · next merged hmerged =>
      simp only [Except.ok.injEq] at hm
      split at hm
      · cases hm
      · cases hm
        exact ⟨merged, rfl, .inr ⟨previous, hr, hmerged⟩⟩

theorem mergeObservation_state (hm : mergeObservation h r o = .ok (some r')) :
    r'.state = r.state := by
  obtain ⟨merged, rfl, -⟩ := mergeObservation_eq_some hm
  rfl

theorem merged_keeps (hr : P r) (hm : ∀ r', P r → mergeObservation h r o = .ok (some r') → P r')
    (hok : (do
      let merged ← mergeObservation h r o
      pure (merged.getD r) : Except String RequestRecord) = .ok r') : P r' := by
  obtain ⟨merged, hmerged, hr'⟩ := bind_eq_ok.mp hok
  cases merged with
  | none =>
    cases hr'
    exact hr
  | some m =>
    cases hr'
    exact hm m hr hmerged

theorem mergeResponse_keeps (hr : P r)
    (hm : ∀ o r', P r → mergeObservation h r o = .ok (some r') → P r')
    (hok : UsageLedger.mergeResponse h r message = .ok r') : P r' := by
  unfold UsageLedger.mergeResponse at hok
  split at hok
  · exact merged_keeps hr (hm _) hok
  · obtain ⟨o, -, hok⟩ := bind_eq_ok.mp hok
    exact merged_keeps hr (hm o) hok
  · cases hok
    exact hr

theorem mergeResponse_state {usage : Option NormalizedUsage}
    (hm : UsageLedger.mergeResponse h (UsageLedger.responded r usage) message = .ok r') :
    r'.state = .responded :=
  mergeResponse_keeps (P := fun r => r.state = .responded) rfl
    (fun _ _ hr hm => (mergeObservation_state hm).trans hr) hm

end

/-! ### What an operation does -/

/-- The ways a record changes, with the notification that goes with each. -/
inductive Moves (r r' : RequestRecord) : List (SettledRequest → Notification) → Prop
  | observed (o : UsageObservation) (m : RequestRecord) (hm : mergeObservation h r o = .ok (some m))
      (he : r' = repriced h m) : Moves r r' (if m.state = .open then [] else [.onObservation])
  | responded (usage : Option NormalizedUsage) (message : Option FinalMessage) (m : RequestRecord)
      (ho : r.state = .open)
      (hm : UsageLedger.mergeResponse h (UsageLedger.responded r usage) message = .ok m)
      (he : r' = repriced h m) : Moves r r' [(.onResponse · message)]
  | closed (t : RequestState) (error : String) (ho : r.state = .open)
      (ht : t = .failed ∨ t = .abandoned)
      (he : r' = repriced h { r with state := t, error := some error }) : Moves r r' [.onFailure]

/-- What an operation does to the records, and what the observer hears. -/
inductive StepRecords (s s' : UsageLedger) (op : Op) : Prop
  | same (he : s'.records = s.records) (ht : s'.notified = s.notified)
  | begun (id : String) (r : RequestRecord) (hop : op.minted = some id) (ho : r.state = .open)
      (hu : r.usage = none) (hn : r.observation = none)
      (he : s'.records = s.records.set id (repriced h r))
      (ht : s'.notified = s.notified ++ [.onBegin (s.settled id (repriced h r))])
  | moved (id : String) (r r' : RequestRecord) (told : List (SettledRequest → Notification))
      (hr : s.records.get? id = some r) (hm : Moves h r r' told)
      (he : s'.records = s.records.set id r')
      (ht : s'.notified = s.notified ++ told.map fun n => n (s.settled id r'))
  | lost (id : String) (r : RequestRecord) (usage : Option NormalizedUsage)
      (message : Option FinalMessage) (e : String) (hop : op = .recordResponse id usage message)
      (hr : s.records.get? id = some r) (ho : r.state = .open)
      (hm : UsageLedger.mergeResponse h (UsageLedger.responded r usage)
        (message.map (s.stampMessage id r)) = .error e)
      (he : s'.records = s.records.set id (UsageLedger.responded r usage))
      (ht : s'.notified = s.notified)

theorem publish_moved {id : String} {m : RequestRecord}
    {notification : SettledRequest → Notification} (hr : s.records.get? id = some r)
    (hm : Moves h r (repriced h m) [notification]) :
    StepRecords h s (s.publish h id m notification) op :=
  .moved id r _ _ hr hm (UsageLedger.publish_records ..) (UsageLedger.publish_notified ..)

theorem step_records (s : UsageLedger) (op : Op) : StepRecords h s (step h s op) op := by
  cases op with
  | begin id startedAt provider model origin promptId context =>
    refine .begun id _ rfl ?_ ?_ ?_ (UsageLedger.publish_records s id _ .onBegin)
      (UsageLedger.publish_notified s id _ .onBegin) <;> rfl
  | recordResponse id usage message =>
    simp only [step, UsageLedger.recordResponse]
    cases hr : s.records.get? id with
    | none => exact .same rfl rfl
    | some r =>
      by_cases ho : r.state = .open
      · simp only [ho, ne_eq, not_true_eq_false, if_false]
        cases hm : UsageLedger.mergeResponse h (UsageLedger.responded r usage)
            (message.map (s.stampMessage id r)) with
        | error e => exact .lost id r usage message e rfl hr ho hm rfl rfl
        | ok m => exact publish_moved h hr (.responded usage _ m ho hm rfl)
      · simp only [ho, ne_eq, not_false_eq_true, if_true]
        exact .same rfl rfl
  | recordFailure id error =>
    simp only [step, UsageLedger.recordFailure]
    cases hr : s.records.get? id with
    | none => exact .same rfl rfl
    | some r =>
      by_cases ho : r.state = .open
      · simp only [ho, ne_eq, not_true_eq_false, if_false]
        exact publish_moved h hr (.closed .failed _ ho (.inl rfl) rfl)
      · simp only [ho, ne_eq, not_false_eq_true, if_true]
        exact .same rfl rfl
  | recordAbandonment id =>
    simp only [step, UsageLedger.recordAbandonment]
    cases hr : s.records.get? id with
    | none => exact .same rfl rfl
    | some r =>
      by_cases ho : r.state = .open
      · simp only [ho, ne_eq, not_true_eq_false, if_false]
        exact publish_moved h hr (.closed .abandoned _ ho (.inr rfl) rfl)
      · simp only [ho, ne_eq, not_false_eq_true, if_true]
        exact .same rfl rfl
  | recordObservation id o =>
    simp only [step, UsageLedger.recordObservation]
    cases hr : s.records.get? id with
    | none => exact .same rfl rfl
    | some r =>
      simp only
      cases hm : mergeObservation h r o with
      | error e => exact .same rfl rfl
      | ok m =>
        cases m with
        | none => exact .same rfl rfl
        | some m =>
          have hmoves := Moves.observed o m hm (rfl : repriced h m = repriced h m)
          simp only
          split
          · next ho =>
            rw [if_pos ho] at hmoves
            exact .moved id r _ [] hr hmoves (UsageLedger.change_records ..)
              (append_nil _).symm
          · next ho =>
            rw [if_neg ho] at hmoves
            exact publish_moved h hr hmoves
  | notePersistFailure => exact .same rfl rfl

/-! ### Fresh identifiers -/

/-- The identifiers the operations make are new, as `uuid4` makes them. -/
def Fresh (s : UsageLedger) (ops : List Op) : Prop :=
  (ops.filterMap Op.minted).Nodup ∧ ∀ id ∈ ops.filterMap Op.minted, s.records.get? id = none

variable {h}

theorem fresh_new {runId : String} (hops : (ops.filterMap Op.minted).Nodup) :
    Fresh (.new runId) ops := ⟨hops, fun _ _ => rfl⟩

theorem Fresh.head (hf : Fresh s (op :: ops)) :
    ∀ id, op.minted = some id → s.records.get? id = none := by
  intro id hid
  refine hf.2 id ?_
  rw [filterMap_cons_some hid]
  exact mem_cons_self

/-- A record is only added for a made identifier. -/
theorem step_get?_none {id : String} (hn : s.records.get? id = none) (hop : op.minted ≠ some id) :
    (step h s op).records.get? id = none := by
  cases step_records h s op with
  | same he => rw [he, hn]
  | begun id' r hop' _ _ _ he =>
    have hne : id ≠ id' := fun e => hop (e ▸ hop')
    rw [he, Assoc.get?_set_of_ne hne, hn]
  | moved id' r r' told hr _ he | lost id' r usage message e _ hr _ _ he =>
    have hne : id ≠ id' := by
      rintro rfl
      rw [hn] at hr
      cases hr
    rw [he, Assoc.get?_set_of_ne hne, hn]

theorem Fresh.tail (hf : Fresh s (op :: ops)) : Fresh (step h s op) ops := by
  cases hop : op.minted with
  | none =>
    rw [Fresh, filterMap_cons_none hop] at hf
    exact ⟨hf.1, fun id hid => step_get?_none (hf.2 id hid) (by simp [hop])⟩
  | some i =>
    rw [Fresh, filterMap_cons_some hop] at hf
    obtain ⟨hi, hnd⟩ := nodup_cons.mp hf.1
    refine ⟨hnd, fun id hid => step_get?_none (hf.2 id (mem_cons_of_mem _ hid)) ?_⟩
    rw [hop]
    rintro ⟨⟩
    exact hi hid

theorem Fresh.left {pre post : List Op} (hf : Fresh s (pre ++ post)) : Fresh s pre := by
  rw [Fresh, filterMap_append] at hf
  exact ⟨(nodup_append.mp hf.1).1, fun id hid => hf.2 id (mem_append_left _ hid)⟩

theorem Fresh.right {pre post : List Op} (hf : Fresh s (pre ++ post)) :
    Fresh (run h s pre) post := by
  induction pre generalizing s with
  | nil => exact hf
  | cons op pre ih => exact ih hf.tail

end

end KolegaCode.Usage
