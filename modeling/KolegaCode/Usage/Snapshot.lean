import Mathlib.Data.List.Sort
import KolegaCode.Usage.Ledger

/-!
# Usage — snapshots

`UsageLedger.snapshot` adds up the records twice: once for the totals and once for a row for each
provider and model.  Amounts of money are the sums over the rows where the amounts fit the 28 digits
of Python's decimal context; otherwise the totals and the rows are rounded at different sums
(`amounts_rounded_apart`).
-/

namespace KolegaCode.Usage

open List
open Json (Dict get?)

/-! ### Counters -/

/-- What a snapshot counts, for the totals and for each row. -/
inductive CountField
  | requests
  | responses
  | reported
  | unreported
  | failed
  | «open»
  | abandoned
  | missing
  | partials
  | tokens (n : TokenField)
  | knownRequests (n : TokenField)
  deriving DecidableEq, Repr

abbrev Counts := CountField → Int

/-- No count of the observation is known. -/
def unknown (o : Option UsageObservation) : Bool :=
  o.all fun o => tokenFields.all fun n => (o.tokens n).isNone

/-- What a record adds to each counter. -/
def contribution (r : RequestRecord) : Counts
  | .requests => 1
  | .failed => if r.state = .failed then 1 else 0
  | .abandoned => if r.state = .abandoned then 1 else 0
  | .open => if r.state = .open then 1 else 0
  | .responses => if r.state = .responded then 1 else 0
  | .reported => if r.state = .responded ∧ r.usage.any (·.reported) then 1 else 0
  | .unreported => if r.state = .responded ∧ ¬ r.usage.any (·.reported) then 1 else 0
  | .missing => if unknown r.observation then 1 else 0
  | .partials => if ¬ unknown r.observation ∧ r.observation.any (!·.complete) then 1 else 0
  | .tokens n => (r.observation.bind (·.tokens n)).getD 0
  | .knownRequests n => if (r.observation.bind (·.tokens n)).isSome then 1 else 0

/-! ### Costs -/

/-- Amounts of one currency or denomination. -/
structure CostBucket where
  reported : Decimal := .zero
  estimated : Decimal := .zero
  total : Decimal := .zero
  requests : Nat := 0
  reportedRequests : Nat := 0
  estimatedRequests : Nat := 0
  tokenCostSubtotal : Option Decimal := none
  deriving DecidableEq, Repr

/-- The two dictionaries of buckets. -/
inductive CostKind
  | currencies
  | nonMonetary
  deriving DecidableEq, Repr

structure CostAggregate where
  buckets : CostKind → Assoc String CostBucket := fun _ => []
  complete : Bool := true
  missingRequests : Nat := 0
  partialRequests : Nat := 0

/-- The amount that is summed, and whether it is the whole cost. -/
def costAmount (cost : Dict) : Option Decimal × Bool :=
  let amount := decimalAt cost "amount"
  let complete :=
    get? cost "complete" = some (.bool true) &&
      !Session.truthy ((get? cost "missing_components").getD .null)
  if amount = none ∧ get? cost "source" = some (.str "estimated") then
    (decimalAt cost "known_subtotal", false)
  else (amount, complete)

/-- The bucket the amount goes to. -/
def costKey (cost : Dict) : CostKind × String :=
  let denomination := (get? cost "denomination").getD .null
  let other := if Session.truthy denomination then Session.strOf denomination else "unknown"
  match get? cost "currency" with
  | some (.str currency) =>
    if currency ≠ "credits" ∧ denomination ≠ .str "credits" ∧
        denomination ≠ .str "provider_credits" then
      (.currencies, currency)
    else (.nonMonetary, other)
  | _ => (.nonMonetary, other)

/-- The amount is the provider's own. -/
def providerReported (cost : Dict) : Bool := get? cost "source" = some (.str "provider_reported")

/-- `Decimal(x) + amount`, where it goes there; `none` is a `decimal.Overflow`. -/
def addIf (goes : Bool) (x amount : Decimal) : Option Decimal :=
  if goes then Decimal.add .default x amount else some x

/-- A subtotal starts with the first cost that has one. -/
def addSubtotal (old : Option Decimal) : Option Decimal → Option (Option Decimal)
  | some subtotal => (Decimal.add .default (old.getD .zero) subtotal).map some
  | none => some old

/-- An amount is added to a bucket. -/
def CostBucket.add (b : CostBucket) (cost : Dict) (amount : Decimal) : Option CostBucket := do
  let reported ← addIf (providerReported cost) b.reported amount
  let estimated ← addIf (!providerReported cost) b.estimated amount
  let total ← Decimal.add .default b.total amount
  let tokenCostSubtotal ← addSubtotal b.tokenCostSubtotal (decimalAt cost "token_cost_subtotal")
  pure
    { reported, estimated, total, tokenCostSubtotal
      requests := b.requests + 1
      reportedRequests := b.reportedRequests + if providerReported cost then 1 else 0
      estimatedRequests := b.estimatedRequests + if providerReported cost then 0 else 1 }

/-- The bucket for a key, as it is created when the key is new. -/
def CostAggregate.bucket (c : CostAggregate) (kind : CostKind) (key : String) : CostBucket :=
  ((c.buckets kind).get? key).getD {}

/-- The requests whose cost is missing or not complete. -/
def CostAggregate.note (c : CostAggregate) (known complete : Bool) : CostAggregate :=
  { c with
    complete := c.complete && complete && known
    missingRequests := c.missingRequests + if !complete && !known then 1 else 0
    partialRequests := c.partialRequests + if !complete && known then 1 else 0 }

/-- `_sum_cost`. -/
def sumCost (c : CostAggregate) (cost : Dict) : Option CostAggregate :=
  let (amount, complete) := costAmount cost
  let c := c.note amount.isSome complete
  match amount with
  | none => some c
  | some amount => do
    let (kind, key) := costKey cost
    let bucket ← (c.bucket kind key).add cost amount
    pure { c with buckets := Function.update c.buckets kind ((c.buckets kind).set key bucket) }

/-! ### The snapshot -/

/-- What is added up, for the totals or for one row. -/
structure Tally where
  counts : Counts := fun _ => 0
  costs : CostAggregate := {}

/-- A record is added. -/
def Tally.record (t : Tally) (r : RequestRecord) : Option Tally := do
  let costs ← sumCost t.costs r.cost
  pure { counts := fun f => t.counts f + contribution r f, costs }

/-- The row of a record: the model that answered, where usage was reported, or else the requested
one. -/
def rowKey (r : RequestRecord) : String × String :=
  let requested := (r.provider, match r.model with
    | some model => if model = "" then "unknown" else model
    | none => "unknown")
  match r.usage with
  | some u =>
    match u.reported, u.model with
    | true, some model => (u.provider, model)
    | _, _ => requested
  | none => requested

abbrev Rows := Assoc (String × String) Tally

/-- A record is added to the totals and to its row. -/
def addRecord (s : Tally × Rows) (r : RequestRecord) : Option (Tally × Rows) := do
  let totals ← s.1.record r
  let row ← ((s.2.get? (rowKey r)).getD {}).record r
  pure (totals, s.2.set (rowKey r) row)

/-- `ProviderModelUsage`. -/
structure ProviderModelUsage where
  provider : String
  model : String
  counts : Counts := fun _ => 0
  costs : Option CostAggregate := none

/-- `UsageSnapshot`. -/
structure UsageSnapshot where
  runId : String
  counts : Counts := fun _ => 0
  persistFailures : Int := 0
  breakdown : List ProviderModelUsage := []
  revision : Nat := 0
  promptId : Option String := none
  costs : Option CostAggregate := none

/-- Keys are sorted as Python sorts pairs of strings. -/
def keyLe (a b : String × String) : Prop := a.1 < b.1 ∨ (a.1 = b.1 ∧ ¬ b.2 < a.2)

instance : DecidableRel keyLe := fun _ _ => inferInstanceAs (Decidable (_ ∨ _))

/-- A row as it is handed out. -/
def toRow (k : String × String) (t : Tally) : ProviderModelUsage where
  provider := k.1
  model := k.2
  counts := t.counts
  costs := some t.costs

/-- The rows, sorted by their keys. -/
def breakdownOf (rows : Rows) : List ProviderModelUsage :=
  (rows.insertionSort fun a b => keyLe a.1 b.1).map fun row => toRow row.1 row.2

namespace UsageLedger

/-- The records of a prompt, or all of them. -/
def selected (s : UsageLedger) (promptId : Option String) : List RequestRecord :=
  (s.records.map Prod.snd).filter fun r => promptId.all fun p => r.promptId = some p

/-- `UsageLedger.snapshot`; when adding up raises, the snapshot is empty. -/
def snapshot (s : UsageLedger) (promptId : Option String) : UsageSnapshot :=
  match (s.selected promptId).foldlM addRecord ({}, []) with
  | some (totals, rows) =>
    { runId := s.runId, counts := totals.counts, persistFailures := s.persistFailures
      breakdown := breakdownOf rows, revision := s.revision, promptId, costs := some totals.costs }
  | none => { runId := s.runId }

end UsageLedger

/-! ### Adding up -/

def ProviderModelUsage.tally (row : ProviderModelUsage) : Tally := ⟨row.counts, row.costs.getD {}⟩

def UsageSnapshot.tally (u : UsageSnapshot) : Tally := ⟨u.counts, u.costs.getD {}⟩

variable {s s' : Tally × Rows} {r : RequestRecord} {rs : List RequestRecord} {t t' : Tally}
  {c' : CostAggregate}

theorem addRecord_eq_some :
    addRecord s r = some s' ↔ ∃ totals row, s.1.record r = some totals ∧
      ((s.2.get? (rowKey r)).getD {}).record r = some row ∧
        s' = (totals, s.2.set (rowKey r) row) := by
  simp only [addRecord, Option.bind_eq_bind, Option.bind_eq_some_iff, Option.pure_def,
    Option.some.injEq]
  constructor
  · rintro ⟨totals, ht, row, hr, rfl⟩
    exact ⟨totals, row, ht, hr, rfl⟩
  · rintro ⟨totals, row, ht, hr, rfl⟩
    exact ⟨totals, ht, row, hr, rfl⟩

/-- A quantity of the totals and of the rows, kept by every record that is added. -/
theorem fold_keeps {P : Tally × Rows → Prop}
    (hstep : ∀ s r s', addRecord s r = some s' → P s → P s') :
    ∀ {s s'}, rs.foldlM addRecord s = some s' → P s → P s' := by
  induction rs with
  | nil =>
    intro s s' h hs
    cases h
    exact hs
  | cons r rs ih =>
    intro s s' h hs
    rw [foldlM_cons, Option.bind_eq_bind, Option.bind_eq_some_iff] at h
    obtain ⟨t, ht, h⟩ := h
    exact ih h (hstep s r t ht hs)

theorem sum_breakdownOf {M : Type} [AddCommMonoid M] (g : Tally → M) (rows : Rows) :
    ((breakdownOf rows).map fun row => g row.tally).sum = (rows.map fun p => g p.2).sum := by
  rw [breakdownOf, map_map]
  exact ((perm_insertionSort _ rows).map _).sum_eq

section

variable {M : Type} [AddCancelCommMonoid M] {g : Tally → M} {c : RequestRecord → M}

/-- **Adding up twice.**  A quantity every record adds to by itself is the sum over the rows. -/
theorem snapshot_sum (h0 : g {} = 0) (hadd : ∀ t r t', t.record r = some t' → g t' = g t + c r)
    (s : UsageLedger) (promptId : Option String) :
    g (s.snapshot promptId).tally =
      ((s.snapshot promptId).breakdown.map fun row => g row.tally).sum := by
  unfold UsageLedger.snapshot
  split
  · next totals rows hfold =>
    have hkept : g totals = (rows.map fun p => g p.2).sum := by
      refine fold_keeps (P := fun s => g s.1 = (s.2.map fun p => g p.2).sum) ?_ hfold ?_
      · intro s r s' hs' hs
        obtain ⟨totals, row, ht, hr, rfl⟩ := addRecord_eq_some.mp hs'
        have hset := Assoc.sum_set g s.2 (rowKey r) row
        rw [hadd _ _ _ hr] at hset
        have hold : ((s.2.get? (rowKey r)).map g).getD 0 = g ((s.2.get? (rowKey r)).getD {}) := by
          cases s.2.get? (rowKey r) with
          | none => exact h0.symm
          | some t => rfl
        rw [hold, ← add_assoc, add_right_comm] at hset
        rw [hadd _ _ _ ht, hs]
        exact (add_right_cancel hset).symm
      · exact h0
    exact hkept.trans (sum_breakdownOf g rows).symm
  · exact h0

/-- What every record leaves at zero is zero in a snapshot. -/
theorem snapshot_zero (h0 : g {} = 0) (hkeep : ∀ t r t', t.record r = some t' → g t' = g t)
    (s : UsageLedger) (promptId : Option String) : g (s.snapshot promptId).tally = 0 := by
  unfold UsageLedger.snapshot
  split
  · next totals rows hfold =>
    refine fold_keeps (P := fun s => g s.1 = 0) ?_ hfold h0
    intro s r s' hs' hs
    obtain ⟨totals, row, ht, -, rfl⟩ := addRecord_eq_some.mp hs'
    exact (hkeep _ _ _ ht).trans hs
  · exact h0

end

theorem record_eq_some :
    t.record r = some t' ↔ ∃ costs, sumCost t.costs r.cost = some costs ∧
      t' = ⟨fun f => t.counts f + contribution r f, costs⟩ := by
  simp only [Tally.record, Option.bind_eq_bind, Option.bind_eq_some_iff, Option.pure_def,
    Option.some.injEq]
  constructor
  · rintro ⟨costs, hc, rfl⟩
    exact ⟨costs, hc, rfl⟩
  · rintro ⟨costs, hc, rfl⟩
    exact ⟨costs, hc, rfl⟩

theorem record_counts (h : t.record r = some t') (f : CountField) :
    t'.counts f = t.counts f + contribution r f := by
  obtain ⟨costs, -, rfl⟩ := record_eq_some.mp h
  rfl

/-! ### The counts of a snapshot -/

/-- A count of a row; a row that is not there counts nothing. -/
def rowCount (rows : Rows) (k : String × String) (f : CountField) : Int :=
  ((rows.get? k).getD {}).counts f

/-- What adding up records has done to the totals and to each row. -/
structure Added (s s' : Tally × Rows) (rs : List RequestRecord) : Prop where
  totals : ∀ f, s'.1.counts f = s.1.counts f + (rs.map fun r => contribution r f).sum
  rows : ∀ k f, rowCount s'.2 k f =
    rowCount s.2 k f + ((rs.filter (rowKey · = k)).map fun r => contribution r f).sum
  keys : ∀ k, k ∈ Assoc.keys s'.2 ↔ k ∈ Assoc.keys s.2 ∨ ∃ r ∈ rs, rowKey r = k

theorem addRecord_added (h : addRecord s r = some s') : Added s s' [r] := by
  obtain ⟨totals, row, ht, hr, rfl⟩ := addRecord_eq_some.mp h
  refine ⟨fun f => ?_, fun k f => ?_, fun k => ?_⟩
  · simpa using record_counts ht f
  · simp only [rowCount, Assoc.get?_set]
    by_cases hk : k = rowKey r
    · subst hk
      simpa using record_counts hr f
    · have hk' : ¬ rowKey r = k := fun e => hk e.symm
      simp [hk, hk']
  · simp only [Assoc.keys_set, mem_singleton, exists_eq_left]
    split
    · next hm =>
      constructor
      · exact .inl
      · rintro (hk | rfl)
        · exact hk
        · exact hm
    · simp [eq_comm]

theorem foldlM_added :
    ∀ {s s' : Tally × Rows}, rs.foldlM addRecord s = some s' → Added s s' rs := by
  induction rs with
  | nil =>
    intro s s' h
    cases h
    exact ⟨fun f => by simp, fun k f => by simp, fun k => by simp⟩
  | cons r rs ih =>
    intro s s' h
    rw [foldlM_cons, Option.bind_eq_bind, Option.bind_eq_some_iff] at h
    obtain ⟨t, ht, h⟩ := h
    have hone := addRecord_added ht
    have hrest := ih h
    refine ⟨fun f => ?_, fun k f => ?_, fun k => ?_⟩
    · rw [hrest.totals, hone.totals]
      simp [add_assoc]
    · rw [hrest.rows, hone.rows, add_assoc]
      by_cases hk : rowKey r = k
      · simp [hk]
      · simp [hk]
    · rw [hrest.keys, hone.keys]
      simp [or_assoc]

/-- The snapshot is taken without a `decimal.Overflow`. -/
def UsageLedger.Summable (s : UsageLedger) (promptId : Option String) : Prop :=
  ((s.selected promptId).foldlM addRecord (({} : Tally), ([] : Rows))).isSome = true

/-- The rows a snapshot is made of. -/
theorem snapshot_of_summable {s : UsageLedger} {promptId : Option String}
    (h : s.Summable promptId) : ∃ totals rows,
      s.snapshot promptId =
        { runId := s.runId, counts := totals.counts, persistFailures := s.persistFailures
          breakdown := breakdownOf rows, revision := s.revision, promptId
          costs := some totals.costs } ∧
      Added ({}, []) (totals, rows) (s.selected promptId) ∧ (Assoc.keys rows).Nodup := by
  obtain ⟨⟨totals, rows⟩, hfold⟩ := Option.isSome_iff_exists.mp h
  refine ⟨totals, rows, ?_, foldlM_added hfold, ?_⟩
  · rw [UsageLedger.snapshot, hfold]
  · refine fold_keeps (P := fun s => (Assoc.keys s.2).Nodup) ?_ hfold nodup_nil
    intro s r s' hs' hs
    obtain ⟨totals, row, -, -, rfl⟩ := addRecord_eq_some.mp hs'
    exact Assoc.nodup_keys_set hs _ _

/-! ### Costs, one at a time -/

/-- The amounts of a bucket. -/
inductive AmountField
  | reported
  | estimated
  | total
  | tokenCostSubtotal
  deriving DecidableEq, Repr

/-- The counts of a bucket. -/
inductive BucketCount
  | requests
  | reportedRequests
  | estimatedRequests
  deriving DecidableEq, Repr

namespace CostBucket

/-- An amount of the bucket; a subtotal that is not there counts as nothing. -/
def amount (b : CostBucket) : AmountField → Decimal
  | .reported => b.reported
  | .estimated => b.estimated
  | .total => b.total
  | .tokenCostSubtotal => b.tokenCostSubtotal.getD .zero

def count (b : CostBucket) : BucketCount → Nat
  | .requests => b.requests
  | .reportedRequests => b.reportedRequests
  | .estimatedRequests => b.estimatedRequests

end CostBucket

/-- What a cost of this amount adds to each amount of its bucket. -/
def share (cost : Dict) (amount : Decimal) : AmountField → Option Decimal
  | .reported => if providerReported cost then some amount else none
  | .estimated => if providerReported cost then none else some amount
  | .total => some amount
  | .tokenCostSubtotal => decimalAt cost "token_cost_subtotal"

/-- What a cost of a known amount adds to each count of its bucket. -/
def countShare (cost : Dict) : BucketCount → Nat
  | .requests => 1
  | .reportedRequests => if providerReported cost then 1 else 0
  | .estimatedRequests => if providerReported cost then 0 else 1

/-- The bucket of a cost, where its amount is known. -/
def pricedKey (cost : Dict) : Option (CostKind × String) :=
  (costAmount cost).1.map fun _ => costKey cost

/-- What a cost adds to an amount of a bucket. -/
def amountTo (cost : Dict) (kind : CostKind) (key : String) (a : AmountField) : Option Decimal :=
  (costAmount cost).1.bind fun amount =>
    if costKey cost = (kind, key) then share cost amount a else none

namespace CostBucket

variable {b b' : CostBucket} {cost : Dict} {x : Decimal}

theorem add_eq_some (h : b.add cost x = some b') :
    (∀ n, b'.count n = b.count n + countShare cost n) ∧
      ∀ a, match share cost x a with
        | some d => Decimal.add .default (b.amount a) d = some (b'.amount a)
        | none => b'.amount a = b.amount a := by
  simp only [add, Option.bind_eq_bind, Option.bind_eq_some_iff, Option.pure_def,
    Option.some.injEq] at h
  obtain ⟨reported, hr, estimated, he, total, ht, subtotal, hs, rfl⟩ := h
  refine ⟨fun n => by cases n <;> rfl, fun a => ?_⟩
  have hif : ∀ {goes : Bool} {y z : Decimal}, addIf goes y x = some z →
      match (if goes then some x else none) with
      | some d => Decimal.add .default y d = some z
      | none => z = y := by
    intro goes y z hz
    cases goes with
    | true => exact hz
    | false => exact (Option.some.inj hz).symm
  cases a with
  | total => exact ht
  | reported => exact hif hr
  | estimated =>
    have hest := hif he
    cases hp : providerReported cost with
    | true | false =>
      rw [hp] at hest
      simpa [share, hp, amount] using hest
  | tokenCostSubtotal =>
    simp only [share, amount]
    cases hd : decimalAt cost "token_cost_subtotal" with
    | none =>
      rw [hd] at hs
      cases hs
      rfl
    | some d =>
      rw [hd] at hs
      obtain ⟨z, hz, rfl⟩ := Option.map_eq_some_iff.mp hs
      exact hz

end CostBucket

namespace CostAggregate

@[simp] theorem note_bucket (c : CostAggregate) (known complete : Bool) (kind : CostKind)
    (key : String) : (c.note known complete).bucket kind key = c.bucket kind key := rfl

/-- What a cost adds to the requests without a cost, and to those with part of it. -/
def missingShare (cost : Dict) : Nat :=
  if !(costAmount cost).2 && !(costAmount cost).1.isSome then 1 else 0

def partialShare (cost : Dict) : Nat :=
  if !(costAmount cost).2 && (costAmount cost).1.isSome then 1 else 0

end CostAggregate

open CostAggregate in
/-- **One cost.**  A bucket that is not the cost's own stays as it is. -/
theorem sumCost_eq_some {c : CostAggregate} {cost : Dict} (h : sumCost c cost = some c') :
    c'.missingRequests = c.missingRequests + missingShare cost ∧
      c'.partialRequests = c.partialRequests + partialShare cost ∧
        ∀ kind key,
          (pricedKey cost ≠ some (kind, key) ∧ c'.bucket kind key = c.bucket kind key) ∨
            ∃ x, (costAmount cost).1 = some x ∧ costKey cost = (kind, key) ∧
              (c.bucket kind key).add cost x = some (c'.bucket kind key) := by
  unfold sumCost at h
  cases hx : (costAmount cost).1 with
  | none =>
    have hc' : c.note false (costAmount cost).2 = c' := by
      simpa [hx] using h
    subst hc'
    refine ⟨by simp [note, missingShare, hx], by simp [note, partialShare, hx], ?_⟩
    intro kind key
    exact .inl ⟨by simp [pricedKey, hx], rfl⟩
  | some x =>
    simp only [hx, Option.isSome_some, Option.bind_eq_bind, Option.bind_eq_some_iff,
      Option.pure_def, Option.some.injEq] at h
    obtain ⟨b, hb, rfl⟩ := h
    refine ⟨by simp [note, missingShare, hx], by simp [note, partialShare, hx], ?_⟩
    intro kind key
    by_cases hkey : costKey cost = (kind, key)
    · refine .inr ⟨x, rfl, hkey, ?_⟩
      rw [hkey, note_bucket] at hb
      have hb' : ({ c.note true (costAmount cost).2 with
          buckets := Function.update (c.note true (costAmount cost).2).buckets (costKey cost).1
            (((c.note true (costAmount cost).2).buckets (costKey cost).1).set (costKey cost).2 b) }
          : CostAggregate).bucket kind key = b := by
        simp [bucket, hkey]
      rw [hb']
      exact hb
    · refine .inl ⟨by simp [pricedKey, hx, hkey], ?_⟩
      by_cases hkind : kind = (costKey cost).1
      · have hne : key ≠ (costKey cost).2 := fun e => hkey (by rw [hkind, e])
        subst hkind
        simp [bucket, note, Assoc.get?_set_of_ne hne]
      · simp [bucket, note, Function.update_of_ne hkind]

/-- What a cost adds to a count of a bucket. -/
def countTo (cost : Dict) (kind : CostKind) (key : String) (n : BucketCount) : Nat :=
  if pricedKey cost = some (kind, key) then countShare cost n else 0

theorem sumCost_count {c : CostAggregate} {cost : Dict} (h : sumCost c cost = some c')
    (kind : CostKind) (key : String) (n : BucketCount) :
    (c'.bucket kind key).count n = (c.bucket kind key).count n + countTo cost kind key n := by
  rcases (sumCost_eq_some h).2.2 kind key with ⟨hne, he⟩ | ⟨x, hx, hkey, hadd⟩
  · rw [he, countTo, if_neg hne, Nat.add_zero]
  · have hpriced : pricedKey cost = some (kind, key) := by simp [pricedKey, hx, hkey]
    rw [(CostBucket.add_eq_some hadd).1 n, countTo, if_pos hpriced]

theorem sumCost_amount {c : CostAggregate} {cost : Dict} (h : sumCost c cost = some c')
    (kind : CostKind) (key : String) (a : AmountField) :
    match amountTo cost kind key a with
    | some d =>
      Decimal.add .default ((c.bucket kind key).amount a) d = some ((c'.bucket kind key).amount a)
    | none => (c'.bucket kind key).amount a = (c.bucket kind key).amount a := by
  rcases (sumCost_eq_some h).2.2 kind key with ⟨hne, he⟩ | ⟨x, hx, hkey, hadd⟩
  · have hto : amountTo cost kind key a = none := by
      cases hx : (costAmount cost).1 with
      | none => simp [amountTo, hx]
      | some x =>
        have hkey : costKey cost ≠ (kind, key) := by
          intro hkey
          exact hne (by simp [pricedKey, hx, hkey])
        simp [amountTo, hx, hkey]
    rw [hto, he]
  · have hto : amountTo cost kind key a = share cost x a := by simp [amountTo, hx, hkey]
    rw [hto]
    exact (CostBucket.add_eq_some hadd).2 a

/-! ### Amounts that fit -/

/-- The amounts are multiples of one power of ten, and their sum has no more than 28 digits above
it. -/
def Fits (ds : List Decimal) : Prop :=
  ∃ e : Int, Decimal.Context.default.etiny ≤ e ∧ e ≤ Decimal.Context.default.etop ∧
    (∀ d ∈ ds, ∃ k : Nat, d.value = k * 10 ^ e) ∧
      (ds.map Decimal.value).sum < 10 ^ Decimal.Context.default.prec * 10 ^ e

/-- A sum that does not pass the limit is exact. -/
theorem add_onGrid {x d z : Decimal} {e : Int} {k j : Nat}
    (htiny : Decimal.Context.default.etiny ≤ e) (htop : e ≤ Decimal.Context.default.etop)
    (hx : x.value = k * 10 ^ e) (hd : d.value = j * 10 ^ e)
    (hlt : x.value + d.value < 10 ^ Decimal.Context.default.prec * 10 ^ e)
    (hz : Decimal.add .default x d = some z) :
    z.value = x.value + d.value ∧ z.value = (k + j : Nat) * 10 ^ e := by
  have hpow : (0 : ℚ) < 10 ^ e := by positivity
  have hkj : k + j < 10 ^ Decimal.Context.default.prec := by
    rw [hx, hd, ← add_mul] at hlt
    have := lt_of_mul_lt_mul_right hlt hpow.le
    exact_mod_cast this
  obtain ⟨z', hz', hv⟩ := Decimal.add_value hx hd hkj htiny htop
  rw [hz] at hz'
  cases hz'
  refine ⟨hv, ?_⟩
  rw [hv, hx, hd, Nat.cast_add, add_mul]

/-- An amount of the totals or of a row. -/
def amountAt (kind : CostKind) (key : String) (a : AmountField) (t : Tally) : Decimal :=
  (t.costs.bucket kind key).amount a

theorem record_amount (h : t.record r = some t') (kind : CostKind) (key : String)
    (a : AmountField) :
    match amountTo r.cost kind key a with
    | some d => Decimal.add .default (amountAt kind key a t) d = some (amountAt kind key a t')
    | none => amountAt kind key a t' = amountAt kind key a t := by
  obtain ⟨costs, hc, rfl⟩ := record_eq_some.mp h
  exact sumCost_amount hc kind key a

section

variable (kind : CostKind) (key : String) (a : AmountField) (e : Int)

/-- The amount added up so far, and each row's share of it. -/
structure AddedUp (sum : ℚ) (s : Tally × Rows) : Prop where
  total : (amountAt kind key a s.1).value = sum
  total_grid : ∃ k : Nat, (amountAt kind key a s.1).value = k * 10 ^ e
  rows : (s.2.map fun p => (amountAt kind key a p.2).value).sum = sum
  rows_grid : ∀ p ∈ s.2, ∃ k : Nat, (amountAt kind key a p.2).value = k * 10 ^ e

/-- What a list of records adds to an amount. -/
def amountsTo (rs : List RequestRecord) : List Decimal :=
  rs.filterMap fun r => amountTo r.cost kind key a

end

section

variable {kind : CostKind} {key : String} {a : AmountField} {e : Int}

theorem empty_amountAt : amountAt kind key a {} = .zero := by cases a <;> rfl

theorem row_grid {sum : ℚ} (hs : AddedUp kind key a e sum s) (k : String × String) :
    (∃ n : Nat, (amountAt kind key a ((s.2.get? k).getD {})).value = n * 10 ^ e) ∧
      (amountAt kind key a ((s.2.get? k).getD {})).value ≤ sum := by
  cases hk : s.2.get? k with
  | none =>
    rw [Option.getD_none, empty_amountAt, Decimal.value_zero]
    refine ⟨⟨0, by simp⟩, ?_⟩
    rw [← hs.total]
    exact Decimal.value_nonneg _
  | some t =>
    have hmem := Assoc.mem_of_get? hk
    refine ⟨hs.rows_grid _ hmem, ?_⟩
    rw [← hs.rows]
    refine single_le_sum ?_ _ (mem_map.mpr ⟨_, hmem, rfl⟩)
    intro x hx
    obtain ⟨p, -, rfl⟩ := mem_map.mp hx
    exact Decimal.value_nonneg _

/-- **One record.**  Its amount goes to the totals and to its row, without rounding. -/
theorem addRecord_addedUp (htiny : Decimal.Context.default.etiny ≤ e)
    (htop : e ≤ Decimal.Context.default.etop) {sum : ℚ} (hs : AddedUp kind key a e sum s)
    (hr : addRecord s r = some s')
    (hgrid : ∀ d ∈ amountsTo kind key a [r], ∃ k : Nat, d.value = k * 10 ^ e)
    (hlt : sum + ((amountsTo kind key a [r]).map Decimal.value).sum <
      10 ^ Decimal.Context.default.prec * 10 ^ e) :
    AddedUp kind key a e (sum + ((amountsTo kind key a [r]).map Decimal.value).sum) s' := by
  obtain ⟨totals, row, ht, hrow, rfl⟩ := addRecord_eq_some.mp hr
  have ht' := record_amount ht kind key a
  have hrow' := record_amount hrow kind key a
  obtain ⟨⟨j, hj⟩, hle⟩ := row_grid hs (rowKey r)
  have hset := Assoc.sum_set (fun t => (amountAt kind key a t).value) s.2 (rowKey r) row
  have hold : ((s.2.get? (rowKey r)).map fun t => (amountAt kind key a t).value).getD 0 =
      (amountAt kind key a ((s.2.get? (rowKey r)).getD {})).value := by
    cases s.2.get? (rowKey r) with
    | none => simp [empty_amountAt]
    | some t => rfl
  rw [hold, hs.rows] at hset
  cases hd : amountTo r.cost kind key a with
  | none =>
    have hnil : amountsTo kind key a [r] = [] := by simp [amountsTo, hd]
    rw [hd] at ht' hrow'
    rw [hnil, map_nil, sum_nil, add_zero]
    refine ⟨?_, ?_, ?_, ?_⟩
    · rw [ht']
      exact hs.total
    · rw [ht']
      exact hs.total_grid
    · rw [hrow'] at hset
      exact add_right_cancel hset
    · exact Assoc.forall_set (P := fun t => ∃ k : Nat, (amountAt kind key a t).value = k * 10 ^ e)
        hs.rows_grid (by rw [hrow']; exact ⟨j, hj⟩)
  | some d =>
    have hone : amountsTo kind key a [r] = [d] := by simp [amountsTo, hd]
    rw [hd] at ht' hrow'
    rw [hone, map_singleton, sum_singleton] at hlt ⊢
    obtain ⟨n, hn⟩ := hgrid d (by rw [hone]; exact mem_singleton_self d)
    obtain ⟨k, hk⟩ := hs.total_grid
    obtain ⟨hv, hg⟩ := add_onGrid htiny htop hk hn (by rw [hs.total]; exact hlt) ht'
    obtain ⟨hv', hg'⟩ := add_onGrid htiny htop hj hn
      (lt_of_le_of_lt (add_le_add_left hle _) hlt) hrow'
    refine ⟨?_, ⟨_, hg⟩, ?_, ?_⟩
    · rw [hv, hs.total]
    · rw [hv'] at hset
      linarith
    · exact Assoc.forall_set (P := fun t => ∃ k : Nat, (amountAt kind key a t).value = k * 10 ^ e)
        hs.rows_grid ⟨_, hg'⟩

theorem foldlM_addedUp (htiny : Decimal.Context.default.etiny ≤ e)
    (htop : e ≤ Decimal.Context.default.etop) :
    ∀ {sum : ℚ} {s s' : Tally × Rows}, AddedUp kind key a e sum s →
      rs.foldlM addRecord s = some s' →
      (∀ d ∈ amountsTo kind key a rs, ∃ k : Nat, d.value = k * 10 ^ e) →
      sum + ((amountsTo kind key a rs).map Decimal.value).sum <
        10 ^ Decimal.Context.default.prec * 10 ^ e →
      AddedUp kind key a e (sum + ((amountsTo kind key a rs).map Decimal.value).sum) s' := by
  induction rs with
  | nil =>
    intro sum s s' hs hfold _ _
    cases hfold
    simpa [amountsTo] using hs
  | cons r rs ih =>
    intro sum s s' hs hfold hgrid hlt
    rw [foldlM_cons, Option.bind_eq_bind, Option.bind_eq_some_iff] at hfold
    obtain ⟨t, ht, hfold⟩ := hfold
    have hsplit : amountsTo kind key a (r :: rs) =
        amountsTo kind key a [r] ++ amountsTo kind key a rs := by
      rw [amountsTo, amountsTo, amountsTo, ← filterMap_append, singleton_append]
    rw [hsplit, map_append, sum_append, ← add_assoc] at hlt ⊢
    rw [hsplit] at hgrid
    have hrest : 0 ≤ ((amountsTo kind key a rs).map Decimal.value).sum := by
      refine sum_nonneg fun x hx => ?_
      obtain ⟨d, -, rfl⟩ := mem_map.mp hx
      exact d.value_nonneg
    have ht' := addRecord_addedUp htiny htop hs ht (fun d hd => hgrid d (mem_append_left _ hd))
      (lt_of_le_of_lt (le_add_of_nonneg_right hrest) hlt)
    exact ih ht' hfold (fun d hd => hgrid d (mem_append_right _ hd)) hlt

end

/-! ### Conservation -/

/-- What a snapshot's totals satisfy, against each other and against its rows. -/
structure Conserved (u : UsageSnapshot) : Prop where
  requests_eq : u.counts .requests =
    u.counts .responses + u.counts .failed + u.counts .abandoned + u.counts .open
  responses_eq : u.counts .responses = u.counts .reported + u.counts .unreported
  counts_sum : ∀ f, u.counts f = (u.breakdown.map fun row => row.counts f).sum
  unpriced_sum : u.tally.costs.missingRequests =
    (u.breakdown.map fun row => row.tally.costs.missingRequests).sum
  partly_priced_sum : u.tally.costs.partialRequests =
    (u.breakdown.map fun row => row.tally.costs.partialRequests).sum
  priced_sum : ∀ kind key n, (u.tally.costs.bucket kind key).count n =
    (u.breakdown.map fun row => (row.tally.costs.bucket kind key).count n).sum

/-- An amount of the totals is the sum over the rows. -/
def AmountsSum (u : UsageSnapshot) (kind : CostKind) (key : String) (a : AmountField) : Prop :=
  (amountAt kind key a u.tally).value =
    (u.breakdown.map fun row => (amountAt kind key a row.tally).value).sum

theorem contribution_requests (r : RequestRecord) :
    contribution r .requests = contribution r .responses + contribution r .failed +
      contribution r .abandoned + contribution r .open := by
  cases hs : r.state <;> simp [contribution, hs]

theorem contribution_responses (r : RequestRecord) :
    contribution r .responses = contribution r .reported + contribution r .unreported := by
  by_cases hs : r.state = .responded
  · by_cases hr : r.usage.any (·.reported) = true
    · simp [contribution, hs, hr]
    · simp [contribution, hs, hr]
  · simp [contribution, hs]

/-- Counts that balance in every record balance in the snapshot. -/
theorem snapshot_balanced (f : CountField) (fs : List CountField)
    (hf : ∀ r, contribution r f = (fs.map (contribution r)).sum) (s : UsageLedger)
    (promptId : Option String) :
    (s.snapshot promptId).counts f = (fs.map (s.snapshot promptId).counts).sum := by
  have hadd : ∀ (g : CountField → Int) (r : RequestRecord) (fs : List CountField),
      (fs.map fun f => g f + contribution r f).sum =
        (fs.map g).sum + (fs.map (contribution r)).sum := fun g r fs => sum_map_add
  have hzero := snapshot_zero (g := fun t => t.counts f - (fs.map t.counts).sum) ?_ ?_ s promptId
  · exact sub_eq_zero.mp hzero
  · simp
  · intro t r t' h
    obtain ⟨costs, -, rfl⟩ := record_eq_some.mp h
    simp only [hadd, hf]
    ring

theorem snapshot_amounts (s : UsageLedger) (promptId : Option String) (kind : CostKind)
    (key : String) (a : AmountField) (hfits : Fits (amountsTo kind key a (s.selected promptId))) :
    AmountsSum (s.snapshot promptId) kind key a := by
  obtain ⟨e, htiny, htop, hgrid, hlt⟩ := hfits
  unfold AmountsSum UsageLedger.snapshot
  split
  · next totals rows hfold =>
    have hstart : AddedUp kind key a e 0 (({} : Tally), ([] : Rows)) := by
      refine ⟨?_, ⟨0, ?_⟩, rfl, fun p hp => nomatch hp⟩
      · rw [empty_amountAt, Decimal.value_zero]
      · rw [empty_amountAt, Decimal.value_zero, Nat.cast_zero, zero_mul]
    have hend := foldlM_addedUp htiny htop hstart hfold hgrid (by rwa [zero_add])
    have hrows := sum_breakdownOf (fun t => (amountAt kind key a t).value) rows
    exact hend.total.trans (hend.rows.symm.trans hrows.symm)
  · change (amountAt kind key a {}).value = 0
    rw [empty_amountAt, Decimal.value_zero]

/-- **Conservation.**  In every snapshot the states add up to the requests and every count is the
sum over the rows; an amount of money is when the amounts of the selected requests fit. -/
theorem snapshot_conserved (s : UsageLedger) (promptId : Option String) :
    Conserved (s.snapshot promptId) ∧
      ∀ kind key a, Fits (amountsTo kind key a (s.selected promptId)) →
        AmountsSum (s.snapshot promptId) kind key a := by
  refine ⟨⟨?_, ?_, ?_, ?_, ?_, ?_⟩, snapshot_amounts s promptId⟩
  · have := snapshot_balanced .requests [.responses, .failed, .abandoned, .open]
      (fun r => by rw [contribution_requests]; simp [add_assoc]) s promptId
    simpa [add_assoc] using this
  · have := snapshot_balanced .responses [.reported, .unreported]
      (fun r => by rw [contribution_responses]; simp) s promptId
    simpa using this
  · intro f
    exact snapshot_sum (g := fun t => t.counts f) rfl (fun t r t' h => record_counts h f) s promptId
  · refine snapshot_sum (g := fun t => t.costs.missingRequests)
      (c := fun r => CostAggregate.missingShare r.cost) rfl (fun t r t' h => ?_) s promptId
    obtain ⟨costs, hc, rfl⟩ := record_eq_some.mp h
    exact (sumCost_eq_some hc).1
  · refine snapshot_sum (g := fun t => t.costs.partialRequests)
      (c := fun r => CostAggregate.partialShare r.cost) rfl (fun t r t' h => ?_) s promptId
    obtain ⟨costs, hc, rfl⟩ := record_eq_some.mp h
    exact (sumCost_eq_some hc).2.1
  · intro kind key n
    refine snapshot_sum (g := fun t => (t.costs.bucket kind key).count n)
      (c := fun r => countTo r.cost kind key n) ?_ (fun t r t' h => ?_) s promptId
    · cases n <;> rfl
    · obtain ⟨costs, hc, rfl⟩ := record_eq_some.mp h
      exact sumCost_count hc kind key n

/-! ### Amounts that do not fit -/

namespace Example

/-- A host that takes the provider's own cost. -/
def billing : Host where
  pin _ _ _ := none
  calculate _ _ o := o.bind (·.cost)
  raises _ := false
  sameDict a b := a = b

/-- The provider reports what a request cost. -/
def charged (amount : String) : ObservationFields where
  provider := "openrouter"
  cost := some
    [("source", .str "provider_reported"), ("amount", .str amount), ("currency", .str "USD"),
      ("denomination", .str "currency"), ("complete", .bool true),
      ("missing_components", .arr [])]

/-- A request to a model, and its cost. -/
def bill (id model amount : String) (ha : (charged amount).complaint = none) : List Op :=
  [.begin id "2026-01-01T00:00:00+00:00" "openrouter" (some model) none none [],
    .recordObservation id ⟨_, (charged amount).complaint_eq_none_iff.mp ha⟩,
    .recordAbandonment id]

/-- One request that costs a dollar, and two that cost next to nothing. -/
def bills : List Op :=
  bill "r1" "a" "1" (by decide) ++ bill "r2" "b" "4e-28" (by decide) ++
    bill "r3" "b" "4e-28" (by decide)

end Example

open Example in
/-- The small amounts add up in their row, and are rounded away in the totals. -/
theorem amounts_rounded_apart :
    ¬ AmountsSum ((run billing (.new "run") bills).snapshot none) .currencies "USD" .total := by
  have htotal : amountAt .currencies "USD" .total
      ((run billing (.new "run") bills).snapshot none).tally = ⟨10 ^ 27, -27⟩ := by decide
  have hrows : (((run billing (.new "run") bills).snapshot none).breakdown.map fun row =>
      amountAt .currencies "USD" .total row.tally) = [⟨1, 0⟩, ⟨8, -28⟩] := by decide
  have hvalues : (((run billing (.new "run") bills).snapshot none).breakdown.map fun row =>
      (amountAt .currencies "USD" .total row.tally).value) =
        [Decimal.value ⟨1, 0⟩, Decimal.value ⟨8, -28⟩] := by
    have hmap := congrArg (List.map Decimal.value) hrows
    rw [map_map] at hmap
    exact hmap
  rw [AmountsSum, htotal, hvalues]
  norm_num [Decimal.value]

end KolegaCode.Usage
