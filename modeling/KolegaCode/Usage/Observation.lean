import KolegaCode.Lib.Decimal
import KolegaCode.Lib.JsonText

/-!
# Usage — what a request used

`UsageObservation`, the evidence of what one request to a model used.  An observation that exists
satisfies its checks: the counts are not negative, the total is input plus output, a complete one
has all three.

Refinement raises when both observations are partial, and the newer one has only a total, which is
not the sum that is already known (`refinedBy_error_iff`).
-/

namespace KolegaCode.Usage

open Json (Dict get?)

/-- `TOKEN_FIELDS`. -/
inductive TokenField
  | inputTokens
  | outputTokens
  | totalTokens
  | cacheReadInputTokens
  | cacheWriteInputTokens
  | reasoningOutputTokens
  deriving DecidableEq, Repr

def tokenFields : List TokenField :=
  [.inputTokens, .outputTokens, .totalTokens, .cacheReadInputTokens, .cacheWriteInputTokens,
    .reasoningOutputTokens]

@[simp] theorem mem_tokenFields (n : TokenField) : n ∈ tokenFields := by cases n <;> decide

namespace TokenField

/-- The name of the field. -/
def name : TokenField → String
  | inputTokens => "input_tokens"
  | outputTokens => "output_tokens"
  | totalTokens => "total_tokens"
  | cacheReadInputTokens => "cache_read_input_tokens"
  | cacheWriteInputTokens => "cache_write_input_tokens"
  | reasoningOutputTokens => "reasoning_output_tokens"

/-- `TOKEN_FIELDS[:3]`. -/
def core : TokenField → Bool
  | inputTokens | outputTokens | totalTokens => true
  | _ => false

end TokenField

/-- A count for each field, where it is known. -/
abbrev Tokens := TokenField → Option Int

/-- `NormalizedUsage`; nothing checks it. -/
structure NormalizedUsage where
  provider : String
  model : Option String
  reported : Bool
  tokens : Tokens
  unavailableReason : Option String

/-! ### Amounts -/

/-- Python refuses to write an integer with more digits. -/
def intMaxStrDigits : Nat := 4300

/-- `nonnegative_decimal`. -/
def nonnegativeDecimal : Json → Option Decimal
  | .str s => Decimal.ofNumeral s.toList
  | .int n =>
    if 0 ≤ n ∧ n < 10 ^ intMaxStrDigits then some ⟨n.toNat, 0⟩ else none
  | .float repr => Decimal.ofNumeral repr.toList
  | _ => none

/-- `nonnegative_decimal(d.get(key))`. -/
def decimalAt (d : Dict) (key : String) : Option Decimal :=
  nonnegativeDecimal ((get? d key).getD .null)

/-! ### Observations -/

/-- The fields of a `UsageObservation`, before they are checked. -/
structure ObservationFields where
  provider : String
  model : Option String := none
  tokens : Tokens := fun _ => none
  complete : Bool := false
  cost : Option Dict := none
  pricingQuantities : Dict := []
  unavailableReason : Option String := none

namespace ObservationFields

/-- Input plus output, where both are known. -/
def sum? (a : ObservationFields) : Option Int := do
  let input ← a.tokens .inputTokens
  let output ← a.tokens .outputTokens
  pure (input + output)

/-- The fields with the total filled in. -/
def withTotal (a : ObservationFields) : ObservationFields :=
  match a.tokens .totalTokens, a.sum? with
  | none, some total => { a with tokens := Function.update a.tokens .totalTokens (some total) }
  | _, _ => a

/-- The first of the checks of `__post_init__` that fails. -/
def complaint (a : ObservationFields) : Option String :=
  if a.provider = "" then some "provider is required"
  else
    match tokenFields.find? fun n => (a.tokens n).any (· < 0) with
    | some n => some ("invalid " ++ n.name)
    | none =>
      if (a.withTotal.sum?).any (some · ≠ a.withTotal.tokens .totalTokens) then
        some "total must equal inclusive input plus output"
      else if a.complete && tokenFields.any fun n => n.core && (a.withTotal.tokens n).isNone then
        some "complete observation needs core token counts"
      else if a.cost.any fun c => (decimalAt c "amount").isNone then some "invalid observed cost"
      else none

/-- What an observation satisfies. -/
structure Valid (a : ObservationFields) : Prop where
  provider_ne : a.provider ≠ ""
  nonneg : ∀ n v, a.tokens n = some v → 0 ≤ v
  total : ∀ v, a.sum? = some v → a.tokens .totalTokens = some v
  core_known : a.complete = true → ∀ n : TokenField, n.core = true → (a.tokens n).isSome
  amount_known : ∀ c, a.cost = some c → (decimalAt c "amount").isSome

variable (a : ObservationFields)

@[simp] theorem withTotal_provider :
    a.withTotal.provider = a.provider := by
  unfold withTotal
  split <;> rfl

@[simp] theorem withTotal_complete :
    a.withTotal.complete = a.complete := by
  unfold withTotal
  split <;> rfl

@[simp] theorem withTotal_cost : a.withTotal.cost = a.cost := by
  unfold withTotal
  split <;> rfl

theorem withTotal_tokens_of_ne {n : TokenField} (h : n ≠ .totalTokens) :
    a.withTotal.tokens n = a.tokens n := by
  unfold withTotal
  split
  · exact Function.update_of_ne h _ _
  · rfl

theorem withTotal_total :
    a.withTotal.tokens .totalTokens = (a.tokens .totalTokens).or a.sum? := by
  unfold withTotal
  split
  · next h hs => simp [h, hs]
  · next h =>
    cases ht : a.tokens .totalTokens with
    | some v => rfl
    | none =>
      cases hs : a.sum? with
      | none => rfl
      | some v => exact absurd hs (h v ht)

@[simp] theorem withTotal_sum? : a.withTotal.sum? = a.sum? := by
  simp [sum?, withTotal_tokens_of_ne]

theorem sum?_eq_some {a : ObservationFields} {v : Int} :
    a.sum? = some v ↔
      ∃ i o, a.tokens .inputTokens = some i ∧ a.tokens .outputTokens = some o ∧ i + o = v := by
  simp [sum?, Option.bind_eq_some_iff]

theorem complaint_eq_none_iff : a.complaint = none ↔ a.withTotal.Valid := by
  constructor
  · intro h
    unfold complaint at h
    split at h
    · cases h
    next hp =>
    split at h
    · cases h
    next hn =>
    split at h
    · cases h
    next ht =>
    split at h
    · cases h
    next hc =>
    split at h
    · cases h
    next hm =>
    have hneg : ∀ n v, a.tokens n = some v → 0 ≤ v := by
      intro n v hv
      have := List.find?_eq_none.mp hn n (mem_tokenFields n)
      simpa [hv] using this
    refine ⟨by simpa using hp, ?_, ?_, ?_, ?_⟩
    · intro n v hv
      by_cases hne : n = .totalTokens
      · subst hne
        rw [withTotal_total] at hv
        cases htot : a.tokens .totalTokens with
        | some w =>
          rw [htot] at hv
          cases hv
          exact hneg _ _ htot
        | none =>
          rw [htot, Option.none_or] at hv
          obtain ⟨i, o, hi, ho, rfl⟩ := sum?_eq_some.mp hv
          exact Int.add_nonneg (hneg _ _ hi) (hneg _ _ ho)
      · rw [withTotal_tokens_of_ne a hne] at hv
        exact hneg n v hv
    · intro v hv
      rw [hv] at ht
      have heq : some v = a.withTotal.tokens .totalTokens := by simpa using ht
      exact heq.symm
    · intro hcomp n hcore
      rw [withTotal_complete] at hcomp
      by_contra hnone
      apply hc
      rw [hcomp, Bool.true_and, List.any_eq_true]
      exact ⟨n, mem_tokenFields n, by simpa [hcore] using hnone⟩
    · intro c hcost
      rw [withTotal_cost] at hcost
      rw [hcost] at hm
      simpa [Option.isSome_iff_ne_none] using hm
  · intro h
    have hp : a.provider ≠ "" := by simpa using h.provider_ne
    have hn : tokenFields.find? (fun n => (a.tokens n).any (· < 0)) = none := by
      rw [List.find?_eq_none]
      intro n _
      cases hv : a.tokens n with
      | none => simp
      | some v =>
        have hw : a.withTotal.tokens n = some v := by
          by_cases hne : n = .totalTokens
          · subst hne
            simp [withTotal_total, hv]
          · rw [withTotal_tokens_of_ne a hne, hv]
        have := h.nonneg n v hw
        simpa using this
    have ht : ¬ (a.withTotal.sum?).any (some · ≠ a.withTotal.tokens .totalTokens) := by
      cases hs : a.withTotal.sum? with
      | none => simp
      | some v => simp [h.total v hs]
    have hc : ¬ (a.complete && tokenFields.any fun n =>
        n.core && (a.withTotal.tokens n).isNone) = true := by
      rw [Bool.and_eq_true, List.any_eq_true]
      rintro ⟨hcomp, n, -, hn⟩
      rw [Bool.and_eq_true] at hn
      have hsome := h.core_known (by simpa using hcomp) n hn.1
      rw [Option.isNone_iff_eq_none] at hn
      rw [hn.2] at hsome
      cases hsome
    have hm : ¬ (a.cost.any fun c => (decimalAt c "amount").isNone) = true := by
      cases hcost : a.cost with
      | none => simp
      | some c =>
        have := h.amount_known c (by simpa using hcost)
        simpa [Option.isSome_iff_ne_none] using this
    rw [complaint, if_neg hp, hn]
    simp only
    rw [if_neg ht, if_neg hc, if_neg hm]

end ObservationFields

/-- `UsageObservation`. -/
structure UsageObservation extends ObservationFields where
  valid : toObservationFields.Valid

namespace UsageObservation

/-- The construction of an observation; the error is a `ValueError` with its text. -/
def make (a : ObservationFields) : Except String UsageObservation :=
  match h : a.complaint with
  | some e => .error e
  | none => .ok ⟨a.withTotal, (a.complaint_eq_none_iff).mp h⟩

theorem make_ok_iff {a : ObservationFields} : (∃ o, make a = .ok o) ↔ a.withTotal.Valid := by
  rw [← ObservationFields.complaint_eq_none_iff]
  unfold make
  split
  · next e h => simp [h]
  · next h => simp [h]

theorem make_eq_ok {a : ObservationFields} {o : UsageObservation} (h : make a = .ok o) :
    o.toObservationFields = a.withTotal := by
  unfold make at h
  split at h
  · cases h
  · cases h
    rfl

/-- The fields `from_usage` builds an observation from. -/
def usageFields (u : NormalizedUsage) : ObservationFields where
  provider := u.provider
  model := u.model
  tokens := u.tokens
  complete := u.reported
  unavailableReason := u.unavailableReason

/-- `UsageObservation.from_usage`. -/
def fromUsage (u : NormalizedUsage) : Except String UsageObservation := make (usageFields u)

/-- The counts of both, the newer ones first; a complete observation keeps its core counts against
a partial one. -/
def mergedTokens (self newer : UsageObservation) : Tokens := fun n =>
  if self.complete && !newer.complete && n.core then self.tokens n
  else (newer.tokens n).or (self.tokens n)

/-- The total is dropped, to be computed from its parts. -/
def totalAnew (self newer : UsageObservation) : Bool :=
  (newer.complete || !self.complete) &&
    ((newer.tokens .inputTokens).isSome || (newer.tokens .outputTokens).isSome)

/-- The fields `refined_by` builds the refined observation from. -/
def refinedFields (self newer : UsageObservation) : ObservationFields where
  provider := self.provider
  model := newer.model.or self.model
  tokens :=
    if totalAnew self newer then Function.update (mergedTokens self newer) .totalTokens none
    else mergedTokens self newer
  complete := self.complete || newer.complete
  cost := newer.cost.or self.cost
  pricingQuantities :=
    newer.pricingQuantities.foldl (fun d p => Json.set d p.1 p.2) self.pricingQuantities
  unavailableReason :=
    if newer.complete then newer.unavailableReason
    else if self.complete then self.unavailableReason
    else newer.unavailableReason.or self.unavailableReason

/-- `UsageObservation.refined_by`. -/
def refinedBy (self newer : UsageObservation) : Except String UsageObservation :=
  make (refinedFields self newer)

/-! ### When refinement raises -/

/-- Both observations are partial, and the newer has a total, without its parts, that is not the
sum already known. -/
def Clash (self newer : ObservationFields) : Prop :=
  self.complete = false ∧ newer.complete = false ∧ newer.tokens .inputTokens = none ∧
    newer.tokens .outputTokens = none ∧
      ∃ v w, self.sum? = some v ∧ newer.tokens .totalTokens = some w ∧ w ≠ v

section

variable {self newer : UsageObservation}

/-- A total of the newer observation is taken without its parts. -/
private theorem newer_complete_parts (h : newer.complete = true) :
    (newer.tokens .inputTokens).isSome ∧ (newer.tokens .outputTokens).isSome :=
  ⟨newer.valid.core_known h _ rfl, newer.valid.core_known h _ rfl⟩

private theorem mergedTokens_nonneg {n : TokenField} {v : Int}
    (h : mergedTokens self newer n = some v) : 0 ≤ v := by
  unfold mergedTokens at h
  split at h
  · exact self.valid.nonneg n v h
  · cases hn : newer.tokens n with
    | some w =>
      rw [hn] at h
      cases h
      exact newer.valid.nonneg n v hn
    | none =>
      rw [hn, Option.none_or] at h
      exact self.valid.nonneg n v h

private theorem refinedFields_nonneg {n : TokenField} {v : Int}
    (h : (refinedFields self newer).tokens n = some v) : 0 ≤ v := by
  simp only [refinedFields] at h
  split at h
  · by_cases hn : n = .totalTokens
    · subst hn
      rw [Function.update_self] at h
      cases h
    · rw [Function.update_of_ne hn] at h
      exact mergedTokens_nonneg h
  · exact mergedTokens_nonneg h

/-- Only the total and the core counts of the refined observation can be wrong. -/
private theorem refined_valid
    (htotal : ∀ v, (refinedFields self newer).sum? = some v →
      (refinedFields self newer).tokens .totalTokens = none ∨
        (refinedFields self newer).tokens .totalTokens = some v)
    (hcore : (refinedFields self newer).complete = true →
      ∀ n : TokenField, n.core = true → ((refinedFields self newer).withTotal.tokens n).isSome) :
    (refinedFields self newer).withTotal.Valid := by
  refine ⟨?_, ?_, ?_, ?_, ?_⟩
  · rw [ObservationFields.withTotal_provider]
    exact self.valid.provider_ne
  · intro n v hv
    by_cases hn : n = .totalTokens
    · subst hn
      rw [ObservationFields.withTotal_total] at hv
      cases ht : (refinedFields self newer).tokens .totalTokens with
      | some w =>
        rw [ht] at hv
        cases hv
        exact refinedFields_nonneg ht
      | none =>
        rw [ht, Option.none_or] at hv
        obtain ⟨i, o, hi, ho, rfl⟩ := ObservationFields.sum?_eq_some.mp hv
        exact Int.add_nonneg (refinedFields_nonneg hi) (refinedFields_nonneg ho)
    · rw [ObservationFields.withTotal_tokens_of_ne _ hn] at hv
      exact refinedFields_nonneg hv
  · intro v hv
    rw [ObservationFields.withTotal_sum?] at hv
    rw [ObservationFields.withTotal_total]
    rcases htotal v hv with h | h
    · rw [h, Option.none_or, hv]
    · rw [h, Option.some_or]
  · intro hcomp
    exact hcore (by simpa using hcomp)
  · intro c hc
    rw [ObservationFields.withTotal_cost] at hc
    cases hn : newer.cost with
    | some d =>
      simp only [refinedFields, hn, Option.some_or, Option.some.injEq] at hc
      exact newer.valid.amount_known c (hn.trans (congrArg some hc))
    | none =>
      simp only [refinedFields, hn, Option.none_or] at hc
      exact self.valid.amount_known c hc

/-- A complete observation brings all core counts, and the total is computed anew. -/
private theorem refined_valid_of_complete (hn : newer.complete = true) :
    (refinedFields self newer).withTotal.Valid := by
  obtain ⟨hi, ho⟩ := newer_complete_parts hn
  obtain ⟨i, hi⟩ := Option.isSome_iff_exists.mp hi
  obtain ⟨o, ho⟩ := Option.isSome_iff_exists.mp ho
  have ht : (refinedFields self newer).tokens .totalTokens = none := by
    simp [refinedFields, totalAnew, hn, hi]
  have hin : (refinedFields self newer).tokens .inputTokens = some i := by
    simp [refinedFields, totalAnew, mergedTokens, hn, hi]
  have hout : (refinedFields self newer).tokens .outputTokens = some o := by
    simp [refinedFields, totalAnew, mergedTokens, hn, hi, ho]
  have hsum : (refinedFields self newer).sum? = some (i + o) :=
    ObservationFields.sum?_eq_some.mpr ⟨i, o, hin, hout, rfl⟩
  refine refined_valid (fun _ _ => .inl ht) ?_
  intro _ n hcore
  cases n with
  | inputTokens => rw [ObservationFields.withTotal_tokens_of_ne _ (by decide), hin]; rfl
  | outputTokens => rw [ObservationFields.withTotal_tokens_of_ne _ (by decide), hout]; rfl
  | totalTokens => rw [ObservationFields.withTotal_total, ht, hsum]; rfl
  | cacheReadInputTokens | cacheWriteInputTokens | reasoningOutputTokens => cases hcore

/-- A complete observation keeps its core counts against a partial one. -/
private theorem refined_valid_of_kept (hs : self.complete = true) (hn : newer.complete = false) :
    (refinedFields self newer).withTotal.Valid := by
  have hkeep : ∀ n : TokenField, n.core = true →
      (refinedFields self newer).tokens n = self.tokens n := by
    intro n hcore
    simp [refinedFields, totalAnew, mergedTokens, hn, hs, hcore]
  have hsum : (refinedFields self newer).sum? = self.sum? := by
    simp only [ObservationFields.sum?, hkeep .inputTokens rfl, hkeep .outputTokens rfl]
  refine refined_valid ?_ ?_
  · intro v hv
    rw [hsum] at hv
    rw [hkeep _ rfl]
    exact .inr (self.valid.total v hv)
  · intro _ n hcore
    have hsome := self.valid.core_known hs n hcore
    by_cases ht : n = .totalTokens
    · subst ht
      rw [ObservationFields.withTotal_total, hkeep _ rfl]
      obtain ⟨v, hv⟩ := Option.isSome_iff_exists.mp hsome
      simp [hv]
    · rw [ObservationFields.withTotal_tokens_of_ne _ ht, hkeep n hcore]
      exact hsome

/-- A part makes the total be computed anew. -/
private theorem refined_valid_of_part (hs : self.complete = false) (hn : newer.complete = false)
    (hpart : ((newer.tokens .inputTokens).isSome || (newer.tokens .outputTokens).isSome) = true) :
    (refinedFields self newer).withTotal.Valid := by
  have ht : (refinedFields self newer).tokens .totalTokens = none := by
    simp [refinedFields, totalAnew, hs, hpart]
  refine refined_valid (fun _ _ => .inl ht) ?_
  intro hcomp
  have hpart : (refinedFields self newer).complete = false := by simp [refinedFields, hn, hs]
  rw [hpart] at hcomp
  cases hcomp

/-- Without its parts, a total stands as it is, and has to be the sum already known. -/
private theorem refined_valid_of_total (hs : self.complete = false) (hn : newer.complete = false)
    (hi : newer.tokens .inputTokens = none) (ho : newer.tokens .outputTokens = none) :
    (refinedFields self newer).withTotal.Valid ↔
      ∀ v w, self.sum? = some v → newer.tokens .totalTokens = some w → w = v := by
  have hsum : (refinedFields self newer).sum? = self.sum? := by
    simp [ObservationFields.sum?, refinedFields, totalAnew, mergedTokens, hn, hs, hi, ho]
  have ht : (refinedFields self newer).tokens .totalTokens =
      (newer.tokens .totalTokens).or (self.tokens .totalTokens) := by
    simp [refinedFields, totalAnew, mergedTokens, hn, hs, hi, ho]
  constructor
  · intro hvalid v w hv hw
    have htot := hvalid.total v (by rw [ObservationFields.withTotal_sum?, hsum, hv])
    rw [ObservationFields.withTotal_total, ht, hw] at htot
    simpa using htot
  · intro hagree
    refine refined_valid ?_ ?_
    · intro v hv
      rw [hsum] at hv
      rw [ht]
      cases hw : newer.tokens .totalTokens with
      | none =>
        rw [Option.none_or]
        exact .inr (self.valid.total v hv)
      | some w =>
        rw [hagree v w hv hw]
        exact .inr rfl
    · intro hcomp
      have hpart : (refinedFields self newer).complete = false := by
        simp [refinedFields, hn, hs]
      rw [hpart] at hcomp
      cases hcomp

end

/-- **When refinement raises.**  A partial observation refined by another one that has a total
without its parts, and a different one. -/
theorem refinedBy_error_iff (self newer : UsageObservation) :
    (∃ e, refinedBy self newer = .error e) ↔
      Clash self.toObservationFields newer.toObservationFields := by
  have hiff : (refinedFields self newer).withTotal.Valid ↔
      ¬ Clash self.toObservationFields newer.toObservationFields := by
    by_cases hn : newer.complete = true
    · refine ⟨fun _ hclash => ?_, fun _ => refined_valid_of_complete hn⟩
      exact absurd (hn.symm.trans hclash.2.1) (by decide)
    rw [Bool.not_eq_true] at hn
    by_cases hs : self.complete = true
    · refine ⟨fun _ hclash => ?_, fun _ => refined_valid_of_kept hs hn⟩
      exact absurd (hs.symm.trans hclash.1) (by decide)
    rw [Bool.not_eq_true] at hs
    by_cases hpart :
        ((newer.tokens .inputTokens).isSome || (newer.tokens .outputTokens).isSome) = true
    · refine ⟨fun _ hclash => ?_, fun _ => refined_valid_of_part hs hn hpart⟩
      obtain ⟨-, -, hi, ho, -⟩ := hclash
      rw [hi, ho] at hpart
      cases hpart
    · rw [Bool.not_eq_true, Bool.or_eq_false_iff, Option.isSome_eq_false_iff,
        Option.isSome_eq_false_iff, Option.isNone_iff_eq_none, Option.isNone_iff_eq_none] at hpart
      obtain ⟨hi, ho⟩ := hpart
      rw [refined_valid_of_total hs hn hi ho]
      constructor
      · rintro hagree ⟨-, -, -, -, v, w, hv, hw, hne⟩
        exact hne (hagree v w hv hw)
      · intro hclash v w hv hw
        by_contra hne
        exact hclash ⟨hs, hn, hi, ho, v, w, hv, hw, hne⟩
  rw [← not_iff_not, ← hiff, ← make_ok_iff]
  unfold refinedBy
  cases make (refinedFields self newer) with
  | error e => simp
  | ok o => simp

end UsageObservation

/-! ### When a usage is no observation -/

/-- What the documentation of `NormalizedUsage` promises of its counts. -/
structure NormalizedUsage.WellFormed (u : NormalizedUsage) : Prop where
  provider_ne : u.provider ≠ ""
  nonneg : ∀ n v, u.tokens n = some v → 0 ≤ v
  total : ∀ i o, u.tokens .inputTokens = some i → u.tokens .outputTokens = some o →
    u.tokens .totalTokens = none ∨ u.tokens .totalTokens = some (i + o)
  parts_known : u.reported = true →
    (u.tokens .inputTokens).isSome ∧ (u.tokens .outputTokens).isSome

namespace UsageObservation

theorem fromUsage_ok_iff (u : NormalizedUsage) : (∃ o, fromUsage u = .ok o) ↔ u.WellFormed := by
  rw [fromUsage, make_ok_iff]
  generalize ha : usageFields u = a
  have hp : a.provider = u.provider := ha ▸ rfl
  have ht : a.tokens = u.tokens := ha ▸ rfl
  have hc : a.complete = u.reported := ha ▸ rfl
  have hm : a.cost = none := ha ▸ rfl
  constructor
  · intro h
    refine ⟨by simpa [hp] using h.provider_ne, ?_, ?_, ?_⟩
    · intro n v hv
      refine h.nonneg n v ?_
      by_cases hn : n = .totalTokens
      · subst hn
        rw [ObservationFields.withTotal_total, ht, hv, Option.some_or]
      · rw [ObservationFields.withTotal_tokens_of_ne _ hn, ht, hv]
    · intro i o hi ho
      have hsum : a.sum? = some (i + o) :=
        ObservationFields.sum?_eq_some.mpr ⟨i, o, ht ▸ hi, ht ▸ ho, rfl⟩
      have htot := h.total (i + o) (by rw [ObservationFields.withTotal_sum?, hsum])
      rw [ObservationFields.withTotal_total, ht] at htot
      cases hv : u.tokens .totalTokens with
      | none => exact .inl rfl
      | some v =>
        rw [hv, Option.some_or] at htot
        exact .inr htot
    · intro hr
      have hknown := h.core_known (by simpa [hc] using hr)
      have hi := hknown .inputTokens rfl
      have ho := hknown .outputTokens rfl
      rw [ObservationFields.withTotal_tokens_of_ne _ (by decide), ht] at hi ho
      exact ⟨hi, ho⟩
  · intro h
    have hsum : ∀ v, a.sum? = some v →
        a.tokens .totalTokens = none ∨ a.tokens .totalTokens = some v := by
      intro v hv
      obtain ⟨i, o, hi, ho, rfl⟩ := ObservationFields.sum?_eq_some.mp hv
      rw [ht] at hi ho ⊢
      exact h.total i o hi ho
    refine ⟨by simpa [hp] using h.provider_ne, ?_, ?_, ?_, by simp [hm]⟩
    · intro n v hv
      by_cases hn : n = .totalTokens
      · subst hn
        rw [ObservationFields.withTotal_total] at hv
        cases htot : a.tokens .totalTokens with
        | some w =>
          rw [htot] at hv
          cases hv
          exact h.nonneg _ v (ht ▸ htot)
        | none =>
          rw [htot, Option.none_or] at hv
          obtain ⟨i, o, hi, ho, rfl⟩ := ObservationFields.sum?_eq_some.mp hv
          exact Int.add_nonneg (h.nonneg _ i (ht ▸ hi)) (h.nonneg _ o (ht ▸ ho))
      · rw [ObservationFields.withTotal_tokens_of_ne _ hn, ht] at hv
        exact h.nonneg n v hv
    · intro v hv
      rw [ObservationFields.withTotal_sum?] at hv
      rw [ObservationFields.withTotal_total]
      rcases hsum v hv with htot | htot
      · rw [htot, Option.none_or, hv]
      · rw [htot, Option.some_or]
    · intro hcomp n hcore
      rw [ObservationFields.withTotal_complete, hc] at hcomp
      obtain ⟨hi, ho⟩ := h.parts_known hcomp
      cases n with
      | inputTokens =>
        rw [ObservationFields.withTotal_tokens_of_ne _ (by decide), ht]
        exact hi
      | outputTokens =>
        rw [ObservationFields.withTotal_tokens_of_ne _ (by decide), ht]
        exact ho
      | totalTokens =>
        obtain ⟨i, hi⟩ := Option.isSome_iff_exists.mp hi
        obtain ⟨o, ho⟩ := Option.isSome_iff_exists.mp ho
        have hs : a.sum? = some (i + o) :=
          ObservationFields.sum?_eq_some.mpr ⟨i, o, ht ▸ hi, ht ▸ ho, rfl⟩
        rw [ObservationFields.withTotal_total, hs]
        cases a.tokens .totalTokens <;> rfl
      | cacheReadInputTokens | cacheWriteInputTokens | reasoningOutputTokens => cases hcore

end UsageObservation

end KolegaCode.Usage
