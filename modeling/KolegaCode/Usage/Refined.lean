import KolegaCode.Lib.JsonDict
import KolegaCode.Usage.Observation

/-!
# Usage — refining evidence

What `UsageObservation.refined_by` keeps of the older evidence: refinement should not raise, be
complete where one of the two observations is, know what the older one knew, keep the core counts
of a complete one, and change nothing when the same evidence comes again.
-/

namespace KolegaCode.Usage

/-! ### What an observation knows -/

/-- The fields of an observation that need not be known. -/
inductive EvidenceField
  | token (n : TokenField)
  | model
  | cost
  | unavailableReason
  deriving DecidableEq, Repr

/-- The field is not `None`. -/
def ObservationFields.knows (a : ObservationFields) : EvidenceField → Bool
  | .token n => (a.tokens n).isSome
  | .model => a.model.isSome
  | .cost => a.cost.isSome
  | .unavailableReason => a.unavailableReason.isSome

attribute [ext] ObservationFields

attribute [ext] ObservationFields

namespace UsageObservation

/-- What a refinement is to do. -/
structure Refines (older newer result : UsageObservation) : Prop where
  complete : result.complete = true ↔ older.complete = true ∨ newer.complete = true
  known : ∀ f, older.knows f = true → result.knows f = true
  core : older.complete = true → newer.complete = false →
    ∀ n : TokenField, n.core = true → result.tokens n = older.tokens n
  again : refinedBy result newer = .ok result

/-- Both are partial, the older one has a total, the newer one brings a part, and a part is still
missing. -/
def DropsTotal (self newer : ObservationFields) : Prop :=
  self.complete = false ∧ newer.complete = false ∧ (self.tokens .totalTokens).isSome ∧
    ((newer.tokens .inputTokens).isSome ∨ (newer.tokens .outputTokens).isSome) ∧
      ((newer.tokens .inputTokens).or (self.tokens .inputTokens) = none ∨
        (newer.tokens .outputTokens).or (self.tokens .outputTokens) = none)

/-- The newer one is complete and has no reason, the older one has. -/
def ClearsReason (self newer : ObservationFields) : Prop :=
  newer.complete = true ∧ newer.unavailableReason = none ∧ self.unavailableReason.isSome

/-! ### The refined fields -/

variable {a : ObservationFields} {n : TokenField} {α : Type}

section

variable {self newer result : UsageObservation}

theorem make_of_withTotal {o : UsageObservation} (h : a.withTotal = o.toObservationFields) :
    make a = .ok o := by
  obtain ⟨o', ho'⟩ := make_ok_iff.mpr (h ▸ o.valid)
  have hfields := (make_eq_ok ho').trans h
  rw [ho']
  cases o
  cases o'
  cases hfields
  rfl

theorem refinedBy_eq_ok (h : refinedBy self newer = .ok result) :
    result.toObservationFields = (refinedFields self newer).withTotal :=
  make_eq_ok h

theorem refinedFields_tokens_of_ne (hn : n ≠ .totalTokens) :
    (refinedFields self newer).tokens n = mergedTokens self newer n := by
  unfold refinedFields
  split
  · exact Function.update_of_ne hn _ _
  · rfl

theorem refinedFields_total :
    (refinedFields self newer).tokens .totalTokens =
      if totalAnew self newer then none else mergedTokens self newer .totalTokens := by
  unfold refinedFields
  dsimp only
  split
  · exact Function.update_self _ _ _
  · rfl

theorem tokens_of_ne (h : refinedBy self newer = .ok result) (hn : n ≠ .totalTokens) :
    result.tokens n = mergedTokens self newer n := by
  rw [refinedBy_eq_ok h, ObservationFields.withTotal_tokens_of_ne _ hn,
    refinedFields_tokens_of_ne hn]

theorem tokens_total (h : refinedBy self newer = .ok result) :
    result.tokens .totalTokens =
      (if totalAnew self newer then none else mergedTokens self newer .totalTokens).or
        result.sum? := by
  rw [refinedBy_eq_ok h, ObservationFields.withTotal_total, refinedFields_total,
    ObservationFields.withTotal_sum?]

theorem refined_complete (h : refinedBy self newer = .ok result) :
    result.complete = (self.complete || newer.complete) := by
  rw [refinedBy_eq_ok h, ObservationFields.withTotal_complete]
  rfl

theorem withTotal_eq (a : ObservationFields) :
    a.withTotal = { a with tokens := a.withTotal.tokens } := by
  unfold ObservationFields.withTotal
  split <;> rfl

section

variable (h : refinedBy self newer = .ok result)
include h

theorem refined_reason :
    result.unavailableReason =
      if newer.complete then newer.unavailableReason
      else if self.complete then self.unavailableReason
      else newer.unavailableReason.or self.unavailableReason := by
  rw [refinedBy_eq_ok h, withTotal_eq]
  rfl

theorem refined_model :
    result.model = newer.model.or self.model := by
  rw [refinedBy_eq_ok h, withTotal_eq]
  rfl

theorem refined_cost :
    result.cost = newer.cost.or self.cost := by
  rw [refinedBy_eq_ok h, withTotal_eq]
  rfl

theorem refined_pricingQuantities :
    result.pricingQuantities = Json.update self.pricingQuantities newer.pricingQuantities := by
  rw [refinedBy_eq_ok h, withTotal_eq]
  rfl

end

end

/-! ### The same evidence again -/

section

variable {self newer result : UsageObservation}

private theorem or_or_self (a b : Option α) : a.or (a.or b) = a.or b := by
  cases a <;> rfl

private theorem or_self_or (a b : Option α) : (a.or b).or b = a.or b := by
  cases a <;> cases b <;> rfl

section

variable (h : refinedBy self newer = .ok result)
include h

theorem mergedTokens_again (hn : n ≠ .totalTokens) :
    mergedTokens result newer n = mergedTokens self newer n := by
  have htokens := tokens_of_ne h hn
  unfold mergedTokens at htokens ⊢
  rw [htokens, refined_complete h]
  cases newer.complete with
  | true => simp [or_or_self]
  | false =>
    cases self.complete with
    | false => simp [or_or_self]
    | true =>
      cases n.core with
      | true => simp
      | false => simp [or_or_self]

theorem totalAnew_again :
    totalAnew result newer = totalAnew self newer := by
  unfold totalAnew
  rw [refined_complete h]
  cases self.complete <;> cases newer.complete <;> rfl

theorem sum?_again :
    (refinedFields result newer).sum? = result.sum? := by
  simp only [ObservationFields.sum?, refinedFields_tokens_of_ne (n := .inputTokens) (by decide),
    refinedFields_tokens_of_ne (n := .outputTokens) (by decide),
    mergedTokens_again h (n := .inputTokens) (by decide),
    mergedTokens_again h (n := .outputTokens) (by decide), tokens_of_ne h (n := .inputTokens) (by decide),
    tokens_of_ne h (n := .outputTokens) (by decide)]

theorem total_again :
    (refinedFields result newer).withTotal.tokens .totalTokens = result.tokens .totalTokens := by
  rw [ObservationFields.withTotal_total, refinedFields_total, totalAnew_again h, sum?_again h]
  by_cases hanew : totalAnew self newer = true
  · rw [if_pos hanew, tokens_total h, if_pos hanew]
  rw [if_neg hanew]
  have htotal := tokens_total h
  rw [if_neg hanew] at htotal
  unfold mergedTokens at htotal ⊢
  rw [refined_complete h]
  cases hn : newer.complete with
  | true =>
    simp only [hn, Bool.not_true, Bool.and_false, Bool.false_and, Bool.false_eq_true, if_false]
      at htotal ⊢
    rw [htotal, ← Option.or_assoc, or_or_self, or_self_or]
  | false =>
    cases hs : self.complete with
    | true =>
      simp only [hn, hs] at htotal ⊢
      rw [htotal]
      exact or_self_or _ _
    | false =>
      simp only [hn, hs, Bool.false_and, Bool.false_eq_true, if_false, Bool.or_self] at htotal ⊢
      rw [htotal, ← Option.or_assoc, or_or_self, or_self_or]

theorem reason_again :
    (refinedFields result newer).unavailableReason = result.unavailableReason := by
  rw [refined_reason h]
  simp only [refinedFields, refined_complete h, refined_reason h]
  cases newer.complete <;> cases self.complete <;> simp [or_or_self]

/-- **The same evidence a second time** changes nothing. -/
theorem refinedBy_again :
    refinedBy result newer = .ok result := by
  refine make_of_withTotal ?_
  rw [withTotal_eq]
  ext : 1
  case provider => rfl
  case model => simp only [refinedFields, refined_model h, or_or_self]
  case tokens =>
    ext1 n
    by_cases hn : n = .totalTokens
    · rw [hn]
      exact total_again h
    · rw [ObservationFields.withTotal_tokens_of_ne _ hn, refinedFields_tokens_of_ne hn,
        mergedTokens_again h hn, tokens_of_ne h hn]
  case complete =>
    simp only [refinedFields, refined_complete h]
    cases self.complete <;> cases newer.complete <;> rfl
  case cost => simp only [refinedFields, refined_cost h, or_or_self]
  case pricingQuantities =>
    rw [refined_pricingQuantities h]
    simp only [refinedFields, refined_pricingQuantities h]
    exact Json.update_update _ _
  case unavailableReason => exact reason_again h

end

end

/-! ### When refinement keeps what was known -/

section

variable {self newer result : UsageObservation}

private theorem isSome_or {a b : Option α} (h : b.isSome) : (a.or b).isSome := by
  cases a with
  | none => exact h
  | some _ => rfl

theorem mergedTokens_isSome (h : (self.tokens n).isSome) : (mergedTokens self newer n).isSome := by
  unfold mergedTokens
  split
  · exact h
  · exact isSome_or h

theorem sum?_eq_none :
    a.sum? = none ↔ a.tokens .inputTokens = none ∨ a.tokens .outputTokens = none := by
  unfold ObservationFields.sum?
  cases a.tokens .inputTokens <;> cases a.tokens .outputTokens <;> simp

section

variable (h : refinedBy self newer = .ok result)
include h

/-- A total that was known is lost in one way. -/
theorem total_known_iff (hself : (self.tokens .totalTokens).isSome) :
    (result.tokens .totalTokens).isSome ↔
      ¬ DropsTotal self.toObservationFields newer.toObservationFields := by
  by_cases hcomplete : result.complete = true
  · refine iff_of_true (result.valid.core_known hcomplete _ rfl) ?_
    rintro ⟨hs, hn, -⟩
    rw [refined_complete h, hs, hn] at hcomplete
    cases hcomplete
  rw [refined_complete h, Bool.or_eq_true, not_or, Bool.not_eq_true, Bool.not_eq_true]
    at hcomplete
  obtain ⟨hs, hn⟩ := hcomplete
  have hmerged : ∀ n, mergedTokens self newer n = (newer.tokens n).or (self.tokens n) := by
    intro n
    simp [mergedTokens, hs]
  have hanew : totalAnew self newer =
      ((newer.tokens .inputTokens).isSome || (newer.tokens .outputTokens).isSome) := by
    simp [totalAnew, hs]
  rw [tokens_total h]
  by_cases hpart :
      (newer.tokens .inputTokens).isSome = true ∨ (newer.tokens .outputTokens).isSome = true
  · rw [hanew, if_pos ((Bool.or_eq_true _ _).mpr hpart), Option.none_or,
      Option.isSome_iff_ne_none, Ne, sum?_eq_none, tokens_of_ne h (n := .inputTokens) (by decide),
      tokens_of_ne h (n := .outputTokens) (by decide), hmerged, hmerged]
    exact not_congr ⟨fun hnone => ⟨hs, hn, hself, hpart, hnone⟩, fun hdrops => hdrops.2.2.2.2⟩
  · rw [hanew, if_neg (mt (Bool.or_eq_true _ _).mp hpart), hmerged]
    refine iff_of_true ?_ fun hdrops => hpart hdrops.2.2.2.1
    rw [Option.or_assoc]
    cases newer.tokens .totalTokens with
    | some v => rfl
    | none =>
      obtain ⟨v, hv⟩ := Option.isSome_iff_exists.mp hself
      rw [hv]
      rfl

/-- A reason that was known is lost in one way. -/
theorem reason_known_iff (hself : self.unavailableReason.isSome) :
    result.unavailableReason.isSome ↔
      ¬ ClearsReason self.toObservationFields newer.toObservationFields := by
  rw [refined_reason h]
  by_cases hn : newer.complete = true
  · rw [if_pos hn, Option.isSome_iff_ne_none]
    exact not_congr ⟨fun hnone => ⟨hn, hnone, hself⟩, fun hclears => hclears.2.1⟩
  · rw [if_neg hn]
    refine iff_of_true ?_ fun hclears => hn hclears.1
    split
    · exact hself
    · exact isSome_or hself

/-- A complete observation keeps its core counts against a partial one. -/
theorem core_kept (hs : self.complete = true)
    (hn : newer.complete = false) (hcore : n.core = true) : result.tokens n = self.tokens n := by
  have hmerged : mergedTokens self newer n = self.tokens n := by
    simp [mergedTokens, hs, hn, hcore]
  by_cases htotal : n = .totalTokens
  · subst htotal
    obtain ⟨v, hv⟩ := Option.isSome_iff_exists.mp (self.valid.core_known hs .totalTokens rfl)
    have hanew : ¬ totalAnew self newer = true := by simp [totalAnew, hs, hn]
    rw [tokens_total h, if_neg hanew, hmerged, hv]
    rfl
  · rw [tokens_of_ne h htotal, hmerged]

end

/-- **When refinement does what it is to do.**  It returns, and keeps what was known, unless the
totals of two partial observations clash, a total is dropped that cannot be computed anew, or a
complete observation clears a reason. -/
theorem refines_iff (self newer : UsageObservation) :
    (∃ result, refinedBy self newer = .ok result ∧ Refines self newer result) ↔
      ¬ Clash self.toObservationFields newer.toObservationFields ∧
        ¬ DropsTotal self.toObservationFields newer.toObservationFields ∧
          ¬ ClearsReason self.toObservationFields newer.toObservationFields := by
  constructor
  · rintro ⟨result, h, hrefines⟩
    refine ⟨fun hclash => ?_, fun hdrops => ?_, fun hclears => ?_⟩
    · obtain ⟨e, he⟩ := (refinedBy_error_iff self newer).mpr hclash
      cases h.symm.trans he
    · have hself := hdrops.2.2.1
      exact (total_known_iff h hself).mp (hrefines.known (.token .totalTokens) hself) hdrops
    · have hself := hclears.2.2
      exact (reason_known_iff h hself).mp (hrefines.known .unavailableReason hself) hclears
  · rintro ⟨hclash, hdrops, hclears⟩
    cases h : refinedBy self newer with
    | error e => exact absurd ((refinedBy_error_iff self newer).mp ⟨e, h⟩) hclash
    | ok result =>
      refine ⟨result, rfl, ?_, fun f hf => ?_, fun hs hn n => core_kept h hs hn, refinedBy_again h⟩
      · rw [refined_complete h, Bool.or_eq_true]
      · cases f with
        | token n =>
          by_cases hn : n = .totalTokens
          · subst hn
            exact (total_known_iff h hf).mpr hdrops
          · rw [ObservationFields.knows, tokens_of_ne h hn]
            exact mergedTokens_isSome hf
        | model =>
          rw [ObservationFields.knows, refined_model h]
          exact isSome_or hf
        | cost =>
          rw [ObservationFields.knows, refined_cost h]
          exact isSome_or hf
        | unavailableReason => exact (reason_known_iff h hf).mpr hclears

end

/-- One token in and one out, as a streamed event has it. -/
def parts : UsageObservation where
  provider := "openai"
  tokens
    | .inputTokens | .outputTokens => some 1
    | .totalTokens => some 2
    | _ => none
  valid := by
    refine ⟨by simp, fun n v hv => ?_, fun v hv => ?_, by simp, by simp⟩
    · cases n <;> cases hv <;> decide
    · cases hv
      rfl

/-- A total and nothing else. -/
def onlyTotal : UsageObservation where
  provider := "openai"
  tokens
    | .totalTokens => some 3
    | _ => none
  valid := by
    refine ⟨by simp, fun n v hv => ?_, fun v hv => ?_, by simp, by simp⟩
    · cases n <;> cases hv
      decide
    · cases hv

/-- A total that is not the sum of the parts: refinement raises. -/
theorem not_refines_clashing :
    ¬ ∀ older newer : UsageObservation,
      ∃ result, refinedBy older newer = .ok result ∧ Refines older newer result := by
  intro h
  obtain ⟨result, hok, -⟩ := h parts onlyTotal
  have hclash : Clash parts.toObservationFields onlyTotal.toObservationFields :=
    ⟨rfl, rfl, rfl, rfl, 2, 3, rfl, rfl, by decide⟩
  obtain ⟨e, he⟩ := (refinedBy_error_iff parts onlyTotal).mpr hclash
  cases hok.symm.trans he

end UsageObservation

end KolegaCode.Usage
