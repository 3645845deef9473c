import KolegaCode.Usage.Observation

/-!
# Usage — normalised usage

`normalize_usage` reads the counts out of the metadata of a provider.  A provider belongs to one of
three families, each with names and conventions of its own.  Counts that are added up have to be
right, or the usage is not reported; counts that only inform are dropped where they are wrong.  Two
providers write `-1` where no input was counted, and it is read as zero.
-/

namespace KolegaCode.Usage

/-! ### Metadata -/

/-- What normalisation sees of a value in the metadata: `None`, an integer, or a value of any other
type, of which it only asks whether it equals `-1`. -/
inductive RawValue
  | null
  | int (n : Int)
  | other (equalsSentinel : Bool)
  deriving DecidableEq, Repr

/-- The metadata of a provider, as `metadata.get` reads it. -/
abbrev Metadata := String → Option RawValue

def reasonNotReported : String := "provider_did_not_report_usage"

def reasonMalformed : String := "provider_reported_malformed_usage"

def anthropicUsageProviders : List String :=
  ["anthropic", "moonshot", "minimax", "zai", "kimi_coding", "thinking_machines", "tinker"]

def openaiUsageProviders : List String :=
  ["openai", "openai_chatgpt", "together", "groq", "fireworks", "llama", "xai", "dashscope",
    "deepseek", "ollama_cloud", "cloudflare_workers_ai", "openrouter", "perplexity_agent",
    "mistral", "refuseless"]

def googleUsageProviders : List String := ["google"]

/-- The providers whose APIs write `-1` for no uncached input. -/
def zeroInputSentinelProviders : List String := ["kimi_coding", "moonshot"]

def zeroInputSentinel : Int := -1

/-- The providers whose output does not include the reasoning. -/
def outputExcludesReasoningProviders : List String := ["xai"]

/-- The provider is an endpoint a user has set up. -/
def isCustom (providerName : String) : Bool := "custom:".toList.isPrefixOf providerName.toList

/-! ### Reading counts -/

/-- `_strict_nonneg_int`. -/
def strictNonnegInt : RawValue → Option Int
  | .int n => if 0 ≤ n then some n else none
  | _ => none

/-- `_classify`: the count, and whether it is malformed. -/
def classify (metadata : Metadata) (key : String) : Option Int × Bool :=
  match metadata key with
  | none | some .null => (none, false)
  | some raw => (strictNonnegInt raw, (strictNonnegInt raw).isNone)

/-- The counts that were read, by their keys. -/
abbrev Values := String → Option Int

/-- `_read_counts`; the error is the reason why there is no usage. -/
def readCounts (metadata : Metadata) (coreKeys arithmeticKeys informationalKeys : List String) :
    Except String Values :=
  if (coreKeys ++ arithmeticKeys).any fun key => (classify metadata key).2 then
    .error reasonMalformed
  else if coreKeys.any fun key => (classify metadata key).1.isNone then .error reasonNotReported
  else
    .ok fun key =>
      if key ∈ coreKeys ++ arithmeticKeys ++ informationalKeys then (classify metadata key).1
      else none

/-- `_check_subset`. -/
def checkSubset (values : Values) (subsetKey : String) (bound : Int) : Option Int :=
  (values subsetKey).filter (· ≤ bound)

/-! ### The families -/

/-- `_unreported`. -/
def unreported (provider : String) (model : Option String) (reason : String) : NormalizedUsage where
  provider
  model
  reported := false
  tokens := fun _ => none
  unavailableReason := some reason

/-- The usage that is reported, with its total. -/
def reportedUsage (provider : String) (model : Option String) (input output : Int)
    (cacheRead cacheWrite reasoning : Option Int) : NormalizedUsage where
  provider
  model
  reported := true
  tokens
    | .inputTokens => some input
    | .outputTokens => some output
    | .totalTokens => some (input + output)
    | .cacheReadInputTokens => cacheRead
    | .cacheWriteInputTokens => cacheWrite
    | .reasoningOutputTokens => reasoning
  unavailableReason := none

/-- `metadata.get("input_tokens") == -1`. -/
def isSentinel : Option RawValue → Bool
  | some (.int n) => n = zeroInputSentinel
  | some (.other equalsSentinel) => equalsSentinel
  | _ => false

/-- The metadata with the sentinel read as zero. -/
def withoutSentinel (metadata : Metadata) (provider : String) : Metadata :=
  if provider ∈ zeroInputSentinelProviders ∧ isSentinel (metadata "input_tokens") then
    Function.update metadata "input_tokens" (some (.int 0))
  else metadata

/-- `_normalize_anthropic`. -/
def normalizeAnthropic (metadata : Metadata) (provider : String) (model : Option String) :
    NormalizedUsage :=
  -- the input does not include what was read from or written to the cache
  match readCounts (withoutSentinel metadata provider) ["input_tokens", "output_tokens"]
      ["cache_read_input_tokens", "cache_write_input_tokens"] ["reasoning_output_tokens"] with
  | .error reason => unreported provider model reason
  | .ok values =>
    let cacheRead := values "cache_read_input_tokens"
    let cacheWrite := values "cache_write_input_tokens"
    let inputTokens :=
      (values "input_tokens").getD 0 + cacheRead.getD 0 + cacheWrite.getD 0
    let outputTokens := (values "output_tokens").getD 0
    reportedUsage provider model inputTokens outputTokens cacheRead cacheWrite
      (checkSubset values "reasoning_output_tokens" outputTokens)

/-- `_normalize_openai`. -/
def normalizeOpenai (metadata : Metadata) (provider : String) (model : Option String) :
    NormalizedUsage :=
  let reasoningIsArithmetic := provider ∈ outputExcludesReasoningProviders
  let reasoningKey := ["reasoning_output_tokens"]
  match readCounts metadata ["prompt_tokens", "completion_tokens"]
      ("cache_write_input_tokens" :: if reasoningIsArithmetic then reasoningKey else [])
      ("cache_read_input_tokens" :: if reasoningIsArithmetic then [] else reasoningKey) with
  | .error reason => unreported provider model reason
  | .ok values =>
    let cacheWrite := values "cache_write_input_tokens"
    let inputTokens := (values "prompt_tokens").getD 0 + cacheWrite.getD 0
    let completion := (values "completion_tokens").getD 0
    let outputTokens :=
      if reasoningIsArithmetic then completion + (values "reasoning_output_tokens").getD 0
      else completion
    let reasoning :=
      if reasoningIsArithmetic then values "reasoning_output_tokens"
      else checkSubset values "reasoning_output_tokens" outputTokens
    reportedUsage provider model inputTokens outputTokens
      (checkSubset values "cache_read_input_tokens" inputTokens) cacheWrite reasoning

/-- `_normalize_google`. -/
def normalizeGoogle (metadata : Metadata) (provider : String) (model : Option String) :
    NormalizedUsage :=
  -- the prompt includes what was cached, the candidates do not include the thoughts
  match readCounts metadata ["prompt_token_count", "candidates_token_count"]
      ["thoughts_token_count", "tool_use_prompt_token_count"] ["cached_content_token_count"] with
  | .error reason => unreported provider model reason
  | .ok values =>
    let thoughts := values "thoughts_token_count"
    let inputTokens :=
      (values "prompt_token_count").getD 0 + (values "tool_use_prompt_token_count").getD 0
    let outputTokens := (values "candidates_token_count").getD 0 + thoughts.getD 0
    reportedUsage provider model inputTokens outputTokens
      (checkSubset values "cached_content_token_count" inputTokens) none thoughts

/-- The metadata is in Anthropic's shape. -/
def anthropicShaped (metadata : Metadata) (providerName : String) : Prop :=
  providerName ∈ anthropicUsageProviders ∨
    isCustom providerName ∧ (metadata "input_tokens").isSome

instance (metadata : Metadata) (providerName : String) :
    Decidable (anthropicShaped metadata providerName) :=
  inferInstanceAs (Decidable (_ ∨ _))

/-- The metadata is in OpenAI's shape, when it is not in Anthropic's. -/
def openaiShaped (providerName : String) : Prop :=
  providerName ∈ openaiUsageProviders ∨ isCustom providerName

instance (providerName : String) : Decidable (openaiShaped providerName) :=
  inferInstanceAs (Decidable (_ ∨ _))

/-- The `ValueError` for a provider of no family. -/
inductive NormalizeError
  | noFamily (providerName : String)
  deriving DecidableEq, Repr

/-- `normalize_usage`. -/
def normalizeUsage (usageMetadata : Option Metadata) (providerName : String)
    (model : Option String) : Except NormalizeError NormalizedUsage :=
  let metadata := usageMetadata.getD fun _ => none
  if anthropicShaped metadata providerName then .ok (normalizeAnthropic metadata providerName model)
  else if openaiShaped providerName then .ok (normalizeOpenai metadata providerName model)
  else if providerName ∈ googleUsageProviders then
    .ok (normalizeGoogle metadata providerName model)
  else .error (.noFamily providerName)

/-! ### What a usage says -/

/-- There is no usage. -/
structure NormalizedUsage.Unreported (u : NormalizedUsage) : Prop where
  reported : u.reported = false
  tokens : ∀ n, u.tokens n = none

/-- There is a usage, and its counts fit together. -/
structure NormalizedUsage.Consistent (u : NormalizedUsage) : Prop where
  reported : u.reported = true
  nonneg : ∀ n v, u.tokens n = some v → 0 ≤ v
  total : ∃ input output, u.tokens .inputTokens = some input ∧
    u.tokens .outputTokens = some output ∧ u.tokens .totalTokens = some (input + output)
  cacheRead : ∀ v input, u.tokens .cacheReadInputTokens = some v →
    u.tokens .inputTokens = some input → v ≤ input
  reasoning : ∀ v output, u.tokens .reasoningOutputTokens = some v →
    u.tokens .outputTokens = some output → v ≤ output

/-- The provider has a family. -/
def KnownProvider (providerName : String) : Prop :=
  providerName ∈ anthropicUsageProviders ∨ openaiShaped providerName ∨
    providerName ∈ googleUsageProviders

/-- The keys of the counts that are added up. -/
def addedKeys (metadata : Metadata) (providerName : String) : List String :=
  if anthropicShaped metadata providerName then
    ["input_tokens", "output_tokens", "cache_read_input_tokens", "cache_write_input_tokens"]
  else if openaiShaped providerName then
    ["prompt_tokens", "completion_tokens", "cache_write_input_tokens"] ++
      if providerName ∈ outputExcludesReasoningProviders then ["reasoning_output_tokens"] else []
  else
    ["prompt_token_count", "candidates_token_count", "thoughts_token_count",
      "tool_use_prompt_token_count"]

/-- There is a value at the key, and it is no count. -/
def Malformed (metadata : Metadata) (key : String) : Prop :=
  ∃ raw, metadata key = some raw ∧ raw ≠ .null ∧ ∀ n : Nat, raw ≠ .int n

/-- The value at the key is a provider's way to write zero. -/
def Sentinel (metadata : Metadata) (providerName key : String) : Prop :=
  providerName ∈ zeroInputSentinelProviders ∧ key = "input_tokens" ∧
    isSentinel (metadata key) = true

/-! ### Counts that were read -/

theorem strictNonnegInt_eq_some {raw : RawValue} {n : Int} :
    strictNonnegInt raw = some n ↔ raw = .int n ∧ 0 ≤ n := by
  cases raw with
  | null => simp [strictNonnegInt]
  | int m =>
    simp only [strictNonnegInt, Option.ite_none_right_eq_some, Option.some.injEq,
      RawValue.int.injEq]
    constructor
    · rintro ⟨h, rfl⟩
      exact ⟨rfl, h⟩
    · rintro ⟨rfl, h⟩
      exact ⟨h, rfl⟩
  | other b => simp [strictNonnegInt]

variable {key providerName : String} {u : NormalizedUsage} {usageMetadata : Option Metadata}

theorem nonneg_of_classify {metadata : Metadata} {n : Int}
    (h : (classify metadata key).1 = some n) : 0 ≤ n := by
  unfold classify at h
  split at h
  · cases h
  · cases h
  · exact (strictNonnegInt_eq_some.mp h).2

theorem classify_of_malformed {metadata : Metadata} (h : Malformed metadata key) :
    (classify metadata key).2 = true := by
  obtain ⟨raw, hraw, hnull, hint⟩ := h
  have hnone : strictNonnegInt raw = none := by
    by_contra hsome
    obtain ⟨n, hn⟩ := Option.ne_none_iff_exists'.mp hsome
    obtain ⟨hraw, hn⟩ := strictNonnegInt_eq_some.mp hn
    exact hint n.toNat (by rw [hraw, Int.toNat_of_nonneg hn])
  unfold classify
  split
  · next h => rw [hraw] at h; cases h
  · next h => rw [hraw] at h; exact absurd (Option.some.inj h) hnull
  · next h =>
    cases Option.some.inj (hraw.symm.trans h)
    rw [hnone]
    rfl

section

variable {metadata : Metadata} {coreKeys arithmeticKeys informationalKeys : List String}
  {values : Values}

/-- What is read is counts, the core among them, and nothing that is added up was malformed. -/
theorem readCounts_ok
    (h : readCounts metadata coreKeys arithmeticKeys informationalKeys = .ok values) :
    (∀ key n, values key = some n → 0 ≤ n) ∧
      ∀ key ∈ coreKeys ++ arithmeticKeys, ¬ Malformed metadata key := by
  unfold readCounts at h
  split at h
  · cases h
  next hmalformed =>
  split at h
  · cases h
  cases h
  refine ⟨fun key n hn => ?_, fun key hkey hbad => ?_⟩
  · beta_reduce at hn
    split at hn
    · exact nonneg_of_classify hn
    · cases hn
  · exact hmalformed (List.any_eq_true.mpr ⟨key, hkey, classify_of_malformed hbad⟩)

theorem getD_nonneg (h : ∀ key n, values key = some n → 0 ≤ n) (key : String) :
    0 ≤ (values key).getD 0 := by
  cases hv : values key with
  | none => exact Int.le_refl 0
  | some n => exact h key n hv

theorem checkSubset_eq_some {bound n : Int} :
    checkSubset values key bound = some n ↔ values key = some n ∧ n ≤ bound := by
  rw [checkSubset, Option.filter_eq_some_iff, decide_eq_true_iff]

end

/-! ### The result is sound -/

section

variable (metadata : Metadata) (provider : String) (model : Option String)

theorem unreported_unreported (reason : String) : (unreported provider model reason).Unreported :=
  ⟨rfl, fun _ => rfl⟩

variable {provider model}

theorem reportedUsage_consistent {input output : Int} {cacheRead cacheWrite reasoning : Option Int}
    (hinput : 0 ≤ input) (houtput : 0 ≤ output)
    (hread : ∀ v, cacheRead = some v → 0 ≤ v ∧ v ≤ input) (hwrite : ∀ v, cacheWrite = some v → 0 ≤ v)
    (hreasoning : ∀ v, reasoning = some v → 0 ≤ v ∧ v ≤ output) :
    (reportedUsage provider model input output cacheRead cacheWrite reasoning).Consistent where
  reported := rfl
  nonneg n v hv := by
    cases n with
    | inputTokens =>
      cases hv
      exact hinput
    | outputTokens =>
      cases hv
      exact houtput
    | totalTokens =>
      cases hv
      exact Int.add_nonneg hinput houtput
    | cacheReadInputTokens => exact (hread v hv).1
    | cacheWriteInputTokens => exact hwrite v hv
    | reasoningOutputTokens => exact (hreasoning v hv).1
  total := ⟨input, output, rfl, rfl, rfl⟩
  cacheRead v _ hv hi := by
    cases hi
    exact (hread v hv).2
  reasoning v _ hv ho := by
    cases ho
    exact (hreasoning v hv).2

/-- The result is sound, and nothing it adds up was malformed. -/
structure Sound (bad : String → Prop) (keys : List String) (u : NormalizedUsage) : Prop where
  shape : u.Unreported ∨ u.Consistent
  malformed : ∀ key ∈ keys, bad key → u.reported = false

variable {bad : String → Prop} {keys : List String}

theorem Sound.mono {bad' : String → Prop} (h : Sound bad keys u)
    (hbad : ∀ key, bad' key → bad key) : Sound bad' keys u :=
  ⟨h.shape, fun key hkey hb => h.malformed key hkey (hbad key hb)⟩

theorem sound_unreported (reason : String) : Sound bad keys (unreported provider model reason) :=
  ⟨.inl (unreported_unreported _ _ _), fun _ _ _ => rfl⟩

theorem sound_of_consistent (h : u.Consistent) (hbad : ∀ key ∈ keys, ¬ bad key) :
    Sound bad keys u :=
  ⟨.inr h, fun key hkey hb => absurd hb (hbad key hkey)⟩

variable (provider model)

/-- Only the sentinel is malformed before it is replaced and not after. -/
theorem malformed_withoutSentinel (h : Malformed metadata key)
    (hsentinel : ¬ Sentinel metadata provider key) :
    Malformed (withoutSentinel metadata provider) key := by
  unfold withoutSentinel
  split
  · next hs =>
    have hkey : key ≠ "input_tokens" := by
      rintro rfl
      exact hsentinel ⟨hs.1, rfl, hs.2⟩
    rw [Malformed, Function.update_of_ne hkey]
    exact h
  · exact h

theorem normalizeAnthropic_sound :
    Sound (fun key => Malformed metadata key ∧ ¬ Sentinel metadata provider key)
      ["input_tokens", "output_tokens", "cache_read_input_tokens", "cache_write_input_tokens"]
      (normalizeAnthropic metadata provider model) := by
  unfold normalizeAnthropic
  split
  · exact sound_unreported _
  next values h =>
  obtain ⟨hnonneg, hgood⟩ := readCounts_ok h
  have hvalue := getD_nonneg hnonneg
  have hin := hvalue "input_tokens"
  have hread := hvalue "cache_read_input_tokens"
  have hwrite := hvalue "cache_write_input_tokens"
  refine sound_of_consistent (reportedUsage_consistent ?_ (hvalue _) ?_ (hnonneg _) ?_) ?_
  · omega
  · intro v hv
    have hv0 := hnonneg _ v hv
    rw [hv, Option.getD_some]
    exact ⟨hv0, by omega⟩
  · intro v hv
    obtain ⟨hv, hle⟩ := checkSubset_eq_some.mp hv
    exact ⟨hnonneg _ v hv, hle⟩
  · intro key hkey hbad
    exact hgood key hkey (malformed_withoutSentinel metadata provider hbad.1 hbad.2)

theorem normalizeOpenai_sound :
    Sound (Malformed metadata)
      (["prompt_tokens", "completion_tokens", "cache_write_input_tokens"] ++
        if provider ∈ outputExcludesReasoningProviders then ["reasoning_output_tokens"] else [])
      (normalizeOpenai metadata provider model) := by
  generalize hread : readCounts metadata ["prompt_tokens", "completion_tokens"]
    ("cache_write_input_tokens" ::
      if provider ∈ outputExcludesReasoningProviders then ["reasoning_output_tokens"] else [])
    ("cache_read_input_tokens" ::
      if provider ∈ outputExcludesReasoningProviders then [] else ["reasoning_output_tokens"]) = r
  cases r with
  | error reason =>
    simp only [normalizeOpenai, hread]
    exact sound_unreported _
  | ok values =>
  simp only [normalizeOpenai, hread]
  obtain ⟨hnonneg, hgood⟩ := readCounts_ok hread
  have hvalue := getD_nonneg hnonneg
  have hprompt := hvalue "prompt_tokens"
  have hcompletion := hvalue "completion_tokens"
  have hwrite := hvalue "cache_write_input_tokens"
  have hreasoning := hvalue "reasoning_output_tokens"
  refine sound_of_consistent (reportedUsage_consistent ?_ ?_ ?_ (hnonneg _) ?_) hgood
  · omega
  · split
    · omega
    · exact hcompletion
  · intro v hv
    obtain ⟨hv, hle⟩ := checkSubset_eq_some.mp hv
    exact ⟨hnonneg _ v hv, hle⟩
  · intro v hv
    split at hv
    · next harith =>
      -- the reasoning is a part of the output that was added to it
      have hv0 := hnonneg _ v hv
      rw [if_pos harith, hv, Option.getD_some]
      exact ⟨hv0, by omega⟩
    · next harith =>
      obtain ⟨hv, hle⟩ := checkSubset_eq_some.mp hv
      rw [if_neg harith]
      exact ⟨hnonneg _ v hv, hle⟩

theorem normalizeGoogle_sound :
    Sound (Malformed metadata)
      ["prompt_token_count", "candidates_token_count", "thoughts_token_count",
        "tool_use_prompt_token_count"]
      (normalizeGoogle metadata provider model) := by
  unfold normalizeGoogle
  split
  · exact sound_unreported _
  next values h =>
  obtain ⟨hnonneg, hgood⟩ := readCounts_ok h
  have hvalue := getD_nonneg hnonneg
  have hprompt := hvalue "prompt_token_count"
  have htools := hvalue "tool_use_prompt_token_count"
  have hcandidates := hvalue "candidates_token_count"
  have hthoughts := hvalue "thoughts_token_count"
  refine sound_of_consistent (reportedUsage_consistent ?_ ?_ ?_ ?_ ?_) hgood
  · omega
  · omega
  · intro v hv
    obtain ⟨hv, hle⟩ := checkSubset_eq_some.mp hv
    exact ⟨hnonneg _ v hv, hle⟩
  · intro v hv
    cases hv
  · intro v hv
    have hv0 := hnonneg _ v hv
    rw [hv, Option.getD_some]
    exact ⟨hv0, by omega⟩

end

theorem exists_normalizeUsage (usageMetadata : Option Metadata) (model : Option String)
    (h : KnownProvider providerName) :
    ∃ u, normalizeUsage usageMetadata providerName model = .ok u ∧
      Sound (fun key => Malformed (usageMetadata.getD fun _ => none) key ∧
          ¬ Sentinel (usageMetadata.getD fun _ => none) providerName key)
        (addedKeys (usageMetadata.getD fun _ => none) providerName) u := by
  generalize hmetadata : (usageMetadata.getD fun _ => none) = metadata
  simp only [normalizeUsage, addedKeys, hmetadata]
  by_cases hanthropic : anthropicShaped metadata providerName
  · rw [if_pos hanthropic, if_pos hanthropic]
    exact ⟨_, rfl, normalizeAnthropic_sound metadata providerName model⟩
  rw [if_neg hanthropic, if_neg hanthropic]
  by_cases hopenai : openaiShaped providerName
  · rw [if_pos hopenai, if_pos hopenai]
    exact ⟨_, rfl, (normalizeOpenai_sound metadata providerName model).mono fun _ h => h.1⟩
  rw [if_neg hopenai, if_neg hopenai]
  have hgoogle : providerName ∈ googleUsageProviders :=
    (h.resolve_left fun h => hanthropic (.inl h)).resolve_left hopenai
  rw [if_pos hgoogle]
  exact ⟨_, rfl, (normalizeGoogle_sound metadata providerName model).mono fun _ h => h.1⟩

/-- Any other provider is a programming error. -/
theorem normalizeUsage_unknown (usageMetadata : Option Metadata) (model : Option String)
    (h : ¬ KnownProvider providerName) :
    normalizeUsage usageMetadata providerName model = .error (.noFamily providerName) := by
  simp only [normalizeUsage]
  rw [if_neg, if_neg, if_neg]
  · exact fun hgoogle => h (.inr (.inr hgoogle))
  · exact fun hopenai => h (.inr (.inl hopenai))
  · exact fun hanthropic => h (hanthropic.imp_right fun hcustom => .inl (.inr hcustom.1))

/-- **Normalisation is sound.**  A provider of no family is an error.  For any other the usage is
not reported and empty, or reported and consistent; and a malformed value among those added up,
which is not the provider's way to write zero, is never reported. -/
theorem normalizeUsage_sound (usageMetadata : Option Metadata) (providerName : String)
    (model : Option String) :
    (¬ KnownProvider providerName ∧
        normalizeUsage usageMetadata providerName model = .error (.noFamily providerName)) ∨
      KnownProvider providerName ∧
        ∃ u, normalizeUsage usageMetadata providerName model = .ok u ∧
          (u.Unreported ∨ u.Consistent) ∧
          ∀ key ∈ addedKeys (usageMetadata.getD fun _ => none) providerName,
            Malformed (usageMetadata.getD fun _ => none) key →
              ¬ Sentinel (usageMetadata.getD fun _ => none) providerName key →
                u.reported = false := by
  by_cases hknown : KnownProvider providerName
  · obtain ⟨u, hu, hsound⟩ := exists_normalizeUsage usageMetadata model hknown
    exact .inr ⟨hknown, u, hu, hsound.shape, fun key hkey hbad hsentinel =>
      hsound.malformed key hkey ⟨hbad, hsentinel⟩⟩
  · exact .inl ⟨hknown, normalizeUsage_unknown usageMetadata model hknown⟩

/-- What a Kimi endpoint reports when all of the prompt came from its cache. -/
def cacheHit : Metadata :=
  Function.update (Function.update (fun _ => none) "input_tokens" (some (.int (-1))))
    "output_tokens" (some (.int 1))

/-- A negative count is added up, and reported. -/
theorem reported_of_malformed :
    "input_tokens" ∈ addedKeys cacheHit "moonshot" ∧ Malformed cacheHit "input_tokens" ∧
      ∃ u, normalizeUsage (some cacheHit) "moonshot" none = .ok u ∧ u.reported = true := by
  refine ⟨by decide, ⟨.int (-1), rfl, by decide, fun n h => ?_⟩, _, rfl, rfl⟩
  cases n <;> cases h

/-! ### The observation of a usage -/

section

variable {metadata : Metadata} {provider : String} {model : Option String}

theorem normalizeAnthropic_provider :
    (normalizeAnthropic metadata provider model).provider = provider := by
  unfold normalizeAnthropic
  split <;> rfl

theorem normalizeOpenai_provider :
    (normalizeOpenai metadata provider model).provider = provider := by
  simp only [normalizeOpenai]
  split <;> rfl

theorem normalizeGoogle_provider :
    (normalizeGoogle metadata provider model).provider = provider := by
  unfold normalizeGoogle
  split <;> rfl

end

theorem normalizeUsage_provider {model : Option String}
    (h : normalizeUsage usageMetadata providerName model = .ok u) : u.provider = providerName := by
  simp only [normalizeUsage] at h
  split at h
  · cases h
    exact normalizeAnthropic_provider
  split at h
  · cases h
    exact normalizeOpenai_provider
  split at h
  · cases h
    exact normalizeGoogle_provider
  · cases h

theorem KnownProvider.ne_empty (h : KnownProvider providerName) : providerName ≠ "" := by
  rintro rfl
  rcases h with h | (h | h) | h
  all_goals exact absurd h (by decide)

theorem NormalizedUsage.Unreported.wellFormed (h : u.Unreported) (hprovider : u.provider ≠ "") :
    u.WellFormed where
  provider_ne := hprovider
  nonneg n v hv := by
    rw [h.tokens n] at hv
    cases hv
  total i _ hi _ := by
    rw [h.tokens .inputTokens] at hi
    cases hi
  parts_known hr := by
    rw [h.reported] at hr
    cases hr

theorem NormalizedUsage.Consistent.wellFormed (h : u.Consistent) (hprovider : u.provider ≠ "") :
    u.WellFormed where
  provider_ne := hprovider
  nonneg := h.nonneg
  total i o hi ho := by
    obtain ⟨input, output, hinput, houtput, htotal⟩ := h.total
    cases hinput.symm.trans hi
    cases houtput.symm.trans ho
    exact .inr htotal
  parts_known _ := by
    obtain ⟨input, output, hinput, houtput, -⟩ := h.total
    exact ⟨Option.isSome_of_eq_some hinput, Option.isSome_of_eq_some houtput⟩

theorem normalizeUsage_wellFormed {model : Option String}
    (h : normalizeUsage usageMetadata providerName model = .ok u) : u.WellFormed := by
  have hprovider := normalizeUsage_provider h
  have hknown : KnownProvider providerName := by
    by_contra hunknown
    cases h.symm.trans (normalizeUsage_unknown usageMetadata model hunknown)
  obtain ⟨u', hu', hsound⟩ := exists_normalizeUsage usageMetadata model hknown
  cases h.symm.trans hu'
  have hshape := hsound.shape
  have hne : u.provider ≠ "" := by
    rw [hprovider]
    exact hknown.ne_empty
  exact hshape.elim (·.wellFormed hne) (·.wellFormed hne)

/-- **An observation can be made** of every usage that normalisation returns, whatever the provider
sent. -/
theorem fromUsage_normalizeUsage {model : Option String}
    (h : normalizeUsage usageMetadata providerName model = .ok u) :
    ∃ o, UsageObservation.fromUsage u = .ok o :=
  (UsageObservation.fromUsage_ok_iff u).mpr (normalizeUsage_wellFormed h)

theorem fromUsage_normalizeUsage_cacheHit :
    ∃ u, normalizeUsage (some cacheHit) "moonshot" none = .ok u ∧
      ∃ o, UsageObservation.fromUsage u = .ok o :=
  have ⟨u, hu⟩ : ∃ u, normalizeUsage (some cacheHit) "moonshot" none = .ok u := ⟨_, rfl⟩
  ⟨u, hu, fromUsage_normalizeUsage hu⟩

end KolegaCode.Usage
