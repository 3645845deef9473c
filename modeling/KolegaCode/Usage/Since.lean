import KolegaCode.Usage.Settlement
import KolegaCode.Usage.Snapshot

/-!
# Usage — deltas

`UsageSnapshot.since`, what was used between two snapshots of one ledger.  A request comes to
another row when the model that answers is not the one that was requested; then the rows do not sum
to the totals (`rekeyed_rows`).
-/

namespace KolegaCode.Usage

open List
open Json (Dict get?)

/-! ### Deltas -/

def countFields : List CountField :=
  [.requests, .responses, .reported, .unreported, .failed, .open, .abandoned, .missing, .partials] ++
    tokenFields.map .tokens ++ tokenFields.map .knownRequests

@[simp] theorem mem_countFields (f : CountField) : f ∈ countFields := by
  cases f with
  | tokens n => simp [countFields]
  | knownRequests n => simp [countFields]
  | _ => simp [countFields]

/-- The counts that are cut off at zero. -/
def CountField.clamped : CountField → Bool
  | .missing | .partials => true
  | _ => false

/-- The difference of a counter; open requests are counted as they are now. -/
def deltaCounts (now earlier : Counts) : Counts
  | .open => now .open
  | .missing => max (now .missing - earlier .missing) 0
  | .partials => max (now .partials - earlier .partials) 0
  | f => now f - earlier f

def ProviderModelUsage.key (row : ProviderModelUsage) : String × String := (row.provider, row.model)

namespace UsageSnapshot

/-- The rows of a snapshot by provider and model. -/
def rowsByKey (u : UsageSnapshot) : Assoc (String × String) ProviderModelUsage :=
  Assoc.ofPairs (u.breakdown.map fun row => (row.key, row))

/-- A row of the delta: the whole row when it is new, and none when nothing has changed. -/
def sinceRow (earlier : UsageSnapshot) (row : ProviderModelUsage) : Option ProviderModelUsage :=
  match (rowsByKey earlier).get? row.key with
  | none => some row
  | some base =>
    let delta : ProviderModelUsage :=
      { provider := row.provider, model := row.model, counts := deltaCounts row.counts base.counts }
    if countFields.any fun f => delta.counts f ≠ 0 then some delta else none

/-- `UsageSnapshot.since`. -/
def since (self : UsageSnapshot) (earlier : Option UsageSnapshot) : UsageSnapshot :=
  match earlier with
  | none => self
  | some earlier =>
    if earlier.runId ≠ self.runId then self
    else
      { runId := self.runId
        counts := deltaCounts self.counts earlier.counts
        persistFailures := self.persistFailures - earlier.persistFailures
        breakdown := self.breakdown.filterMap (sinceRow earlier)
        revision := self.revision
        promptId := self.promptId }

end UsageSnapshot

/-! ### Records that continue -/

/-- The records of one ledger, each as it is later, and then new ones. -/
inductive Continues (R : RequestRecord → RequestRecord → Prop) :
    Assoc String RequestRecord → Assoc String RequestRecord → Prop
  | new (d : Assoc String RequestRecord) : Continues R [] d
  | later {id : String} {r r' : RequestRecord} {d d' : Assoc String RequestRecord} (h : R r r')
      (t : Continues R d d') : Continues R ((id, r) :: d) ((id, r') :: d')

namespace Continues

variable {R S : RequestRecord → RequestRecord → Prop} {d d' d'' : Assoc String RequestRecord}

theorem refl (hR : ∀ r, R r r) : ∀ d, Continues R d d
  | [] => .new []
  | (_, r) :: d => .later (hR r) (refl hR d)

theorem trans (hR : ∀ a b c, R a b → R b c → R a c) (h : Continues R d d')
    (h' : Continues R d' d'') : Continues R d d'' := by
  induction h generalizing d'' with
  | new d => exact .new d''
  | later h _ ih =>
    cases h' with
    | later h' t' => exact .later (hR _ _ _ h h') (ih t')

theorem set (hR : ∀ r, R r r) {id : String} {r' : RequestRecord}
    (h : ∀ r, d.get? id = some r → R r r') : Continues R d (d.set id r') := by
  induction d with
  | nil => exact .new _
  | cons p d ih =>
    obtain ⟨k, r⟩ := p
    rw [Assoc.set_cons]
    split
    · next hk => exact .later (h r (by rw [Assoc.get?_cons, if_pos hk])) (refl hR d)
    · next hk =>
      refine .later (hR r) (ih fun r hr => h r ?_)
      rw [Assoc.get?_cons, if_neg hk, hr]

/-- The relation of the records can be sharpened to what holds of them. -/
theorem imp (h : Continues R d d')
    (hS : ∀ id r r', (id, r) ∈ d → (id, r') ∈ d' → R r r' → S r r') : Continues S d d' := by
  induction h with
  | new d => exact .new d
  | later h _ ih =>
    refine .later (hS _ _ _ mem_cons_self mem_cons_self h) (ih ?_)
    intro id r r' hr hr'
    exact hS id r r' (mem_cons_of_mem _ hr) (mem_cons_of_mem _ hr')

theorem exists_later (h : Continues R d d') {r : RequestRecord} (hr : r ∈ d.map Prod.snd) :
    ∃ r' ∈ d'.map Prod.snd, R r r' := by
  induction h with
  | new d => cases hr
  | later h _ ih =>
    rcases mem_cons.mp hr with rfl | hr
    · exact ⟨_, mem_cons_self, h⟩
    · obtain ⟨r', hr', hR⟩ := ih hr
      exact ⟨r', mem_cons_of_mem _ hr', hR⟩

theorem sum_le {q : RequestRecord → Bool} {c : RequestRecord → Int} (h : Continues R d d')
    (hq : ∀ r r', R r r' → q r' = q r) (hc : ∀ r r', R r r' → c r ≤ c r') (h0 : ∀ r, 0 ≤ c r) :
    (((d.map Prod.snd).filter q).map c).sum ≤ (((d'.map Prod.snd).filter q).map c).sum := by
  induction h with
  | new d =>
    refine sum_nonneg fun x hx => ?_
    obtain ⟨r, -, rfl⟩ := mem_map.mp hx
    exact h0 r
  | @later id r r' d d' h _ ih =>
    by_cases hr : q r = true
    · have hr' : q r' = true := (hq r r' h).trans hr
      simpa [hr, hr'] using add_le_add (hc r r' h) ih
    · have hr' : ¬ q r' = true := fun e => hr ((hq r r' h).symm.trans e)
      simpa [hr, hr'] using ih

end Continues

/-! ### What only grows -/

/-- The counts a request never takes back. -/
def CountField.grows : CountField → Bool
  | .requests | .responses | .reported | .failed | .abandoned => true
  | .knownRequests n => n ≠ .totalTokens
  | _ => false

theorem indicator_le {p q : Prop} [Decidable p] [Decidable q] (h : p → q) :
    (if p then (1 : Int) else 0) ≤ if q then 1 else 0 := by
  by_cases hp : p
  · rw [if_pos hp, if_pos (h hp)]
  · rw [if_neg hp]
    split <;> decide

theorem contribution_nonneg (r : RequestRecord) (f : CountField) : 0 ≤ contribution r f := by
  have hite : ∀ (p : Prop) [Decidable p], (0 : Int) ≤ if p then 1 else 0 := by
    intro p _
    split <;> decide
  cases f with
  | tokens n =>
    simp only [contribution]
    cases ho : r.observation with
    | none => exact le_rfl
    | some o =>
      cases hn : o.tokens n with
      | none => simp [hn]
      | some v => simpa [hn] using o.valid.nonneg n v hn
  | requests => exact Int.one_nonneg
  | _ => exact hite _

/-- Counts of the observation that are known stay known, the total apart. -/
def KnownLater (r r' : RequestRecord) : Prop :=
  ∀ n : TokenField, n ≠ .totalTokens → (r.observation.bind (·.tokens n)).isSome = true →
    (r'.observation.bind (·.tokens n)).isSome = true

/-- What a record is later. -/
structure Grown (r r' : RequestRecord) : Prop where
  promptId : r'.promptId = r.promptId
  counts : ∀ f : CountField, f.grows = true → contribution r f ≤ contribution r' f

theorem Grown.refl (r : RequestRecord) : Grown r r := ⟨rfl, fun _ _ => le_rfl⟩

theorem Grown.trans {a b c : RequestRecord} (h : Grown a b) (h' : Grown b c) : Grown a c :=
  ⟨h'.promptId.trans h.promptId, fun f hf => (h.counts f hf).trans (h'.counts f hf)⟩

variable {o : UsageObservation} {r r' : RequestRecord} {f : CountField} {rows' : Rows}
  {a b : Counts}

theorem refinedBy_known {previous merged : UsageObservation}
    (h : previous.refinedBy o = .ok merged) {n : TokenField} (hn : n ≠ .totalTokens)
    (hk : (previous.tokens n).isSome = true) : (merged.tokens n).isSome = true := by
  have hm : merged.tokens n = UsageObservation.mergedTokens previous o n := by
    rw [UsageObservation.make_eq_ok h, ObservationFields.withTotal_tokens_of_ne _ hn]
    simp only [UsageObservation.refinedFields]
    split
    · exact Function.update_of_ne hn _ _
    · rfl
  rw [hm, UsageObservation.mergedTokens]
  split
  · exact hk
  · cases ho : o.tokens n with
    | none => rwa [Option.none_or]
    | some v => rfl

variable {h : Host}

theorem mergeObservation_known (hm : mergeObservation h r o = .ok (some r')) : KnownLater r r' := by
  obtain ⟨merged, rfl, ⟨hr, rfl⟩ | ⟨previous, hr, hmerged⟩⟩ := mergeObservation_eq_some hm
  · intro n _ hk
    rw [hr] at hk
    cases hk
  · intro n hn hk
    rw [hr] at hk
    exact refinedBy_known hmerged hn hk

/-- A request that is still open has only requested and known counts. -/
theorem grown_of_open (ho : r.state = .open) (hp : r'.promptId = r.promptId)
    (hk : KnownLater r r') : Grown r r' := by
  refine ⟨hp, fun f hf => ?_⟩
  cases f with
  | requests => exact le_rfl
  | responses | reported | failed | abandoned =>
    refine le_trans (le_of_eq ?_) (contribution_nonneg r' _)
    simp [contribution, ho]
  | knownRequests n =>
    have hn : n ≠ .totalTokens := by simpa [CountField.grows] using hf
    exact indicator_le (hk n hn)
  | unreported | «open» | missing | partials | tokens n => cases hf

theorem moves_grown {told : List (SettledRequest → Notification)} (hm : Moves h r r' told) :
    Grown r r' := by
  cases hm with
  | observed o m hm he =>
    subst he
    have hk := mergeObservation_known hm
    obtain ⟨merged, rfl, -⟩ := mergeObservation_eq_some hm
    refine ⟨rfl, fun f hf => ?_⟩
    cases f with
    | requests | responses | failed | abandoned => exact le_rfl
    | reported =>
      -- a reported usage is replaced by a reported usage only
      refine indicator_le fun hr => ⟨hr.1, ?_⟩
      rw [repriced_usage]
      by_cases hc : merged.complete = true
      · simp [hc, observedUsage]
      · simpa [hc] using hr.2
    | knownRequests n =>
      have hn : n ≠ .totalTokens := by simpa [CountField.grows] using hf
      exact indicator_le (hk n hn)
    | unreported | «open» | missing | partials | tokens n => cases hf
  | responded usage message m ho hm he =>
    subst he
    have hkept : m.promptId = r.promptId ∧ KnownLater r m := by
      refine mergeResponse_keeps (P := fun m => m.promptId = r.promptId ∧ KnownLater r m)
        ?_ ?_ hm
      · exact ⟨rfl, fun _ _ hk => hk⟩
      rintro o m' ⟨hp, hk⟩ hm'
      have hk' := mergeObservation_known hm'
      obtain ⟨merged, rfl, -⟩ := mergeObservation_eq_some hm'
      exact ⟨hp, fun n hn hr => hk' n hn (hk n hn hr)⟩
    exact grown_of_open ho hkept.1 hkept.2
  | closed t error ho _ he =>
    subst he
    exact grown_of_open ho rfl fun _ _ hk => hk

theorem step_continues (s : UsageLedger) (op : Op)
    (hfresh : ∀ id, op.minted = some id → s.records.get? id = none) :
    Continues Grown s.records (step h s op).records := by
  cases step_records h s op with
  | same he =>
    rw [he]
    exact Continues.refl Grown.refl _
  | begun id r hop _ _ _ he =>
    rw [he]
    refine Continues.set Grown.refl fun r' hr' => ?_
    rw [hfresh id hop] at hr'
    cases hr'
  | moved id r r' told hr hm he =>
    rw [he]
    refine Continues.set Grown.refl fun r₀ hr₀ => ?_
    rw [hr, Option.some.injEq] at hr₀
    exact hr₀ ▸ moves_grown hm
  | lost id r usage message e _ hr ho _ he =>
    rw [he]
    refine Continues.set Grown.refl fun r₀ hr₀ => ?_
    rw [hr, Option.some.injEq] at hr₀
    exact hr₀ ▸ grown_of_open ho rfl fun _ _ hk => hk

theorem run_continues {s : UsageLedger} {ops : List Op} (hf : Fresh s ops) :
    Continues Grown s.records (run h s ops).records := by
  induction ops generalizing s with
  | nil => exact Continues.refl Grown.refl _
  | cons op ops ih =>
    exact Continues.trans (fun _ _ _ => Grown.trans) (step_continues s op hf.head) (ih hf.tail)

theorem run_nodup {s : UsageLedger} (hs : (Assoc.keys s.records).Nodup) (ops : List Op) :
    (Assoc.keys (run h s ops).records).Nodup := by
  induction ops generalizing s with
  | nil => exact hs
  | cons op ops ih =>
    refine ih ?_
    cases step_records h s op with
    | same he => rwa [he]
    | begun id r _ _ _ _ he | moved id _ r _ _ _ he | lost id _ _ _ _ _ _ _ _ he =>
      rw [he]
      exact Assoc.nodup_keys_set hs id _

/-! ### The rows of a delta -/

theorem sum_filterMap {α β : Type} (F : α → Option β) (g : β → Int) (l : List α) :
    ((l.filterMap F).map g).sum = (l.map fun x => ((F x).map g).getD 0).sum := by
  induction l with
  | nil => rfl
  | cons x l ih =>
    cases hx : F x with
    | none => simp [hx, ih]
    | some y => simp [hx, ih]

section

variable {rows : Rows} {u : UsageSnapshot}

theorem rowsByKey_get? (hrows : (Assoc.keys rows).Nodup) (hu : u.breakdown = breakdownOf rows)
    (k : String × String) : u.rowsByKey.get? k = (rows.get? k).map (toRow k) := by
  have hperm := perm_insertionSort (fun a b : (String × String) × Tally => keyLe a.1 b.1) rows
  have hpairs : (u.breakdown.map fun row => (row.key, row)) =
      (rows.insertionSort fun a b => keyLe a.1 b.1).map fun p => (p.1, toRow p.1 p.2) := by
    rw [hu, breakdownOf, map_map]
    rfl
  have hsorted := (hperm.map Prod.fst).nodup_iff.mpr hrows
  rw [UsageSnapshot.rowsByKey, hpairs, Assoc.ofPairs_of_nodup, Assoc.get?_mapVal,
    Assoc.get?_perm hsorted hperm]
  rw [map_map]
  exact hsorted

theorem sinceRow_count (hrows : (Assoc.keys rows).Nodup) (hu : u.breakdown = breakdownOf rows)
    (row : ProviderModelUsage) (hf : f.clamped = false) :
    ((u.sinceRow row).map (·.counts f)).getD 0 =
      if f = .open then row.counts f else row.counts f - rowCount rows row.key f := by
  have hsub : ∀ {a b : Counts}, f ≠ .open → deltaCounts a b f = a f - b f := by
    intro a b ho
    cases f <;> first | rfl | exact absurd rfl ho | cases hf
  rw [UsageSnapshot.sinceRow, rowsByKey_get? hrows hu]
  cases hk : rows.get? row.key with
  | none =>
    simp only [Option.map_none, rowCount, hk, Option.getD_none, Option.map_some, Option.getD_some,
      sub_zero, ite_self]
  | some t =>
    simp only [Option.map_some, toRow]
    have hcount : deltaCounts row.counts t.counts f =
        if f = .open then row.counts f else row.counts f - rowCount rows row.key f := by
      by_cases ho : f = .open
      · rw [if_pos ho, ho]
        rfl
      · rw [if_neg ho, hsub ho, rowCount, hk, Option.getD_some]
    rw [← hcount]
    split
    · rfl
    · next hzero =>
      have hall : deltaCounts row.counts t.counts f = 0 := by
        by_contra hne
        exact hzero (any_eq_true.mpr ⟨f, mem_countFields f, by simpa using hne⟩)
      rw [hall]
      rfl

end

theorem breakdownOf_keys (rows : Rows) :
    ((breakdownOf rows).map ProviderModelUsage.key).Perm (Assoc.keys rows) := by
  rw [breakdownOf, map_map]
  exact (perm_insertionSort _ rows).map _

/-- **The rows of a delta.**  Where every row of the earlier snapshot is still there, they sum to
the difference of the totals. -/
theorem sum_sinceRows {rows : Rows} {u : UsageSnapshot} (hrows : (Assoc.keys rows).Nodup)
    (hu : u.breakdown = breakdownOf rows) (hrows' : (Assoc.keys rows').Nodup)
    (hsub : ∀ k ∈ Assoc.keys rows, k ∈ Assoc.keys rows') (hf : f.clamped = false) :
    (((breakdownOf rows').filterMap u.sinceRow).map (·.counts f)).sum =
      if f = .open then (rows'.map fun p => p.2.counts f).sum
      else (rows'.map fun p => p.2.counts f).sum - (rows.map fun p => p.2.counts f).sum := by
  have hnow : ((breakdownOf rows').map fun row => row.counts f).sum =
      (rows'.map fun p => p.2.counts f).sum := sum_breakdownOf (fun t => t.counts f) rows'
  rw [sum_filterMap]
  simp only [sinceRow_count hrows hu _ hf]
  by_cases ho : f = .open
  · simp only [ho, if_true]
    exact ho ▸ hnow
  · simp only [ho, if_false]
    have hbase : ((breakdownOf rows').map fun row => rowCount rows row.key f).sum =
        (rows.map fun p => p.2.counts f).sum := by
      have hks := (breakdownOf_keys rows').nodup_iff.mpr hrows'
      have hget := Assoc.sum_get? (fun t : Tally => t.counts f) hrows hks
        fun k hk => (breakdownOf_keys rows').mem_iff.mpr (hsub k hk)
      rw [map_map] at hget
      rw [← hget]
      congr 1
      refine map_congr_left fun row _ => ?_
      simp only [rowCount, Function.comp]
      cases rows.get? row.key <;> rfl
    rw [← hnow, ← hbase, eq_sub_iff_add_eq, ← sum_map_add]
    simp

/-! ### Along a run -/

namespace UsageLedger

/-- What a ledger has counted since an earlier point of its run. -/
def delta (promptId : Option String) (earlier now : UsageLedger) : UsageSnapshot :=
  (now.snapshot promptId).since (some (earlier.snapshot promptId))

/-- No request of the earlier ledger has come to another row. -/
def KeysKept (earlier now : UsageLedger) : Prop :=
  ∀ id r r', earlier.records.get? id = some r → now.records.get? id = some r' →
    rowKey r' = rowKey r

/-- No request of the earlier ledger counts for less. -/
def CountKept (f : CountField) (earlier now : UsageLedger) : Prop :=
  ∀ id r r', earlier.records.get? id = some r → now.records.get? id = some r' →
    contribution r f ≤ contribution r' f

end UsageLedger

open UsageLedger (delta KeysKept CountKept)

/-- What holds of the deltas between three points of a run. -/
structure DeltaLaws (promptId : Option String) (s₁ s₂ s₃ : UsageLedger) : Prop where
  counts_add : ∀ f : CountField, f.clamped = false → f ≠ .open →
    (delta promptId s₁ s₂).counts f + (delta promptId s₂ s₃).counts f =
      (delta promptId s₁ s₃).counts f
  persist_failures_add :
    (delta promptId s₁ s₂).persistFailures + (delta promptId s₂ s₃).persistFailures =
      (delta promptId s₁ s₃).persistFailures
  open_now : (delta promptId s₁ s₂).counts .open = (s₂.snapshot promptId).counts .open
  clamped_add : ∀ f : CountField, f.clamped = true →
    (delta promptId s₁ s₃).counts f ≤
      (delta promptId s₁ s₂).counts f + (delta promptId s₂ s₃).counts f
  nonneg : ∀ f : CountField, f.grows = true ∨ f.clamped = true ∨ f = .open →
    0 ≤ (delta promptId s₁ s₂).counts f
  persist_failures_nonneg : 0 ≤ (delta promptId s₁ s₂).persistFailures
  nonneg_of_kept : ∀ f : CountField, CountKept f s₁ s₂ → 0 ≤ (delta promptId s₁ s₂).counts f
  rows_sum : KeysKept s₁ s₂ → ∀ f : CountField, f.clamped = false →
    (delta promptId s₁ s₂).counts f =
      ((delta promptId s₁ s₂).breakdown.map fun row => row.counts f).sum
  rows_nonneg : KeysKept s₁ s₂ → ∀ f : CountField,
    f.grows = true ∨ f.clamped = true ∨ f = .open ∨ CountKept f s₁ s₂ →
      ∀ row ∈ (delta promptId s₁ s₂).breakdown, 0 ≤ row.counts f

/-- The part of the laws that is arithmetic. -/
theorem deltaCounts_add {c : Counts} (hf : f.clamped = false) (ho : f ≠ .open) :
    deltaCounts b a f + deltaCounts c b f = deltaCounts c a f := by
  cases f with
  | missing | partials => cases hf
  | «open» => exact absurd rfl ho
  | _ => simp only [deltaCounts]; ring

theorem deltaCounts_clamped {c : Counts} (hf : f.clamped = true) :
    0 ≤ deltaCounts b a f ∧ deltaCounts c a f ≤ deltaCounts b a f + deltaCounts c b f := by
  cases f with
  | missing | partials =>
    simp only [deltaCounts]
    omega
  | _ => cases hf

theorem deltaCounts_nonneg (hb : 0 ≤ b f) (hab : a f ≤ b f) : 0 ≤ deltaCounts b a f := by
  cases f with
  | missing | partials => exact (deltaCounts_clamped (c := a) rfl).1
  | «open» => exact hb
  | _ => exact sub_nonneg.mpr hab

/-- A ledger later in the run. -/
structure Later (s s' : UsageLedger) : Prop where
  runId : s'.runId = s.runId
  persistFailures : s.persistFailures ≤ s'.persistFailures
  records : Continues Grown s.records s'.records
  nodup : (Assoc.keys s.records).Nodup
  nodup' : (Assoc.keys s'.records).Nodup

theorem step_runId (s : UsageLedger) (op : Op) :
    (step h s op).runId = s.runId ∧ s.persistFailures ≤ (step h s op).persistFailures := by
  have hpub : ∀ id r notification, (s.publish h id r notification).runId = s.runId ∧
      s.persistFailures ≤ (s.publish h id r notification).persistFailures := by
    intro id r notification
    unfold UsageLedger.publish UsageLedger.notify
    split
    · exact ⟨rfl, Nat.le_succ _⟩
    · exact ⟨rfl, Nat.le_refl _⟩
  have hsame : s.runId = s.runId ∧ s.persistFailures ≤ s.persistFailures := ⟨rfl, Nat.le_refl _⟩
  cases op with
  | begin id startedAt provider model origin promptId context => exact hpub ..
  | recordResponse id usage message =>
    simp only [step, UsageLedger.recordResponse]
    split
    · exact hsame
    · split
      · exact hsame
      · split
        · exact hsame
        · exact hpub ..
  | recordFailure id error =>
    simp only [step, UsageLedger.recordFailure]
    split
    · exact hsame
    · split
      · exact hsame
      · exact hpub ..
  | recordAbandonment id =>
    simp only [step, UsageLedger.recordAbandonment]
    split
    · exact hsame
    · split
      · exact hsame
      · exact hpub ..
  | recordObservation id o =>
    simp only [step, UsageLedger.recordObservation]
    split
    · exact hsame
    · split
      · exact hsame
      · exact hsame
      · split
        · exact hsame
        · exact hpub ..
  | notePersistFailure => exact ⟨rfl, Nat.le_succ _⟩

theorem run_later {s : UsageLedger} (hs : (Assoc.keys s.records).Nodup) {ops : List Op}
    (hf : Fresh s ops) : Later s (run h s ops) := by
  refine ⟨?_, ?_, run_continues hf, hs, run_nodup hs ops⟩
  · clear hf hs
    induction ops generalizing s with
    | nil => rfl
    | cons op ops ih => exact ih.trans (step_runId s op).1
  · clear hf hs
    induction ops generalizing s with
    | nil => exact Nat.le_refl _
    | cons op ops ih => exact (step_runId s op).2.trans ih

section

variable {s s' : UsageLedger} {promptId : Option String}

@[simp] theorem snapshot_runId : (s.snapshot promptId).runId = s.runId := by
  unfold UsageLedger.snapshot
  split <;> rfl

theorem delta_eq (hr : s'.runId = s.runId) : delta promptId s s' =
    { runId := s'.runId
      counts := deltaCounts (s'.snapshot promptId).counts (s.snapshot promptId).counts
      persistFailures :=
        (s'.snapshot promptId).persistFailures - (s.snapshot promptId).persistFailures
      breakdown := (s'.snapshot promptId).breakdown.filterMap (s.snapshot promptId).sinceRow
      revision := (s'.snapshot promptId).revision
      promptId := (s'.snapshot promptId).promptId } := by
  unfold UsageLedger.delta UsageSnapshot.since
  simp only [snapshot_runId, hr, ne_eq, not_true_eq_false, if_false]

theorem snapshot_counts (hs : s.Summable promptId) (f : CountField) :
    (s.snapshot promptId).counts f =
      ((s.selected promptId).map fun r => contribution r f).sum := by
  obtain ⟨totals, rows, hsnap, hadded, -⟩ := snapshot_of_summable hs
  rw [hsnap]
  simpa using hadded.totals f

theorem snapshot_counts_nonneg (hs : s.Summable promptId) (f : CountField) :
    0 ≤ (s.snapshot promptId).counts f := by
  rw [snapshot_counts hs]
  refine sum_nonneg fun x hx => ?_
  obtain ⟨r, -, rfl⟩ := mem_map.mp hx
  exact contribution_nonneg r f

/-- What is known of a request's records by their identifier holds of the records in place. -/
theorem Later.sharpen (hl : Later s s') {S : RequestRecord → RequestRecord → Prop}
    (hS : ∀ id r r', s.records.get? id = some r → s'.records.get? id = some r' → S r r') :
    Continues (fun r r' => Grown r r' ∧ S r r') s.records s'.records :=
  hl.records.imp fun id r r' hr hr' hg =>
    ⟨hg, hS id r r' (Assoc.get?_of_mem hl.nodup hr) (Assoc.get?_of_mem hl.nodup' hr')⟩

/-- The selection of a prompt does not change. -/
theorem Grown.selected (hg : Grown r r') :
    (promptId.all fun p => r'.promptId = some p) = promptId.all fun p => r.promptId = some p := by
  rw [hg.promptId]

theorem snapshot_counts_le {S : RequestRecord → RequestRecord → Prop}
    (hl : Continues (fun r r' => Grown r r' ∧ S r r') s.records s'.records)
    (hs : s.Summable promptId) (hs' : s'.Summable promptId)
    (hf : ∀ r r', Grown r r' → S r r' → contribution r f ≤ contribution r' f) :
    (s.snapshot promptId).counts f ≤ (s'.snapshot promptId).counts f := by
  rw [snapshot_counts hs, snapshot_counts hs']
  exact hl.sum_le (fun r r' hR => hR.1.selected) (fun r r' hR => hf r r' hR.1 hR.2)
    fun r => contribution_nonneg r f

variable {totals : Tally}

theorem rowCount_eq {rows : Rows} (ha : Added ({}, []) (totals, rows) (s.selected promptId))
    (k : String × String) (f : CountField) :
    rowCount rows k f =
      (((s.records.map Prod.snd).filter fun r =>
        decide (rowKey r = k) && promptId.all fun p => r.promptId = some p).map
          fun r => contribution r f).sum := by
  have hrow := ha.rows k f
  rw [UsageLedger.selected, filter_filter] at hrow
  simpa [rowCount] using hrow

theorem rowCount_le {totals' : Tally} {rows : Rows}
    (ha : Added ({}, []) (totals, rows) (s.selected promptId))
    (ha' : Added ({}, []) (totals', rows') (s'.selected promptId)) (hl : Later s s')
    (hk : KeysKept s s') (hf : f.grows = true ∨ CountKept f s s') (k : String × String) :
    rowCount rows k f ≤ rowCount rows' k f := by
  have hc := hl.sharpen (S := fun r r' => rowKey r' = rowKey r ∧
      (f.grows = true ∨ contribution r f ≤ contribution r' f)) fun id r r' hr hr' =>
    ⟨hk id r r' hr hr', hf.imp_right fun hkept => hkept id r r' hr hr'⟩
  rw [rowCount_eq ha, rowCount_eq ha']
  refine hc.sum_le ?_ ?_ fun r => contribution_nonneg r f
  · rintro r r' ⟨hg, hkey, -⟩
    rw [hkey, hg.selected]
  · rintro r r' ⟨hg, -, hgrows | hle⟩
    · exact hg.counts f hgrows
    · exact hle

theorem rowCount_nonneg {rows : Rows} (ha : Added ({}, []) (totals, rows) (s.selected promptId))
    (k : String × String) (f : CountField) : 0 ≤ rowCount rows k f := by
  rw [rowCount_eq ha]
  refine sum_nonneg fun x hx => ?_
  obtain ⟨r, -, rfl⟩ := mem_map.mp hx
  exact contribution_nonneg r f

/-- A row that is handed out has the counts of its key. -/
theorem breakdownOf_count {rows : Rows} (hrows : (Assoc.keys rows).Nodup)
    {row : ProviderModelUsage} (hrow : row ∈ breakdownOf rows) (f : CountField) :
    row.counts f = rowCount rows row.key f := by
  obtain ⟨⟨k, t⟩, hmem, rfl⟩ := mem_map.mp hrow
  have hget : rows.get? k = some t :=
    Assoc.get?_of_mem hrows ((mem_insertionSort _).mp hmem)
  change t.counts f = rowCount rows k f
  rw [rowCount, hget, Option.getD_some]

theorem keys_subset {totals' : Tally} {rows : Rows}
    (ha : Added ({}, []) (totals, rows) (s.selected promptId))
    (ha' : Added ({}, []) (totals', rows') (s'.selected promptId)) (hl : Later s s')
    (hk : KeysKept s s') : ∀ k ∈ Assoc.keys rows, k ∈ Assoc.keys rows' := by
  intro k hkey
  rcases (ha.keys k).mp hkey with hnil | ⟨r, hr, rfl⟩
  · cases hnil
  · obtain ⟨hr, hsel⟩ := mem_filter.mp hr
    obtain ⟨r', hr', hg, hkey'⟩ := (hl.sharpen hk).exists_later hr
    refine (ha'.keys _).mpr (.inr ⟨r', mem_filter.mpr ⟨hr', ?_⟩, hkey'⟩)
    exact hg.selected.trans hsel

/-- **A delta.**  What holds between two points of a run. -/
theorem delta_rows (hl : Later s s') (hs : s.Summable promptId) (hs' : s'.Summable promptId)
    (hk : KeysKept s s') :
    (∀ f : CountField, f.clamped = false →
      (delta promptId s s').counts f =
        ((delta promptId s s').breakdown.map fun row => row.counts f).sum) ∧
    ∀ f : CountField, f.grows = true ∨ f.clamped = true ∨ f = .open ∨ CountKept f s s' →
      ∀ row ∈ (delta promptId s s').breakdown, 0 ≤ row.counts f := by
  obtain ⟨totals, rows, hsnap, ha, hrows⟩ := snapshot_of_summable hs
  obtain ⟨totals', rows', hsnap', ha', hrows'⟩ := snapshot_of_summable hs'
  have hu : (s.snapshot promptId).breakdown = breakdownOf rows := by rw [hsnap]
  have hu' : (s'.snapshot promptId).breakdown = breakdownOf rows' := by rw [hsnap']
  have hsum : ∀ {s : UsageLedger} {rows : Rows}, (s.snapshot promptId).breakdown = breakdownOf rows →
      ∀ f, (s.snapshot promptId).counts f = (rows.map fun p => p.2.counts f).sum := by
    intro s rows hu f
    have hall := snapshot_sum (g := fun t => t.counts f) rfl (fun t r t' h => record_counts h f) s
      promptId
    rw [hu, sum_breakdownOf (fun t => t.counts f)] at hall
    exact hall
  rw [delta_eq hl.runId]
  refine ⟨fun f hf => ?_, fun f hf row hrow => ?_⟩
  · simp only [hu']
    rw [sum_sinceRows hrows hu hrows' (keys_subset ha ha' hl hk) hf, ← hsum hu f, ← hsum hu' f]
    by_cases ho : f = .open
    · rw [if_pos ho, ho]
      rfl
    · rw [if_neg ho]
      cases f <;> first | rfl | exact absurd rfl ho | cases hf
  · simp only [hu'] at hrow
    obtain ⟨row', hmem, hrow⟩ := mem_filterMap.mp hrow
    have hnow : 0 ≤ row'.counts f := by
      rw [breakdownOf_count hrows' hmem]
      exact rowCount_nonneg ha' _ f
    rw [UsageSnapshot.sinceRow, rowsByKey_get? hrows hu] at hrow
    cases hbase : rows.get? row'.key with
    | none =>
      rw [hbase] at hrow
      cases hrow
      exact hnow
    | some t =>
      simp only [hbase, Option.map_some] at hrow
      split at hrow
      · cases hrow
        have hle : f.grows = true ∨ CountKept f s s' → t.counts f ≤ row'.counts f := by
          intro hkept
          have := rowCount_le ha ha' hl hk hkept row'.key
          rwa [← breakdownOf_count hrows' hmem, rowCount, hbase, Option.getD_some] at this
        rcases hf with hg | hc | rfl | hkept
        · exact deltaCounts_nonneg hnow (hle (.inl hg))
        · exact (deltaCounts_clamped (c := row'.counts) hc).1
        · exact hnow
        · exact deltaCounts_nonneg hnow (hle (.inr hkept))
      · cases hrow

theorem delta_nonneg (hl : Later s s') (hs : s.Summable promptId) (hs' : s'.Summable promptId)
    (hf : f.grows = true ∨ CountKept f s s') : 0 ≤ (delta promptId s s').counts f := by
  rw [delta_eq hl.runId]
  refine deltaCounts_nonneg (snapshot_counts_nonneg hs' f) ?_
  have hc := hl.sharpen (S := fun r r' =>
      f.grows = true ∨ contribution r f ≤ contribution r' f) fun id r r' hr hr' =>
    hf.imp_right fun hkept => hkept id r r' hr hr'
  refine snapshot_counts_le hc hs hs' ?_
  rintro r r' hg (hgrows | hle)
  · exact hg.counts f hgrows
  · exact hle

theorem delta_persistFailures (hl : Later s s') (hs : s.Summable promptId)
    (hs' : s'.Summable promptId) : 0 ≤ (delta promptId s s').persistFailures := by
  obtain ⟨totals, rows, hsnap, -⟩ := snapshot_of_summable hs
  obtain ⟨totals', rows', hsnap', -⟩ := snapshot_of_summable hs'
  rw [delta_eq hl.runId, hsnap, hsnap']
  exact sub_nonneg.mpr (Int.ofNat_le.mpr hl.persistFailures)

end

/-- **Deltas.**  Over every run: consecutive deltas add up in every field that is subtracted, the
counts that only grow are not negative, and the rows sum to the totals where no request has come to
another row. -/
theorem delta_laws (h : Host) (runId : String) (ops₁ ops₂ ops₃ : List Op)
    (promptId : Option String)
    (hfresh : ((ops₁ ++ ops₂ ++ ops₃).filterMap Op.minted).Nodup)
    (hsum₁ : (run h (.new runId) ops₁).Summable promptId)
    (hsum₂ : (run h (.new runId) (ops₁ ++ ops₂)).Summable promptId) :
    DeltaLaws promptId (run h (.new runId) ops₁) (run h (.new runId) (ops₁ ++ ops₂))
      (run h (.new runId) (ops₁ ++ ops₂ ++ ops₃)) := by
  have hf : Fresh (.new runId) (ops₁ ++ ops₂ ++ ops₃) := fresh_new hfresh
  have hnil : (Assoc.keys (UsageLedger.new runId).records).Nodup := nodup_nil
  have hsplit : ∀ pre post : List Op, run h (.new runId) (pre ++ post) =
      run h (run h (.new runId) pre) post := fun pre post => foldl_append
  have h₁₂ : Later (run h (.new runId) ops₁) (run h (.new runId) (ops₁ ++ ops₂)) := by
    rw [hsplit]
    exact run_later (run_nodup hnil ops₁) hf.left.right
  have h₂₃ : Later (run h (.new runId) (ops₁ ++ ops₂))
      (run h (.new runId) (ops₁ ++ ops₂ ++ ops₃)) := by
    rw [hsplit (ops₁ ++ ops₂)]
    exact run_later (run_nodup hnil _) hf.right
  have hrun₁₃ := h₂₃.runId.trans h₁₂.runId
  refine ⟨?_, ?_, ?_, ?_, ?_, delta_persistFailures h₁₂ hsum₁ hsum₂,
    fun f hkept => delta_nonneg h₁₂ hsum₁ hsum₂ (.inr hkept),
    fun hk => (delta_rows h₁₂ hsum₁ hsum₂ hk).1, fun hk => (delta_rows h₁₂ hsum₁ hsum₂ hk).2⟩
  · intro f hf ho
    rw [delta_eq h₁₂.runId, delta_eq h₂₃.runId, delta_eq hrun₁₃]
    exact deltaCounts_add hf ho
  · rw [delta_eq h₁₂.runId, delta_eq h₂₃.runId, delta_eq hrun₁₃]
    simp only
    ring
  · rw [delta_eq h₁₂.runId]
    rfl
  · intro f hf
    rw [delta_eq h₁₂.runId, delta_eq h₂₃.runId, delta_eq hrun₁₃]
    exact (deltaCounts_clamped hf).2
  · rintro f (hg | hc | rfl)
    · exact delta_nonneg h₁₂ hsum₁ hsum₂ (.inl hg)
    · rw [delta_eq h₁₂.runId]
      exact (deltaCounts_clamped (c := fun _ => 0) hc).1
    · rw [delta_eq h₁₂.runId]
      exact snapshot_counts_nonneg hsum₂ .open

/-! ### Requests that come to another row -/

namespace Example

def opened (id model : String) : Op :=
  .begin id "2026-01-01T00:00:00+00:00" "openrouter" (some model) none none []

/-- The stream has reported some input. -/
def input (n : Nat) : UsageObservation where
  provider := "openrouter"
  tokens
    | .inputTokens => some n
    | _ => none
  valid := by
    refine ⟨by simp, ?_, ?_, by simp, by simp⟩
    · intro f v hv
      cases f <;> cases hv
      exact Int.natCast_nonneg n
    · intro v hv
      cases hv

/-- Model `b` has answered. -/
def answered (id : String) : Op :=
  .recordResponse id
    (some
      { provider := "openrouter", model := some "b", reported := true, unavailableReason := none
        tokens := fun
          | .inputTokens => some 1
          | .outputTokens => some 2
          | .totalTokens => some 3
          | _ => none })
    none

/-- Three requests, to model `a` twice and to model `c`. -/
def requested : List Op := [opened "r1" "a", opened "r2" "a", opened "r3" "c"]

/-- Two of them are answered by model `b`; the other one has read some input. -/
def routed : List Op := [.recordObservation "r1" (input 5), answered "r2", answered "r3"]

/-- And has read less, as it turns out. -/
def corrected : List Op := [.recordObservation "r1" (input 2)]

def point₁ : UsageLedger := run host (.new "run") requested
def point₂ : UsageLedger := run host (.new "run") (requested ++ routed)
def point₃ : UsageLedger := run host (.new "run") (requested ++ routed ++ corrected)

end Example

open Example in
/-- The rows of a delta do not sum to its totals, rows and totals go below zero, and the open
requests of consecutive deltas do not add up. -/
theorem rekeyed_rows :
    ((delta none point₁ point₂).counts .requests = 0 ∧
      ((delta none point₁ point₂).breakdown.map fun row => row.counts .requests) = [-1, 2]) ∧
    (delta none point₂ point₃).counts (.tokens .inputTokens) = -3 ∧
    (delta none point₁ point₂).counts .open + (delta none point₂ point₃).counts .open ≠
      (delta none point₁ point₃).counts .open := by
  refine ⟨⟨?_, ?_⟩, ?_, ?_⟩ <;> decide

open Example in
/-- The laws on the same run. -/
theorem delta_laws_rekeyed : DeltaLaws none point₁ point₂ point₃ :=
  delta_laws host "run" requested routed corrected none (by decide)
    (by unfold UsageLedger.Summable; decide) (by unfold UsageLedger.Summable; decide)

end KolegaCode.Usage
