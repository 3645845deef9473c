import KolegaCode.Usage.Ledger

/-!
# Usage — settlement

A request is open from its begin until it is settled, and the observer hears of the settlement.
Where the evidence of a response does not combine with what is recorded, the merge raises after the
state has changed and before the notification, and the settlement is never told (`clash_untold`).
-/

namespace KolegaCode.Usage

open Json (Dict get?)
open UsageObservation (Clash fromUsage usageFields)

/-- The request a notification reports as settled. -/
def Notification.settles : Notification → Option String
  | .onResponse settled _ | .onFailure settled => some settled.requestId
  | _ => none

namespace UsageLedger

def stateOf (s : UsageLedger) (id : String) : Option RequestState :=
  (s.records.get? id).map (·.state)

/-- How often the observer was told that the request is settled. -/
def settlements (s : UsageLedger) (id : String) : Nat :=
  s.notified.countP fun n => n.settles = some id

/-- The request has left the open state. -/
def isSettled (s : UsageLedger) (id : String) : Bool := (s.stateOf id).any (· ≠ .open)

end UsageLedger

/-- The evidence of a response, an observation or else a usage, combines with the record's. -/
def CombinesEvidence (r : RequestRecord) :
    Option UsageObservation → Option NormalizedUsage → Prop
  | some o, _ => ∀ p, r.observation = some p → ¬ Clash p.toObservationFields o.toObservationFields
  | none, some u =>
    -- a usage that does not replace a complete one is not looked at
    (u.reported = false ∧ ∃ p, r.observation = some p ∧ p.complete = true) ∨
      (u.WellFormed ∧
        ∀ p, r.observation = some p → ¬ Clash p.toObservationFields (usageFields u))
  | none, none => True

def Combines (r : RequestRecord) (usage : Option NormalizedUsage) (message : Option FinalMessage) :
    Prop := CombinesEvidence r (message.bind (·.usageObservation)) usage

/-- The operation is no response to an open request, or one whose evidence combines. -/
def Op.Combined (s : UsageLedger) : Op → Prop
  | .recordResponse id usage message =>
    ∀ r, s.records.get? id = some r → r.state = .open → Combines r usage message
  | _ => True

section

variable (h : Host)

/-- Every response of the run combines. -/
def Conforms (s : UsageLedger) : List Op → Prop
  | [] => True
  | op :: ops => op.Combined s ∧ Conforms (step h s op) ops

/-- How many steps of the run take the request out of the open state. -/
def departures (s : UsageLedger) (id : String) : List Op → Nat
  | [] => 0
  | op :: ops =>
    (if s.stateOf id = some .open ∧ (step h s op).stateOf id ≠ some .open then 1 else 0) +
      departures (step h s op) id ops

/-- The ledger settles each request once, at every point of the run. -/
structure SettlesOnce (runId : String) (ops : List Op) : Prop where
  leaves_once : ∀ id, departures h (.new runId) id ops ≤ 1
  terminal_kept : ∀ id pre mid post t, ops = pre ++ mid ++ post →
    (run h (.new runId) pre).stateOf id = some t → t ≠ .open →
      (run h (.new runId) (pre ++ mid)).stateOf id = some t
  notified_once : ∀ id pre post, ops = pre ++ post →
    (run h (.new runId) pre).settlements id =
      if (run h (.new runId) pre).isSettled id then 1 else 0

end

section

variable {h : Host}

/-! ### Merging -/

theorem clash_withTotal (a b : ObservationFields) : Clash a b.withTotal ↔ Clash a b := by
  unfold UsageObservation.Clash
  rw [ObservationFields.withTotal_complete, ObservationFields.withTotal_tokens_of_ne b (by decide),
    ObservationFields.withTotal_tokens_of_ne b (by decide), ObservationFields.withTotal_total]
  refine and_congr_right fun _ => and_congr_right fun _ => and_congr_right fun hi => ?_
  have hs : b.sum? = none := by simp [ObservationFields.sum?, hi]
  rw [hs, Option.or_none]

variable (r : RequestRecord)

theorem mergeObservation_ok_iff (o : UsageObservation) :
    (∃ m, mergeObservation h r o = .ok m) ↔
      ∀ p, r.observation = some p → ¬ Clash p.toObservationFields o.toObservationFields := by
  unfold mergeObservation
  cases hr : r.observation with
  | none => simp
  | some p =>
    simp only [Option.some.injEq, forall_eq']
    rw [← UsageObservation.refinedBy_error_iff]
    cases p.refinedBy o with
    | error e => simp
    | ok merged => simp

/-- What a record has used is as the documentation says. -/
def Evidenced (r : RequestRecord) : Prop := ∀ u, r.usage = some u → u.WellFormed

variable {o : UsageObservation}

theorem observedUsage_wellFormed (hc : o.complete = true) : (observedUsage o).WellFormed where
  provider_ne := o.valid.provider_ne
  nonneg := o.valid.nonneg
  total i out hi ho :=
    .inr (o.valid.total _ (ObservationFields.sum?_eq_some.mpr ⟨i, out, hi, ho, rfl⟩))
  parts_known _ := ⟨o.valid.core_known hc _ rfl, o.valid.core_known hc _ rfl⟩

theorem mergeObservation_evidenced {r r' : RequestRecord} (hr : Evidenced r)
    (hm : mergeObservation h r o = .ok (some r')) : Evidenced r' := by
  obtain ⟨merged, rfl, -⟩ := mergeObservation_eq_some hm
  intro u hu
  by_cases hc : merged.complete = true
  · simp only [hc, if_true, Option.some.injEq] at hu
    exact hu ▸ observedUsage_wellFormed hc
  · simp only [hc] at hu
    exact hr u hu

open UsageLedger (mergeResponse responded)

theorem merged_ok_iff (o : UsageObservation) :
    (∃ r', (do
      let merged ← mergeObservation h r o
      pure (merged.getD r) : Except String RequestRecord) = .ok r') ↔
        ∀ p, r.observation = some p → ¬ Clash p.toObservationFields o.toObservationFields := by
  rw [← mergeObservation_ok_iff (h := h)]
  constructor
  · rintro ⟨r', hok⟩
    obtain ⟨m, hm, -⟩ := bind_eq_ok.mp hok
    exact ⟨m, hm⟩
  · rintro ⟨m, hm⟩
    exact ⟨_, bind_eq_ok.mpr ⟨m, hm, rfl⟩⟩

/-- A usage is merged when it is well formed and does not clash. -/
theorem mergeUsage_ok_iff (u : NormalizedUsage) :
    (∃ r', (do
      let o ← fromUsage u
      let merged ← mergeObservation h r o
      pure (merged.getD r) : Except String RequestRecord) = .ok r') ↔
        u.WellFormed ∧
          ∀ p, r.observation = some p → ¬ Clash p.toObservationFields (usageFields u) := by
  rw [← UsageObservation.fromUsage_ok_iff]
  constructor
  · rintro ⟨r', hok⟩
    obtain ⟨o, ho, hok⟩ := bind_eq_ok.mp hok
    refine ⟨⟨o, ho⟩, fun p hp hclash => ?_⟩
    refine (merged_ok_iff (h := h) r o).mp ⟨r', hok⟩ p hp ?_
    rw [UsageObservation.make_eq_ok ho, clash_withTotal]
    exact hclash
  · rintro ⟨⟨o, ho⟩, hclash⟩
    obtain ⟨r', hok⟩ := (merged_ok_iff (h := h) r o).mpr fun p hp hc => by
      rw [UsageObservation.make_eq_ok ho, clash_withTotal] at hc
      exact hclash p hp hc
    exact ⟨r', bind_eq_ok.mpr ⟨o, ho, hok⟩⟩

/-- **What a response merges.**  The merge succeeds exactly on evidence that combines. -/
theorem mergeResponse_ok_iff {r : RequestRecord} (hr : Evidenced r)
    (usage : Option NormalizedUsage) (message : Option FinalMessage) :
    (∃ r', mergeResponse h (responded r usage) message = .ok r') ↔ Combines r usage message := by
  unfold UsageLedger.mergeResponse Combines
  cases message.bind (·.usageObservation) with
  | some o => exact merged_ok_iff (h := h) (responded r usage) o
  | none =>
    by_cases hkept : (r.observation.all (!·.complete) || usage.any (·.reported)) = true
    · -- the usage of the response is the record's now
      have hu : (responded r usage).usage = usage := by simp [responded, hkept]
      rw [hu]
      cases usage with
      | none => simp [pure, Except.pure, CombinesEvidence]
      | some u =>
        refine (mergeUsage_ok_iff (h := h) (responded r (some u)) u).trans ?_
        refine ⟨.inr, ?_⟩
        rintro (⟨hrep, p, hp, hc⟩ | hcomb)
        · simp [hp, hc, hrep] at hkept
        · exact hcomb
    · -- a complete observation is there and keeps its usage
      have hu : (responded r usage).usage = r.usage := by simp [responded, hkept]
      have hall : r.observation.all (!·.complete) = false := by simp_all
      have hrep : usage.any (·.reported) = false := by simp_all
      obtain ⟨p, hp, hc⟩ : ∃ p, r.observation = some p ∧ p.complete = true := by
        cases hobs : r.observation with
        | none => simp [hobs] at hall
        | some p => exact ⟨p, rfl, by simpa [hobs] using hall⟩
      have hcomb : CombinesEvidence r none usage := by
        cases usage with
        | none => trivial
        | some u => exact .inl ⟨by simpa using hrep, p, hp, hc⟩
      refine iff_of_true ?_ hcomb
      rw [hu]
      cases hru : r.usage with
      | none => exact ⟨_, rfl⟩
      | some u =>
        refine (mergeUsage_ok_iff (h := h) (responded r usage) u).mpr ⟨hr u hru, ?_⟩
        intro q hq hclash
        have : q = p := Option.some.inj (hq.symm.trans hp)
        subst this
        exact absurd (hc.symm.trans hclash.1) (by decide)

/-! ### One operation -/

namespace UsageLedger

theorem stateOf_put (s : UsageLedger) (id id' : String) (r : RequestRecord) :
    (s.put id r).stateOf id' = if id' = id then some r.state else s.stateOf id' := by
  simp only [stateOf, put, Assoc.get?_set]
  split <;> rfl

theorem stateOf_change (s : UsageLedger) (id id' : String) (r : RequestRecord) :
    (s.change h id r).stateOf id' = if id' = id then some r.state else s.stateOf id' := by
  simp only [stateOf, change_records, Assoc.get?_set]
  split <;> rfl

theorem stateOf_publish (s : UsageLedger) (id id' : String) (r : RequestRecord)
    (notification : SettledRequest → Notification) :
    (s.publish h id r notification).stateOf id' =
      if id' = id then some r.state else s.stateOf id' := by
  simp only [stateOf, publish_records, Assoc.get?_set]
  split <;> rfl

theorem settlements_publish (s : UsageLedger) (id id' : String) (r : RequestRecord)
    (notification : SettledRequest → Notification) :
    (s.publish h id r notification).settlements id' = s.settlements id' +
      if (notification (s.settled id (repriced h r))).settles = some id' then 1 else 0 := by
  simp only [settlements, publish_notified, List.countP_append, List.countP_singleton,
    decide_eq_true_eq]

/-- What one operation does to a request, as far as its state and its settlement go. -/
inductive Effect (s s' : UsageLedger) (id : String) (combined : Prop) : Prop
  | stays (hs : s'.stateOf id = s.stateOf id) (hn : s'.settlements id = s.settlements id)
  | opens (hs : s.stateOf id = none) (hs' : s'.stateOf id = some .open)
      (hn : s'.settlements id = s.settlements id)
  | settles (hs : s.stateOf id = some .open) (t : RequestState) (hs' : s'.stateOf id = some t)
      (ht : t ≠ .open) (hn : s'.settlements id = s.settlements id + 1) (hc : combined)
  | lost (hs : s.stateOf id = some .open) (t : RequestState) (hs' : s'.stateOf id = some t)
      (ht : t ≠ .open) (hn : s'.settlements id = s.settlements id) (hc : ¬ combined)

variable {s : UsageLedger} {id : String} {r r' : RequestRecord} {combined : Prop}
  {notification : SettledRequest → Notification} {op : Op} {t : RequestState} {ops : List Op}

section

variable (hr : s.records.get? id = some r)
include hr

theorem stateOf_of_get? : s.stateOf id = some r.state := by
  rw [stateOf, hr, Option.map_some]

theorem publish_effect (ho : r.state = .open) (ht : r'.state ≠ .open)
    (hn : ∀ settled, (notification settled).settles = some settled.requestId) (hc : combined)
    (id' : String) : Effect s (s.publish h id r' notification) id' combined := by
  have hid : (s.settled id (repriced h r')).requestId = id := rfl
  by_cases he : id' = id
  · subst he
    refine .settles (ho ▸ stateOf_of_get? hr) r'.state ?_ ht ?_ hc
    · rw [stateOf_publish, if_pos rfl]
    · rw [settlements_publish, hn, hid, if_pos rfl]
  · refine .stays ?_ ?_
    · rw [stateOf_publish, if_neg he]
    · have hne : ¬ some id = some id' := fun e => he (Option.some.inj e).symm
      rw [settlements_publish, hn, hid, if_neg hne, Nat.add_zero]

theorem publish_stays (hs : r'.state = r.state)
    (hn : ∀ settled, (notification settled).settles = none) (id' : String) :
    Effect s (s.publish h id r' notification) id' combined := by
  refine .stays ?_ ?_
  · rw [stateOf_publish]
    split
    · next he => rw [he, stateOf_of_get? hr, hs]
    · rfl
  · rw [settlements_publish, hn, if_neg (fun e => nomatch e), Nat.add_zero]

theorem change_stays (hs : r'.state = r.state) (id' : String) :
    Effect s (s.change h id r') id' combined := by
  refine .stays ?_ rfl
  rw [stateOf_change]
  split
  · next he => rw [he, stateOf_of_get? hr, hs]
  · rfl

end

theorem recordResponse_effect (s : UsageLedger) (id : String) (usage : Option NormalizedUsage)
    (message : Option FinalMessage)
    (hev : ∀ r, s.records.get? id = some r → r.state = .open → Evidenced r) (id' : String) :
    Effect s (s.recordResponse h id usage message) id'
      ((Op.recordResponse id usage message).Combined s) := by
  unfold recordResponse
  cases hr : s.records.get? id with
  | none => exact .stays rfl rfl
  | some r =>
    by_cases ho : r.state = .open
    · have hstamp : (message.map (s.stampMessage id r)).bind (·.usageObservation) =
          message.bind (·.usageObservation) := by
        cases message <;> rfl
      have hiff : (∃ r', mergeResponse h (responded r usage) (message.map (s.stampMessage id r)) =
          .ok r') ↔ Combines r usage message := by
        rw [mergeResponse_ok_iff (hev r hr ho), Combines, Combines, hstamp]
      have hcomb : (Op.recordResponse id usage message).Combined s ↔ Combines r usage message := by
        constructor
        · exact fun hc => hc r hr ho
        · intro hc r' hr' _
          rw [hr, Option.some.injEq] at hr'
          exact hr' ▸ hc
      simp only [ho, ne_eq, not_true_eq_false, if_false]
      cases hm : mergeResponse h (responded r usage) (message.map (s.stampMessage id r)) with
      | ok r' =>
        have hstate : r'.state = .responded :=
          mergeResponse_state hm
        exact publish_effect hr ho (by rw [hstate]; decide) (fun _ => rfl)
          (hcomb.mpr (hiff.mp ⟨r', hm⟩)) id'
      | error e =>
        have hlost : ¬ (Op.recordResponse id usage message).Combined s := by
          intro hc
          obtain ⟨r', hr'⟩ := hiff.mpr (hcomb.mp hc)
          rw [hm] at hr'
          cases hr'
        by_cases he : id' = id
        · subst he
          refine .lost (ho ▸ stateOf_of_get? hr) .responded ?_ (by decide) rfl hlost
          rw [stateOf_put, if_pos rfl]
          rfl
        · refine .stays ?_ rfl
          rw [stateOf_put, if_neg he]
    · simp only [ho, ne_eq, not_false_eq_true, if_true]
      exact .stays rfl rfl

/-- **One operation.**  What it does to any request, on a ledger whose open records are evidenced
and with a fresh identifier. -/
theorem step_effect (hfresh : ∀ id, op.minted = some id → s.records.get? id = none)
    (hev : ∀ id r, s.records.get? id = some r → r.state = .open → Evidenced r) (id' : String) :
    Effect s (step h s op) id' (op.Combined s) := by
  cases op with
  | begin id startedAt provider model origin promptId context =>
    have hnone := hfresh id rfl
    have hn : ∀ r : RequestRecord,
        (s.publish h id r .onBegin).settlements id' = s.settlements id' := by
      intro r
      rw [settlements_publish, if_neg (fun e => nomatch e), Nat.add_zero]
    by_cases he : id' = id
    · subst he
      refine .opens (by rw [stateOf, hnone]; rfl) ?_ (hn _)
      change (s.publish h id' _ .onBegin).stateOf id' = _
      rw [stateOf_publish, if_pos rfl]
    · refine .stays ?_ (hn _)
      change (s.publish h id _ .onBegin).stateOf id' = _
      rw [stateOf_publish, if_neg he]
  | recordResponse id usage message =>
    exact recordResponse_effect s id usage message (hev id) id'
  | recordFailure id error =>
    simp only [step, recordFailure]
    cases hr : s.records.get? id with
    | none => exact .stays rfl rfl
    | some r =>
      by_cases ho : r.state = .open
      · simp only [ho, ne_eq, not_true_eq_false, if_false]
        exact publish_effect hr ho (by simp) (fun _ => rfl) trivial id'
      · simp only [ho, ne_eq, not_false_eq_true, if_true]
        exact .stays rfl rfl
  | recordAbandonment id =>
    simp only [step, recordAbandonment]
    cases hr : s.records.get? id with
    | none => exact .stays rfl rfl
    | some r =>
      by_cases ho : r.state = .open
      · simp only [ho, ne_eq, not_true_eq_false, if_false]
        exact publish_effect hr ho (by simp) (fun _ => rfl) trivial id'
      · simp only [ho, ne_eq, not_false_eq_true, if_true]
        exact .stays rfl rfl
  | recordObservation id o =>
    simp only [step, recordObservation]
    cases hr : s.records.get? id with
    | none => exact .stays rfl rfl
    | some r =>
      simp only
      cases hm : mergeObservation h r o with
      | error e => exact .stays rfl rfl
      | ok m =>
        cases m with
        | none => exact .stays rfl rfl
        | some r' =>
          have hstate := mergeObservation_state hm
          have htold : ∀ settled, (Notification.onObservation settled).settles = none :=
            fun _ => rfl
          simp only
          split
          · exact change_stays hr hstate id'
          · exact publish_stays hr hstate htold id'
  | notePersistFailure => exact .stays rfl rfl

/-! ### Runs -/

/-- What the open records have used is as the documentation says. -/
def EvidencedOpen (s : UsageLedger) : Prop :=
  ∀ id r, s.records.get? id = some r → r.state = .open → Evidenced r

/-- Every request is told as settled as often as it should be. -/
def Counted (s : UsageLedger) : Prop :=
  ∀ id, s.settlements id = if s.isSettled id then 1 else 0

theorem new_evidencedOpen (runId : String) : (UsageLedger.new runId).EvidencedOpen :=
  fun _ _ hr => nomatch hr

theorem new_counted (runId : String) : (UsageLedger.new runId).Counted := fun _ => rfl

theorem moves_evidenced {told : List (SettledRequest → Notification)} (hm : Moves h r r' told)
    (hr : r.state = .open → Evidenced r) (ho : r'.state = .open) : Evidenced r' := by
  cases hm with
  | observed o m hm he =>
    subst he
    have hopen : r.state = .open := (mergeObservation_state hm).symm.trans ho
    have hev : Evidenced m := mergeObservation_evidenced (hr hopen) hm
    exact hev
  | responded usage message m _ hm he =>
    subst he
    have hstate : m.state = .responded :=
      mergeResponse_state hm
    exact absurd (hstate.symm.trans ho) (by decide)
  | closed t error _ ht he =>
    subst he
    rcases ht with rfl | rfl
    · cases ho
    · cases ho

theorem step_evidencedOpen (hev : s.EvidencedOpen) (op : Op) : (step h s op).EvidencedOpen := by
  intro id' r' hr' ho'
  cases step_records h s op with
  | same he =>
    rw [he] at hr'
    exact hev id' r' hr' ho'
  | begun id r _ _ hu _ he =>
    rw [he, Assoc.get?_set] at hr'
    split at hr'
    · cases hr'
      intro u hru
      rw [repriced_usage, hu] at hru
      cases hru
    · exact hev id' r' hr' ho'
  | moved id r m told hr hm he =>
    rw [he, Assoc.get?_set] at hr'
    split at hr'
    · cases hr'
      exact moves_evidenced hm (hev id r hr) ho'
    · exact hev id' r' hr' ho'
  | lost id r usage message e _ hr _ _ he =>
    rw [he, Assoc.get?_set] at hr'
    split at hr'
    · cases hr'
      cases ho'
    · exact hev id' r' hr' ho'

theorem run_evidencedOpen (hev : s.EvidencedOpen) (ops : List Op) :
    (run h s ops).EvidencedOpen := by
  induction ops generalizing s with
  | nil => exact hev
  | cons op ops ih => exact ih (step_evidencedOpen hev op)

theorem isSettled_eq (hs : s.stateOf id = some t) : s.isSettled id = decide (t ≠ .open) := by
  rw [isSettled, hs, Option.any_some]

/-- An operation whose evidence combines keeps the count. -/
theorem step_counted (hfresh : ∀ id, op.minted = some id → s.records.get? id = none)
    (hev : s.EvidencedOpen) (hc : s.Counted) (hop : op.Combined s) : (step h s op).Counted := by
  intro id
  have hid := hc id
  cases step_effect (h := h) hfresh hev id with
  | stays hs hn => rw [hn, hid, isSettled, isSettled, hs]
  | opens hs hs' hn =>
    rw [hn, hid, isSettled_eq hs', isSettled, hs]
    rfl
  | settles hs t hs' ht hn _ =>
    have h0 : s.settlements id = 0 := by rw [hid, isSettled_eq hs]; rfl
    rw [hn, h0, isSettled_eq hs', if_pos (by simpa using ht)]
  | lost _ _ _ _ _ hlost => exact absurd hop hlost

/-- An operation whose evidence does not combine breaks it. -/
theorem not_counted_of_lost (hev : s.EvidencedOpen) (hc : s.Counted) (hop : ¬ op.Combined s) :
    ¬ (step h s op).Counted := by
  cases op with
  | recordResponse id usage message =>
    simp only [Op.Combined, not_forall] at hop
    obtain ⟨r, hr, ho, hcomb⟩ := hop
    have hlost : ¬ (Op.recordResponse id usage message).Combined s := fun hall =>
      hcomb (hall r hr ho)
    have hopen : s.stateOf id = some .open := ho ▸ stateOf_of_get? hr
    intro hc'
    cases recordResponse_effect (h := h) s id usage message (hev id) id with
    | stays hs hn =>
      -- the response of an open request takes it out of the open state
      have hmoved : (s.recordResponse h id usage message).stateOf id = some .responded := by
        unfold recordResponse
        rw [hr]
        simp only [ho, ne_eq, not_true_eq_false, if_false]
        split
        · rw [stateOf_put, if_pos rfl]
          rfl
        · next m hm =>
          have hstate : m.state = .responded :=
            mergeResponse_state hm
          rw [stateOf_publish, if_pos rfl, hstate]
      rw [hopen, hmoved] at hs
      cases hs
    | opens hs =>
      rw [hopen] at hs
      cases hs
    | settles _ _ _ _ _ hcombined => exact hlost hcombined
    | lost hs t hs' ht hn _ =>
      have h1 : (s.recordResponse h id usage message).settlements id =
          if (s.recordResponse h id usage message).isSettled id then 1 else 0 := hc' id
      rw [hn, hc id, isSettled_eq hs, isSettled_eq hs'] at h1
      simp [ht] at h1
  | begin | recordFailure | recordAbandonment | recordObservation | notePersistFailure =>
    exact absurd trivial hop

theorem counted_iff_conforms (hf : Fresh s ops) (hev : s.EvidencedOpen) (hc : s.Counted) :
    (∀ pre post, ops = pre ++ post → (run h s pre).Counted) ↔ Conforms h s ops := by
  induction ops generalizing s with
  | nil =>
    refine iff_of_true ?_ trivial
    intro pre post hsplit
    rw [(List.append_eq_nil_iff.mp hsplit.symm).1]
    exact hc
  | cons op ops ih =>
    constructor
    · intro hall
      have hop : op.Combined s := by
        by_contra hop
        exact not_counted_of_lost hev hc hop (hall [op] ops rfl)
      refine ⟨hop, ?_⟩
      refine (ih hf.tail (step_evidencedOpen hev op) (hall [op] ops rfl)).mp ?_
      intro pre post hsplit
      exact hall (op :: pre) post (by rw [hsplit]; rfl)
    · rintro ⟨hop, hops⟩ pre post hsplit
      cases pre with
      | nil => exact hc
      | cons op' pre =>
        cases hsplit
        exact (ih hf.tail (step_evidencedOpen hev op) (step_counted hf.head hev hc hop)).mpr hops
          pre post rfl

theorem step_terminal (hfresh : ∀ id, op.minted = some id → s.records.get? id = none)
    (hev : s.EvidencedOpen) (hs : s.stateOf id = some t) (ht : t ≠ .open) :
    (step h s op).stateOf id = some t := by
  cases step_effect (h := h) hfresh hev id with
  | stays hs' _ => rw [hs', hs]
  | opens hn =>
    rw [hs] at hn
    cases hn
  | settles ho | lost ho =>
    rw [hs, Option.some.injEq] at ho
    exact absurd ho ht

theorem run_terminal (hf : Fresh s ops) (hev : s.EvidencedOpen) (hs : s.stateOf id = some t)
    (ht : t ≠ .open) : (run h s ops).stateOf id = some t := by
  induction ops generalizing s with
  | nil => exact hs
  | cons op ops ih =>
    exact ih hf.tail (step_evidencedOpen hev op) (step_terminal hf.head hev hs ht)

theorem departures_of_terminal (hf : Fresh s ops) (hev : s.EvidencedOpen)
    (hs : s.stateOf id = some t) (ht : t ≠ .open) : departures h s id ops = 0 := by
  induction ops generalizing s with
  | nil => rfl
  | cons op ops ih =>
    have hne : ¬ (s.stateOf id = some .open ∧ (step h s op).stateOf id ≠ some .open) := by
      rw [hs, Option.some.injEq]
      exact fun hand => ht hand.1
    rw [departures, if_neg hne, Nat.zero_add]
    exact ih hf.tail (step_evidencedOpen hev op) (step_terminal hf.head hev hs ht)

theorem departures_le_one (hf : Fresh s ops) (hev : s.EvidencedOpen) (id : String) :
    departures h s id ops ≤ 1 := by
  induction ops generalizing s with
  | nil => exact Nat.zero_le 1
  | cons op ops ih =>
    rw [departures]
    split
    · next hout =>
      cases step_effect (h := h) hf.head hev id with
      | stays hs _ => exact absurd (hs.trans hout.1) hout.2
      | opens hs =>
        rw [hout.1] at hs
        cases hs
      | settles _ t hs' ht | lost _ t hs' ht =>
        rw [departures_of_terminal hf.tail (step_evidencedOpen hev op) hs' ht]
    · rw [Nat.zero_add]
      exact ih hf.tail (step_evidencedOpen hev op)

end UsageLedger

end

/-- **Settlement.**  Over any run, the ledger settles each request once exactly when the evidence of
every response combines with what is recorded. -/
theorem settlesOnce_iff (h : Host) (runId : String) (ops : List Op)
    (hfresh : (ops.filterMap Op.minted).Nodup) :
    SettlesOnce h runId ops ↔ Conforms h (.new runId) ops := by
  have hf : Fresh (.new runId) ops := fresh_new hfresh
  have hev := UsageLedger.new_evidencedOpen runId
  have hiff := UsageLedger.counted_iff_conforms (h := h) hf hev (UsageLedger.new_counted runId)
  constructor
  · intro hs
    exact hiff.mp fun pre post hsplit id => hs.notified_once id pre post hsplit
  · intro hconf
    refine ⟨UsageLedger.departures_le_one hf hev, ?_, fun id pre post hsplit => ?_⟩
    · intro id pre mid post t hsplit hpre ht
      subst hsplit
      rw [run, List.foldl_append]
      exact UsageLedger.run_terminal hf.left.right (UsageLedger.run_evidencedOpen hev pre) hpre ht
    · exact hiff.mpr hconf pre post hsplit id

/-! ### A settlement that is not told -/

namespace Example

/-- A host without prices, whose observer never raises. -/
def host : Host where
  pin _ _ _ := none
  calculate _ _ _ := none
  raises _ := false
  sameDict a b := a = b

/-- What the stream reported: one input and two output tokens. -/
def streamed : UsageObservation where
  provider := "openai"
  tokens
    | .inputTokens => some 1
    | .outputTokens => some 2
    | .totalTokens => some 3
    | _ => none
  valid := by
    refine ⟨by simp, ?_, ?_, by simp, by simp⟩
    · intro n v hv
      cases n <;> cases hv <;> decide
    · intro v hv
      cases hv
      rfl

/-- The final message has a total only. -/
def final (total : Nat) : UsageObservation where
  provider := "openai"
  tokens
    | .totalTokens => some total
    | _ => none
  valid := by
    refine ⟨by simp, ?_, ?_, by simp, by simp⟩
    · intro n v hv
      cases n <;> cases hv
      exact Int.natCast_nonneg total
    · intro v hv
      cases hv

/-- A streamed response, with the total of its final message. -/
def response (total : Nat) : List Op :=
  [.begin "r1" "2026-01-01T00:00:00+00:00" "openai" (some "gpt-5") none none [],
    .recordObservation "r1" streamed,
    .recordResponse "r1" none (some { usageObservation := some (final total) })]

end Example

open Example in
/-- The request is settled, and its settlement is never told. -/
theorem clash_untold :
    ((response 5).filterMap Op.minted).Nodup ∧
      (run host (.new "run") (response 5)).stateOf "r1" = some .responded ∧
      (run host (.new "run") (response 5)).settlements "r1" = 0 ∧
      ¬ SettlesOnce host "run" (response 5) := by
  have hstate : (run host (.new "run") (response 5)).stateOf "r1" = some .responded := by
    decide
  have hcount : (run host (.new "run") (response 5)).settlements "r1" = 0 := by decide
  refine ⟨by decide, hstate, hcount, fun hs => ?_⟩
  have hone := hs.notified_once "r1" (response 5) [] (List.append_nil _).symm
  rw [hcount, UsageLedger.isSettled_eq hstate] at hone
  cases hone

open Example in
/-- The same response with a total that agrees with the stream. -/
theorem settlesOnce_agreeing : SettlesOnce host "run" (response 3) := by
  refine (settlesOnce_iff host "run" _ (by decide)).mpr ⟨trivial, trivial, ?_, trivial⟩
  intro r hr _ p hp
  have hsum : (((run host (.new "run") ((response 3).take 2)).records.get? "r1").bind
      (·.observation)).bind (·.sum?) = some 3 := by decide
  have hr' : (run host (.new "run") ((response 3).take 2)).records.get? "r1" = some r := hr
  rw [hr', Option.bind_some, hp, Option.bind_some] at hsum
  rintro ⟨-, -, -, -, v, w, hv, hw, hne⟩
  rw [hsum] at hv
  cases hv
  cases hw
  exact hne rfl

end KolegaCode.Usage
