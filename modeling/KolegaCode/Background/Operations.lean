import KolegaCode.Background.Steps

/-!
# Background — the operations that hold the lock

Failed outcomes are committed again before a delivery; a delivery inserts the pending completions
one by one, and marks a job delivered only after its completion is in the root history.
-/

namespace KolegaCode.Background

open List

variable {lim : Limits} {s s' s₁ : State} {id : String} {job job' : Job} {fault : Fault}

/-! ### Retrying, and what follows it -/

theorem Kept.withHolder (h : Kept lim s) (holder : Option Holder) : Kept lim { s with holder } where
  keys := h.keys
  jobs := h.jobs
  distinct := h.distinct
  known := h.known
  knownErrors := h.knownErrors
  errors := h.errors
  pending := h.pending
  slots := h.slots
  active := h.active
  live := h.live
  liveDrawn := h.liveDrawn
  journal := h.journal

theorem Kept.good_release (h : Kept lim s) : Good lim s.release :=
  ⟨h.withHolder none, trivial⟩

theorem good_afterRetry (h : Kept lim s) (hr : s.recovered = true) (use : Use) :
    Good lim (afterRetry s use) := by
  cases use with
  | close => exact h.good_release
  | deliver archive =>
    rw [afterRetry]
    split
    · exact h.good_release
    · exact ⟨h.withHolder _, hr⟩

theorem good_nextRetry (h : Kept lim s) (hr : s.recovered = true) (use : Use) {rest : List String}
    (hrest : ∀ id ∈ rest, ∀ job, s.jobs.get? id = some job → job.phase.active = false) :
    Good lim (nextRetry s use rest) := by
  induction rest with
  | nil =>
    rw [nextRetry]
    split
    · exact good_afterRetry h hr use
    · exact h.good_release
  | cons id rest ih =>
    have ih := ih fun id' hid' => hrest id' (mem_cons_of_mem id hid')
    rw [nextRetry]
    split
    · exact ih
    · next job hget =>
      split
      · next hneeds =>
        have hpersisted : job.persisted = false := by
          rw [Bool.and_eq_true, Bool.not_eq_true'] at hneeds
          exact hneeds.1
        exact ⟨h.withHolder _, hr, ⟨job, hget, hpersisted, hrest id mem_cons_self job hget⟩,
          fun id' hid' => hrest id' (mem_cons_of_mem id hid')⟩
      · exact ih

/-- The jobs whose errors are kept have no task any more. -/
theorem Kept.errors_idle (h : Kept lim s) :
    ∀ id ∈ s.errors, ∀ job, s.jobs.get? id = some job → job.phase.active = false := by
  intro id hid job hget
  rw [(h.jobs id job hget).failed hid]
  rfl

theorem good_deliver (h : Good lim s) (archive : Bool) :
    Good lim (perform lim s (.deliver archive)) := by
  rw [perform]
  split
  · next hready =>
    rw [Bool.and_eq_true, State.ready, Bool.and_eq_true] at hready
    exact good_nextRetry h.kept hready.1.2 _ h.kept.errors_idle
  · exact h

theorem good_retried (h : Good lim s) (fault : Fault) :
    Good lim (perform lim s (.retried fault)) := by
  rw [perform]
  split
  · next use id rest hholder =>
    have hok := h.holder
    rw [HolderOk, hholder] at hok
    obtain ⟨hr, ⟨job, hget, hpersisted, hidle⟩, hrest⟩ := hok
    rw [hget]
    dsimp only
    have hjob := h.kept.jobs id job hget
    have hterminal := terminal_of_not_active hjob.phase hidle
    have hphase : job.phase = .ended ∨ job.phase = .recovered := by
      cases hp : job.phase with
      | ended => exact .inl rfl
      | recovered => exact .inr rfl
      | scheduled | waiting | running | committing => rw [hp] at hidle; cases hidle
    cases hw : s.write fault (recordBackgroundJobTerminal job.data) with
    | mk done s₁ =>
      obtain ⟨hkept, hlater, ⟨journal, hs₁⟩, hrow⟩ := kept_writeTerminal h.kept hget hw
      have hget₁ : s₁.jobs.get? id = some job := by
        rw [hs₁]
        exact hget
      have hr₁ : s₁.recovered = true := hlater.recovered.trans hr
      cases done with
      | false => exact hkept.good_release
      | true =>
        have hfailed : id ∈ s₁.errors.erase id → job.phase = .ended := fun hmem =>
          (hkept.jobs id job hget₁).failed (mem_of_mem_erase hmem)
        have hsettled := kept_settle hkept hget₁ hpersisted hterminal (hrow rfl) hphase (.inr rfl)
          (.inr rfl) hfailed (fun hnil => by rw [hnil]; rfl)
        refine good_nextRetry hsettled hr₁ use fun id' hid' found hfound => ?_
        change (s₁.setJob id { job with persisted := true }).jobs.get? id' = some found at hfound
        rw [get?_setJob] at hfound
        split at hfound
        · cases hfound
          exact hidle
        · rw [hs₁] at hfound
          exact hrest id' hid' found hfound
  · exact h

/-! ### Insertions -/

theorem kept_archived (h : Kept lim s) (hget : s.jobs.get? id = some job) (archived : Bool) :
    Kept lim (s.setJob id { job with data := { job.data with archived } }) := by
  have hok := h.jobs id job hget
  have hcount : ∀ p,
      (s.setJob id { job with data := { job.data with archived } }).count p = s.count p := by
    intro p
    have hsum := count_replace hget { job with data := { job.data with archived } } p
    simpa using hsum
  refine h.touch hget { job with data := { job.data with archived } } rfl ?_ ?_ ?_
  · exact ⟨hok.key, hok.drawn, hok.phase, hok.pending, hok.undelivered, hok.kept, hok.failed,
      hok.fresh, hok.row, hok.early⟩
  · rw [hcount]
    exact h.slots
  · rw [State.activeCount, hcount]
    exact h.active

theorem good_nextInsert (h : Kept lim s) (hr : s.recovered = true) (archive : Bool)
    {ids : List String} (hnodup : ids.Nodup) (hids : ∀ id ∈ ids, id ∈ s.pending) :
    Good lim (nextInsert s archive ids) := by
  unfold nextInsert
  split
  · exact h.good_release
  · next id rest =>
    split
    · exact h.good_release
    · split
      · exact h.good_release
      · next job hget =>
        refine ⟨Kept.withHolder ?_ _, hr, hnodup, hids⟩
        split
        · exact kept_archived h hget true
        · exact kept_archived h hget job.data.archived

theorem kept_markArchived (h : Kept lim s) (rows : List JobData) :
    Kept lim (markArchived s rows) ∧ (markArchived s rows).recovered = s.recovered ∧
      (markArchived s rows).pending = s.pending := by
  unfold markArchived
  induction rows generalizing s with
  | nil => exact ⟨h, rfl, rfl⟩
  | cons row rows ih =>
    rw [foldl_cons]
    split
    · split
      · exact ih h
      · next job hget =>
        obtain ⟨hkept, hr, hpending⟩ := ih (kept_archived h hget true)
        exact ⟨hkept, hr, hpending⟩
    · exact ih h

theorem good_prepared (h : Good lim s) (raises : Bool) :
    Good lim (perform lim s (.prepared raises)) := by
  rw [perform]
  split
  · next archive hholder =>
    have hr := h.holder
    rw [HolderOk, hholder] at hr
    split
    · exact h.kept.good_release
    · split
      · exact good_nextInsert h.kept hr archive h.kept.pending fun _ hid => hid
      · exact ⟨h.kept.withHolder _, hr⟩
  · exact h

theorem good_marked (h : Good lim s) (fault : Fault) :
    Good lim (perform lim s (.marked fault)) := by
  rw [perform]
  split
  · next archive j hholder hj =>
    have hr := h.holder
    rw [HolderOk, hholder] at hr
    split
    · obtain ⟨hkept, hrecovered, -⟩ := kept_markArchived h.kept (readBackgroundJobs j)
      exact good_nextInsert hkept (hrecovered.trans hr) archive hkept.pending fun _ hid => hid
    · exact h.kept.good_release
  · exact h

/-- A completion that is committed is in the journal once. -/
theorem completion_written {j j' : Journal} {data : JobData}
    (h : recordBackgroundCompletion data j = .ok j') :
    j'.rows = j.rows ∧ data.completionId ∈ j'.inserted ∧ (j.inserted.Nodup → j'.inserted.Nodup) ∧
      ∀ c, c ∈ j'.inserted ↔ c = data.completionId ∨ c ∈ j.inserted := by
  unfold recordBackgroundCompletion at h
  dsimp only at h
  split at h
  · cases h
  · split at h
    · next hmem =>
      cases h
      exact ⟨rfl, hmem, fun hn => hn, fun c => ⟨.inr, fun hc => hc.elim (fun he => he ▸ hmem) id⟩⟩
    · next hmem =>
      cases h
      refine ⟨rfl, mem_append_right _ (mem_singleton_self _), fun hn => ?_, fun c => ?_⟩
      · exact nodup_append.mpr ⟨hn, nodup_singleton _, fun a ha b hb heq => hmem (by
          rw [← mem_singleton.mp hb, ← heq]
          exact ha)⟩
      · rw [mem_append, mem_singleton, or_comm]

theorem kept_writeCompletion {done : Bool} (h : Kept lim s) (hr : s.recovered = true)
    (hget : s.jobs.get? id = some job) (hpersisted : job.persisted = true)
    (hw : s.write fault (recordBackgroundCompletion job.data) = (done, s₁)) :
    Kept lim s₁ ∧ (∃ journal, s₁ = { s with journal }) ∧
      (done = true → ∀ j, s₁.journal = some j → job.data.completionId ∈ j.inserted) := by
  have hok := h.jobs id job hget
  rcases write_cases hw with ⟨rfl, hdone⟩ | ⟨j, j', hj, hrecord, rfl⟩
  · refine ⟨h, ⟨_, rfl⟩, fun hd j hj => ?_⟩
    rw [hdone hd] at hj
    cases hj
  · obtain ⟨hrows, hmem, hnodup, hinserted⟩ := completion_written hrecord
    have hjournal := h.journal j hj
    obtain ⟨row, hrow, hcid, hout, -⟩ := hok.row j hj
    refine ⟨h.rebook rfl rfl (fun id' job' _ => ?_) rfl rfl rfl h.live h.liveDrawn ?_, ⟨_, rfl⟩, ?_⟩
    · refine ⟨Iff.rfl, Iff.rfl, rfl, fun hd => hd, fun hl => hl, fun _ => nofun, fun j₁ hj₁ => ?_⟩
      cases hj₁
      refine ⟨j, hj, fun found hfound => ⟨found, hrows ▸ hfound, rfl, .inl rfl⟩, fun hr' => ?_⟩
      rw [show s.recovered = false from hr'] at hr
      cases hr
    · intro j₁ hj₁
      cases hj₁
      refine ⟨hrows ▸ hjournal.keys, fun id' found hfound => ?_, ?_, hnodup hjournal.inserted, ?_⟩
      · rw [hrows] at hfound
        have hold := hjournal.rows id' found hfound
        refine ⟨hold.key, hold.queued, hold.terminal, hold.drawn, fun hin => ?_, fun hlive => ?_⟩
        · rcases (hinserted _).mp hin with heq | hin
          · have hid : id' = id :=
              hjournal.distinct id' id found row hfound hrow (heq.trans hcid.symm)
            rw [hid, hrow] at hfound
            cases hfound
            rw [hout hpersisted]
            nofun
          · exact hold.settled hin
        · exact (hinserted _).mpr (.inr (hold.live hlive))
      · rw [hrows]
        exact hjournal.distinct
      · intro c hc
        rcases (hinserted c).mp hc with rfl | hc
        · exact hok.drawn
        · exact hjournal.drawn c hc
    · intro _ j₁ hj₁
      cases hj₁
      exact hmem

/-- A job is delivered: its completion is in the live history, and it is not pending any more. -/
theorem kept_delivered (h : Kept lim s) (hr : s.recovered = true)
    (hget : s.jobs.get? id = some job) (hpending : id ∈ s.pending)
    (hmem : ∀ j, s.journal = some j → job.data.completionId ∈ j.inserted) (text : Option String)
    {live : List String} (hlive : live = s.live ∨ live = s.live ++ [job.data.completionId]) :
    Kept lim { s.setJob id { job with data := { job.data with delivered := true, text } } with
      live, pending := s.pending.erase id } := by
  have hok := h.jobs id job hget
  obtain ⟨hpersisted, hundelivered⟩ := hok.pending.mp hpending
  have hfresh := hok.fresh hundelivered
  have hcount : ∀ p, (s.setJob id { job with
      data := { job.data with delivered := true, text } }).count p = s.count p := by
    intro p
    have hsum := count_replace hget { job with
      data := { job.data with delivered := true, text } } p
    simpa using hsum
  have hin : ∀ c ∈ live, c = job.data.completionId ∨ c ∈ s.live := by
    intro c hc
    rcases hlive with rfl | rfl
    · exact .inr hc
    · exact (mem_append.mp hc).symm.imp_left mem_singleton.mp
  refine h.put { job with data := { job.data with delivered := true, text } } rfl ?_
    (h.cid_ne hget rfl) (fun id' other hne hother => ?_) (fun id' hid' => .inr (mem_of_mem_erase hid'))
    (h.pending.erase id) (fun _ hid' => .inr hid') h.errors ?_ ?_ ?_ ?_ ?_
  · refine ⟨hok.key, hok.drawn, hok.phase, ?_, fun hp => ?_, hok.kept, hok.failed, nofun, hok.row,
      fun hr' => ?_⟩
    · refine iff_of_false (fun hmem => ?_) nofun
      exact (h.pending.mem_erase_iff.mp hmem).1 rfl
    · rw [show job.persisted = true from hpersisted] at hp
      cases hp
    · rw [show s.recovered = false from hr'] at hr
      cases hr
  · have hcid := (@Kept.cid_ne lim s id job job h hget rfl) id' other hne hother
    refine ⟨?_, Iff.rfl, rfl, fun hd => hd, fun hl => (hin _ hl).resolve_left hcid, fun hn => hn,
      fun j hj => ⟨j, hj, fun row hrow => ⟨row, hrow, rfl, .inl rfl⟩, fun _ => Iff.rfl⟩⟩
    exact mem_erase_of_ne hne
  · exact (congrArg (s.slots + ·) (hcount _)).trans h.slots
  · exact (hcount _).trans_le h.active
  · rcases hlive with rfl | rfl
    · exact h.live
    · refine nodup_append.mpr ⟨h.live, nodup_singleton _, fun a ha b hb heq => hfresh ?_⟩
      rw [← mem_singleton.mp hb, ← heq]
      exact ha
  · intro c hc
    rcases hin c hc with rfl | hc
    · exact hok.drawn
    · exact h.liveDrawn c hc
  · intro j hj
    have hjournal := h.journal j hj
    refine ⟨hjournal.keys, fun id' row hrow => ?_, hjournal.distinct, hjournal.inserted,
      hjournal.drawn⟩
    have hold := hjournal.rows id' row hrow
    refine ⟨hold.key, hold.queued, hold.terminal, hold.drawn, hold.settled, fun hl => ?_⟩
    rcases hin _ hl with heq | hl
    · rw [heq]
      exact hmem j hj
    · exact hold.live hl

theorem good_inserted (h : Good lim s) (fault : Fault) (appends : Bool) :
    Good lim (perform lim s (.inserted fault appends)) := by
  rw [perform]
  split
  · next archive id rest hholder =>
    have hok := h.holder
    rw [HolderOk, hholder] at hok
    obtain ⟨hr, hnodup, hpending⟩ := hok
    split
    · exact h
    · next job hget =>
      have hmem := hpending id mem_cons_self
      have hpersisted := ((h.kept.jobs id job hget).pending.mp hmem).1
      cases hw : s.write fault (recordBackgroundCompletion job.data) with
      | mk done s₁ =>
        obtain ⟨hkept, ⟨journal, hs₁⟩, hinserted⟩ :=
          kept_writeCompletion h.kept hr hget hpersisted hw
        cases done with
        | false => exact hkept.good_release
        | true =>
          have hinserted := hinserted rfl
          subst hs₁
          dsimp only
          unfold delivered
          split
          · exact hkept.good_release
          · split
            · exact hkept.good_release
            · refine good_nextInsert (kept_delivered hkept hr hget hmem hinserted _ ?_) hr archive
                (nodup_cons.mp hnodup).2 fun id' hid' => ?_
              · split
                · exact .inl rfl
                · exact .inr rfl
              · have hne : id' ≠ id := by
                  rintro rfl
                  exact (nodup_cons.mp hnodup).1 hid'
                exact (mem_erase_of_ne hne).mpr (hpending id' (mem_cons_of_mem _ hid'))
  · exact h

/-! ### Admission and closing -/

theorem good_submit (h : Good lim s) (jobId completionId agentType task : String) :
    Good lim (perform lim s (.submit jobId completionId agentType task)) := by
  rw [perform]
  split
  · next hadmit =>
    simp only [Bool.and_eq_true, State.ready, decide_eq_true_eq, Option.isNone_iff_eq_none]
      at hadmit
    obtain ⟨⟨⟨⟨⟨⟨⟨⟨-, hr⟩, -⟩, -⟩, -⟩, -⟩, hnone⟩, hactive⟩, hdrawn⟩ := hadmit
    have hkept : Kept lim { s with drawn := completionId :: s.drawn } := by
      refine h.kept.rebook rfl rfl (fun id job hget => ?_) rfl rfl rfl h.kept.live ?_ ?_
      · exact ⟨Iff.rfl, Iff.rfl, rfl, fun hd => mem_cons_of_mem _ hd, fun hl => hl,
          fun hn => hn, fun j hj => ⟨j, hj, fun row hrow => ⟨row, hrow, rfl, .inl rfl⟩,
            fun _ => Iff.rfl⟩⟩
      · exact fun c hc => mem_cons_of_mem _ (h.kept.liveDrawn c hc)
      · intro j hj
        have hjournal := h.kept.journal j hj
        refine ⟨hjournal.keys, fun id row hrow => ?_, hjournal.distinct, hjournal.inserted,
          fun c hc => mem_cons_of_mem _ (hjournal.drawn c hc)⟩
        have hold := hjournal.rows id row hrow
        exact ⟨hold.key, hold.queued, hold.terminal, mem_cons_of_mem _ hold.drawn,
          hold.settled, hold.live⟩
    refine ⟨hkept.withHolder _, hr, hnone, rfl, rfl, mem_cons_self, ⟨?_, ?_, ?_, ?_⟩, hactive⟩
    · intro id job hget heq
      have hold := (h.kept.jobs id job hget).drawn
      rw [heq] at hold
      exact hdrawn hold
    · intro j hj id row hrow heq
      have hold := ((h.kept.journal j hj).rows id row hrow).drawn
      rw [heq] at hold
      exact hdrawn hold
    · exact fun j hj hmem => hdrawn ((h.kept.journal j hj).drawn _ hmem)
    · exact fun hmem => hdrawn (h.kept.liveDrawn _ hmem)
  · exact h

theorem submission_recorded {j j' : Journal} {data : JobData}
    (h : recordBackgroundJobSubmitted data j = .ok j')
    (hnew : ∀ id row, j.rows.get? id = some row →
      row.submitted.completionId ≠ data.completionId) :
    (∀ id, j'.rows.get? id = if id = data.jobId then some ⟨data, none⟩ else j.rows.get? id) ∧
      j.rows.get? data.jobId = none ∧ (j.rows.keys.Nodup → j'.rows.keys.Nodup) ∧
      j'.inserted = j.inserted := by
  unfold recordBackgroundJobSubmitted at h
  split at h
  · cases h
  · split at h
    · next row hrow =>
      split at h
      · next heq => exact absurd (congrArg JobData.completionId heq) (hnew _ row hrow)
      · cases h
    · next hnone =>
      cases h
      exact ⟨fun id => Assoc.get?_set _ _ _ _, hnone, fun hk => Assoc.nodup_keys_set hk _ _, rfl⟩

theorem kept_writeSubmitted {data : JobData} {done : Bool} (h : Kept lim s)
    (hr : s.recovered = true) (hqueued : data.status = .queued)
    (hdrawn : data.completionId ∈ s.drawn) (hunused : Unused s data.completionId)
    (hw : s.write fault (recordBackgroundJobSubmitted data) = (done, s₁)) :
    Kept lim s₁ ∧ (∃ journal, s₁ = { s with journal }) ∧
      (done = true → ∀ j, s₁.journal = some j → j.rows.get? data.jobId = some ⟨data, none⟩) := by
  rcases write_cases hw with ⟨rfl, hdone⟩ | ⟨j, j', hj, hrecord, rfl⟩
  · refine ⟨h, ⟨_, rfl⟩, fun hd j hj => ?_⟩
    rw [hdone hd] at hj
    cases hj
  · obtain ⟨hget, hnone, hkeys, hinserted⟩ := submission_recorded hrecord (hunused.rows j hj)
    have hjournal := h.journal j hj
    refine ⟨h.rebook rfl rfl (fun id job _ => ?_) rfl rfl rfl h.live h.liveDrawn ?_, ⟨_, rfl⟩, ?_⟩
    · refine ⟨Iff.rfl, Iff.rfl, rfl, fun hd => hd, fun hl => hl, fun _ => nofun, fun j₁ hj₁ => ?_⟩
      cases hj₁
      refine ⟨j, hj, fun row hrow => ⟨row, ?_, rfl, .inl rfl⟩, fun _ => by rw [hinserted]⟩
      rw [hget, if_neg, hrow]
      rintro rfl
      rw [hnone] at hrow
      cases hrow
    · intro j₁ hj₁
      cases hj₁
      refine ⟨hkeys hjournal.keys, fun id row hrow => ?_, fun id id' row row' hrow hrow' heq => ?_,
        hinserted ▸ hjournal.inserted, hinserted ▸ hjournal.drawn⟩
      · rw [hget] at hrow
        split at hrow
        · next hid =>
          cases hrow
          refine ⟨hid.symm, hqueued, nofun, hdrawn, fun hin => ?_, fun hl => ?_⟩
          · rw [hinserted] at hin
            exact absurd hin (hunused.inserted j hj)
          · exact absurd hl hunused.live
        · have hold := hjournal.rows id row hrow
          exact ⟨hold.key, hold.queued, hold.terminal, hold.drawn, hinserted ▸ hold.settled,
            hinserted ▸ hold.live⟩
      · rw [hget] at hrow hrow'
        split at hrow
        · next hid =>
          split at hrow'
          · next hid' => rw [hid, hid']
          · cases hrow
            exact absurd heq.symm (hunused.rows j hj id' row' hrow')
        · split at hrow'
          · cases hrow'
            exact absurd heq (hunused.rows j hj id row hrow)
          · exact hjournal.distinct id id' row row' hrow hrow' heq
    · intro _ j₁ hj₁
      cases hj₁
      rw [hget, if_pos rfl]

theorem good_admitted (h : Good lim s) (fault : Fault) :
    Good lim (perform lim s (.admitted fault)) := by
  rw [perform]
  split
  · next data hholder =>
    have hok := h.holder
    rw [HolderOk, hholder] at hok
    obtain ⟨hr, hnone, hqueued, hundelivered, hdrawn, hunused, hactive⟩ := hok
    cases hw : s.write fault (recordBackgroundJobSubmitted data) with
    | mk done s₁ =>
      obtain ⟨hkept, ⟨journal, hs₁⟩, hrow⟩ :=
        kept_writeSubmitted h.kept hr hqueued hdrawn hunused hw
      cases done with
      | false => exact hkept.good_release
      | true =>
        have hrow := hrow rfl
        subst hs₁
        refine Kept.good_release ?_
        have hcount : ∀ p : Phase → Bool,
            (s.setJob data.jobId { data, phase := .scheduled }).count p =
              s.count p + if p .scheduled then 1 else 0 := by
          intro p
          have hsum := count_setJob s data.jobId { data, phase := .scheduled } p
          rw [hnone] at hsum
          exact hsum
        refine hkept.put { data, phase := .scheduled } rfl ?_ ?_ (fun _ _ _ _ => SameFor.refl _ _ _)
          (fun _ hid => .inr hid) hkept.pending (fun _ hid => .inr hid) hkept.errors ?_ ?_ hkept.live hkept.liveDrawn
          hkept.journal
        · refine ⟨rfl, hdrawn, ⟨hqueued, rfl⟩, ?_, fun _ => hundelivered, fun _ hp => ?_, ?_,
            fun _ => hunused.live, ?_, fun hr' => ?_⟩
          · refine iff_of_false (fun hmem => ?_) fun h => Bool.false_ne_true h.1
            exact h.kept.known data.jobId hmem hnone
          · rcases hp with hp | hp <;> cases hp
          · exact fun herror => absurd hnone (h.kept.knownErrors data.jobId herror)
          · intro j hj
            exact ⟨⟨data, none⟩, hrow j hj, rfl, fun h => (Bool.false_ne_true h).elim, .inl rfl⟩
          · rw [show s.recovered = false from hr'] at hr
            cases hr
        · exact fun id other _ hother => hunused.jobs id other hother
        · exact (congrArg (s.slots + ·) (hcount (· = .running))).trans h.kept.slots
        · have hone := hcount Phase.active
          change (s.setJob data.jobId { data, phase := .scheduled }).count Phase.active ≤ _
          rw [hone]
          exact hactive
  · exact h

theorem good_joined (h : Good lim s) : Good lim (perform lim s .joined) := by
  rw [perform]
  split
  · next hholder =>
    have hr := h.holder
    rw [HolderOk, hholder] at hr
    split
    · exact good_nextRetry h.kept hr _ h.kept.errors_idle
    · exact h
  · exact h

theorem good_close (h : Good lim s) : Good lim (perform lim s .close) := by
  rw [perform]
  split
  · next hready =>
    have hr : s.recovered = true := by
      rw [Bool.and_eq_true, State.ready, Bool.and_eq_true] at hready
      exact hready.1.2
    have hget : ∀ id, Assoc.get? (s.jobs.map fun e => (e.1, { e.2 with cancelRequested := true })) id =
        (s.jobs.get? id).map fun job => { job with cancelRequested := true } := fun id =>
      Assoc.get?_mapVal (fun _ (job : Job) => { job with cancelRequested := true }) s.jobs id
    have hcount : ∀ p : Phase → Bool,
        ((s.jobs.map fun e => (e.1, { e.2 with cancelRequested := true })).map fun e =>
          if p e.2.phase then 1 else 0).sum = s.count p := by
      intro p
      rw [map_map]
      rfl
    refine ⟨⟨?_, fun id job hjob => ?_, fun id id' job job' hjob hjob' => ?_, fun id hid => ?_,
      fun id hid => ?_, h.kept.errors, h.kept.pending, ?_, ?_, h.kept.live, h.kept.liveDrawn,
      h.kept.journal⟩, hr⟩
    · change ((s.jobs.map fun e => (e.1, { e.2 with cancelRequested := true })).map Prod.fst).Nodup
      rw [map_map]
      exact h.kept.keys
    · rw [hget] at hjob
      obtain ⟨old, hold, rfl⟩ := Option.map_eq_some_iff.mp hjob
      have hok := h.kept.jobs id old hold
      exact ⟨hok.key, hok.drawn, hok.phase, hok.pending, hok.undelivered, hok.kept, hok.failed,
        hok.fresh, hok.row, hok.early⟩
    · rw [hget] at hjob hjob'
      obtain ⟨old, hold, rfl⟩ := Option.map_eq_some_iff.mp hjob
      obtain ⟨old', hold', rfl⟩ := Option.map_eq_some_iff.mp hjob'
      exact h.kept.distinct id id' old old' hold hold'
    · rw [hget, ne_eq, Option.map_eq_none_iff]
      exact h.kept.known id hid
    · rw [hget, ne_eq, Option.map_eq_none_iff]
      exact h.kept.knownErrors id hid
    · exact (congrArg (s.slots + ·) (hcount _)).trans h.kept.slots
    · exact (hcount _).trans_le h.kept.active
  · exact h

end KolegaCode.Background
