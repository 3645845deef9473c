import KolegaCode.Background.Operations

/-!
# Background — recovery, and every action

A recovery goes through the rows of the journal.  An earlier attempt may have broken off half way,
so a row may have a job already; both then say the same of it.
-/

namespace KolegaCode.Background

open List

variable {lim : Limits} {s s' s₁ : State} {id : String} {job job' : Job} {fault : Fault}

/-! ### Recovery -/

variable {j : Journal} {live drawn : List String} {data : JobData} {rest rows : List JobData}

theorem Read.facts (h : Read j data) (hj : JournalOk live drawn j) :
    ∃ row, j.rows.get? data.jobId = some row ∧
      row.submitted.completionId = data.completionId ∧
      data.delivered = decide (data.completionId ∈ j.inserted) ∧
      (data.status.terminal = true → row.outcome = some (data.status, data.result)) ∧
      (data.status.terminal = false → row.outcome = none) := by
  obtain ⟨row, hrow, hdata⟩ := h
  have hok := hj.rows _ row hrow
  have hcid : data.completionId = row.submitted.completionId := by rw [hdata]; rfl
  have hdelivered : data.delivered = decide (row.submitted.completionId ∈ j.inserted) := by
    rw [hdata]
    rfl
  have hstatus : data.status = (row.outcome.map Prod.fst).getD row.submitted.status := by
    rw [hdata]
    rfl
  have hresult : data.result = (row.outcome.map Prod.snd).getD row.submitted.result := by
    rw [hdata]
    rfl
  refine ⟨row, hrow, hcid.symm, by rw [hdelivered, hcid], fun hterminal => ?_, fun hopen => ?_⟩
  · cases hout : row.outcome with
    | none =>
      rw [hstatus, hout, hok.queued] at hterminal
      cases hterminal
    | some outcome => rw [hstatus, hresult, hout]; rfl
  · cases hout : row.outcome with
    | none => rfl
    | some outcome =>
      have hterminal := hok.terminal outcome hout
      rw [hstatus, hout] at hopen
      rw [show outcome.1.terminal = false from hopen] at hterminal
      cases hterminal

/-- A recovered job replaces what an earlier attempt had made of it. -/
theorem count_recovered (hold : ∀ old, s.jobs.get? id = some old → old.phase = .recovered)
    (hphase : job.phase = .recovered) (p : Phase → Bool) (hp : p .recovered = false) :
    (s.setJob id job).count p = s.count p := by
  have hsum := count_setJob s id job p
  rw [hphase, hp] at hsum
  cases hget : s.jobs.get? id with
  | none =>
    rw [hget] at hsum
    exact hsum
  | some old =>
    rw [hget, Option.map_some, Option.getD_some, hold old hget, hp] at hsum
    exact hsum

theorem kept_row {pending : List String} (job : Job) (h : Kept lim s) (hr : s.recovered = false)
    (hrec : Recovering s (data :: rest))
    (hjob : job.data.jobId = data.jobId ∧ job.data.completionId = data.completionId ∧
      job.data.delivered = data.delivered ∧ job.phase = .recovered ∧
      job.data.status.terminal = true)
    (hpending : pending = s.pending ∨ pending = insertKey s.pending data.jobId)
    (hin : data.jobId ∈ pending ↔ job.persisted = true ∧ job.data.delivered = false)
    (hundelivered : job.persisted = false → job.data.delivered = false ∧
      job.data.status = .interrupted ∧ job.data.result = lostResult)
    (hout : ∀ j, s.journal = some j → ∀ row, j.rows.get? data.jobId = some row →
      (job.persisted = true → row.outcome = some (job.data.status, job.data.result)) ∧
      (row.outcome = none ∨ row.outcome = some (job.data.status, job.data.result))) :
    Kept lim { s.setJob data.jobId job with pending } := by
  obtain ⟨⟨j, hj, hread⟩, -, -⟩ := hrec
  have hjournal := h.journal j hj
  obtain ⟨row, hrow, hcid, hdelivered, -, -⟩ := (hread data mem_cons_self).facts hjournal
  have hok := hjournal.rows _ row hrow
  obtain ⟨hid, hcid', hdelivered', hphase, hterminal⟩ := hjob
  have hold : ∀ old, s.jobs.get? data.jobId = some old → old.phase = .recovered := fun old hget =>
    ((h.jobs _ old hget).early hr).2.1
  refine h.put job rfl ?_ ?_ (fun id' other hne _ => ?_) (fun id' hid' => ?_) ?_ (fun _ hid' => .inr hid')
    h.errors ?_ ?_ h.live h.liveDrawn h.journal
  · refine ⟨hid, ?_, ?_, hin, fun hp => (hundelivered hp).1, fun _ _ => .inr hr, fun herror => ?_,
      fun hd => ?_, fun j' hj' => ?_, fun _ => ⟨fun hnone => ?_, hphase,
        fun hp => (hundelivered hp).2, fun j' hj' => ?_⟩⟩
    · rw [hcid', ← hcid]
      exact hok.drawn
    · rw [PhaseOk, hphase]
      exact hterminal
    · rw [show ({ s.setJob data.jobId job with pending } : State).books.errors = [] from
        h.errors hr] at herror
      cases herror
    · intro hl
      rw [hcid', ← hcid] at hl
      rw [hdelivered', hdelivered, ← hcid, decide_eq_false_iff_not] at hd
      exact hd (hok.live hl)
    · cases hj.symm.trans hj'
      exact ⟨row, hrow, hcid.trans hcid'.symm, hout j hj row hrow⟩
    · rw [show s.journal = none from hnone] at hj
      cases hj
    · cases hj.symm.trans hj'
      rw [hdelivered', hdelivered, hcid']
  · intro id' other hne hother heq
    obtain ⟨row', hrow', hcidOther, -⟩ := (h.jobs id' other hother).row j hj
    exact hne (hjournal.distinct id' _ row' row hrow' hrow
      (hcidOther.trans (heq.trans (hcid'.trans hcid.symm))))
  · refine sameFor_of_ne hne ?_ ?_ ?_ ?_ ?_ ?_ other
    · exact hpending.symm
    · exact .inl rfl
    all_goals rfl
  · rcases hpending with rfl | rfl
    · exact .inr hid'
    · exact mem_insertKey.mp hid'
  · rcases hpending with rfl | rfl
    · exact h.pending
    · exact nodup_insertKey h.pending _
  · refine (congrArg (s.slots + ·) (count_recovered hold hphase _ rfl)).trans h.slots
  · exact (count_recovered hold hphase _ rfl).trans_le h.active

/-- Once every job is committed the recovery is done. -/
theorem kept_recovered (h : Kept lim s)
    (hall : ∀ id job, s.jobs.get? id = some job → job.persisted = true) :
    Kept lim { s with recovered := true, holder := none } where
  keys := h.keys
  jobs id job hget := by
    have hok := h.jobs id job hget
    refine ⟨hok.key, hok.drawn, hok.phase, hok.pending, hok.undelivered, fun hp => ?_, hok.failed,
      hok.fresh, hok.row, nofun⟩
    rw [hall id job hget] at hp
    cases hp
  distinct := h.distinct
  known := h.known
  knownErrors := h.knownErrors
  errors := nofun
  pending := h.pending
  slots := h.slots
  active := h.active
  live := h.live
  liveDrawn := h.liveDrawn
  journal := h.journal

theorem Recovering.next (h : Recovering s (data :: rest)) (hjournal : s'.journal = s.journal)
    (hget : ∀ id, id ≠ data.jobId → s'.jobs.get? id = s.jobs.get? id)
    (hself : ∀ job, s'.jobs.get? data.jobId = some job → job.persisted = true) :
    Recovering s' rest := by
  obtain ⟨⟨j, hj, hread⟩, hids, hcovers⟩ := h
  refine ⟨⟨j, hjournal.trans hj, fun row hrow => hread row (mem_cons_of_mem _ hrow)⟩,
    (nodup_cons.mp hids).2, fun id job hjob hp => ?_⟩
  by_cases hid : id = data.jobId
  · rw [hid] at hjob
    rw [hself job hjob] at hp
    cases hp
  · rw [hget id hid] at hjob
    have hmem := hcovers id job hjob hp
    rw [map_cons, mem_cons] at hmem
    exact hmem.resolve_left hid

theorem good_recoverRows (h : Kept lim s) (hr : s.recovered = false) (hrec : Recovering s rows) :
    Good lim (recoverRows s rows) := by
  induction rows generalizing s with
  | nil =>
    refine ⟨kept_recovered h fun id job hget => ?_, trivial⟩
    by_contra hp
    exact absurd (hrec.covers id job hget (Bool.not_eq_true _ ▸ hp)) not_mem_nil
  | cons data rest ih =>
    obtain ⟨j, hj, hread⟩ := hrec.journal
    obtain ⟨row, hrow, hcid, hdelivered, hsettled, hopen⟩ :=
      (hread data mem_cons_self).facts (h.journal j hj)
    -- an earlier attempt may have made a job of the row already
    have hold : ∀ old, s.jobs.get? data.jobId = some old → old.data.delivered = data.delivered ∧
        (old.persisted = true → row.outcome = some (old.data.status, old.data.result)) := by
      intro old hget
      have hok := h.jobs _ old hget
      obtain ⟨row', hrow', hcid', hout, -⟩ := hok.row j hj
      rw [hrow] at hrow'
      cases hrow'
      exact ⟨by rw [(hok.early hr).2.2.2 j hj, hdelivered, ← hcid', hcid], hout⟩
    have hnot : (data.delivered = true ∨ row.outcome = none) → data.jobId ∉ s.pending := by
      intro hcase hmem
      obtain ⟨old, hget⟩ := Option.ne_none_iff_exists'.mp (h.known _ hmem)
      obtain ⟨hp, hd⟩ := (h.jobs _ old hget).pending.mp hmem
      obtain ⟨hsame, hout⟩ := hold old hget
      rcases hcase with hcase | hcase
      · rw [hsame, hcase] at hd
        cases hd
      · rw [hout hp] at hcase
        cases hcase
    have hself : ∀ (job : Job) (pending : List String),
        ∀ job', ({ s.setJob data.jobId job with pending } : State).jobs.get? data.jobId = some job' →
          job' = job := by
      intro job pending job' hget
      rw [get?_setJob, if_pos rfl] at hget
      exact (Option.some.inj hget).symm
    have hothers : ∀ (job : Job) (id : String), id ≠ data.jobId →
        (s.setJob data.jobId job).jobs.get? id = s.jobs.get? id := by
      intro job id hne
      rw [get?_setJob, if_neg hne]
    rw [recoverRows]
    cases hterminal : data.status.terminal with
    | true =>
      rw [if_pos rfl]
      have hout : ∀ j', s.journal = some j' → ∀ row', j'.rows.get? data.jobId = some row' →
          (true = true → row'.outcome = some (data.status, data.result)) ∧
          (row'.outcome = none ∨ row'.outcome = some (data.status, data.result)) := by
        intro j' hj' row' hrow'
        cases hj.symm.trans hj'
        rw [hrow] at hrow'
        cases hrow'
        exact ⟨fun _ => hsettled hterminal, .inr (hsettled hterminal)⟩
      cases hd : data.delivered with
      | true =>
        rw [if_pos rfl]
        have hkept := kept_row { data, phase := .recovered, persisted := true } h hr hrec
          ⟨rfl, rfl, rfl, rfl, hterminal⟩ (.inl rfl)
          (iff_of_false (hnot (.inl hd)) fun hp => by rw [hd] at hp; cases hp.2) nofun hout
        exact ih hkept hr (hrec.next rfl (hothers _) fun job' hget => by
          rw [hself _ s.pending job' hget])
      | false =>
        rw [if_neg (by decide)]
        have hkept := kept_row { data, phase := .recovered, persisted := true } h hr hrec
          ⟨rfl, rfl, rfl, rfl, hterminal⟩ (.inr rfl)
          (iff_of_true (mem_insertKey.mpr (.inl rfl)) ⟨rfl, hd⟩) nofun hout
        exact ih hkept hr (hrec.next rfl (hothers _) fun job' hget => by
          rw [hself _ (insertKey s.pending data.jobId) job' hget])
    | false =>
      rw [if_neg (by decide)]
      have hnone := hopen hterminal
      have hd : data.delivered = false := by
        rw [hdelivered, decide_eq_false_iff_not, ← hcid]
        exact fun hin => ((h.journal j hj).rows _ row hrow).settled hin hnone
      have hkept := kept_row { data := { data with
          status := .interrupted, result := lostResult }, phase := .recovered } h hr hrec
        ⟨rfl, rfl, rfl, rfl, rfl⟩ (.inl rfl)
        (iff_of_false (hnot (.inr hnone)) nofun) (fun _ => ⟨hd, rfl, rfl⟩) fun j' hj' row' hrow' => by
          cases hj.symm.trans hj'
          rw [hrow] at hrow'
          cases hrow'
          exact ⟨nofun, .inl hnone⟩
      refine ⟨hkept.withHolder _, hr, _, (get?_setJob _ _ _ _).trans (if_pos rfl), rfl, data, rfl,
        ⟨j, hj, hread⟩, hrec.ids, fun id job hget hp => ?_⟩
      by_cases hid : id = data.jobId
      · rw [hid]
        exact mem_map_of_mem mem_cons_self
      · refine hrec.covers id job ?_ hp
        rw [← hothers _ id hid]
        exact hget

theorem read_readBackgroundJobs (hj : JournalOk live drawn j) :
    ∀ data ∈ readBackgroundJobs j, Read j data := by
  intro data hdata
  obtain ⟨⟨id, row⟩, hmem, rfl⟩ := mem_map.mp hdata
  have hget := Assoc.get?_of_mem hj.keys hmem
  refine ⟨row, ?_, rfl⟩
  rw [← hget]
  exact congrArg _ (hj.rows id row hget).key

theorem ids_readBackgroundJobs (hj : JournalOk live drawn j) :
    (readBackgroundJobs j).map JobData.jobId = j.rows.keys := by
  rw [readBackgroundJobs, map_map]
  exact map_congr_left fun e he =>
    (hj.rows e.1 e.2 (Assoc.get?_of_mem hj.keys he)).key

/-- What is read of the journal covers every job. -/
theorem recovering_readBackgroundJobs (h : Kept lim s) (hj : s.journal = some j) :
    Recovering s (readBackgroundJobs j) := by
  have hjournal := h.journal j hj
  refine ⟨⟨j, hj, read_readBackgroundJobs hjournal⟩, ?_, fun id job hget _ => ?_⟩
  · rw [ids_readBackgroundJobs hjournal]
    exact hjournal.keys
  · obtain ⟨row, hrow, -⟩ := (h.jobs id job hget).row j hj
    rw [ids_readBackgroundJobs hjournal]
    exact Assoc.mem_keys_of_get? hrow

theorem good_recover (h : Good lim s) : Good lim (perform lim s .recover) := by
  rw [perform]
  split
  · next hready =>
    have hr : s.recovered = false := by
      rw [Bool.and_eq_true, Bool.not_eq_true'] at hready
      exact hready.2
    split
    · next hnone =>
      refine ⟨kept_recovered h.kept fun id job hget => ?_, trivial⟩
      exact absurd hnone ((h.kept.jobs id job hget).early hr).1
    · exact ⟨h.kept.withHolder _, hr⟩
  · exact h

theorem good_rowsRead (h : Good lim s) (fault : Fault) :
    Good lim (perform lim s (.rowsRead fault)) := by
  rw [perform]
  split
  · next j hholder hj =>
    have hr := h.holder
    rw [HolderOk, hholder] at hr
    split
    · exact good_recoverRows h.kept hr (recovering_readBackgroundJobs h.kept hj)
    · exact h.kept.good_release
  · exact h

/-- The outcome of a lost job is committed: its row is done with. -/
theorem kept_lostCommitted {done : Bool} (h : Good lim s)
    (hholder : s.holder = some (.recovering id rows)) (hget : s.jobs.get? id = some job)
    (hw : s.write fault (recordBackgroundJobTerminal job.data) = (done, s₁)) :
    Kept lim s₁ ∧ s₁.jobs = s.jobs ∧ (done = true → Kept lim (s₁.settle id job) ∧
      (s₁.settle id job).recovered = false ∧ Recovering (s₁.settle id job) rows) := by
  have hok := h.holder
  rw [HolderOk, hholder] at hok
  obtain ⟨hr, found, hfound, hpersisted, data, hid, hrec⟩ := hok
  rw [hget] at hfound
  cases hfound
  have hjob := h.kept.jobs id job hget
  obtain ⟨-, hphase, -, -⟩ := hjob.early hr
  have hterminal := terminal_of_not_active hjob.phase (by rw [hphase]; rfl)
  obtain ⟨hkept, hlater, ⟨journal, hs₁⟩, hrow⟩ := kept_writeTerminal h.kept hget hw
  refine ⟨hkept, by rw [hs₁], fun hdone => ?_⟩
  have hget₁ : s₁.jobs.get? id = some job := by
    rw [hs₁]
    exact hget
  have hr₁ : s₁.recovered = false := hlater.recovered.trans hr
  have hsettled := kept_settle hkept hget₁ hpersisted hterminal (hrow hdone) (.inr hphase)
    (.inr rfl) (.inl rfl) (fun hmem => by rw [hkept.errors hr₁] at hmem; cases hmem)
    (fun hnil => hnil)
  refine ⟨hsettled, hr₁, ?_⟩
  obtain ⟨⟨j, hj, hread⟩, hids, hcovers⟩ := hrec
  refine ⟨?_, (nodup_cons.mp hids).2, fun id' found hfound hp => ?_⟩
  · rcases write_cases hw with ⟨rfl, hnone⟩ | ⟨j₀, j', hj₀, hrecord, rfl⟩
    · rw [hnone hdone] at hj
      cases hj
    · cases hj.symm.trans hj₀
      obtain ⟨row, hrow', -⟩ := hjob.row j hj
      rw [← hjob.key] at hrow'
      obtain ⟨-, -, -, hothers, -, hinserted, -⟩ := terminal_recorded hrecord hrow'
      refine ⟨j', rfl, fun other hother => ?_⟩
      obtain ⟨row', hrow₂, hdata⟩ := hread other (mem_cons_of_mem _ hother)
      have hne : other.jobId ≠ job.data.jobId := by
        rw [hjob.key, ← hid]
        exact fun heq => (nodup_cons.mp hids).1 (heq ▸ mem_map_of_mem hother)
      refine ⟨row', (hothers _ hne).trans hrow₂, ?_⟩
      rw [Row.data] at hdata ⊢
      rw [hinserted]
      exact hdata
  · change (s₁.setJob id { job with persisted := true }).jobs.get? id' = some found at hfound
    rw [get?_setJob] at hfound
    split at hfound
    · cases hfound
      cases hp
    · next hne =>
      rw [hs₁] at hfound
      have hmem := hcovers id' found hfound hp
      rw [map_cons, mem_cons, hid] at hmem
      exact hmem.resolve_left hne

theorem good_lostCommitted (h : Good lim s) (fault : Fault) :
    Good lim (perform lim s (.lostCommitted fault)) := by
  rw [perform]
  split
  · next id rows hholder =>
    split
    · exact h
    · next job hget =>
      cases hw : s.write fault (recordBackgroundJobTerminal job.data) with
      | mk done s₁ =>
        obtain ⟨hkept, -, hdone⟩ := kept_lostCommitted h hholder hget hw
        cases done with
        | false => exact hkept.good_release
        | true =>
          obtain ⟨hsettled, hr, hrec⟩ := hdone rfl
          exact good_recoverRows hsettled hr hrec
  · exact h

/-- A new manager finds the journal of the last one, if any. -/
theorem kept_start (journal : Option Journal) (hlive : live.Nodup)
    (hdrawn : ∀ c ∈ live, c ∈ drawn) (hjournal : ∀ j, journal = some j → JournalOk live drawn j) :
    Kept lim { State.start lim journal with live, drawn } where
  keys := nodup_nil
  jobs id job hget := by cases hget
  distinct id id' job job' hget := by cases hget
  known id hid := by cases hid
  knownErrors id hid := by cases hid
  errors _ := rfl
  pending := nodup_nil
  slots := Nat.add_zero _
  active := Nat.zero_le _
  live := hlive
  liveDrawn := hdrawn
  journal := hjournal

theorem journalOk_empty (hrows : j.rows = []) (hinserted : j.inserted = []) :
    JournalOk live drawn j := by
  refine ⟨hrows ▸ nodup_nil, fun id row hrow => ?_, fun id id' row row' hrow => ?_,
    hinserted ▸ nodup_nil, fun c hc => ?_⟩
  · rw [hrows] at hrow
    cases hrow
  · rw [hrows] at hrow
    cases hrow
  · rw [hinserted] at hc
    cases hc

theorem good_restart (h : Good lim s) : Good lim (perform lim s .restart) := by
  rw [perform]
  refine ⟨kept_start _ h.kept.live h.kept.liveDrawn fun j' hj' => ?_, trivial⟩
  obtain ⟨j, hj, rfl⟩ := Option.map_eq_some_iff.mp hj'
  unfold Journal.resumed
  split
  · exact h.kept.journal j hj
  · exact journalOk_empty rfl rfl

/-! ### Every action -/

theorem good_new (lim : Limits) (journal : Option Journal)
    (hempty : ∀ j, journal = some j → j.rows = [] ∧ j.inserted = []) :
    Good lim (State.start lim journal) :=
  ⟨kept_start journal nodup_nil (fun _ hc => by cases hc) fun j hj =>
    journalOk_empty (hempty j hj).1 (hempty j hj).2, trivial⟩

theorem good_perform (h : Good lim s) (action : Action) : Good lim (perform lim s action) := by
  cases action with
  | recover => exact good_recover h
  | submit jobId completionId agentType task => exact good_submit h jobId completionId agentType task
  | deliver archive => exact good_deliver h archive
  | close => exact good_close h
  | rowsRead fault => exact good_rowsRead h fault
  | lostCommitted fault => exact good_lostCommitted h fault
  | admitted fault => exact good_admitted h fault
  | joined => exact good_joined h
  | retried fault => exact good_retried h fault
  | prepared raises => exact good_prepared h raises
  | marked fault => exact good_marked h fault
  | inserted fault appends => exact good_inserted h fault appends
  | start id => exact good_start h id
  | enter id => exact good_enter h id
  | abort id => exact good_abort h id
  | finish id outcome => exact good_finish h id outcome
  | committed id fault => exact good_committed h id fault
  | cancel id => exact good_cancel h id
  | stopAdmission =>
    have hhost := good_host h id true s.rebound (fun _ => rfl) (fun _ => rfl)
    rw [Option.map_id] at hhost
    exact hhost
  | rebind rebound =>
    have hhost := good_host h id s.closed rebound (fun _ => rfl) (fun _ => rfl)
    rw [Option.map_id] at hhost
    exact hhost
  | switchEpoch => exact good_host h _ s.closed s.rebound (fun _ => rfl) (fun _ => rfl)
  | archiveReports completionIds =>
    exact good_host h _ s.closed s.rebound (fun _ => rfl) (fun _ => rfl)
  | restart => exact good_restart h

theorem good_run (h : Good lim s) (actions : List Action) : Good lim (run lim s actions) := by
  induction actions generalizing s with
  | nil => exact h
  | cons action actions ih => exact ih (good_perform h action)

end KolegaCode.Background
