import KolegaCode.Background.Kept

/-!
# Background — the tasks and the host

While an operation holds the manager's lock the tasks of the jobs go on and the host acts; what the
operation relies on stays true (`HolderOk.later`).  A commit of an outcome and the entry in the
mailbox are shared by the tasks and by the operations that retry them.
-/

namespace KolegaCode.Background

variable {lim : Limits} {s s' s₁ : State} {id : String} {job job' : Job} {fault : Fault}

/-! ### The holder of the lock, while others act -/

/-- What the tasks, the host and the journal may do while an operation holds the lock. -/
structure Later (s s' : State) : Prop where
  holder : s'.holder = s.holder
  recovered : s'.recovered = s.recovered
  active : s'.activeCount ≤ s.activeCount
  none : ∀ id, s.jobs.get? id = none → s'.jobs.get? id = none
  idle : ∀ id job, s.jobs.get? id = some job → job.phase.active = false → ∃ job',
    s'.jobs.get? id = some job' ∧ job'.persisted = job.persisted ∧ job'.phase.active = false
  pending : ∀ id ∈ s.pending, id ∈ s'.pending
  drawn : ∀ c ∈ s.drawn, c ∈ s'.drawn
  unused : ∀ c, Unused s c → Unused s' c

theorem HolderOk.later (h : HolderOk lim s) (hl : Later s s') (hr : s.recovered = true) :
    HolderOk lim s' := by
  unfold HolderOk at h ⊢
  rw [hl.holder]
  have hr' : s'.recovered = true := hl.recovered.trans hr
  cases hholder : s.holder with
  | none => trivial
  | some holder =>
    rw [hholder] at h
    cases holder with
    | reading =>
      rw [hr] at h
      cases h
    | recovering id rest =>
      rw [hr] at h
      cases h.1
    | admitting data =>
      obtain ⟨-, hnone, hqueued, hundelivered, hdrawn, hunused, hactive⟩ := h
      exact ⟨hr', hl.none _ hnone, hqueued, hundelivered, hl.drawn _ hdrawn, hl.unused _ hunused,
        Nat.lt_of_le_of_lt hl.active hactive⟩
    | retrying use id rest =>
      obtain ⟨-, ⟨job, hget, hpersisted, hphase⟩, hrest⟩ := h
      obtain ⟨job', hget', hpersisted', hphase'⟩ := hl.idle id job hget hphase
      refine ⟨hr', ⟨job', hget', hpersisted'.trans hpersisted, hphase'⟩, fun id' hid' found hfound => ?_⟩
      cases hold : s.jobs.get? id' with
      | none =>
        rw [hl.none id' hold] at hfound
        cases hfound
      | some old =>
        obtain ⟨found', hfound', -, hidle⟩ := hl.idle id' old hold (hrest id' hid' old hold)
        rw [hfound'] at hfound
        cases hfound
        exact hidle
    | inserting archive id rest =>
      obtain ⟨-, hnodup, hpending⟩ := h
      exact ⟨hr', hnodup, fun id' hid' => hl.pending id' (hpending id' hid')⟩
    | joining => exact hr'
    | preparing archive => exact hr'
    | marking archive => exact hr'

theorem later_touch (hget : s.jobs.get? id = some job) (job' : Job)
    (hcid : job'.data.completionId = job.data.completionId)
    (hactive : job'.phase.active = true → job.phase.active = true)
    (hidle : job.phase.active = false → job'.persisted = job.persisted) (slots : Nat) :
    Later s { s.setJob id job' with slots } where
  holder := rfl
  recovered := rfl
  active := by
    have hcount := count_replace hget job' Phase.active
    change (s.setJob id job').count Phase.active ≤ s.count Phase.active
    cases hp : job'.phase.active with
    | false =>
      rw [hp] at hcount
      simp only [Bool.false_eq_true, if_false, Nat.add_zero] at hcount
      omega
    | true =>
      rw [hp, hactive hp] at hcount
      simp only [if_true] at hcount
      omega
  none id' hnone := by
    rw [show ({ s.setJob id job' with slots } : State).jobs = (s.setJob id job').jobs from rfl,
      get?_setJob, if_neg, hnone]
    rintro rfl
    rw [hget] at hnone
    cases hnone
  idle id' found hfound hphase := by
    rw [get?_setJob]
    split
    · next heq =>
      subst heq
      rw [hget] at hfound
      cases hfound
      refine ⟨job', rfl, hidle hphase, ?_⟩
      by_contra hp
      rw [hactive (Bool.not_eq_false _ ▸ hp)] at hphase
      cases hphase
    · exact ⟨found, hfound, rfl, hphase⟩
  pending _ hid := hid
  drawn _ hc := hc
  unused c hunused := by
    refine ⟨fun id' found hfound => ?_, hunused.rows, hunused.inserted, hunused.live⟩
    rw [get?_setJob] at hfound
    split at hfound
    · cases hfound
      rw [hcid]
      exact hunused.jobs id job hget
    · exact hunused.jobs id' found hfound

/-! ### Steps of a task -/

theorem Kept.touch (h : Kept lim s) (hget : s.jobs.get? id = some job) (job' : Job)
    (hcid : job'.data.completionId = job.data.completionId) (hok : JobOk s.books id job')
    {slots : Nat} (hslots : slots + (s.setJob id job').count (· = .running) = lim.maxRunning)
    (hactive : (s.setJob id job').activeCount ≤ lim.maxJobs) :
    Kept lim { s.setJob id job' with slots } :=
  h.put job' rfl hok (h.cid_ne hget hcid) (fun _ _ _ _ => SameFor.refl _ _ _) (fun _ hid => .inr hid)
    h.pending (fun _ hid => .inr hid) h.errors hslots hactive h.live h.liveDrawn h.journal

/-- What a step of the task of a job makes of it, short of its end. -/
theorem JobOk.step {b : Books} (h : JobOk b id job) (hkey : job'.data.jobId = job.data.jobId)
    (hcid : job'.data.completionId = job.data.completionId)
    (hdelivered : job'.data.delivered = job.data.delivered)
    (hpersisted : job.persisted = false) (hpersisted' : job'.persisted = false)
    (hphase : PhaseOk job') (hactive : job.phase.active = true)
    (hactive' : job'.phase.active = true)
    (hopen : ∀ j, b.journal = some j → ∀ row, j.rows.get? id = some row → row.outcome = none) :
    JobOk b id job' where
  key := hkey.trans h.key
  drawn := hcid ▸ h.drawn
  phase := hphase
  pending := by
    rw [h.pending, hpersisted, hpersisted']
    exact Iff.intro (fun hp => by cases hp.1) (fun hp => by cases hp.1)
  undelivered _ := hdelivered.trans (h.undelivered hpersisted)
  kept _ hover := by
    rcases hover with hover | hover
    · rw [hover] at hactive'
      cases hactive'
    · rw [hover] at hactive'
      cases hactive'
  failed herror := by
    rw [h.failed herror] at hactive
    cases hactive
  fresh hd := hcid ▸ h.fresh (hdelivered ▸ hd)
  row j hj := by
    obtain ⟨row, hrow, hsub, -⟩ := h.row j hj
    refine ⟨row, hrow, hsub.trans hcid.symm, fun hp => ?_, .inl (hopen j hj row hrow)⟩
    rw [hpersisted'] at hp
    cases hp
  early hr := by
    rw [(h.early hr).2.1] at hactive
    cases hactive

/-- An active task has a manager that has recovered. -/
theorem JobOk.recovered_of_active (h : JobOk s.books id job) (hactive : job.phase.active = true) :
    s.recovered = true := by
  by_contra hr
  rw [(h.early (Bool.not_eq_true _ ▸ hr)).2.1] at hactive
  cases hactive

theorem jobIn_eq_some {phase : Phase} (h : s.jobIn id phase = some job) :
    s.jobs.get? id = some job ∧ job.phase = phase := by
  obtain ⟨hget, hphase⟩ := Option.filter_eq_some_iff.mp h
  exact ⟨hget, of_decide_eq_true hphase⟩

theorem PhaseOk.unfinished (h : PhaseOk job)
    (hbefore : job.phase = .scheduled ∨ job.phase = .waiting ∨ job.phase = .running) :
    job.persisted = false ∧ job.data.status.terminal = false ∧ job.phase.active = true := by
  unfold PhaseOk at h
  rcases hbefore with hp | hp | hp
  · rw [hp] at h ⊢
    exact ⟨h.2, by rw [h.1]; rfl, rfl⟩
  · rw [hp] at h ⊢
    exact ⟨h.2, by rw [h.1]; rfl, rfl⟩
  · rw [hp] at h ⊢
    exact ⟨h.2, by rw [h.1]; rfl, rfl⟩

theorem Good.step (h : Good lim s) (hget : s.jobs.get? id = some job) (job' : Job)
    (hbefore : job.phase = .scheduled ∨ job.phase = .waiting ∨ job.phase = .running)
    (hkey : job'.data.jobId = job.data.jobId)
    (hcid : job'.data.completionId = job.data.completionId)
    (hdelivered : job'.data.delivered = job.data.delivered)
    (hpersisted' : job'.persisted = job.persisted)
    (hphase : job'.persisted = false → PhaseOk job') (hactive' : job'.phase.active = true)
    {slots : Nat}
    (hslots : slots + (if job'.phase = .running then 1 else 0) =
      s.slots + if job.phase = .running then 1 else 0) :
    Good lim { s.setJob id job' with slots } := by
  have hok := h.kept.jobs id job hget
  obtain ⟨hpersisted, hopen, hactive⟩ := hok.phase.unfinished hbefore
  have hnot := hpersisted'.trans hpersisted
  have hlater := later_touch hget job' hcid (fun _ => hactive)
    (fun hidle => absurd hactive (by rw [hidle]; nofun)) slots
  refine ⟨h.kept.touch hget job' hcid (hok.step hkey hcid hdelivered hpersisted hnot (hphase hnot)
    hactive hactive' fun j hj row hrow => h.kept.row_open hget hopen hj hrow) ?_
    (Nat.le_trans hlater.active h.kept.active), ?_⟩
  · have hcount := count_replace hget job' (· = .running)
    have hsum := h.kept.slots
    simp only [decide_eq_true_eq] at hcount
    omega
  · exact h.holder.later hlater (hok.recovered_of_active hactive)

theorem good_start (h : Good lim s) (id : String) : Good lim (perform lim s (.start id)) := by
  rw [perform]
  split
  · exact h
  · next job hjob =>
    obtain ⟨hget, hphase⟩ := jobIn_eq_some hjob
    have hok := (h.kept.jobs id job hget).phase
    rw [PhaseOk, hphase] at hok
    split
    · exact h.step hget
        { job with phase := .committing, data := Outcome.cancelled.settled job.data }
        (.inl hphase) rfl rfl rfl rfl (fun hp => ⟨rfl, hp⟩) rfl (by rw [hphase]; rfl)
    · exact h.step hget { job with phase := .waiting } (.inl hphase) rfl rfl rfl rfl
        (fun _ => hok) rfl (by rw [hphase]; rfl)

theorem good_enter (h : Good lim s) (id : String) : Good lim (perform lim s (.enter id)) := by
  rw [perform]
  split
  · exact h
  · next job hjob =>
    obtain ⟨hget, hphase⟩ := jobIn_eq_some hjob
    split
    · exact h
    · next hfree =>
      refine h.step hget { job with phase := .running, data := { job.data with status := .running } }
        (.inr (.inl hphase)) rfl rfl rfl rfl (fun hp => ⟨rfl, hp⟩) rfl ?_
      rw [hphase]
      simp only [if_true, reduceCtorEq, if_false]
      omega

theorem good_abort (h : Good lim s) (id : String) : Good lim (perform lim s (.abort id)) := by
  rw [perform]
  split
  · exact h
  · next job hjob =>
    obtain ⟨hget, hphase⟩ := jobIn_eq_some hjob
    exact h.step hget
      { job with phase := .committing, data := Outcome.cancelled.settled job.data }
      (.inr (.inl hphase)) rfl rfl rfl rfl (fun hp => ⟨rfl, hp⟩) rfl (by rw [hphase]; rfl)

theorem good_finish (h : Good lim s) (id : String) (outcome : Outcome) :
    Good lim (perform lim s (.finish id outcome)) := by
  rw [perform]
  split
  · exact h
  · next job hjob =>
    obtain ⟨hget, hphase⟩ := jobIn_eq_some hjob
    have hterminal : (outcome.settled job.data).status.terminal = true := by
      cases outcome <;> rfl
    refine h.step hget { job with phase := .committing, data := outcome.settled job.data }
      (.inr (.inr hphase)) ?_ ?_ ?_ rfl (fun hp => ⟨hterminal, hp⟩) rfl (by rw [hphase]; rfl)
    · cases outcome <;> rfl
    · cases outcome <;> rfl
    · cases outcome <;> rfl

/-! ### Writes to the journal -/

/-- A write leaves the journal as it was, or as the record leaves it; it succeeds only where there
is no recorder or the record was stored. -/
theorem write_cases {record : Journal → Except JournalError Journal} {done : Bool}
    (h : s.write fault record = (done, s₁)) :
    (s₁ = s ∧ (done = true → s.journal = none)) ∨
      ∃ j j', s.journal = some j ∧ record j = .ok j' ∧ s₁ = { s with journal := some j' } := by
  unfold State.write at h
  split at h
  · next hnone =>
    cases h
    exact .inl ⟨rfl, fun _ => hnone⟩
  · next j hj =>
    split at h
    · next j' hok =>
      cases h
      exact .inr ⟨j, j', hj, hok, rfl⟩
    · next j' hok =>
      cases h
      exact .inr ⟨j, j', hj, hok, rfl⟩
    · cases h
      exact .inl ⟨rfl, nofun⟩

variable {j j' : Journal} {data : JobData} {live drawn errors : List String}

theorem terminal_recorded {row : Row} (h : recordBackgroundJobTerminal data j = .ok j')
    (hrow : j.rows.get? data.jobId = some row) :
    data.status.terminal = true ∧
      (row.outcome = none ∨ row.outcome = some (data.status, data.result)) ∧
      j'.rows.get? data.jobId = some ⟨row.submitted, some (data.status, data.result)⟩ ∧
      (∀ id, id ≠ data.jobId → j'.rows.get? id = j.rows.get? id) ∧
      (j.rows.keys.Nodup → j'.rows.keys.Nodup) ∧
      j'.inserted = j.inserted ∧ j'.archived = j.archived := by
  unfold recordBackgroundJobTerminal at h
  split at h
  · cases h
  · next hterminal =>
    have hterminal' : data.status.terminal = true := by simpa using hterminal
    split at h
    · next submitted hget =>
      rw [hrow] at hget
      cases hget
      cases h
      exact ⟨hterminal', .inl rfl, Assoc.get?_set_self _ _ _,
        fun id hne => Assoc.get?_set_of_ne hne, fun hk => Assoc.nodup_keys_set hk _ _, rfl, rfl⟩
    · next submitted outcome hget =>
      rw [hrow] at hget
      cases hget
      split at h
      · next heq =>
        cases h
        exact ⟨hterminal', .inr (congrArg some heq), heq ▸ hrow, fun _ _ => rfl, fun hk => hk, rfl,
          rfl⟩
      · cases h
    · next hnone =>
      rw [hrow] at hnone
      cases hnone

theorem journalOk_terminal {row : Row} (hj : JournalOk live drawn j)
    (h : recordBackgroundJobTerminal data j = .ok j') (hrow : j.rows.get? data.jobId = some row) :
    JournalOk live drawn j' := by
  obtain ⟨hterminal, -, hget, hothers, hkeys, hinserted, -⟩ := terminal_recorded h hrow
  have hold : ∀ {id found}, j'.rows.get? id = some found → ∃ old, j.rows.get? id = some old ∧
      found.submitted = old.submitted ∧ (found = old ∨ found.outcome = some (data.status, data.result)) := by
    intro id found hfound
    by_cases heq : id = data.jobId
    · rw [heq, hget] at hfound
      cases hfound
      exact ⟨row, heq ▸ hrow, rfl, .inr rfl⟩
    · rw [hothers id heq] at hfound
      exact ⟨found, hfound, rfl, .inl rfl⟩
  refine ⟨hkeys hj.keys, fun id found hfound => ?_, ?_, hinserted ▸ hj.inserted, hinserted ▸ hj.drawn⟩
  · obtain ⟨old, hgetold, hsub, hout⟩ := hold hfound
    have hok := hj.rows id old hgetold
    refine ⟨hsub ▸ hok.key, hsub ▸ hok.queued, fun outcome houtcome => ?_, hsub ▸ hok.drawn, ?_, ?_⟩
    · rcases hout with rfl | hout
      · exact hok.terminal outcome houtcome
      · rw [hout] at houtcome
        cases houtcome
        exact hterminal
    · intro hmem
      rcases hout with rfl | hout
      · rw [hinserted] at hmem
        exact hok.settled hmem
      · rw [hout]
        nofun
    · rw [hinserted, hsub]
      exact hok.live
  · intro id id' found found' h₁ h₂ heq
    obtain ⟨old, hget₁, hsub₁, -⟩ := hold h₁
    obtain ⟨old', hget₂, hsub₂, -⟩ := hold h₂
    rw [hsub₁, hsub₂] at heq
    exact hj.distinct id id' old old' hget₁ hget₂ heq

theorem kept_writeTerminal {done : Bool} (h : Kept lim s) (hget : s.jobs.get? id = some job)
    (hw : s.write fault (recordBackgroundJobTerminal job.data) = (done, s₁)) :
    Kept lim s₁ ∧ Later s s₁ ∧ (∃ journal, s₁ = { s with journal }) ∧
      (done = true → ∀ j, s₁.journal = some j → ∃ row, j.rows.get? id = some row ∧
        row.submitted.completionId = job.data.completionId ∧
        row.outcome = some (job.data.status, job.data.result)) := by
  have hok := h.jobs id job hget
  rcases write_cases hw with ⟨rfl, hdone⟩ | ⟨j, j', hj, hrecord, rfl⟩
  · refine ⟨h, ⟨rfl, rfl, Nat.le_refl _, fun _ hn => hn, fun _ job hj hp => ⟨job, hj, rfl, hp⟩,
      fun _ hp => hp, fun _ hc => hc, fun _ hu => hu⟩, ⟨_, rfl⟩, fun hd j hj => ?_⟩
    rw [hdone hd] at hj
    cases hj
  · obtain ⟨row, hrow, hcid, -⟩ := hok.row j hj
    rw [← hok.key] at hrow
    obtain ⟨-, hbefore, hafter, hothers, -, hinserted, -⟩ := terminal_recorded hrecord hrow
    have hrows : ∀ id' job', s.jobs.get? id' = some job' → ∀ old, j.rows.get? id' = some old →
        ∃ row', j'.rows.get? id' = some row' ∧ row'.submitted = old.submitted ∧
          (row'.outcome = old.outcome ∨
            row'.outcome = some (job'.data.status, job'.data.result)) := by
      intro id' job' hjob' old hold
      by_cases heq : id' = job.data.jobId
      · have hself : job' = job := by
          rw [heq, hok.key, hget] at hjob'
          exact (Option.some.inj hjob').symm
        rw [heq, hrow] at hold
        cases hold
        refine ⟨⟨row.submitted, some (job.data.status, job.data.result)⟩, ?_, rfl, .inr ?_⟩
        · rw [heq]
          exact hafter
        · rw [hself]
      · exact ⟨old, (hothers id' heq).trans hold, rfl, .inl rfl⟩
    refine ⟨h.rebook rfl rfl (fun id' job' hjob' => ?_) rfl rfl rfl h.live h.liveDrawn ?_, ?_,
      ⟨_, rfl⟩, ?_⟩
    · exact ⟨Iff.rfl, Iff.rfl, rfl, fun hd => hd, fun hl => hl, fun _ => nofun, fun j₁ hj₁ => by
        cases hj₁
        exact ⟨j, hj, hrows id' job' hjob', fun _ => by rw [hinserted]⟩⟩
    · intro j₁ hj₁
      cases hj₁
      exact journalOk_terminal (h.journal j hj) hrecord hrow
    · refine ⟨rfl, rfl, Nat.le_refl _, fun _ hn => hn, fun _ job hj hp => ⟨job, hj, rfl, hp⟩,
        fun _ hp => hp, fun _ hc => hc, fun c hu => ⟨hu.jobs, ?_, ?_, hu.live⟩⟩
      · intro j₁ hj₁ id' found hfound
        cases hj₁
        by_cases heq : id' = job.data.jobId
        · rw [heq, hafter] at hfound
          cases hfound
          exact hu.rows j hj _ row hrow
        · rw [hothers id' heq] at hfound
          exact hu.rows j hj id' found hfound
      · intro j₁ hj₁
        cases hj₁
        rw [hinserted]
        exact hu.inserted j hj
    · intro _ j₁ hj₁
      cases hj₁
      refine ⟨⟨row.submitted, some (job.data.status, job.data.result)⟩, ?_, hcid, rfl⟩
      rw [← hok.key]
      exact hafter

/-! ### The mailbox -/

theorem sameFor_of_ne {b b' : Books} {id' : String} (hne : id' ≠ id)
    (hpending : b'.pending = insertKey b.pending id ∨ b'.pending = b.pending)
    (herrors : b'.errors = b.errors ∨ b'.errors = insertKey b.errors id ∨
      b'.errors = b.errors.erase id)
    (hrecovered : b'.recovered = b.recovered) (hjournal : b'.journal = b.journal)
    (hlive : b'.live = b.live) (hdrawn : b'.drawn = b.drawn) (other : Job) :
    SameFor b b' id' other where
  pending := by
    rcases hpending with hp | hp
    · rw [hp, mem_insertKey, or_iff_right hne]
    · rw [hp]
  errors := by
    rcases herrors with he | he | he
    · rw [he]
    · rw [he, mem_insertKey, or_iff_right hne]
    · rw [he, List.mem_erase_of_ne hne]
  recovered := hrecovered
  drawn := by rw [hdrawn]; exact fun h => h
  live := by rw [hlive]; exact fun h => h
  written := by rw [hjournal]; exact fun h => h
  journal j hj := by
    rw [hjournal] at hj
    exact ⟨j, hj, fun row hrow => ⟨row, hrow, rfl, .inl rfl⟩, fun _ => Iff.rfl⟩

theorem count_of_not (hget : s.jobs.get? id = some job) (job' : Job) (p : Phase → Bool)
    (hp : p job.phase = false) (hp' : p job'.phase = false) :
    (s.setJob id job').count p = s.count p := by
  have hcount := count_replace hget job' p
  rw [hp, hp'] at hcount
  simpa using hcount

/-- A job whose outcome is committed is entered in the mailbox. -/
theorem kept_settle (h : Kept lim s) (hget : s.jobs.get? id = some job)
    (hpersisted : job.persisted = false) (hterminal : job.data.status.terminal = true)
    (hrow : ∀ j, s.journal = some j → ∃ row, j.rows.get? id = some row ∧
      row.submitted.completionId = job.data.completionId ∧
      row.outcome = some (job.data.status, job.data.result)) {phase : Phase}
    (hphase : phase = .ended ∨ phase = .recovered)
    (hsame : job.phase = .committing ∨ job.phase = phase)
    (herrors : errors = s.errors ∨ errors = s.errors.erase id)
    (hfailed : id ∈ errors → phase = .ended) (hempty : s.errors = [] → errors = []) :
    Kept lim { s.settle id { job with phase } with errors } := by
  have hok := h.jobs id job hget
  have hidle : phase.active = false := by rcases hphase with rfl | rfl <;> rfl
  have hrun : decide (phase = .running) = false := by rcases hphase with rfl | rfl <;> rfl
  have hrun' : decide (job.phase = .running) = false := by
    rcases hsame with hsame | hsame
    · rw [hsame]; rfl
    · rw [hsame, hrun]
  have hslots := count_of_not hget { job with phase, persisted := true } (· = .running)
    hrun' hrun
  refine h.put { job with phase, persisted := true } rfl ?_ (h.cid_ne hget rfl)
    (fun id' other hne _ => ?_) (fun id' hid' => mem_insertKey.mp hid')
    (nodup_insertKey h.pending id) (fun id' hid' => .inr ?_) (fun hr => hempty (h.errors hr)) ?_ ?_
    h.live h.liveDrawn h.journal
  · refine ⟨hok.key, hok.drawn, ?_, ?_, nofun, nofun, hfailed, hok.fresh, ?_, ?_⟩
    · unfold PhaseOk
      rcases hphase with rfl | rfl <;> exact hterminal
    · exact iff_of_true (mem_insertKey.mpr (.inl rfl)) ⟨rfl, hok.undelivered hpersisted⟩
    · intro j hj
      obtain ⟨row, hrow, hcid, hout⟩ := hrow j hj
      exact ⟨row, hrow, hcid, fun _ => hout, .inr hout⟩
    · intro hr
      obtain ⟨hjournal, hearly, -, hdelivered⟩ := hok.early hr
      refine ⟨hjournal, ?_, nofun, hdelivered⟩
      rcases hsame with hsame | hsame
      · rw [hsame] at hearly
        cases hearly
      · exact hsame.symm.trans hearly
  · refine sameFor_of_ne hne ?_ ?_ ?_ ?_ ?_ ?_ other
    · exact .inl rfl
    · exact herrors.imp_right .inr
    all_goals rfl
  · rcases herrors with rfl | rfl
    · exact hid'
    · exact List.mem_of_mem_erase hid'
  · exact (congrArg (s.slots + ·) hslots).trans h.slots
  · refine Nat.le_trans ?_ h.active
    have hcount := count_replace hget { job with phase, persisted := true } Phase.active
    simp only [hidle, Bool.false_eq_true, if_false, Nat.add_zero] at hcount
    change (s.setJob id { job with phase, persisted := true }).count Phase.active ≤ _
    unfold State.activeCount
    omega

/-- A task ends with its outcome uncommitted, and its error is kept. -/
theorem kept_fail (h : Kept lim s) (hget : s.jobs.get? id = some job)
    (hphase : job.phase = .committing) :
    Kept lim { s.setJob id { job with phase := .ended } with errors := insertKey s.errors id } := by
  have hok := h.jobs id job hget
  have hold := hok.phase
  rw [PhaseOk, hphase] at hold
  have hactive : job.phase.active = true := by rw [hphase]; rfl
  have hslots := count_of_not hget { job with phase := .ended } (· = .running)
    (by rw [hphase]; rfl) rfl
  have hlater := later_touch hget { job with phase := .ended } rfl (fun _ => hactive)
    (fun hidle => by rw [hactive] at hidle) s.slots
  refine h.put { job with phase := .ended } rfl ?_ (h.cid_ne hget rfl)
    (fun id' other hne _ => ?_) (fun id' hid' => .inr hid') h.pending
    (fun id' hid' => mem_insertKey.mp hid') ?_ ?_ ?_ h.live h.liveDrawn h.journal
  · refine ⟨hok.key, hok.drawn, hold.1, hok.pending, hok.undelivered, ?_, fun _ => rfl, hok.fresh,
      hok.row, ?_⟩
    · exact fun _ _ => .inl (mem_insertKey.mpr (.inl rfl))
    · intro hr
      have hearly := (hok.early hr).2.1
      rw [hphase] at hearly
      cases hearly
  · refine sameFor_of_ne hne ?_ ?_ ?_ ?_ ?_ ?_ other
    · exact .inr rfl
    · exact .inr (.inl rfl)
    all_goals rfl
  · intro hr
    have hrecovered := hok.recovered_of_active hactive
    rw [show s.recovered = false from hr] at hrecovered
    cases hrecovered
  · exact (congrArg (s.slots + ·) hslots).trans h.slots
  · exact Nat.le_trans hlater.active h.active

theorem Later.trans {s₂ : State} (h : Later s s₁) (h' : Later s₁ s₂) : Later s s₂ where
  holder := h'.holder.trans h.holder
  recovered := h'.recovered.trans h.recovered
  active := Nat.le_trans h'.active h.active
  none id hn := h'.none id (h.none id hn)
  idle id job hget hphase := by
    obtain ⟨job₁, hget₁, hp₁, hphase₁⟩ := h.idle id job hget hphase
    obtain ⟨job₂, hget₂, hp₂, hphase₂⟩ := h'.idle id job₁ hget₁ hphase₁
    exact ⟨job₂, hget₂, hp₂.trans hp₁, hphase₂⟩
  pending id hid := h'.pending id (h.pending id hid)
  drawn c hc := h'.drawn c (h.drawn c hc)
  unused c hc := h'.unused c (h.unused c hc)

theorem Later.books (h : Later s s₁) {pending : List String}
    (hpending : ∀ id ∈ s₁.pending, id ∈ pending) : Later s { s₁ with pending, errors } where
  holder := h.holder
  recovered := h.recovered
  active := h.active
  none := h.none
  idle := h.idle
  pending id hid := hpending id (h.pending id hid)
  drawn := h.drawn
  unused c hc := ⟨(h.unused c hc).jobs, (h.unused c hc).rows, (h.unused c hc).inserted,
    (h.unused c hc).live⟩

theorem good_committed (h : Good lim s) (id : String) (fault : Fault) :
    Good lim (perform lim s (.committed id fault)) := by
  rw [perform]
  split
  · exact h
  · next job hjob =>
    obtain ⟨hget, hphase⟩ := jobIn_eq_some hjob
    have hok := h.kept.jobs id job hget
    have hold := hok.phase
    rw [PhaseOk, hphase] at hold
    have hactive : job.phase.active = true := by rw [hphase]; rfl
    have hrecovered := hok.recovered_of_active hactive
    cases hw : s.write fault (recordBackgroundJobTerminal job.data) with
    | mk done s₁ =>
      obtain ⟨hkept, hlater, ⟨journal, hs₁⟩, hrow⟩ := kept_writeTerminal h.kept hget hw
      have hget₁ : s₁.jobs.get? id = some job := by
        rw [hs₁]
        exact hget
      have htouch : ∀ job', job'.data.completionId = job.data.completionId →
          job'.phase.active = false → Later s₁ { s₁.setJob id job' with slots := s₁.slots } :=
        fun job' hcid hidle => later_touch hget₁ job' hcid
          (fun ha => by rw [hidle] at ha; cases ha)
          (fun hi => by rw [hactive] at hi; cases hi) s₁.slots
      cases done with
      | true =>
        have hsettled := kept_settle hkept hget₁ hold.2 hold.1 (hrow rfl) (.inl rfl) (.inl hphase)
          (.inl rfl) (fun _ => rfl) (fun h => h)
        refine ⟨hsettled, h.holder.later ?_ hrecovered⟩
        exact (hlater.trans (htouch { job with phase := .ended, persisted := true } rfl rfl)).books
          (fun id hid => mem_insertKey.mpr (.inr hid))
      | false =>
        refine ⟨kept_fail hkept hget₁ hphase, h.holder.later ?_ hrecovered⟩
        exact (hlater.trans (htouch { job with phase := .ended } rfl rfl)).books (fun id hid => hid)

/-! ### The host -/

theorem later_of_jobs (hholder : s'.holder = s.holder) (hrecovered : s'.recovered = s.recovered)
    (hpending : s'.pending = s.pending) (hdrawn : s'.drawn = s.drawn) (hlive : s'.live = s.live)
    (hjobs : s'.jobs = s.jobs)
    (hjournal : ∀ j', s'.journal = some j' → ∃ j, s.journal = some j ∧ j'.rows = j.rows ∧
      j'.inserted = j.inserted) : Later s s' where
  holder := hholder
  recovered := hrecovered
  active := Nat.le_of_eq (by rw [State.activeCount, State.activeCount, State.count, State.count, hjobs])
  none id hn := by rw [hjobs]; exact hn
  idle id job hget hp := ⟨job, by rw [hjobs]; exact hget, rfl, hp⟩
  pending id hid := by rw [hpending]; exact hid
  drawn c hc := by rw [hdrawn]; exact hc
  unused c hu := by
    refine ⟨fun id job hget => hu.jobs id job (by rw [← hjobs]; exact hget), ?_, ?_, ?_⟩
    · intro j' hj' id row hrow
      obtain ⟨j, hj, hrows, -⟩ := hjournal j' hj'
      exact hu.rows j hj id row (by rw [← hrows]; exact hrow)
    · intro j' hj'
      obtain ⟨j, hj, -, hinserted⟩ := hjournal j' hj'
      rw [hinserted]
      exact hu.inserted j hj
    · rw [hlive]
      exact hu.live

theorem journalOk_same (h : JournalOk live drawn j) (hrows : j'.rows = j.rows)
    (hinserted : j'.inserted = j.inserted) : JournalOk live drawn j' := by
  refine ⟨hrows ▸ h.keys, fun id row hrow => ?_, ?_, hinserted ▸ h.inserted, hinserted ▸ h.drawn⟩
  · have hok := h.rows id row (hrows ▸ hrow)
    exact ⟨hok.key, hok.queued, hok.terminal, hok.drawn, hinserted ▸ hok.settled,
      hinserted ▸ hok.live⟩
  · rw [hrows]
    exact h.distinct

theorem read_same (h : Read j data) (hrows : j'.rows = j.rows)
    (hinserted : j'.inserted = j.inserted) : Read j' data := by
  obtain ⟨row, hrow, hdata⟩ := h
  refine ⟨row, hrows ▸ hrow, ?_⟩
  rw [Row.data] at hdata ⊢
  rw [hinserted]
  exact hdata

/-- The host marks reports as archived, leaves the epoch, rebinds the recorder or stops
admission. -/
theorem good_host (h : Good lim s) (mark : Journal → Journal) (closed rebound : Bool)
    (hrows : ∀ j, (mark j).rows = j.rows) (hinserted : ∀ j, (mark j).inserted = j.inserted) :
    Good lim { s with journal := s.journal.map mark, closed, rebound } := by
  have hjournal : ∀ j', s.journal.map mark = some j' → ∃ j, s.journal = some j ∧
      j'.rows = j.rows ∧ j'.inserted = j.inserted := by
    intro j' hj'
    obtain ⟨j, hj, rfl⟩ := Option.map_eq_some_iff.mp hj'
    exact ⟨j, hj, hrows j, hinserted j⟩
  refine ⟨h.kept.rebook rfl rfl (fun id job _ => ?_) rfl rfl rfl h.kept.live h.kept.liveDrawn
    ?_, ?_⟩
  · refine ⟨Iff.rfl, Iff.rfl, rfl, fun hd => hd, fun hl => hl, fun hne hnone => hne ?_, ?_⟩
    · exact Option.map_eq_none_iff.mp hnone
    · intro j' hj'
      obtain ⟨j, hj, hr, hi⟩ := hjournal j' hj'
      refine ⟨j, hj, fun row hrow => ⟨row, hr ▸ hrow, rfl, .inl rfl⟩, fun _ => ?_⟩
      rw [hi]
  · intro j' hj'
    obtain ⟨j, hj, hr, hi⟩ := hjournal j' hj'
    exact journalOk_same (h.kept.journal j hj) hr hi
  · by_cases hr : s.recovered = true
    · exact h.holder.later (later_of_jobs rfl rfl rfl rfl rfl rfl hjournal) hr
    · -- only a recovery can hold the lock
      have hholder := h.holder
      unfold HolderOk at hholder ⊢
      dsimp only
      cases heq : s.holder with
      | none => trivial
      | some holder =>
        rw [heq] at hholder
        cases holder with
        | reading => exact hholder
        | recovering id rest =>
          obtain ⟨hrec, job, hget, hpersisted, data, hid, ⟨j, hj, hread⟩, hids, hcovers⟩ := hholder
          refine ⟨hrec, job, hget, hpersisted, data, hid, ⟨mark j, ?_, fun row hrow => ?_⟩, hids,
            hcovers⟩
          · exact Option.map_eq_some_iff.mpr ⟨j, hj, rfl⟩
          · exact read_same (hread row hrow) (hrows j) (hinserted j)
        | admitting data | retrying use id rest | inserting archive id rest =>
          exact absurd hholder.1 hr
        | joining | preparing archive | marking archive => exact absurd hholder hr

theorem good_cancel (h : Good lim s) (id : String) : Good lim (perform lim s (.cancel id)) := by
  rw [perform]
  split
  · next hr =>
    split
    · exact h
    · next job hget =>
      have hok := h.kept.jobs id job hget
      have hcount : ∀ p, (s.setJob id { job with cancelRequested := true }).count p = s.count p := by
        intro p
        have := count_replace hget { job with cancelRequested := true } p
        simpa using this
      have hlater := later_touch hget { job with cancelRequested := true } rfl
        (fun ha => ha) (fun _ => rfl) s.slots
      refine ⟨h.kept.touch hget { job with cancelRequested := true } rfl ?_ ?_ (Nat.le_trans hlater.active h.kept.active),
        h.holder.later hlater hr⟩
      · exact ⟨hok.key, hok.drawn, hok.phase, hok.pending, hok.undelivered, hok.kept, hok.failed,
          hok.fresh, hok.row, hok.early⟩
      · rw [hcount]
        exact h.kept.slots
  · exact h

end KolegaCode.Background
