import KolegaCode.Background.Recovery

/-!
# Background — delivered once, and what lasts

What the invariant says of the jobs of any run (`Delivery`), and that an outcome is final
(`Lasts`): a terminal job keeps its status and its result, and a committed outcome is what every
later manager of the epoch recovers.
-/

namespace KolegaCode.Background

open List

variable {lim : Limits} {s s' s₁ : State} {id : String} {job job' : Job} {fault : Fault}

/-! ### What lasts -/

/-- The outcomes in the journal stay there. -/
def RowsLast (j j' : Journal) : Prop :=
  ∀ id row outcome, j.rows.get? id = some row → row.outcome = some outcome →
    ∃ row', j'.rows.get? id = some row' ∧ row'.outcome = some outcome

/-- Two jobs have ended alike. -/
def Job.SameOutcome (job job' : Job) : Prop :=
  job'.data.status = job.data.status ∧ job'.data.result = job.data.result

structure Lasts (s s' : State) : Prop where
  jobs : ∀ id job, s.jobs.get? id = some job → job.data.status.terminal = true →
    ∃ job', s'.jobs.get? id = some job' ∧ job.SameOutcome job'
  rows : ∀ j, s.journal = some j → ∃ j', s'.journal = some j' ∧ RowsLast j j'

theorem RowsLast.refl (j : Journal) : RowsLast j j :=
  fun _ row _ hrow hout => ⟨row, hrow, hout⟩

theorem Lasts.trans (h : Lasts s s₁) (h' : Lasts s₁ s') : Lasts s s' where
  jobs id job hget hterminal := by
    obtain ⟨job₁, hget₁, hstatus, hresult⟩ := h.jobs id job hget hterminal
    obtain ⟨job', hget', hstatus', hresult'⟩ := h'.jobs id job₁ hget₁ (by rw [hstatus, hterminal])
    exact ⟨job', hget', hstatus'.trans hstatus, hresult'.trans hresult⟩
  rows j hj := by
    obtain ⟨j₁, hj₁, hlast⟩ := h.rows j hj
    obtain ⟨j', hj', hlast'⟩ := h'.rows j₁ hj₁
    refine ⟨j', hj', fun id row outcome hrow hout => ?_⟩
    obtain ⟨row₁, hrow₁, hout₁⟩ := hlast id row outcome hrow hout
    exact hlast' id row₁ outcome hrow₁ hout₁

theorem Lasts.same (hjobs : s'.jobs = s.jobs) (hjournal : s'.journal = s.journal) : Lasts s s' where
  jobs _ job hget _ := ⟨job, by rw [hjobs]; exact hget, rfl, rfl⟩
  rows j hj := ⟨j, hjournal.trans hj, RowsLast.refl j⟩

theorem Lasts.refl (s : State) : Lasts s s := .same rfl rfl

theorem Lasts.put (hjobs : s'.jobs = s.jobs.set id job) (hjournal : s'.journal = s.journal)
    (hsame : ∀ old, s.jobs.get? id = some old → old.data.status.terminal = true →
      old.SameOutcome job) : Lasts s s' where
  jobs id' found hget hterminal := by
    rw [hjobs, Assoc.get?_set]
    split
    · next heq =>
      subst heq
      exact ⟨job, rfl, hsame found hget hterminal⟩
    · exact ⟨found, hget, rfl, rfl⟩
  rows j hj := ⟨j, hjournal.trans hj, RowsLast.refl j⟩

variable {record : Journal → Except JournalError Journal} {done : Bool} {j j' : Journal}
  {data : JobData} {rows : List JobData}

theorem Lasts.write (hw : s.write fault record = (done, s₁))
    (hrecord : ∀ j j', record j = .ok j' → RowsLast j j') : Lasts s s₁ := by
  rcases write_cases hw with ⟨rfl, -⟩ | ⟨j, j', hj, hok, rfl⟩
  · exact .refl _
  · refine ⟨fun id job hget _ => ⟨job, hget, rfl, rfl⟩, fun j₀ hj₀ => ?_⟩
    rw [hj] at hj₀
    cases hj₀
    exact ⟨j', rfl, hrecord j j' hok⟩

theorem write_jobs (hw : s.write fault record = (done, s₁)) : s₁.jobs = s.jobs := by
  rcases write_cases hw with ⟨rfl, -⟩ | ⟨j, j', -, -, rfl⟩
  · rfl
  · rfl

/-! ### The records -/

theorem RowsLast.set {row : Row} (hopen : ∀ old, j.rows.get? id = some old → old.outcome = none) :
    RowsLast j { j with rows := j.rows.set id row } := by
  intro id' found outcome hfound hout
  rw [Assoc.get?_set]
  split
  · next heq =>
    subst heq
    rw [hopen found hfound] at hout
    cases hout
  · exact ⟨found, hfound, hout⟩

theorem rowsLast_terminal (h : recordBackgroundJobTerminal data j = .ok j') : RowsLast j j' := by
  unfold recordBackgroundJobTerminal at h
  split at h
  · cases h
  · split at h
    · next submitted hget =>
      cases h
      refine .set fun old hold => ?_
      rw [hget] at hold
      cases hold
      rfl
    · split at h
      · cases h
        exact .refl j
      · cases h
    · next hnone =>
      cases h
      refine .set fun old hold => ?_
      rw [hnone] at hold
      cases hold

theorem rowsLast_submitted (h : recordBackgroundJobSubmitted data j = .ok j') : RowsLast j j' := by
  unfold recordBackgroundJobSubmitted at h
  split at h
  · cases h
  · split at h
    · split at h
      · cases h
        exact .refl j
      · cases h
    · next hnone =>
      cases h
      refine .set fun old hold => ?_
      rw [hnone] at hold
      cases hold

theorem rowsLast_completion (h : recordBackgroundCompletion data j = .ok j') : RowsLast j j' := by
  obtain ⟨hrows, -⟩ := completion_written h
  intro id row outcome hrow hout
  exact ⟨row, by rw [hrows]; exact hrow, hout⟩

/-! ### The loops under the lock -/

theorem lasts_settle (hget : s.jobs.get? id = some job) {job' : Job} (hdata : job'.data = job.data) :
    Lasts s (s.settle id job') := by
  refine .put rfl rfl fun old hold _ => ?_
  rw [hget] at hold
  cases hold
  exact ⟨congrArg JobData.status hdata, congrArg JobData.result hdata⟩

theorem lasts_nextRetry (s : State) (use : Use) (rest : List String) :
    Lasts s (nextRetry s use rest) := by
  induction rest with
  | nil =>
    rw [nextRetry]
    split
    · cases use with
      | close => exact .same rfl rfl
      | deliver archive =>
        rw [afterRetry]
        split
        · exact .same rfl rfl
        · exact .same rfl rfl
    · exact .same rfl rfl
  | cons id rest ih =>
    rw [nextRetry]
    split
    · exact ih
    · split
      · exact .same rfl rfl
      · exact ih

theorem lasts_nextInsert (s : State) (archive : Bool) (ids : List String) :
    Lasts s (nextInsert s archive ids) := by
  unfold nextInsert
  split
  · exact .same rfl rfl
  · next id rest =>
    split
    · exact .same rfl rfl
    · split
      · exact .same rfl rfl
      · next job hget =>
        refine .put rfl rfl fun old hold _ => ?_
        rw [hget] at hold
        cases hold
        cases archive with
        | false => exact ⟨rfl, rfl⟩
        | true => exact ⟨rfl, rfl⟩

theorem lasts_markArchived (s : State) (rows : List JobData) : Lasts s (markArchived s rows) := by
  unfold markArchived
  induction rows generalizing s with
  | nil => exact .refl s
  | cons row rows ih =>
    rw [foldl_cons]
    refine Lasts.trans ?_ (ih _)
    split
    · split
      · exact .refl s
      · next job hget =>
        refine .put rfl rfl fun old hold _ => ?_
        rw [hget] at hold
        cases hold
        exact ⟨rfl, rfl⟩
    · exact .refl s

theorem lasts_delivered (hget : s.jobs.get? id = some job) (archive : Bool) (rest : List String)
    (appends : Bool) : Lasts s (delivered s archive id rest job appends) := by
  unfold delivered
  split
  · exact .same rfl rfl
  · split
    · exact .same rfl rfl
    · dsimp only
      refine Lasts.trans ?_ (lasts_nextInsert _ archive rest)
      refine .put rfl rfl fun old hold _ => ?_
      rw [hget] at hold
      cases hold
      exact ⟨rfl, rfl⟩

/-- What a recovery makes of a row agrees with the job that an earlier attempt made of it. -/
def Agrees (s : State) (data : JobData) : Prop :=
  ∀ old, s.jobs.get? data.jobId = some old →
    (data.status.terminal = true →
      old.data.status = data.status ∧ old.data.result = data.result) ∧
    (data.status.terminal = false →
      old.data.status = .interrupted ∧ old.data.result = lostResult)

theorem lasts_recoverRows (hids : (rows.map JobData.jobId).Nodup)
    (hagree : ∀ data ∈ rows, Agrees s data) : Lasts s (recoverRows s rows) := by
  induction rows generalizing s with
  | nil => exact .same rfl rfl
  | cons data rest ih =>
    obtain ⟨hnew, hids⟩ := nodup_cons.mp hids
    have hself := hagree data mem_cons_self
    have hrest : ∀ (job : Job) (pending : List String), ∀ other ∈ rest,
        Agrees { s.setJob data.jobId job with pending } other := by
      intro job pending other hother old hold
      rw [get?_setJob, if_neg] at hold
      · exact hagree other (mem_cons_of_mem _ hother) old hold
      · exact fun heq => hnew (heq ▸ mem_map_of_mem hother)
    rw [recoverRows]
    split
    · next hterminal =>
      have hput : ∀ pending, Lasts s { s.setJob data.jobId
          { data, phase := .recovered, persisted := true } with pending } := fun pending =>
        .put rfl rfl fun old hold _ => by
          obtain ⟨hstatus, hresult⟩ := (hself old hold).1 hterminal
          exact ⟨hstatus.symm, hresult.symm⟩
      split
      · exact (hput s.pending).trans (ih hids (hrest _ s.pending))
      · exact (hput _).trans (ih hids (hrest _ _))
    · next hterminal =>
      refine .put rfl rfl fun old hold _ => ?_
      obtain ⟨hstatus, hresult⟩ := (hself old hold).2 (Bool.not_eq_true _ ▸ hterminal)
      exact ⟨hstatus.symm, hresult.symm⟩

/-- The jobs of an earlier attempt say what the journal says. -/
theorem agrees_rows (h : Kept lim s) (hr : s.recovered = false) (hrec : Recovering s rows) :
    ∀ data ∈ rows, Agrees s data := by
  obtain ⟨⟨j, hj, hread⟩, -, -⟩ := hrec
  intro data hdata old hold
  obtain ⟨row, hrow, -, -, hsettled, hopen⟩ := (hread data hdata).facts (h.journal j hj)
  have hok := h.jobs _ old hold
  obtain ⟨row', hrow', -, hout, hmatches⟩ := hok.row j hj
  rw [hrow] at hrow'
  cases hrow'
  refine ⟨fun hterminal => ?_, fun hterminal => ?_⟩
  · rcases hmatches with hnone | hmatches
    · rw [hsettled hterminal] at hnone
      cases hnone
    · rw [hsettled hterminal] at hmatches
      obtain ⟨hstatus, hresult⟩ := Prod.mk.inj (Option.some.inj hmatches)
      exact ⟨hstatus.symm, hresult.symm⟩
  · have hnone := hopen hterminal
    refine (hok.early hr).2.2.1 ?_
    by_contra hpersisted
    rw [hout (Bool.not_eq_false _ ▸ hpersisted)] at hnone
    cases hnone

/-! ### Every action -/

theorem lasts_step (h : Kept lim s) (hget : s.jobs.get? id = some job) (job' : Job)
    (hbefore : job.phase = .scheduled ∨ job.phase = .waiting ∨ job.phase = .running)
    (slots : Nat) : Lasts s { s.setJob id job' with slots } := by
  obtain ⟨-, hopen, -⟩ := (h.jobs id job hget).phase.unfinished hbefore
  refine .put rfl rfl fun old hold hterminal => ?_
  rw [hget] at hold
  cases hold
  rw [hopen] at hterminal
  cases hterminal

theorem lasts_writeTerminal (hw : s.write fault (recordBackgroundJobTerminal data) = (done, s₁)) :
    Lasts s s₁ :=
  .write hw fun _ _ h => rowsLast_terminal h

theorem lasts_committed (h : Good lim s) (id : String) (fault : Fault) :
    Lasts s (perform lim s (.committed id fault)) := by
  rw [perform]
  split
  · exact .refl s
  · next job hjob =>
    obtain ⟨hget, -⟩ := jobIn_eq_some hjob
    cases hw : s.write fault (recordBackgroundJobTerminal job.data) with
    | mk done s₁ =>
      obtain ⟨-, -, ⟨journal, hs₁⟩, -⟩ := kept_writeTerminal h.kept hget hw
      have hget₁ : s₁.jobs.get? id = some job := by
        rw [hs₁]
        exact hget
      refine (lasts_writeTerminal hw).trans ?_
      cases done with
      | true => exact lasts_settle hget₁ rfl
      | false =>
        refine .put rfl rfl fun old hold _ => ?_
        rw [hget₁] at hold
        cases hold
        exact ⟨rfl, rfl⟩

theorem lasts_lostCommitted (h : Good lim s) (fault : Fault) :
    Lasts s (perform lim s (.lostCommitted fault)) := by
  rw [perform]
  split
  · next id rows hholder =>
    split
    · exact .refl s
    · next job hget =>
      cases hw : s.write fault (recordBackgroundJobTerminal job.data) with
      | mk done s₁ =>
        obtain ⟨-, hjobs, hdone⟩ := kept_lostCommitted h hholder hget hw
        refine (lasts_writeTerminal hw).trans ?_
        cases done with
        | false => exact .same rfl rfl
        | true =>
          obtain ⟨hsettled, hr, hrec⟩ := hdone rfl
          exact (lasts_settle (by rw [hjobs]; exact hget) rfl).trans
            (lasts_recoverRows hrec.ids (agrees_rows hsettled hr hrec))
  · exact .refl s

theorem lasts_admitted (h : Good lim s) (fault : Fault) :
    Lasts s (perform lim s (.admitted fault)) := by
  rw [perform]
  split
  · next data hholder =>
    have hok := h.holder
    rw [HolderOk, hholder] at hok
    obtain ⟨-, hnone, -⟩ := hok
    cases hw : s.write fault (recordBackgroundJobSubmitted data) with
    | mk done s₁ =>
      refine (Lasts.write hw fun _ _ h => rowsLast_submitted h).trans ?_
      cases done with
      | false => exact .same rfl rfl
      | true =>
        refine .put rfl rfl fun old hold _ => ?_
        rw [write_jobs hw, hnone] at hold
        cases hold
  · exact .refl s

theorem lasts_retried (s : State) (fault : Fault) : Lasts s (perform lim s (.retried fault)) := by
  rw [perform]
  split
  · next use id rest hholder =>
    split
    · exact .refl s
    · next job hget =>
      cases hw : s.write fault (recordBackgroundJobTerminal job.data) with
      | mk done s₁ =>
        refine (lasts_writeTerminal hw).trans ?_
        cases done with
        | false => exact .same rfl rfl
        | true =>
          have hsettle : Lasts s₁ (s₁.settle id job) :=
            lasts_settle (by rw [write_jobs hw]; exact hget) rfl
          refine hsettle.trans ?_
          refine Lasts.trans ?_ (lasts_nextRetry _ use rest)
          exact .same rfl rfl
  · exact .refl s

theorem lasts_inserted (s : State) (fault : Fault) (appends : Bool) :
    Lasts s (perform lim s (.inserted fault appends)) := by
  rw [perform]
  split
  · next archive id rest hholder =>
    split
    · exact .refl s
    · next job hget =>
      cases hw : s.write fault (recordBackgroundCompletion job.data) with
      | mk done s₁ =>
        refine (Lasts.write hw fun _ _ h => rowsLast_completion h).trans ?_
        cases done with
        | false => exact .same rfl rfl
        | true => exact lasts_delivered (by rw [write_jobs hw]; exact hget) archive rest appends
  · exact .refl s

theorem lasts_host (s : State) (mark : Journal → Journal) (hrows : ∀ j, (mark j).rows = j.rows) :
    Lasts s { s with journal := s.journal.map mark } where
  jobs _ job hget _ := ⟨job, hget, rfl, rfl⟩
  rows j hj := by
    refine ⟨mark j, congrArg (Option.map mark) hj, fun id row outcome hrow hout => ?_⟩
    exact ⟨row, by rw [hrows]; exact hrow, hout⟩

/-- An action of a running manager leaves every outcome as it is. -/
theorem lasts_perform (h : Good lim s) (action : Action) (hrunning : action ≠ .restart) :
    Lasts s (perform lim s action) := by
  cases action with
  | recover =>
    rw [perform]
    split
    · split
      · exact .same rfl rfl
      · exact .same rfl rfl
    · exact .refl s
  | submit jobId completionId agentType task =>
    rw [perform]
    split
    · exact .same rfl rfl
    · exact .refl s
  | deliver archive =>
    rw [perform]
    split
    · exact lasts_nextRetry s _ _
    · exact .refl s
  | close =>
    rw [perform]
    split
    · refine ⟨fun id job hget _ => ?_, fun j hj => ⟨j, hj, .refl j⟩⟩
      refine ⟨{ job with cancelRequested := true }, ?_, rfl, rfl⟩
      have hmap := Assoc.get?_mapVal
        (fun _ (job : Job) => { job with cancelRequested := true }) s.jobs id
      rw [hget] at hmap
      exact hmap
    · exact .refl s
  | rowsRead fault =>
    rw [perform]
    split
    · next j hholder hj =>
      have hr := h.holder
      rw [HolderOk, hholder] at hr
      have hrec := recovering_readBackgroundJobs h.kept hj
      split
      · exact lasts_recoverRows hrec.ids (agrees_rows h.kept hr hrec)
      · exact .same rfl rfl
    · exact .refl s
  | lostCommitted fault => exact lasts_lostCommitted h fault
  | admitted fault => exact lasts_admitted h fault
  | joined =>
    rw [perform]
    split
    · split
      · exact lasts_nextRetry s _ _
      · exact .refl s
    · exact .refl s
  | retried fault => exact lasts_retried s fault
  | prepared raises =>
    rw [perform]
    split
    · split
      · exact .same rfl rfl
      · split
        · exact lasts_nextInsert s _ _
        · exact .same rfl rfl
    · exact .refl s
  | marked fault =>
    rw [perform]
    split
    · split
      · exact (lasts_markArchived s _).trans (lasts_nextInsert _ _ _)
      · exact .same rfl rfl
    · exact .refl s
  | inserted fault appends => exact lasts_inserted s fault appends
  | start id =>
    rw [perform]
    split
    · exact .refl s
    · next job hjob =>
      obtain ⟨hget, hphase⟩ := jobIn_eq_some hjob
      split
      · exact lasts_step h.kept hget _ (.inl hphase) s.slots
      · exact lasts_step h.kept hget _ (.inl hphase) s.slots
  | enter id =>
    rw [perform]
    split
    · exact .refl s
    · next job hjob =>
      obtain ⟨hget, hphase⟩ := jobIn_eq_some hjob
      split
      · exact .refl s
      · exact lasts_step h.kept hget _ (.inr (.inl hphase)) _
  | abort id =>
    rw [perform]
    split
    · exact .refl s
    · next job hjob =>
      obtain ⟨hget, hphase⟩ := jobIn_eq_some hjob
      exact lasts_step h.kept hget _ (.inr (.inl hphase)) s.slots
  | finish id outcome =>
    rw [perform]
    split
    · exact .refl s
    · next job hjob =>
      obtain ⟨hget, hphase⟩ := jobIn_eq_some hjob
      exact lasts_step h.kept hget _ (.inr (.inr hphase)) _
  | committed id fault => exact lasts_committed h id fault
  | cancel id =>
    rw [perform]
    split
    · split
      · exact .refl s
      · next job hget =>
        refine .put rfl rfl fun old hold _ => ?_
        rw [hget] at hold
        cases hold
        exact ⟨rfl, rfl⟩
    · exact .refl s
  | stopAdmission => exact .same rfl rfl
  | rebind rebound => exact .same rfl rfl
  | switchEpoch | archiveReports completionIds => exact lasts_host s _ fun _ => rfl
  | restart => exact absurd rfl hrunning

/-! ### Delivery -/

/-- A session that begins, with a recorder or without. -/
def State.new (lim : Limits) (recorded : Bool) : State :=
  State.start lim (if recorded then some {} else none)

/-- The jobs that hold one of the running slots. -/
def State.running (s : State) : Assoc String Job := s.jobs.filter fun e => e.2.data.status = .running

/-- What holds of the jobs, the mailbox and the histories. -/
structure Delivery (lim : Limits) (s : State) : Prop where
  waits : ∀ id job, s.jobs.get? id = some job → job.data.status.terminal = true →
    job.data.delivered = false →
    id ∈ s.pending ∨ job.persisted = false ∧
      (job.phase = .committing ∨ id ∈ s.errors ∨ s.recovered = false)
  pending : ∀ id, id ∈ s.pending ↔ ∃ job, s.jobs.get? id = some job ∧
    job.data.status.terminal = true ∧ job.persisted = true ∧ job.data.delivered = false
  once : s.live.Nodup ∧ ∀ j, s.journal = some j → j.inserted.Nodup
  distinct : ∀ id id' job job', s.jobs.get? id = some job → s.jobs.get? id' = some job' →
    job.data.completionId = job'.data.completionId → id = id'
  undelivered : ∀ id job, s.jobs.get? id = some job → job.data.delivered = false →
    job.data.completionId ∉ s.live
  committed : ∀ j, s.journal = some j → ∀ id job, s.jobs.get? id = some job →
    ∃ row, j.rows.get? id = some row ∧
      (job.persisted = true → row.outcome = some (job.data.status, job.data.result)) ∧
      (row.outcome = none ∨ row.outcome = some (job.data.status, job.data.result))
  running : s.running.length ≤ lim.maxRunning
  active : s.activeCount ≤ lim.maxJobs

theorem running_length_le (h : Kept lim s) : s.running.length ≤ s.count (· = .running) := by
  have hle : ∀ l : Assoc String Job, (∀ e ∈ l, PhaseOk e.2) →
      (l.filter fun e => e.2.data.status = .running).length ≤
        (l.map fun e => if e.2.phase = .running then 1 else 0).sum := by
    intro l hl
    induction l with
    | nil => exact Nat.le_refl 0
    | cons e l ih =>
      have ih := ih fun e' he' => hl e' (mem_cons_of_mem e he')
      rw [map_cons, sum_cons, filter_cons]
      split
      · next hstatus =>
        have hphase : e.2.phase = .running := by
          have hok := hl e mem_cons_self
          have hstatus := of_decide_eq_true hstatus
          unfold PhaseOk at hok
          cases hp : e.2.phase <;> simp_all [Status.terminal]
        rw [if_pos hphase, length_cons]
        omega
      · omega
  have hall := hle s.jobs fun e he => (h.jobs e.1 e.2 (Assoc.get?_of_mem h.keys he)).phase
  simpa [State.count, State.running] using hall

theorem Kept.delivery (h : Kept lim s) : Delivery lim s where
  waits id job hget hterminal hdelivered := by
    have hok := h.jobs id job hget
    cases hp : job.persisted with
    | true => exact .inl (hok.pending.mpr ⟨hp, hdelivered⟩)
    | false => exact .inr ⟨rfl, hok.unsettled hp hterminal⟩
  pending id := by
    constructor
    · intro hid
      obtain ⟨job, hget⟩ := Option.ne_none_iff_exists'.mp (h.known id hid)
      have hok := h.jobs id job hget
      obtain ⟨hpersisted, hdelivered⟩ := hok.pending.mp hid
      exact ⟨job, hget, hok.terminal hpersisted, hpersisted, hdelivered⟩
    · rintro ⟨job, hget, -, hpersisted, hdelivered⟩
      exact (h.jobs id job hget).pending.mpr ⟨hpersisted, hdelivered⟩
  once := ⟨h.live, fun j hj => (h.journal j hj).inserted⟩
  distinct := h.distinct
  undelivered id job hget := (h.jobs id job hget).fresh
  committed j hj id job hget := by
    obtain ⟨row, hrow, -, hout, hmatches⟩ := (h.jobs id job hget).row j hj
    exact ⟨row, hrow, hout, hmatches⟩
  running := by
    have hslots := h.slots
    have hle := running_length_le h
    omega
  active := h.active

theorem good_new_session (lim : Limits) (recorded : Bool) : Good lim (State.new lim recorded) := by
  refine good_new lim _ fun j hj => ?_
  cases recorded with
  | false => cases hj
  | true =>
    cases hj
    exact ⟨rfl, rfl⟩

/-- One slot, one job. -/
def single : Limits := ⟨1, 1, by decide⟩

/-- The task of a job has ended and its outcome is being written. -/
def ended : List Action :=
  [.recover, .rowsRead .none, .submit "j" "c" "coder" "t", .admitted .none, .start "j", .enter "j",
    .finish "j" (.completed "done")]

end KolegaCode.Background
