import KolegaCode.Background.Manager
import Mathlib.Data.List.Nodup

/-!
# Background — what every action keeps

A job is pending exactly when its outcome is committed and it has not been delivered (`JobOk`), the
journal has a row for every job (`JobOk.row`), and what the holder of the lock is about to do stays
right whatever the tasks and the host do (`HolderOk`).

The `Books` of a state are its journal, mailbox and errors; what is asked of a job depends on
nothing else.
-/

namespace KolegaCode.Background

/-! ### The invariant -/

/-- What a job is entered in. -/
structure Books where
  pending : List String
  errors : List String
  recovered : Bool
  journal : Option Journal
  live : List String
  drawn : List String

def State.books (s : State) : Books where
  pending := s.pending
  errors := s.errors
  recovered := s.recovered
  journal := s.journal
  live := s.live
  drawn := s.drawn

/-- The status of a job goes with the phase of its task. -/
def PhaseOk (job : Job) : Prop :=
  match job.phase with
  | .scheduled => job.data.status = .queued ∧ job.persisted = false
  | .waiting => job.data.status = .queued ∧ job.persisted = false
  | .running => job.data.status = .running ∧ job.persisted = false
  | .committing => job.data.status.terminal = true ∧ job.persisted = false
  | .ended => job.data.status.terminal = true
  | .recovered => job.data.status.terminal = true

structure JobOk (b : Books) (id : String) (job : Job) : Prop where
  key : job.data.jobId = id
  drawn : job.data.completionId ∈ b.drawn
  phase : PhaseOk job
  pending : id ∈ b.pending ↔ job.persisted = true ∧ job.data.delivered = false
  undelivered : job.persisted = false → job.data.delivered = false
  kept : job.persisted = false → job.phase = .ended ∨ job.phase = .recovered →
    id ∈ b.errors ∨ b.recovered = false
  failed : id ∈ b.errors → job.phase = .ended
  fresh : job.data.delivered = false → job.data.completionId ∉ b.live
  row : ∀ j, b.journal = some j → ∃ row, j.rows.get? id = some row ∧
    row.submitted.completionId = job.data.completionId ∧
    (job.persisted = true → row.outcome = some (job.data.status, job.data.result)) ∧
    (row.outcome = none ∨ row.outcome = some (job.data.status, job.data.result))
  early : b.recovered = false → b.journal ≠ none ∧ job.phase = .recovered ∧
    (job.persisted = false → job.data.status = .interrupted ∧ job.data.result = lostResult) ∧
    ∀ j, b.journal = some j → job.data.delivered = decide (job.data.completionId ∈ j.inserted)

/-- A row of the journal. -/
structure RowOk (j : Journal) (live drawn : List String) (id : String) (row : Row) : Prop where
  key : row.submitted.jobId = id
  queued : row.submitted.status = .queued
  terminal : ∀ outcome, row.outcome = some outcome → outcome.1.terminal = true
  drawn : row.submitted.completionId ∈ drawn
  settled : row.submitted.completionId ∈ j.inserted → row.outcome ≠ none
  live : row.submitted.completionId ∈ live → row.submitted.completionId ∈ j.inserted

structure JournalOk (live drawn : List String) (j : Journal) : Prop where
  keys : j.rows.keys.Nodup
  rows : ∀ id row, j.rows.get? id = some row → RowOk j live drawn id row
  distinct : ∀ id id' row row', j.rows.get? id = some row → j.rows.get? id' = some row' →
    row.submitted.completionId = row'.submitted.completionId → id = id'
  inserted : j.inserted.Nodup
  drawn : ∀ c ∈ j.inserted, c ∈ drawn

structure Kept (lim : Limits) (s : State) : Prop where
  keys : s.jobs.keys.Nodup
  jobs : ∀ id job, s.jobs.get? id = some job → JobOk s.books id job
  distinct : ∀ id id' job job', s.jobs.get? id = some job → s.jobs.get? id' = some job' →
    job.data.completionId = job'.data.completionId → id = id'
  known : ∀ id ∈ s.pending, s.jobs.get? id ≠ none
  knownErrors : ∀ id ∈ s.errors, s.jobs.get? id ≠ none
  errors : s.recovered = false → s.errors = []
  pending : s.pending.Nodup
  slots : s.slots + s.count (· = .running) = lim.maxRunning
  active : s.activeCount ≤ lim.maxJobs
  live : s.live.Nodup
  liveDrawn : ∀ c ∈ s.live, c ∈ s.drawn
  journal : ∀ j, s.journal = some j → JournalOk s.live s.drawn j

/-- A completion id that nothing has yet. -/
structure Unused (s : State) (c : String) : Prop where
  jobs : ∀ id job, s.jobs.get? id = some job → job.data.completionId ≠ c
  rows : ∀ j, s.journal = some j → ∀ id row, j.rows.get? id = some row →
    row.submitted.completionId ≠ c
  inserted : ∀ j, s.journal = some j → c ∉ j.inserted
  live : c ∉ s.live

/-- A row that was read of the journal; which jobs are archived may have changed since. -/
def Read (j : Journal) (data : JobData) : Prop :=
  ∃ row, j.rows.get? data.jobId = some row ∧ data = { row.data j with archived := data.archived }

/-- The rows that a recovery has still to go through cover what is not committed. -/
structure Recovering (s : State) (rest : List JobData) : Prop where
  journal : ∃ j, s.journal = some j ∧ ∀ data ∈ rest, Read j data
  ids : (rest.map JobData.jobId).Nodup
  covers : ∀ id job, s.jobs.get? id = some job → job.persisted = false →
    id ∈ rest.map JobData.jobId

/-- What the operation that holds the lock relies on. -/
def HolderOk (lim : Limits) (s : State) : Prop :=
  match s.holder with
  | none => True
  | some .reading => s.recovered = false
  | some (.recovering id rest) => s.recovered = false ∧ ∃ job, s.jobs.get? id = some job ∧
      job.persisted = false ∧ ∃ data, data.jobId = id ∧ Recovering s (data :: rest)
  | some (.admitting data) => s.recovered = true ∧ s.jobs.get? data.jobId = none ∧
      data.status = .queued ∧ data.delivered = false ∧ data.completionId ∈ s.drawn ∧
      Unused s data.completionId ∧ s.activeCount < lim.maxJobs
  | some (.retrying _ id rest) => s.recovered = true ∧ (∃ job, s.jobs.get? id = some job ∧
      job.persisted = false ∧ job.phase.active = false) ∧
      ∀ id' ∈ rest, ∀ job, s.jobs.get? id' = some job → job.phase.active = false
  | some (.inserting _ id rest) => s.recovered = true ∧ (id :: rest).Nodup ∧
      ∀ id' ∈ id :: rest, id' ∈ s.pending
  | some _ => s.recovered = true

structure Good (lim : Limits) (s : State) : Prop where
  kept : Kept lim s
  holder : HolderOk lim s

/-! ### Jobs -/

variable {lim : Limits} {s s' : State} {id : String} {job job' : Job}

theorem terminal_of_not_active (h : PhaseOk job) (hphase : job.phase.active = false) :
    job.data.status.terminal = true := by
  unfold PhaseOk at h
  cases hp : job.phase <;> simp_all [Phase.active]

theorem JobOk.terminal {b : Books} (h : JobOk b id job) (hpersisted : job.persisted = true) :
    job.data.status.terminal = true := by
  have hphase := h.phase
  unfold PhaseOk at hphase
  cases hp : job.phase <;> simp_all

/-- A terminal job whose outcome is not committed is being committed, or its error is kept. -/
theorem JobOk.unsettled {b : Books} (h : JobOk b id job) (hpersisted : job.persisted = false)
    (hterminal : job.data.status.terminal = true) :
    job.phase = .committing ∨ id ∈ b.errors ∨ b.recovered = false := by
  have hphase := h.phase
  unfold PhaseOk at hphase
  cases hp : job.phase with
  | scheduled | waiting | running =>
    rw [hp] at hphase
    rw [hphase.1] at hterminal
    cases hterminal
  | committing => exact .inl rfl
  | ended => exact .inr (h.kept hpersisted (.inl hp))
  | recovered => exact .inr (h.kept hpersisted (.inr hp))

theorem mem_insertKey {l : List String} {key x : String} :
    x ∈ insertKey l key ↔ x = key ∨ x ∈ l := by
  unfold insertKey
  split
  · next hmem =>
    refine ⟨.inr, fun h => h.elim (fun heq => heq ▸ hmem) id⟩
  · rw [List.mem_append, List.mem_singleton, or_comm]

theorem nodup_insertKey {l : List String} (h : l.Nodup) (key : String) :
    (insertKey l key).Nodup := by
  unfold insertKey
  split
  · exact h
  · next hmem =>
    refine List.nodup_append.mpr ⟨h, List.nodup_singleton key, fun a ha b hb heq => hmem ?_⟩
    rw [← List.mem_singleton.mp hb, ← heq]
    exact ha

/-- What the books say about one job is the same. -/
structure SameFor (b b' : Books) (id : String) (job : Job) : Prop where
  pending : id ∈ b'.pending ↔ id ∈ b.pending
  errors : id ∈ b'.errors ↔ id ∈ b.errors
  recovered : b'.recovered = b.recovered
  drawn : job.data.completionId ∈ b.drawn → job.data.completionId ∈ b'.drawn
  live : job.data.completionId ∈ b'.live → job.data.completionId ∈ b.live
  written : b.journal ≠ none → b'.journal ≠ none
  journal : ∀ j', b'.journal = some j' → ∃ j, b.journal = some j ∧
    (∀ row, j.rows.get? id = some row → ∃ row', j'.rows.get? id = some row' ∧
      row'.submitted = row.submitted ∧ (row'.outcome = row.outcome ∨
        row'.outcome = some (job.data.status, job.data.result))) ∧
    (b.recovered = false → (job.data.completionId ∈ j'.inserted ↔
      job.data.completionId ∈ j.inserted))

theorem JobOk.same {b b' : Books} (h : JobOk b id job) (hsame : SameFor b b' id job) :
    JobOk b' id job where
  key := h.key
  drawn := hsame.drawn h.drawn
  phase := h.phase
  pending := hsame.pending.trans h.pending
  undelivered := h.undelivered
  kept hpersisted hphase := (h.kept hpersisted hphase).imp hsame.errors.mpr
    fun hr => hsame.recovered.trans hr
  failed herror := h.failed (hsame.errors.mp herror)
  fresh hdelivered hlive := h.fresh hdelivered (hsame.live hlive)
  row j' hj' := by
    obtain ⟨j, hj, hrows, -⟩ := hsame.journal j' hj'
    obtain ⟨row, hrow, hcid, hout, hmatches⟩ := h.row j hj
    obtain ⟨row', hrow', hsub, hkeep | hkeep⟩ := hrows row hrow
    · rw [← hkeep] at hout hmatches
      exact ⟨row', hrow', by rw [hsub, hcid], hout, hmatches⟩
    · exact ⟨row', hrow', by rw [hsub, hcid], fun _ => hkeep, .inr hkeep⟩
  early hr := by
    rw [hsame.recovered] at hr
    obtain ⟨hjournal, hphase, hlost, hdelivered⟩ := h.early hr
    refine ⟨hsame.written hjournal, hphase, hlost, fun j' hj' => ?_⟩
    obtain ⟨j, hj, -, hinserted⟩ := hsame.journal j' hj'
    rw [hdelivered j hj]
    exact decide_eq_decide.mpr (hinserted hr).symm

/-! ### The table of jobs -/

theorem get?_setJob (s : State) (id id' : String) (job : Job) :
    (s.setJob id job).jobs.get? id' = if id' = id then some job else s.jobs.get? id' :=
  Assoc.get?_set s.jobs id id' job

theorem count_setJob (s : State) (id : String) (job : Job) (p : Phase → Bool) :
    (s.setJob id job).count p + ((s.jobs.get? id).map fun job => if p job.phase then 1 else 0).getD 0
      = s.count p + if p job.phase then 1 else 0 :=
  Assoc.sum_set (fun job : Job => if p job.phase then 1 else 0) s.jobs id job

theorem count_replace (hget : s.jobs.get? id = some job) (job' : Job) (p : Phase → Bool) :
    (s.setJob id job').count p + (if p job.phase then 1 else 0) =
      s.count p + if p job'.phase then 1 else 0 := by
  have hcount := count_setJob s id job' p
  rw [hget] at hcount
  exact hcount

theorem SameFor.refl (b : Books) (id : String) (job : Job) : SameFor b b id job where
  pending := Iff.rfl
  errors := Iff.rfl
  recovered := rfl
  drawn := fun h => h
  live := fun h => h
  written := fun h => h
  journal j hj := ⟨j, hj, fun row hrow => ⟨row, hrow, rfl, .inl rfl⟩, fun _ => Iff.rfl⟩

theorem Kept.put (h : Kept lim s) (job : Job) (hjobs : s'.jobs = s.jobs.set id job)
    (hok : JobOk s'.books id job)
    (hcid : ∀ id' other, id' ≠ id → s.jobs.get? id' = some other →
      other.data.completionId ≠ job.data.completionId)
    (hothers : ∀ id' other, id' ≠ id → s.jobs.get? id' = some other →
      SameFor s.books s'.books id' other)
    (hpending : ∀ id' ∈ s'.pending, id' = id ∨ id' ∈ s.pending) (hnodup : s'.pending.Nodup)
    (hfailed : ∀ id' ∈ s'.errors, id' = id ∨ id' ∈ s.errors)
    (herrors : s'.recovered = false → s'.errors = [])
    (hslots : s'.slots + s'.count (· = .running) = lim.maxRunning)
    (hactive : s'.activeCount ≤ lim.maxJobs) (hlive : s'.live.Nodup)
    (hdrawn : ∀ c ∈ s'.live, c ∈ s'.drawn)
    (hjournal : ∀ j, s'.journal = some j → JournalOk s'.live s'.drawn j) : Kept lim s' := by
  have hget : ∀ id', s'.jobs.get? id' = if id' = id then some job else s.jobs.get? id' := by
    intro id'
    rw [hjobs]
    exact Assoc.get?_set s.jobs id id' job
  refine ⟨?_, ?_, ?_, ?_, ?_, herrors, hnodup, hslots, hactive, hlive, hdrawn, hjournal⟩
  · rw [hjobs]
    exact Assoc.nodup_keys_set h.keys id job
  · intro id' found hfound
    rw [hget] at hfound
    split at hfound
    · next heq =>
      cases hfound
      rw [heq]
      exact hok
    · next hne => exact (h.jobs id' found hfound).same (hothers id' found hne hfound)
  · intro id₁ id₂ job₁ job₂ h₁ h₂ heq
    rw [hget] at h₁ h₂
    split at h₁
    · next he₁ =>
      split at h₂
      · next he₂ => rw [he₁, he₂]
      · next hne₂ =>
        cases h₁
        exact absurd heq.symm (hcid id₂ job₂ hne₂ h₂)
    · next hne₁ =>
      split at h₂
      · cases h₂
        exact absurd heq (hcid id₁ job₁ hne₁ h₁)
      · exact h.distinct id₁ id₂ job₁ job₂ h₁ h₂ heq
  · intro id' hid'
    rw [hget]
    split
    · nofun
    · next hne => exact h.known id' ((hpending id' hid').resolve_left hne)
  · intro id' hid'
    rw [hget]
    split
    · nofun
    · next hne => exact h.knownErrors id' ((hfailed id' hid').resolve_left hne)

theorem Kept.cid_ne (h : Kept lim s) (hget : s.jobs.get? id = some job)
    (hcid : job'.data.completionId = job.data.completionId) :
    ∀ id' other, id' ≠ id → s.jobs.get? id' = some other →
      other.data.completionId ≠ job'.data.completionId := by
  intro id' other hne hother heq
  exact hne (h.distinct id' id other job hother hget (heq.trans hcid))

theorem Kept.row_open (h : Kept lim s) (hget : s.jobs.get? id = some job)
    (hopen : job.data.status.terminal = false) {j : Journal} (hj : s.journal = some j) {row : Row}
    (hrow : j.rows.get? id = some row) : row.outcome = none := by
  obtain ⟨row', hrow', -, -, hnone | hout⟩ := (h.jobs id job hget).row j hj
  · rw [hrow] at hrow'
    cases hrow'
    exact hnone
  · rw [hrow] at hrow'
    cases hrow'
    have hterminal := ((h.journal j hj).rows id row hrow).terminal _ hout
    rw [show job.data.status.terminal = true from hterminal] at hopen
    cases hopen

theorem Kept.rebook (h : Kept lim s) (hjobs : s'.jobs = s.jobs) (hslots : s'.slots = s.slots)
    (hsame : ∀ id job, s.jobs.get? id = some job → SameFor s.books s'.books id job)
    (hpending : s'.pending = s.pending) (hfailed : s'.errors = s.errors)
    (hrecovered : s'.recovered = s.recovered)
    (hlive : s'.live.Nodup) (hdrawn : ∀ c ∈ s'.live, c ∈ s'.drawn)
    (hjournal : ∀ j, s'.journal = some j → JournalOk s'.live s'.drawn j) : Kept lim s' := by
  refine ⟨?_, ?_, ?_, ?_, ?_, ?_, ?_, ?_, ?_, hlive, hdrawn, hjournal⟩
  · rw [hjobs]
    exact h.keys
  · intro id job hget
    rw [hjobs] at hget
    exact (h.jobs id job hget).same (hsame id job hget)
  · intro id id' job job' hget hget'
    rw [hjobs] at hget hget'
    exact h.distinct id id' job job' hget hget'
  · intro id hid
    rw [hpending] at hid
    rw [hjobs]
    exact h.known id hid
  · rw [hfailed, hjobs]
    exact h.knownErrors
  · rw [hfailed, hrecovered]
    exact h.errors
  · rw [hpending]
    exact h.pending
  · rw [State.count, hjobs, hslots]
    exact h.slots
  · rw [State.activeCount, State.count, hjobs]
    exact h.active

end KolegaCode.Background
