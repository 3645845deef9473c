import KolegaCode.Cron.Schedule

/-!
# Cron — scheduled loops

`/loop` runs a prompt again and again, at a fixed interval or when a cron schedule fires.  Once a
second the scheduler ends the loop, puts an iteration that is due off while the app is busy, or
launches it; the worker of an iteration counts it and arms the next one when it is completed.

Times are whole seconds, as `now_local` reads them, and may go back.  The prompt, what is shown, the
tokens, and saving and restoring a loop are left out.
-/

namespace KolegaCode.Cron

open List

inductive LoopSchedule where
  | interval (seconds : Nat)
  | cron (schedule : CronSchedule)

/-- The sum of a time and an interval, which may raise an `OverflowError`. -/
def orOverflow : Option DateTime → Except Raised DateTime
  | some t => .ok t
  | none => .error .overflow

/-- `next_after`. -/
def LoopSchedule.nextAfter (completedAt : DateTime) : LoopSchedule → Except Raised DateTime
  | interval seconds => orOverflow (completedAt.add? (seconds * 1000000))
  | cron schedule => schedule.nextFireAfter completedAt

structure LoopState where
  schedule : LoopSchedule
  nextFireAt : DateTime
  expiresAt : DateTime
  maxIterations : Nat
  iterations : Nat := 0
  stopped : Bool := false
  deferred : Bool := false

namespace LoopState

def create (schedule : LoopSchedule) (maxIterations expiresSeconds : Nat) (now : DateTime) :
    Except Raised LoopState := do
  let firstFire ← match schedule with
    | .interval _ => pure now
    | .cron _ => schedule.nextAfter now
  match now.add? (expiresSeconds * 1000000) with
  | some expiresAt => pure { schedule, nextFireAt := firstFire, expiresAt, maxIterations }
  | none => throw .overflow

def isExpired (l : LoopState) (now : DateTime) : Bool := l.expiresAt.micros ≤ now.micros

def reachedCap (l : LoopState) : Bool := l.maxIterations ≤ l.iterations

def isDue (l : LoopState) (now : DateTime) : Bool := l.nextFireAt.micros ≤ now.micros

def markFired (l : LoopState) : LoopState :=
  { l with iterations := l.iterations + 1, deferred := false }

/-- `advance_after_completion`, which catches a `ValueError` and no `OverflowError`. -/
def advanceAfterCompletion (l : LoopState) (completedAt : DateTime) : Except Raised LoopState :=
  match l.schedule.nextAfter completedAt with
  | .ok next => .ok { l with nextFireAt := next }
  | .error .overflow => .error .overflow
  | .error _ => .ok { l with stopped := true }

/-- `_mark_loop_stopped`. -/
def stop (l : LoopState) : LoopState :=
  if l.stopped then l else { l with stopped := true, deferred := false }

end LoopState

/-! ### The scheduler -/

/-- No iteration is active, or one is whose worker has not begun, or has. -/
inductive Phase where
  | idle
  | launched
  | running
deriving DecidableEq

inductive LoopEntry where
  | launched (armed now : DateTime)
  | completed (time : DateTime)

/-- The loop, and what the scheduler has done, the latest first. -/
structure Scheduler where
  loop : LoopState
  phase : Phase := .idle
  log : List LoopEntry := []

/-- How an iteration ends: its turn returns, the loop is stopped with it, or it is given up. -/
inductive IterationEnd where
  | completed (time : DateTime)
  | stopped
  | left

inductive LoopAction where
  | tick (now : DateTime) (ready : Bool)
  | start
  | finish (how : IterationEnd)
  | stop

namespace Scheduler

/-- `_loop_tick`; `ready` is `_loop_ready_to_fire`, but for an active iteration. -/
def tick (s : Scheduler) (now : DateTime) (ready : Bool) : Scheduler :=
  if s.loop.stopped then s
  else if s.loop.isExpired now || s.loop.reachedCap then { s with loop := s.loop.stop }
  else if !s.loop.isDue now then { s with loop := { s.loop with deferred := false } }
  else if !ready || s.phase ≠ .idle then { s with loop := { s.loop with deferred := true } }
  else
    { loop := { s.loop with deferred := false }
      phase := .launched
      log := .launched s.loop.nextFireAt now :: s.log }

/-- The end of `_run_loop_iteration`. -/
def finish (s : Scheduler) : IterationEnd → Scheduler
  | .completed time =>
    match s.loop.advanceAfterCompletion time with
    | .ok loop => { loop, phase := .idle, log := .completed time :: s.log }
    | .error _ => { s with phase := .idle }
  | .stopped => { s with loop := s.loop.stop, phase := .idle }
  | .left => { s with phase := .idle }

/-- An action that cannot happen leaves the scheduler as it is. -/
def step (s : Scheduler) : LoopAction → Scheduler
  | .tick now ready => s.tick now ready
  | .start =>
    if s.phase = .launched then { s with loop := s.loop.markFired, phase := .running } else s
  | .finish how => if s.phase = .running then s.finish how else s
  | .stop => { s with loop := s.loop.stop }

end Scheduler

/-! ### When iterations are launched -/

/-- The next time of the schedule: the end of the interval, or the least minute that matches. -/
def LoopSchedule.Next (after t : DateTime) : LoopSchedule → Prop
  | interval seconds => after.add? (seconds * 1000000) = some t
  | cron schedule => after < t ∧ schedule.matches t = true ∧
      ∀ m : DateTime, m.IsMinute → after < m → m < t → schedule.matches m = false

/-- The time that is armed behind these entries: the next one after the last completion. -/
def Armed (schedule : LoopSchedule) (created t : DateTime) : List LoopEntry → Prop
  | [] => match schedule with
    | .interval _ => t = created
    | .cron _ => schedule.Next created t
  | .completed time :: _ => schedule.Next time t
  | .launched _ _ :: log => Armed schedule created t log

/-- Every iteration was launched when the armed time had come and the loop had not expired. -/
def Timely (schedule : LoopSchedule) (created expiresAt : DateTime) : List LoopEntry → Prop
  | [] => True
  | .completed _ :: log => Timely schedule created expiresAt log
  | .launched armed now :: log => Armed schedule created armed log ∧ armed.micros ≤ now.micros ∧
      now < expiresAt ∧ Timely schedule created expiresAt log

def launches (log : List LoopEntry) : Nat :=
  log.countP fun | .launched _ _ => true | .completed _ => false

structure Scheduled (created : DateTime) (state : LoopState) (s : Scheduler) : Prop where
  schedule : s.loop.schedule = state.schedule
  expiresAt : s.loop.expiresAt = state.expiresAt
  maxIterations : s.loop.maxIterations = state.maxIterations
  armed : s.loop.stopped = true ∨ Armed state.schedule created s.loop.nextFireAt s.log
  count : launches s.log = s.loop.iterations + if s.phase = .launched then 1 else 0
  cap : launches s.log ≤ state.maxIterations
  timely : Timely state.schedule created state.expiresAt s.log

/-- A cron schedule is one that was parsed. -/
def LoopSchedule.Parsed (schedule : LoopSchedule) : Prop :=
  ∀ s, schedule = .cron s → ∃ expression, parse expression = .ok s

variable {schedule : LoopSchedule} {created after t : DateTime} {state : LoopState} {s : Scheduler}

theorem orOverflow_eq_ok {t? : Option DateTime} (h : orOverflow t? = .ok t) : t? = some t := by
  cases t? with
  | none => cases h
  | some u =>
    cases h
    rfl

theorem LoopSchedule.Parsed.next (h : schedule.Parsed) (hok : schedule.nextAfter after = .ok t) :
    schedule.Next after t := by
  cases schedule with
  | interval seconds =>
    rw [nextAfter] at hok
    exact orOverflow_eq_ok hok
  | cron s =>
    obtain ⟨expression, hparse⟩ := h s rfl
    obtain ⟨_, _, _, _, _, _, -, hminutes, hhours, -⟩ := parse_ok hparse
    have hnext : CronSchedule.NextFire s after (s.nextFireAfter after) :=
      CronSchedule.fireFrom_least
        (fun h hh => Nat.lt_succ_of_le (CronSchedule.le_high_of_parseField hhours hh))
        (fun m hm => Nat.lt_succ_of_le (CronSchedule.le_high_of_parseField hminutes hm)) rfl rfl
    exact (hnext.least t hok).2

theorem LoopState.stop_eq (l : LoopState) :
    l.stop = { l with stopped := true, deferred := l.stopped && l.deferred } := by
  unfold LoopState.stop
  cases l
  split <;> simp_all

/-- A loop that is stopped, at whatever point, is as it was otherwise. -/
theorem Scheduled.stop (h : Scheduled created state s) {phase : Phase}
    (hphase : s.phase = .launched ↔ phase = .launched) :
    Scheduled created state { s with loop := s.loop.stop, phase } := by
  rw [LoopState.stop_eq]
  exact ⟨h.schedule, h.expiresAt, h.maxIterations, .inl rfl, by simpa [hphase] using h.count, h.cap,
    h.timely⟩

theorem Scheduled.tick (h : Scheduled created state s) (now : DateTime) (ready : Bool) :
    Scheduled created state (s.tick now ready) := by
  rw [Scheduler.tick]
  split
  · exact h
  · next hstopped =>
    split
    · exact h.stop Iff.rfl
    · next hopen =>
      rw [Bool.or_eq_true, not_or] at hopen
      split
      · exact { h with }
      · next hdue =>
        split
        · exact { h with }
        · next hready =>
          have hidle : s.phase = .idle := by
            by_contra hne
            exact hready (by simp [hne])
          have hcount : launches s.log = s.loop.iterations := by simpa [hidle] using h.count
          have hcap : s.loop.iterations < s.loop.maxIterations := by
            simpa [LoopState.reachedCap] using hopen.2
          refine ⟨h.schedule, h.expiresAt, h.maxIterations, .inr ?_, ?_, ?_, ?_⟩
          · exact h.armed.resolve_left hstopped
          · simp [launches, ← hcount]
          · have hlog : launches (.launched s.loop.nextFireAt now :: s.log) = launches s.log + 1 :=
              countP_cons_of_pos rfl
            rw [hlog, hcount, ← h.maxIterations]
            exact hcap
          · refine ⟨h.armed.resolve_left hstopped, ?_, ?_, h.timely⟩
            · simpa [LoopState.isDue] using hdue
            · rw [DateTime.lt_iff, ← h.expiresAt]
              simpa [LoopState.isExpired] using hopen.1

theorem Scheduled.finish (h : Scheduled created state s) (hs : state.schedule.Parsed)
    (hrunning : s.phase = .running) (how : IterationEnd) :
    Scheduled created state (s.finish how) := by
  have hidle : s.phase = .launched ↔ Phase.idle = .launched := by simp [hrunning]
  have hcount : launches s.log = s.loop.iterations := by simpa [hrunning] using h.count
  cases how with
  | stopped => exact h.stop hidle
  | left =>
    exact ⟨h.schedule, h.expiresAt, h.maxIterations, h.armed, hcount, h.cap, h.timely⟩
  | completed time =>
    rw [Scheduler.finish, LoopState.advanceAfterCompletion]
    have hlog : launches (.completed time :: s.log) = s.loop.iterations := by
      rw [← hcount, launches, countP_cons_of_neg (by simp), launches]
    have hcap : launches (.completed time :: s.log) ≤ state.maxIterations := by
      rw [hlog, ← hcount]
      exact h.cap
    cases hnext : s.loop.schedule.nextAfter time with
    | ok next =>
      exact ⟨h.schedule, h.expiresAt, h.maxIterations, .inr (hs.next (h.schedule ▸ hnext)), hlog,
        hcap, h.timely⟩
    | error e =>
      -- an overflow is not caught: the loop stays as it was, and its iteration is over
      cases e with
      | overflow =>
        exact ⟨h.schedule, h.expiresAt, h.maxIterations, h.armed, hcount, h.cap, h.timely⟩
      | _ => exact ⟨h.schedule, h.expiresAt, h.maxIterations, .inl rfl, hlog, hcap, h.timely⟩

theorem Scheduled.step (h : Scheduled created state s) (hs : state.schedule.Parsed)
    (action : LoopAction) : Scheduled created state (s.step action) := by
  cases action with
  | tick now ready => exact h.tick now ready
  | stop => exact h.stop Iff.rfl
  | start =>
    rw [Scheduler.step]
    split
    · next hlaunched =>
      exact { h with count := by simpa [hlaunched, LoopState.markFired] using h.count }
    · exact h
  | finish how =>
    rw [Scheduler.step]
    split
    · next hrunning => exact h.finish hs hrunning how
    · exact h

theorem Scheduled.run (h : Scheduled created state s) (hs : state.schedule.Parsed)
    (actions : List LoopAction) : Scheduled created state (actions.foldl Scheduler.step s) := by
  induction actions generalizing s with
  | nil => exact h
  | cons action actions ih => exact ih (h.step hs action)

theorem scheduled_create {maxIterations expiresSeconds : Nat} (hs : schedule.Parsed)
    (h : LoopState.create schedule maxIterations expiresSeconds created = .ok state) :
    state.schedule = schedule ∧ state.maxIterations = maxIterations ∧
      created.add? (expiresSeconds * 1000000) = some state.expiresAt ∧
      Scheduled created state { loop := state } := by
  unfold LoopState.create at h
  cases hexpires : created.add? (expiresSeconds * 1000000) with
  | none =>
    rw [hexpires] at h
    cases schedule with
    | interval seconds => cases h
    | cron schedule =>
      cases hfirst : LoopSchedule.nextAfter created (.cron schedule) <;> simp only [hfirst] at h <;>
        cases h
  | some expiresAt =>
    rw [hexpires] at h
    cases schedule with
    | interval seconds =>
      cases h
      exact ⟨rfl, rfl, rfl, rfl, rfl, rfl, .inr rfl, rfl, Nat.zero_le _, trivial⟩
    | cron schedule =>
      cases hfirst : LoopSchedule.nextAfter created (.cron schedule) with
      | error e => simp [hfirst] at h
      | ok first =>
        simp [hfirst] at h
        cases h
        exact ⟨rfl, rfl, rfl, rfl, rfl, rfl, .inr (hs.next hfirst), rfl, Nat.zero_le _, trivial⟩

/-- Nothing is launched for a loop that is stopped, and it stays so. -/
theorem Scheduler.stopped_step (h : s.loop.stopped = true) (action : LoopAction) :
    (s.step action).loop.stopped = true ∧ launches (s.step action).log = launches s.log := by
  cases action with
  | tick now ready => rw [step, tick, if_pos h]; exact ⟨h, rfl⟩
  | stop => rw [step, LoopState.stop_eq]; exact ⟨rfl, rfl⟩
  | start =>
    rw [step]
    split <;> exact ⟨h, rfl⟩
  | finish how =>
    rw [step]
    split
    · cases how with
      | stopped => rw [finish, LoopState.stop_eq]; exact ⟨rfl, rfl⟩
      | left => exact ⟨h, rfl⟩
      | completed time =>
        have hlog : launches (.completed time :: s.log) = launches s.log :=
          countP_cons_of_neg (by simp)
        rw [finish, LoopState.advanceAfterCompletion]
        cases s.loop.schedule.nextAfter time with
        | ok next => exact ⟨h, hlog⟩
        | error e => cases e <;> first | exact ⟨h, rfl⟩ | exact ⟨rfl, hlog⟩
    · exact ⟨h, rfl⟩

theorem Scheduler.stopped_run (h : s.loop.stopped = true) (later : List LoopAction) :
    launches (later.foldl step s).log = launches s.log := by
  induction later generalizing s with
  | nil => rfl
  | cons action later ih =>
    obtain ⟨hstopped, hlaunches⟩ := stopped_step h action
    exact (ih hstopped).trans hlaunches

/-- **A loop runs on its schedule**: whatever the order of ticks, iterations and stops, every launch
comes when the time armed at the start or by the last completion has come and before the loop
expires, they are counted and never more than the cap, and there is none after a stop. -/
theorem loop_timely {maxIterations expiresSeconds : Nat} (hs : schedule.Parsed)
    (h : LoopState.create schedule maxIterations expiresSeconds created = .ok state)
    (actions : List LoopAction) :
    let s := actions.foldl Scheduler.step { loop := state }
    (∃ expiresAt, created.add? (expiresSeconds * 1000000) = some expiresAt ∧
      Timely schedule created expiresAt s.log) ∧
    launches s.log = s.loop.iterations + (if s.phase = .launched then 1 else 0) ∧
    launches s.log ≤ maxIterations ∧
    (s.loop.stopped = true →
      ∀ later : List LoopAction, launches (later.foldl Scheduler.step s).log = launches s.log) := by
  obtain ⟨hschedule, hmax, hexpires, hstart⟩ := scheduled_create hs h
  have hrun := hstart.run (hschedule ▸ hs) actions
  exact ⟨⟨_, hexpires, hschedule ▸ hrun.timely⟩, hrun.count, hmax ▸ hrun.cap,
    Scheduler.stopped_run⟩

/-- A loop of one minute, launched at once and not again before its iteration is over. -/
theorem loop_timely_minute :
    ∃ created state, LoopState.create (.interval 60) 100 604800 created = .ok state ∧
      launches ([.tick created true, .tick created true].foldl Scheduler.step { loop := state }).log
        ≤ 100 := by
  obtain ⟨created, state, h⟩ : ∃ created state,
      LoopState.create (.interval 60) 100 604800 created = .ok state :=
    ⟨⟨⟨738885, by decide, by decide⟩, 23, 59, 30, 0, by decide, by decide, by decide, by decide⟩, _,
      rfl⟩
  exact ⟨_, state, h, (loop_timely (by rintro s ⟨⟩) h _).2.2.1⟩

end KolegaCode.Cron
