import KolegaCode.Session.Crash

/-!
# Session — several writers on one log

Any number of journal instances share one file and its cross-process lock.  An instance may take
the lock for its lifetime; while it holds it the others are refused.  An append that finds the lock
free resynchronises its number with the tail of the file; an append of the owner does not, so the
log stays numbered from one as long as no owner appends with a number that is out of date.
-/

namespace KolegaCode.Session

open List

/-! ### What an append can do -/

/-- The instance when it has got ready: one that finds the lock free resynchronises, and the owner
loads the log only if it has to. -/
def readyState (lock : Lock) (log : Log) (j : SessionJournal) : SessionJournal :=
  if lock = .free then synced log j else if j.ready then j else loadedFrom log.events

/-- The outcomes of an append to a log of the events `es` by an instance in the state `j`: it is
refused for want of an epoch, the event is written, a beginning of its line is left behind, or the
event is written and the append still raises. -/
inductive Outcome (cfg : Config) (req : Request) (es : List SessionEvent) (j : SessionJournal) :
    EStateM.Result String View SessionEvent → Prop where
  | refused {message : String} :
    resolveEpoch req j = none → Outcome cfg req es j (.error message ⟨j, render es⟩)
  | written {epoch : String} :
    resolveEpoch req j = some epoch →
    Outcome cfg req es j (.ok (newEvent cfg req (nextAfter es) epoch)
      ⟨j.advanced req epoch, render (es ++ [newEvent cfg req (nextAfter es) epoch])⟩)
  | torn {message epoch : String} {rest : Bytes} (hrest : newline ∉ rest) :
    resolveEpoch req j = some epoch →
    Outcome cfg req es j (.error message
      ⟨{ j with loaded := false }, (Log.mk es rest hrest).bytes⟩)
  | unreported {message epoch : String} :
    resolveEpoch req j = some epoch →
    Outcome cfg req es j (.error message ⟨{ j with loaded := false },
      render (es ++ [newEvent cfg req (nextAfter es) epoch])⟩)

variable {es : List SessionEvent}

section Outcome

variable {cfg : Config} {log : Log} {j : SessionJournal} {req : Request} {attempt : Attempt}

theorem appendResolved_outcome (hn : Numbered 1 es) (hseq : j.nextSeq = nextAfter es) :
    Outcome cfg req es j (appendResolved cfg req attempt ⟨j, render es⟩) := by
  obtain ⟨loaded, recovery, nextSeq, epochId⟩ := j
  simp only at hseq
  subst hseq
  cases he : resolveEpoch req _ with
  | none =>
    rw [appendResolved_none he]
    exact .refused he
  | some epoch =>
    cases hs : attempt.succeeds (eventLine (newEvent cfg req (nextAfter es) epoch)) with
    | true =>
      rw [appendResolved_succeeds he hs, ← render_singleton, ← render_append]
      exact .written he
    | false =>
      rw [appendResolved_fails he hs]
      have hwf : (newEvent cfg req (nextAfter es) epoch).WellFormed :=
        wellFormed_newEvent req (by rw [nextAfter_eq hn]; omega) (resolveEpoch_ne he)
      have hp := attempt.kept_prefix (eventLine (newEvent cfg req (nextAfter es) epoch))
      by_cases hlen : (attempt.kept (eventLine (newEvent cfg req (nextAfter es) epoch))).length <
          (eventLine (newEvent cfg req (nextAfter es) epoch)).length
      · exact .torn (newline_not_mem_cutLine hwf hp hlen) he
      · rw [hp.eq_of_length_le (by omega), ← render_singleton, ← render_append]
        exact .unreported he

/-- **What an append can do** to a numbered log, when an owner that is ready knows the next number
and no line is torn. -/
theorem append_outcome {lock : Lock} (hc : cfg.crossProcessLock = true) (hl : lock ≠ .busy)
    (h : Logged cfg log.events) (hn : Numbered 1 log.events)
    (hj : lock = .owned → j.ready = true → log.torn = [] ∧ j.nextSeq = nextAfter log.events) :
    Outcome cfg req log.events (readyState lock log j)
      (append cfg lock req attempt ⟨j, log.bytes⟩) := by
  cases lock with
  | busy => exact absurd rfl hl
  | free =>
    have hr : resyncs cfg .free = true := by simp [resyncs, hc]
    rw [append_resyncs hr h hn, readyState, if_pos rfl]
    refine appendResolved_outcome hn ?_
    rw [synced]
    split <;> rfl
  | owned =>
    have hr : resyncs cfg .owned = false := by simp [resyncs]
    rw [readyState, if_neg (by decide)]
    cases hready : j.ready with
    | true =>
      obtain ⟨ht, hseq⟩ := hj rfl hready
      rw [append_ready (.inl hl) hr hready, Log.bytes, ht, append_nil]
      exact appendResolved_outcome hn hseq
    | false =>
      rw [append_notReady (.inl hl) hr hready h hn]
      exact appendResolved_outcome hn rfl

end Outcome

/-! ### Instances on one file -/

/-- The shared file, the instances, and the one that holds the lock for its lifetime. -/
structure World (ι : Type) where
  file : Bytes
  journals : ι → SessionJournal
  owner : Option ι := none

/-- What an instance does: it appends or reads, takes the lock for its lifetime or gives it back,
or its process ends, wherever it was, and a new one opens the log. -/
inductive Action (ι : Type) where
  | append (i : ι) (req : Request) (attempt : Attempt)
  | read (i : ι) (repairTail : Bool)
  | acquire (i : ι)
  | release (i : ι)
  | reopen (i : ι)

/-- The instance and the file after a method has returned or raised. -/
def stateOf {α : Type} : EStateM.Result String View α → View
  | .ok _ v => v
  | .error _ v => v

section World

variable {ι : Type} [DecidableEq ι]

/-- The lock as an instance finds it. -/
def World.lock (w : World ι) (i : ι) : Lock :=
  match w.owner with
  | none => .free
  | some k => if k = i then .owned else .busy

def World.view (w : World ι) (i : ι) : View := ⟨w.journals i, w.file⟩

omit [DecidableEq ι] in
@[simp] theorem World.view_file (w : World ι) (i : ι) : (w.view i).file = w.file := rfl

def World.put (w : World ι) (i : ι) (v : View) : World ι :=
  { w with file := v.file, journals := Function.update w.journals i v.journal }

def step (cfg : Config) (w : World ι) : Action ι → World ι
  | .append i req attempt => w.put i (stateOf (append cfg (w.lock i) req attempt (w.view i)))
  | .read i repairTail => w.put i (stateOf (readEvents cfg (w.lock i) repairTail (w.view i)))
  | .acquire i => if w.owner = none then { w with owner := some i } else w
  | .release i => if w.owner = some i then { w with owner := none } else w
  | .reopen i =>
    { w with
      journals := Function.update w.journals i {}
      owner := if w.owner = some i then none else w.owner }

def run (cfg : Config) (w : World ι) (acts : List (Action ι)) : World ι := acts.foldl (step cfg) w

/-- The instance's number is that of the next line, and no line is torn. -/
def Current (w : World ι) (i : ι) : Prop :=
  (w.journals i).nextSeq = w.file.count newline + 1 ∧
    (w.file = [] ∨ w.file.getLast? = some newline)

/-- An append that does not resynchronise, because its instance owns the lock and has read the
file, is made with a number that is up to date. -/
def Allowed (w : World ι) : Action ι → Prop
  | .append i _ _ => w.lock i = .owned → (w.journals i).ready = true → Current w i
  | _ => True

/-- Every action of a run is allowed where it is taken. -/
def AllowedRun (cfg : Config) : World ι → List (Action ι) → Prop
  | _, [] => True
  | w, a :: acts => Allowed w a ∧ AllowedRun cfg (step cfg w a) acts

/-! ### The numbers -/

/-- A file that holds events numbered from one, perhaps with a torn line behind them. -/
def NumberedFile (cfg : Config) (file : Bytes) : Prop :=
  ∃ log : Log, file = log.bytes ∧ Logged cfg log.events ∧ Numbered 1 log.events

theorem numberedFile_render {cfg : Config} (h : Logged cfg es) (hn : Numbered 1 es) :
    NumberedFile cfg (render es) :=
  ⟨⟨es, [], by simp⟩, (append_nil _).symm, h, hn⟩

theorem count_newline_render {cfg : Config} (h : Logged cfg es) :
    (render es).count newline = es.length := by
  induction es with
  | nil => rfl
  | cons e es ih =>
    have htext : (eventText e).count newline = 0 :=
      count_eq_zero.mpr (newline_not_mem_eventText (h e (by simp)).1)
    rw [render_cons, eventLine_eq, count_append, count_append, htext,
      ih fun e' he' => h e' (by simp [he']), count_singleton_self, length_cons]
    omega

theorem count_newline_log {cfg : Config} {log : Log} (h : Logged cfg log.events) :
    log.bytes.count newline = log.events.length := by
  rw [Log.bytes, count_append, count_newline_render h, count_eq_zero.mpr log.newline_not_mem]
  omega

theorem torn_eq_nil {log : Log} (h : log.bytes = [] ∨ log.bytes.getLast? = some newline) :
    log.torn = [] := by
  by_contra hne
  obtain ⟨h1, h2⟩ := (torn_iff log.newline_not_mem log.events).mpr hne
  rcases h with h | h
  · exact h1 h
  · exact h2 h

variable {cfg : Config} {w : World ι}

theorem Outcome.numberedFile {req : Request} {j : SessionJournal}
    {r : EStateM.Result String View SessionEvent} (h : Outcome cfg req es j r)
    (hlog : Logged cfg es) (hn : Numbered 1 es) : NumberedFile cfg (stateOf r).file := by
  cases h with
  | refused _ => exact numberedFile_render hlog hn
  | written he =>
    obtain ⟨hlog', hn'⟩ := logged_append_newEvent hlog hn he
    exact numberedFile_render hlog' hn'
  | torn hrest _ => exact ⟨⟨es, _, hrest⟩, rfl, hlog, hn⟩
  | unreported he =>
    obtain ⟨hlog', hn'⟩ := logged_append_newEvent hlog hn he
    exact numberedFile_render hlog' hn'

theorem allowed_outcome (hc : cfg.crossProcessLock = true) {log : Log} (hf : w.file = log.bytes)
    (hlog : Logged cfg log.events) (hn : Numbered 1 log.events) {i : ι} {req : Request}
    {attempt : Attempt} (ha : Allowed w (.append i req attempt)) (hl : w.lock i ≠ .busy) :
    Outcome cfg req log.events (readyState (w.lock i) log (w.journals i))
      (append cfg (w.lock i) req attempt (w.view i)) := by
  rw [World.view, hf]
  refine append_outcome hc hl hlog hn ?_
  intro ho hready
  obtain ⟨hseq, hend⟩ := ha ho hready
  rw [hf] at hseq hend
  rw [hseq, count_newline_log hlog, nextAfter_eq hn]
  exact ⟨torn_eq_nil hend, rfl⟩

theorem read_log {log : Log} (hlog : Logged cfg log.events) (hn : Numbered 1 log.events)
    (lock : Lock) (repairTail : Bool) (j : SessionJournal) :
    ∃ log' : Log, log'.events = log.events ∧
      readEvents cfg lock repairTail ⟨j, log.bytes⟩ = .ok log.events
        ⟨{ loadedFrom log.events with tailRequiresRecovery := decide (log'.torn ≠ []) },
          log'.bytes⟩ := by
  by_cases hr : repairTail = false ∨ cfg.crossProcessLock = true ∧ lock = .busy
  · exact ⟨log, rfl, readEvents_noRepair hr j hlog hn⟩
  · rw [not_or, Bool.not_eq_false, not_and'] at hr
    have hl : lock ≠ .busy ∨ cfg.crossProcessLock = false := by
      by_cases hb : lock = .busy
      · exact .inr (Bool.eq_false_iff.mpr (hr.2 hb))
      · exact .inl hb
    refine ⟨log.repaired, rfl, ?_⟩
    rw [hr.1, readEvents_repair hl j hlog hn, log.repaired_bytes]
    rfl

/-- **One action keeps the numbers.** -/
theorem step_numberedFile (hc : cfg.crossProcessLock = true) (h : NumberedFile cfg w.file)
    {a : Action ι} (ha : Allowed w a) : NumberedFile cfg (step cfg w a).file := by
  obtain ⟨log, hf, hlog, hn⟩ := h
  cases a with
  | append i req attempt =>
    by_cases hb : w.lock i = .busy
    · rw [step, hb, append_busy hc]
      exact ⟨log, hf, hlog, hn⟩
    · exact (allowed_outcome hc hf hlog hn ha hb).numberedFile hlog hn
  | read i repairTail =>
    obtain ⟨log', he, hr⟩ := read_log hlog hn (w.lock i) repairTail (w.journals i)
    rw [step, World.view, hf, hr]
    exact ⟨log', rfl, he ▸ hlog, he ▸ hn⟩
  | acquire i | release i =>
    rw [step]
    split <;> exact ⟨log, hf, hlog, hn⟩
  | reopen i => exact ⟨log, hf, hlog, hn⟩

theorem run_numberedFile (hc : cfg.crossProcessLock = true) {acts : List (Action ι)} :
    ∀ {w : World ι}, NumberedFile cfg w.file → AllowedRun cfg w acts →
      NumberedFile cfg (run cfg w acts).file := by
  induction acts with
  | nil =>
    intro w h _
    exact h
  | cons a acts ih =>
    intro w h ha
    exact ih (step_numberedFile hc h ha.1) ha.2

/-- **The log is numbered from one.**  Whatever the instances had in memory at the start, in every
state of a run whose appends are allowed the complete lines of the file are events numbered
`1..N` in file order. -/
theorem contiguous (hc : cfg.crossProcessLock = true) (hw : w.file = []) {acts : List (Action ι)}
    (ha : AllowedRun cfg w acts) :
    ∃ es, parseEventBytes cfg false (completeLines (run cfg w acts).file) = .ok es ∧
      Numbered 1 es := by
  have hnil : Logged cfg [] := by simp [Logged]
  have h0 : NumberedFile cfg w.file := hw ▸ numberedFile_render hnil trivial
  obtain ⟨log, hf, hlog, hn⟩ := run_numberedFile hc h0 ha
  refine ⟨log.events, ?_, hn⟩
  rw [hf, Log.bytes, completeLines_render log.newline_not_mem]
  exact parseEventBytes_render hlog (by simp)

variable {epoch : String}

theorem step_complete {i : ι} {req : Request} (hf : w.file = render es) (hlog : Logged cfg es)
    (hn : Numbered 1 es) (hl : w.lock i ≠ .busy)
    (hj : (w.journals i).ready = true → w.journals i = loadedFrom es)
    (he : resolveEpoch req (loadedFrom es) = some epoch) :
    step cfg w (.append i req {}) =
      w.put i ⟨loadedFrom (es ++ [newEvent cfg req (nextAfter es) epoch]),
        render (es ++ [newEvent cfg req (nextAfter es) epoch])⟩ := by
  rw [step, World.view, hf, append_complete req (.inl hl) hlog hn hj, he]
  rfl

theorem append_outdated {j : SessionJournal} {req : Request} (hready : j.ready = true)
    (he : resolveEpoch req j = some epoch) :
    append cfg .owned req {} ⟨j, render es⟩ = .ok (newEvent cfg req j.nextSeq epoch)
      ⟨j.advanced req epoch, render (es ++ [newEvent cfg req j.nextSeq epoch])⟩ := by
  have hr : resyncs cfg .owned = false := by simp [resyncs]
  rw [append_ready (.inl (by decide)) hr hready, appendResolved_succeeds he (succeeds_complete _),
    render_append, render_singleton]

/-- So a number that is not the next one breaks the log. -/
theorem not_numbered_of_outdated {req : Request} {n : Int} (hn : n ≠ es.length + 1) :
    ¬ Numbered 1 (es ++ [newEvent cfg req n epoch]) := by
  intro h
  have hseq : n = 1 + es.length := (numbered_append.mp h).2.1
  omega

end World

/-! ### An owner with an old number -/

/-- A new session that two processes open. -/
def newWorld : World Bool := { file := [], journals := fun _ => {} }

/-- The second process appends after the first one has; then the first takes the lock for its
lifetime and appends again, without reading the log. -/
def staleOwnerRun : List (Action Bool) :=
  [.append false (startEpoch "event-1" "epoch-1" event1_ne) {},
    .append true (goalEvaluated "event-2" event2_ne) {}, .acquire false,
    .append false (goalEvaluated "event-3" event3_ne) {}]

def secondEvent : SessionEvent :=
  newEvent sharedConfig (goalEvaluated "event-2" event2_ne) 2 "epoch-1"

/-- What the two processes know after one append each. -/
def twoAppends (owner : Option Bool) : World Bool where
  file := render [firstEvent, secondEvent]
  journals := fun i => if i then loadedFrom [firstEvent, secondEvent] else loadedFrom [firstEvent]
  owner := owner

theorem logged_firstEvent : Logged sharedConfig [firstEvent] ∧ Numbered 1 [firstEvent] := by
  have hnil : Logged sharedConfig [] := by simp [Logged]
  have he : resolveEpoch (startEpoch "event-1" "epoch-1") {} = some "epoch-1" := rfl
  exact logged_append_newEvent hnil trivial he

theorem logged_secondEvent :
    Logged sharedConfig [firstEvent, secondEvent] ∧ Numbered 1 [firstEvent, secondEvent] := by
  have he : resolveEpoch (goalEvaluated "event-2") (loadedFrom [firstEvent]) = some "epoch-1" := rfl
  exact logged_append_newEvent logged_firstEvent.1 logged_firstEvent.2 he

theorem step_firstEvent :
    step sharedConfig newWorld (.append false (startEpoch "event-1" "epoch-1") {}) =
      newWorld.put false ⟨loadedFrom [firstEvent], render [firstEvent]⟩ := by
  have hnil : Logged sharedConfig [] := by simp [Logged]
  exact step_complete rfl hnil trivial (by decide) (by decide) rfl

/-- An owner whose number is up to date: it has just appended. -/
theorem contiguous_owner :
    ∃ es, parseEventBytes sharedConfig false (completeLines (run sharedConfig newWorld
        [.append false (startEpoch "event-1" "epoch-1") {}, .acquire false,
          .append false (goalEvaluated "event-2") {}]).file) = .ok es ∧ Numbered 1 es := by
  refine contiguous rfl rfl ⟨?_, trivial, ?_, trivial⟩
  · intro h
    cases h
  · rw [step_firstEvent]
    intro _ _
    refine ⟨?_, ?_⟩
    · show (2 : Int) = (render [firstEvent]).count newline + 1
      rw [count_newline_render logged_firstEvent.1]
      rfl
    · refine .inr ?_
      show (render [firstEvent]).getLast? = some newline
      simp [eventLine_eq]

theorem run_twoAppends :
    run sharedConfig newWorld
      [.append false (startEpoch "event-1" "epoch-1") {},
        .append true (goalEvaluated "event-2") {}] = twoAppends none := by
  have h2 : step sharedConfig (newWorld.put false ⟨loadedFrom [firstEvent], render [firstEvent]⟩)
      (.append true (goalEvaluated "event-2") {}) =
      (newWorld.put false ⟨loadedFrom [firstEvent], render [firstEvent]⟩).put true
        ⟨loadedFrom [firstEvent, secondEvent], render [firstEvent, secondEvent]⟩ :=
    step_complete rfl logged_firstEvent.1 logged_firstEvent.2 (by decide) (by decide) rfl
  rw [run, foldl_cons, foldl_cons, foldl_nil, step_firstEvent, h2, twoAppends, World.put, World.put]
  congr 1
  funext i
  cases i <;> rfl

def repeatedEvent : SessionEvent :=
  newEvent sharedConfig (goalEvaluated "event-3" event3_ne) 2 "epoch-1"

theorem run_staleOwner :
    (run sharedConfig newWorld staleOwnerRun).file =
      render ([firstEvent, secondEvent] ++ [repeatedEvent]) := by
  have hsplit : run sharedConfig newWorld staleOwnerRun =
      step sharedConfig (twoAppends (some false)) (.append false (goalEvaluated "event-3") {}) := by
    have hacquire : twoAppends (some false) =
        step sharedConfig (twoAppends none) (.acquire false) := rfl
    rw [hacquire, ← run_twoAppends]
    rfl
  have hlock : (twoAppends (some false)).lock false = .owned := rfl
  have hview : (twoAppends (some false)).view false =
      ⟨loadedFrom [firstEvent], render [firstEvent, secondEvent]⟩ := rfl
  have he : resolveEpoch (goalEvaluated "event-3") (loadedFrom [firstEvent]) = some "epoch-1" := rfl
  rw [hsplit, step, hlock, hview, append_outdated rfl he]
  rfl

/-- **An owner with an old number repeats it.** -/
theorem staleOwner_repeats :
    ¬ ∃ es, parseEventBytes sharedConfig false
        (completeLines (run sharedConfig newWorld staleOwnerRun).file) = .ok es ∧
      Numbered 1 es := by
  have hlogged : Logged sharedConfig ([firstEvent, secondEvent] ++ [repeatedEvent]) := by
    refine logged_secondEvent.1.append ?_
    intro e he
    rw [mem_singleton] at he
    rw [he]
    exact ⟨wellFormed_newEvent _ (by decide) (by decide), rfl⟩
  have hcomplete : completeLines (render ([firstEvent, secondEvent] ++ [repeatedEvent]) ++ []) = _ :=
    completeLines_render (by simp) _
  rw [append_nil] at hcomplete
  intro h
  obtain ⟨es, hes, hn⟩ := h
  rw [run_staleOwner, hcomplete, parseEventBytes_render hlogged (by simp)] at hes
  cases hes
  exact not_numbered_of_outdated (by decide) hn

end KolegaCode.Session
