import KolegaCode.Session.Writers

/-!
# Session — the epoch of several writers

The fast resynchronisation learns the next number from the last line and keeps the epoch the
instance has in memory.  An instance is behind when another one has started an epoch since it last
read the whole log or started one itself.  As long as no instance that is behind appends from
memory, resynchronising is the same as reading the whole log (`resync_agrees`).
-/

namespace KolegaCode.Session

variable {ι : Type} [DecidableEq ι]

/-! ### Tracking -/

/-- The tail of the file shows no number, so a resynchronisation reads the whole log. -/
def tailHidden (file : Bytes) : Bool := file.isEmpty || (tailSeq file).isNone

/-- An append of this instance reads the whole log first. -/
def World.reads (w : World ι) (i : ι) : Bool :=
  !(w.journals i).ready || w.lock i == .free && tailHidden w.file

/-- The instances that are behind after an action. -/
def track (cfg : Config) (w : World ι) (behind : ι → Bool) : Action ι → ι → Bool
  | .append i req attempt =>
    if req.eventType = "context.epoch_started" ∧
        w.file.count newline < (step cfg w (.append i req attempt)).file.count newline then
      fun k => k ≠ i
    else if w.reads i && w.lock i != .busy then Function.update behind i false
    else behind
  | .read i _ => Function.update behind i false
  | .reopen i => Function.update behind i false
  | .acquire _ => behind
  | .release _ => behind

/-- An append is allowed, and made from memory only by an instance that is not behind. -/
def EpochAllowed (w : World ι) (behind : ι → Bool) : Action ι → Prop
  | .append i req attempt =>
    Allowed w (.append i req attempt) ∧ (w.reads i = false → behind i = false)
  | _ => True

def EpochAllowedRun (cfg : Config) : World ι → (ι → Bool) → List (Action ι) → Prop
  | _, _, [] => True
  | w, behind, a :: acts =>
    EpochAllowed w behind a ∧ EpochAllowedRun cfg (step cfg w a) (track cfg w behind a) acts

/-- The log is numbered, and an instance that is ready and not behind has its epoch. -/
structure Known (cfg : Config) (w : World ι) (behind : ι → Bool) (log : Log) : Prop where
  file : w.file = log.bytes
  logged : Logged cfg log.events
  numbered : Numbered 1 log.events
  epoch : ∀ k, (w.journals k).ready = true → behind k = false →
    (w.journals k).epochId = lastEpoch log.events

/-! ### One action -/

section Step

variable {cfg : Config} {w : World ι} {behind : ι → Bool} {log : Log}

theorem tailHidden_log (h : Logged cfg log.events) :
    tailHidden log.bytes = log.lastSeq?.isNone := by
  have hr := readTailSeq_log h {}
  simp only [readTailSeq, bind, EStateM.bind, estate_get, pure, EStateM.pure] at hr
  have hv := (EStateM.Result.ok.inj hr).1
  rw [← hv, tailHidden]
  cases log.bytes <;> simp

variable {es : List SessionEvent} {i : ι} {req : Request} {attempt : Attempt}

theorem eq_loadedFrom {j : SessionJournal} (hj : j.ready = true) (hseq : j.nextSeq = nextAfter es)
    (he : j.epochId = lastEpoch es) : j = loadedFrom es := by
  obtain ⟨loaded, recovery, nextSeq, epochId⟩ := j
  simp only [SessionJournal.ready, Bool.and_eq_true, Bool.not_eq_true'] at hj hseq he
  obtain ⟨rfl, rfl⟩ := hj
  subst hseq he
  rfl

/-- An instance that resynchronises in an allowed way knows the log. -/
theorem synced_eq (hk : Known cfg w behind log) (hl : w.lock i = .free)
    (ha : w.reads i = false → behind i = false) :
    synced log (w.journals i) = loadedFrom log.events := by
  rw [synced]
  split
  · rename_i hc
    obtain ⟨hready, hsome⟩ := Bool.and_eq_true_iff.mp hc
    have hreads : w.reads i = false := by
      rw [World.reads, hk.file, tailHidden_log hk.logged, hready, hl]
      simpa using hsome
    exact eq_loadedFrom hready rfl (hk.epoch i hready (ha hreads))
  · rfl

theorem readyState_eq (hk : Known cfg w behind log)
    (ha : EpochAllowed w behind (.append i req attempt)) (hl : w.lock i ≠ .busy) :
    readyState (w.lock i) log (w.journals i) = loadedFrom log.events := by
  rw [readyState]
  split
  · rename_i hfree
    exact synced_eq hk hfree ha.2
  · rename_i hfree
    split
    · rename_i hready
      have howned : w.lock i = .owned := by
        cases hlock : w.lock i with
        | owned => rfl
        | free => exact absurd hlock hfree
        | busy => exact absurd hlock hl
      have hreads : w.reads i = false := by
        rw [World.reads, hready, howned]
        rfl
      obtain ⟨hseq, -⟩ := ha.1 howned hready
      rw [hk.file, count_newline_log hk.logged, ← nextAfter_eq hk.numbered] at hseq
      exact eq_loadedFrom hready hseq (hk.epoch i hready (ha.2 hreads))
    · rfl

theorem not_behind_of_track {k : ι} (hki : k ≠ i)
    (h : track cfg w behind (.append i req attempt) k = false) :
    behind k = false ∧ ¬ (req.eventType = "context.epoch_started" ∧
      w.file.count newline < (step cfg w (.append i req attempt)).file.count newline) := by
  rw [track] at h
  split at h
  · simp [hki] at h
  · rename_i hs
    refine ⟨?_, hs⟩
    split at h
    · rwa [Function.update_of_ne hki] at h
    · exact h

theorem known_put {v : View} {log' : Log} {behind' : ι → Bool} (hk : Known cfg w behind log)
    (hf : v.file = log'.bytes) (hlog : Logged cfg log'.events) (hn : Numbered 1 log'.events)
    (hi : v.journal.ready = true → v.journal.epochId = lastEpoch log'.events)
    (hothers : ∀ k, k ≠ i → behind' k = false →
      behind k = false ∧ lastEpoch log'.events = lastEpoch log.events) :
    Known cfg (w.put i v) behind' log' where
  file := hf
  logged := hlog
  numbered := hn
  epoch := by
    intro k hready hb
    by_cases hki : k = i
    · subst hki
      simp only [World.put, Function.update_self] at hready ⊢
      exact hi hready
    · simp only [World.put, Function.update_of_ne hki] at hready ⊢
      obtain ⟨hbk, he⟩ := hothers k hki hb
      rw [he]
      exact hk.epoch k hready hbk

theorem count_newline_append {e : SessionEvent} (h : Logged cfg (es ++ [e])) :
    (render (es ++ [e])).count newline = es.length + 1 := by
  rw [count_newline_render h, List.length_append]
  rfl

theorem known_written (hk : Known cfg w behind log) {j' : SessionJournal} {epoch : String}
    (he : resolveEpoch req (loadedFrom log.events) = some epoch)
    (hstep : step cfg w (.append i req attempt) =
      w.put i ⟨j', render (log.events ++ [newEvent cfg req (nextAfter log.events) epoch])⟩)
    (hj : j'.ready = true →
      j' = loadedFrom (log.events ++ [newEvent cfg req (nextAfter log.events) epoch])) :
    ∃ log', Known cfg (step cfg w (.append i req attempt))
      (track cfg w behind (.append i req attempt)) log' := by
  obtain ⟨hlog', hn'⟩ := logged_append_newEvent hk.logged hk.numbered he
  have hcount : w.file.count newline < (step cfg w (.append i req attempt)).file.count newline := by
    rw [hstep, World.put, count_newline_append hlog', hk.file, count_newline_log hk.logged]
    omega
  refine ⟨⟨log.events ++ [newEvent cfg req (nextAfter log.events) epoch], [], by simp⟩, ?_⟩
  rw [hstep]
  refine known_put hk (List.append_nil _).symm hlog' hn' ?_ ?_
  · intro hready
    rw [hj hready]
    rfl
  · intro k hki hb
    obtain ⟨hbk, hstart⟩ := not_behind_of_track hki hb
    refine ⟨hbk, ?_⟩
    rw [lastEpoch_append]
    exact if_neg fun ht => hstart ⟨ht, hcount⟩

theorem known_busy (hc : cfg.crossProcessLock = true) (hk : Known cfg w behind log)
    (hb : w.lock i = .busy) :
    Known cfg (step cfg w (.append i req attempt)) (track cfg w behind (.append i req attempt))
      log := by
  have hstep : step cfg w (.append i req attempt) = w := by
    rw [step, hb, append_busy hc, stateOf, World.put, World.view, Function.update_eq_self]
  have htrack : track cfg w behind (.append i req attempt) = behind := by
    rw [track, hstep, if_neg (fun h => Nat.lt_irrefl _ h.2), hb]
    simp
  rw [hstep, htrack]
  exact hk

/-- **One action keeps what the instances know.** -/
theorem step_known (hc : cfg.crossProcessLock = true) (hk : Known cfg w behind log) {a : Action ι}
    (ha : EpochAllowed w behind a) :
    ∃ log', Known cfg (step cfg w a) (track cfg w behind a) log' := by
  cases a with
  | append i req attempt =>
    by_cases hb : w.lock i = .busy
    · exact ⟨log, known_busy hc hk hb⟩
    have ho := allowed_outcome hc hk.file hk.logged hk.numbered ha.1 hb
    rw [readyState_eq hk ha hb] at ho
    have hstep : step cfg w (.append i req attempt) =
      w.put i (stateOf (append cfg (w.lock i) req attempt (w.view i))) := rfl
    generalize append cfg (w.lock i) req attempt (w.view i) = r at ho hstep
    cases ho with
    | written he => exact known_written hk he hstep fun _ => loadedFrom_advanced cfg req _ _
    | unreported he => exact known_written hk he hstep (by simp [SessionJournal.ready])
    | refused _ =>
      refine ⟨log.repaired, ?_⟩
      rw [hstep]
      exact known_put hk log.repaired_bytes.symm hk.logged hk.numbered (fun _ => rfl)
        fun k hki hbk => ⟨(not_behind_of_track hki hbk).1, rfl⟩
    | torn hrest _ =>
      refine ⟨⟨log.events, _, hrest⟩, ?_⟩
      rw [hstep]
      exact known_put hk rfl hk.logged hk.numbered (by simp [stateOf, SessionJournal.ready])
        fun k hki hbk => ⟨(not_behind_of_track hki hbk).1, rfl⟩
  | read i repairTail =>
    obtain ⟨log', he, hr⟩ :=
      read_log hk.logged hk.numbered (w.lock i) repairTail (w.journals i)
    refine ⟨log', ?_⟩
    rw [step, World.view, hk.file, hr]
    refine known_put hk rfl (he ▸ hk.logged) (he ▸ hk.numbered) (fun _ => by rw [he]; rfl) ?_
    intro k hki hbk
    rw [track, Function.update_of_ne hki] at hbk
    exact ⟨hbk, by rw [he]⟩
  | acquire i | release i =>
    refine ⟨log, ?_⟩
    rw [step]
    split <;> exact ⟨hk.file, hk.logged, hk.numbered, hk.epoch⟩
  | reopen i =>
    have hput : Known cfg (w.put i ⟨{}, w.file⟩) (track cfg w behind (.reopen i)) log := by
      refine known_put hk hk.file hk.logged hk.numbered (by simp [SessionJournal.ready]) ?_
      intro k hki hbk
      rw [track, Function.update_of_ne hki] at hbk
      exact ⟨hbk, rfl⟩
    exact ⟨log, hput.file, hput.logged, hput.numbered, hput.epoch⟩

end Step

/-! ### Whole runs -/

theorem run_known {cfg : Config} (hc : cfg.crossProcessLock = true) {acts : List (Action ι)}
    {a : Action ι} : ∀ {w : World ι} {behind : ι → Bool} {log : Log}, Known cfg w behind log →
      EpochAllowedRun cfg w behind (acts ++ [a]) →
      ∃ behind' log', Known cfg (run cfg w acts) behind' log' ∧
        EpochAllowed (run cfg w acts) behind' a := by
  induction acts with
  | nil =>
    intro w behind log hk ha
    exact ⟨behind, log, hk, ha.1⟩
  | cons b acts ih =>
    intro w behind log hk ha
    obtain ⟨log', hk'⟩ := step_known hc hk ha.1
    exact ih hk' ha.2

/-- **Resynchronising with the tail is reading the whole log.**  At every append of a run in which
no instance that is behind appends from memory, resynchronising leaves the instance as a reload of
the whole log would, and an event written without an epoch of its own carries the epoch of the last
`context.epoch_started` in front of it. -/
theorem resync_agrees {cfg : Config} (hc : cfg.crossProcessLock = true) {w : World ι}
    (hw : w.file = []) {acts : List (Action ι)} {i : ι} {req : Request} {attempt : Attempt}
    (ha : EpochAllowedRun cfg w (fun _ => true) (acts ++ [.append i req attempt])) :
    ((run cfg w acts).lock i = .free →
      (ensureLoaded cfg .owned >>= fun _ => resyncSeqFromTail cfg) ((run cfg w acts).view i) =
        (readEventsLocked cfg true true >>= setStateFromEvents) ((run cfg w acts).view i)) ∧
    ∀ e v, append cfg ((run cfg w acts).lock i) req attempt ((run cfg w acts).view i) = .ok e v →
      req.epochId.filter (· ≠ "") = none →
      ∃ es, parseEventBytes cfg false (completeLines (run cfg w acts).file) = .ok es ∧
        lastEpoch es = some e.epochId := by
  have h0 : Known cfg w (fun _ => true) ⟨[], [], by simp⟩ :=
    ⟨hw, by simp [Logged], trivial, by simp⟩
  obtain ⟨behind, log, hk, hallowed⟩ := run_known hc h0 ha
  generalize run cfg w acts = w' at hk hallowed
  refine ⟨?_, ?_⟩
  · intro hl
    rw [World.view, hk.file, prepare_resync hk.logged hk.numbered, synced_eq hk hl hallowed.2,
      reload_log _ hk.logged hk.numbered]
  · intro e v happ hreq
    have hb : w'.lock i ≠ .busy := by
      intro hb
      rw [hb, append_busy hc] at happ
      cases happ
    have ho := allowed_outcome hc hk.file hk.logged hk.numbered hallowed.1 hb
    rw [readyState_eq hk hallowed hb, happ] at ho
    refine ⟨log.events, ?_, ?_⟩
    · rw [hk.file, Log.bytes, completeLines_render log.newline_not_mem]
      exact parseEventBytes_render hk.logged (by simp)
    · cases ho with
      | written he =>
        rw [resolveEpoch, hreq] at he
        exact (Option.filter_eq_some_iff.mp he).1

/-- An instance that is not ready reads the whole log at its first append. -/
theorem resync_agrees_firstAppend :
    (ensureLoaded sharedConfig .owned >>= fun _ => resyncSeqFromTail sharedConfig)
        ((run sharedConfig newWorld
          [.append false (startEpoch "event-1" "epoch-1") {}]).view true) =
      (readEventsLocked sharedConfig true true >>= setStateFromEvents)
        ((run sharedConfig newWorld
          [.append false (startEpoch "event-1" "epoch-1") {}]).view true) := by
  have ha : EpochAllowedRun sharedConfig newWorld (fun _ => true)
      ([.append false (startEpoch "event-1" "epoch-1") {}] ++
        [.append true (goalEvaluated "event-2") {}]) := by
    refine ⟨⟨?_, ?_⟩, ⟨?_, ?_⟩, trivial⟩
    · intro h
      cases h
    · intro h
      cases h
    · intro h
      cases h
    · rw [step_firstEvent]
      intro h
      cases h
  exact (resync_agrees rfl rfl ha).1 rfl

/-! ### An epoch another process has started -/

/-- The second process has read the first epoch when the first process starts another. -/
def staleEpochRun : List (Action Bool) :=
  [.append false (startEpoch "event-1" "epoch-1" event1_ne) {},
    .append true (goalEvaluated "event-2" event2_ne) {},
    .append false (startEpoch "event-3" "epoch-2" event3_ne) {}]

def thirdEvent : SessionEvent :=
  newEvent sharedConfig (startEpoch "event-3" "epoch-2" event3_ne) 3 "epoch-2"

/-- The log when the second epoch has been started. -/
def threeEvents : Log := ⟨[firstEvent, secondEvent, thirdEvent], [], List.not_mem_nil⟩

theorem logged_threeEvents :
    Logged sharedConfig threeEvents.events ∧ Numbered 1 threeEvents.events := by
  have he : resolveEpoch (startEpoch "event-3" "epoch-2") {} = some "epoch-2" := rfl
  exact logged_append_newEvent logged_secondEvent.1 logged_secondEvent.2 he

theorem lastSeq?_threeEvents : threeEvents.lastSeq? = some 3 := by
  have hlen : (eventLine thirdEvent).length ≤ tailWindow := by decide +kernel
  simp only [Log.lastSeq?, threeEvents, if_true, List.getLast?_cons_cons, List.getLast?_singleton,
    Option.bind_some, if_pos hlen]
  rfl

theorem synced_nextSeq (log : Log) (j : SessionJournal) :
    (synced log j).nextSeq = nextAfter log.events := by
  rw [synced]
  split <;> rfl

theorem view_staleEpoch :
    (run sharedConfig newWorld staleEpochRun).view true =
      ⟨loadedFrom [firstEvent, secondEvent], threeEvents.bytes⟩ := by
  have hsplit : run sharedConfig newWorld staleEpochRun =
      step sharedConfig (twoAppends none) (.append false (startEpoch "event-3" "epoch-2") {}) := by
    rw [← run_twoAppends]
    rfl
  have hview : (twoAppends none).view false =
      ⟨loadedFrom [firstEvent], (Log.mk [firstEvent, secondEvent] [] (by simp)).bytes⟩ := by
    rw [Log.bytes, List.append_nil]
    rfl
  have hlock : (twoAppends none).lock false = .free := rfl
  have hlogged : Logged sharedConfig (Log.mk [firstEvent, secondEvent] [] (by simp)).events :=
    logged_secondEvent.1
  have he : ∀ j, resolveEpoch (startEpoch "event-3" "epoch-2") j = some "epoch-2" := fun _ => rfl
  rw [hsplit, step, hlock, hview, append_resyncs rfl hlogged logged_secondEvent.2,
    appendResolved_succeeds (he _) (succeeds_complete _), synced_nextSeq, threeEvents, Log.bytes,
    List.append_nil]
  have hrender : render [firstEvent, secondEvent, thirdEvent] =
      render [firstEvent, secondEvent] ++ eventLine thirdEvent := by
    rw [← render_singleton, ← render_append]
    rfl
  rw [hrender]
  rfl

/-- **An epoch another process has started is missed.**  The second process resynchronises with
the tail, keeps the first epoch, and writes its event into it. -/
theorem staleEpoch_kept :
    (resyncSeqFromTail sharedConfig ((run sharedConfig newWorld staleEpochRun).view true) ≠
      (readEventsLocked sharedConfig true true >>= setStateFromEvents)
        ((run sharedConfig newWorld staleEpochRun).view true)) ∧
    ∃ es e v, parseEventBytes sharedConfig false
        (completeLines (run sharedConfig newWorld staleEpochRun).file) = .ok es ∧
      append sharedConfig .free (goalEvaluated "event-4") {}
        ((run sharedConfig newWorld staleEpochRun).view true) = .ok e v ∧
      lastEpoch es ≠ some e.epochId := by
  obtain ⟨hlog, hn⟩ := logged_threeEvents
  have hsync : synced threeEvents (loadedFrom [firstEvent, secondEvent]) =
      { loadedFrom [firstEvent, secondEvent] with nextSeq := 4 } := by
    rw [synced, lastSeq?_threeEvents]
    rfl
  refine ⟨?_, ?_⟩
  · rw [view_staleEpoch, resync_some hlog lastSeq?_threeEvents, reload_log _ hlog hn]
    intro h
    have hview := (EStateM.Result.ok.inj h).2
    have hepoch := congrArg (fun v => v.journal.epochId) hview
    have hlast : lastEpoch [firstEvent, secondEvent] ≠ lastEpoch threeEvents.events := by decide
    exact hlast hepoch
  · have hfile : ((run sharedConfig newWorld staleEpochRun).view true).file = threeEvents.bytes := by
      rw [view_staleEpoch]
    rw [World.view_file] at hfile
    have he : resolveEpoch (goalEvaluated "event-4")
        { loadedFrom [firstEvent, secondEvent] with nextSeq := 4 } = some "epoch-1" := rfl
    have happ : append sharedConfig .free (goalEvaluated "event-4") {}
        ((run sharedConfig newWorld staleEpochRun).view true) =
        appendResolved sharedConfig (goalEvaluated "event-4") {}
          ⟨{ loadedFrom [firstEvent, secondEvent] with nextSeq := 4 },
            render threeEvents.events⟩ := by
      rw [view_staleEpoch, append_resyncs rfl hlog hn, hsync]
    rw [appendResolved_succeeds he (succeeds_complete _)] at happ
    refine ⟨threeEvents.events, _, _, ?_, happ, ?_⟩
    · rw [hfile, Log.bytes, completeLines_render threeEvents.newline_not_mem]
      exact parseEventBytes_render hlog (by simp)
    · have hlast : lastEpoch threeEvents.events ≠ some "epoch-1" := by decide
      exact hlast

end KolegaCode.Session
