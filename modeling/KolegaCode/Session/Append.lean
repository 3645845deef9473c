import KolegaCode.Session.Lines

/-!
# Session — one append

What an append does to a log: the instance gets ready (`synced` when it resynchronises with the
tail, otherwise it loads the log if it has to), an epoch is resolved, and one line is written
behind the log, whole or in part.
-/

namespace KolegaCode.Session

/-! ### Getting ready -/

/-- The number of the last event, if the tail of the log shows it. -/
def Log.lastSeq? (log : Log) : Option Int :=
  if log.torn = [] then
    log.events.getLast?.bind fun e => if (eventLine e).length ≤ tailWindow then some e.seq else none
  else none

theorem readTailSeq_log {cfg : Config} {log : Log} (h : Logged cfg log.events)
    (j : SessionJournal) : readTailSeq ⟨j, log.bytes⟩ = .ok log.lastSeq? ⟨j, log.bytes⟩ := by
  have htail : (if log.bytes = [] then none else tailSeq log.bytes) = log.lastSeq? := by
    obtain ⟨es, torn, ht⟩ := log
    rw [Log.lastSeq?, Log.bytes]
    by_cases hne : torn = []
    · subst hne
      rw [if_pos rfl, List.append_nil]
      cases es using List.reverseRecOn with
      | nil => rfl
      | append_singleton es e =>
        have he := (h e (by simp)).1
        have hfile : render (es ++ [e]) ≠ [] := by simp [eventLine_eq]
        rw [if_neg hfile, List.getLast?_append, List.getLast?_singleton, render_append,
          render_singleton]
        by_cases hlen : (eventLine e).length ≤ tailWindow
        · rw [tailSeq_short he hlen]
          simp [hlen]
        · rw [tailSeq_long he (by omega)]
          simp [hlen]
    · rw [if_neg hne, tailSeq_torn ht hne]
      simp
  simp only [readTailSeq, bind, EStateM.bind, estate_get, htail]
  rfl

/-- The log without its torn line. -/
def Log.repaired (log : Log) : Log := ⟨log.events, [], List.not_mem_nil⟩

theorem Log.repaired_bytes (log : Log) : log.repaired.bytes = render log.events :=
  List.append_nil _

/-- The state of an instance that has resynchronised with the log: it reloads when it was not
ready or the tail does not show a number, and otherwise only learns the next number. -/
def synced (log : Log) (j : SessionJournal) : SessionJournal :=
  if j.ready && log.lastSeq?.isSome then { j with nextSeq := nextAfter log.events }
  else loadedFrom log.events

section Ready

variable {cfg : Config} {log : Log} {j : SessionJournal}

theorem lastSeq?_eq_some {n : Int} (h : log.lastSeq? = some n) :
    log.torn = [] ∧ n + 1 = nextAfter log.events := by
  rw [Log.lastSeq?] at h
  split at h
  · rename_i ht
    obtain ⟨e, he, hn⟩ := Option.bind_eq_some_iff.mp h
    split at hn
    · cases hn
      rw [nextAfter, he]
      exact ⟨ht, rfl⟩
    · cases hn
  · cases h

theorem resync_some {n : Int} (h : Logged cfg log.events) (hn : log.lastSeq? = some n) :
    resyncSeqFromTail cfg ⟨j, log.bytes⟩ =
      .ok () ⟨{ j with nextSeq := nextAfter log.events }, render log.events⟩ := by
  obtain ⟨ht, he⟩ := lastSeq?_eq_some hn
  rw [resyncSeqFromTail, run_bind_ok (readTailSeq_log h j), hn]
  simp only [estate_modify, he, Log.bytes, ht, List.append_nil]

theorem resync_none (h : Logged cfg log.events) (hnum : Numbered 1 log.events)
    (hn : log.lastSeq? = none) :
    resyncSeqFromTail cfg ⟨j, log.bytes⟩ =
      .ok () ⟨loadedFrom log.events, render log.events⟩ := by
  rw [resyncSeqFromTail, run_bind_ok (readTailSeq_log h j), hn]
  exact reload_log j h hnum

/-- An instance that finds the lock free resynchronises. -/
theorem prepare_resync (h : Logged cfg log.events) (hnum : Numbered 1 log.events) :
    (ensureLoaded cfg .owned >>= fun _ => resyncSeqFromTail cfg) ⟨j, log.bytes⟩ =
      .ok () ⟨synced log j, render log.events⟩ := by
  rw [synced]
  cases hj : j.ready with
  | true =>
    rw [run_bind_ok (ensureLoaded_ready hj _)]
    cases hn : log.lastSeq? with
    | some n => exact resync_some h hn
    | none => exact resync_none h hnum hn
  | false =>
    rw [run_bind_ok (ensureLoaded_notReady (.inl (by decide)) hj h hnum)]
    have hrep : Logged cfg log.repaired.events := h
    have hsync : resyncSeqFromTail cfg ⟨loadedFrom log.events, log.repaired.bytes⟩ =
        .ok () ⟨loadedFrom log.events, render log.events⟩ := by
      cases hn : log.repaired.lastSeq? with
      | some n => exact resync_some hrep hn
      | none => exact resync_none hrep hnum hn
    rw [log.repaired_bytes] at hsync
    exact hsync

end Ready

/-! ### Writing -/

/-- The whole line is written and the file closed. -/
def Attempt.succeeds (attempt : Attempt) (data : Bytes) : Bool :=
  !attempt.raises && data.length ≤ attempt.written data && attempt.closes

/-- What a write leaves of the line. -/
def Attempt.kept (attempt : Attempt) (data : Bytes) : Bytes :=
  if attempt.raises then []
  else if attempt.written data < data.length then
    if attempt.truncates then [] else data.take (attempt.written data)
  else data

/-- What a failed write raises. -/
def Attempt.message (cfg : Config) (attempt : Attempt) (data : Bytes) : String :=
  if attempt.raises then s!"Could not append session event: {cfg.eventsPath}"
  else if attempt.written data < data.length then
    s!"Short event write for session {cfg.sessionId}: " ++
      s!"wrote {attempt.written data} of {data.length} bytes"
  else "close failed"

theorem succeeds_complete (data : Bytes) : ({} : Attempt).succeeds data = true := by
  simp [Attempt.succeeds, Attempt.written]

theorem Attempt.kept_prefix (attempt : Attempt) (data : Bytes) : attempt.kept data <+: data := by
  rw [kept]
  split
  · exact List.nil_prefix
  split
  · split
    · exact List.nil_prefix
    · exact List.take_prefix ..
  · exact List.prefix_refl data

/-- The instance after it has written an event. -/
def SessionJournal.advanced (j : SessionJournal) (req : Request) (epoch : String) :
    SessionJournal :=
  { j with
    nextSeq := j.nextSeq + 1
    epochId := if req.eventType = "context.epoch_started" then some epoch else j.epochId }

variable {epoch : String} {es : List SessionEvent}

section Writing

variable {cfg : Config} {req : Request} {attempt : Attempt} {j : SessionJournal} {file : Bytes}

theorem appendResolved_none (h : resolveEpoch req j = none) :
    appendResolved cfg req attempt ⟨j, file⟩ =
      .error "An epoch id is required for every session event" ⟨j, file⟩ := by
  simp only [appendResolved, bind, EStateM.bind, estate_get, h]
  rfl

theorem writeEvent_succeeds {e : SessionEvent} (hs : attempt.succeeds (eventLine e) = true) :
    writeEvent cfg attempt e ⟨j, file⟩ = .ok () ⟨j, file ++ eventLine e⟩ := by
  simp only [Attempt.succeeds, Bool.and_eq_true, Bool.not_eq_true', decide_eq_true_eq] at hs
  obtain ⟨⟨hr, hw⟩, hc⟩ := hs
  have hw : ¬ attempt.written (eventLine e) < (eventLine e).length := by omega
  simp only [writeEvent, bind, EStateM.bind, estate_get, hr, hw, hc, if_false, if_true,
    Bool.false_eq_true]
  rfl

theorem writeEvent_fails {e : SessionEvent} (hs : attempt.succeeds (eventLine e) = false) :
    ∃ j', writeEvent cfg attempt e ⟨j, file⟩ = .error (attempt.message cfg (eventLine e))
        ⟨j', file ++ attempt.kept (eventLine e)⟩ ∧
      { j' with loaded := false } = { j with loaded := false } := by
  rw [Attempt.kept, Attempt.message, writeEvent]
  simp only [bind, EStateM.bind, estate_get]
  by_cases hr : attempt.raises = true
  · refine ⟨{ j with loaded := false }, ?_, rfl⟩
    simp only [hr, if_true, List.append_nil]
    rfl
  by_cases hw : attempt.written (eventLine e) < (eventLine e).length
  · refine ⟨{ j with loaded := false }, ?_, rfl⟩
    simp only [hr, hw, if_true, if_false, Bool.false_eq_true]
    cases attempt.truncates with
    | true =>
      simp only [if_true, List.append_nil]
      rfl
    | false => rfl
  · -- only closing has failed: the whole line is there
    have hc : attempt.closes = false := by
      simp only [Attempt.succeeds, Bool.and_eq_false_iff, Bool.not_eq_false',
        decide_eq_false_iff_not] at hs
      rcases hs with (hs | hs) | hs
      · exact absurd hs hr
      · omega
      · exact hs
    refine ⟨j, ?_, rfl⟩
    simp only [hr, hw, hc, if_false, Bool.false_eq_true]
    rfl

theorem appendResolved_succeeds (h : resolveEpoch req j = some epoch)
    (hs : attempt.succeeds (eventLine (newEvent cfg req j.nextSeq epoch)) = true) :
    appendResolved cfg req attempt ⟨j, file⟩ =
      .ok (newEvent cfg req j.nextSeq epoch)
        ⟨j.advanced req epoch, file ++ eventLine (newEvent cfg req j.nextSeq epoch)⟩ := by
  simp only [appendResolved, bind, EStateM.bind, estate_get, h, tryCatch, tryCatchThe,
    MonadExceptOf.tryCatch, EStateM.tryCatch, writeEvent_succeeds hs]
  rfl

theorem appendResolved_fails (h : resolveEpoch req j = some epoch)
    (hs : attempt.succeeds (eventLine (newEvent cfg req j.nextSeq epoch)) = false) :
    appendResolved cfg req attempt ⟨j, file⟩ =
      .error (attempt.message cfg (eventLine (newEvent cfg req j.nextSeq epoch)))
        ⟨{ j with loaded := false },
          file ++ attempt.kept (eventLine (newEvent cfg req j.nextSeq epoch))⟩ := by
  have hwrite : ∃ j', writeEvent cfg attempt (newEvent cfg req j.nextSeq epoch) ⟨j, file⟩ = _ ∧ _ :=
    writeEvent_fails hs
  obtain ⟨j', hw, hj⟩ := hwrite
  simp only [appendResolved, bind, EStateM.bind, estate_get, h, tryCatch, tryCatchThe,
    MonadExceptOf.tryCatch, EStateM.tryCatch, hw]
  rw [← hj]
  rfl

end Writing

/-! ### The event that is written -/

theorem resolveEpoch_ne {req : Request} {j : SessionJournal} (h : resolveEpoch req j = some epoch) :
    epoch ≠ "" := by
  rw [resolveEpoch, Option.filter_eq_some_iff] at h
  simpa using h.2

theorem wellFormed_newEvent {cfg : Config} (req : Request) {seq : Int} (hseq : 1 ≤ seq)
    (he : epoch ≠ "") : (newEvent cfg req seq epoch).WellFormed where
  lineage := by
    refine .inl ⟨rfl, ?_⟩
    exact ⟨⟨_, (req.agent.getD cfg.rootStamp).agentId_ne, rfl⟩,
      ⟨_, (req.agent.getD cfg.rootStamp).agentName_ne, rfl⟩,
      ⟨_, Int.natCast_nonneg _, rfl⟩, (req.agent.getD cfg.rootStamp).parentAgentId_ne,
      (req.agent.getD cfg.rootStamp).parentToolCallId_ne⟩
  seq := hseq
  eventId := req.eventId_ne
  sessionId := cfg.sessionId_ne
  epochId := he
  timestamp := req.timestamp_ne
  actor := req.actor_ne
  eventType := req.eventType_ne
  payload := req.payload_canonical
  artifacts := req.artifacts_canonical

/-! ### Appending -/

/-- Whether an append resynchronises with the tail first. -/
def resyncs (cfg : Config) (lock : Lock) : Bool := cfg.crossProcessLock && lock == .free

section Appending

variable {cfg : Config} {lock : Lock} {log : Log} {j : SessionJournal} {req : Request}
  {attempt : Attempt}

theorem append_busy (hc : cfg.crossProcessLock = true) (v : View) :
    append cfg .busy req attempt v =
      .error s!"Session event log is locked by another kolega-code instance: {cfg.eventsPath}" v := by
  rw [append, if_pos hc]
  rfl

theorem append_eq (hl : lock ≠ .busy ∨ cfg.crossProcessLock = false) (v : View) :
    append cfg lock req attempt v =
      (ensureLoaded cfg .owned >>= fun _ =>
        (if resyncs cfg lock then resyncSeqFromTail cfg else pure ()) >>= fun _ =>
          appendResolved cfg req attempt) v := by
  cases hc : cfg.crossProcessLock with
  | false => simp [append, appendLocked, resyncs, hc]
  | true =>
    cases lock with
    | busy =>
      rcases hl with hl | hl
      · exact absurd rfl hl
      · rw [hc] at hl
        cases hl
    | owned | free => simp [append, appendLocked, resyncs, hc]

theorem append_resyncs (hr : resyncs cfg lock = true) (h : Logged cfg log.events)
    (hn : Numbered 1 log.events) :
    append cfg lock req attempt ⟨j, log.bytes⟩ =
      appendResolved cfg req attempt ⟨synced log j, render log.events⟩ := by
  have hl : lock ≠ .busy := by
    intro hb
    rw [hb] at hr
    simp [resyncs] at hr
  rw [append_eq (.inl hl), if_pos hr, ← bind_assoc, run_bind_ok (prepare_resync h hn)]

section

variable (hl : lock ≠ .busy ∨ cfg.crossProcessLock = false)
include hl

theorem append_ready (hr : resyncs cfg lock = false) (hj : j.ready = true) (file : Bytes) :
    append cfg lock req attempt ⟨j, file⟩ = appendResolved cfg req attempt ⟨j, file⟩ := by
  rw [append_eq hl, run_bind_ok (ensureLoaded_ready hj _), hr]
  rfl

theorem append_notReady (hr : resyncs cfg lock = false) (hj : j.ready = false)
    (h : Logged cfg log.events) (hn : Numbered 1 log.events) :
    append cfg lock req attempt ⟨j, log.bytes⟩ =
      appendResolved cfg req attempt ⟨loadedFrom log.events, render log.events⟩ := by
  rw [append_eq hl, run_bind_ok (ensureLoaded_notReady (.inl (by decide)) hj h hn), hr]
  rfl

/-- An instance that knows the log whenever it is ready appends from what the log says, whether it
resynchronises or not. -/
theorem append_known (h : Logged cfg es)
    (hn : Numbered 1 es) (hj : j.ready = true → j = loadedFrom es) :
    append cfg lock req attempt ⟨j, render es⟩ =
      appendResolved cfg req attempt ⟨loadedFrom es, render es⟩ := by
  have hlog : Logged cfg (Log.mk es [] (by simp)).events := h
  have hbytes : (Log.mk es [] (by simp)).bytes = render es := List.append_nil _
  cases hr : resyncs cfg lock with
  | false =>
    cases hready : j.ready with
    | true =>
      rw [hj hready]
      exact append_ready hl hr rfl _
    | false =>
      rw [← hbytes, append_notReady hl hr hready hlog hn, hbytes]
  | true =>
    have hs : synced (Log.mk es [] (by simp)) j = loadedFrom es := by
      rw [synced]
      split
      · rename_i hc
        rw [hj (Bool.and_eq_true_iff.mp hc).1]
        rfl
      · rfl
    rw [← hbytes, append_resyncs hr hlog hn, hs, hbytes]

end

end Appending

/-! ### The log afterwards -/

/-- An instance that knew the log knows it after its own append. -/
theorem loadedFrom_advanced (cfg : Config) (req : Request) (es : List SessionEvent)
    (epoch : String) :
    (loadedFrom es).advanced req epoch =
      loadedFrom (es ++ [newEvent cfg req (nextAfter es) epoch]) := by
  simp only [loadedFrom, lastEpoch_append, nextAfter_append]
  rfl

theorem logged_append_newEvent {cfg : Config} {req : Request} {j : SessionJournal}
    (h : Logged cfg es) (hn : Numbered 1 es) (he : resolveEpoch req j = some epoch) :
    Logged cfg (es ++ [newEvent cfg req (nextAfter es) epoch]) ∧
      Numbered 1 (es ++ [newEvent cfg req (nextAfter es) epoch]) := by
  have hseq := nextAfter_eq hn
  refine ⟨h.append ?_, numbered_append.mpr ⟨hn, ?_, trivial⟩⟩
  · intro e hm
    rw [List.mem_singleton] at hm
    rw [hm]
    exact ⟨wellFormed_newEvent req (by omega) (resolveEpoch_ne he), rfl⟩
  · show nextAfter es = 1 + es.length
    omega

/-! ### A small session -/

/-- The root agent of a session. -/
def rootStamp : AgentStamp where
  agentId := "root"
  agentName := "main"
  parentAgentId := none
  parentToolCallId := none
  depth := 0
  agentId_ne := by decide
  agentName_ne := by decide
  parentAgentId_ne := by decide
  parentToolCallId_ne := by decide

/-- A session whose instances share the lock. -/
def sharedConfig : Config where
  sessionId := "session"
  eventsPath := "events.jsonl"
  crossProcessLock := true
  rootStamp := rootStamp
  sessionId_ne := by decide

theorem system_ne : "system" ≠ "" := by decide

theorem sampleTime_ne : "2026-01-01T00:00:00+00:00" ≠ "" := by decide

theorem event1_ne : "event-1" ≠ "" := by decide

theorem event2_ne : "event-2" ≠ "" := by decide

theorem event3_ne : "event-3" ≠ "" := by decide

theorem canonical_noArtifacts : ∀ a ∈ ([] : List Json.Dict), Json.Canonical (.obj a) := by simp

/-- `start_epoch("new")`, with the ids it chose. -/
def startEpoch (eventId epoch : String) (h : eventId ≠ "" := by decide) : Request where
  eventType := "context.epoch_started"
  actor := "system"
  payload := [("reason", .str "new")]
  epochId := some epoch
  eventId := eventId
  timestamp := "2026-01-01T00:00:00+00:00"
  eventType_ne := by decide
  actor_ne := system_ne
  eventId_ne := h
  timestamp_ne := sampleTime_ne
  payload_canonical := by simp [Json.Canonical, Json.CanonicalFields]
  artifacts_canonical := canonical_noArtifacts

/-- An event without an epoch of its own. -/
def goalEvaluated (eventId : String) (h : eventId ≠ "" := by decide) : Request where
  eventType := "goal.evaluated"
  actor := "system"
  eventId := eventId
  timestamp := "2026-01-01T00:00:00+00:00"
  eventType_ne := by decide
  actor_ne := system_ne
  eventId_ne := h
  timestamp_ne := sampleTime_ne
  payload_canonical := by simp [Json.Canonical, Json.CanonicalFields]
  artifacts_canonical := canonical_noArtifacts

end KolegaCode.Session
