import KolegaCode.Session.Journal

/-!
# Session — the lines of a log

A log is the lines of its events (`render`), perhaps with a torn line behind them.  What is read is
the events, the torn line is cut off by a repair, and the number in the last line is found unless
that line is torn or does not fit into the last 64 KB.
-/

namespace KolegaCode.Session

open Json (Dict get? loadsBytes dumpsBytes)

/-! ### Rendering -/

def render (es : List SessionEvent) : Bytes := es.flatMap eventLine

@[simp] theorem render_nil : render [] = [] := rfl

theorem render_cons (e : SessionEvent) (es : List SessionEvent) :
    render (e :: es) = eventLine e ++ render es := rfl

@[simp] theorem render_append (es es' : List SessionEvent) :
    render (es ++ es') = render es ++ render es' := List.flatMap_append

@[simp] theorem render_singleton (e : SessionEvent) : render [e] = eventLine e := by
  rw [render, List.flatMap_singleton]

/-- The text of an event's line. -/
def eventText (e : SessionEvent) : Bytes := dumpsBytes (.obj e.toDict)

theorem eventLine_eq (e : SessionEvent) : eventLine e = eventText e ++ [newline] := rfl

/-- The events a journal can have written. -/
def Logged (cfg : Config) (es : List SessionEvent) : Prop :=
  ∀ e ∈ es, e.WellFormed ∧ e.sessionId = cfg.sessionId

variable {es es' : List SessionEvent} {e : SessionEvent} {torn : Bytes} {strictSeq : Bool}

theorem Logged.append {cfg : Config} (h : Logged cfg es) (h' : Logged cfg es') :
    Logged cfg (es ++ es') := by
  intro e he
  rcases List.mem_append.mp he with he | he
  · exact h e he
  · exact h' e he

theorem ne_newline_of_printable {b : UInt8} (h : Utf8.Printable b) :
    b ≠ newline ∧ b ≠ carriageReturn := by
  refine ⟨?_, ?_⟩
  · intro hb
    rw [hb] at h
    exact absurd h (by decide)
  · intro hb
    rw [hb] at h
    exact absurd h (by decide)

theorem printable_eventText (h : e.WellFormed) : ∀ b ∈ eventText e, Utf8.Printable b :=
  Json.printable_dumpsBytes (SessionEvent.canonical_toDict h)

theorem newline_not_mem_eventText (h : e.WellFormed) :
    newline ∉ eventText e := fun hb => (ne_newline_of_printable (printable_eventText h _ hb)).1 rfl

theorem eventText_eq (e : SessionEvent) : ∃ text, eventText e = 123 :: text := ⟨_, rfl⟩

theorem isBlank_eventText (e : SessionEvent) : isBlank (eventText e) = false := by
  obtain ⟨text, h⟩ := eventText_eq e
  rw [h]
  rfl

theorem loadsBytes_eventText (h : e.WellFormed) : loadsBytes (eventText e) = some (.obj e.toDict) :=
  Json.loadsBytes_dumpsBytes (SessionEvent.canonical_toDict h)

/-! ### Splitting -/

theorem splitlines_line {line : Bytes} (h : ∀ b ∈ line, Utf8.Printable b) (rest : Bytes) :
    splitlines (line ++ newline :: rest) = line :: splitlines rest := by
  induction line with
  | nil => rfl
  | cons b line ih =>
    obtain ⟨hn, hr⟩ := ne_newline_of_printable (h b (by simp))
    have ih := ih fun c hc => h c (by simp [hc])
    rw [splitlines] at ih
    rw [splitlines, List.cons_append, splitlinesFrom, if_neg hn, if_neg hr, ih]

theorem splitlines_render {cfg : Config} (h : Logged cfg es) :
    splitlines (render es) = es.map eventText := by
  induction es with
  | nil => rfl
  | cons e es ih =>
    rw [render_cons, eventLine_eq, List.append_assoc, List.singleton_append,
      splitlines_line (printable_eventText (h e (by simp)).1),
      ih fun e' he' => h e' (by simp [he']), List.map_cons]

theorem splitNewlines_line {line : Bytes} (h : newline ∉ line) (rest : Bytes) :
    splitNewlines (line ++ newline :: rest) = line :: splitNewlines rest := by
  induction line with
  | nil => rw [List.nil_append, splitNewlines, if_pos rfl]
  | cons b line ih =>
    rw [List.mem_cons, not_or] at h
    rw [List.cons_append, splitNewlines, if_neg (Ne.symm h.1), ih h.2]

theorem splitNewlines_append (chunk rest : Bytes) :
    ∃ line lines, splitNewlines (chunk ++ newline :: rest) = line :: lines ++ splitNewlines rest := by
  induction chunk with
  | nil => exact ⟨[], [], by rw [List.nil_append, splitNewlines, if_pos rfl]; rfl⟩
  | cons b chunk ih =>
    obtain ⟨line, lines, hl⟩ := ih
    rw [List.cons_append, splitNewlines, hl]
    split
    · exact ⟨[], line :: lines, rfl⟩
    · exact ⟨b :: line, lines, rfl⟩

/-! ### The complete lines -/

theorem render_eq_nil_or (es : List SessionEvent) :
    render es = [] ∨ ∃ raw, render es = raw ++ [newline] := by
  induction es using List.reverseRecOn with
  | nil => exact .inl rfl
  | append_singleton es e _ =>
    refine .inr ⟨render es ++ eventText e, ?_⟩
    rw [render_append, render_singleton, eventLine_eq, List.append_assoc]

theorem completeLines_render (ht : newline ∉ torn) (es : List SessionEvent) :
    completeLines (render es ++ torn) = render es := by
  induction torn using List.reverseRecOn with
  | nil =>
    rw [List.append_nil]
    rcases render_eq_nil_or es with h | ⟨raw, h⟩
    · rw [h]
      rfl
    · rw [h, completeLines, List.rdropWhile_concat_neg]
      decide
  | append_singleton torn b ih =>
    rw [List.mem_append, List.mem_singleton, not_or] at ht
    rw [completeLines, ← List.append_assoc, List.rdropWhile_concat_pos, ← completeLines, ih ht.1]
    exact decide_eq_true (Ne.symm ht.2)

/-- Behind complete lines a torn one ends without a newline, and no other log does. -/
theorem torn_iff (ht : newline ∉ torn) (es : List SessionEvent) :
    (render es ++ torn ≠ [] ∧ (render es ++ torn).getLast? ≠ some newline) ↔ torn ≠ [] := by
  cases torn using List.reverseRecOn with
  | nil =>
    rw [List.append_nil]
    rcases render_eq_nil_or es with h | ⟨raw, h⟩ <;> simp [h]
  | append_singleton torn b =>
    rw [List.mem_append, List.mem_singleton, not_or] at ht
    simp [← List.append_assoc, Ne.symm ht.2]

/-! ### Parsing -/

/-- Numbered from `n` on, in order. -/
def Numbered : Int → List SessionEvent → Prop
  | _, [] => True
  | n, e :: es => e.seq = n ∧ Numbered (n + 1) es

theorem numbered_append :
    ∀ {n : Int}, Numbered n (es ++ es') ↔ Numbered n es ∧ Numbered (n + es.length) es' := by
  induction es with
  | nil =>
    intro n
    simp [Numbered]
  | cons e es ih =>
    intro n
    rw [List.cons_append, Numbered, Numbered, ih, and_assoc, List.length_cons]
    have : n + 1 + (es.length : Int) = n + ((es.length + 1 : Nat) : Int) := by omega
    rw [this]

theorem parseLine_eventText {cfg : Config} (h : e.WellFormed) (hs : e.sessionId = cfg.sessionId)
    {k : Int} (hk : strictSeq = true → e.seq = k) (n : Nat) :
    parseLine cfg strictSeq n k (eventText e) = .ok e := by
  have hgap : ¬ (strictSeq = true ∧ e.seq ≠ k) := fun hc => hc.2 (hk hc.1)
  rw [parseLine, isBlank_eventText, loadsBytes_eventText h]
  simp only [SessionEvent.fromDict_toDict h, bind, Except.bind, hs, Bool.false_eq_true, if_false,
    ne_eq, not_true_eq_false]
  exact if_neg hgap

theorem parseLines_eventText {cfg : Config} :
    ∀ {n : Nat} {k : Int}, Logged cfg es → (strictSeq = true → Numbered k es) →
      parseLines cfg strictSeq n k (es.map eventText) = .ok es := by
  induction es with
  | nil =>
    intro n k _ _
    rfl
  | cons e es ih =>
    intro n k h hk
    obtain ⟨hwf, hs⟩ := h e (by simp)
    rw [List.map_cons, parseLines, parseLine_eventText hwf hs (fun ht => (hk ht).1),
      show ((Except.ok e : Except String SessionEvent) >>= _) = _ from rfl,
      ih (fun e' he' => h e' (by simp [he'])) (fun ht => (hk ht).2)]
    rfl

/-- **What is rendered is parsed.** -/
theorem parseEventBytes_render {cfg : Config} (h : Logged cfg es)
    (hn : strictSeq = true → Numbered 1 es) :
    parseEventBytes cfg strictSeq (render es) = .ok es := by
  rw [parseEventBytes, splitlines_render h]
  exact parseLines_eventText h hn

/-! ### Reading a log -/

/-- What a reader finds: the complete events, and a torn line behind them. -/
structure Log where
  events : List SessionEvent
  torn : Bytes := []
  newline_not_mem : newline ∉ torn := by decide

def Log.bytes (log : Log) : Bytes := render log.events ++ log.torn

theorem readEventBytes_log (repairTail : Bool) (j : SessionJournal) (log : Log) :
    readEventBytes repairTail ⟨j, log.bytes⟩ = .ok (render log.events)
      ⟨{ j with tailRequiresRecovery := decide (log.torn ≠ []) && !repairTail },
        if repairTail then render log.events else log.bytes⟩ := by
  obtain ⟨es, torn, ht⟩ := log
  simp only [readEventBytes, bind, EStateM.bind, estate_get, Log.bytes]
  by_cases h : torn = []
  · rw [if_neg (fun hc => (torn_iff ht es).mp hc h)]
    simp [h]
    rfl
  · rw [if_pos ((torn_iff ht es).mpr h)]
    simp [h, completeLines_render ht]
    rfl

/-- The state of an instance that has just read a log of these events without a torn line. -/
def loadedFrom (es : List SessionEvent) : SessionJournal where
  loaded := true
  tailRequiresRecovery := false
  nextSeq := nextAfter es
  epochId := lastEpoch es

theorem nextAfter_eq (h : Numbered 1 es) : nextAfter es = es.length + 1 := by
  cases es using List.reverseRecOn with
  | nil => rfl
  | append_singleton es e =>
    have he := (numbered_append.mp h).2.1
    simp only [nextAfter, List.getLast?_append, List.getLast?_singleton, Option.some_or, he,
      List.length_append, List.length_singleton]
    omega

theorem lastEpoch_append (es : List SessionEvent) (e : SessionEvent) :
    lastEpoch (es ++ [e]) =
      if e.eventType = "context.epoch_started" then some e.epochId else lastEpoch es := by
  rw [lastEpoch, List.foldl_append]
  rfl

theorem nextAfter_append (es : List SessionEvent) (e : SessionEvent) :
    nextAfter (es ++ [e]) = e.seq + 1 := by
  rw [nextAfter, List.getLast?_append]
  rfl

theorem run_bind_ok {α β : Type} {x : JournalM α} {f : α → JournalM β} {v v' : View} {a : α}
    (h : x v = .ok a v') : (x >>= f) v = f a v' := by
  simp only [bind, EStateM.bind, h]

section Reading

variable {cfg : Config} {log : Log}

theorem readEventsLocked_log (repairTail : Bool) (j : SessionJournal) (h : Logged cfg log.events)
    (hn : strictSeq = true → Numbered 1 log.events) :
    readEventsLocked cfg repairTail strictSeq ⟨j, log.bytes⟩ = .ok log.events
      ⟨{ j with tailRequiresRecovery := decide (log.torn ≠ []) && !repairTail },
        if repairTail then render log.events else log.bytes⟩ := by
  rw [readEventsLocked, run_bind_ok (readEventBytes_log repairTail j log),
    parseEventBytes_render h hn]
  rfl

theorem setStateFromEvents_run (es : List SessionEvent) (j : SessionJournal) (file : Bytes) :
    setStateFromEvents es ⟨j, file⟩ =
      .ok () ⟨{ loadedFrom es with tailRequiresRecovery := j.tailRequiresRecovery }, file⟩ := rfl

/-- A read with a repair of the tail forgets what the instance held. -/
theorem reload_log (j : SessionJournal) (h : Logged cfg log.events) (hn : Numbered 1 log.events) :
    (readEventsLocked cfg true true >>= setStateFromEvents) ⟨j, log.bytes⟩ =
      .ok () ⟨loadedFrom log.events, render log.events⟩ := by
  rw [run_bind_ok (readEventsLocked_log true j h fun _ => hn), setStateFromEvents_run]
  simp [loadedFrom]

variable {lock : Lock}

theorem readEventsWithRecovery_free (hl : lock ≠ .busy ∨ cfg.crossProcessLock = false) :
    readEventsWithRecovery cfg lock true = readEventsLocked cfg true true := by
  rw [readEventsWithRecovery]
  split
  · rfl
  · rename_i hc
    rw [if_neg]
    intro hb
    rcases hl with hl | hl
    · exact hl hb
    · simp [hl] at hc

/-- **Reading with a repair returns the complete events and leaves only them.** -/
theorem readEvents_repair (hl : lock ≠ .busy ∨ cfg.crossProcessLock = false) (j : SessionJournal)
    (h : Logged cfg log.events) (hn : Numbered 1 log.events) :
    readEvents cfg lock true ⟨j, log.bytes⟩ =
      .ok log.events ⟨loadedFrom log.events, render log.events⟩ := by
  rw [readEvents, readEventsWithRecovery_free hl,
    run_bind_ok (readEventsLocked_log true j h fun _ => hn),
    run_bind_ok (setStateFromEvents_run ..)]
  simp [loadedFrom, pure, EStateM.pure]

theorem readEvents_noRepair {repairTail : Bool}
    (hl : repairTail = false ∨ cfg.crossProcessLock = true ∧ lock = .busy) (j : SessionJournal)
    (h : Logged cfg log.events) (hn : Numbered 1 log.events) :
    readEvents cfg lock repairTail ⟨j, log.bytes⟩ = .ok log.events
      ⟨{ loadedFrom log.events with tailRequiresRecovery := decide (log.torn ≠ []) },
        log.bytes⟩ := by
  have hr : readEventsWithRecovery cfg lock repairTail = readEventsLocked cfg false true := by
    rcases hl with rfl | ⟨hc, rfl⟩
    · rfl
    · cases repairTail <;> simp [readEventsWithRecovery, hc]
  rw [readEvents, hr, run_bind_ok (readEventsLocked_log false j h fun _ => hn),
    run_bind_ok (setStateFromEvents_run ..)]
  simp [pure, EStateM.pure]

/-- The instance need not read the file before it appends. -/
def SessionJournal.ready (j : SessionJournal) : Bool := j.loaded && !j.tailRequiresRecovery

variable {j : SessionJournal}

theorem ensureLoaded_ready (hj : j.ready = true) (file : Bytes) :
    ensureLoaded cfg lock ⟨j, file⟩ = .ok () ⟨j, file⟩ := by
  rw [SessionJournal.ready] at hj
  simp only [ensureLoaded, bind, EStateM.bind, estate_get, hj, if_true]
  rfl

theorem ensureLoaded_notReady (hl : lock ≠ .busy ∨ cfg.crossProcessLock = false)
    (hj : j.ready = false) (h : Logged cfg log.events) (hn : Numbered 1 log.events) :
    ensureLoaded cfg lock ⟨j, log.bytes⟩ =
      .ok () ⟨loadedFrom log.events, render log.events⟩ := by
  rw [SessionJournal.ready] at hj
  rw [ensureLoaded, readEventsWithRecovery_free hl]
  simp only [bind, EStateM.bind, estate_get, hj, if_false, Bool.false_eq_true]
  exact reload_log j h hn

/-- Under the lock of another instance the tail stays as it is. -/
theorem ensureLoaded_busy (hc : cfg.crossProcessLock = true) (hl : lock = .busy)
    (hj : j.ready = false) (h : Logged cfg log.events) (hn : Numbered 1 log.events) :
    ensureLoaded cfg lock ⟨j, log.bytes⟩ = .ok ()
      ⟨{ loadedFrom log.events with tailRequiresRecovery := decide (log.torn ≠ []) },
        log.bytes⟩ := by
  rw [SessionJournal.ready] at hj
  have hr : readEventsWithRecovery cfg lock true = readEventsLocked cfg false true := by
    simp [readEventsWithRecovery, hc, hl]
  rw [ensureLoaded, hr]
  simp only [bind, EStateM.bind, estate_get, hj, if_false, Bool.false_eq_true,
    readEventsLocked_log false j h fun _ => hn, setStateFromEvents_run]
  simp

end Reading

/-! ### The last line -/

theorem tailSeq_torn (ht : newline ∉ torn) (hne : torn ≠ []) (es : List SessionEvent) :
    tailSeq (render es ++ torn) = none := by
  obtain ⟨hfile, hlast⟩ := (torn_iff ht es).mpr hne
  have hchunk : ((render es ++ torn).drop ((render es ++ torn).length - tailWindow)).getLast? ≠
      some newline := by
    rw [List.getLast?_drop]
    split
    · simp
    · exact hlast
  rw [tailSeq]
  exact if_pos hchunk

theorem splitNewlines_last {front text : Bytes}
    (hf : front = [] ∨ ∃ raw, front = raw ++ [newline]) (ht : newline ∉ text) :
    ∃ lines, (splitNewlines (front ++ (text ++ [newline]))).reverse = [] :: text :: lines := by
  have hline : splitNewlines (text ++ [newline]) = [text, []] := splitNewlines_line ht []
  rcases hf with rfl | ⟨raw, rfl⟩
  · rw [List.nil_append, hline]
    exact ⟨[], rfl⟩
  · rw [List.append_assoc, List.singleton_append]
    obtain ⟨line, lines, hl⟩ := splitNewlines_append raw (text ++ [newline])
    rw [hl, hline]
    exact ⟨(line :: lines).reverse, by simp⟩

theorem tailSeq_chunk {file front text : Bytes}
    (hc : file.drop (file.length - tailWindow) = front ++ (text ++ [newline]))
    (hf : front = [] ∨ ∃ raw, front = raw ++ [newline]) (ht : newline ∉ text) :
    tailSeq file = if isBlank text then none else
      match loadsBytes text with
      | some (.obj data) => (get? data "seq").bind asInt?
      | _ => none := by
  obtain ⟨lines, hl⟩ := splitNewlines_last hf ht
  rw [tailSeq, hc, hl]
  exact if_neg (by simp)

theorem drop_render (es : List SessionEvent) (n : Nat) :
    (render es).drop n = [] ∨ ∃ raw, (render es).drop n = raw ++ [newline] := by
  rcases render_eq_nil_or es with h | ⟨raw, h⟩
  · rw [h]
    exact .inl (List.drop_nil)
  · by_cases hn : n ≤ raw.length
    · rw [h, List.drop_append_of_le_length hn]
      exact .inr ⟨_, rfl⟩
    · refine .inl ?_
      rw [List.drop_eq_nil_iff, h, List.length_append, List.length_singleton]
      omega

/-- The number of the last event is found when its line fits into the last 64 KB. -/
theorem tailSeq_short (he : e.WellFormed) (hlen : (eventLine e).length ≤ tailWindow)
    (es : List SessionEvent) : tailSeq (render es ++ eventLine e) = some e.seq := by
  have hdrop : (render es ++ eventLine e).drop ((render es ++ eventLine e).length - tailWindow) =
      (render es).drop ((render es).length + (eventLine e).length - tailWindow) ++
        (eventText e ++ [newline]) := by
    rw [List.length_append, List.drop_append_of_le_length (by omega), ← eventLine_eq]
  rw [tailSeq_chunk hdrop (drop_render es _) (newline_not_mem_eventText he), isBlank_eventText,
    loadsBytes_eventText he]
  simp [(SessionEvent.get?_toDict e).2.2.2.1, asInt?]

/-- A line that does not fit is read from its middle, and no number is found. -/
theorem tailSeq_long (he : e.WellFormed) (hlen : tailWindow < (eventLine e).length)
    (es : List SessionEvent) : tailSeq (render es ++ eventLine e) = none := by
  have htext : (eventLine e).length = (eventText e).length + 1 := by simp [eventLine_eq]
  have hdrop : (render es ++ eventLine e).drop ((render es ++ eventLine e).length - tailWindow) =
      [] ++ ((eventText e).drop ((eventLine e).length - tailWindow) ++ [newline]) := by
    have hsub : (render es ++ eventLine e).length - tailWindow - (render es).length =
        (eventLine e).length - tailWindow := by
      rw [List.length_append]
      omega
    have hle : (render es).length ≤ (render es ++ eventLine e).length - tailWindow := by
      rw [List.length_append]
      omega
    have hcut : (eventLine e).length - tailWindow ≤ (eventText e).length := by
      rw [htext, tailWindow]
      omega
    rw [List.drop_append, List.drop_eq_nil_of_le hle, hsub]
    exact congrArg _ (List.drop_append_of_le_length hcut)
  have hsuffix : loadsBytes ((eventText e).drop ((eventLine e).length - tailWindow)) = none := by
    refine Json.loadsBytes_suffix_eq_none (SessionEvent.canonical_toDict he)
      (List.take_append_drop ((eventLine e).length - tailWindow) (eventText e)).symm ?_
    rw [Ne, List.take_eq_nil_iff, not_or]
    refine ⟨by omega, ?_⟩
    obtain ⟨text, h⟩ := eventText_eq e
    rw [h]
    simp
  rw [tailSeq_chunk hdrop (.inl rfl)
    (fun hm => newline_not_mem_eventText he (List.mem_of_mem_drop hm)), hsuffix]
  split <;> rfl

end KolegaCode.Session
