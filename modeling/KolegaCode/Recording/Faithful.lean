import KolegaCode.Recording.Recorder

/-!
# Recording — what the recorder has gathered

`Gathered base B r R` ties a recorder to the events `B` that were broadcast to it since its store
was `base`: the records `R` written since then, with what the buffers still hold, carry the text of
`B`.  Each way of writing a buffer keeps it, and so does each broadcast.
-/

namespace KolegaCode.Recording

open List
open Json (Dict get?)

variable {policy : RetentionPolicy}

/-! ### Text and run of a record -/

theorem get?_withText (event : AgentEvent) (text : String) {key : String} (h : key ∉ TEXT_KEYS) :
    get? (withText event text).content key = get? event.content key := by
  rw [withText]
  cases hkey : textKey event with
  | none => rfl
  | some found =>
    have hne : key ≠ found := fun e => h (e ▸ mem_of_find?_eq_some hkey)
    simp only [Json.get?_set, if_neg hne]

theorem runKey_withText (event : AgentEvent) (text : String) :
    runKey policy (withText event text) = runKey policy event := by
  have hscope : scopeOf (withText event text) = scopeOf event := rfl
  have hcoalesce : coalesceScope (withText event text) = coalesceScope event := by
    simp only [coalesceScope, hscope, findSome?_cons, findSome?_nil,
      get?_withText event text (show "tool_call_id" ∉ TEXT_KEYS by decide),
      get?_withText event text (show "terminal_id" ∉ TEXT_KEYS by decide),
      get?_withText event text (show "browser_id" ∉ TEXT_KEYS by decide)]
  have htype : (withText event text).eventType = event.eventType := rfl
  have huuid : (withText event text).uuid = event.uuid := rfl
  simp only [runKey, htype, huuid, hscope, hcoalesce]

theorem textKey_withText (event : AgentEvent) (text : String) :
    textKey (withText event text) = textKey event := by
  cases hkey : textKey event with
  | none =>
    have hcontent : (withText event text).content = event.content := by simp only [withText, hkey]
    rw [textKey, hcontent]
    exact hkey
  | some found =>
    have hfound := find?_some hkey
    rw [← hkey, textKey, textKey]
    congr 1
    funext key
    by_cases hk : key = found
    · subst hk
      simp only [withText, hkey, Json.get?_set, if_true]
      exact hfound.symm
    · simp only [withText, hkey, Json.get?_set, if_neg hk]

theorem eventText_withText {event : AgentEvent} {text : String} (h : (textKey event).isSome) :
    eventText (withText event text) = text := by
  obtain ⟨key, hkey⟩ := Option.isSome_iff_exists.mp h
  rw [eventText, textKey_withText, hkey]
  simp [withText, hkey, Json.get?_set]

theorem textKey_isSome_of_text {event : AgentEvent} (h : eventText event ≠ "") :
    (textKey event).isSome := by
  cases hkey : textKey event with
  | some key => rfl
  | none => exact absurd (by simp [eventText, hkey]) h

/-- The texts of a run, in order. -/
def textsOf (policy : RetentionPolicy) (key : RunKey) (events : List AgentEvent) : List String :=
  (events.filter fun event => runKey policy event = key).map eventText

def lastText (policy : RetentionPolicy) (key : RunKey) (events : List AgentEvent) : String :=
  (textsOf policy key events).getLast?.getD ""

theorem textsOf_append (key : RunKey) (es es' : List AgentEvent) :
    textsOf policy key (es ++ es') = textsOf policy key es ++ textsOf policy key es' := by
  simp [textsOf]

theorem textsOf_concat (key : RunKey) (es : List AgentEvent) (event : AgentEvent) :
    textsOf policy key (es ++ [event]) =
      if runKey policy event = key then textsOf policy key es ++ [eventText event]
      else textsOf policy key es := by
  rw [textsOf_append]
  by_cases h : runKey policy event = key <;> simp [textsOf, h]

theorem lastText_concat (key : RunKey) (es : List AgentEvent) (event : AgentEvent) :
    lastText policy key (es ++ [event]) =
      if runKey policy event = key then eventText event else lastText policy key es := by
  rw [lastText, textsOf_concat]
  split <;> simp [lastText]

theorem empty_of_join {texts : List String} (h : String.join texts = "") {text : String}
    (hmem : text ∈ texts) : text = "" := by
  have hall := congrArg String.toList h
  simp only [String.toList_join, String.toList_empty, flatMap_eq_nil_iff] at hall
  exact String.toList_inj.mp (hall text hmem)

theorem exists_text_of_join {key : RunKey} {es : List AgentEvent}
    (h : String.join (textsOf policy key es) ≠ "") :
    ∃ b ∈ es, runKey policy b = key ∧ eventText b ≠ "" := by
  by_contra hall
  refine h ?_
  have hempty : ∀ t ∈ textsOf policy key es, t = "" := by
    intro t ht
    obtain ⟨b, hb, rfl⟩ := mem_map.mp ht
    obtain ⟨hb, hkey⟩ := mem_filter.mp hb
    by_contra htext
    exact hall ⟨b, hb, of_decide_eq_true hkey, htext⟩
  rw [eq_replicate_of_mem hempty, ← String.toList_inj]
  simp

/-! ### The invariant -/

/-- `record` is `event`, but for its text and the stamps of the store. -/
def Coarser (event record : AgentEvent) : Prop :=
  record = { event with
    content := record.content, elapsedMs := record.elapsedMs, seq := record.seq } ∧
  (record.content = event.content ∨ ∃ text, record.content = (withText event text).content)

theorem Coarser.runKey_eq {event record : AgentEvent} (h : Coarser event record) :
    runKey policy record = runKey policy event := by
  obtain ⟨hrecord, hcontent | ⟨text, hcontent⟩⟩ := h
  · rw [hrecord, hcontent]
    rfl
  · rw [hrecord, hcontent, ← runKey_withText event text]
    rfl

/-- Each run uses one stream mode and one text field. -/
def Uniform (policy : RetentionPolicy) (events : List AgentEvent) : Prop :=
  ∀ e ∈ events, ∀ e' ∈ events, runKey policy e = runKey policy e' →
    replaceMode e = replaceMode e' ∧ textKey e = textKey e'

/-- Every event of the run is of the mode. -/
def InMode (policy : RetentionPolicy) (replace : Bool) (key : RunKey) (events : List AgentEvent) :
    Prop :=
  ∀ e ∈ events, runKey policy e = key → replaceMode e = replace

/-- What the buffer of an append run will be written with. -/
def pendingOf (state : Option StreamState) : String :=
  (state.map fun s => String.join s.pending).getD ""

def latestOf (state : Option StreamState) : Option String := state.bind StreamState.latest

/-- One run: what is recorded and what is buffered, against what was broadcast. -/
structure RunOk (policy : RetentionPolicy) (B R : List AgentEvent) (key : RunKey)
    (state : Option StreamState) : Prop where
  appended : InMode policy false key B → latestOf state = none ∧
    String.join (textsOf policy key R) ++ pendingOf state = String.join (textsOf policy key B)
  replaced : InMode policy true key B → (∀ s, state = some s → s.pending = []) ∧
    match latestOf state with
    | some text => text = lastText policy key B
    | none => lastText policy key B ≠ "" → lastText policy key R = lastText policy key B
  /-- A run without text has no records with text. -/
  silent : (∀ b ∈ B, runKey policy b = key → eventText b = "") → lastText policy key R = ""

/-- The buffers and the records are made of what was broadcast. -/
structure Kept (policy : RetentionPolicy) (base B : List AgentEvent) (r : Recorder)
    (R : List AgentEvent) : Prop where
  store : r.store = base ++ R
  nodup : (Assoc.keys r.streams).Nodup
  template : ∀ key s, r.streams.get? key = some s →
    s.template ∈ B ∧ runKey policy s.template = key
  origin : ∀ x ∈ R, ∃ b ∈ B, Coarser b x

structure Gathered (policy : RetentionPolicy) (base B : List AgentEvent) (r : Recorder)
    (R : List AgentEvent) : Prop extends Kept policy base B r R where
  runs : ∀ key, RunOk policy B R key (r.streams.get? key)

theorem RunOk.skip {B R : List AgentEvent} {key : RunKey} {state : Option StreamState}
    (h : RunOk policy B R key state) {x : AgentEvent} (hx : runKey policy x ≠ key) :
    RunOk policy B (R ++ [x]) key state where
  appended := by simpa only [textsOf_concat, if_neg hx] using h.appended
  replaced := by simpa only [lastText_concat, if_neg hx] using h.replaced
  silent := by simpa only [lastText_concat, if_neg hx] using h.silent

theorem inMode_concat {replace : Bool} {key : RunKey} {B : List AgentEvent} {event : AgentEvent} :
    InMode policy replace key (B ++ [event]) ↔
      InMode policy replace key B ∧ (runKey policy event = key → replaceMode event = replace) := by
  simp only [InMode, mem_append, mem_singleton]
  constructor
  · exact fun h => ⟨fun e he => h e (.inl he), h event (.inr rfl)⟩
  · rintro ⟨h, hevent⟩ e (he | rfl)
    · exact h e he
    · exact hevent

theorem RunOk.other {B R : List AgentEvent} {key : RunKey} {state : Option StreamState}
    (h : RunOk policy B R key state) {event : AgentEvent} (hevent : runKey policy event ≠ key) :
    RunOk policy (B ++ [event]) R key state where
  appended hmode := by
    rw [textsOf_concat, if_neg hevent]
    exact h.appended (inMode_concat.mp hmode).1
  replaced hmode := by
    rw [lastText_concat, if_neg hevent]
    exact h.replaced (inMode_concat.mp hmode).1
  silent hsilent := h.silent fun b hb => hsilent b (mem_append_left _ hb)

/-! ### Writing a buffer -/

/-- A buffer that was written holds nothing, if it is still there. -/
def Cleared (state : StreamState) (after : Option StreamState) : Prop :=
  ∀ s, after = some s → s.template = state.template ∧ s.pending = [] ∧ s.latest = none ∧
    s.streaming = state.streaming

theorem Cleared.pendingOf_eq {state : StreamState} {after : Option StreamState}
    (h : Cleared state after) : pendingOf after = "" := by
  cases after with
  | none => rfl
  | some s => simp [pendingOf, (h s rfl).2.1]

theorem Cleared.latestOf_eq {state : StreamState} {after : Option StreamState}
    (h : Cleared state after) : latestOf after = none := by
  cases after with
  | none => rfl
  | some s => exact (h s rfl).2.2.1

/-- The record `persist` makes of an event. -/
def IsStamped (event record : AgentEvent) : Prop :=
  record = { event with elapsedMs := record.elapsedMs, seq := record.seq }

theorem persist_store (r : Recorder) (event : AgentEvent) :
    ∃ record, IsStamped event record ∧ (persist r event).store = r.store ++ [record] := by
  let record : AgentEvent :=
    { event with elapsedMs := max event.elapsedMs r.lastPersistedElapsedMs, seq := some r.nextSeq }
  exact ⟨record, rfl, rfl⟩

@[simp] theorem persist_streams (r : Recorder) (event : AgentEvent) :
    (persist r event).streams = r.streams := rfl

theorem writeCheckpoint_cases {r : Recorder} (hnodup : (Assoc.keys r.streams).Nodup) {key : RunKey}
    {state : StreamState} (hstate : r.streams.get? key = some state) (keepOpen : Bool) :
    ∃ after, Cleared state after ∧
      (∀ k, (writeCheckpoint r key keepOpen).streams.get? k =
        if k = key then after else r.streams.get? k) ∧
      (Assoc.keys (writeCheckpoint r key keepOpen).streams).Nodup ∧
      (checkpointOf state = "" ∧ (writeCheckpoint r key keepOpen).store = r.store ∨
        checkpointOf state ≠ "" ∧
          ∃ record, IsStamped (withText state.template (checkpointOf state)) record ∧
            (writeCheckpoint r key keepOpen).store = r.store ++ [record]) := by
  have hset : ∀ s : StreamState, (∀ k, (r.streams.set key s).get? k =
      if k = key then some s else r.streams.get? k) ∧ (Assoc.keys (r.streams.set key s)).Nodup :=
    fun s => ⟨fun k => Assoc.get?_set _ _ _ _, Assoc.nodup_keys_set hnodup _ _⟩
  have herase : (∀ k, (r.streams.erase key).get? k =
      if k = key then none else r.streams.get? k) ∧ (Assoc.keys (r.streams.erase key)).Nodup :=
    ⟨fun k => Assoc.get?_erase _ _ _, Assoc.nodup_keys_erase hnodup _⟩
  have hclear : ∀ ms, Cleared state (some { state with
      pending := [], latest := none, lastFlushMs := ms }) := by
    rintro ms s ⟨⟩
    exact ⟨rfl, rfl, rfl, rfl⟩
  have hnone : Cleared state none := fun _ h => absurd h.symm (Option.some_ne_none _)
  by_cases hcheck : checkpointOf state = ""
  · cases keepOpen with
    | true =>
      simp only [writeCheckpoint, hstate, hcheck, if_true]
      exact ⟨_, hclear state.lastFlushMs, (hset _).1, (hset _).2, .inl ⟨trivial, trivial⟩⟩
    | false =>
      simp only [writeCheckpoint, hstate, hcheck, if_true]
      exact ⟨none, hnone, herase.1, herase.2, .inl ⟨trivial, trivial⟩⟩
  · cases keepOpen with
    | true =>
      simp only [writeCheckpoint, hstate, if_neg hcheck, persist_streams]
      exact ⟨_, hclear state.template.elapsedMs, (hset _).1, (hset _).2,
        .inr ⟨hcheck, persist_store _ _⟩⟩
    | false =>
      simp only [writeCheckpoint, hstate, if_neg hcheck, persist_streams]
      exact ⟨none, hnone, herase.1, herase.2, .inr ⟨hcheck, persist_store _ _⟩⟩

/-- An empty checkpoint holds nothing that is missing in the records. -/
theorem RunOk.drop {B R : List AgentEvent} {key : RunKey} {state : StreamState}
    {after : Option StreamState} (h : RunOk policy B R key (some state))
    (hclear : Cleared state after) (hcheck : checkpointOf state = "") :
    RunOk policy B R key after where
  appended hmode := by
    obtain ⟨hlatest, htexts⟩ := h.appended hmode
    have hpending : pendingOf (some state) = "" := by
      have hnone : state.latest = none := hlatest
      rwa [checkpointOf, hnone] at hcheck
    rw [hclear.latestOf_eq, hclear.pendingOf_eq, ← hpending]
    exact ⟨rfl, htexts⟩
  replaced hmode := by
    obtain ⟨-, hlast⟩ := h.replaced hmode
    refine ⟨fun s hs => (hclear s hs).2.1, ?_⟩
    rw [hclear.latestOf_eq]
    cases hlatest : state.latest with
    | some text =>
      -- the text that is dropped is empty, and so is the last text of the run
      rw [checkpointOf, hlatest] at hcheck
      rw [show latestOf (some state) = some text from hlatest] at hlast
      exact fun hne => absurd (hlast.symm.trans hcheck) hne
    | none =>
      rw [show latestOf (some state) = none from hlatest] at hlast
      exact hlast
  silent := h.silent

/-- A checkpoint with text was broadcast as text of the run. -/
theorem RunOk.text {B R : List AgentEvent} {key : RunKey} {state : StreamState}
    (h : RunOk policy B R key (some state)) (hcheck : checkpointOf state ≠ "")
    (hmode : InMode policy false key B ∨ InMode policy true key B) :
    ∃ b ∈ B, runKey policy b = key ∧ eventText b ≠ "" := by
  refine exists_text_of_join fun hempty => hcheck ?_
  rcases hmode with hmode | hmode
  · obtain ⟨hlatest, htexts⟩ := h.appended hmode
    have hnone : state.latest = none := hlatest
    rw [hempty] at htexts
    have hpending : pendingOf (some state) = "" :=
      String.toList_inj.mp (append_eq_nil_iff.mp
        ((String.toList_append).symm.trans (congrArg String.toList htexts))).2
    rw [checkpointOf, hnone]
    exact hpending
  · obtain ⟨hnil, hlast⟩ := h.replaced hmode
    cases hlatest : state.latest with
    | none => simp [checkpointOf, hlatest, hnil state rfl]
    | some text =>
      rw [show latestOf (some state) = some text from hlatest] at hlast
      rw [checkpointOf, hlatest, hlast, lastText]
      cases hget : (textsOf policy key B).getLast? with
      | none => rfl
      | some t =>
        exact empty_of_join hempty (mem_of_getLast? hget)

/-- A checkpoint with text brings the records up to what was broadcast. -/
theorem RunOk.write {B R : List AgentEvent} {key : RunKey} {state : StreamState}
    {after : Option StreamState} (h : RunOk policy B R key (some state))
    (hclear : Cleared state after) (hcheck : checkpointOf state ≠ "") {record : AgentEvent}
    (hkey : runKey policy record = key) (htext : eventText record = checkpointOf state)
    (hexists : ∃ b ∈ B, runKey policy b = key ∧ eventText b ≠ "") :
    RunOk policy B (R ++ [record]) key after where
  appended hmode := by
    obtain ⟨hlatest, htexts⟩ := h.appended hmode
    have hnone : state.latest = none := hlatest
    refine ⟨hclear.latestOf_eq, ?_⟩
    rw [textsOf_concat, if_pos hkey, String.join_append, htext, hclear.pendingOf_eq, ← htexts]
    simp [checkpointOf, hnone, pendingOf]
  replaced hmode := by
    obtain ⟨hnil, hlast⟩ := h.replaced hmode
    refine ⟨fun s hs => (hclear s hs).2.1, ?_⟩
    rw [hclear.latestOf_eq]
    have hlatest : state.latest = some (lastText policy key B) := by
      cases hlatest : state.latest with
      | none => exact absurd (by simp [checkpointOf, hlatest, hnil state rfl]) hcheck
      | some text =>
        rw [show latestOf (some state) = some text from hlatest] at hlast
        rw [hlast]
    intro _
    rw [lastText_concat, if_pos hkey, htext, checkpointOf, hlatest]
  silent hsilent := by
    obtain ⟨b, hb, hbkey, hbtext⟩ := hexists
    exact absurd (hsilent b hb hbkey) hbtext

theorem IsStamped.runKey_eq {event record : AgentEvent} (h : IsStamped event record) :
    runKey policy record = runKey policy event := by
  rw [h]
  rfl

theorem IsStamped.eventText_eq {event record : AgentEvent} (h : IsStamped event record) :
    eventText record = eventText event := by
  rw [h]
  rfl

theorem IsStamped.coarser {event record : AgentEvent} (h : IsStamped event record) :
    Coarser event record := by
  refine ⟨?_, .inl ?_⟩
  · rw [h]
  · rw [h]

theorem IsStamped.coarser_text {event record : AgentEvent} {text : String}
    (h : IsStamped (withText event text) record) : Coarser event record := by
  refine ⟨?_, .inr ⟨text, ?_⟩⟩
  · rw [h]
    rfl
  · rw [h]

variable {base B R : List AgentEvent} {r : Recorder}

/-- Each run is of one mode. -/
theorem Uniform.inMode (uniform : Uniform policy B) {event : AgentEvent} (hevent : event ∈ B) :
    InMode policy (replaceMode event) (runKey policy event) B :=
  fun e he hkey => (uniform e he event hevent hkey).1

theorem Kept.start (hclosed : r.streams = []) : Kept policy r.store [] r [] := by
  refine ⟨(append_nil _).symm, by rw [hclosed]; exact nodup_nil, fun k s hs => ?_,
    fun x hx => absurd hx not_mem_nil⟩
  rw [hclosed] at hs
  cases hs

theorem Kept.writeCheckpoint (h : Kept policy base B r R) {key : RunKey} {state : StreamState}
    (hstate : r.streams.get? key = some state) (keepOpen : Bool) :
    ∃ after, Cleared state after ∧
      (∀ k, (writeCheckpoint r key keepOpen).streams.get? k =
        if k = key then after else r.streams.get? k) ∧
      (checkpointOf state = "" ∧ Kept policy base B (writeCheckpoint r key keepOpen) R ∨
        checkpointOf state ≠ "" ∧
          ∃ record, IsStamped (withText state.template (checkpointOf state)) record ∧
            Kept policy base B (writeCheckpoint r key keepOpen) (R ++ [record])) := by
  obtain ⟨htemplate, hkey⟩ := h.template key state hstate
  obtain ⟨after, hclear, hget, hnodup, hstore⟩ := writeCheckpoint_cases h.nodup hstate keepOpen
  have htemplates : ∀ k s, (Recording.writeCheckpoint r key keepOpen).streams.get? k = some s →
      s.template ∈ B ∧ runKey policy s.template = k := by
    intro k s hs
    rw [hget] at hs
    split at hs
    · next hk =>
      rw [(hclear s hs).1, hk]
      exact ⟨htemplate, hkey⟩
    · exact h.template k s hs
  refine ⟨after, hclear, hget, ?_⟩
  rcases hstore with ⟨hcheck, hstore⟩ | ⟨hcheck, record, hstamp, hstore⟩
  · exact .inl ⟨hcheck, hstore.trans h.store, hnodup, htemplates, h.origin⟩
  · refine .inr ⟨hcheck, record, hstamp, ?_, hnodup, htemplates, ?_⟩
    · rw [hstore, h.store, append_assoc]
    · intro x hx
      rcases mem_append.mp hx with hx | hx
      · exact h.origin x hx
      · rw [mem_singleton.mp hx]
        exact ⟨_, htemplate, hstamp.coarser_text⟩

/-- **Writing a buffer.**  Nothing is lost, whether the buffer stays open or not. -/
theorem gathered_writeCheckpoint (uniform : Uniform policy B) (h : Gathered policy base B r R)
    (key : RunKey) (keepOpen : Bool) :
    ∃ R', Gathered policy base B (writeCheckpoint r key keepOpen) R' := by
  cases hstate : r.streams.get? key with
  | none => exact ⟨R, by simpa only [writeCheckpoint, hstate] using h⟩
  | some state =>
    obtain ⟨htemplate, hkey⟩ := h.template key state hstate
    have hrun : RunOk policy B R key (some state) := hstate ▸ h.runs key
    obtain ⟨after, hclear, hget, ⟨hcheck, hkept⟩ | ⟨hcheck, record, hstamp, hkept⟩⟩ :=
      h.toKept.writeCheckpoint hstate keepOpen
    · refine ⟨R, hkept, fun k => ?_⟩
      rw [hget]
      split
      · next hk => exact hk ▸ hrun.drop hclear hcheck
      · exact h.runs k
    · have hmode : InMode policy false key B ∨ InMode policy true key B := by
        have hmode := uniform.inMode htemplate
        rw [hkey] at hmode
        cases hreplace : replaceMode state.template with
        | false => exact .inl (hreplace ▸ hmode)
        | true => exact .inr (hreplace ▸ hmode)
      obtain ⟨b, hb, hbkey, hbtext⟩ := hrun.text hcheck hmode
      have hfield : (textKey state.template).isSome := by
        rw [(uniform _ htemplate b hb (hkey.trans hbkey.symm)).2]
        exact textKey_isSome_of_text hbtext
      have hrecord : runKey policy record = key := by
        rw [hstamp.runKey_eq, runKey_withText, hkey]
      have htext : eventText record = checkpointOf state := by
        rw [hstamp.eventText_eq, eventText_withText hfield]
      refine ⟨R ++ [record], hkept, fun k => ?_⟩
      rw [hget]
      split
      · next hk => exact hk ▸ hrun.write hclear hcheck hrecord htext ⟨b, hb, hbkey, hbtext⟩
      · next hk => exact (h.runs k).skip fun hx => hk (hx.symm.trans hrecord)

/-! ### What keeps a property when buffers are written -/

section Writes

variable {P : Recorder → Prop} (hwrite : ∀ r key keepOpen, P r → P (writeCheckpoint r key keepOpen))

include hwrite

theorem writes_foldl (keepOpen : Bool) (keys : List RunKey) (hr : P r) :
    P (keys.foldl (fun r key => writeCheckpoint r key keepOpen) r) := by
  induction keys generalizing r with
  | nil => exact hr
  | cons key keys ih => exact ih (hwrite r key keepOpen hr)

theorem writes_flushKey (key : RunKey) (keepOpen : Bool) (hr : P r) :
    P (flushKey r key keepOpen) := by
  rw [flushKey]
  split
  · exact hr
  · exact hwrite _ key keepOpen (writes_foldl hwrite true _ hr)

theorem writes_flushAll (hr : P r) : P (flushAll r) := writes_foldl hwrite false _ hr

theorem writes_checkpointIdle (now : Int) (hr : P r) : P (checkpointIdle policy r now) := by
  rw [checkpointIdle]
  generalize Assoc.keys _ = keys
  induction keys generalizing r with
  | nil => exact hr
  | cons key keys ih => exact ih (writes_flushKey hwrite key true hr)

end Writes

theorem writeCheckpoint_closes (r : Recorder) (key : RunKey) :
    (writeCheckpoint r key false).streams = r.streams.erase key := by
  rw [writeCheckpoint]
  split
  · next hnone => exact (Assoc.erase_of_not_mem (Assoc.get?_eq_none_iff.mp hnone)).symm
  · dsimp only
    split <;> rfl

theorem flushAll_streams (r : Recorder) : (flushAll r).streams = [] := by
  have hfold : ∀ (keys : List RunKey) (r : Recorder), (∀ p ∈ r.streams, p.1 ∈ keys) →
      (keys.foldl (fun r key => writeCheckpoint r key false) r).streams = [] := by
    intro keys
    induction keys with
    | nil => exact fun r h => eq_nil_iff_forall_not_mem.mpr fun p hp => nomatch h p hp
    | cons key keys ih =>
      refine fun r h => ih _ fun p hp => ?_
      rw [writeCheckpoint_closes, Assoc.erase, mem_filter] at hp
      exact (mem_cons.mp (h p hp.1)).resolve_left (of_decide_eq_true hp.2)
  exact hfold _ r fun p hp => mem_map_of_mem hp

theorem gathered_flushAll (uniform : Uniform policy B) (h : Gathered policy base B r R) :
    ∃ R', Gathered policy base B (flushAll r) R' :=
  writes_flushAll (P := fun r => ∃ R, Gathered policy base B r R)
    (fun _ key keepOpen ⟨_, h⟩ => gathered_writeCheckpoint uniform h key keepOpen) ⟨R, h⟩

end KolegaCode.Recording
