import KolegaCode.Recording.Reproduced
import KolegaCode.Presentation.Tracks

/-!
# Recording — replaying it closes what the live session closed

The final delta of a segment is often empty and only says that the segment is complete.
`Followed` ties what is recorded and buffered of each segment to its deltas.  The completion flags
are those of the live session, unless a final delta found its buffer just emptied (`Finishing`,
`completion_lost`).
-/

namespace KolegaCode.Recording

open List
open Json (Dict get?)
open Presentation (Segment segmentName segmentAfter deltaText deltaComplete isDelta Apart)
open Presentation (segmentAfter_concat)

/-! ### What is delivered live -/

/-- The event as it is passed on: one that stands alone has the stamps of its record. -/
def deliver (policy : RetentionPolicy) (r : Recorder) (event : AgentEvent) : AgentEvent :=
  match coalesceKey policy r.streams event with
  | none =>
    { event with
      elapsedMs := max event.elapsedMs (flushAll r).lastPersistedElapsedMs
      seq := some (flushAll r).nextSeq }
  | some _ => event

/-- The events of the live session, in order. -/
def delivered (policy : RetentionPolicy) : Recorder → List Op → List AgentEvent
  | _, [] => []
  | r, .broadcast event :: ops =>
    deliver policy r event :: delivered policy (record policy r event) ops
  | r, .idle now :: ops => delivered policy (checkpointIdle policy r now) ops

/-- A delta as the emitter makes it: it is streaming until it completes its segment. -/
def Emitted (event : AgentEvent) : Prop :=
  ∃ text complete, event.content = [("text", .str text), ("complete", .bool complete)] ∧
    event.isStreaming = !complete

/-- What the agents promise of their deltas. -/
structure Emitting (policy : RetentionPolicy) (events : List AgentEvent) : Prop where
  /-- Deltas are grouped by their segment. -/
  segments : "assistant_delta" ∉ policy.coalesceTypes ∧ "thinking_delta" ∉ policy.coalesceTypes
  emitted : ∀ e ∈ events, isDelta e → Emitted e
  apart : Apart (· ∈ events)

variable {policy : RetentionPolicy} {U base B R : List AgentEvent} {r : Recorder}

theorem Emitted.replaceMode {event : AgentEvent} (h : Emitted event) : replaceMode event = false := by
  obtain ⟨text, complete, hcontent, -⟩ := h
  rw [Recording.replaceMode, hcontent]
  simp [Json.get?_cons, strOr, orElse]

theorem Emitted.textKey {event : AgentEvent} (h : Emitted event) : textKey event = some "text" := by
  obtain ⟨text, complete, hcontent, -⟩ := h
  rw [Recording.textKey, hcontent]
  simp [TEXT_KEYS, Json.get?_cons]

theorem Emitted.eventText {event : AgentEvent} (h : Emitted event) :
    eventText event = deltaText event := by
  have hkey := h.textKey
  obtain ⟨text, complete, hcontent, -⟩ := h
  rw [Recording.eventText, hkey, deltaText, Presentation.Projection.textOf, hcontent]
  by_cases htext : text = "" <;> simp [Json.get?_cons, htext]

theorem Emitted.isStreaming {event : AgentEvent} (h : Emitted event) :
    event.isStreaming = !deltaComplete event := by
  obtain ⟨text, complete, hcontent, hstreaming⟩ := h
  rw [hstreaming, deltaComplete, hcontent]
  simp [Json.get?_cons, Session.truthy]

theorem Emitted.withText {event : AgentEvent} (h : Emitted event) (text : String) :
    deltaText (withText event text) = text ∧
      deltaComplete (withText event text) = deltaComplete event := by
  have hkey := h.textKey
  obtain ⟨text', complete, hcontent, -⟩ := h
  have hset : (Recording.withText event text).content =
      [("text", .str text), ("complete", .bool complete)] := by
    simp only [Recording.withText, hkey, hcontent, Json.set, if_true]
  rw [deltaText, Presentation.Projection.textOf, deltaComplete, deltaComplete, hset, hcontent]
  by_cases htext : text = "" <;> simp [Json.get?_cons, htext]

/-! ### Runs and segments -/

theorem runKey_of_delta (emitting : Emitting policy U) {e : AgentEvent} (hdelta : isDelta e) :
    runKey policy e = (e.eventType, scopeOf e ++ "|" ++ e.uuid) := by
  have htype : e.eventType ∉ policy.coalesceTypes := by
    rw [isDelta, Bool.or_eq_true, decide_eq_true_eq, decide_eq_true_eq] at hdelta
    rcases hdelta with htype | htype
    · exact htype ▸ emitting.segments.1
    · exact htype ▸ emitting.segments.2
  rw [runKey, if_neg htype]

theorem isDelta_of_runKey (e : AgentEvent) {e' : AgentEvent} (hdelta : isDelta e')
    (h : runKey policy e = runKey policy e') : isDelta e := by
  have hfst : ∀ e : AgentEvent, (runKey policy e).1 = e.eventType := by
    intro e
    rw [runKey]
    split <;> rfl
  rw [isDelta, ← hfst e, h, hfst e']
  exact hdelta

theorem runKey_eq_iff (emitting : Emitting policy U) {e e' : AgentEvent} (he : e ∈ U) (he' : e' ∈ U)
    (hdelta : isDelta e) (hdelta' : isDelta e') :
    runKey policy e = runKey policy e' ↔ segmentName e = segmentName e' := by
  rw [runKey_of_delta emitting hdelta, runKey_of_delta emitting hdelta']
  constructor
  · intro h
    obtain ⟨htype, hscope⟩ := Prod.mk.injEq .. ▸ h
    have hlist := congrArg String.toList hscope
    simp only [String.toList_append, append_assoc] at hlist
    have hbar : ("|" : String).toList = ['|'] := rfl
    simp only [hbar, singleton_append] at hlist
    have hsplit := Presentation.split_last (emitting.apart.uuid e he hdelta).2
      (emitting.apart.uuid e' he' hdelta').2 hlist
    rw [segmentName, segmentName, htype, String.toList_inj.mp hsplit.2]
  · intro h
    have htype : e.eventType = e'.eventType := congrArg Prod.fst h
    have huuid : e.uuid = e'.uuid := congrArg Prod.snd h
    have hinfo := emitting.apart.agent e e' he he' hdelta hdelta' huuid
    rw [scopeOf, scopeOf, htype, huuid, hinfo]

/-! ### One segment -/

/-- One segment: what was recorded and is buffered, against what was broadcast. -/
structure SegmentOk (B R : List AgentEvent) (name : String × String) (state : Option StreamState) :
    Prop where
  closed : state = none → segmentAfter name B = segmentAfter name R
  buffered : ∀ s, state = some s → s.latest = none ∧ s.streaming = true ∧
    segmentAfter name B =
      if checkpointOf s = "" then segmentAfter name R
      else (segmentAfter name R).delta (checkpointOf s) (deltaComplete s.template)

theorem SegmentOk.skip {name : String × String} {state : Option StreamState}
    (h : SegmentOk B R name state) {x : AgentEvent} (hx : segmentName x ≠ name) :
    SegmentOk B (R ++ [x]) name state where
  closed := by simpa only [segmentAfter_concat, if_neg hx] using h.closed
  buffered := by simpa only [segmentAfter_concat, if_neg hx] using h.buffered

theorem SegmentOk.other {name : String × String} {state : Option StreamState}
    (h : SegmentOk B R name state) {event : AgentEvent} (hevent : segmentName event ≠ name) :
    SegmentOk (B ++ [event]) R name state where
  closed := by simpa only [segmentAfter_concat, if_neg hevent] using h.closed
  buffered := by simpa only [segmentAfter_concat, if_neg hevent] using h.buffered

/-- A buffer that was written has no text. -/
theorem Cleared.checkpointOf_eq {state : StreamState} {after : Option StreamState}
    (h : Cleared state after) {s : StreamState} (hs : after = some s) : checkpointOf s = "" := by
  obtain ⟨-, hpending, hlatest, -⟩ := h s hs
  simp [checkpointOf, hpending, hlatest]

theorem SegmentOk.drop {name : String × String} {state : StreamState} {after : Option StreamState}
    (h : SegmentOk B R name (some state)) (hclear : Cleared state after)
    (hcheck : checkpointOf state = "") : SegmentOk B R name after := by
  obtain ⟨-, hstreaming, hseg⟩ := h.buffered state rfl
  rw [if_pos hcheck] at hseg
  refine ⟨fun _ => hseg, fun s hs => ?_⟩
  obtain ⟨-, -, hlatest, hstreaming'⟩ := hclear s hs
  exact ⟨hlatest, hstreaming'.trans hstreaming, by rw [if_pos (hclear.checkpointOf_eq hs), hseg]⟩

theorem SegmentOk.write {name : String × String} {state : StreamState} {after : Option StreamState}
    (h : SegmentOk B R name (some state)) (hclear : Cleared state after)
    (hcheck : checkpointOf state ≠ "") {record : AgentEvent} (hname : segmentName record = name)
    (htext : deltaText record = checkpointOf state)
    (hcomplete : deltaComplete record = deltaComplete state.template) :
    SegmentOk B (R ++ [record]) name after := by
  obtain ⟨-, hstreaming, hseg⟩ := h.buffered state rfl
  rw [if_neg hcheck] at hseg
  have hrecord : segmentAfter name B = segmentAfter name (R ++ [record]) := by
    rw [segmentAfter_concat, if_pos hname, htext, hcomplete, hseg]
  refine ⟨fun _ => hrecord, fun s hs => ?_⟩
  obtain ⟨-, -, hlatest, hstreaming'⟩ := hclear s hs
  exact ⟨hlatest, hstreaming'.trans hstreaming, by rw [if_pos (hclear.checkpointOf_eq hs), hrecord]⟩

/-- Every segment, of all the deltas there will be. -/
structure Followed (policy : RetentionPolicy) (U base B : List AgentEvent) (r : Recorder)
    (R : List AgentEvent) : Prop extends Kept policy base B r R where
  segments : ∀ e ∈ U, isDelta e → SegmentOk B R (segmentName e) (r.streams.get? (runKey policy e))

theorem IsStamped.segmentName_eq {event record : AgentEvent} (h : IsStamped event record) :
    segmentName record = segmentName event := by
  rw [h]
  rfl

theorem IsStamped.deltaText_eq {event record : AgentEvent} (h : IsStamped event record) :
    deltaText record = deltaText event := by
  rw [h]
  rfl

theorem IsStamped.deltaComplete_eq {event record : AgentEvent} (h : IsStamped event record) :
    deltaComplete record = deltaComplete event := by
  rw [h]
  rfl

theorem followed_writeCheckpoint (emitting : Emitting policy U) (hsub : ∀ b ∈ B, b ∈ U)
    (h : Followed policy U base B r R) (key : RunKey) (keepOpen : Bool) :
    ∃ R', Followed policy U base B (writeCheckpoint r key keepOpen) R' := by
  cases hstate : r.streams.get? key with
  | none => exact ⟨R, by simpa only [writeCheckpoint, hstate] using h⟩
  | some state =>
    obtain ⟨htemplate, hkey⟩ := h.template key state hstate
    have hsegment : ∀ e ∈ U, isDelta e → runKey policy e = key →
        isDelta state.template ∧ segmentName state.template = segmentName e ∧
          SegmentOk B R (segmentName e) (some state) := by
      intro e he hdelta hk
      have hdelta' := isDelta_of_runKey state.template hdelta (hkey.trans hk.symm)
      refine ⟨hdelta', ?_, ?_⟩
      · exact (runKey_eq_iff emitting (hsub _ htemplate) he hdelta' hdelta).mp
          (hkey.trans hk.symm)
      · have hseg := h.segments e he hdelta
        rwa [hk, hstate] at hseg
    obtain ⟨after, hclear, hget, ⟨hcheck, hkept⟩ | ⟨hcheck, record, hstamp, hkept⟩⟩ :=
      h.toKept.writeCheckpoint hstate keepOpen
    · refine ⟨R, hkept, fun e he hdelta => ?_⟩
      rw [hget]
      split
      · next hk => exact (hsegment e he hdelta hk).2.2.drop hclear hcheck
      · exact h.segments e he hdelta
    · refine ⟨R ++ [record], hkept, fun e he hdelta => ?_⟩
      have hname : segmentName record = segmentName state.template := hstamp.segmentName_eq
      rw [hget]
      split
      · next hk =>
        obtain ⟨hdelta', hname', hseg⟩ := hsegment e he hdelta hk
        obtain ⟨htext, hcomplete⟩ := (emitting.emitted _ (hsub _ htemplate) hdelta').withText
          (checkpointOf state)
        exact hseg.write hclear hcheck (hname.trans hname') (hstamp.deltaText_eq.trans htext)
          (hstamp.deltaComplete_eq.trans hcomplete)
      · next hk =>
        refine (h.segments e he hdelta).skip fun hx => hk ?_
        have htype : state.template.eventType = e.eventType :=
          congrArg Prod.fst (hname.symm.trans hx)
        have hdelta' : isDelta state.template := by
          rw [isDelta, htype]
          exact hdelta
        rw [← hkey]
        exact ((runKey_eq_iff emitting (hsub _ htemplate) he hdelta' hdelta).mpr
          (hname.symm.trans hx)).symm

/-! ### One broadcast -/

/-- No open buffer of a delta ends in a completion. -/
def Unfinished (policy : RetentionPolicy) (U : List AgentEvent) (r : Recorder) : Prop :=
  ∀ e ∈ U, isDelta e → ∀ s, r.streams.get? (runKey policy e) = some s →
    deltaComplete s.template = false

/-- What the buffer would be written with. -/
def bufferedText (state : Option StreamState) : String := (state.map checkpointOf).getD ""

theorem foldInto_delta (r : Recorder) (key : RunKey) {event : AgentEvent} (h : Emitted event)
    (hlatest : ∀ s, r.streams.get? key = some s → s.latest = none) :
    (foldInto r key event).latest = none ∧
      (foldInto r key event).streaming =
        ((r.streams.get? key).map StreamState.streaming).getD event.isStreaming ∧
      checkpointOf (foldInto r key event) =
        bufferedText (r.streams.get? key) ++ deltaText event := by
  have hmode := h.replaceMode
  rw [← h.eventText]
  cases hstate : r.streams.get? key with
  | none =>
    by_cases htext : eventText event = "" <;>
      simp [foldInto, hstate, hmode, htext, checkpointOf, bufferedText]
  | some state =>
    have hnone := hlatest state hstate
    by_cases htext : eventText event = "" <;>
      simp [foldInto, hstate, hmode, htext, checkpointOf, bufferedText, hnone]

theorem SegmentOk.fold {event : AgentEvent} {key : RunKey} (hemitted : Emitted event)
    (h : SegmentOk B R (segmentName event) (r.streams.get? key))
    (hunfinished : ∀ s, r.streams.get? key = some s → deltaComplete s.template = false)
    (hopens : r.streams.get? key = none → event.isStreaming = true)
    (hfinishing : deltaComplete event = true → deltaText event = "" →
      ∀ s, r.streams.get? key = some s → checkpointOf s = "" →
        (segmentAfter (segmentName event) B).isOpen = false) :
    SegmentOk (B ++ [event]) R (segmentName event) (some (foldInto r key event)) := by
  obtain ⟨hlatest, hstreaming, hcheck⟩ := foldInto_delta r key hemitted
    fun s hs => (h.buffered s hs).1
  have hseg : segmentAfter (segmentName event) B =
      if bufferedText (r.streams.get? key) = "" then segmentAfter (segmentName event) R
      else (segmentAfter (segmentName event) R).delta (bufferedText (r.streams.get? key)) false := by
    cases hstate : r.streams.get? key with
    | none => exact h.closed hstate
    | some state =>
      have hbuffered := (h.buffered state hstate).2.2
      rwa [hunfinished state hstate] at hbuffered
  refine ⟨nofun, ?_⟩
  rintro s ⟨⟩
  refine ⟨hlatest, ?_, ?_⟩
  · rw [hstreaming]
    cases hstate : r.streams.get? key with
    | none => exact hopens hstate
    | some state => exact (h.buffered state hstate).2.1
  · rw [segmentAfter_concat, if_pos rfl, foldInto_template, hcheck, hseg]
    refine Segment.delta_gathered _ _ _ _ fun hcomplete hempty htext => ?_
    rw [if_pos hempty] at hseg
    rw [← hseg]
    cases hstate : r.streams.get? key with
    | none =>
      have hstreams := hopens hstate
      rw [hemitted.isStreaming, hcomplete] at hstreams
      cases hstreams
    | some state =>
      rw [hstate] at hempty
      exact hfinishing hcomplete htext state hstate hempty

theorem template_writeCheckpoint {r : Recorder} {key k : RunKey} {keepOpen : Bool} {s : StreamState}
    (hs : (writeCheckpoint r key keepOpen).streams.get? k = some s) :
    ∃ s₀, r.streams.get? k = some s₀ ∧ s.template = s₀.template := by
  cases hstate : r.streams.get? key with
  | none =>
    simp only [writeCheckpoint, hstate] at hs
    exact ⟨s, hs, rfl⟩
  | some state =>
    have hset : ∀ cleared : StreamState, (r.streams.set key cleared).get? k = some s →
        cleared.template = state.template →
        ∃ s₀, r.streams.get? k = some s₀ ∧ s.template = s₀.template := by
      intro cleared hget htemplate
      rw [Assoc.get?_set] at hget
      split at hget
      · next hk =>
        cases hget
        exact ⟨state, hk ▸ hstate, htemplate⟩
      · exact ⟨s, hget, rfl⟩
    have herase : (r.streams.erase key).get? k = some s →
        ∃ s₀, r.streams.get? k = some s₀ ∧ s.template = s₀.template := by
      intro hget
      rw [Assoc.get?_erase] at hget
      split at hget
      · cases hget
      · exact ⟨s, hget, rfl⟩
    by_cases hcheck : checkpointOf state = "" <;> cases keepOpen <;>
      simp only [writeCheckpoint, hstate, hcheck, if_true, if_false, persist_streams,
        Bool.false_eq_true] at hs
    · exact herase hs
    · exact hset _ hs rfl
    · exact herase hs
    · exact hset _ hs rfl

theorem unfinished_writeCheckpoint (r : Recorder) (key : RunKey) (keepOpen : Bool)
    (h : Unfinished policy U r) : Unfinished policy U (writeCheckpoint r key keepOpen) := by
  intro e he hdelta s hs
  obtain ⟨s₀, hs₀, htemplate⟩ := template_writeCheckpoint hs
  rw [htemplate]
  exact h e he hdelta s₀ hs₀

theorem flushKey_closes (r : Recorder) (key : RunKey) :
    (flushKey r key false).streams.get? key = none := by
  rw [flushKey]
  split
  · next hnone => exact hnone
  · rw [writeCheckpoint_closes, Assoc.get?_erase, if_pos rfl]

/-- The buffer of a completed segment is closed. -/
theorem unfinished_flushKey {key : RunKey}
    (h : ∀ e ∈ U, isDelta e → runKey policy e ≠ key → ∀ s,
      r.streams.get? (runKey policy e) = some s → deltaComplete s.template = false) :
    Unfinished policy U (flushKey r key false) := by
  have hothers := writes_flushKey (r := r)
    (P := fun r => ∀ e ∈ U, isDelta e → runKey policy e ≠ key → ∀ s,
      r.streams.get? (runKey policy e) = some s → deltaComplete s.template = false)
    (fun r key keepOpen h e he hdelta hne s hs => by
      obtain ⟨s₀, hs₀, htemplate⟩ := template_writeCheckpoint hs
      rw [htemplate]
      exact h e he hdelta hne s₀ hs₀) key false h
  intro e he hdelta s hs
  by_cases hk : runKey policy e = key
  · rw [hk, flushKey_closes] at hs
    cases hs
  · exact hothers e he hdelta hk s hs

theorem followed_flushKey (emitting : Emitting policy U) (hsub : ∀ b ∈ B, b ∈ U)
    (h : Followed policy U base B r R) (key : RunKey) (keepOpen : Bool) :
    ∃ R', Followed policy U base B (flushKey r key keepOpen) R' :=
  writes_flushKey (P := fun r => ∃ R, Followed policy U base B r R)
    (fun _ key keepOpen ⟨_, h⟩ => followed_writeCheckpoint emitting hsub h key keepOpen) key
    keepOpen ⟨R, h⟩

/-- The recorder with the event in its buffer. -/
def folded (r : Recorder) (key : RunKey) (event : AgentEvent) (openCounter : Nat) : Recorder :=
  { r with streams := r.streams.set key (foldInto r key event), openCounter := openCounter }

theorem segmentName_ne_of_runKey (emitting : Emitting policy U) {event e : AgentEvent}
    (hevent : event ∈ U) (he : e ∈ U) (hdelta : isDelta e)
    (hne : runKey policy event ≠ runKey policy e) : segmentName event ≠ segmentName e := by
  intro hname
  have hdelta' : isDelta event := by
    rw [isDelta, show event.eventType = e.eventType from congrArg Prod.fst hname]
    exact hdelta
  exact hne ((runKey_eq_iff emitting hevent he hdelta' hdelta).mpr hname)

theorem Followed.fold (emitting : Emitting policy U) {event : AgentEvent} (hevent : event ∈ U)
    (h : Followed policy U base B r R) (openCounter : Nat)
    (hself : isDelta event → SegmentOk (B ++ [event]) R (segmentName event)
      (some (foldInto r (runKey policy event) event))) :
    Followed policy U base (B ++ [event]) (folded r (runKey policy event) event openCounter) R := by
  refine ⟨h.toKept.fold rfl openCounter, fun e he hdelta => ?_⟩
  rw [folded]
  rw [Assoc.get?_set]
  split
  · next hk =>
    have hdelta' := isDelta_of_runKey event hdelta hk.symm
    have hname := (runKey_eq_iff emitting hevent he hdelta' hdelta).mp hk.symm
    rw [← hname]
    exact hself hdelta'
  · next hk =>
    exact (h.segments e he hdelta).other
      (segmentName_ne_of_runKey emitting hevent he hdelta fun e => hk e.symm)

theorem unfinished_folded (event : AgentEvent) (hunfinished : Unfinished policy U r)
    (openCounter : Nat) : ∀ e ∈ U, isDelta e → runKey policy e ≠ runKey policy event → ∀ s,
      (folded r (runKey policy event) event openCounter).streams.get? (runKey policy e) = some s →
        deltaComplete s.template = false := by
  intro e he hdelta hne s hs
  rw [folded] at hs
  dsimp only at hs
  rw [Assoc.get?_set, if_neg hne] at hs
  exact hunfinished e he hdelta s hs

/-- A final delta that finds its buffer emptied comes only when its segment is closed. -/
def FinishesText (policy : RetentionPolicy) (r : Recorder) (B : List AgentEvent)
    (event : AgentEvent) : Prop :=
  isDelta event = true → deltaComplete event = true → deltaText event = "" →
    ∀ s, r.streams.get? (runKey policy event) = some s → checkpointOf s = "" →
      (segmentAfter (segmentName event) B).isOpen = false

theorem followed_accumulate (emitting : Emitting policy U) (hsub : ∀ b ∈ B, b ∈ U)
    {event : AgentEvent} (hevent : event ∈ U) (h : Followed policy U base B r R)
    (hunfinished : Unfinished policy U r) (hfinishing : FinishesText policy r B event)
    (hkey : coalesceKey policy r.streams event = some (runKey policy event)) :
    (∃ R', Followed policy U base (B ++ [event])
      (accumulate policy r (runKey policy event) event) R') ∧
      Unfinished policy U (accumulate policy r (runKey policy event) event) := by
  have hsub' : ∀ b ∈ B ++ [event], b ∈ U := by
    intro b hb
    rcases mem_append.mp hb with hb | hb
    · exact hsub b hb
    · exact mem_singleton.mp hb ▸ hevent
  have hopens : isDelta event → r.streams.get? (runKey policy event) = none →
      event.isStreaming = true := by
    intro hdelta hnone
    have htype : event.eventType ∉ policy.coalesceTypes := by
      rw [isDelta, Bool.or_eq_true, decide_eq_true_eq, decide_eq_true_eq] at hdelta
      rcases hdelta with htype | htype
      · exact htype ▸ emitting.segments.1
      · exact htype ▸ emitting.segments.2
    rw [coalesceKey, if_neg htype, hnone] at hkey
    by_contra hstreaming
    simp [hstreaming] at hkey
  have hself : isDelta event → SegmentOk (B ++ [event]) R (segmentName event)
      (some (foldInto r (runKey policy event) event)) := fun hdelta =>
    (h.segments event hevent hdelta).fold (emitting.emitted event hevent hdelta)
      (hunfinished event hevent hdelta) (hopens hdelta) (hfinishing hdelta)
  have hfold := fun openCounter => h.fold emitting hevent openCounter hself
  have hothers := fun openCounter =>
    unfinished_folded event hunfinished openCounter
  -- unless the event completes a segment, its own buffer stays unfinished
  have hstays : (isDelta event → deltaComplete event = false) → ∀ openCounter,
      Unfinished policy U (folded r (runKey policy event) event openCounter) := by
    intro hincomplete openCounter e he hdelta s hs
    by_cases hk : runKey policy e = runKey policy event
    · rw [folded] at hs
      dsimp only at hs
      rw [Assoc.get?_set, if_pos hk] at hs
      cases hs
      rw [foldInto_template]
      exact hincomplete (isDelta_of_runKey event hdelta hk.symm)
    · exact hothers openCounter e he hdelta hk s hs
  have hkeep : ∀ openCounter key keepOpen, (isDelta event → deltaComplete event = false) →
      Unfinished policy U
        (flushKey (folded r (runKey policy event) event openCounter) key keepOpen) :=
    fun openCounter key keepOpen hincomplete =>
      writes_flushKey (P := Unfinished policy U) unfinished_writeCheckpoint key keepOpen
        (hstays hincomplete openCounter)
  rw [accumulate]
  dsimp only
  generalize (ite (replaceMode event = true) _ _ : Nat) = chars
  generalize (ite ((r.streams.get? _).isSome = true) _ _ : Nat) = openCounter
  by_cases hcloses : ((foldInto r (runKey policy event) event).streaming && !event.isStreaming) = true
  · rw [if_pos hcloses]
    exact ⟨followed_flushKey emitting hsub' (hfold openCounter) _ false,
      unfinished_flushKey (hothers openCounter)⟩
  · rw [if_neg hcloses]
    have hincomplete : isDelta event → deltaComplete event = false := by
      intro hdelta
      have hstreaming := ((hself hdelta).buffered _ rfl).2.1
      rw [hstreaming, (emitting.emitted event hevent hdelta).isStreaming] at hcloses
      simpa using hcloses
    split
    · exact ⟨⟨R, hfold openCounter⟩, hstays hincomplete openCounter⟩
    · split
      · exact ⟨followed_flushKey emitting hsub' (hfold openCounter) _ true,
          hkeep openCounter _ true hincomplete⟩
      · exact ⟨⟨R, hfold openCounter⟩, hstays hincomplete openCounter⟩

theorem followed_record (emitting : Emitting policy U) (hsub : ∀ b ∈ B, b ∈ U)
    {event : AgentEvent} (hevent : event ∈ U) (h : Followed policy U base B r R)
    (hunfinished : Unfinished policy U r) (hfinishing : FinishesText policy r B event) :
    (∃ R', Followed policy U base (B ++ [event]) (record policy r event) R') ∧
      Unfinished policy U (record policy r event) := by
  cases hkey : coalesceKey policy r.streams event with
  | some key =>
    have hrun : runKey policy event = key := coalesceKey_eq_some hkey
    subst hrun
    have haccumulate := followed_accumulate emitting hsub hevent h hunfinished hfinishing hkey
    rw [record, hkey]
    exact haccumulate
  | none =>
    obtain ⟨R', h'⟩ : ∃ R', Followed policy U base B (flushAll r) R' :=
      writes_flushAll (P := fun r => ∃ R, Followed policy U base B r R)
        (fun _ key keepOpen hR =>
          hR.elim fun _ h => followed_writeCheckpoint emitting hsub h key keepOpen) ⟨R, h⟩
    have hclosed := flushAll_streams r
    obtain ⟨recorded, hstamp, hstore⟩ := persist_store (flushAll r) event
    rw [record, hkey]
    refine ⟨⟨R' ++ [recorded], h'.toKept.alone hclosed hstamp hstore rfl, fun e he hdelta => ?_⟩, ?_⟩
    · have hnone : (persist (flushAll r) event).streams.get? (runKey policy e) = none := by
        rw [persist_streams, hclosed]
        rfl
      have hseg := (h'.segments e he hdelta).closed (by rw [hclosed]; rfl)
      rw [hnone]
      refine ⟨fun _ => ?_, fun _ h => by cases h⟩
      rw [segmentAfter_concat, segmentAfter_concat, hseg, hstamp.segmentName_eq,
        hstamp.deltaText_eq, hstamp.deltaComplete_eq]
    · intro e _ _ s hs
      rw [persist_streams, hclosed] at hs
      cases hs

/-! ### Any number of broadcasts -/

/-- Every final delta without text that finds its buffer emptied has its segment closed already. -/
def Finishing (policy : RetentionPolicy) (r : Recorder) (ops : List Op) : Prop :=
  ∀ before event after, ops = before ++ .broadcast event :: after →
    FinishesText policy (run policy r before) (broadcasts before) event

theorem followed_run (emitting : Emitting policy U) (r₀ : Recorder) (done ops : List Op)
    (hsub : ∀ b ∈ broadcasts (done ++ ops), b ∈ U) (finishing : Finishing policy r₀ (done ++ ops))
    (h : Followed policy U base (broadcasts done) (run policy r₀ done) R)
    (hunfinished : Unfinished policy U (run policy r₀ done)) :
    ∃ R', Followed policy U base (broadcasts (done ++ ops)) (run policy r₀ (done ++ ops)) R' := by
  induction ops generalizing done R with
  | nil => exact ⟨R, by rwa [append_nil]⟩
  | cons op ops ih =>
    have hcons : done ++ op :: ops = (done ++ [op]) ++ ops := by simp
    have hrun : run policy r₀ (done ++ [op]) = step policy (run policy r₀ done) op :=
      run_append done [op]
    have hdone : ∀ b ∈ broadcasts done, b ∈ U := fun b hb =>
      hsub b (by rw [broadcasts_append]; exact mem_append_left _ hb)
    rw [hcons] at hsub finishing ⊢
    cases op with
    | broadcast event =>
      have hbroadcasts : broadcasts (done ++ [.broadcast event]) = broadcasts done ++ [event] :=
        broadcasts_append _ _
      have hevent : event ∈ U := by
        refine hsub event ?_
        rw [broadcasts_append, hbroadcasts]
        exact mem_append_left _ (mem_append_right _ mem_cons_self)
      obtain ⟨⟨R', h'⟩, hunfinished'⟩ := followed_record emitting hdone hevent h hunfinished
        (finishing done event ops (by simp))
      refine ih (done ++ [.broadcast event]) hsub finishing (R := R') ?_ ?_
      · rw [hbroadcasts, hrun]
        exact h'
      · rw [hrun]
        exact hunfinished'
    | idle now =>
      have hbroadcasts : broadcasts (done ++ [.idle now]) = broadcasts done :=
        (broadcasts_append _ _).trans (append_nil _)
      obtain ⟨R', h'⟩ := writes_checkpointIdle
        (P := fun r => ∃ R, Followed policy U base (broadcasts done) r R)
        (fun _ key keepOpen ⟨_, h⟩ => followed_writeCheckpoint emitting hdone h key keepOpen) now
        ⟨R, h⟩
      refine ih (done ++ [.idle now]) hsub finishing (R := R') ?_ ?_
      · rw [hbroadcasts, hrun]
        exact h'
      · rw [hrun]
        exact writes_checkpointIdle (P := Unfinished policy U) unfinished_writeCheckpoint now
          hunfinished

/-- What the recording and the live session make of a segment. -/
theorem segmentAfter_recorded (emitting : Emitting policy U) {ops : List Op}
    (hsub : ∀ b ∈ broadcasts ops, b ∈ U) (finishing : Finishing policy Recorder.new ops) :
    (∀ x ∈ (flushAll (run policy Recorder.new ops)).store, ∃ b ∈ broadcasts ops, Coarser b x) ∧
    ∀ e ∈ U, isDelta e → segmentAfter (segmentName e) (broadcasts ops) =
      segmentAfter (segmentName e) (flushAll (run policy Recorder.new ops)).store := by
  have hnew : Recorder.new.streams = [] := rfl
  have hstart : Followed policy U [] (broadcasts []) (run policy Recorder.new []) [] :=
    ⟨Kept.start hnew, fun e _ _ => ⟨fun _ => rfl, fun _ h => absurd h.symm (Option.some_ne_none _)⟩⟩
  have hunfinished : Unfinished policy U (run policy Recorder.new []) := by
    intro e _ _ s hs
    have hnone : (run policy Recorder.new []).streams.get? (runKey policy e) = none := rfl
    rw [hnone] at hs
    cases hs
  obtain ⟨R, h⟩ := followed_run emitting Recorder.new [] ops hsub finishing hstart hunfinished
  obtain ⟨R', h'⟩ := writes_flushAll (P := fun r => ∃ R, Followed policy U [] (broadcasts ops) r R)
    (fun _ key keepOpen ⟨_, h⟩ => followed_writeCheckpoint emitting hsub h key keepOpen) ⟨R, h⟩
  have hstore : (flushAll (run policy Recorder.new ops)).store = R' := h'.store
  rw [hstore]
  refine ⟨h'.origin, fun e he hdelta => (h'.segments e he hdelta).closed ?_⟩
  rw [flushAll_streams]
  rfl

/-! ### The two replays -/

/-- The stamps of a delivered event are all that may differ from what was broadcast. -/
theorem deliver_stamped (policy : RetentionPolicy) (r : Recorder) (event : AgentEvent) :
    IsStamped event (deliver policy r event) := by
  rw [deliver]
  split <;> rfl

theorem segmentAfter_delivered (name : String × String) (ops : List Op) :
    segmentAfter name (delivered policy r ops) = segmentAfter name (broadcasts ops) := by
  have hfold : ∀ (ops : List Op) (r : Recorder) (seg : Segment),
      ((delivered policy r ops).filter fun e => segmentName e = name).foldl
          (fun s e => s.delta (deltaText e) (deltaComplete e)) seg =
        ((broadcasts ops).filter fun e => segmentName e = name).foldl
          (fun s e => s.delta (deltaText e) (deltaComplete e)) seg := by
    intro ops
    induction ops with
    | nil => exact fun _ _ => rfl
    | cons op ops ih =>
      intro r seg
      cases op with
      | idle now => exact ih _ seg
      | broadcast event =>
        have hstamp := deliver_stamped policy r event
        have hbroadcasts : broadcasts (.broadcast event :: ops) = event :: broadcasts ops := rfl
        rw [delivered, hbroadcasts]
        by_cases hname : segmentName event = name
        · rw [filter_cons_of_pos (by simp [hstamp.segmentName_eq, hname]),
            filter_cons_of_pos (by simp [hname]), foldl_cons, foldl_cons,
            hstamp.deltaText_eq, hstamp.deltaComplete_eq]
          exact ih _ _
        · rw [filter_cons_of_neg (by simp [hstamp.segmentName_eq, hname]),
            filter_cons_of_neg (by simp [hname])]
          exact ih _ _
  exact hfold ops r .empty

theorem coarser_of_delivered {ops : List Op} {x : AgentEvent}
    (hx : x ∈ delivered policy r ops) : ∃ b ∈ broadcasts ops, Coarser b x := by
  induction ops generalizing r with
  | nil => cases hx
  | cons op ops ih =>
    cases op with
    | idle now => exact ih hx
    | broadcast event =>
      rcases mem_cons.mp hx with rfl | hx
      · exact ⟨event, mem_cons_self, (deliver_stamped policy r event).coarser⟩
      · obtain ⟨b, hb, hcoarser⟩ := ih hx
        exact ⟨b, mem_cons_of_mem _ hb, hcoarser⟩

/-- The events of a list, and whatever is made of them. -/
def MadeOf (events : List AgentEvent) (x : AgentEvent) : Prop := ∃ b ∈ events, Coarser b x

theorem apart_madeOf {events : List AgentEvent} (apart : Apart (· ∈ events)) :
    Apart (MadeOf events) := by
  have hsame : ∀ {b x : AgentEvent}, Coarser b x →
      x.uuid = b.uuid ∧ x.eventType = b.eventType ∧ x.subAgentInfo = b.subAgentInfo := by
    intro b x h
    rw [h.1]
    exact ⟨rfl, rfl, rfl⟩
  have hdelta : ∀ {b x : AgentEvent}, Coarser b x → isDelta x → isDelta b := by
    intro b x h hx
    rw [isDelta, ← (hsame h).2.1]
    exact hx
  constructor
  · rintro x x' ⟨b, hb, h⟩ ⟨b', hb', h'⟩ hx hx' huuid
    rw [(hsame h).2.2, (hsame h').2.2]
    refine apart.agent b b' hb hb' (hdelta h hx) (hdelta h' hx') ?_
    rw [← (hsame h).1, huuid, (hsame h').1]
  · rintro x ⟨b, hb, h⟩ hx
    rw [(hsame h).1]
    exact apart.uuid b hb (hdelta h hx)

/-- **Replaying the recording closes what the live session closed.**  The items of every assistant
or reasoning segment are marked complete in the projection of the recording just as they are in the
live one. -/
theorem completion_recorded (policy : RetentionPolicy) (ops : List Op)
    (emitting : Emitting policy (broadcasts ops)) (finishing : Finishing policy Recorder.new ops)
    {live recorded : Presentation.Projection.PresentationState}
    (hlive : Presentation.Projection.replay (delivered policy Recorder.new ops) = .ok live)
    (hrecorded : Presentation.Projection.replay
      (flushAll (run policy Recorder.new ops)).store = .ok recorded)
    {e : AgentEvent} (he : e ∈ broadcasts ops) (hdelta : isDelta e = true) :
    recorded.segmentFlags e = live.segmentFlags e := by
  obtain ⟨horigin, hsegments⟩ := segmentAfter_recorded emitting (fun _ hb => hb) finishing
  have hcoarser : Coarser e e := ⟨rfl, .inl rfl⟩
  have hapart := apart_madeOf emitting.apart
  rw [Presentation.replay_tracks hapart horigin hrecorded ⟨e, he, hcoarser⟩ hdelta,
    Presentation.replay_tracks hapart (fun _ hx => coarser_of_delivered hx) hlive
      ⟨e, he, hcoarser⟩ hdelta, segmentAfter_delivered, hsegments e he hdelta]

/-- A delta as the emitter makes it. -/
def assistantDelta (text : String) (complete : Bool) (elapsedMs : Int) : AgentEvent where
  uuid := "u"
  eventType := "assistant_delta"
  sender := "coder"
  content := [("text", .str text), ("complete", .bool complete)]
  isStreaming := !complete
  subAgentInfo := none
  seq := none
  elapsedMs := elapsedMs
  artifacts := []

/-- The completion flags a replay of the events shows for the segment of the deltas. -/
def shownFlags (events : List AgentEvent) : Option (List Bool) :=
  match Presentation.Projection.replay events with
  | .ok s => some (s.segmentFlags (assistantDelta "" true 0))
  | .error _ => none

theorem replay_of_shownFlags (flags : List Bool) (events : List AgentEvent)
    (h : shownFlags events = some flags) :
    ∃ s, Presentation.Projection.replay events = .ok s ∧
      s.segmentFlags (assistantDelta "" true 0) = flags := by
  rw [shownFlags] at h
  split at h
  · next s hs => exact ⟨s, hs, Option.some.inj h⟩
  · cases h

theorem emitting_assistantDelta {events : List AgentEvent}
    (h : ∀ e ∈ events, ∃ text complete elapsedMs, e = assistantDelta text complete elapsedMs) :
    Emitting .default events := by
  refine ⟨by decide, ?_, ⟨?_, ?_⟩⟩
  · intro e he _
    obtain ⟨text, complete, elapsedMs, rfl⟩ := h e he
    exact ⟨text, complete, rfl, rfl⟩
  · intro e e' he he' _ _ _
    obtain ⟨_, _, _, rfl⟩ := h e he
    obtain ⟨_, _, _, rfl⟩ := h e' he'
    rfl
  · intro e he _
    obtain ⟨_, _, _, rfl⟩ := h e he
    exact (by decide : ':' ∉ ("u" : String).toList ∧ '|' ∉ ("u" : String).toList)

/-- A final delta with text never finds an empty checkpoint to write. -/
theorem finishing_of_text {ops : List Op}
    (h : ∀ e ∈ broadcasts ops, deltaComplete e = true → deltaText e ≠ "") :
    Finishing policy r ops := by
  rintro before event after rfl - hcomplete htext
  refine absurd htext (h event ?_ hcomplete)
  rw [broadcasts_append]
  exact mem_append_right _ mem_cons_self

/-- A reply that stalls and then ends with the given text. -/
def stalled (ending : String) : List Op :=
  [.broadcast (assistantDelta "Hello" false 0), .idle 2500,
    .broadcast (assistantDelta ending true 3000)]

theorem emitting_stalled (ending : String) : Emitting .default (broadcasts (stalled ending)) := by
  refine emitting_assistantDelta fun e he => ?_
  rcases mem_pair.mp (show e ∈ [assistantDelta "Hello" false 0, assistantDelta ending true 3000]
    from he) with rfl | rfl
  · exact ⟨_, _, _, rfl⟩
  · exact ⟨_, _, _, rfl⟩

theorem completion_recorded_stalled :
    ∃ live recorded,
      Presentation.Projection.replay (delivered .default Recorder.new (stalled "!")) = .ok live ∧
      Presentation.Projection.replay (flushAll (run .default Recorder.new (stalled "!"))).store =
        .ok recorded ∧
      recorded.segmentFlags (assistantDelta "!" true 3000) =
        live.segmentFlags (assistantDelta "!" true 3000) := by
  obtain ⟨live, hlive, -⟩ := replay_of_shownFlags [true]
    (delivered .default Recorder.new (stalled "!")) (by decide)
  obtain ⟨recorded, hrecorded, -⟩ := replay_of_shownFlags [true]
    (flushAll (run .default Recorder.new (stalled "!"))).store (by decide)
  exact ⟨live, recorded, hlive, hrecorded, completion_recorded .default (stalled "!")
    (emitting_stalled "!") (finishing_of_text (by decide)) hlive hrecorded
    (mem_cons_of_mem _ mem_cons_self) (by decide)⟩

/-- The reply stalls, is written by the ticker, and then ends without more text: replayed, it never
ends. -/
theorem completion_lost :
    ¬ ∀ (policy : RetentionPolicy) (ops : List Op) (live recorded), Emitting policy (broadcasts ops) →
      Presentation.Projection.replay (delivered policy Recorder.new ops) = .ok live →
      Presentation.Projection.replay (flushAll (run policy Recorder.new ops)).store = .ok recorded →
      ∀ e ∈ broadcasts ops, isDelta e = true → recorded.segmentFlags e = live.segmentFlags e := by
  intro h
  obtain ⟨live, hlive, hliveFlags⟩ := replay_of_shownFlags [true]
    (delivered .default Recorder.new (stalled "")) (by decide)
  obtain ⟨recorded, hrecorded, hrecordedFlags⟩ := replay_of_shownFlags [false]
    (flushAll (run .default Recorder.new (stalled ""))).store (by decide)
  have hsame := h .default (stalled "") live recorded (emitting_stalled "") hlive hrecorded
    (assistantDelta "" true 3000) (mem_cons_of_mem _ mem_cons_self) (by decide)
  have hflags : [false] = [true] :=
    hrecordedFlags.symm.trans (Eq.trans hsame hliveFlags)
  exact absurd hflags (by decide)

end KolegaCode.Recording
