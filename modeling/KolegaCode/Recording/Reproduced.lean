import KolegaCode.Recording.Faithful

/-!
# Recording — the recording reproduces the live text

What is flushed after any number of broadcasts and idle checkpoints is `Faithful`, except that an
empty text ending a replace run may be missing (`cleared_text_kept`).
-/

namespace KolegaCode.Recording

open List
open Json (Dict get?)

variable {policy : RetentionPolicy} {base B R : List AgentEvent} {r : Recorder}

/-! ### One broadcast -/

theorem RunOk.fold {key : RunKey} {state : Option StreamState} (h : RunOk policy B R key state)
    {event : AgentEvent} (hkey : runKey policy event = key) {start : StreamState}
    (hstart : state = some start ∨ state = none ∧ start.pending = [] ∧ start.latest = none) :
    RunOk policy (B ++ [event]) R key (some
      (if replaceMode event then { start with latest := some (eventText event) }
        else if eventText event ≠ "" then { start with pending := start.pending ++ [eventText event] }
        else start)) := by
  have hpending : pendingOf state = String.join start.pending := by
    rcases hstart with rfl | ⟨rfl, hnil, -⟩
    · rfl
    · rw [hnil]
      rfl
  have hlatest : latestOf state = start.latest := by
    rcases hstart with rfl | ⟨rfl, -, hnone⟩
    · rfl
    · rw [hnone]
      rfl
  constructor
  · intro hmode
    obtain ⟨hmode, hevent⟩ := inMode_concat.mp hmode
    obtain ⟨hnone, htexts⟩ := h.appended hmode
    rw [if_neg (by simp [hevent hkey]), textsOf_concat, if_pos hkey, String.join_append, ← htexts,
      hpending]
    rw [hlatest] at hnone
    by_cases htext : eventText event = ""
    · rw [if_neg (not_not_intro htext), htext]
      exact ⟨hnone, by simp [pendingOf]⟩
    · rw [if_pos htext]
      exact ⟨hnone, by simp [pendingOf, String.append_assoc]⟩
  · intro hmode
    obtain ⟨hmode, hevent⟩ := inMode_concat.mp hmode
    obtain ⟨hnil, -⟩ := h.replaced hmode
    rw [if_pos (hevent hkey)]
    refine ⟨?_, ?_⟩
    · rintro s ⟨⟩
      rcases hstart with hstart | ⟨-, hstart, -⟩
      · exact hnil start hstart
      · exact hstart
    · simp only [latestOf, Option.bind_some, lastText_concat, if_pos hkey]
  · intro hsilent
    exact h.silent fun b hb => hsilent b (mem_append_left _ hb)

theorem foldInto_template (r : Recorder) (key : RunKey) (event : AgentEvent) :
    (foldInto r key event).template = event := by
  cases hstate : r.streams.get? key <;> simp only [foldInto, hstate] <;> split_ifs <;> rfl

theorem Kept.fold (h : Kept policy base B r R) {event : AgentEvent} {key : RunKey}
    (hkey : runKey policy event = key) (openCounter : Nat) :
    Kept policy base (B ++ [event])
      { r with streams := r.streams.set key (foldInto r key event), openCounter := openCounter }
      R := by
  refine ⟨h.store, Assoc.nodup_keys_set h.nodup _ _, ?_, ?_⟩
  · intro k s hs
    dsimp only at hs
    rw [Assoc.get?_set] at hs
    split at hs
    · next hk =>
      cases hs
      rw [foldInto_template, hk]
      exact ⟨mem_append_right _ mem_cons_self, hkey⟩
    · exact ⟨mem_append_left _ (h.template k s hs).1, (h.template k s hs).2⟩
  · intro x hx
    obtain ⟨b, hb, hcoarser⟩ := h.origin x hx
    exact ⟨b, mem_append_left _ hb, hcoarser⟩

theorem Gathered.fold (h : Gathered policy base B r R) {event : AgentEvent} {key : RunKey}
    (hkey : runKey policy event = key) (openCounter : Nat) :
    Gathered policy base (B ++ [event])
      { r with streams := r.streams.set key (foldInto r key event), openCounter := openCounter }
      R := by
  refine ⟨h.toKept.fold hkey openCounter, fun k => ?_⟩
  rw [Assoc.get?_set]
  split
  · next hk =>
    subst hk
    rw [foldInto]
    cases hstate : r.streams.get? k with
    | none =>
      exact (hstate ▸ h.runs k : RunOk policy B R k none).fold hkey (.inr ⟨rfl, rfl, rfl⟩)
    | some state =>
      have hrun : RunOk policy B R k (some { state with template := event }) :=
        ⟨(hstate ▸ h.runs k : RunOk policy B R k (some state)).appended, fun hmode => by
          obtain ⟨hnil, hlast⟩ :=
            (hstate ▸ h.runs k : RunOk policy B R k (some state)).replaced hmode
          exact ⟨by rintro s ⟨⟩; exact hnil state rfl, hlast⟩, (h.runs k).silent⟩
      exact hrun.fold hkey (.inl rfl)
  · next hk => exact (h.runs k).other fun hx => hk (hx.symm.trans hkey)

theorem gathered_flushKey (uniform : Uniform policy B) (h : Gathered policy base B r R)
    (key : RunKey) (keepOpen : Bool) : ∃ R', Gathered policy base B (flushKey r key keepOpen) R' :=
  writes_flushKey (P := fun r => ∃ R, Gathered policy base B r R)
    (fun _ key keepOpen ⟨_, h⟩ => gathered_writeCheckpoint uniform h key keepOpen) key keepOpen
    ⟨R, h⟩

theorem gathered_accumulate {event : AgentEvent} (uniform : Uniform policy (B ++ [event]))
    (h : Gathered policy base B r R) {key : RunKey} (hkey : runKey policy event = key) :
    ∃ R', Gathered policy base (B ++ [event]) (accumulate policy r key event) R' := by
  have hfold := h.fold hkey (if (r.streams.get? key).isSome then r.openCounter else r.openCounter + 1)
  rw [accumulate]
  dsimp only
  generalize (ite (replaceMode event = true) _ _ : Nat) = chars
  split
  · exact gathered_flushKey uniform hfold key false
  · split
    · exact ⟨R, hfold⟩
    · split
      · exact gathered_flushKey uniform hfold key true
      · exact ⟨R, hfold⟩

theorem Kept.alone (h : Kept policy base B r R) (hclosed : r.streams = [])
    {event record : AgentEvent} (hstamp : IsStamped event record) {r' : Recorder}
    (hstore : r'.store = r.store ++ [record]) (hstreams : r'.streams = r.streams) :
    Kept policy base (B ++ [event]) r' (R ++ [record]) := by
  refine ⟨by rw [hstore, h.store, append_assoc], hstreams ▸ h.nodup, ?_, ?_⟩
  · intro k s hs
    rw [hstreams, hclosed] at hs
    cases hs
  · intro x hx
    rcases mem_append.mp hx with hx | hx
    · obtain ⟨b, hb, hcoarser⟩ := h.origin x hx
      exact ⟨b, mem_append_left _ hb, hcoarser⟩
    · rw [mem_singleton.mp hx]
      exact ⟨event, mem_append_right _ mem_cons_self, hstamp.coarser⟩

/-- With no buffer open, the record of an event that stands alone. -/
theorem Gathered.alone (h : Gathered policy base B r R) (hclosed : r.streams = [])
    (event : AgentEvent) {record : AgentEvent} (hstamp : IsStamped event record)
    {r' : Recorder} (hstore : r'.store = r.store ++ [record]) (hstreams : r'.streams = r.streams) :
    Gathered policy base (B ++ [event]) r' (R ++ [record]) := by
  refine ⟨h.toKept.alone hclosed hstamp hstore hstreams, ?_⟩
  · intro k
    have hnone : r'.streams.get? k = none := by rw [hstreams, hclosed]; rfl
    have hrun := h.runs k
    rw [hclosed] at hrun
    rw [hnone]
    by_cases hk : runKey policy event = k
    · have hrecord : runKey policy record = k := hstamp.runKey_eq.trans hk
      constructor
      · intro hmode
        have htexts := (hrun.appended (inMode_concat.mp hmode).1).2
        refine ⟨rfl, ?_⟩
        simp only [textsOf_concat, if_pos hk, if_pos hrecord, String.join_append, ← htexts,
          hstamp.eventText_eq]
        simp [pendingOf]
      · intro _
        refine ⟨fun _ h => (by cases h), fun _ => ?_⟩
        rw [lastText_concat, lastText_concat, if_pos hk, if_pos hrecord, hstamp.eventText_eq]
      · intro hsilent
        rw [lastText_concat, if_pos hrecord, hstamp.eventText_eq]
        exact hsilent event (mem_append_right _ mem_cons_self) hk
    · have hrecord : runKey policy record ≠ k := fun e => hk (hstamp.runKey_eq.symm.trans e)
      exact (hrun.skip hrecord).other hk

theorem coalesceKey_eq_some {streams : Assoc RunKey StreamState} {event : AgentEvent}
    {key : RunKey} (h : coalesceKey policy streams event = some key) :
    runKey policy event = key := by
  rw [coalesceKey] at h
  split at h
  · exact Option.some.inj h
  · split at h
    · exact Option.some.inj h
    · split at h
      · exact Option.some.inj h
      · cases h

/-- **One broadcast.** -/
theorem gathered_record {event : AgentEvent} (uniform : Uniform policy (B ++ [event]))
    (h : Gathered policy base B r R) :
    ∃ R', Gathered policy base (B ++ [event]) (record policy r event) R' := by
  rw [record]
  cases hkey : coalesceKey policy r.streams event with
  | none =>
    have huniform : Uniform policy B := fun e he e' he' =>
      uniform e (mem_append_left _ he) e' (mem_append_left _ he')
    obtain ⟨R', h'⟩ := gathered_flushAll huniform h
    obtain ⟨record, hstamp, hstore⟩ := persist_store (flushAll r) event
    exact ⟨_, h'.alone (flushAll_streams r) event hstamp hstore rfl⟩
  | some key => exact gathered_accumulate uniform h (coalesceKey_eq_some hkey)

/-! ### Any number of broadcasts -/

theorem broadcasts_append (ops ops' : List Op) :
    broadcasts (ops ++ ops') = broadcasts ops ++ broadcasts ops' := filterMap_append

theorem run_append (ops ops' : List Op) :
    run policy r (ops ++ ops') = run policy (run policy r ops) ops' := foldl_append

theorem Uniform.mono {B' : List AgentEvent} (uniform : Uniform policy B)
    (hsub : ∀ e ∈ B', e ∈ B) : Uniform policy B' :=
  fun e he e' he' => uniform e (hsub e he) e' (hsub e' he')

theorem gathered_run (ops : List Op) (uniform : Uniform policy (B ++ broadcasts ops))
    (h : Gathered policy base B r R) :
    ∃ R', Gathered policy base (B ++ broadcasts ops) (run policy r ops) R' := by
  induction ops generalizing r B R with
  | nil =>
    rw [show broadcasts [] = [] from rfl, append_nil]
    exact ⟨R, h⟩
  | cons op ops ih =>
    cases op with
    | broadcast event =>
      have hcons : B ++ broadcasts (.broadcast event :: ops) =
          (B ++ [event]) ++ broadcasts ops := by
        rw [append_assoc]
        rfl
      rw [hcons] at uniform ⊢
      obtain ⟨R', h'⟩ := gathered_record
        (uniform.mono fun e he => mem_append_left _ he) h
      exact ih uniform h'
    | idle now =>
      have huniform : Uniform policy B := uniform.mono fun e he => mem_append_left _ he
      obtain ⟨R', h'⟩ := writes_checkpointIdle
        (P := fun r => ∃ R, Gathered policy base B r R)
        (fun _ key keepOpen ⟨_, h⟩ => gathered_writeCheckpoint huniform h key keepOpen) now ⟨R, h⟩
      exact ih uniform h'

/-- What a recorder without open buffers has written once everything is flushed. -/
theorem gathered_flushed (hclosed : r.streams = []) (ops : List Op)
    (uniform : Uniform policy (broadcasts ops)) :
    ∃ R, Gathered policy r.store (broadcasts ops) (flushAll (run policy r ops)) R := by
  have hstart : Gathered policy r.store [] r [] := by
    refine ⟨Kept.start hclosed, fun k => ?_⟩
    rw [hclosed]
    exact ⟨fun _ => ⟨rfl, rfl⟩, fun _ =>
      ⟨fun _ h => absurd h.symm (Option.some_ne_none _), fun _ => rfl⟩, fun _ => rfl⟩
  obtain ⟨R, h⟩ := gathered_run ops uniform hstart
  exact gathered_flushAll uniform h

/-! ### The times never decrease -/

structure Timely (r : Recorder) : Prop where
  sorted : (r.store.map AgentEvent.elapsedMs).Pairwise (· ≤ ·)
  bound : ∀ x ∈ r.store, x.elapsedMs ≤ r.lastPersistedElapsedMs

theorem timely_persist (h : Timely r) (event : AgentEvent) : Timely (persist r event) := by
  have hle : ∀ x ∈ r.store, x.elapsedMs ≤ max event.elapsedMs r.lastPersistedElapsedMs :=
    fun x hx => (h.bound x hx).trans (le_max_right _ _)
  constructor
  · simp only [persist, map_append, map_cons, map_nil]
    refine pairwise_append.mpr ⟨h.sorted, pairwise_singleton _ _, ?_⟩
    intro a ha b hb
    obtain ⟨x, hx, rfl⟩ := mem_map.mp ha
    rw [mem_singleton.mp hb]
    exact hle x hx
  · intro x hx
    rcases mem_append.mp hx with hx | hx
    · exact hle x hx
    · rw [mem_singleton.mp hx]
      exact le_rfl

theorem timely_writeCheckpoint (r : Recorder) (key : RunKey) (keepOpen : Bool) (h : Timely r) :
    Timely (writeCheckpoint r key keepOpen) := by
  rw [writeCheckpoint]
  split
  · exact h
  · dsimp only
    split
    · exact ⟨h.sorted, h.bound⟩
    · refine timely_persist (r := { r with streams := _ }) ?_ _
      exact ⟨h.sorted, h.bound⟩

theorem timely_step (h : Timely r) (op : Op) : Timely (step policy r op) := by
  cases op with
  | broadcast event =>
    rw [step, record]
    split
    · exact timely_persist (writes_flushAll timely_writeCheckpoint h) event
    · rw [accumulate]
      dsimp only
      generalize (ite (replaceMode event = true) _ _ : Nat) = chars
      have hbuffered : ∀ streams openCounter,
          Timely { r with streams := streams, openCounter := openCounter } :=
        fun _ _ => ⟨h.sorted, h.bound⟩
      split
      · exact writes_flushKey timely_writeCheckpoint _ _ (hbuffered _ _)
      · split
        · exact hbuffered _ _
        · split
          · exact writes_flushKey timely_writeCheckpoint _ _ (hbuffered _ _)
          · exact hbuffered _ _
  | idle now => exact writes_checkpointIdle timely_writeCheckpoint now h

theorem timely_run (ops : List Op) (h : Timely r) : Timely (run policy r ops) := by
  induction ops generalizing r with
  | nil => exact h
  | cons op ops ih => exact ih (timely_step h op)

/-! ### The recording -/

/-- `records` is a coarser recording of `events`. -/
structure Faithful (policy : RetentionPolicy) (events records : List AgentEvent) : Prop where
  /-- Every record is made of an event. -/
  origin : ∀ x ∈ records, ∃ e ∈ events, Coarser e x
  appended : ∀ key, InMode policy false key events →
    String.join (textsOf policy key records) = String.join (textsOf policy key events)
  replaced : ∀ key, InMode policy true key events →
    lastText policy key records = lastText policy key events

/-- The event is recorded on its own. -/
def StandsAlone (policy : RetentionPolicy) (r : Recorder) (event : AgentEvent) : Prop :=
  coalesceKey policy r.streams event = none

/-- What comes next flushes every buffer: an event that stands alone, or the end. -/
def Closes (policy : RetentionPolicy) (r : Recorder) : List Op → Prop
  | [] => True
  | .broadcast event :: _ => StandsAlone policy r event
  | .idle _ :: _ => False

/-- A replace run that carried text and whose text is cleared in its buffer is updated once more
before all buffers are flushed. -/
def Refilled (policy : RetentionPolicy) (r : Recorder) (ops : List Op) : Prop :=
  ∀ before event mid after, ops = before ++ .broadcast event :: (mid ++ after) →
    Closes policy (run policy r (before ++ .broadcast event :: mid)) after →
    replaceMode event = true → eventText event = "" →
    ¬ StandsAlone policy (run policy r before) event →
    (∃ b ∈ broadcasts before, runKey policy b = runKey policy event ∧ eventText b ≠ "") →
    ∃ b ∈ broadcasts mid, runKey policy b = runKey policy event

theorem exists_last {key : RunKey} {ops : List Op}
    (h : ∃ b ∈ broadcasts ops, runKey policy b = key) :
    ∃ before event mid, ops = before ++ .broadcast event :: mid ∧ runKey policy event = key ∧
      ∀ b ∈ broadcasts mid, runKey policy b ≠ key := by
  induction ops with
  | nil =>
    obtain ⟨b, hb, -⟩ := h
    cases hb
  | cons op ops ih =>
    by_cases hrest : ∃ b ∈ broadcasts ops, runKey policy b = key
    · obtain ⟨before, event, mid, hops, hkey, hmid⟩ := ih hrest
      exact ⟨op :: before, event, mid, by rw [hops]; rfl, hkey, hmid⟩
    · have hmid : ∀ b ∈ broadcasts ops, runKey policy b ≠ key :=
        fun b hb hkey => hrest ⟨b, hb, hkey⟩
      obtain ⟨b, hb, hkey⟩ := h
      cases op with
      | broadcast event =>
        rcases mem_cons.mp (show b ∈ event :: broadcasts ops from hb) with rfl | hb
        · exact ⟨[], b, ops, rfl, hkey, hmid⟩
        · exact absurd hkey (hmid b hb)
      | idle now => exact absurd hkey (hmid b hb)

theorem textsOf_eq_nil {key : RunKey} {es : List AgentEvent}
    (h : ∀ e ∈ es, runKey policy e ≠ key) : textsOf policy key es = [] := by
  rw [textsOf, filter_eq_nil_iff.mpr fun e he => by simpa using h e he, map_nil]

/-- An event that stands alone is recorded between what was broadcast before it and what was
broadcast after it. -/
theorem flushed_alone (before : List Op) (event : AgentEvent) (after : List Op)
    (halone : StandsAlone policy (run policy r before) event)
    (uniform : Uniform policy (broadcasts after)) :
    ∃ (recorded : AgentEvent) (later : List AgentEvent), IsStamped event recorded ∧
      (record policy (run policy r before) event).streams = [] ∧
      (record policy (run policy r before) event).store =
        (flushAll (run policy r before)).store ++ [recorded] ∧
      (flushAll (run policy r (before ++ .broadcast event :: after))).store =
        (record policy (run policy r before) event).store ++ later ∧
      ∀ x ∈ later, ∃ b ∈ broadcasts after, Coarser b x := by
  obtain ⟨recorded, hstamp, hstore⟩ := persist_store (flushAll (run policy r before)) event
  have hrecord : record policy (run policy r before) event =
      persist (flushAll (run policy r before)) event := by
    simp only [record, show coalesceKey policy _ event = none from halone]
  have hstreams : (record policy (run policy r before) event).streams = [] := by
    rw [hrecord, persist_streams, flushAll_streams]
  obtain ⟨later, hlater⟩ := gathered_flushed hstreams after uniform
  refine ⟨recorded, later, hstamp, hstreams, by rw [hrecord, hstore], ?_, hlater.origin⟩
  rw [run_append]
  exact hlater.store

theorem lastText_mid {key : RunKey} {es mid : List AgentEvent} {event : AgentEvent}
    (hkey : runKey policy event = key) (hmid : ∀ b ∈ mid, runKey policy b ≠ key) :
    lastText policy key (es ++ event :: mid) = eventText event := by
  have hsplit : es ++ event :: mid = (es ++ [event]) ++ mid := by simp
  rw [hsplit, lastText, textsOf_append, textsOf_eq_nil hmid, append_nil]
  exact (lastText_concat key es event).trans (if_pos hkey)

/-- The last event of a run, recorded on its own, is the run's last record. -/
theorem lastText_alone (hclosed : r.streams = []) {key : RunKey} {before mid : List Op}
    {event : AgentEvent} (uniform : Uniform policy (broadcasts (before ++ .broadcast event :: mid)))
    (halone : StandsAlone policy (run policy r before) event) (hkey : runKey policy event = key)
    (hmid : ∀ b ∈ broadcasts mid, runKey policy b ≠ key)
    (hstore : (flushAll (run policy r (before ++ .broadcast event :: mid))).store = r.store ++ R) :
    lastText policy key R = eventText event := by
  rw [broadcasts_append] at uniform
  obtain ⟨recorded, later, hstamp, -, hrecorded, hlater, horigin⟩ := flushed_alone before event mid
    halone (uniform.mono fun e he => mem_append_right _ (mem_cons_of_mem _ he))
  obtain ⟨earlier, hearlier⟩ := gathered_flushed hclosed before
    (uniform.mono fun e he => mem_append_left _ he)
  have hR : R = earlier ++ recorded :: later := by
    refine @List.append_cancel_left _ r.store _ _ ?_
    rw [← hstore, hlater, hrecorded, hearlier.store]
    simp
  rw [hR, lastText_mid (hstamp.runKey_eq.trans hkey), hstamp.eventText_eq]
  intro x hx hxkey
  obtain ⟨b, hb, hcoarser⟩ := horigin x hx
  exact hmid b hb (hcoarser.runKey_eq.symm.trans hxkey)

theorem faithful_flushed (hclosed : r.streams = []) {ops : List Op}
    (uniform : Uniform policy (broadcasts ops)) (refilled : Refilled policy r ops)
    (h : Gathered policy r.store (broadcasts ops) (flushAll (run policy r ops)) R) :
    Faithful policy (broadcasts ops) R := by
  have hrun : ∀ key, RunOk policy (broadcasts ops) R key none := by
    intro key
    have hrun := h.runs key
    rwa [flushAll_streams] at hrun
  refine ⟨h.origin, fun key hmode => ?_, fun key hmode => ?_⟩
  · have htexts := ((hrun key).appended hmode).2
    rwa [show pendingOf none = "" from rfl, String.append_empty] at htexts
  · by_cases hlast : lastText policy key (broadcasts ops) = ""
    · rw [hlast]
      by_cases hall : ∀ b ∈ broadcasts ops, runKey policy b = key → eventText b = ""
      · exact (hrun key).silent hall
      · push Not at hall
        obtain ⟨b, hb, hbkey, hbtext⟩ := hall
        obtain ⟨before, event, mid, rfl, hkey, hmid⟩ := exists_last ⟨b, hb, hbkey⟩
        have hbroadcasts : broadcasts (before ++ .broadcast event :: mid) =
            broadcasts before ++ event :: broadcasts mid := broadcasts_append _ _
        have htext : eventText event = "" := by
          rwa [hbroadcasts, lastText_mid hkey hmid] at hlast
        by_cases halone : StandsAlone policy (run policy r before) event
        · rw [lastText_alone hclosed uniform halone hkey hmid h.store, htext]
        · -- the text that was cleared in the buffer would have been set again
          have hbefore : b ∈ broadcasts before := by
            rw [hbroadcasts] at hb
            rcases mem_append.mp hb with hb | hb
            · exact hb
            · rcases mem_cons.mp hb with rfl | hb
              · exact absurd htext hbtext
              · exact absurd hbkey (hmid b hb)
          have hreplace : replaceMode event = true := by
            rw [hbroadcasts] at hmode
            exact hmode event (mem_append_right _ mem_cons_self) hkey
          obtain ⟨b', hb', hkey'⟩ := refilled before event mid [] (by rw [append_nil]) trivial
            hreplace htext halone ⟨b, hbefore, hbkey.trans hkey.symm, hbtext⟩
          exact absurd (hkey'.trans hkey) (hmid b' hb')
    · exact ((hrun key).replaced hmode).2 hlast

theorem Refilled.before {before after : List Op} {event : AgentEvent}
    (refilled : Refilled policy r (before ++ .broadcast event :: after))
    (halone : StandsAlone policy (run policy r before) event) : Refilled policy r before := by
  intro before' event' mid after' hops hcloses hreplace htext hbuffered hearlier
  refine refilled before' event' mid (after' ++ .broadcast event :: after) (by simp [hops]) ?_
    hreplace htext hbuffered hearlier
  cases after' with
  | nil =>
    rw [append_nil] at hops
    rw [← hops]
    exact halone
  | cons op after' => cases op <;> exact hcloses

theorem Refilled.after {before after : List Op} {event : AgentEvent}
    (refilled : Refilled policy r (before ++ .broadcast event :: after)) :
    Refilled policy (record policy (run policy r before) event) after := by
  have hrun : ∀ ops, run policy (record policy (run policy r before) event) ops =
      run policy r (before ++ .broadcast event :: ops) :=
    fun ops => (run_append before (.broadcast event :: ops)).symm
  intro before' event' mid after' hops hcloses hreplace htext hbuffered hearlier
  rw [hrun] at hcloses hbuffered
  obtain ⟨b, hb, hbkey, hbtext⟩ := hearlier
  refine refilled (before ++ .broadcast event :: before') event' mid after' (by simp [hops])
    (by simpa using hcloses) hreplace htext hbuffered ⟨b, ?_, hbkey, hbtext⟩
  rw [broadcasts_append]
  exact mem_append_right _ (mem_cons_of_mem _ hb)

/-- **The recording reproduces the live text.**  Each run has its text, every event that stands
alone is recorded between what was broadcast before and after it, and the times never decrease. -/
theorem recording_reproduces (policy : RetentionPolicy) (ops : List Op)
    (uniform : Uniform policy (broadcasts ops)) (refilled : Refilled policy Recorder.new ops) :
    Faithful policy (broadcasts ops) (flushAll (run policy Recorder.new ops)).store ∧
    (∀ before event after, ops = before ++ .broadcast event :: after →
      StandsAlone policy (run policy Recorder.new before) event →
      ∃ earlier recorded later,
        (flushAll (run policy Recorder.new ops)).store = earlier ++ recorded :: later ∧
        IsStamped event recorded ∧ Faithful policy (broadcasts before) earlier ∧
        Faithful policy (broadcasts after) later) ∧
    ((flushAll (run policy Recorder.new ops)).store.map AgentEvent.elapsedMs).Pairwise (· ≤ ·) := by
  have hnew : Recorder.new.streams = [] := rfl
  refine ⟨?_, ?_, ?_⟩
  · obtain ⟨R, h⟩ := gathered_flushed hnew ops uniform
    rw [h.store]
    exact faithful_flushed hnew uniform refilled h
  · rintro before event after rfl halone
    rw [broadcasts_append] at uniform
    have hbefore : Uniform policy (broadcasts before) :=
      uniform.mono fun e he => mem_append_left _ he
    have hafter : Uniform policy (broadcasts after) :=
      uniform.mono fun e he => mem_append_right _ (mem_cons_of_mem _ he)
    obtain ⟨earlier, hearlier⟩ := gathered_flushed hnew before hbefore
    obtain ⟨recorded, -, hstamp, hstreams, hrecorded, -, -⟩ :=
      flushed_alone before event after halone hafter
    obtain ⟨later, hlater⟩ := gathered_flushed hstreams after hafter
    refine ⟨earlier, recorded, later, ?_, hstamp,
      faithful_flushed hnew hbefore (refilled.before halone) hearlier,
      faithful_flushed hstreams hafter refilled.after hlater⟩
    have hstore := hlater.store
    rw [hrecorded, hearlier.store] at hstore
    rw [run_append, show earlier ++ recorded :: later = (earlier ++ [recorded]) ++ later by simp]
    exact hstore
  · have hnew : Timely Recorder.new := ⟨List.Pairwise.nil, fun _ hx => nomatch hx⟩
    exact (writes_flushAll timely_writeCheckpoint (timely_run ops hnew)).sorted

/-- Where every replacing update carries text, nothing is cleared. -/
theorem refilled_of_text {ops : List Op}
    (h : ∀ e ∈ broadcasts ops, replaceMode e = true → eventText e ≠ "") :
    Refilled policy r ops := by
  rintro before event mid after rfl - hreplace htext
  refine absurd htext (h event ?_ hreplace)
  rw [broadcasts_append]
  exact mem_append_right _ mem_cons_self

/-- A delta of a streamed segment. -/
def delta (eventType uuid text : String) (isStreaming : Bool) (elapsedMs : Int) : AgentEvent where
  uuid := uuid
  eventType := eventType
  sender := "coder"
  content := [("text", .str text)]
  isStreaming := isStreaming
  subAgentInfo := none
  seq := none
  elapsedMs := elapsedMs
  artifacts := []

/-- A prose segment and a reasoning segment at once, then the end of the turn. -/
def interleaved : List Op :=
  [.broadcast (delta "reasoning" "r" "think" true 0), .broadcast (delta "assistant" "a" "He" true 5),
    .idle 2500, .broadcast (delta "assistant" "a" "llo" true 2600),
    .broadcast (delta "assistant" "a" "" false 2601),
    .broadcast (delta "turn_ended" "t" "" false 2700)]

theorem recording_reproduces_interleaved :
    Faithful .default (broadcasts interleaved)
        (flushAll (run .default Recorder.new interleaved)).store ∧
      (∀ before event after, interleaved = before ++ .broadcast event :: after →
        StandsAlone .default (run .default Recorder.new before) event →
        ∃ earlier recorded later,
          (flushAll (run .default Recorder.new interleaved)).store =
            earlier ++ recorded :: later ∧
          IsStamped event recorded ∧ Faithful .default (broadcasts before) earlier ∧
          Faithful .default (broadcasts after) later) ∧
      ((flushAll (run .default Recorder.new interleaved)).store.map
        AgentEvent.elapsedMs).Pairwise (· ≤ ·) :=
  recording_reproduces .default interleaved (by unfold Uniform; decide)
    (refilled_of_text (by decide))

/-- An update of a tool that replaces what it showed before. -/
def replacing (text : String) (isStreaming : Bool) (elapsedMs : Int) : AgentEvent where
  uuid := "u"
  eventType := "tool_streaming_update"
  sender := "coder"
  content := [("tool_call_id", .str "c"), ("text", .str text), ("stream_mode", .str "replace")]
  isStreaming := isStreaming
  subAgentInfo := none
  seq := none
  elapsedMs := elapsedMs
  artifacts := []

/-- The output of a tool is shown and then cleared; the recording keeps what was shown. -/
theorem cleared_text_kept :
    ¬ ∀ (policy : RetentionPolicy) (ops : List Op), Uniform policy (broadcasts ops) →
      Faithful policy (broadcasts ops) (flushAll (run policy Recorder.new ops)).store := by
  intro h
  have hfaithful := h .default
    [.broadcast (replacing "a" true 0), .broadcast (replacing "ab" true 3000),
      .broadcast (replacing "" false 3500)]
    (by unfold Uniform; decide)
  have hlast := hfaithful.replaced ("tool_streaming_update", "|c") (by unfold InMode; decide)
  revert hlast
  decide

end KolegaCode.Recording
