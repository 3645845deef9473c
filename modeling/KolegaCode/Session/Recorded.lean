import KolegaCode.Session.Lines
import KolegaCode.Session.Replay

/-!
# Session — the logs a recorder writes

`Emits log e` says when the root recorder appends an event behind a log: an epoch is started with a
new id, a turn with a new id in the current epoch, the messages of a turn while it is the latest
one, and a rewind to a turn that is listed.  A log built that way is `Recorded`.
-/

namespace KolegaCode.Session

open List
open Json (Dict get?)

/-! ### What is appended -/

/-- The payload holds a message. -/
def HasMessage (e : SessionEvent) : Prop := ∃ m, get? e.payload "message" = some (.obj m)

/-- A `turn.started` without a message of the user. -/
def IsContinuation (e : SessionEvent) : Prop := (get? e.payload "continuation").any truthy = true

/-- The start of a turn. -/
structure IsStart (e : SessionEvent) (turnId : String) : Prop where
  root : e.sub = false
  eventType : e.eventType = "turn.started"
  turnId : e.turnId = some turnId

/-- The event types that one of the folds reads. -/
def contextEvents : List String :=
  ["context.epoch_started", "context.compacted", "context.rewound", "background.job.submitted",
    "context.message_archived", "session.workspace_switched", "turn.completed", "turn.failed",
    "turn.cancelled"] ++ messageEvents

/-- The event `e` is appended behind the log: by one of the recorder's operations on the context,
or beside them, by a subagent or with a type that is no part of the context. -/
inductive Emits (log : List SessionEvent) (e : SessionEvent) : Prop where
  | startEpoch :
    e.sub = false → e.eventType = "context.epoch_started" →
    (∀ x ∈ log, x.epochId ≠ e.epochId) → Emits log e
  | startTurn (turnId : String) :
    IsStart e turnId → lastEpoch log = some e.epochId → (∀ x ∈ log, x.turnId ≠ some turnId) →
    HasMessage e ∨ IsContinuation e → Emits log e
  | message :
    e.sub = false → e.eventType ∈ ["assistant.message", "tool.results", "context.message"] →
    lastEpoch log = some e.epochId → HasMessage e → get? e.payload "completion_id" = none →
    (∀ turnId, e.turnId = some turnId →
      ∃ turn, (collectEpochTurns log e.epochId).getLast? = some turn ∧ turn.turnId = turnId) →
    Emits log e
  | finishTurn :
    e.sub = false → (terminalStatus e.eventType).isSome → lastEpoch log = some e.epochId →
    Emits log e
  | compaction :
    e.sub = false → e.eventType = "context.compacted" → lastEpoch log = some e.epochId →
    (∃ value, get? e.payload "compaction" = some (.obj value)) → Emits log e
  | rewind (targetTurnId : String) :
    e.sub = false → e.eventType = "context.rewound" → lastEpoch log = some e.epochId →
    rewindPayload log e.epochId targetTurnId = .ok e.payload → Emits log e
  | beside :
    (e.sub = true ∧ e.eventType ≠ "context.epoch_started") ∨ e.eventType ∉ contextEvents →
    Emits log e

/-- A log the recorder has written, event by event. -/
inductive Recorded : List SessionEvent → Prop where
  | nil : Recorded []
  | snoc {log : List SessionEvent} {e : SessionEvent} :
    Recorded log → Emits log e → e.seq = nextAfter log → Recorded (log ++ [e])

/-! ### Parts of a recorded log -/

theorem Recorded.last {log : List SessionEvent} {e : SessionEvent} (h : Recorded (log ++ [e])) :
    Recorded log ∧ Emits log e ∧ e.seq = nextAfter log := by
  generalize hl : log ++ [e] = l at h
  cases h with
  | nil => simp at hl
  | snoc hr he hs =>
    obtain ⟨rfl, h⟩ := append_inj' hl rfl
    cases h
    exact ⟨hr, he, hs⟩

theorem Recorded.front {log rest : List SessionEvent} (h : Recorded (log ++ rest)) :
    Recorded log := by
  induction rest using List.reverseRecOn with
  | nil => rwa [append_nil] at h
  | append_singleton rest e ih =>
    rw [← append_assoc] at h
    exact ih h.last.1

theorem Recorded.emits {log rest : List SessionEvent} {e : SessionEvent}
    (h : Recorded (log ++ e :: rest)) : Emits log e := by
  rw [append_cons] at h
  exact h.front.last.2.1

/-! ### What an event says about the log in front of it -/

theorem terminalStatus_isSome {s : String} (h : (terminalStatus s).isSome = true) :
    s = "turn.completed" ∨ s = "turn.failed" ∨ s = "turn.cancelled" := by
  rw [terminalStatus.eq_def] at h
  split at h
  · exact .inl rfl
  · exact .inr (.inl rfl)
  · exact .inr (.inr rfl)
  · cases h

section Emits

variable {log : List SessionEvent} {e : SessionEvent}

theorem Emits.epoch_inv (h : Emits log e) (ht : e.eventType = "context.epoch_started") :
    e.sub = false ∧ ∀ x ∈ log, x.epochId ≠ e.epochId := by
  cases h with
  | startEpoch hsub _ hfresh => exact ⟨hsub, hfresh⟩
  | startTurn _ hs => exact absurd (ht.symm.trans hs.eventType) (by decide)
  | message _ hm => simp [ht] at hm
  | finishTurn _ hf => simp [ht, terminalStatus] at hf
  | compaction _ hc => exact absurd (ht.symm.trans hc) (by decide)
  | rewind _ _ hr => exact absurd (ht.symm.trans hr) (by decide)
  | beside hb => simp [ht, contextEvents] at hb

theorem Emits.start_inv (h : Emits log e) (hsub : e.sub = false)
    (ht : e.eventType = "turn.started") :
    ∃ turnId, IsStart e turnId ∧ lastEpoch log = some e.epochId ∧
      (∀ x ∈ log, x.turnId ≠ some turnId) ∧ (HasMessage e ∨ IsContinuation e) := by
  cases h with
  | startTurn turnId hs hl hfresh hm => exact ⟨turnId, hs, hl, hfresh, hm⟩
  | startEpoch _ he => exact absurd (ht.symm.trans he) (by decide)
  | message _ hm => simp [ht] at hm
  | finishTurn _ hf => simp [ht, terminalStatus] at hf
  | compaction _ hc => exact absurd (ht.symm.trans hc) (by decide)
  | rewind _ _ hr => exact absurd (ht.symm.trans hr) (by decide)
  | beside hb => simp [ht, hsub, contextEvents, messageEvents] at hb

theorem Emits.message_inv (h : Emits log e) (hsub : e.sub = false)
    (ht : e.eventType ∈ ["assistant.message", "tool.results", "context.message"]) :
    lastEpoch log = some e.epochId ∧ HasMessage e ∧ get? e.payload "completion_id" = none ∧
      ∀ turnId, e.turnId = some turnId →
        ∃ turn, (collectEpochTurns log e.epochId).getLast? = some turn ∧ turn.turnId = turnId := by
  cases h with
  | message _ _ hl hm hc hturn => exact ⟨hl, hm, hc, hturn⟩
  | startEpoch _ he => simp [he] at ht
  | startTurn _ hs => simp [hs.eventType] at ht
  | finishTurn _ hf =>
    rcases terminalStatus_isSome hf with hf | hf | hf <;> simp [hf] at ht
  | compaction _ hc => simp [hc] at ht
  | rewind _ _ hr => simp [hr] at ht
  | beside hb =>
    simp only [mem_cons, not_mem_nil, or_false] at ht
    rcases ht with ht | ht | ht <;> simp [ht, hsub, contextEvents, messageEvents] at hb

theorem Emits.compaction_inv (h : Emits log e) (hsub : e.sub = false)
    (ht : e.eventType = "context.compacted") :
    ∃ value, get? e.payload "compaction" = some (.obj value) := by
  cases h with
  | compaction _ _ _ hc => exact hc
  | startEpoch _ he => exact absurd (ht.symm.trans he) (by decide)
  | startTurn _ hs => exact absurd (ht.symm.trans hs.eventType) (by decide)
  | message _ hm => simp [ht] at hm
  | finishTurn _ hf => simp [ht, terminalStatus] at hf
  | rewind _ _ hr => exact absurd (ht.symm.trans hr) (by decide)
  | beside hb => simp [ht, hsub, contextEvents] at hb

theorem Emits.rewind_inv (h : Emits log e) (hsub : e.sub = false)
    (ht : e.eventType = "context.rewound") :
    lastEpoch log = some e.epochId ∧
      ∃ turnId, rewindPayload log e.epochId turnId = .ok e.payload := by
  cases h with
  | rewind turnId _ _ hl hp => exact ⟨hl, turnId, hp⟩
  | startEpoch _ he => exact absurd (ht.symm.trans he) (by decide)
  | startTurn _ hs => exact absurd (ht.symm.trans hs.eventType) (by decide)
  | message _ hm => simp [ht] at hm
  | finishTurn _ hf => simp [ht, terminalStatus] at hf
  | compaction _ hc => exact absurd (ht.symm.trans hc) (by decide)
  | beside hb => simp [ht, hsub, contextEvents] at hb

end Emits

/-! ### Logs in order -/

/-- What the folds rely on when an event is appended: epochs and turns have new ids, the messages
of a turn come while it is the latest one, and a rewind goes to a turn that is listed.  Other
events are free, such as those about background jobs. -/
structure Orderly (log : List SessionEvent) (e : SessionEvent) : Prop where
  epoch_inv : e.eventType = "context.epoch_started" →
    e.sub = false ∧ ∀ x ∈ log, x.epochId ≠ e.epochId
  start_inv : e.sub = false → e.eventType = "turn.started" →
    ∃ turnId, IsStart e turnId ∧ lastEpoch log = some e.epochId ∧
      (∀ x ∈ log, x.turnId ≠ some turnId) ∧ (HasMessage e ∨ IsContinuation e)
  message_inv : e.sub = false →
    e.eventType ∈ ["assistant.message", "tool.results", "context.message"] →
    lastEpoch log = some e.epochId ∧ HasMessage e ∧ ∀ turnId, e.turnId = some turnId →
      ∃ turn, (collectEpochTurns log e.epochId).getLast? = some turn ∧ turn.turnId = turnId
  rewind_inv : e.sub = false → e.eventType = "context.rewound" →
    lastEpoch log = some e.epochId ∧ ∃ turnId, rewindPayload log e.epochId turnId = .ok e.payload

/-- A log whose events were appended in order. -/
inductive Kept : List SessionEvent → Prop where
  | nil : Kept []
  | snoc {log : List SessionEvent} {e : SessionEvent} :
    Kept log → Orderly log e → e.seq = nextAfter log → Kept (log ++ [e])

theorem Emits.orderly {log : List SessionEvent} {e : SessionEvent} (h : Emits log e) :
    Orderly log e where
  epoch_inv := h.epoch_inv
  start_inv := h.start_inv
  message_inv hsub ht := by
    obtain ⟨hl, hm, -, hturn⟩ := h.message_inv hsub ht
    exact ⟨hl, hm, hturn⟩
  rewind_inv := h.rewind_inv

theorem Recorded.kept {log : List SessionEvent} (h : Recorded log) : Kept log := by
  induction h with
  | nil => exact .nil
  | snoc _ he hs ih => exact .snoc ih he.orderly hs

theorem Kept.last {log : List SessionEvent} {e : SessionEvent} (h : Kept (log ++ [e])) :
    Kept log ∧ Orderly log e ∧ e.seq = nextAfter log := by
  generalize hl : log ++ [e] = l at h
  cases h with
  | nil => simp at hl
  | snoc hr he hs =>
    obtain ⟨rfl, h⟩ := append_inj' hl rfl
    cases h
    exact ⟨hr, he, hs⟩

theorem Kept.front {log rest : List SessionEvent} (h : Kept (log ++ rest)) : Kept log := by
  induction rest using List.reverseRecOn with
  | nil => rwa [append_nil] at h
  | append_singleton rest e ih =>
    rw [← append_assoc] at h
    exact ih h.last.1

theorem Kept.emits {log rest : List SessionEvent} {e : SessionEvent}
    (h : Kept (log ++ e :: rest)) : Orderly log e := by
  rw [append_cons] at h
  exact h.front.last.2.1

theorem Kept.numbered {log : List SessionEvent} (h : Kept log) : Numbered 1 log := by
  induction h with
  | nil => trivial
  | @snoc log e _ _ hs ih =>
    refine numbered_append.mpr ⟨ih, ?_, trivial⟩
    rw [hs, nextAfter_eq ih]
    omega

theorem numbered_bounds {log : List SessionEvent} :
    ∀ {n : Int}, Numbered n log → ∀ e ∈ log, n ≤ e.seq ∧ e.seq < n + log.length := by
  induction log with
  | nil =>
    intro n _ e he
    cases he
  | cons x log ih =>
    intro n h e he
    rcases mem_cons.mp he with rfl | he
    · have := h.1
      simp only [length_cons]
      omega
    · have := ih h.2 e he
      simp only [length_cons]
      omega

/-- The numbers grow along the log. -/
theorem Kept.seq_lt {log rest : List SessionEvent} {e : SessionEvent}
    (h : Kept (log ++ e :: rest)) : (∀ x ∈ log, x.seq < e.seq) ∧ ∀ x ∈ rest, e.seq < x.seq := by
  obtain ⟨hlog, he, hrest⟩ := numbered_append.mp h.numbered
  refine ⟨?_, ?_⟩
  · intro x hx
    have := numbered_bounds hlog x hx
    omega
  · intro x hx
    have := numbered_bounds hrest x hx
    omega

/-! ### Epochs and turns have new ids -/

/-- Behind an event of the last epoch no epoch is started. -/
theorem Kept.no_epoch {log rest : List SessionEvent} {e : SessionEvent}
    (h : Kept (log ++ e :: rest)) (hlast : lastEpoch (log ++ e :: rest) = some e.epochId) :
    ∀ x ∈ rest, x.eventType ≠ "context.epoch_started" := by
  induction rest using List.reverseRecOn with
  | nil =>
    intro x hx
    cases hx
  | append_singleton rest y ih =>
    rw [← cons_append, ← append_assoc] at h hlast
    obtain ⟨hr, hy, -⟩ := h.last
    rw [lastEpoch_append] at hlast
    have hytype : y.eventType ≠ "context.epoch_started" := by
      intro ht
      rw [if_pos ht] at hlast
      exact (hy.epoch_inv ht).2 e (by simp) (Option.some.inj hlast).symm
    rw [if_neg hytype] at hlast
    intro x hx
    rcases mem_append.mp hx with hx | hx
    · exact ih hr hlast x hx
    · rw [mem_singleton.mp hx]
      exact hytype

/-- A turn is started once. -/
theorem Kept.start_unique {log : List SessionEvent} (h : Kept log) {s s' : SessionEvent}
    (hs : s ∈ log) (hs' : s' ∈ log) {turnId : String} (hstart : IsStart s turnId)
    (hstart' : IsStart s' turnId) : s.seq = s'.seq := by
  induction h with
  | nil => cases hs
  | @snoc log e hr he hseq ih =>
    have hfresh : ∀ x ∈ log, IsStart x turnId → ¬ IsStart e turnId := by
      intro x hx hxs hes
      obtain ⟨turnId', hst, -, hf, -⟩ := he.start_inv hes.root hes.eventType
      have : turnId' = turnId := Option.some.inj (hst.turnId.symm.trans hes.turnId)
      exact hf x hx (this ▸ hxs.turnId)
    rcases mem_append.mp hs with hs | hs <;> rcases mem_append.mp hs' with hs' | hs'
    · exact ih hs hs'
    · rw [mem_singleton.mp hs'] at hstart'
      exact absurd hstart' (hfresh s hs hstart)
    · rw [mem_singleton.mp hs] at hstart
      exact absurd hstart (hfresh s' hs' hstart')
    · rw [mem_singleton.mp hs, mem_singleton.mp hs']

end KolegaCode.Session
