import KolegaCode.Session.RecorderSteps

/-!
# Session — the runs of a recorder

A run is any sequence of a recorder's calls, with any outcome of each write, and with events of
other agents between them.  What has been recorded and is not yet in the log is in a slot
(`Inv.missingMessage`, `Inv.missingTerminal`), and what is in the log has been recorded once.

At most one message is unwritten at a time, but the end of its turn may be recorded, and written,
before it.  So the log has the items in the order they were recorded in, except that the end of a
turn may stand in front of the message that was recorded directly before it (`Swapped`).
-/

namespace KolegaCode.Session

open List
open Json (Dict get?)

/-! ### Runs -/

/-- The calls of a recorder, and an append of another agent to the same journal. -/
inductive Op where
  | startTurn (call : Call) (turnId : String) (message : Dict)
  | startContinuationTurn (call : Call) (turnId : String)
  | recordAssistant (call : Call) (messageId : String) (message : Dict)
    (reasoningEffort : Option String) (deferProjection : Bool)
  | recordToolResults (call : Call) (batchId : String) (message : Dict) (deferProjection : Bool)
  | retryPendingAssistant (call : Call) (deferProjection : Bool)
  | retryPendingToolResults (call : Call) (deferProjection : Bool)
  | acknowledgeAssistant
  | acknowledgeToolResults
  | finishTurn (call : Call) (ending : Ending) (durationMs : Option Nat)
    (error reason : Option String)
  | retryPendingTurnTerminal (call : Call)
  | recordContextMessage (call : Call) (message : Dict) (actor : String) (hactor : actor ≠ "")
  | recordCompaction (call : Call) (payload : Dict) (hpayload : Json.Canonical (.obj payload))
  | beside (lock : Lock) (req : Request) (attempt : Attempt)

/-- A call whose result is not looked at. -/
def discard {α : Type} (x : RecorderM α) : RecorderM Unit := do
  let _ ← x

def exec (cfg : RecorderConfig) : Op → RecorderM Unit
  | .startTurn call turnId message => discard (startTurn cfg call turnId message)
  | .startContinuationTurn call turnId => discard (startContinuationTurn cfg call turnId)
  | .recordAssistant call messageId message reasoningEffort deferProjection =>
    discard (recordAssistant cfg call messageId message reasoningEffort deferProjection)
  | .recordToolResults call batchId message deferProjection =>
    discard (recordToolResults cfg call batchId message deferProjection)
  | .retryPendingAssistant call deferProjection =>
    discard (retryPendingAssistant cfg call deferProjection)
  | .retryPendingToolResults call deferProjection =>
    discard (retryPendingToolResults cfg call deferProjection)
  | .acknowledgeAssistant => acknowledgeAssistant
  | .acknowledgeToolResults => acknowledgeToolResults
  | .finishTurn call ending durationMs error reason =>
    finishTurn cfg call ending durationMs error reason
  | .retryPendingTurnTerminal call => retryPendingTurnTerminal cfg call
  | .recordContextMessage call message actor hactor =>
    recordContextMessage cfg call message actor hactor
  | .recordCompaction call payload hpayload => recordCompaction cfg call payload hpayload
  | .beside lock req attempt => discard (onJournal (append cfg.journal lock req attempt))

/-- The recorder after a call, whether it returned or raised. -/
def after (cfg : RecorderConfig) (r : Recorder) (op : Op) : Recorder := endState (exec cfg op r)

/-- The events in the log. -/
def logOf (cfg : RecorderConfig) (r : Recorder) : List SessionEvent :=
  match readEvents cfg.journal .free true r.view with
  | .ok es _ => es
  | .error _ _ => []

theorem logOf_eq {cfg : RecorderConfig} {r : Recorder} {es : List SessionEvent}
    (h : Held cfg.journal r.view es) : logOf cfg r = es := by
  obtain ⟨v', hread, -⟩ := readEvents_held h .free
  rw [logOf, hread]

/-- The item a call records. -/
def recordedBy (cfg : RecorderConfig) (r : Recorder) : Op → Option Item
  | .recordAssistant call id _ _ _ => recordedMessage cfg call r .assistant id
  | .recordToolResults call id _ _ => recordedMessage cfg call r .toolResults id
  | .finishTurn call _ _ _ _ => recordedEnd cfg call r
  | _ => none

/-- The items of the log and those recorded. -/
def known (cfg : RecorderConfig) (r : Recorder) (rec : List Item) : List Item :=
  items cfg.stamp.agentId (logOf cfg r) ++ rec

/-- The ids that are drawn are new, and the other agents have other names, start no epoch and
rewind nothing. -/
def Drawn (cfg : RecorderConfig) (r : Recorder) (rec : List Item) : Op → Prop
  | .startTurn _ turnId _ => ∀ epochId, .terminal epochId turnId ∉ known cfg r rec
  | .startContinuationTurn _ turnId => ∀ epochId, .terminal epochId turnId ∉ known cfg r rec
  | .recordAssistant _ id _ _ _ =>
    ∀ epochId turnId, .message .assistant id epochId turnId ∉ known cfg r rec
  | .recordToolResults _ id _ _ =>
    ∀ epochId turnId, .message .toolResults id epochId turnId ∉ known cfg r rec
  | .beside _ req _ => ∃ stamp, req.agent = some stamp ∧ stamp.agentId ≠ cfg.stamp.agentId ∧
    req.eventType ≠ "context.epoch_started" ∧ req.eventType ≠ "context.rewound"
  | _ => True

/-- A new recorder on a log that can be read. -/
structure Fresh (cfg : RecorderConfig) (r : Recorder) : Prop where
  held : Held cfg.journal r.view (logOf cfg r)
  settled : r.settled
  currentTurnId : r.currentTurnId = none

/-- The runs of a recorder, with the items recorded in order. -/
inductive Run (cfg : RecorderConfig) (r₀ : Recorder) : Recorder → List Item → Prop where
  | start : Run cfg r₀ r₀ []
  | call {r : Recorder} {rec : List Item} {op : Op} :
    Run cfg r₀ r rec → Drawn cfg r rec op →
    Run cfg r₀ (after cfg r op) (rec ++ (recordedBy cfg r op).toList)

/-! ### The order of the log -/

/-- The items of the log in the order they were recorded in, except that the end of a turn may
stand in front of the message of that turn recorded directly before it. -/
inductive Swapped : List Item → List Item → Prop where
  | nil : Swapped [] []
  | keep {rec com : List Item} (x : Item) : Swapped rec com → Swapped (rec ++ [x]) (com ++ [x])
  | swap {rec com : List Item} (slot : Slot) (id epochId turnId : String) :
    Swapped rec com →
    Swapped (rec ++ [.message slot id epochId turnId, .terminal epochId turnId])
      (com ++ [.terminal epochId turnId, .message slot id epochId turnId])

/-- How far the log is behind: the message and the end of a turn that are recorded and missing. -/
inductive Stage : List Item → List Item → Option Item → Option Item → Prop where
  | full {rec com : List Item} : Swapped rec com → Stage rec com none none
  | message {rec com : List Item} (x : Item) :
    Swapped rec com → Stage (rec ++ [x]) com (some x) none
  | terminal {rec com : List Item} (epochId turnId : String) :
    Swapped rec com →
    Stage (rec ++ [.terminal epochId turnId]) com none (some (.terminal epochId turnId))
  | both {rec com : List Item} (slot : Slot) (id epochId turnId : String) :
    Swapped rec com →
    Stage (rec ++ [.message slot id epochId turnId, .terminal epochId turnId]) com
      (some (.message slot id epochId turnId)) (some (.terminal epochId turnId))
  | late {rec com : List Item} (slot : Slot) (id epochId turnId : String) :
    Swapped rec com →
    Stage (rec ++ [.message slot id epochId turnId, .terminal epochId turnId])
      (com ++ [.terminal epochId turnId]) (some (.message slot id epochId turnId)) none

theorem Swapped.perm {rec com : List Item} (h : Swapped rec com) : rec.Perm com := by
  induction h with
  | nil => exact .nil
  | keep x _ ih => exact ih.append (.refl _)
  | swap slot id epochId turnId _ ih => exact ih.append (.swap _ _ _)

theorem Stage.perm {rec com : List Item} {m t : Option Item} (h : Stage rec com m t) :
    rec.Perm (com ++ (m.toList ++ t.toList)) := by
  cases h with
  | full h => simpa using h.perm
  | message x h | terminal epochId turnId h | both slot id epochId turnId h =>
    exact h.perm.append (.refl _)
  | late slot id epochId turnId h =>
    rw [append_assoc]
    exact h.perm.append (.swap _ _ _)

theorem Stage.recordMessage {rec com : List Item} (h : Stage rec com none none) (x : Item) :
    Stage (rec ++ [x]) com (some x) none := by
  cases h with
  | full h => exact .message x h

theorem Stage.recordTerminal {rec com : List Item} {m : Option Item} {epochId turnId : String}
    (h : Stage rec com m none)
    (hm : ∀ x, m = some x → ∃ slot id, x = .message slot id epochId turnId)
    (hnew : .terminal epochId turnId ∉ rec) :
    Stage (rec ++ [.terminal epochId turnId]) com m (some (.terminal epochId turnId)) := by
  cases h with
  | full h => exact .terminal epochId turnId h
  | message x h =>
    obtain ⟨slot, id, rfl⟩ := hm x rfl
    rw [append_assoc]
    exact .both slot id epochId turnId h
  | late slot id epochId' turnId' h =>
    obtain ⟨slot', id', heq⟩ := hm _ rfl
    cases heq
    exact absurd (by simp) hnew

variable {x : Item}

theorem Stage.writeMessage {rec com : List Item} {t : Option Item} (h : Stage rec com (some x) t) :
    Stage rec (com ++ [x]) none t := by
  cases h with
  | message x h => exact .full (.keep x h)
  | both slot id epochId turnId h =>
    rw [append_cons]
    exact .terminal epochId turnId (.keep _ h)
  | late slot id epochId turnId h =>
    rw [append_assoc]
    exact .full (.swap slot id epochId turnId h)

theorem Stage.writeTerminal {rec com : List Item} {m : Option Item} (h : Stage rec com m (some x)) :
    Stage rec (com ++ [x]) m none := by
  cases h with
  | terminal epochId turnId h => exact .full (.keep _ h)
  | both slot id epochId turnId h => exact .late slot id epochId turnId h

/-! ### The invariant -/

/-- The log `es` holds the items `com` behind those it held at first; `m` and `t` are missing. -/
structure Inv (cfg : RecorderConfig) (base : List Item) (es : List SessionEvent) (r : Recorder)
    (rec com : List Item) (m t : Option Item) : Prop where
  log : items cfg.stamp.agentId es = base ++ com
  stage : Stage rec com m t
  nodup : rec.Nodup
  apart : ∀ x ∈ rec, x ∉ base
  one : ∀ slot slot', r.pending slot ≠ none → r.pending slot' ≠ none → slot' = slot
  pending : ∀ slot p, r.pending slot = some p → p.item slot ∈ rec ∧
    Live cfg es p.epochId p.turnId ∧
    (r.currentTurnId = none ∨ r.currentTurnId = some p.turnId) ∧
    (p.committed = true → p.item slot ∈ items cfg.stamp.agentId es)
  terminal : ∀ p, r.pendingTurnTerminal = some p → p.item ∈ rec ∧
    Live cfg es p.epochId p.turnId ∧
    (r.currentTurnId = none ∨ r.currentTurnId = some p.turnId)
  missingMessage : ∀ x, m = some x → ∃ slot p, r.pending slot = some p ∧ p.item slot = x
  missingTerminal : ∀ x, t = some x → ∃ p, r.pendingTurnTerminal = some p ∧ p.item = x
  current : ∀ turnId, r.currentTurnId = some turnId → (∃ epochId, Live cfg es epochId turnId) ∧
    (∀ epochId, .terminal epochId turnId ∉ base) ∧
    (r.pendingTurnTerminal = none → ∀ epochId, .terminal epochId turnId ∉ rec)

def Good (cfg : RecorderConfig) (base : List Item) (r : Recorder) (rec : List Item) : Prop :=
  ∃ es com m t, Held cfg.journal r.view es ∧ Inv cfg base es r rec com m t

section Inv

variable {cfg : RecorderConfig} {base : List Item} {es : List SessionEvent} {r r' : Recorder}
  {rec com : List Item} {m t : Option Item}

section

variable (h : Inv cfg base es r rec com m t)
include h

/-- What is recorded is in the log or missing. -/
theorem Inv.mem_items_iff (hx : x ∈ rec) :
    x ∈ items cfg.stamp.agentId es ↔ m ≠ some x ∧ t ≠ some x := by
  have hperm := h.stage.perm
  have hnodup := hperm.nodup_iff.mp h.nodup
  have hmem := hperm.mem_iff.mp hx
  rw [nodup_append] at hnodup
  obtain ⟨-, -, hdisj⟩ := hnodup
  rw [h.log, mem_append]
  refine ⟨?_, ?_⟩
  · intro hin
    rcases hin with hin | hin
    · exact absurd hin (h.apart x hx)
    · refine ⟨?_, ?_⟩
      · intro hm
        exact hdisj x hin x (by simp [hm]) rfl
      · intro ht
        exact hdisj x hin x (by simp [ht]) rfl
  · intro hmiss
    rw [mem_append, mem_append, Option.mem_toList, Option.mem_toList] at hmem
    rcases hmem with hmem | hmem | hmem
    · exact .inr hmem
    · exact absurd hmem hmiss.1
    · exact absurd hmem hmiss.2

theorem Inv.settled_missing (hs : r.settled) : m = none ∧ t = none := by
  refine ⟨?_, ?_⟩
  · cases m with
    | none => rfl
    | some x =>
      obtain ⟨slot, p, hp, -⟩ := h.missingMessage x rfl
      rw [Recorder.settled_pending hs slot] at hp
      cases hp
  · cases t with
    | none => rfl
    | some x =>
      obtain ⟨p, hp, -⟩ := h.missingTerminal x rfl
      rw [hs.2.2] at hp
      cases hp

theorem Inv.swapped (hs : r.settled) : Swapped rec com := by
  obtain ⟨hm, ht⟩ := h.settled_missing hs
  subst hm
  subst ht
  cases h.stage with
  | full h => exact h

/-- The log grows by an event. -/
theorem Inv.snoc {e : SessionEvent}
    (hstart : e.eventType ≠ "context.epoch_started") (hrew : e.eventType ≠ "context.rewound")
    {com' : List Item} {m' t' : Option Item}
    (hlog : items cfg.stamp.agentId (es ++ [e]) = base ++ com')
    (hstage : Stage rec com' m' t') (hm : ∀ x, m' = some x → m = some x)
    (ht : ∀ x, t' = some x → t = some x) : Inv cfg base (es ++ [e]) r rec com' m' t' where
  log := hlog
  stage := hstage
  nodup := h.nodup
  apart := h.apart
  one := h.one
  pending slot p hp := by
    obtain ⟨hrec, hlive, hturn, hcom⟩ := h.pending slot p hp
    refine ⟨hrec, hlive.snoc hstart hrew, hturn, ?_⟩
    intro hc
    rw [items_snoc]
    exact mem_append_left _ (hcom hc)
  terminal p hp := by
    obtain ⟨hrec, hlive, hturn⟩ := h.terminal p hp
    exact ⟨hrec, hlive.snoc hstart hrew, hturn⟩
  missingMessage x hx := h.missingMessage x (hm x hx)
  missingTerminal x hx := h.missingTerminal x (ht x hx)
  current turnId hturn := by
    obtain ⟨⟨epochId, hlive⟩, hnew⟩ := h.current turnId hturn
    exact ⟨⟨epochId, hlive.snoc hstart hrew⟩, hnew⟩

theorem Inv.same (hs : SameRecorder r r') : Inv cfg base es r' rec com m t where
  log := h.log
  stage := h.stage
  nodup := h.nodup
  apart := h.apart
  one slot slot' := by
    rw [hs.pending, hs.pending]
    exact h.one slot slot'
  pending slot p := by
    rw [hs.pending, hs.currentTurnId]
    exact h.pending slot p
  terminal p := by
    rw [hs.terminal, hs.currentTurnId]
    exact h.terminal p
  missingMessage x hx := by
    obtain ⟨slot, p, hp, hitem⟩ := h.missingMessage x hx
    exact ⟨slot, p, (hs.pending slot).trans hp, hitem⟩
  missingTerminal x hx := by
    obtain ⟨p, hp, hitem⟩ := h.missingTerminal x hx
    exact ⟨p, hs.terminal.trans hp, hitem⟩
  current turnId := by
    rw [hs.currentTurnId, hs.terminal]
    exact h.current turnId

theorem Inv.plain {e : SessionEvent}
    (hitem : itemOf cfg.stamp.agentId e = none) (hstart : e.eventType ≠ "context.epoch_started")
    (hrew : e.eventType ≠ "context.rewound") : Inv cfg base (es ++ [e]) r rec com m t := by
  refine h.snoc hstart hrew ?_ h.stage (fun _ hx => hx) fun _ hx => hx
  rw [items_snoc, hitem, h.log]
  exact append_nil _

theorem Inv.adds (ha : Adds cfg es r r') : Good cfg base r' rec := by
  obtain ⟨hs, hheld⟩ := ha
  rcases hheld with hheld | ⟨e, hheld, hitem, hstart, hrew⟩
  · exact ⟨es, com, m, t, hheld, h.same hs⟩
  · exact ⟨es ++ [e], com, m, t, hheld, (h.same hs).plain hitem hstart hrew⟩

end

/-! ### Messages -/

variable {slot : Slot} {p : Pending}

section

variable (h : Inv cfg base es r rec com m t)
include h

/-- A message that is missing is the one in the slot. -/
theorem Inv.missing_eq (hp : r.pending slot = some p) : m = none ∨ m = some (p.item slot) := by
  cases m with
  | none => exact .inl rfl
  | some x =>
    obtain ⟨slot', p', hp', rfl⟩ := h.missingMessage x rfl
    have hslot : slot' = slot := h.one slot slot' (by simp [hp]) (by simp [hp'])
    subst hslot
    rw [hp] at hp'
    cases hp'
    exact .inr rfl

theorem Inv.missing_ne_message : t ≠ some (p.item slot) := by
  intro ht
  obtain ⟨p', -, hitem⟩ := h.missingTerminal _ ht
  cases hitem

/-- The slot and what is missing change together. -/
theorem Inv.frame (hf : Frame slot r r') (hp : r.pending slot = some p)
    (hslot : r'.pending slot = none ∧ m = none ∨ ∃ p', r'.pending slot = some p' ∧
      p'.item slot = p.item slot ∧
      (p'.committed = true → p.item slot ∈ items cfg.stamp.agentId es)) :
    Inv cfg base es r' rec com m t where
  log := h.log
  stage := h.stage
  nodup := h.nodup
  apart := h.apart
  one slot₁ slot₂ h₁ h₂ := by
    have hother : ∀ slot', r'.pending slot' ≠ none → slot' = slot := by
      intro slot' hne
      by_contra hs
      rw [hf.other slot' hs] at hne
      exact hs (h.one slot slot' (by simp [hp]) hne)
    rw [hother slot₁ h₁, hother slot₂ h₂]
  pending slot' p' hp' := by
    obtain ⟨hrec, hlive, hturn, -⟩ := h.pending slot p hp
    by_cases hs : slot' = slot
    · subst hs
      rcases hslot with ⟨hnone, -⟩ | ⟨q, hq, hitem, hcom⟩
      · rw [hnone] at hp'
        cases hp'
      · rw [hq] at hp'
        cases hp'
        have hid : p'.id = p.id ∧ p'.epochId = p.epochId ∧ p'.turnId = p.turnId := by
          simpa [Pending.item] using hitem
        rw [hitem, hid.2.1, hid.2.2, hf.currentTurnId]
        exact ⟨hrec, hlive, hturn, hcom⟩
    · rw [hf.other slot' hs] at hp'
      exact absurd (h.one slot slot' (by simp [hp]) (by simp [hp'])) hs
  terminal p' := by
    rw [hf.terminal, hf.currentTurnId]
    exact h.terminal p'
  missingMessage x hx := by
    rcases hslot with ⟨-, hm⟩ | ⟨q, hq, hitem, -⟩
    · rw [hm] at hx
      cases hx
    · rcases h.missing_eq hp with hm | hm
      · rw [hm] at hx
        cases hx
      · rw [hm] at hx
        cases hx
        exact ⟨slot, q, hq, hitem⟩
  missingTerminal x hx := by
    obtain ⟨p', hp', hitem⟩ := h.missingTerminal x hx
    exact ⟨p', hf.terminal.trans hp', hitem⟩
  current turnId := by
    rw [hf.currentTurnId, hf.terminal]
    exact h.current turnId

/-- **A commit keeps the invariant.** -/
theorem Inv.commits (hp : r.pending slot = some p)
    (hc : Commits cfg slot p es r r') : Good cfg base r' rec := by
  obtain ⟨hf, es', hheld, hlog, hslot⟩ := hc
  obtain ⟨hrec, -, -, hcom⟩ := h.pending slot p hp
  rcases hlog with rfl | ⟨hnew, e, rfl, hitem, htype⟩
  · refine ⟨es', com, m, t, hheld, h.frame hf hp ?_⟩
    rcases hslot with ⟨hnone, hmem⟩ | ⟨p', hp', hitem, hcom'⟩
    · refine .inl ⟨hnone, ?_⟩
      rcases h.missing_eq hp with hm | hm
      · exact hm
      · exact absurd hm ((h.mem_items_iff hrec).mp hmem).1
    · refine .inr ⟨p', hp', hitem, ?_⟩
      intro hc
      rcases hcom' hc with hc | hc
      · exact hcom hc
      · exact hc
  · have hmiss : m = some (p.item slot) := by
      rcases h.missing_eq hp with hm | hm
      · refine absurd ((h.mem_items_iff hrec).mpr ⟨?_, h.missing_ne_message⟩) hnew
        rw [hm]
        simp
      · exact hm
    subst hmiss
    have hstart : e.eventType ≠ "context.epoch_started" ∧ e.eventType ≠ "context.rewound" := by
      rw [htype]
      cases slot <;> decide
    have hsnoc : Inv cfg base (es ++ [e]) r rec (com ++ [p.item slot]) none t := by
      refine h.snoc hstart.1 hstart.2 ?_ h.stage.writeMessage (by simp) fun _ hx => hx
      rw [items_snoc, hitem, h.log]
      exact append_assoc _ _ _
    have hmem : p.item slot ∈ items cfg.stamp.agentId (es ++ [e]) := by
      rw [items_snoc, hitem]
      simp
    refine ⟨es ++ [e], com ++ [p.item slot], none, t, hheld, hsnoc.frame hf hp ?_⟩
    rcases hslot with ⟨hnone, -⟩ | ⟨p', hp', hitem, -⟩
    · exact .inl ⟨hnone, rfl⟩
    · exact .inr ⟨p', hp', hitem, fun _ => hmem⟩

theorem Inv.record (hs : r.settled)
    (hepoch : lastEpoch es = some p.epochId) (hturn : r.currentTurnId = some p.turnId)
    (hc : p.committed = false) (hnew : p.item slot ∉ items cfg.stamp.agentId es ++ rec) :
    Inv cfg base es (r.setPending slot (some p)) (rec ++ [p.item slot]) com
      (some (p.item slot)) none := by
  obtain ⟨hm, ht⟩ := h.settled_missing hs
  subst hm
  subst ht
  have hf := frame_setPending r slot (some p)
  rw [mem_append, not_or, h.log, mem_append, not_or] at hnew
  have hother : ∀ slot', (r.setPending slot (some p)).pending slot' ≠ none → slot' = slot := by
    intro slot' hne
    by_contra hslot
    rw [hf.other slot' hslot] at hne
    exact hne (Recorder.settled_pending hs slot')
  obtain ⟨⟨epochId, hlive⟩, hbase, hterm⟩ := h.current p.turnId hturn
  have hep : epochId = p.epochId := Option.some.inj (hlive.epoch.symm.trans hepoch)
  subst hep
  refine {
    log := h.log
    stage := h.stage.recordMessage _
    nodup := ?_
    apart := ?_
    one := ?_
    pending := ?_
    terminal := ?_
    missingMessage := ?_
    missingTerminal := ?_
    current := ?_ }
  · exact nodup_append.mpr ⟨h.nodup, by simp, by
      intro x hx y hy
      rw [mem_singleton.mp hy]
      intro hxy
      exact hnew.2 (hxy ▸ hx)⟩
  · intro x hx
    rcases mem_append.mp hx with hx | hx
    · exact h.apart x hx
    · rw [mem_singleton.mp hx]
      exact hnew.1.1
  · intro slot₁ slot₂ h₁ h₂
    rw [hother slot₁ h₁, hother slot₂ h₂]
  · intro slot' p' hp'
    have hslot : slot' = slot := hother slot' (by simp [hp'])
    subst hslot
    rw [pending_setPending, if_pos rfl] at hp'
    cases hp'
    refine ⟨by simp, hlive, .inr (hf.currentTurnId.trans hturn), ?_⟩
    intro hcom
    rw [hc] at hcom
    cases hcom
  · intro p' hp'
    rw [hf.terminal, hs.2.2] at hp'
    cases hp'
  · intro x hx
    cases hx
    exact ⟨slot, p, by simp, rfl⟩
  · intro x hx
    cases hx
  · intro turnId hcur
    rw [hf.currentTurnId, hturn] at hcur
    cases hcur
    refine ⟨⟨_, hlive⟩, hbase, ?_⟩
    intro _ epochId hmem
    rcases mem_append.mp hmem with hmem | hmem
    · exact hterm hs.2.2 epochId hmem
    · cases mem_singleton.mp hmem

end

theorem Commits.setPending (h : Commits cfg slot p es r r') (q : Option Pending) :
    Commits cfg slot p es (r.setPending slot q) r' := by
  have hf := frame_setPending r slot q
  obtain ⟨hf', hrest⟩ := h
  refine ⟨⟨hf'.currentTurnId.trans hf.currentTurnId.symm, hf'.terminal.trans hf.terminal.symm, ?_⟩,
    hrest⟩
  intro slot' hne
  exact (hf'.other slot' hne).trans (hf.other slot' hne).symm

section

variable (h : Inv cfg base es r rec com m t)
include h

/-- An acknowledged message is in the log. -/
theorem Inv.acknowledge (hp : r.pending slot = some p) (hc : p.committed = true) :
    Inv cfg base es (r.setPending slot none) rec com m t := by
  obtain ⟨hrec, -, -, hcom⟩ := h.pending slot p hp
  refine h.frame (frame_setPending r slot none) hp (.inl ⟨by simp, ?_⟩)
  rcases h.missing_eq hp with hm | hm
  · exact hm
  · exact absurd hm ((h.mem_items_iff hrec).mp (hcom hc)).1

/-! ### Turns -/

/-- **Settling the end of a turn keeps the invariant.** -/
theorem Inv.ends {p : PendingTurnTerminal}
    (hp : r.pendingTurnTerminal = some p) (he : Ends cfg p es r r') : Good cfg base r' rec := by
  obtain ⟨hslots, es', hheld, hlog, hend⟩ := he
  obtain ⟨hrec, hlive, hturn⟩ := h.terminal p hp
  -- what is missing afterwards, and that an end that left its slot is not
  have hstep : ∀ {es' : List SessionEvent} {com' : List Item} {t' : Option Item},
      Inv cfg base es' r rec com' m t' →
      (r'.pendingTurnTerminal = none → t' = none) → Inv cfg base es' r' rec com' m t' := by
    intro es' com' t' hinv ht'
    refine {
      log := hinv.log
      stage := hinv.stage
      nodup := hinv.nodup
      apart := hinv.apart
      one := ?_
      pending := ?_
      terminal := ?_
      missingMessage := ?_
      missingTerminal := ?_
      current := ?_ }
    · intro slot slot'
      rw [hslots, hslots]
      exact hinv.one slot slot'
    · intro slot q hq
      rw [hslots] at hq
      obtain ⟨hqrec, hqlive, hqturn, hqcom⟩ := hinv.pending slot q hq
      refine ⟨hqrec, hqlive, ?_, hqcom⟩
      rcases hend with ⟨-, -, hcur⟩ | ⟨-, hcur⟩
      · rw [hcur]
        split
        · exact .inl rfl
        · exact hqturn
      · rw [hcur]
        exact hqturn
    · intro q hq
      rcases hend with ⟨hnone, -⟩ | ⟨hsome, hcur⟩
      · rw [hnone] at hq
        cases hq
      · rw [hsome] at hq
        cases hq
        rw [hcur]
        exact hinv.terminal p hp
    · intro x hx
      obtain ⟨slot, q, hq, hitem⟩ := hinv.missingMessage x hx
      exact ⟨slot, q, (hslots slot).trans hq, hitem⟩
    · intro x hx
      rcases hend with ⟨hnone, -⟩ | ⟨hsome, -⟩
      · rw [ht' hnone] at hx
        cases hx
      · obtain ⟨q, hq, hitem⟩ := hinv.missingTerminal x hx
        rw [hp] at hq
        cases hq
        exact ⟨p, hsome, hitem⟩
    · intro turnId hcur'
      rcases hend with ⟨-, -, hcur⟩ | ⟨hsome, hcur⟩
      · rw [hcur] at hcur'
        split at hcur'
        · cases hcur'
        · rename_i hne
          rcases hturn with hturn | hturn
          · rw [hturn] at hcur'
            cases hcur'
          · exact absurd hturn hne
      · rw [hcur] at hcur'
        obtain ⟨hl, hbase, -⟩ := hinv.current turnId hcur'
        refine ⟨hl, hbase, ?_⟩
        intro hnone
        rw [hsome] at hnone
        cases hnone
  have hnotMessage : m ≠ some p.item := by
    intro hm
    obtain ⟨slot, q, -, hitem⟩ := h.missingMessage _ hm
    cases hitem
  have hmiss : t = none ∨ t = some p.item := by
    cases t with
    | none => exact .inl rfl
    | some x =>
      obtain ⟨q, hq, rfl⟩ := h.missingTerminal x rfl
      rw [hp] at hq
      cases hq
      exact .inr rfl
  rcases hlog with rfl | ⟨hnew, e, rfl, hitem, htype⟩
  · refine ⟨es', com, m, t, hheld, hstep h ?_⟩
    intro hnone
    rcases hend with ⟨-, hmem, -⟩ | ⟨hsome, -⟩
    · rcases hmiss with ht | ht
      · exact ht
      · exact absurd ht ((h.mem_items_iff hrec).mp hmem).2
    · rw [hsome] at hnone
      cases hnone
  · have ht : t = some p.item := by
      rcases hmiss with ht | ht
      · refine absurd ((h.mem_items_iff hrec).mpr ⟨hnotMessage, ?_⟩) hnew
        rw [ht]
        simp
      · exact ht
    subst ht
    have hplain : e.eventType ≠ "context.epoch_started" ∧ e.eventType ≠ "context.rewound" := by
      rw [htype]
      cases p.ending <;> decide
    refine ⟨es ++ [e], com ++ [p.item], m, none, hheld, hstep ?_ fun _ => rfl⟩
    refine h.snoc hplain.1 hplain.2 ?_ h.stage.writeTerminal (fun _ hx => hx) (by simp)
    rw [items_snoc, hitem, h.log]
    exact append_assoc _ _ _

theorem Inv.recordEnd {p : PendingTurnTerminal}
    (hnone : r.pendingTurnTerminal = none) (hepoch : lastEpoch es = some p.epochId)
    (hturn : r.currentTurnId = some p.turnId) :
    Inv cfg base es { r with pendingTurnTerminal := some p } (rec ++ [p.item]) com m
      (some p.item) := by
  have ht : t = none := by
    cases t with
    | none => rfl
    | some x =>
      obtain ⟨q, hq, -⟩ := h.missingTerminal x rfl
      rw [hnone] at hq
      cases hq
  subst ht
  obtain ⟨⟨epochId, hlive⟩, hbase, hterm⟩ := h.current p.turnId hturn
  have hep : epochId = p.epochId := Option.some.inj (hlive.epoch.symm.trans hepoch)
  subst hep
  have hnew : p.item ∉ rec := hterm hnone p.epochId
  have hslots : ∀ slot, ({ r with pendingTurnTerminal := some p } : Recorder).pending slot =
      r.pending slot := by
    intro slot
    cases slot <;> rfl
  refine {
    log := h.log
    stage := h.stage.recordTerminal ?_ hnew
    nodup := ?_
    apart := ?_
    one := ?_
    pending := ?_
    terminal := ?_
    missingMessage := ?_
    missingTerminal := ?_
    current := ?_ }
  · intro x hx
    obtain ⟨slot, q, hq, rfl⟩ := h.missingMessage x hx
    obtain ⟨-, hqlive, hqturn, -⟩ := h.pending slot q hq
    have hqepoch : q.epochId = p.epochId :=
      Option.some.inj (hqlive.epoch.symm.trans hepoch)
    have hqt : q.turnId = p.turnId := by
      rw [hturn] at hqturn
      rcases hqturn with hqturn | hqturn
      · cases hqturn
      · exact (Option.some.inj hqturn).symm
    exact ⟨slot, q.id, by rw [Pending.item, hqepoch, hqt]⟩
  · exact nodup_append.mpr ⟨h.nodup, by simp, by
      intro x hx y hy
      rw [mem_singleton.mp hy]
      intro hxy
      exact hnew (hxy ▸ hx)⟩
  · intro x hx
    rcases mem_append.mp hx with hx | hx
    · exact h.apart x hx
    · rw [mem_singleton.mp hx]
      exact hbase p.epochId
  · intro slot slot'
    rw [hslots, hslots]
    exact h.one slot slot'
  · intro slot q hq
    rw [hslots] at hq
    obtain ⟨hqrec, hqrest⟩ := h.pending slot q hq
    exact ⟨mem_append_left _ hqrec, hqrest⟩
  · intro q hq
    cases hq
    exact ⟨by simp, hlive, .inr hturn⟩
  · intro x hx
    obtain ⟨slot, q, hq, hitem⟩ := h.missingMessage x hx
    exact ⟨slot, q, (hslots slot).trans hq, hitem⟩
  · intro x hx
    cases hx
    exact ⟨p, rfl, rfl⟩
  · intro turnId hcur
    obtain ⟨hl, hb, -⟩ := h.current turnId hcur
    refine ⟨hl, hb, ?_⟩
    intro hn
    cases hn

theorem Inv.opens (hs : r.settled) {turnId : String}
    (hnew : ∀ epochId, .terminal epochId turnId ∉ items cfg.stamp.agentId es ++ rec)
    (ho : Opens cfg turnId es r r') : Good cfg base r' rec := by
  obtain ⟨hslots, hterm, hcur, e, hheld, hitem, epochId, hlive⟩ := ho
  have hnone : ∀ slot, r'.pending slot = none := fun slot =>
    (hslots slot).trans (Recorder.settled_pending hs slot)
  obtain ⟨rfl, rfl⟩ := h.settled_missing hs
  refine ⟨es ++ [e], com, none, none, hheld, {
    log := ?_
    stage := h.stage
    nodup := h.nodup
    apart := h.apart
    one := ?_
    pending := ?_
    terminal := ?_
    missingMessage := by simp
    missingTerminal := by simp
    current := ?_ }⟩
  · rw [items_snoc, hitem, h.log]
    exact append_nil _
  · intro slot slot' hne
    exact absurd (hnone slot) hne
  · intro slot p hp
    rw [hnone slot] at hp
    cases hp
  · intro p hp
    rw [hterm, hs.2.2] at hp
    cases hp
  · intro turnId' hcur'
    rw [hcur] at hcur'
    cases hcur'
    refine ⟨⟨epochId, hlive⟩, ?_, ?_⟩
    · intro epochId hmem
      refine hnew epochId (mem_append_left _ ?_)
      rw [h.log]
      exact mem_append_left _ hmem
    · intro _ epochId hmem
      exact hnew epochId (mem_append_right _ hmem)

end

end Inv

end KolegaCode.Session
