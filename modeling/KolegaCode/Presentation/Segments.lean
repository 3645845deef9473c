import KolegaCode.Lib.Except
import KolegaCode.Presentation.Projection

/-!
# Presentation — streamed segments

What the projection shows of one streamed segment is a `Segment`: how many of its items were
completed, and whether the last one is still open.  A delta moves its own segment only
(`tracks_delta`), and every other handler moves none (`handlers_neutral`).
-/

namespace KolegaCode.Presentation

open List Option
open Json (Dict get?)
open Recording (AgentEvent)
open Projection (PresentationState)

/-! ### Marks -/

/-- What a segment is recognised by in an item, and whether it is complete. -/
structure Mark where
  kind : String
  streamId : Option String
  complete : Bool
deriving DecidableEq

def markOf (item : ConversationItem) : Mark := ⟨item.kind, item.streamId, item.complete⟩

/-- The marks of the items of a sub-agent, or of the main transcript. -/
def View.marks (v : View) (key : Option String) : List Mark :=
  match key with
  | none => v.conversation.map markOf
  | some k => ((v.subAgents.get? k).map fun activity => activity.steps.map markOf).getD []

/-- Only marks that belong to no segment are added. -/
def Extends (ms ms' : List Mark) : Prop :=
  ∃ added, ms' = ms ++ added ∧ ∀ m ∈ added, m.streamId = none

theorem Extends.refl (ms : List Mark) : Extends ms ms :=
  ⟨[], (append_nil ms).symm, fun _ h => absurd h not_mem_nil⟩

theorem Extends.trans {a b c : List Mark} (hab : Extends a b) (hbc : Extends b c) :
    Extends a c := by
  obtain ⟨added, rfl, hadded⟩ := hab
  obtain ⟨added', rfl, hadded'⟩ := hbc
  refine ⟨added ++ added', append_assoc _ _ _, fun m hm => ?_⟩
  rcases mem_append.mp hm with hm | hm
  · exact hadded m hm
  · exact hadded' m hm

theorem extends_concat (ms : List Mark) {m : Mark} (h : m.streamId = none) :
    Extends ms (ms ++ [m]) := by
  refine ⟨[m], rfl, fun x hx => ?_⟩
  rw [mem_singleton.mp hx]
  exact h

/-- No segment moves from the one view to the other. -/
structure Neutral (v v' : View) : Prop where
  streams : v'.streams = v.streams
  marks : ∀ key, Extends (v.marks key) (v'.marks key)

theorem Neutral.refl (v : View) : Neutral v v := ⟨rfl, fun _ => Extends.refl _⟩

theorem Neutral.trans {a b c : View} (hab : Neutral a b) (hbc : Neutral b c) : Neutral a c :=
  ⟨hbc.streams.trans hab.streams, fun key => (hab.marks key).trans (hbc.marks key)⟩

theorem Neutral.of_eq {v v' : View} (hconversation : v'.conversation = v.conversation)
    (hsubAgents : v'.subAgents = v.subAgents) (hstreams : v'.streams = v.streams) :
    Neutral v v' := by
  refine ⟨hstreams, fun key => ?_⟩
  have hmarks : v'.marks key = v.marks key := by simp only [View.marks, hconversation, hsubAgents]
  rw [hmarks]
  exact Extends.refl _

variable {v v' : View} {event : AgentEvent}

theorem Neutral.setTools (h : Neutral v v') (tools : Assoc String Nat) :
    Neutral v { v' with tools := tools } := h.trans (.of_eq rfl rfl rfl)

theorem Neutral.setActivity (h : Neutral v v') (activity : String) :
    Neutral v { v' with activity := activity } := h.trans (.of_eq rfl rfl rfl)

theorem Neutral.setPending (h : Neutral v v') (pending : List String) :
    Neutral v { v' with pendingPeerTurns := pending } := h.trans (.of_eq rfl rfl rfl)

theorem marks_set_subAgents (v : View) (key : String) (activity : SubAgentActivity)
    (key' : Option String) :
    ({ v with subAgents := v.subAgents.set key activity } : View).marks key' =
      if key' = some key then activity.steps.map markOf else v.marks key' := by
  cases key' with
  | none => rfl
  | some k =>
    simp only [View.marks, Assoc.get?_set, Option.some.injEq]
    split <;> rfl

theorem neutral_subAgent (v : View) (key : String) (event : AgentEvent) :
    Neutral v (Projection.subAgent v key event) := by
  rw [Projection.subAgent]
  split
  · exact Neutral.refl v
  · next hnone =>
    refine ⟨rfl, fun key' => ?_⟩
    rw [marks_set_subAgents]
    split
    · next hkey =>
      subst hkey
      simp only [View.marks, hnone]
      exact Extends.refl _
    · exact Extends.refl _

theorem neutral_updateSubAgent (v : View) (key : String) (event : AgentEvent)
    {f : SubAgentActivity → SubAgentActivity}
    (hf : ∀ a, Extends (a.steps.map markOf) ((f a).steps.map markOf)) :
    Neutral v (Projection.updateSubAgent v key event f) := by
  refine (neutral_subAgent v key event).trans ?_
  rw [Projection.updateSubAgent]
  split
  · next activity hget =>
    refine ⟨rfl, fun key' => ?_⟩
    rw [marks_set_subAgents]
    split
    · next hkey =>
      subst hkey
      simp only [View.marks, hget]
      exact hf activity
    · exact Extends.refl _
  · exact Neutral.refl _

theorem neutral_append (v : View) (event : AgentEvent) {item : ConversationItem}
    (h : item.streamId = none) : Neutral v (Projection.append v item event) := by
  rw [Projection.append]
  split
  · refine neutral_updateSubAgent v _ event fun a => ?_
    rw [map_append]
    exact extends_concat _ h
  · refine ⟨rfl, fun key => ?_⟩
    cases key with
    | none =>
      simp only [View.marks, map_append]
      exact extends_concat _ h
    | some k => exact Extends.refl _

theorem map_modify_of_mark {items : List ConversationItem} {f : ConversationItem → ConversationItem}
    (hf : ∀ item, markOf (f item) = markOf item) (index : Nat) :
    (items.modify index f).map markOf = items.map markOf := by
  induction items generalizing index with
  | nil => simp
  | cons item items ih =>
    cases index with
    | zero => rw [modify_zero_cons, map_cons, map_cons, hf]
    | succ index => rw [modify_succ_cons, map_cons, map_cons, ih]

/-- The mark of an item that is changed in place stays. -/
theorem neutral_modifyItem (v : View) (key : Option String) (index : Nat)
    {f : ConversationItem → ConversationItem} (hf : ∀ item, markOf (f item) = markOf item) :
    Neutral v (v.modifyItem key index f) := by
  have hconversation : ∀ items, items.map markOf = v.conversation.map markOf →
      Neutral v { v with conversation := items } := by
    refine fun items hitems => ⟨rfl, fun key => ?_⟩
    have hmarks : ({ v with conversation := items } : View).marks key = v.marks key := by
      cases key with
      | none => exact hitems
      | some k => rfl
    rw [hmarks]
    exact Extends.refl _
  rw [View.modifyItem]
  cases key with
  | none => exact hconversation _ (map_modify_of_mark hf index)
  | some k =>
    rw [View.setItems]
    cases hget : v.subAgents.get? k with
    | none =>
      refine hconversation _ ?_
      rw [View.items, bind_some, hget]
      exact map_modify_of_mark hf index
    | some activity =>
      refine ⟨rfl, fun key' => ?_⟩
      rw [marks_set_subAgents]
      split
      · next hkey =>
        subst hkey
        simp only [View.items, View.marks, bind_some, hget, Option.map_some,
          getD_some, map_modify_of_mark hf index]
        exact Extends.refl _
      · exact Extends.refl _

/-! ### The other handlers -/

theorem neutral_onToolMessage (v : View) (event : AgentEvent) (status : String) :
    Neutral v (Projection.onToolMessage v event status) := by
  rw [Projection.onToolMessage]
  split
  · dsimp only
    by_cases hrunning : status ≠ "running"
    · rw [if_pos hrunning]
      refine .setTools ?_ _
      exact neutral_modifyItem v _ _ fun _ => rfl
    · rw [if_neg hrunning]
      exact neutral_modifyItem v _ _ fun _ => rfl
  · dsimp only
    refine .setActivity ?_ _
    split
    · refine .setTools ?_ _
      exact neutral_append v event rfl
    · exact neutral_append v event rfl

theorem neutral_onWorkflowMessage (v : View) (event : AgentEvent) (messageType tone : String) :
    Neutral v (Projection.onWorkflowMessage v event messageType tone) := by
  rw [Projection.onWorkflowMessage]
  dsimp only
  split
  · exact neutral_append v event rfl
  · split
    · exact neutral_append v event rfl
    · split
      · exact .refl v
      · exact neutral_append v event rfl

theorem neutral_onChatMessage (v : View) (event : AgentEvent) :
    Neutral v (Projection.onChatMessage v event) := by
  rw [Projection.onChatMessage]
  dsimp only
  split
  · exact neutral_onToolMessage v event _
  · split
    · exact neutral_onWorkflowMessage v event _ _
    · split
      · exact neutral_updateSubAgent v _ event fun _ => .refl _
      · split
        · exact .refl v
        · exact neutral_append v event rfl

theorem neutral_onToolStreamingUpdate (v : View) (event : AgentEvent) :
    Neutral v (Projection.onToolStreamingUpdate v event) := by
  rw [Projection.onToolStreamingUpdate]
  split
  · split
    · refine .setTools ?_ _
      exact neutral_append v event rfl
    · exact neutral_append v event rfl
  · exact neutral_modifyItem v _ _ fun _ => rfl

theorem neutral_onFileEditPreview (v : View) (event : AgentEvent) :
    Neutral v (Projection.onFileEditPreview v event) := by
  rw [Projection.onFileEditPreview]
  split
  · exact .of_eq rfl rfl rfl
  · split
    · refine Neutral.trans (.of_eq ?_ ?_ ?_) (neutral_modifyItem _ _ _ fun _ => ?_) <;> rfl
    · exact .of_eq rfl rfl rfl

theorem neutral_onContextUpdate {v v' : View} {event : AgentEvent}
    (h : Projection.onContextUpdate v event = .ok v') : Neutral v v' := by
  rw [Projection.onContextUpdate] at h
  obtain ⟨inputTokens, -, h⟩ := bind_eq_ok.mp h
  obtain ⟨maxTokens, -, h⟩ := bind_eq_ok.mp h
  obtain ⟨usagePercentage, -, h⟩ := bind_eq_ok.mp h
  obtain ⟨willCompressAt, -, h⟩ := bind_eq_ok.mp h
  split at h
  · cases h
    exact neutral_updateSubAgent v _ event fun _ => .refl _
  · cases h
    exact .of_eq rfl rfl rfl

theorem neutral_onStatusUpdate (v : View) (event : AgentEvent) :
    Neutral v (Projection.onStatusUpdate v event) := by
  rw [Projection.onStatusUpdate]
  split
  · exact neutral_updateSubAgent v _ event fun _ => .refl _
  · exact .of_eq rfl rfl rfl

theorem neutral_addPeerMessage (v : View) (event : AgentEvent) (messageId status : String) :
    Neutral v (Projection.addPeerMessage v event messageId status) := by
  have hadd : ∀ (item : ConversationItem) messages pending, item.streamId = none →
      Neutral v { v with
        conversation := v.conversation ++ [item], peerMessages := messages
        pendingPeerTurns := pending } := by
    refine fun item messages pending hitem => ⟨rfl, fun key => ?_⟩
    cases key with
    | none =>
      simp only [View.marks, map_append]
      exact extends_concat _ hitem
    | some k => exact .refl _
  rw [Projection.addPeerMessage]
  split
  · exact hadd _ _ _ rfl
  · exact hadd _ _ _ rfl

theorem neutral_onPeerMessage (status : String) (v : View) (event : AgentEvent) :
    Neutral v (Projection.onPeerMessage status v event) := by
  rw [Projection.onPeerMessage]
  dsimp only
  split
  · exact neutral_addPeerMessage v event _ _
  · next known _ =>
    have hrecord : Neutral v { v with
        peerMessages := v.peerMessages.set (Projection.stringContent event "message_id")
          (Projection.mergePeerMessage known event status) } := .of_eq rfl rfl rfl
    split
    · exact hrecord.trans (neutral_addPeerMessage _ event _ _)
    · refine hrecord.trans ?_
      split
      · refine .setPending ?_ _
        exact neutral_modifyItem _ none _ fun _ => rfl
      · exact neutral_modifyItem _ none _ fun _ => rfl

theorem neutral_onTurnStarted (v : View) (event : AgentEvent) :
    Neutral v (Projection.onTurnStarted v event) := by
  rw [Projection.onTurnStarted]
  dsimp only
  split
  · split
    · exact neutral_append v event rfl
    · exact .refl v
  · split
    · exact .of_eq rfl rfl rfl
    · split
      · refine Neutral.trans (.of_eq ?_ ?_ ?_) (neutral_append _ event ?_) <;> rfl
      · exact .of_eq rfl rfl rfl

theorem neutral_onControlRequested {v v' : View} {event : AgentEvent}
    (h : Projection.onControlRequested v event = .ok v') : Neutral v v' := by
  rw [Projection.onControlRequested] at h
  split at h
  · cases h
    exact .refl v
  · obtain ⟨payload, -, h⟩ := bind_eq_ok.mp h
    cases h
    exact .of_eq rfl rfl rfl

/-- A delta of an assistant or reasoning segment. -/
def isDelta (event : AgentEvent) : Bool :=
  event.eventType = "assistant_delta" || event.eventType = "thinking_delta"

/-- What a handler keeps. -/
def IsNeutral (p : Projection.Handler) : Prop :=
  ∀ event s s', p s event = .ok s' → Neutral s.toView s'.toView

theorem isNeutral_onView {f : View → AgentEvent → View} (hf : ∀ v event, Neutral v (f v event)) :
    IsNeutral (Projection.onView f) := by
  rintro event s s' ⟨⟩
  exact hf _ _

theorem isNeutral_onViewM {f : View → AgentEvent → Except String View}
    (hf : ∀ v event v', f v event = .ok v' → Neutral v v') : IsNeutral (Projection.onViewM f) := by
  intro event s s' h
  rw [Projection.onViewM] at h
  cases hv : f s.toView event with
  | error error =>
    rw [hv] at h
    cases h
  | ok v =>
    rw [hv] at h
    cases h
    exact hf _ _ _ hv

theorem neutral_appendTerminal (s : PresentationState) (text : String) :
    Neutral s.toView (Projection.appendTerminal s text).toView := by
  rw [Projection.appendTerminal]
  split
  · exact .refl _
  · exact .of_eq rfl rfl rfl

/-- **No other handler moves a segment.** -/
theorem handlers_neutral {name : String} {p : Projection.Handler}
    (hmem : (name, p) ∈ Projection.HANDLERS) (hname : name ≠ "assistant_delta")
    (hname' : name ≠ "thinking_delta") : IsNeutral p := by
  have hall : ∀ q ∈ Projection.HANDLERS, q.1 ≠ "assistant_delta" → q.1 ≠ "thinking_delta" →
      IsNeutral q.2 := by
    have hignore : IsNeutral (Projection.onView Projection.ignore) :=
      isNeutral_onView fun v _ => .refl v
    have hstatus := isNeutral_onView neutral_onStatusUpdate
    simp only [Projection.HANDLERS, forall_mem_cons]
    refine ⟨fun h => absurd rfl h, fun _ h => absurd rfl h,
      fun _ _ => isNeutral_onView neutral_onChatMessage,
      fun _ _ => isNeutral_onView neutral_onToolStreamingUpdate, fun _ _ => ?_, fun _ _ => ?_,
      fun _ _ => hignore, fun _ _ => hignore, fun _ _ => isNeutral_onView fun v event => ?_,
      fun _ _ => isNeutral_onView neutral_onFileEditPreview,
      fun _ _ => isNeutral_onViewM fun _ _ _ => neutral_onContextUpdate,
      fun _ _ => isNeutral_onView fun v event => ?_, fun _ _ => hstatus, fun _ _ => hstatus,
      fun _ _ => isNeutral_onView neutral_onTurnStarted,
      fun _ _ => isNeutral_onView fun v event => ?_,
      fun _ _ => isNeutral_onView fun v event => ?_,
      fun _ _ => isNeutral_onView fun v event => .of_eq rfl rfl rfl,
      fun _ _ => isNeutral_onView fun v event => ?_,
      fun _ _ => isNeutral_onViewM fun _ _ _ => neutral_onControlRequested,
      fun _ _ => isNeutral_onView fun v event => .of_eq rfl rfl rfl,
      fun _ _ => isNeutral_onView fun v event => ?_,
      fun _ _ => isNeutral_onView (neutral_onPeerMessage _),
      fun _ _ => isNeutral_onView (neutral_onPeerMessage _), fun _ _ => hignore,
      fun _ _ => hstatus, fun _ _ => hignore, fun _ _ => hignore, fun _ hmem => nomatch hmem⟩
    · rintro event s s' ⟨⟩
      rw [Projection.onTerminalCommand]
      split
      · exact (neutral_appendTerminal s _).trans (.of_eq rfl rfl rfl)
      · exact .of_eq rfl rfl rfl
    · rintro event s s' ⟨⟩
      exact neutral_appendTerminal s _
    · rw [Projection.onLogMessage]
      split <;> exact .of_eq rfl rfl rfl
    · rw [Projection.onCompactionStatus]
      split <;> exact .of_eq rfl rfl rfl
    · rw [Projection.onTurnEnded]
      split <;> exact .of_eq rfl rfl rfl
    · rw [Projection.onBrowserLaunched]
      split <;> exact .of_eq rfl rfl rfl
    · rw [Projection.onStreamTruncated]
      refine Neutral.trans (.of_eq ?_ ?_ ?_) (neutral_append _ event ?_) <;> rfl
    · rw [Projection.onSystemMessage]
      split
      · exact neutral_append v event rfl
      · exact .refl v
  exact hall _ hmem hname hname'

end KolegaCode.Presentation
