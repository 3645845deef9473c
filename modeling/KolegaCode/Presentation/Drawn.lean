import KolegaCode.Lib.Except
import KolegaCode.Presentation.Agree

/-!
# Presentation — what the two projections draw

The dictionaries are the same as long as the state is `Drawable`, which every handler keeps
(`handlers_keep`).  `replay_agree` is the result for whole recordings; `toolDisplay_differs` is a
recording that the two projections draw differently.
-/

namespace KolegaCode.Presentation

open List
open Json (Dict get?)
open Recording (AgentEvent)
open Projection (PresentationState)
open Fold (WebState)

variable {event : AgentEvent} {v : View}

/-- No item carries display metadata, and every sub-agent can be a member of an object. -/
structure Drawable (conversation : List ConversationItem)
    (subAgents : Assoc String SubAgentActivity) : Prop where
  items : ∀ item ∈ conversation, item.toolDisplay = none
  steps : ∀ p ∈ subAgents, ∀ item ∈ p.2.steps, item.toolDisplay = none
  keys : "__proto__" ∉ Assoc.keys subAgents

theorem itemDict_eq {item : ConversationItem} (h : item.toolDisplay = none) :
    Fold.itemDict item = Projection.itemDict item := by
  simp only [Fold.itemDict, Projection.itemDict, h, Option.map_none, optional, append_nil]
  rfl

theorem itemsDict_eq {items : List ConversationItem} (h : ∀ item ∈ items, item.toolDisplay = none) :
    (items.map fun item => Json.obj (Fold.itemDict item)) =
      items.map fun item => Json.obj (Projection.itemDict item) :=
  map_congr_left fun item hitem => by rw [itemDict_eq (h item hitem)]

theorem toDict_eq {s : PresentationState} (h : Drawable s.conversation s.subAgents) :
    Fold.toDict (web s) = Projection.toDict s := by
  have hkeys : plain (s.subAgents.map fun p => (p.1, Json.obj (Fold.activityDict p.2))) := by
    refine all_eq_true.mpr fun p hp => ?_
    obtain ⟨q, hq, rfl⟩ := mem_map.mp hp
    refine decide_eq_true fun hproto => h.keys ?_
    exact mem_map.mpr ⟨q, hq, hproto⟩
  have hactivities :
      Fold.assign (s.subAgents.map fun p => (p.1, Json.obj (Fold.activityDict p.2))) =
        s.subAgents.map fun p => (p.1, Json.obj (Projection.activityDict p.2)) := by
    refine (assign_eq hkeys).trans (map_congr_left fun p hp => ?_)
    rw [Fold.activityDict, Projection.activityDict, itemsDict_eq (h.steps p hp)]
  simp only [Fold.toDict, Projection.toDict, web_toView, web_terminal, hactivities,
    itemsDict_eq h.items]
  rfl

theorem forall_modify {α : Type} {P : α → Prop} {xs : List α} (h : ∀ x ∈ xs, P x) {f : α → α}
    (hf : ∀ x, P x → P (f x)) (index : Nat) : ∀ x ∈ xs.modify index f, P x := by
  induction xs generalizing index with
  | nil => simp
  | cons x xs ih =>
    obtain ⟨hx, hxs⟩ := forall_mem_cons.mp h
    cases index with
    | zero =>
      rw [modify_zero_cons]
      exact forall_mem_cons.mpr ⟨hf x hx, hxs⟩
    | succ index =>
      rw [modify_succ_cons]
      exact forall_mem_cons.mpr ⟨hx, ih hxs index⟩

section Drawable

variable (h : Drawable v.conversation v.subAgents)

include h

theorem drawable_items (key : Option String) : ∀ item ∈ v.items key, item.toolDisplay = none := by
  rw [View.items]
  cases key with
  | none => exact h.items
  | some k =>
    cases hget : v.subAgents.get? k with
    | none => simpa [hget] using h.items
    | some activity => simpa [hget] using h.steps _ (Assoc.mem_of_get? hget)

theorem drawable_set {key : String} {activity : SubAgentActivity} (hkey : key ≠ "__proto__")
    (hsteps : ∀ item ∈ activity.steps, item.toolDisplay = none) :
    Drawable v.conversation (v.subAgents.set key activity) := by
  refine ⟨h.items, Assoc.forall_set
    (P := fun a : SubAgentActivity => ∀ item ∈ a.steps, item.toolDisplay = none) h.steps hsteps, ?_⟩
  rw [Assoc.keys_set]
  split
  · exact h.keys
  · intro hmem
    rcases mem_append.mp hmem with hmem | hmem
    · exact h.keys hmem
    · exact hkey (mem_singleton.mp hmem).symm

theorem drawable_modifyItem (key : Option String) (index : Nat)
    {f : ConversationItem → ConversationItem}
    (hf : ∀ item, item.toolDisplay = none → (f item).toolDisplay = none) :
    Drawable (v.modifyItem key index f).conversation (v.modifyItem key index f).subAgents := by
  have hitems : ∀ item ∈ (v.items key).modify index f, item.toolDisplay = none :=
    forall_modify (drawable_items h key) hf index
  rw [View.modifyItem]
  cases key with
  | none => exact ⟨hitems, h.steps, h.keys⟩
  | some k =>
    rw [View.setItems]
    split
    · next activity hget =>
      refine drawable_set h ?_ hitems
      rintro rfl
      exact h.keys (Assoc.mem_keys_of_get? hget)
    · exact ⟨hitems, h.steps, h.keys⟩

theorem drawable_updateSubAgent {key : String} (hkey : key ≠ "__proto__") (event : AgentEvent)
    {f : SubAgentActivity → SubAgentActivity}
    (hf : ∀ a, (∀ item ∈ a.steps, item.toolDisplay = none) →
      ∀ item ∈ (f a).steps, item.toolDisplay = none) :
    Drawable (Fold.updateSubAgent v key event f).conversation
      (Fold.updateSubAgent v key event f).subAgents := by
  have hcreate : Drawable (Fold.subAgent v key event).conversation
      (Fold.subAgent v key event).subAgents := by
    rw [Fold.subAgent]
    split
    · exact h
    · exact drawable_set h hkey fun item hitem => absurd hitem not_mem_nil
  rw [Fold.updateSubAgent]
  split
  · next activity hget =>
    exact drawable_set hcreate hkey (hf _ (hcreate.steps _ (Assoc.mem_of_get? hget)))
  · exact hcreate

theorem drawable_append (hkey : Fold.subAgentKey event ≠ some "__proto__")
    {item : ConversationItem} (hitem : item.toolDisplay = none) :
    Drawable (Fold.append v item event).conversation (Fold.append v item event).subAgents := by
  rw [Fold.append]
  cases hsub : Fold.subAgentKey event with
  | none =>
    refine ⟨fun x hx => ?_, h.steps, h.keys⟩
    rcases mem_append.mp hx with hx | hx
    · exact h.items x hx
    · rw [mem_singleton.mp hx]
      exact hitem
  | some key =>
    refine drawable_updateSubAgent h (fun e => hkey (e ▸ hsub)) event fun a ha x hx => ?_
    rcases mem_append.mp hx with hx | hx
    · exact ha x hx
    · rw [mem_singleton.mp hx]
      exact hitem

end Drawable

/-- What a handler of the web client keeps. -/
def Keeps (j : Fold.Handler) : Prop :=
  ∀ event, Fold.subAgentKey event ≠ some "__proto__" → ∀ w : WebState,
    Drawable w.conversation w.subAgents → Drawable (j w event).conversation (j w event).subAgents

theorem keeps_onAssistantDelta (kind : String) : Keeps (Fold.onView (Fold.onAssistantDelta kind)) := by
  intro event hkey w h
  rw [Fold.onView, Fold.onAssistantDelta]
  split
  · split
    · exact h
    · split <;> exact drawable_append h hkey rfl
  · split <;> exact drawable_modifyItem h _ _ fun _ hitem => hitem

theorem keeps_onToolMessage {event : AgentEvent} (hkey : Fold.subAgentKey event ≠ some "__proto__")
    (status : String) (h : Drawable v.conversation v.subAgents) :
    Drawable (Fold.onToolMessage v event status).conversation
      (Fold.onToolMessage v event status).subAgents := by
  rw [Fold.onToolMessage]
  split
  · dsimp only
    by_cases hrunning : status ≠ "running"
    · rw [if_pos hrunning]
      exact drawable_modifyItem h _ _ fun _ hitem => hitem
    · rw [if_neg hrunning]
      exact drawable_modifyItem h _ _ fun _ hitem => hitem
  · dsimp only
    split <;> exact drawable_append h hkey rfl

theorem keeps_onWorkflowMessage {event : AgentEvent}
    (hkey : Fold.subAgentKey event ≠ some "__proto__") (messageType tone : String)
    (h : Drawable v.conversation v.subAgents) :
    Drawable (Fold.onWorkflowMessage v event messageType tone).conversation
      (Fold.onWorkflowMessage v event messageType tone).subAgents := by
  rw [Fold.onWorkflowMessage]
  dsimp only
  split
  · exact drawable_append h hkey rfl
  · split
    · exact drawable_append h hkey rfl
    · split
      · exact h
      · exact drawable_append h hkey rfl

theorem keeps_onChatMessage : Keeps (Fold.onView Fold.onChatMessage) := by
  intro event hkey w h
  rw [Fold.onView, Fold.onChatMessage]
  dsimp only
  split
  · exact keeps_onToolMessage hkey _ h
  · split
    · exact keeps_onWorkflowMessage hkey _ _ h
    · split
      · next key _ hsub =>
        exact drawable_updateSubAgent h (fun e => hkey (e ▸ hsub)) event fun _ ha => ha
      · split
        · exact h
        · exact drawable_append h hkey rfl

theorem keeps_onToolStreamingUpdate : Keeps (Fold.onView Fold.onToolStreamingUpdate) := by
  intro event hkey w h
  rw [Fold.onView, Fold.onToolStreamingUpdate]
  split
  · split <;> exact drawable_append h hkey rfl
  · exact drawable_modifyItem h _ _ fun _ hitem => hitem

theorem keeps_appendTerminal (w : WebState) (text : String)
    (h : Drawable w.conversation w.subAgents) :
    Drawable (Fold.appendTerminal w text).conversation (Fold.appendTerminal w text).subAgents := by
  rw [Fold.appendTerminal]
  split
  · exact h
  · dsimp only
    split <;> exact h

theorem keeps_onFileEditPreview : Keeps (Fold.onView Fold.onFileEditPreview) := by
  intro event hkey w h
  rw [Fold.onView, Fold.onFileEditPreview]
  split
  · exact h
  · split
    · refine drawable_modifyItem ?_ _ _ ?_
      · exact h
      · exact fun _ hitem => hitem
    · exact h

theorem keeps_onContextUpdate : Keeps (Fold.onView Fold.onContextUpdate) := by
  intro event hkey w h
  rw [Fold.onView, Fold.onContextUpdate]
  split
  · next key hsub =>
    exact drawable_updateSubAgent h (fun e => hkey (e ▸ hsub)) event fun _ ha => ha
  · exact h

theorem keeps_onStatusUpdate : Keeps (Fold.onView Fold.onStatusUpdate) := by
  intro event hkey w h
  rw [Fold.onView, Fold.onStatusUpdate]
  split
  · next key hsub =>
    exact drawable_updateSubAgent h (fun e => hkey (e ▸ hsub)) event fun _ ha => ha
  · exact h

theorem keeps_addPeerMessage (event : AgentEvent) (messageId status : String)
    (h : Drawable v.conversation v.subAgents) :
    Drawable (Fold.addPeerMessage v event messageId status).conversation
      (Fold.addPeerMessage v event messageId status).subAgents := by
  have hadd : ∀ item : ConversationItem, item.toolDisplay = none →
      Drawable (v.conversation ++ [item]) v.subAgents := by
    refine fun item hitem => ⟨fun x hx => ?_, h.steps, h.keys⟩
    rcases mem_append.mp hx with hx | hx
    · exact h.items x hx
    · rw [mem_singleton.mp hx]
      exact hitem
  rw [Fold.addPeerMessage]
  split <;> exact hadd _ rfl

theorem keeps_onPeerMessage (status : String) : Keeps (Fold.onView (Fold.onPeerMessage status)) := by
  intro event hkey w h
  rw [Fold.onView, Fold.onPeerMessage]
  dsimp only
  split
  · exact keeps_addPeerMessage event _ _ h
  · split
    · exact keeps_addPeerMessage event _ _ h
    · split <;> exact drawable_modifyItem h none _ fun _ hitem => hitem

theorem keeps_onTurnStarted : Keeps (Fold.onView Fold.onTurnStarted) := by
  intro event hkey w h
  rw [Fold.onView, Fold.onTurnStarted]
  dsimp only
  split
  · split
    · exact drawable_append h hkey rfl
    · exact h
  · split
    · exact h
    · split
      · refine drawable_append ?_ hkey ?_
        · exact h
        · rfl
      · exact h

/-- **Every handler** of the web client keeps the state drawable. -/
theorem handlers_keep {name : String} {j : Fold.Handler} (hmem : (name, j) ∈ Fold.HANDLERS) :
    Keeps j := by
  have hall : ∀ q ∈ Fold.HANDLERS, Keeps q.2 := by
    have hignore : Keeps (Fold.onView Fold.ignore) := fun _ _ _ h => h
    simp only [Fold.HANDLERS, forall_mem_cons]
    refine ⟨keeps_onAssistantDelta _, keeps_onAssistantDelta _, keeps_onChatMessage,
      keeps_onToolStreamingUpdate, fun event _ w h => ?_,
      fun event _ w h => keeps_appendTerminal w _ h, hignore, hignore, fun event _ w h => ?_,
      keeps_onFileEditPreview, keeps_onContextUpdate, fun event _ w h => ?_,
      keeps_onStatusUpdate, keeps_onStatusUpdate, keeps_onStatusUpdate, keeps_onTurnStarted,
      fun event _ w h => ?_, fun event _ w h => ?_, fun _ _ _ h => h,
      fun event hkey w h =>
        drawable_append (v := { w.toView with recordingTruncated := true }) h hkey rfl,
      fun event hkey w h => ?_, hignore, hignore,
      hignore, fun event _ w h => ?_, fun _ _ _ h => h, keeps_onPeerMessage _,
      keeps_onPeerMessage _, fun _ hmem => nomatch hmem⟩
    · rw [Fold.onTerminalCommand]
      split
      · exact keeps_appendTerminal w _ h
      · exact h
    · rw [Fold.onView, Fold.onLogMessage]
      split <;> exact h
    · rw [Fold.onView, Fold.onCompactionStatus]
      split <;> exact h
    · rw [Fold.onView, Fold.onTurnEnded]
      split <;> exact h
    · rw [Fold.onView, Fold.onBrowserLaunched]
      split <;> exact h
    · rw [Fold.onView, Fold.onSystemMessage]
      split
      · exact drawable_append h hkey rfl
      · exact h
    · rw [Fold.onView, Fold.onControlRequested]
      split <;> exact h
  exact hall _ hmem

theorem drawable_fold {event : AgentEvent} (hkey : Fold.subAgentKey event ≠ some "__proto__")
    {w w' : WebState} (h : Drawable w.conversation w.subAgents)
    (hfold : Fold.fold w event = .ok w') : Drawable w'.conversation w'.subAgents := by
  obtain ⟨v, hv, hfold⟩ := bind_eq_ok.mp hfold
  have hadvance : v.conversation = w.conversation ∧ v.subAgents = w.subAgents := by
    rw [Fold.advance] at hv
    split at hv
    · split at hv
      · cases hv
      · cases hv
        exact ⟨rfl, rfl⟩
    · cases hv
      exact ⟨rfl, rfl⟩
  have hdrawable : Drawable v.conversation v.subAgents := by
    rw [hadvance.1, hadvance.2]
    exact h
  split at hfold
  · next j hj =>
    cases hfold
    exact handlers_keep (Assoc.mem_of_get? hj) event hkey _ hdrawable
  · cases hfold
    exact hdrawable

theorem drawable_foldlM {events : List AgentEvent}
    (hkeys : ∀ e ∈ events, Fold.subAgentKey e ≠ some "__proto__") {w w' : WebState}
    (h : Drawable w.conversation w.subAgents) (hfold : events.foldlM Fold.fold w = .ok w') :
    Drawable w'.conversation w'.subAgents := by
  induction events generalizing w with
  | nil =>
    cases hfold
    exact h
  | cons e events ih =>
    rw [foldlM_cons] at hfold
    obtain ⟨w₁, hstep, hfold⟩ := bind_eq_ok.mp hfold
    exact ih (fun e he => hkeys e (mem_cons_of_mem _ he))
      (drawable_fold (hkeys e mem_cons_self) h hstep) hfold

/-- **The two projections agree** on every sequence of events that are alike: they raise the same
error, or draw the same. -/
theorem replay_agree (events : List AgentEvent)
    (hknown : ∀ e ∈ events, Known e ∧ e.subAgentInfo ≠ some [])
    (halike : ∀ e ∈ events, Alike e) :
    (Projection.replay events).map Projection.toDict = (Fold.replay events).map Fold.toDict := by
  have hsound : Sound ({} : PresentationState).buffer := ⟨rfl, Nat.zero_le _⟩
  have hweb : (Projection.replay events).map web = Fold.replay events :=
    foldlM_agree (fun e he => ⟨halike e he, (hknown e he).2, (hknown e he).1⟩) hsound
  cases hreplay : Projection.replay events with
  | error error =>
    rw [← hweb, hreplay]
    rfl
  | ok s =>
    rw [hreplay] at hweb
    have hkeys : ∀ e ∈ events, Fold.subAgentKey e ≠ some "__proto__" := by
      intro e he
      rw [subAgentKey_eq (halike e he) (hknown e he).2]
      exact (halike e he).key
    have hempty : Drawable [] [] :=
      ⟨fun _ h => absurd h not_mem_nil, fun _ h => absurd h not_mem_nil,
        not_mem_nil⟩
    have hdrawable : Drawable s.conversation s.subAgents :=
      drawable_foldlM (w := {}) hkeys hempty hweb.symm
    rw [← hweb]
    exact congrArg Except.ok (toDict_eq hdrawable).symm

/-- A tool is called; what it is shown with, if anything. -/
def toolCall (display : Dict) : AgentEvent where
  uuid := "u"
  eventType := "chat_message"
  sender := "coder"
  content := [("message_type", .str "tool_call"), ("tool_call_id", .str "c"),
    ("tool_description", .str "bash"), ("text", .str "ls")] ++ display
  isStreaming := false
  subAgentInfo := none
  seq := some 1
  elapsedMs := 5
  artifacts := []

theorem replay_agree_toolCall :
    (Projection.replay [toolCall []]).map Projection.toDict =
      (Fold.replay [toolCall []]).map Fold.toDict := by
  refine replay_agree [toolCall []] (by decide) ?_
  rw [forall_mem_singleton]
  refine ⟨by decide, by decide, by decide, by decide, by decide, by decide, ?_, by decide,
    by decide, nofun, by decide⟩
  intro _ key hkey name hname
  rcases mem_pair.mp hkey with rfl | rfl
  · cases hname
    decide
  · cases hname

/-- The display metadata of a tool is drawn by one projection only. -/
theorem toolDisplay_differs :
    ¬ ∀ events : List AgentEvent,
      (∀ e ∈ events, Known e ∧ e.subAgentInfo ≠ some [] ∧
        ∀ key ∈ textFields e.eventType, isText (get? e.content key)) →
      (Projection.replay events).map Projection.toDict =
        (Fold.replay events).map Fold.toDict := by
  intro h
  have hsame := h [toolCall [("tool_display", .obj [("command", .str "ls")])]]
    (by rw [forall_mem_singleton]; decide)
  revert hsame
  decide

end KolegaCode.Presentation
