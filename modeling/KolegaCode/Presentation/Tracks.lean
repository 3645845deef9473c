import KolegaCode.Presentation.Segments

/-!
# Presentation — segments through a replay

`segmentAfter` is what deltas make of a segment, by themselves; `replay_tracks` says that the
projection shows just that, whatever other events are folded between them.
-/

namespace KolegaCode.Presentation

open List Option
open Json (Dict get?)
open Recording (AgentEvent)
open Projection (PresentationState)

/-! ### One segment -/

/-- The items of a segment: all are complete, except the last one while it is open. -/
structure Segment where
  completed : Nat
  isOpen : Bool
deriving DecidableEq

namespace Segment

def empty : Segment := ⟨0, false⟩

/-- A delta without text opens nothing. -/
def delta (s : Segment) (text : String) (complete : Bool) : Segment :=
  if s.isOpen = false ∧ text = "" then s
  else if complete then ⟨s.completed + 1, false⟩
  else ⟨s.completed, true⟩

/-- The completion flags of the items. -/
def flags (s : Segment) : List Bool :=
  List.replicate s.completed true ++ if s.isOpen then [false] else []

/-- Text that is gathered first makes the same segment, unless it is a completion that is lost. -/
theorem delta_gathered (s : Segment) (gathered text : String) (complete : Bool)
    (h : complete = true → gathered = "" → text = "" → s.isOpen = false) :
    (if gathered = "" then s else s.delta gathered false).delta text complete =
      if gathered ++ text = "" then s else s.delta (gathered ++ text) complete := by
  obtain ⟨n, isOpen⟩ := s
  by_cases hgathered : gathered = ""
  · rw [if_pos hgathered, hgathered, String.empty_append]
    by_cases htext : text = ""
    · rw [if_pos htext, htext, delta]
      cases isOpen with
      | false => rfl
      | true =>
        cases complete with
        | false => rfl
        | true => exact absurd (h rfl hgathered htext) (by simp)
    · rw [if_neg htext]
  · have hne : gathered ++ text ≠ "" := by
      intro hempty
      exact hgathered (String.append_eq_empty_iff.mp hempty).1
    rw [if_neg hgathered, if_neg hne]
    simp [delta, hgathered, hne]

end Segment

/-- What groups the deltas of a segment. -/
def segmentName (event : AgentEvent) : String × String := (event.eventType, event.uuid)

def deltaText (event : AgentEvent) : String := Projection.textOf event ["text"]

def deltaComplete (event : AgentEvent) : Bool :=
  (get? event.content "complete").any Session.truthy

def segmentAfter (name : String × String) (events : List AgentEvent) : Segment :=
  (events.filter fun event => segmentName event = name).foldl
    (fun s event => s.delta (deltaText event) (deltaComplete event)) .empty

theorem segmentAfter_concat (name : String × String) (events : List AgentEvent)
    (event : AgentEvent) :
    segmentAfter name (events ++ [event]) =
      if segmentName event = name then
        (segmentAfter name events).delta (deltaText event) (deltaComplete event)
      else segmentAfter name events := by
  rw [segmentAfter, filter_append, foldl_append]
  by_cases h : segmentName event = name
  · rw [filter_cons_of_pos (by simpa using h), if_pos h]
    rfl
  · rw [filter_cons_of_neg (by simpa using h), if_neg h]
    rfl

def kindOf (event : AgentEvent) : String :=
  if event.eventType = "thinking_delta" then "thinking" else "assistant"

/-- The key of the segment among the open streams. -/
def streamKey (event : AgentEvent) : String :=
  kindOf event ++ ":" ++ (Projection.subAgentKey event).getD "" ++ ":" ++ event.uuid

/-- The mark of an item of the segment. -/
def segmentMark (event : AgentEvent) (complete : Bool) : Mark :=
  ⟨kindOf event, some event.uuid, complete⟩

/-- The mark is one of the segment's. -/
def ofSegment (event : AgentEvent) (m : Mark) : Bool :=
  m.kind = kindOf event && m.streamId = some event.uuid

/-- The completion flags of the items of the event's segment, in order. -/
def View.segmentFlags (v : View) (event : AgentEvent) : List Bool :=
  ((v.marks (Projection.subAgentKey event)).filter (ofSegment event)).map Mark.complete

/-- Deltas of one uuid are deltas of one agent, and no uuid has a separator in it. -/
structure Apart (U : AgentEvent → Prop) : Prop where
  agent : ∀ e e', U e → U e' → isDelta e → isDelta e' → e.uuid = e'.uuid →
    e.subAgentInfo = e'.subAgentInfo
  uuid : ∀ e, U e → isDelta e → ':' ∉ e.uuid.toList ∧ '|' ∉ e.uuid.toList

variable {e e' event : AgentEvent} {v v' : View} {key : Option String} {index : Nat} {m : Mark}
  {seg : Segment} {s s' : PresentationState} {events : List AgentEvent}

theorem kindOf_eq_of_type (h : isDelta e) (h' : isDelta e') (hkind : kindOf e = kindOf e') :
    e.eventType = e'.eventType := by
  simp only [isDelta, Bool.or_eq_true, decide_eq_true_eq] at h h'
  rcases h with h | h <;> rcases h' with h' | h' <;> simp [kindOf, h, h'] at hkind ⊢

theorem ofSegment_segmentMark (e : AgentEvent) (complete : Bool) :
    ofSegment e (segmentMark e complete) = true := by
  simp [ofSegment, segmentMark]

theorem segmentName_eq_of_mark (h : isDelta e) (h' : isDelta e') {complete : Bool}
    (hmark : ofSegment e' (segmentMark e complete) = true) : segmentName e = segmentName e' := by
  rw [ofSegment, Bool.and_eq_true, decide_eq_true_eq, decide_eq_true_eq] at hmark
  have huuid : e.uuid = e'.uuid := Option.some.inj hmark.2
  rw [segmentName, segmentName, kindOf_eq_of_type h h' hmark.1, huuid]

theorem split_last {α : Type} {x : α} {a a' u u' : List α} (hu : x ∉ u) (hu' : x ∉ u')
    (h : a ++ x :: u = a' ++ x :: u') : a = a' ∧ u = u' := by
  rcases append_eq_append_iff.mp h with ⟨c, ha, hc⟩ | ⟨c, ha, hc⟩
  · cases c with
    | nil =>
      rw [append_nil] at ha
      rw [nil_append] at hc
      exact ⟨ha.symm, (List.cons.inj hc).2⟩
    | cons y c =>
      refine absurd ?_ hu
      rw [(List.cons.inj hc).2]
      exact mem_append_right _ mem_cons_self
  · cases c with
    | nil =>
      rw [append_nil] at ha
      rw [nil_append] at hc
      exact ⟨ha, (List.cons.inj hc).2.symm⟩
    | cons y c =>
      refine absurd ?_ hu'
      rw [(List.cons.inj hc).2]
      exact mem_append_right _ mem_cons_self

variable {U : AgentEvent → Prop}

theorem subAgentKey_eq_of_info (h : e.subAgentInfo = e'.subAgentInfo) :
    Projection.subAgentKey e = Projection.subAgentKey e' := by
  rw [Projection.subAgentKey, Projection.subAgentKey, h]

theorem Apart.subAgentKey_eq (apart : Apart U) (he : U e) (he' : U e') (h : isDelta e)
    (h' : isDelta e') (hname : segmentName e = segmentName e') :
    Projection.subAgentKey e = Projection.subAgentKey e' :=
  subAgentKey_eq_of_info (apart.agent e e' he he' h h' (congrArg Prod.snd hname))

theorem Apart.streamKey_eq (apart : Apart U) (he : U e) (he' : U e') (h : isDelta e)
    (h' : isDelta e') (hname : segmentName e = segmentName e') : streamKey e = streamKey e' := by
  rw [streamKey, streamKey, apart.subAgentKey_eq he he' h h' hname, kindOf, kindOf,
    show e.eventType = e'.eventType from congrArg Prod.fst hname,
    show e.uuid = e'.uuid from congrArg Prod.snd hname]

theorem Apart.segmentName_eq (apart : Apart U) (he : U e) (he' : U e') (h : isDelta e)
    (h' : isDelta e') (hkey : streamKey e = streamKey e') : segmentName e = segmentName e' := by
  have hlist := congrArg String.toList hkey
  simp only [streamKey, String.toList_append, append_assoc] at hlist
  have hcolon : (":" : String).toList = [':'] := rfl
  simp only [hcolon, singleton_append] at hlist
  have hsplit := @split_last _ _
    ((kindOf e).toList ++ ':' :: ((Projection.subAgentKey e).getD "").toList)
    ((kindOf e').toList ++ ':' :: ((Projection.subAgentKey e').getD "").toList) _ _
    (apart.uuid e he h).1 (apart.uuid e' he' h').1 (by simpa using hlist)
  have huuid : e.uuid = e'.uuid := String.toList_inj.mp hsplit.2
  have hagent : Projection.subAgentKey e = Projection.subAgentKey e' :=
    subAgentKey_eq_of_info (apart.agent e e' he he' h h' huuid)
  have hkind : kindOf e = kindOf e' := by
    have hfront := hsplit.1
    rw [hagent] at hfront
    exact String.toList_inj.mp (append_cancel_right hfront)
  rw [segmentName, segmentName, kindOf_eq_of_type h h' hkind, huuid]

/-! ### Marks through a delta -/

/-- Where there is a mark, the sequence that is targeted is the one with the marks. -/
theorem items_of_marks (h : (v.marks key)[index]? = some m) :
    (v.items key).map markOf = v.marks key := by
  cases key with
  | none => rfl
  | some k =>
    cases hget : v.subAgents.get? k with
    | none => simp [View.marks, hget] at h
    | some activity => simp [View.items, View.marks, hget]

theorem map_modify {items : List ConversationItem} {f : ConversationItem → ConversationItem}
    {g : Mark → Mark} (hfg : ∀ item, markOf (f item) = g (markOf item)) (index : Nat) :
    (items.modify index f).map markOf = (items.map markOf).modify index g := by
  induction items generalizing index with
  | nil => simp
  | cons item items ih =>
    cases index with
    | zero => simp [hfg]
    | succ index => simp [ih]

theorem marks_modifyItem (h : (v.marks key)[index]? = some m)
    {f : ConversationItem → ConversationItem} {g : Mark → Mark}
    (hfg : ∀ item, markOf (f item) = g (markOf item)) (key' : Option String) :
    (v.modifyItem key index f).marks key' =
      if key' = key then (v.marks key).modify index g else v.marks key' := by
  have hmap := fun items => @map_modify items _ _ hfg index
  rw [View.modifyItem]
  cases key with
  | none =>
    cases key' with
    | none => exact hmap v.conversation
    | some k => rfl
  | some k =>
    cases hget : v.subAgents.get? k with
    | none => simp [View.marks, hget] at h
    | some activity =>
      have hset : v.setItems (some k) ((v.items (some k)).modify index f) =
          { v with
            subAgents := v.subAgents.set k
              { activity with steps := activity.steps.modify index f } } := by
        simp only [View.setItems, View.items, bind_some, hget]
      rw [hset, marks_set_subAgents]
      split
      · next hkey =>
        simp only [View.marks, hget, Option.map_some, getD_some, hmap]
      · rfl

theorem streams_modifyItem (v : View) (key : Option String) (index : Nat)
    (f : ConversationItem → ConversationItem) : (v.modifyItem key index f).streams = v.streams := by
  rw [View.modifyItem]
  cases key with
  | none => rfl
  | some k =>
    rw [View.setItems]
    split <;> rfl

theorem updateSubAgent_spec (v : View) (key : String) (event : AgentEvent)
    (f : SubAgentActivity → SubAgentActivity) (g : List Mark → List Mark)
    (hf : ∀ a, (f a).steps.map markOf = g (a.steps.map markOf)) :
    (Projection.updateSubAgent v key event f).streams = v.streams ∧
      ∀ key', (Projection.updateSubAgent v key event f).marks key' =
        if key' = some key then g (v.marks (some key)) else v.marks key' := by
  have hcreate : (Projection.subAgent v key event).streams = v.streams ∧
      (∀ key', (Projection.subAgent v key event).marks key' = v.marks key') ∧
      ∃ activity, (Projection.subAgent v key event).subAgents.get? key = some activity := by
    rw [Projection.subAgent]
    split
    · next activity hget => exact ⟨rfl, fun _ => rfl, activity, hget⟩
    · next hnone =>
      refine ⟨rfl, fun key' => ?_, _, Assoc.get?_set_self _ _ _⟩
      rw [marks_set_subAgents]
      split
      · next hkey =>
        rw [hkey]
        simp [View.marks, hnone]
      · rfl
  obtain ⟨hstreams, hmarks, activity, hget⟩ := hcreate
  rw [Projection.updateSubAgent]
  simp only [hget]
  refine ⟨hstreams, fun key' => ?_⟩
  rw [marks_set_subAgents]
  split
  · rw [hf, ← hmarks (some key)]
    simp [View.marks, hget]
  · exact hmarks key'

theorem append_spec (v : View) (event : AgentEvent) (item : ConversationItem) :
    (Projection.append v item event).streams = v.streams ∧
      ∀ key', (Projection.append v item event).marks key' =
        if key' = Projection.subAgentKey event then
          v.marks (Projection.subAgentKey event) ++ [markOf item]
        else v.marks key' := by
  rw [Projection.append]
  cases Projection.subAgentKey event with
  | some key =>
    refine updateSubAgent_spec v key event _ (fun ms => ms ++ [markOf item]) fun a => ?_
    rw [map_append]
    rfl
  | none =>
    refine ⟨rfl, fun key' => ?_⟩
    cases key' with
    | none =>
      simp only [View.marks, map_append, if_true]
      rfl
    | some k => rfl

theorem indexOf_append (v : View) (event : AgentEvent) (item : ConversationItem) :
    ((Projection.append v item event).marks (Projection.subAgentKey event))[
      Projection.indexOf (Projection.append v item event) event]? = some (markOf item) := by
  have hmarks := (append_spec v event item).2 (Projection.subAgentKey event)
  rw [if_pos rfl] at hmarks
  have hlast : ((Projection.append v item event).marks (Projection.subAgentKey event))[
      (v.marks (Projection.subAgentKey event)).length]? = some (markOf item) := by
    rw [hmarks]
    simp
  have hlength := congrArg List.length (items_of_marks hlast)
  rw [hmarks, length_map, length_append, length_singleton] at hlength
  rw [Projection.indexOf, hlength, Nat.add_sub_cancel]
  exact hlast

/-! ### What the projection shows of a segment -/

structure Shows (v : View) (event : AgentEvent) (seg : Segment) : Prop where
  flags : v.segmentFlags event = seg.flags
  closed : seg.isOpen = false → v.streams.get? (streamKey event) = none
  opened : seg.isOpen = true → ∃ index, v.streams.get? (streamKey event) = some index ∧
    (v.marks (Projection.subAgentKey event))[index]? = some (segmentMark event false)

/-- What is shown of a segment depends on its own marks and its own stream. -/
theorem Shows.frame (h : Shows v event seg)
    (hfilter : (v'.marks (Projection.subAgentKey event)).filter (ofSegment event) =
      (v.marks (Projection.subAgentKey event)).filter (ofSegment event))
    (hget : ∀ (index : Nat) (m : Mark), ofSegment event m = true →
      (v.marks (Projection.subAgentKey event))[index]? = some m →
      (v'.marks (Projection.subAgentKey event))[index]? = some m)
    (hstream : v'.streams.get? (streamKey event) = v.streams.get? (streamKey event)) :
    Shows v' event seg := by
  refine ⟨?_, fun hclosed => hstream.trans (h.closed hclosed), fun hopen => ?_⟩
  · rw [View.segmentFlags, hfilter]
    exact h.flags
  · obtain ⟨index, hindex, hmark⟩ := h.opened hopen
    exact ⟨index, hstream.trans hindex, hget index _ (ofSegment_segmentMark event false) hmark⟩

theorem getElem?_append_some {α : Type} {xs : List α} {x : α} (h : xs[index]? = some x)
    (ys : List α) : (xs ++ ys)[index]? = some x := by
  rw [getElem?_append_left (List.getElem?_eq_some_iff.mp h).1]
  exact h

theorem Shows.neutral (h : Shows v event seg) (neutral : Neutral v v') : Shows v' event seg := by
  obtain ⟨added, hmarks, hadded⟩ := neutral.marks (Projection.subAgentKey event)
  have hnone : added.filter (ofSegment event) = [] := by
    refine filter_eq_nil_iff.mpr fun m hm => ?_
    simp [ofSegment, hadded m hm]
  refine h.frame ?_ ?_ (by rw [neutral.streams])
  · rw [hmarks, filter_append, hnone, append_nil]
  · intro index m _ hget
    rw [hmarks]
    exact getElem?_append_some hget added

/-- The streams after a delta: its own is open at the index unless it is complete. -/
def StreamsAfter (v v' : View) (event : AgentEvent) (index : Nat) : Prop :=
  ∀ key, v'.streams.get? key =
    if key = streamKey event then if deltaComplete event then none else some index
    else v.streams.get? key

/-- The marks after a delta: those of its agent are replaced. -/
def MarksAfter (v v' : View) (event : AgentEvent) (ms : List Mark) : Prop :=
  ∀ key, v'.marks key = if key = Projection.subAgentKey event then ms else v.marks key

theorem marks_setStreams (v : View) (streams : Assoc String Nat) (key : Option String) :
    ({ v with streams := streams } : View).marks key = v.marks key := by
  cases key <;> rfl

/-- **One delta**, by what is shown of its segment. -/
theorem onAssistantDelta_cases (h : Shows v event seg)
    (hv' : Projection.onAssistantDelta (kindOf event) v event = v') :
    (seg.isOpen = false ∧ deltaText event = "" ∧ v' = v) ∨
    (seg.isOpen = false ∧ deltaText event ≠ "" ∧ ∃ index,
      MarksAfter v v' event (v.marks (Projection.subAgentKey event) ++
        [segmentMark event (deltaComplete event)]) ∧
      (v'.marks (Projection.subAgentKey event))[index]? =
        some (segmentMark event (deltaComplete event)) ∧
      StreamsAfter v v' event index) ∨
    (seg.isOpen = true ∧ ∃ index,
      (v.marks (Projection.subAgentKey event))[index]? = some (segmentMark event false) ∧
      MarksAfter v v' event ((v.marks (Projection.subAgentKey event)).modify index
        fun m => { m with complete := deltaComplete event }) ∧
      StreamsAfter v v' event index) := by
  subst hv'
  have hcomplete : (get? event.content "complete").any Session.truthy = deltaComplete event := rfl
  have htext : Projection.textOf event ["text"] = deltaText event := rfl
  have hkey : kindOf event ++ ":" ++ (Projection.subAgentKey event).getD "" ++ ":" ++ event.uuid =
    streamKey event := rfl
  simp only [Projection.onAssistantDelta, hcomplete, htext, hkey]
  cases hopen : seg.isOpen with
  | false =>
    rw [h.closed hopen]
    by_cases hempty : deltaText event = ""
    · exact .inl ⟨rfl, hempty, by simp [hempty]⟩
    · refine .inr (.inl ⟨rfl, hempty, Projection.indexOf (Projection.append v
        { kind := kindOf event, text := deltaText event, complete := deltaComplete event,
          streamId := some event.uuid } event) event, ?_⟩)
      simp only [Option.bind_none, if_neg hempty]
      obtain ⟨hstreams, hmarks⟩ := append_spec v event
        { kind := kindOf event, text := deltaText event, complete := deltaComplete event,
          streamId := some event.uuid }
      have hindex := indexOf_append v event
        { kind := kindOf event, text := deltaText event, complete := deltaComplete event,
          streamId := some event.uuid }
      refine ⟨?_, ?_, ?_⟩
      · intro key
        split <;> simp only [marks_setStreams] <;> exact hmarks key
      · split <;> simp only [marks_setStreams] <;> exact hindex
      · intro key
        by_cases hc : deltaComplete event = true
        · rw [if_pos hc, if_pos hc]
          simp only [Assoc.get?_erase, Assoc.get?_set, hstreams]
          split <;> rfl
        · rw [if_neg hc, if_neg hc]
          simp only [Assoc.get?_set, hstreams]
  | true =>
    obtain ⟨index, hindex, hmark⟩ := h.opened hopen
    refine .inr (.inr ⟨rfl, index, hmark, ?_⟩)
    have hitem : ∃ item, Projection.resolve v event index = some item := by
      have hmap := items_of_marks hmark
      rw [← hmap, getElem?_map] at hmark
      obtain ⟨item, hitem, -⟩ := map_eq_some_iff.mp hmark
      exact ⟨item, hitem⟩
    obtain ⟨item, hitem⟩ := hitem
    simp only [hindex, bind_some, hitem, Option.map_some]
    have hmarks := marks_modifyItem hmark
      (f := fun target => { target with
        text := target.text ++ deltaText event, complete := deltaComplete event })
      (g := fun m => { m with complete := deltaComplete event }) (fun _ => rfl)
    refine ⟨?_, ?_⟩
    · intro key
      split
      · rw [marks_setStreams]
        exact hmarks key
      · exact hmarks key
    · intro key
      by_cases hc : deltaComplete event = true
      · rw [if_pos hc, if_pos hc]
        simp only [Assoc.get?_erase, streams_modifyItem]
      · rw [if_neg hc, if_neg hc, streams_modifyItem]
        split
        · next heq => rw [heq, hindex]
        · rfl

theorem modify_filter_of_not {ms : List Mark} {p : Mark → Bool} {g : Mark → Mark}
    (hindex : ms[index]? = some m) (hm : p m = false) (hg : p (g m) = false) :
    (ms.modify index g).filter p = ms.filter p := by
  obtain ⟨hlt, hm'⟩ := List.getElem?_eq_some_iff.mp hindex
  obtain ⟨before, m', after, hms, hlength, hmodify⟩ := exists_of_modify g hlt
  have hsame : m' = m := by
    subst hms hlength
    simpa using hindex
  rw [hmodify, hms, filter_append, filter_append, hsame,
    filter_cons_of_neg (by simp [hg]), filter_cons_of_neg (by simp [hm])]

theorem modify_flags {ms : List Mark} {p : Mark → Bool} {n : Nat} {complete : Bool}
    (hindex : ms[index]? = some m) (hm : p m = true) (hopen : m.complete = false)
    (hg : p { m with complete := complete } = true)
    (hflags : (ms.filter p).map Mark.complete = List.replicate n true ++ [false]) :
    ((ms.modify index fun m => { m with complete := complete }).filter p).map Mark.complete =
      List.replicate n true ++ [complete] := by
  obtain ⟨hlt, hm'⟩ := List.getElem?_eq_some_iff.mp hindex
  obtain ⟨before, m', after, hms, hlength, hmodify⟩ :=
    exists_of_modify (fun m : Mark => { m with complete := complete }) hlt
  have hsame : m' = m := by
    subst hms hlength
    simpa using hindex
  subst hsame
  rw [hms, filter_append, filter_cons_of_pos hm, map_append, map_cons, hopen]
    at hflags
  rw [hmodify, filter_append, filter_cons_of_pos hg, map_append, map_cons]
  -- the open item is the only one with a false flag
  rcases append_eq_append_iff.mp hflags with ⟨c, hc, hrest⟩ | ⟨c, hc, hrest⟩
  · cases c with
    | nil =>
      rw [append_nil] at hc
      rw [nil_append] at hrest
      rw [← hc, (List.cons.inj hrest).2]
    | cons flag c =>
      have hmem : false ∈ List.replicate n true := by
        rw [hc, ← (List.cons.inj hrest).1]
        exact mem_append_right _ mem_cons_self
      exact absurd (eq_of_mem_replicate hmem) Bool.false_ne_true
  · cases c with
    | nil =>
      rw [append_nil] at hc
      rw [nil_append] at hrest
      rw [hc, (List.cons.inj hrest).2]
    | cons flag c =>
      have := (List.cons.inj hrest).2
      simp at this

theorem shows_after {n : Nat}
    (hflags : v.segmentFlags event = List.replicate n true ++ [deltaComplete event])
    (hstream : v.streams.get? (streamKey event) =
      if deltaComplete event then none else some index)
    (hindex : (v.marks (Projection.subAgentKey event))[index]? =
      some (segmentMark event (deltaComplete event))) :
    Shows v event (if deltaComplete event then ⟨n + 1, false⟩ else ⟨n, true⟩) := by
  cases hc : deltaComplete event with
  | true =>
    rw [hc] at hflags hstream
    refine ⟨?_, fun _ => hstream, fun hopen => absurd hopen Bool.false_ne_true⟩
    rw [hflags, if_pos rfl, Segment.flags, replicate_succ']
    simp
  | false =>
    rw [hc] at hflags hstream hindex
    exact ⟨hflags, fun hclosed => absurd hclosed.symm Bool.false_ne_true,
      fun _ => ⟨index, hstream, hindex⟩⟩

theorem shows_delta (h : Shows v event seg) :
    Shows (Projection.onAssistantDelta (kindOf event) v event) event
      (seg.delta (deltaText event) (deltaComplete event)) := by
  have hflags := h.flags
  rcases onAssistantDelta_cases h rfl with ⟨hclosed, hempty, hv'⟩ |
      ⟨hclosed, htext, index, hmarks, hindex, hstreams⟩ | ⟨hopen, index, hindex, hmarks, hstreams⟩
  · rw [hv', Segment.delta, if_pos ⟨hclosed, hempty⟩]
    exact h
  · have hnew := (hmarks (Projection.subAgentKey event)).trans (if_pos rfl)
    rw [Segment.delta, if_neg (fun hboth => htext hboth.2)]
    refine shows_after ?_ ((hstreams _).trans (if_pos rfl)) hindex
    rw [Segment.flags, hclosed] at hflags
    rw [View.segmentFlags, hnew, filter_append, map_append]
    rw [View.segmentFlags] at hflags
    rw [hflags, filter_cons_of_pos (ofSegment_segmentMark event _)]
    simp [segmentMark]
  · have hnew := (hmarks (Projection.subAgentKey event)).trans (if_pos rfl)
    rw [Segment.delta, if_neg (fun hboth => by simp [hopen] at hboth)]
    refine shows_after ?_ ((hstreams _).trans (if_pos rfl)) ?_
    · rw [Segment.flags, hopen] at hflags
      rw [View.segmentFlags, hnew]
      exact modify_flags hindex (ofSegment_segmentMark event false) rfl
        (ofSegment_segmentMark event _) hflags
    · rw [hnew, getElem?_modify, hindex]
      simp [segmentMark]

theorem shows_other {other : AgentEvent} {seg' : Segment} (h : Shows v event seg)
    (h' : Shows v other seg')
    (hmark : ∀ complete, ofSegment other (segmentMark event complete) = false)
    (hkey : streamKey other ≠ streamKey event) :
    Shows (Projection.onAssistantDelta (kindOf event) v event) other seg' := by
  rcases onAssistantDelta_cases h rfl with ⟨-, -, hv'⟩ |
      ⟨-, -, index, hmarks, -, hstreams⟩ | ⟨-, index, hindex, hmarks, hstreams⟩
  · rw [hv']
    exact h'
  · refine h'.frame ?_ ?_ ((hstreams _).trans (if_neg hkey))
    · rw [hmarks]
      split
      · next hagent =>
        rw [filter_append, filter_cons_of_neg (by simp [hmark]), hagent]
        exact append_nil _
      · rfl
    · intro index' m _ hget
      rw [hmarks]
      split
      · next hagent => exact getElem?_append_some (hagent ▸ hget) _
      · exact hget
  · refine h'.frame ?_ ?_ ((hstreams _).trans (if_neg hkey))
    · rw [hmarks]
      split
      · next hagent =>
        rw [hagent]
        exact modify_filter_of_not hindex (hmark false) (hmark _)
      · rfl
    · intro index' m hm hget
      rw [hmarks]
      split
      · next hagent =>
        have hne : index ≠ index' := by
          rintro rfl
          rw [hagent, hindex] at hget
          cases hget
          simp [hmark] at hm
        rw [hagent] at hget
        rw [getElem?_modify, hget]
        simp [hne]
      · exact hget

/-- What is shown is the same for every delta of the segment. -/
theorem Shows.of_name (apart : Apart U) (h : Shows v e seg) (he : U e) (he' : U e')
    (hdelta : isDelta e) (hdelta' : isDelta e') (hname : segmentName e = segmentName e') :
    Shows v e' seg := by
  have hkind : kindOf e = kindOf e' := by
    rw [kindOf, kindOf, show e.eventType = e'.eventType from congrArg Prod.fst hname]
  have huuid : e.uuid = e'.uuid := congrArg Prod.snd hname
  have hagent := apart.subAgentKey_eq he he' hdelta hdelta' hname
  have hstream := apart.streamKey_eq he he' hdelta hdelta' hname
  have hof : ofSegment e = ofSegment e' := by
    funext m
    rw [ofSegment, ofSegment, hkind, huuid]
  refine ⟨?_, fun hclosed => hstream ▸ h.closed hclosed, fun hopen => ?_⟩
  · rw [View.segmentFlags, ← hagent, ← hof]
    exact h.flags
  · obtain ⟨index, hindex, hmark⟩ := h.opened hopen
    refine ⟨index, hstream ▸ hindex, ?_⟩
    rw [← hagent, hmark, segmentMark, segmentMark, hkind, huuid]

/-! ### A replay -/

def Tracks (U : AgentEvent → Prop) (v : View) (events : List AgentEvent) : Prop :=
  ∀ e, U e → isDelta e → Shows v e (segmentAfter (segmentName e) events)

theorem neutral_advance (h : Projection.advance v event = .ok v') : Neutral v v' := by
  rw [Projection.advance] at h
  split at h
  · split at h
    · cases h
    · cases h
      exact .of_eq rfl rfl rfl
  · cases h
    exact .of_eq rfl rfl rfl

/-- **One event.** -/
theorem tracks_fold (apart : Apart U) (hU : U event) (h : Tracks U s.toView events)
    (hfold : Projection.fold s event = .ok s') : Tracks U s'.toView (events ++ [event]) := by
  obtain ⟨v, hv, hfold⟩ := bind_eq_ok.mp hfold
  have hadvanced : Tracks U v events := fun e he hdelta => (h e he hdelta).neutral (neutral_advance hv)
  intro e he hdelta
  have hshows := hadvanced e he hdelta
  rw [segmentAfter_concat]
  by_cases hevent : isDelta event = true
  · have hself := hadvanced event hU hevent
    have hs' : s'.toView = Projection.onAssistantDelta (kindOf event) v event := by
      rw [isDelta, Bool.or_eq_true, decide_eq_true_eq, decide_eq_true_eq] at hevent
      rcases hevent with htype | htype
      · have hget : Projection.HANDLERS.get? event.eventType =
            some (Projection.onView (Projection.onAssistantDelta "assistant")) := by
          rw [htype]
          rfl
        have hkind : kindOf event = "assistant" := by simp [kindOf, htype]
        simp only [hget, Projection.onView] at hfold
        cases hfold
        rw [hkind]
      · have hget : Projection.HANDLERS.get? event.eventType =
            some (Projection.onView (Projection.onAssistantDelta "thinking")) := by
          rw [htype]
          rfl
        have hkind : kindOf event = "thinking" := by simp [kindOf, htype]
        simp only [hget, Projection.onView] at hfold
        cases hfold
        rw [hkind]
    rw [hs']
    by_cases hname : segmentName event = segmentName e
    · rw [if_pos hname, ← hname]
      exact (shows_delta hself).of_name apart hU he hevent hdelta hname
    · rw [if_neg hname]
      refine shows_other hself hshows (fun complete => ?_) fun hkey => ?_
      · rw [← Bool.not_eq_true]
        exact fun hmark => hname (segmentName_eq_of_mark hevent hdelta hmark)
      · exact hname (apart.segmentName_eq hU he hevent hdelta hkey.symm)
  · have hname : segmentName event ≠ segmentName e := by
      intro hname
      refine hevent ?_
      rw [isDelta, show event.eventType = e.eventType from congrArg Prod.fst hname]
      exact hdelta
    rw [if_neg hname]
    refine hshows.neutral ?_
    rw [isDelta, Bool.or_eq_true, decide_eq_true_eq, decide_eq_true_eq, not_or] at hevent
    split at hfold
    · next p hp =>
      exact handlers_neutral (Assoc.mem_of_get? hp) hevent.1 hevent.2 event _ _ hfold
    · cases hfold
      exact .of_eq rfl rfl rfl

theorem tracks_foldlM (apart : Apart U) {more : List AgentEvent} (hU : ∀ e ∈ more, U e)
    (h : Tracks U s.toView events) (hfold : more.foldlM Projection.fold s = .ok s') :
    Tracks U s'.toView (events ++ more) := by
  induction more generalizing s events with
  | nil =>
    cases hfold
    rwa [append_nil]
  | cons event more ih =>
    rw [foldlM_cons] at hfold
    obtain ⟨s₁, hstep, hfold⟩ := bind_eq_ok.mp hfold
    have hnext := ih (fun e he => hU e (mem_cons_of_mem _ he))
      (tracks_fold apart (hU event mem_cons_self) h hstep) hfold
    rwa [append_assoc] at hnext

/-- **A replay** shows of every segment what its deltas make of it. -/
theorem replay_tracks (apart : Apart U) (hU : ∀ e ∈ events, U e)
    (hreplay : Projection.replay events = .ok s) (he : U e) (hdelta : isDelta e) :
    s.segmentFlags e = (segmentAfter (segmentName e) events).flags := by
  have hempty : Tracks U ({} : PresentationState).toView [] := by
    refine fun e _ _ => ⟨?_, fun _ => rfl, fun hopen => absurd hopen Bool.false_ne_true⟩
    cases hagent : Projection.subAgentKey e <;> simp only [View.segmentFlags, hagent] <;> rfl
  exact (tracks_foldlM apart hU hempty hreplay e he hdelta).flags

end KolegaCode.Presentation
