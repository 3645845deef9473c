import KolegaCode.Conversation.RepairConserve
import KolegaCode.Conversation.Compaction

/-!
# Conversation — extending a compacted history

`extend` appends messages and repairs the whole history again, while the compaction boundary stays
the index it was.

The repair leaves the messages that were there alone exactly when they are in the form a repair
emits (`Settled`): each assistant message with tool calls, the last message excepted, is directly
followed by its results in call order (`repaired_append`, `settled_of_repaired`).
-/

namespace KolegaCode.Conversation

open List

/-- `extend`. -/
def extend (conv : Conversation) (messages : List Message) : Conversation :=
  { conv with history := repaired (conv.history ++ messages) }

/-! ### One message at a time -/

/-- What a step emits is appended to what was emitted before. -/
theorem repairStep_fixed (pending : List Cell) (fixed : List Message) :
    repairStep ⟨pending, fixed⟩ =
      ⟨(repairStep ⟨pending, []⟩).pending, fixed ++ (repairStep ⟨pending, []⟩).fixed⟩ := by
  match pending with
  | [] => simp [repairStep]
  | ⟨_, true⟩ :: rest => simp [repairStep]
  | ⟨m, false⟩ :: rest =>
    simp only [repairStep]
    split
    · split
      · rfl
      · rename_i hc
        have hcalls : m.calls ≠ [] := fun h => hc (List.isEmpty_iff.mpr h)
        rw [answerCalls_eq hcalls, answerCalls_eq hcalls]
        rfl
    · rfl

theorem iterate_repairStep_fixed (n : Nat) (pending : List Cell) (fixed : List Message) :
    (repairStep^[n] ⟨pending, fixed⟩).fixed =
      fixed ++ (repairStep^[n] ⟨pending, []⟩).fixed := by
  induction n generalizing pending fixed with
  | zero => exact (append_nil fixed).symm
  | succ n ih =>
    rw [Function.iterate_succ_apply, Function.iterate_succ_apply, repairStep_fixed,
      ih (repairStep ⟨pending, []⟩).pending, ih (repairStep ⟨pending, []⟩).pending
        (repairStep ⟨pending, []⟩).fixed, append_assoc]

variable {m u : Message} {H : List Message}

theorem endsWithCall_iff :
    endsWithCall m = true ↔ (m.role = .assistant ∧ m.hasBlocks = true) ∧ m.calls ≠ [] := by
  simp [endsWithCall]

theorem repairStep_plain (hm : endsWithCall m = false) (rest : List Cell) :
    repairStep ⟨⟨m, false⟩ :: rest, []⟩ = ⟨rest, [m]⟩ := by
  simp only [repairStep, nil_append]
  split
  · rename_i hrole
    split
    · rfl
    · rename_i hcalls
      have hcall := endsWithCall_iff.mpr ⟨hrole, fun h => hcalls (List.isEmpty_iff.mpr h)⟩
      rw [hm] at hcall
      cases hcall
  · rfl

theorem repaired_cons_plain (hm : endsWithCall m = false) (ms : List Message) :
    repaired (m :: ms) = m :: repaired ms := by
  unfold repaired
  rw [length_cons, Function.iterate_succ_apply, map_cons, repairStep_plain hm,
    iterate_repairStep_fixed]
  rfl

/-- An assistant message with calls is emitted with the user message that answers it. -/
theorem repairStep_call (hm : endsWithCall m = true) (rest : List Cell) :
    repairStep ⟨⟨m, false⟩ :: rest, []⟩ = ⟨(settled m rest).2, [m, completeUserMessage
      (lookAhead (m.calls.map (·, none)) rest).next?
      ((completeToolResults (settled m rest).1).map .toolResult ++
        (lookAhead (m.calls.map (·, none)) rest).other)]⟩ := by
  obtain ⟨hrole, hcalls⟩ := endsWithCall_iff.mp hm
  simp only [repairStep]
  rw [if_pos hrole, if_neg (fun h => hcalls (List.isEmpty_iff.mp h)), answerCalls_eq hcalls]
  rfl

theorem repaired_cons_call (hm : endsWithCall m = true) (ms : List Message) :
    ∃ tail, repaired (m :: ms) = m :: completeUserMessage
      (lookAhead (m.calls.map (·, none)) (ms.map (⟨·, false⟩))).next?
      ((completeToolResults (settled m (ms.map (⟨·, false⟩))).1).map .toolResult ++
        (lookAhead (m.calls.map (·, none)) (ms.map (⟨·, false⟩))).other) :: tail := by
  unfold repaired
  rw [length_cons, Function.iterate_succ_apply, map_cons, repairStep_call hm,
    iterate_repairStep_fixed]
  exact ⟨_, rfl⟩

/-! ### Histories in repaired form -/

/-- `u` is the user message the repair emits after `m`, when `u` is what follows `m`: a result for
each call, in call order, and then the other blocks. -/
def AnsweredInOrder (m u : Message) : Prop :=
  incomplete (gather (m.calls.map (·, none)) u.blocks).1 = false ∧
    u = completeUserMessage (some u)
      ((completeToolResults (gather (m.calls.map (·, none)) u.blocks).1).map .toolResult ++
        (gather (m.calls.map (·, none)) u.blocks).2)

/-- Every assistant message with tool calls, the last message excepted, is directly followed by
its results in order. -/
def Settled : List Message → Prop
  | m :: u :: rest => (endsWithCall m = true → AnsweredInOrder m u) ∧ Settled (u :: rest)
  | _ => True

theorem AnsweredInOrder.user (h : AnsweredInOrder m u) : u.role = .user ∧ u.hasBlocks = true := by
  rw [h.2]
  exact ⟨rfl, rfl⟩

theorem AnsweredInOrder.plain (h : AnsweredInOrder m u) : endsWithCall u = false := by
  simp [endsWithCall, h.user.1]

theorem lookAhead_user (slots : Slots) (hu : u.role = .user ∧ u.hasBlocks = true)
    (rest : List Cell) :
    lookAhead slots (⟨u, false⟩ :: rest) =
      ⟨(gather slots u.blocks).1, (gather slots u.blocks).2, ⟨u, true⟩ :: rest, some u⟩ := by
  simp only [lookAhead]
  rw [if_pos hu.1, if_pos hu.2]

theorem repaired_cons_answered (hm : endsWithCall m = true) (hu : AnsweredInOrder m u)
    (ms : List Message) : repaired (m :: u :: ms) = m :: u :: repaired ms := by
  have hlook := lookAhead_user (m.calls.map (·, none)) hu.user (ms.map (⟨·, false⟩))
  have hsettled : settled m (⟨u, false⟩ :: ms.map (⟨·, false⟩)) =
      ((gather (m.calls.map (·, none)) u.blocks).1, ⟨u, true⟩ :: ms.map (⟨·, false⟩)) := by
    unfold settled collect
    rw [hlook]
    simp [hu.1]
  have hstep : repairStep ⟨⟨m, false⟩ :: ⟨u, false⟩ :: ms.map (⟨·, false⟩), []⟩ =
      ⟨⟨u, true⟩ :: ms.map (⟨·, false⟩), [m, u]⟩ := by
    rw [repairStep_call hm, hsettled, hlook, ← hu.2]
  unfold repaired
  rw [length_cons, length_cons, Function.iterate_succ_apply,
    Function.iterate_succ_apply, map_cons, map_cons, hstep]
  -- the second step skips `u`
  exact iterate_repairStep_fixed _ _ [m, u]

/-! ### The repair of an extension -/

/-- The last message, when its tool calls are still to be answered. -/
def pendingCall : List Message → List Message
  | [] => []
  | [m] => if endsWithCall m then [m] else []
  | _ :: u :: rest => pendingCall (u :: rest)

/-- What the repair adds after the history `H` when it is extended by `messages`: the repair of
those messages, read as the answer to a pending call of `H`. -/
def repairedContinuation (H messages : List Message) : List Message :=
  (repaired (pendingCall H ++ messages)).drop (pendingCall H).length

theorem pendingCall_cons_of_plain (hm : endsWithCall m = false) (ms : List Message) :
    pendingCall (m :: ms) = pendingCall ms := by
  cases ms with
  | nil => simp [pendingCall, hm]
  | cons u rest => rfl

theorem repairedContinuation_cons {ms : List Message} (h : pendingCall (m :: ms) = pendingCall ms)
    (messages : List Message) :
    repairedContinuation (m :: ms) messages = repairedContinuation ms messages := by
  unfold repairedContinuation
  rw [h]

/-- **The repair leaves a settled history alone** and repairs what follows it. -/
theorem repaired_append (hH : Settled H) (messages : List Message) :
    repaired (H ++ messages) = H ++ repairedContinuation H messages := by
  -- along the history, two messages at a time where calls are answered
  fun_induction Settled H with
  | case1 m u rest ih =>
    obtain ⟨hanswer, hrest⟩ := hH
    have hcont : repairedContinuation (m :: u :: rest) messages =
        repairedContinuation (u :: rest) messages := repairedContinuation_cons rfl messages
    rw [hcont]
    by_cases hm : endsWithCall m = true
    · have hu := hanswer hm
      have ih := ih hrest
      rw [cons_append, repaired_cons_plain hu.plain] at ih
      rw [cons_append, cons_append, repaired_cons_answered hm hu, ih]
      rfl
    · rw [cons_append, repaired_cons_plain (Bool.eq_false_iff.mpr hm), ih hrest]
      rfl
  | case2 H hshort =>
    match H with
    | [] => rfl
    | [m] =>
      by_cases hm : endsWithCall m = true
      · obtain ⟨tail, htail⟩ := repaired_cons_call hm messages
        simp only [repairedContinuation, pendingCall, hm, if_true, singleton_append]
        rw [htail]
        rfl
      · have hplain := Bool.eq_false_iff.mpr hm
        rw [singleton_append, repaired_cons_plain hplain,
          repairedContinuation_cons (pendingCall_cons_of_plain hplain [])]
        rfl
    | m :: u :: rest => exact absurd rfl (hshort m u rest)

theorem gather_length (cs : List ToolCall) (bs : List ContentBlock) :
    (found (gather (cs.map (·, none)) bs).1).length + (gather (cs.map (·, none)) bs).2.length =
      bs.length := by
  have h := congrArg Multiset.card (gather_items (cs.map (·, none)) bs)
  simpa [bag, found_fresh] using h

/-- The results found are fewer than the calls while a call is open. -/
theorem found_length_lt {slots : Slots} (h : incomplete slots = true) :
    (found slots).length < slots.length := by
  obtain ⟨s, hs, hnone⟩ := any_eq_true.mp h
  rw [found, length_map]
  exact length_filterMap_lt_length_iff_exists.mpr ⟨s, hs, Option.isNone_iff_eq_none.mp hnone⟩

/-- A user message that the repair emits unchanged holds its results in order: were a call left
open, the emitted message would have more blocks than `u`. -/
theorem answeredInOrder_of_emitted {ms : List Message}
    (h : u = completeUserMessage
      (lookAhead (m.calls.map (·, none)) ((u :: ms).map (⟨·, false⟩))).next?
      ((completeToolResults (settled m ((u :: ms).map (⟨·, false⟩))).1).map .toolResult ++
        (lookAhead (m.calls.map (·, none)) ((u :: ms).map (⟨·, false⟩))).other)) :
    AnsweredInOrder m u := by
  have huser : u.role = .user ∧ u.hasBlocks = true := by
    rw [h]
    exact ⟨rfl, rfl⟩
  have hlook := lookAhead_user (m.calls.map (·, none)) huser (ms.map (⟨·, false⟩))
  have hsettled : settled m (⟨u, false⟩ :: ms.map (⟨·, false⟩)) =
      collect (gather (m.calls.map (·, none)) u.blocks).1 (⟨u, true⟩ :: ms.map (⟨·, false⟩)) := by
    unfold settled
    rw [hlook]
  have hcalls := settled_calls m (⟨u, false⟩ :: ms.map (⟨·, false⟩))
  rw [map_cons, hlook] at h
  have hlen : u.blocks.length = m.calls.length +
      (gather (m.calls.map (·, none)) u.blocks).2.length := by
    have hblocks := congrArg (fun m => m.blocks.length) h
    have hcount := congrArg List.length hcalls
    rw [length_map] at hcount
    simpa [completeUserMessage, Message.blocks, completeToolResults, hcount] using hblocks
  have hcomplete : incomplete (gather (m.calls.map (·, none)) u.blocks).1 = false := by
    rw [Bool.eq_false_iff]
    intro hopen
    have hlt := found_length_lt hopen
    have hgather := gather_length m.calls u.blocks
    have hslots := congrArg List.length (gather_calls (m.calls.map (·, none)) u.blocks)
    simp only [length_map] at hslots
    omega
  refine ⟨hcomplete, ?_⟩
  have hcollect : (collect (gather (m.calls.map (·, none)) u.blocks).1
      (⟨u, true⟩ :: ms.map (⟨·, false⟩))).1 = (gather (m.calls.map (·, none)) u.blocks).1 := by
    unfold collect
    rw [hcomplete]
    rfl
  rw [hsettled, hcollect] at h
  exact h

/-- **A history that the repair of an extension leaves alone is settled.** -/
theorem settled_of_repaired {messages X : List Message} (h : repaired (H ++ messages) = H ++ X) :
    Settled H := by
  -- along the history; an answered call also takes the message that answers it
  induction hn : H.length using Nat.strong_induction_on generalizing H with
  | _ n ih =>
    match H with
    | [] => trivial
    | [m] => trivial
    | m :: u :: rest =>
      by_cases hm : endsWithCall m = true
      · obtain ⟨tail, htail⟩ := repaired_cons_call hm (u :: rest ++ messages)
        have hu : AnsweredInOrder m u := by
          have heq := htail.symm.trans h
          simp only [cons_append, List.cons.injEq] at heq
          exact answeredInOrder_of_emitted heq.2.1.symm
        rw [cons_append, cons_append, repaired_cons_answered hm hu] at h
        have hrest : repaired (rest ++ messages) = rest ++ X := by
          simpa using h
        have hsettled := ih rest.length (by simp at hn; omega) hrest rfl
        refine ⟨fun _ => hu, ?_⟩
        match rest with
        | [] => trivial
        | v :: rest =>
          refine ⟨fun hcall => ?_, hsettled⟩
          rw [hu.plain] at hcall
          cases hcall
      · rw [cons_append, repaired_cons_plain (Bool.eq_false_iff.mpr hm)] at h
        have hrest : repaired (u :: rest ++ messages) = u :: rest ++ X := by
          simpa using h
        exact ⟨fun hcall => absurd hcall hm, ih _ (by simp at hn ⊢; omega) hrest rfl⟩

/-! ### The boundary -/

theorem effectiveHistory_active {conv : Conversation} {summary : Message}
    (hs : conv.summary = some summary) (ht : 0 < conv.compactedThrough) (hne : conv.history ≠ []) :
    conv.effectiveHistory =
      (conv.history.take conv.compactedThrough).filter isProtected ++ [summary] ++
        conv.history.drop conv.compactedThrough := by
  unfold effectiveHistory
  rw [hs]
  simp only [if_pos (And.intro ht hne)]
  rcases Nat.le_total conv.compactedThrough conv.history.length with hle | hle
  · rw [Nat.min_eq_left hle]
  · rw [Nat.min_eq_right hle, take_length, drop_length, take_of_length_le hle,
      drop_of_length_le hle]

theorem repaired_ne_nil {messages : List Message} (h : messages ≠ []) : repaired messages ≠ [] := by
  match messages with
  | m :: ms =>
    by_cases hm : endsWithCall m = true
    · obtain ⟨tail, htail⟩ := repaired_cons_call hm ms
      rw [htail]
      exact cons_ne_nil _ _
    · rw [repaired_cons_plain (Bool.eq_false_iff.mpr hm)]
      exact cons_ne_nil _ _

theorem pendingCall_cases (H : List Message) :
    pendingCall H = [] ∨ ∃ m, endsWithCall m = true ∧ pendingCall H = [m] := by
  fun_induction pendingCall H with
  | case1 => exact .inl rfl
  | case2 m hm => exact .inr ⟨m, hm, rfl⟩
  | case3 => exact .inl rfl
  | case4 m u rest ih => exact ih

/-- The continuation is empty only where there is nothing to answer and nothing to add. -/
theorem repairedContinuation_eq_nil {messages : List Message}
    (h : repairedContinuation H messages = []) : messages = [] ∧ pendingCall H = [] := by
  unfold repairedContinuation at h
  rcases pendingCall_cases H with hp | ⟨m, hm, hp⟩
  · rw [hp] at h
    refine ⟨?_, hp⟩
    by_contra hne
    exact repaired_ne_nil hne h
  · rw [hp, singleton_append] at h
    obtain ⟨tail, htail⟩ := repaired_cons_call hm messages
    rw [htail] at h
    cases h

/-- What an active compaction promises of an extension: the folded messages are the same, and the
effective history grows by the repaired continuation. -/
def BoundaryStable (conv : Conversation) (messages : List Message) : Prop :=
  (conv.extend messages).history.take conv.compactedThrough =
      conv.history.take conv.compactedThrough ∧
    (conv.extend messages).effectiveHistory =
      conv.effectiveHistory ++ repairedContinuation conv.history messages

section

variable {conv : Conversation} {summary : Message} {messages : List Message}

theorem boundaryStable_of_settled (hs : conv.summary = some summary)
    (ht : 0 < conv.compactedThrough) (hH : Settled conv.history)
    (hle : conv.compactedThrough ≤ conv.history.length) : BoundaryStable conv messages := by
  have hR : (conv.extend messages).history =
      conv.history ++ repairedContinuation conv.history messages := repaired_append hH messages
  have hne : conv.history ≠ [] := by
    intro hnil
    rw [hnil, length_nil] at hle
    omega
  have hne' : (conv.extend messages).history ≠ [] := by
    rw [hR]
    exact append_ne_nil_of_left_ne_nil hne _
  have hthrough : (conv.extend messages).compactedThrough = conv.compactedThrough := rfl
  have htake : (conv.extend messages).history.take conv.compactedThrough =
      conv.history.take conv.compactedThrough := by
    rw [hR, take_append_of_le_length hle]
  have hactive := @effectiveHistory_active (conv.extend messages) summary hs ht hne'
  refine ⟨htake, ?_⟩
  rw [hactive, hthrough, htake, hR, effectiveHistory_active hs ht hne, drop_append_of_le_length hle, append_assoc,
    append_assoc, append_assoc]

/-- A stable boundary: the repair left the whole history alone. -/
theorem extend_history_of_stable (hs : conv.summary = some summary)
    (ht : 0 < conv.compactedThrough) (hne : conv.history ≠ []) (h : BoundaryStable conv messages) :
    (conv.extend messages).history =
      conv.history ++ repairedContinuation conv.history messages := by
  obtain ⟨htake, heff⟩ := h
  have hne' : (conv.extend messages).history ≠ [] := by
    intro hnil
    rw [hnil, take_nil] at htake
    rcases take_eq_nil_iff.mp htake.symm with h0 | hnil'
    · omega
    · exact hne hnil'
  have hthrough : (conv.extend messages).compactedThrough = conv.compactedThrough := rfl
  have hactive := @effectiveHistory_active (conv.extend messages) summary hs ht hne'
  rw [hactive, hthrough, htake, effectiveHistory_active hs ht hne, append_assoc, append_assoc, append_assoc] at heff
  have hdrop := append_cancel_left (append_cancel_left heff)
  calc (conv.extend messages).history
      = (conv.extend messages).history.take conv.compactedThrough ++
          (conv.extend messages).history.drop conv.compactedThrough :=
        (take_append_drop _ _).symm
    _ = conv.history.take conv.compactedThrough ++
          (conv.history.drop conv.compactedThrough ++
            repairedContinuation conv.history messages) := by rw [htake, hdrop]
    _ = conv.history ++ repairedContinuation conv.history messages := by
        rw [← append_assoc, take_append_drop]

/-- **An active compaction survives `extend` exactly when the history is settled**, and the boundary
lies within it or nothing is added. -/
theorem extend_boundaryStable_iff (hs : conv.summary = some summary)
    (ht : 0 < conv.compactedThrough) :
    BoundaryStable conv messages ↔
      Settled conv.history ∧ (conv.compactedThrough ≤ conv.history.length ∨
        messages = [] ∧ pendingCall conv.history = []) := by
  constructor
  · intro h
    by_cases hne : conv.history = []
    · -- nothing is folded yet, so anything added would be
      have hnil : (conv.extend messages).history = [] := by
        have htake := h.1
        rw [hne, take_nil] at htake
        exact (take_eq_nil_iff.mp htake).resolve_left (by omega)
      have hmessages : messages = [] := by
        by_contra hm
        refine repaired_ne_nil hm ?_
        rw [extend, hne] at hnil
        exact hnil
      rw [hne]
      exact ⟨trivial, .inr ⟨hmessages, rfl⟩⟩
    · have hR := extend_history_of_stable hs ht hne h
      refine ⟨settled_of_repaired hR, ?_⟩
      by_cases hle : conv.compactedThrough ≤ conv.history.length
      · exact .inl hle
      · have htake := h.1
        rw [hR, take_append, take_of_length_le (by omega)] at htake
        have hcont := append_right_eq_self.mp htake
        rcases take_eq_nil_iff.mp hcont with h0 | hcont
        · omega
        · exact .inr (repairedContinuation_eq_nil hcont)
  · rintro ⟨hH, hle | ⟨rfl, hp⟩⟩
    · exact boundaryStable_of_settled hs ht hH hle
    · have hcont : repairedContinuation conv.history [] = [] := by
        simp [repairedContinuation, hp, repaired]
      have hR : conv.extend [] = conv := by
        have hrep := repaired_append hH []
        rw [hcont, append_nil] at hrep
        rw [extend, append_nil, hrep]
      rw [BoundaryStable, hR, hcont, append_nil]
      exact ⟨rfl, rfl⟩

end

/-! ### Extending again and again -/

/-- The results of a user message that the repair emitted are found again, in call order, and its
other blocks are kept. -/
theorem gather_results {done slots : Slots} (hd : ∀ s ∈ done, s.2.isNone = false)
    (hs : ∀ c r, (c, some r) ∈ slots → answers c r = true) (other : List ContentBlock) :
    gather (done ++ (slots.map Prod.fst).map (·, none))
        ((completeToolResults slots).map .toolResult ++ other) =
      (done ++ slots.map fun s => (s.1, some (s.2.getD (placeholder s.1))), other) := by
  have hfull : ∀ (done : Slots) r, (∀ s ∈ done, s.2.isNone = false) →
      done.findIdx? (fun s => s.2.isNone && answers s.1 r) = none := fun done r hd =>
    findIdx?_eq_none_iff.mpr fun s hm => by rw [hd s hm, Bool.false_and]
  induction slots generalizing done with
  | nil =>
    induction other with
    | nil => rfl
    | cons b other ih =>
      have hplace : place (done ++ []) b = none := by
        rw [append_nil]
        cases b with
        | toolResult r => rw [place, unmatchedCallIndex, hfull done r hd, Option.map_none]
        | _ => rfl
      exact (gather_cons_none hplace).trans
        (congrArg (fun p : Slots × List ContentBlock => (p.1, b :: p.2)) ih)
  | cons s slots ih =>
    obtain ⟨c, o⟩ := s
    have hanswers : answers c (o.getD (placeholder c)) = true := by
      cases o with
      | none => exact answers_iff.mpr (.inl rfl)
      | some r => exact hs c r mem_cons_self
    -- the calls before this one have their results, so its own finds it
    have hplace : place (done ++ (c, none) :: (slots.map Prod.fst).map (·, none))
        (.toolResult (o.getD (placeholder c))) = some
          (done ++ [(c, some (o.getD (placeholder c)))] ++ (slots.map Prod.fst).map (·, none)) := by
      rw [place, unmatchedCallIndex, findIdx?_append, hfull done _ hd]
      simp [findIdx?_cons, hanswers, modify_eq_take_cons_drop]
    refine (gather_cons_some hplace).trans ((ih (fun s hm => ?_) fun c r h => hs c r
      (mem_cons_of_mem _ h)).trans (by rw [append_assoc]; rfl))
    rcases mem_append.mp hm with hm | hm
    · exact hd s hm
    · rw [mem_singleton.mp hm]
      rfl

/-- What the repair emits for an assistant message with calls is in repaired form. -/
theorem answeredInOrder_emitted (m : Message) (rest : List Cell) :
    AnsweredInOrder m (completeUserMessage (lookAhead (m.calls.map (·, none)) rest).next?
      ((completeToolResults (settled m rest).1).map .toolResult ++
        (lookAhead (m.calls.map (·, none)) rest).other)) := by
  have hfrom : BlocksFrom (rest.flatMap (·.msg.blocks)) rest := fun c hc b hb =>
    mem_flatMap.mpr ⟨c, hc, hb⟩
  have hgather := gather_results (forall_mem_nil _)
    (fun c r h => ((settled_sound (m := m) hfrom).1 c r h).1)
    (lookAhead (m.calls.map (·, none)) rest).other
  rw [settled_calls, nil_append, nil_append] at hgather
  have hopen : incomplete (map (fun s => (s.1, some (s.2.getD (placeholder s.1))))
      (settled m rest).1) = false := any_eq_false.mpr fun s hm => by
    obtain ⟨s', -, rfl⟩ := mem_map.mp hm
    exact Bool.false_ne_true
  rw [AnsweredInOrder]
  simp only [completeUserMessage, Message.blocks, hgather]
  refine ⟨hopen, ?_⟩
  simp [completeToolResults, Function.comp_def]

/-- The repair goes on behind these messages as if they were not there. -/
def Stays (H : List Message) : Prop := ∀ messages, repaired (H ++ messages) = H ++ repaired messages

theorem Stays.step {st : RepairState} (h : Stays st.fixed) : Stays (repairStep st).fixed := by
  obtain ⟨pending, fixed⟩ := st
  match pending with
  | [] | ⟨_, true⟩ :: _ => exact h
  | ⟨m, false⟩ :: rest =>
    rw [repairStep_fixed]
    by_cases hm : endsWithCall m = true
    · intro messages
      rw [repairStep_call hm, append_assoc, h, cons_append, cons_append, nil_append,
        repaired_cons_answered hm (answeredInOrder_emitted m rest), append_assoc]
      rfl
    · intro messages
      rw [repairStep_plain (Bool.eq_false_iff.mpr hm), append_assoc, h, singleton_append,
        repaired_cons_plain (Bool.eq_false_iff.mpr hm), append_assoc]
      rfl

theorem stays_repaired (H : List Message) : Stays (repaired H) := by
  have hrun : ∀ n st, Stays st.fixed → Stays (repairStep^[n] st).fixed := by
    intro n
    induction n with
    | zero => exact fun _ h => h
    | succ n ih => exact fun st h => ih _ h.step
  exact hrun _ _ fun _ => rfl

/-- **A conversation that was extended once only grows**: the repaired batches stand one behind the
other, and another repair of it changes nothing. -/
theorem extend_run (conv : Conversation) (messages : List Message) (batches : List (List Message)) :
    let c := batches.foldl extend (conv.extend messages)
    c.history = (conv.extend messages).history ++ batches.flatMap repaired ∧
      repaired c.history = c.history := by
  induction batches generalizing conv messages with
  | nil =>
    have hstays := stays_repaired (conv.history ++ messages) []
    rw [append_nil] at hstays
    exact ⟨(append_nil _).symm, hstays.trans (append_nil _)⟩
  | cons batch batches ih =>
    have hextend : ((conv.extend messages).extend batch).history =
        (conv.extend messages).history ++ repaired batch := stays_repaired _ batch
    have hrun := ih (conv.extend messages) batch
    rwa [hextend, append_assoc, ← flatMap_cons] at hrun

/-! ### A call left open -/

/-- A user or assistant message of one text block. -/
def said (role : Role) (text : String) : Message := { role, content := .blocks [.text { text }] }

/-- A compacted conversation whose history is `H`, folded up to index 3. -/
def folded3 (H : List Message) : Conversation where
  history := H
  summary := some (said .user "summary")
  compactedThrough := 3
  compactedHistoryLength := H.length

def openCall : Message where
  role := .assistant
  content := .blocks [.toolCall
    { id := "toolu_1", name := "read_file", input := .obj [], executionId := "exec-1" }]

/-- A turn stopped before its tool ran, and the next one. -/
def stoppedTurn : List Message :=
  [said .user "go", openCall, said .assistant "stopped", said .user "next"]

theorem extend_boundaryStable_plain :
    BoundaryStable (folded3 [said .user "go", said .assistant "done", said .user "next"])
      [said .assistant "ok"] := by
  refine (extend_boundaryStable_iff rfl (by decide)).mpr ⟨?_, .inl (by decide)⟩
  exact ⟨nofun, nofun, trivial⟩

/-- The repair puts a placeholder result inside the folded prefix, and the message that was the
last folded one is sent again. -/
theorem extend_reexposes_stoppedTurn :
    (folded3 stoppedTurn).effectiveHistory = [said .user "summary", said .user "next"] ∧
      ((folded3 stoppedTurn).extend [said .assistant "ok"]).effectiveHistory =
        [said .user "summary", said .assistant "stopped", said .user "next",
          said .assistant "ok"] ∧
      ¬ BoundaryStable (folded3 stoppedTurn) [said .assistant "ok"] := by
  refine ⟨rfl, rfl, fun h => ?_⟩
  have hR := extend_history_of_stable rfl (by decide) (cons_ne_nil _ _) h
  have hsettled : Settled stoppedTurn := settled_of_repaired hR
  obtain ⟨-, hrole⟩ := hsettled.2.1 rfl
  cases congrArg Message.role hrole

end KolegaCode.Conversation
