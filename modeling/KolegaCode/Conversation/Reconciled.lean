import KolegaCode.Conversation.Append

/-!
# Conversation — what appending user messages keeps

The loop over the history is one absorption along the blocks of the user's messages
(`updateHistory_blocks`), so a history with at most one result an execution stays one as long as
`same_tool_execution` sorts the results into classes (`Sorted`): where all results carry execution
ids, and where none does.
-/

namespace KolegaCode.Conversation

open List
open Absorb (absorb put Apart Kept)

section

variable {β : Type} {types : BlockType β}

/-- The blocks that the loop over the history looks at. -/
def ownBlocks (m : MessageOf β) : List β := if m.role = .user then m.blocks else []

theorem userBlocks_cons (m : MessageOf β) (ms : List (MessageOf β)) :
    userBlocks (m :: ms) = ownBlocks m ++ userBlocks ms := by
  rw [userBlocks, flatMap_cons]
  rfl

theorem userBlocks_append (ms ms' : List (MessageOf β)) :
    userBlocks (ms ++ ms') = userBlocks ms ++ userBlocks ms' :=
  flatMap_append

variable {m : MessageOf β} {b : β} {content : UserContent β}

theorem ownBlocks_eq_nil (h : ¬(m.role = .user ∧ m.hasBlocks = true)) : ownBlocks m = [] := by
  unfold ownBlocks
  split
  · next hrole =>
    have hblocks : m.hasBlocks ≠ true := fun hblocks => h ⟨hrole, hblocks⟩
    unfold MessageOf.hasBlocks at hblocks
    unfold MessageOf.blocks
    split at hblocks
    · rfl
    · exact absurd rfl hblocks
  · rfl

theorem Replaced.of_kept {cs : List β} {b' : β}
    (h : Kept (sameResult types) (shouldReplace types) cs b b') : Replaced types b b' :=
  h.imp_right And.right

theorem forall₂_replaced_refl (bs : List β) : List.Forall₂ (Replaced types) bs bs :=
  forall₂_same.mpr fun _ _ => .inl rfl

theorem MessageKept.refl (m : MessageOf β) : MessageKept types m m :=
  ⟨rfl, fun _ => rfl, forall₂_replaced_refl m.blocks, rfl, rfl, rfl⟩

/-! ### The loop over the history -/

theorem updateMessage_spec (types : BlockType β) (results : List β) (m : MessageOf β) :
    MessageKept types m (updateMessage types results m).2 ∧
      ownBlocks (updateMessage types results m).2 =
        (absorb (sameResult types) (shouldReplace types) results (ownBlocks m)).items ∧
      (updateMessage types results m).1 =
        (absorb (sameResult types) (shouldReplace types) results (ownBlocks m)).rest := by
  unfold updateMessage
  split
  · next hm =>
    have hown : ownBlocks m = m.blocks := if_pos hm.1
    rw [hown]
    dsimp only
    split
    · refine ⟨⟨rfl, fun h => ?_, ?_, rfl, rfl, rfl⟩, if_pos hm.1, rfl⟩
      · rcases h with h | h
        · exact absurd hm.1 h
        · rw [hm.2] at h
          cases h
      · exact (Absorb.items_kept results m.blocks).imp fun _ _ => Replaced.of_kept
    · next hreplaced =>
      have hitems := Absorb.items_of_not_replaced (Bool.eq_false_iff.mpr hreplaced)
      exact ⟨MessageKept.refl m, hown.trans hitems.symm, rfl⟩
  · next hm =>
    rw [ownBlocks_eq_nil hm]
    exact ⟨MessageKept.refl m, rfl, rfl⟩

theorem updateHistory_cons (results : List β) (m : MessageOf β) (ms : List (MessageOf β)) :
    updateHistory types results (m :: ms) =
      ((updateHistory types (updateMessage types results m).1 ms).1,
        (updateMessage types results m).2 ::
          (updateHistory types (updateMessage types results m).1 ms).2) :=
  rfl

/-- Message by message, blocks stay or are replaced. -/
theorem updateHistory_kept (types : BlockType β) (results : List β) (history : List (MessageOf β)) :
    List.Forall₂ (MessageKept types) history (updateHistory types results history).2 := by
  induction history generalizing results with
  | nil => exact .nil
  | cons m ms ih =>
    rw [updateHistory_cons]
    exact .cons (updateMessage_spec types results m).1 (ih _)

/-- **The loop absorbs the results along the blocks of the user's messages.** -/
theorem updateHistory_blocks (types : BlockType β) (results : List β)
    (history : List (MessageOf β)) :
    userBlocks (updateHistory types results history).2 =
        (absorb (sameResult types) (shouldReplace types) results (userBlocks history)).items ∧
      (updateHistory types results history).1 =
        (absorb (sameResult types) (shouldReplace types) results (userBlocks history)).rest := by
  induction history generalizing results with
  | nil => exact ⟨rfl, rfl⟩
  | cons m ms ih =>
    obtain ⟨-, hitems, hrest⟩ := updateMessage_spec types results m
    obtain ⟨ihitems, ihrest⟩ := ih (updateMessage types results m).1
    have happend := Absorb.absorb_append (sameResult types) (shouldReplace types) results
      (ownBlocks m) (userBlocks ms)
    rw [updateHistory_cons, userBlocks_cons, userBlocks_cons, happend.1, happend.2, ← hrest,
      ← hitems]
    exact ⟨congrArg _ ihitems, ihrest⟩

/-! ### One message -/

theorem mem_newToolResults {content : List β} (h : b ∈ newToolResults types content) :
    b ∈ content ∧ isResult types b = true :=
  mem_filter.mp ((Absorb.mem_foldl_put h).resolve_left not_mem_nil)

theorem otherBlocks_eq_self {content : List β} (h : newToolResults types content = []) :
    otherBlocks types content = content := by
  refine filter_eq_self.mpr fun b hb => ?_
  have hb' := filter_eq_nil_iff.mp (Absorb.eq_nil_of_foldl_put h).2 b hb
  rw [Bool.not_eq_true] at hb'
  rw [hb']
  rfl

theorem isResult_of_mem_broughtIn (h : b ∈ broughtIn types content) : isResult types b = false := by
  unfold broughtIn at h
  split at h
  · cases mem_singleton.mp h
    exact isResult_newText NO_CONTENT
  · exact (Bool.not_eq_true' _).mp (mem_filter.mp h).2

/-- What one call of `append_user` does to the history. -/
structure Appended (types : BlockType β) (history : List (MessageOf β)) (content : UserContent β)
    (front new : List (MessageOf β)) : Prop where
  kept : List.Forall₂ (MessageKept types) history front
  items : userBlocks front = (absorb (sameResult types) (shouldReplace types)
    (newToolResults types (contentBlocks types content)) (userBlocks history)).items
  added : new.flatMap MessageOf.blocks = (absorb (sameResult types) (shouldReplace types)
    (newToolResults types (contentBlocks types content)) (userBlocks history)).rest ++
      broughtIn types content
  role : ∀ m ∈ new, m.role = .user

theorem appendUser_appended (types : BlockType β) (history : List (MessageOf β))
    (content : UserContent β) :
    ∃ front new, appendUser types history content = front ++ new ∧
      Appended types history content front new := by
  unfold appendUser
  dsimp only
  split
  · next hresults =>
    have hnil := List.isEmpty_iff.mp hresults
    refine ⟨history, _, rfl, forall₂_same.mpr fun m _ => MessageKept.refl m, ?_, ?_, ?_⟩
    · rw [hnil, (Absorb.absorb_nil _).1]
    · rw [hnil, (Absorb.absorb_nil _).2, broughtIn, otherBlocks_eq_self hnil]
      exact append_nil _
    · exact fun m hm => mem_singleton.mp hm ▸ rfl
  · next hresults =>
    obtain ⟨hitems, hrest⟩ := updateHistory_blocks types
      (newToolResults types (contentBlocks types content)) history
    have hcontent : (contentBlocks types content).isEmpty = false := by
      refine Bool.eq_false_iff.mpr fun h => hresults ?_
      rw [List.isEmpty_iff.mp h]
      rfl
    have hbrought : broughtIn types content = otherBlocks types (contentBlocks types content) := by
      rw [broughtIn, hcontent]
      rfl
    have hkept := updateHistory_kept types
      (newToolResults types (contentBlocks types content)) history
    split
    · next hempty =>
      refine ⟨_, [], (append_nil _).symm, hkept, hitems, ?_, fun m hm => by cases hm⟩
      rw [hbrought, ← hrest]
      exact (List.isEmpty_iff.mp hempty).symm
    · refine ⟨_, _, rfl, hkept, hitems, ?_, fun m hm => mem_singleton.mp hm ▸ rfl⟩
      rw [hbrought, ← hrest]
      exact append_nil _

/-! ### Every run -/

/-- `same_tool_execution` sorts the results among the blocks into classes. -/
def Classed (types : BlockType β) (bs : List β) : Prop :=
  ∀ a ∈ bs, ∀ b ∈ bs, ∀ c ∈ bs,
    sameResult types a b = true → sameResult types b c = true → sameResult types a c = true

theorem sameResult_eq_true_iff {b' : β} :
    sameResult types b b' = true ↔ ∃ r r', types.view b = .toolResult r ∧
      types.view b' = .toolResult r' ∧ sameToolExecution (.result r) (.result r') = true := by
  unfold sameResult
  constructor
  · intro h
    split at h
    · next r r' hr hr' =>
      exact ⟨r, r', ContentBlock.asToolResult?_eq_some.mp hr,
        ContentBlock.asToolResult?_eq_some.mp hr', h⟩
    · cases h
  · rintro ⟨r, r', hr, hr', h⟩
    rw [hr, hr']
    exact h

/-- It does where all results carry execution ids, and where none does. -/
theorem classed_of_executionIds {bs : List β} (carried : Bool)
    (h : ∀ b ∈ bs, ∀ r, types.view b = .toolResult r → r.executionId.isSome = carried) :
    Classed types bs := by
  intro a ha b hb c hc hab hbc
  obtain ⟨r, s, hr, hs, hab⟩ := sameResult_eq_true_iff.mp hab
  obtain ⟨s', t, hs', ht, hbc⟩ := sameResult_eq_true_iff.mp hbc
  cases hs.symm.trans hs'
  refine sameResult_eq_true_iff.mpr ⟨r, t, hr, ht, ?_⟩
  have hra := h a ha r hr
  have hsb := h b hb s hs
  have htc := h c hc t ht
  revert hab hbc hra hsb htc
  unfold sameToolExecution
  simp only [ToolExecutionBlock.executionId]
  cases r.executionId <;> cases s.executionId <;> cases t.executionId <;> cases carried <;>
    simp_all

section

variable {P : β → Prop}

theorem apart_of_other (a : β) (hb : isResult types b = false) :
    Apart (sameResult types) a b ∧ Apart (sameResult types) b a := by
  constructor <;> refine Bool.eq_false_iff.mpr fun h => ?_
  · rw [(isResult_of_same h).2] at hb
    cases hb
  · rw [(isResult_of_same h).1] at hb
    cases hb

variable {new history front : List (MessageOf β)}

theorem userBlocks_of_user (h : ∀ m ∈ new, m.role = .user) :
    userBlocks new = new.flatMap MessageOf.blocks :=
  flatMap_congr fun m hm => if_pos (h m hm)

/-- **One call keeps at most one result an execution.** -/
theorem Appended.apart (hclasses : Absorb.Classes (sameResult types) P)
    (hother : ∀ b, isResult types b = false → P b) (h : Appended types history content front new)
    (hhistory : ∀ b ∈ userBlocks history, P b) (hcontent : ∀ b ∈ contentBlocks types content, P b)
    (hapart : (userBlocks history).Pairwise (Apart (sameResult types))) :
    (∀ b ∈ userBlocks (front ++ new), P b) ∧
      (userBlocks (front ++ new)).Pairwise (Apart (sameResult types)) := by
  have hresults : ∀ b ∈ newToolResults types (contentBlocks types content), P b :=
    fun b hb => hcontent b (mem_newToolResults hb).1
  have hnew : (newToolResults types (contentBlocks types content)).Pairwise
      (Apart (sameResult types)) :=
    Absorb.foldl_put_apart hclasses (fun b hb => hcontent b (mem_filter.mp hb).1)
      (fun x hx => by cases hx) .nil
  have hrun := Absorb.absorb_apart (shouldReplace types) hclasses hresults hhistory hnew hapart
  rw [userBlocks_append, userBlocks_of_user h.role, h.items, h.added, ← append_assoc]
  constructor
  · intro b hb
    rcases mem_append.mp hb with hb | hb
    · rcases mem_append.mp hb with hb | hb
      · obtain ⟨b', hb', rfl | ⟨hb, -⟩⟩ :=
          Absorb.exists_of_forall₂ (Absorb.items_kept _ _) hb
        · exact hhistory b hb'
        · exact hresults b hb
      · exact hresults b ((Absorb.rest_sublist _ _).subset hb)
    · exact hother b (isResult_of_mem_broughtIn hb)
  · refine pairwise_append.mpr ⟨hrun, ?_, fun a _ b hb => ?_⟩
    · refine pairwise_iff_getElem.mpr fun i j hi hj _ => ?_
      exact (apart_of_other _ (isResult_of_mem_broughtIn (getElem_mem hj))).1
    · exact (apart_of_other a (isResult_of_mem_broughtIn hb)).1

theorem Appended.filter_added (h : Appended types history content front new) :
    (new.flatMap MessageOf.blocks).filter (fun b => !isResult types b) =
      broughtIn types content := by
  rw [h.added, filter_append, filter_eq_nil_iff.mpr, nil_append, filter_eq_self.mpr]
  · exact fun b hb => by rw [isResult_of_mem_broughtIn hb]; rfl
  · intro b hb
    rw [(mem_newToolResults ((Absorb.rest_sublist _ _).subset hb)).2]
    decide

theorem forall₂_trans {α : Type} {R S T : α → α → Prop} {as bs cs : List α}
    (h : List.Forall₂ R as bs) (h' : List.Forall₂ S bs cs)
    (htrans : ∀ a ∈ as, ∀ b ∈ bs, ∀ c ∈ cs, R a b → S b c → T a c) : List.Forall₂ T as cs := by
  induction h generalizing cs with
  | nil =>
    cases h'
    exact .nil
  | cons hR _ ih =>
    cases h' with
    | cons hS hrest =>
      refine .cons (htrans _ mem_cons_self _ mem_cons_self _ mem_cons_self hR hS) ?_
      exact ih hrest fun a ha b hb c hc => htrans a (mem_cons_of_mem _ ha) b
        (mem_cons_of_mem _ hb) c (mem_cons_of_mem _ hc)

theorem forall₂_of_append {α : Type} {R : α → α → Prop} {as bs cs : List α}
    (h : List.Forall₂ R (as ++ bs) cs) :
    ∃ cs₁ cs₂, cs = cs₁ ++ cs₂ ∧ List.Forall₂ R as cs₁ ∧ List.Forall₂ R bs cs₂ := by
  induction as generalizing cs with
  | nil => exact ⟨[], cs, rfl, .nil, h⟩
  | cons a as ih =>
    cases h with
    | @cons _ c _ _ hR h =>
      obtain ⟨cs₁, cs₂, rfl, has, hbs⟩ := ih h
      exact ⟨c :: cs₁, cs₂, rfl, .cons hR has, hbs⟩

theorem filter_of_forall₂_replaced {bs bs' : List β} (h : List.Forall₂ (Replaced types) bs bs') :
    bs'.filter (fun b => !isResult types b) = bs.filter fun b => !isResult types b := by
  induction h with
  | nil => rfl
  | @cons b b' _ _ hb _ ih =>
    rw [filter_cons, filter_cons, hb.isResult_eq, ih]
    cases hresult : isResult types b with
    | true => rfl
    | false => rw [hb.eq_of_other hresult]

theorem forall₂_flatMap_blocks {ms ms' : List (MessageOf β)}
    (h : List.Forall₂ (MessageKept types) ms ms') :
    List.Forall₂ (Replaced types) (ms.flatMap MessageOf.blocks) (ms'.flatMap MessageOf.blocks) := by
  induction h with
  | nil => exact .nil
  | cons hm _ ih =>
    rw [flatMap_cons, flatMap_cons]
    exact rel_append hm.blocks ih

theorem MessageKept.trans (hclasses : Absorb.Classes (sameResult types) P) {m' m'' : MessageOf β}
    (hm : ∀ b ∈ ownBlocks m, P b) (hm' : ∀ b ∈ ownBlocks m', P b)
    (hm'' : ∀ b ∈ ownBlocks m'', P b) (h : MessageKept types m m') (h' : MessageKept types m' m'') :
    MessageKept types m m'' := by
  by_cases hrole : m.role = .user
  · have hrole' : m'.role = .user := h.role.trans hrole
    have hrole'' : m''.role = .user := h'.role.trans hrole'
    rw [ownBlocks, if_pos hrole] at hm
    rw [ownBlocks, if_pos hrole'] at hm'
    rw [ownBlocks, if_pos hrole''] at hm''
    refine ⟨h'.role.trans h.role, fun hother => ?_, ?_, ?_⟩
    · have hm' := h.other hother
      rw [h'.other (hm' ▸ hother), hm']
    · exact forall₂_trans h.blocks h'.blocks fun a ha b hb c hc hab hbc =>
        hab.trans hclasses (hm a ha) (hm' b hb) (hm'' c hc) hbc
    · obtain ⟨hstop, hcalls, husage⟩ := h.data
      obtain ⟨hstop', hcalls', husage'⟩ := h'.data
      exact ⟨hstop'.trans hstop, hcalls'.trans hcalls, husage'.trans husage⟩
  · have heq := h.other (.inl hrole)
    have heq' := h'.other (.inl (heq ▸ hrole))
    rw [heq', heq]
    exact MessageKept.refl m

theorem mem_userBlocks (hm : m ∈ history) (hb : b ∈ ownBlocks m) : b ∈ userBlocks history :=
  mem_flatMap.mpr ⟨m, hm, hb⟩

theorem appendUser_foldl (hclasses : Absorb.Classes (sameResult types) P)
    (hother : ∀ b, isResult types b = false → P b) (history : List (MessageOf β))
    (contents : List (UserContent β)) (hhistory : ∀ b ∈ userBlocks history, P b)
    (hcontents : ∀ content ∈ contents, ∀ b ∈ contentBlocks types content, P b)
    (hapart : (userBlocks history).Pairwise (Apart (sameResult types))) :
    ∃ front new, contents.foldl (appendUser types) history = front ++ new ∧
      List.Forall₂ (MessageKept types) history front ∧
      (∀ b ∈ userBlocks (front ++ new), P b) ∧
      (userBlocks (front ++ new)).Pairwise (Apart (sameResult types)) ∧
      (new.flatMap MessageOf.blocks).filter (fun b => !isResult types b) =
        contents.flatMap (broughtIn types) ∧
      ∀ m ∈ new, m.role = .user := by
  induction contents generalizing history with
  | nil =>
    refine ⟨history, [], (append_nil _).symm,
      forall₂_same.mpr fun m _ => MessageKept.refl m, ?_, ?_, rfl, fun m hm => by cases hm⟩
    · rwa [append_nil]
    · rwa [append_nil]
  | cons content contents ih =>
    obtain ⟨front, new, heq, happended⟩ := appendUser_appended types history content
    obtain ⟨hP, hapart'⟩ := happended.apart hclasses hother hhistory
      (hcontents content mem_cons_self) hapart
    obtain ⟨front', new', heq', hkept, hP', hapart'', hfilter, hrole⟩ :=
      ih (front ++ new) hP (fun c hc => hcontents c (mem_cons_of_mem _ hc)) hapart'
    -- What was there after the first call is kept by the others.
    obtain ⟨first, second, rfl, hfirst, hsecond⟩ := forall₂_of_append hkept
    have hfront : ∀ b ∈ userBlocks front, P b := fun b hb => hP b (by
      rw [userBlocks_append]
      exact mem_append_left _ hb)
    have hlast : ∀ b ∈ userBlocks first, P b := fun b hb => hP' b (by
      rw [userBlocks_append, userBlocks_append]
      exact mem_append_left _ (mem_append_left _ hb))
    refine ⟨first, second ++ new', ?_, ?_, ?_, ?_, ?_, ?_⟩
    · rw [foldl_cons, heq, heq', append_assoc]
    · exact forall₂_trans happended.kept hfirst fun m hm m' hm' m'' hm'' h h' =>
        h.trans hclasses (fun b hb => hhistory b (mem_userBlocks hm hb))
          (fun b hb => hfront b (mem_userBlocks hm' hb))
          (fun b hb => hlast b (mem_userBlocks hm'' hb)) h'
    · rwa [← append_assoc]
    · rwa [← append_assoc]
    · rw [flatMap_append, filter_append, hfilter, flatMap_cons,
        filter_of_forall₂_replaced (forall₂_flatMap_blocks hsecond), happended.filter_added]
    · intro m hm
      rcases mem_append.mp hm with hm | hm
      · obtain ⟨m', hm', hkept⟩ := Absorb.exists_of_forall₂ hsecond hm
        exact hkept.role.trans (happended.role m' hm')
      · exact hrole m hm

theorem forall₂_userBlocks (h : List.Forall₂ (MessageKept types) history front) :
    List.Forall₂ (Replaced types) (userBlocks history) (userBlocks front) := by
  induction h with
  | nil => exact .nil
  | @cons m m' _ _ hm _ ih =>
    rw [userBlocks_cons, userBlocks_cons, ownBlocks, ownBlocks, hm.role]
    refine rel_append ?_ ih
    split
    · exact hm.blocks
    · exact .nil

end

/-- **Appending user messages reconciles the tool results.**  In every run the messages of the
history stay, but for error results replaced by a result of their execution; no successful result
is lost, there is at most one result an execution, and the new messages hold the other blocks in
their order. -/
theorem appendUser_run (types : BlockType β) (history : List (MessageOf β))
    (contents : List (UserContent β))
    (hclassed : Classed types (userBlocks history ++ contents.flatMap (contentBlocks types)))
    (hapart : (userBlocks history).Pairwise (Apart (sameResult types))) :
    ∃ front new, contents.foldl (appendUser types) history = front ++ new ∧
      List.Forall₂ (MessageKept types) history front ∧
      (∀ b ∈ userBlocks history, ∀ r, types.view b = .toolResult r → r.isError = false →
        b ∈ userBlocks front) ∧
      (userBlocks (front ++ new)).Pairwise (Apart (sameResult types)) ∧
      (new.flatMap MessageOf.blocks).filter (fun b => !isResult types b) =
        contents.flatMap (broughtIn types) ∧
      ∀ m ∈ new, m.role = .user := by
  let all := userBlocks history ++ contents.flatMap (contentBlocks types)
  have hmem : ∀ b, isResult types b = true → b ∈ all ∨ isResult types b = false → b ∈ all :=
    fun b hb h => h.resolve_right fun hb' => by
      rw [hb] at hb'
      cases hb'
  have hclasses : Absorb.Classes (sameResult types) fun b => b ∈ all ∨ isResult types b = false :=
    { symm := fun _ _ h => sameResult_symm h
      trans := fun {a b c} ha hb hc hab hbc => by
        obtain ⟨hra, hrb⟩ := isResult_of_same hab
        exact hclassed a (hmem a hra ha) b (hmem b hrb hb) c (hmem c (isResult_of_same hbc).2 hc)
          hab hbc }
  obtain ⟨front, new, heq, hkept, -, hapart', hbrought, hrole⟩ :=
    appendUser_foldl hclasses (fun b hb => .inr hb) history contents
      (fun b hb => .inl (mem_append_left _ hb))
      (fun content hcontent b hb =>
        .inl (mem_append_right _ (mem_flatMap.mpr ⟨content, hcontent, hb⟩))) hapart
  refine ⟨front, new, heq, hkept, fun b hb r hr hsuccess => ?_, hapart', hbrought, hrole⟩
  obtain ⟨b', hb', hreplaced⟩ := Absorb.exists_of_forall₂ (forall₂_userBlocks hkept).flip hb
  exact Replaced.eq_of_success hreplaced hr hsuccess ▸ hb'

end

/-! ### Runs -/

section

private def toolResultOf (executionId : Option String) (content : String) (isError : Bool) :
    ToolResult where
  toolUseId := "t"
  content := .inl content
  name := "f"
  isError := isError
  executionId := executionId

private def resultOf (executionId : Option String) (content : String) (isError : Bool) :
    ContentBlock :=
  .toolResult (toolResultOf executionId content isError)

private def userOf (bs : List ContentBlock) : MessageOf ContentBlock :=
  { role := .user, content := .inr bs }

private def textOf (text : String) : ContentBlock := .text { text := text }

private def INTERRUPTED : String := "Operation was interrupted"

/-- A placeholder is replaced, a late error is dropped, and an empty message is filled. -/
theorem appendUser_run_interrupted :
    let history := [userOf [resultOf none INTERRUPTED true, textOf "go"]]
    let contents := [UserContent.list [textOf "one", resultOf none "done" false],
      .list [resultOf none "late" true], .list []]
    ∃ front new, contents.foldl (appendUser .values) history = front ++ new ∧
      List.Forall₂ (MessageKept .values) history front ∧
      (∀ b ∈ userBlocks history, ∀ r, BlockType.values.view b = .toolResult r →
        r.isError = false → b ∈ userBlocks front) ∧
      (userBlocks (front ++ new)).Pairwise (Apart (sameResult .values)) ∧
      (new.flatMap MessageOf.blocks).filter (fun b => !isResult .values b) =
        contents.flatMap (broughtIn .values) ∧
      ∀ m ∈ new, m.role = .user :=
  appendUser_run .values [userOf [resultOf none INTERRUPTED true, textOf "go"]]
    [UserContent.list [textOf "one", resultOf none "done" false],
      .list [resultOf none "late" true], .list []]
    (classed_of_executionIds false (by
      simp [userOf, userBlocks, MessageOf.blocks, contentBlocks, BlockType.values, resultOf,
        toolResultOf, textOf]))
    (by decide)

/-- An error that is no placeholder is replaced too.  A result without an execution id is of the
execution of each result of its provider's id, and may so stand beside another of them. -/
theorem appendUser_replaces_error :
    (appendUser .values [userOf [resultOf (some "e") "failed" true]]
        (.list [resultOf (some "e") "done" false]) = [userOf [resultOf (some "e") "done" false]] ∧
      interrupted (toolResultOf (some "e") "failed" true) = false) ∧
    ((userBlocks [userOf [resultOf (some "e") INTERRUPTED true,
        resultOf (some "f") "done" false]]).Pairwise (Apart (sameResult .values)) ∧
      ¬(userBlocks (appendUser .values [userOf [resultOf (some "e") INTERRUPTED true,
        resultOf (some "f") "done" false]] (.list [resultOf none "done" false]))).Pairwise
          (Apart (sameResult .values))) := by
  refine ⟨⟨rfl, by decide⟩, by decide, by decide⟩

end

end KolegaCode.Conversation
