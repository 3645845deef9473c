import KolegaCode.Llm.OpenAi
import KolegaCode.Conversation.RepairExact

/-!
# Llm — tool messages of a Chat Completions request

Read as a provider reads it, a request is well paired when every payload with `tool_calls` is
directly followed by the tool messages of its calls and no tool message stands elsewhere
(`toolGroups`).  For a history in which calls and results correspond one to one (`Exchanges`), the
serialiser emits such a request; the tool message of a call carries the call's own result unless
that result's identity was used up before.

The look-ahead of a message finds exactly the results of its own exchange that are not used up
(`collectLookahead_eq`), and what is used up is what the exchanges so far held (`Consumed`).
-/

namespace KolegaCode.OpenAi

open List
open Conversation (allCalls mem_allCalls DistinctExecutionIds CarriesProviderId)

/-! ### A request as the provider reads it -/

/-- The payload's calls and the tool messages after it. -/
abbrev Group := List FunctionCall × List Payload

/-- The tool messages at the front, and the groups after them; `none` when a tool message does not
follow a payload with calls. -/
def scanTools : List Payload → Option (List Payload × List Group)
  | [] => some ([], [])
  | p :: ps =>
      match scanTools ps with
      | none => none
      | some (run, groups) =>
          if p.role = "tool" then some (p :: run, groups)
          else if p.toolCalls ≠ [] then some ([], (p.toolCalls, run) :: groups)
          else if run.isEmpty then some ([], groups) else none

/-- The payloads with calls, each with the tool messages right after it, when there are no other
tool messages. -/
def toolGroups (ps : List Payload) : Option (List Group) :=
  match scanTools ps with
  | some ([], groups) => some groups
  | _ => none

variable {qs run : List Payload} {groups : List Group} {rs : List ToolResult} {r : ToolResult}
  {c : ToolCall}

theorem scanTools_tool {ps : List Payload} (h : ∀ p ∈ ps, p.role = "tool")
    (hq : scanTools qs = some (run, groups)) : scanTools (ps ++ qs) = some (ps ++ run, groups) := by
  induction ps with
  | nil => exact hq
  | cons p ps ih =>
    have hp : p.role = "tool" := h p mem_cons_self
    rw [cons_append, scanTools, ih fun q hq => h q (mem_cons_of_mem _ hq)]
    simp [hp]

theorem scanTools_plain {ps : List Payload} (h : ∀ p ∈ ps, p.role ≠ "tool" ∧ p.toolCalls = [])
    (hq : scanTools qs = some ([], groups)) : scanTools (ps ++ qs) = some ([], groups) := by
  induction ps with
  | nil => exact hq
  | cons p ps ih =>
    obtain ⟨hrole, hcalls⟩ := h p mem_cons_self
    rw [cons_append, scanTools, ih fun q hq => h q (mem_cons_of_mem _ hq)]
    simp [hrole, hcalls]

theorem scanTools_group {p : Payload} {plain : List Payload} (hp : p.role ≠ "tool")
    (hcalls : p.toolCalls ≠ []) (hrun : ∀ q ∈ run, q.role = "tool")
    (hplain : ∀ q ∈ plain, q.role ≠ "tool" ∧ q.toolCalls = [])
    (hq : scanTools qs = some ([], groups)) :
    scanTools (p :: (run ++ (plain ++ qs))) = some ([], (p.toolCalls, run) :: groups) := by
  rw [scanTools, scanTools_tool hrun (scanTools_plain hplain hq)]
  simp [hp, hcalls]

/-! ### Exchanges -/

/-- The results after an assistant message, up to and with those the next assistant message
holds. -/
def nextResults : List Message → List ToolResult
  | [] => []
  | m :: ms => m.results ++ if m.role = .assistant then [] else nextResults ms

/-- The results after those. -/
def laterResults : List Message → List ToolResult
  | [] => []
  | m :: ms => if m.role = .assistant then ms.flatMap (·.results) else laterResults ms

theorem results_split (ms : List Message) :
    ms.flatMap (·.results) = nextResults ms ++ laterResults ms := by
  induction ms with
  | nil => rfl
  | cons m ms ih =>
    rw [flatMap_cons, nextResults, laterResults]
    split
    · rw [append_nil]
    · rw [ih, append_assoc]

/-- Each result answers one call, and each call has one result. -/
def OneToOne (calls : List ToolCall) (results : List ToolResult) : Prop :=
  (∀ r ∈ results, calls.countP (answers · r) = 1) ∧
    ∀ c ∈ calls, results.countP (answers c ·) = 1

/-- The results after each assistant message answer its calls one to one; other messages make no
calls. -/
def ExchangesFrom : List Message → Prop
  | [] => True
  | m :: ms =>
      (if m.role = .assistant then OneToOne m.calls (nextResults ms) else m.calls = []) ∧
        ExchangesFrom ms

/-- Every result answers a call of the last assistant message before it, and each call has one
result. -/
def Exchanges (ms : List Message) : Prop := nextResults ms = [] ∧ ExchangesFrom ms

/-- The calls of each message that makes some, and the results that answer them. -/
def exchanges : List Message → List (List ToolCall × List ToolResult)
  | [] => []
  | m :: ms =>
      if m.calls ≠ [] then (m.calls, nextResults ms) :: exchanges ms else exchanges ms

/-- The text of the call's own result. -/
def ownText (results : List ToolResult) (c : ToolCall) : String :=
  ((results.find? (answers c ·)).map toolResultText).getD ""

/-- The tool messages an exchange calls for: one a call, with the text of its own result. -/
def expectedRun (calls : List ToolCall) (results : List ToolResult) : List Payload :=
  calls.map fun c => toolPayload c.id (ownText results c)

/-- The request pairs calls and results: its groups are the exchanges, each with one tool message a
call that carries the call's own result. -/
def Paired (ms : List Message) (request : List Payload) : Prop :=
  ∃ groups, toolGroups request = some groups ∧ List.Forall₂
    (fun ex g => g.1 = ex.1.map functionCall ∧ g.2.Perm (expectedRun ex.1 ex.2)) (exchanges ms)
    groups

/-! ### What the look-ahead finds -/

theorem eraseP_eq_filter {calls : List ToolCall} {p : ToolCall → Bool} (h : calls.countP p = 1) :
    calls.eraseP p = calls.filter (!p ·) := by
  induction calls with
  | nil => rfl
  | cons c calls ih =>
    by_cases hc : p c = true
    · have hrest : calls.countP p = 0 := by
        rw [countP_cons_of_pos hc] at h
        omega
      rw [eraseP_cons_of_pos hc, filter_cons_of_neg (by simp [hc])]
      refine (filter_eq_self.mpr fun d hd => ?_).symm
      simpa using countP_eq_zero.mp hrest d hd
    · rw [countP_cons_of_neg hc] at h
      rw [eraseP_cons_of_neg hc, filter_cons_of_pos (by simpa using hc), ih h]

variable (consumed : List ResultIdentity)

theorem collectItems_nil (rs : List ToolResult) : collectItems consumed [] rs = ([], []) := by
  induction rs with
  | nil => rfl
  | cons r rs ih => simp [collectItems, ih]

theorem collectItems_append (calls : List ToolCall) (rs qs : List ToolResult) :
    (collectItems consumed calls (rs ++ qs)).1 = (collectItems consumed calls rs).1 ++
      (collectItems consumed (collectItems consumed calls rs).2 qs).1 := by
  induction rs generalizing calls with
  | nil => rfl
  | cons r rs ih =>
    simp only [cons_append, collectItems]
    split
    · exact ih calls
    · split
      · simp only [ih, cons_append]
      · exact ih calls

/-- The look-ahead does not depend on how the results are spread over messages. -/
theorem collectLookahead_flat (calls : List ToolCall) (ms : List Message) :
    collectLookahead consumed calls ms =
      (collectItems consumed calls (ms.flatMap (·.results))).1 := by
  induction ms generalizing calls with
  | nil => cases calls <;> rfl
  | cons m ms ih =>
    cases calls with
    | nil => rw [collectItems_nil]; rfl
    | cons c calls =>
      rw [collectLookahead, flatMap_cons, collectItems_append, ← ih]
      exact cons_ne_nil c calls

theorem collectItems_none {consumed : List ResultIdentity} {calls : List ToolCall}
    (h : ∀ r ∈ rs, toolResultIdentity r ∉ consumed → ∀ c ∈ calls,
      answers c r = false) : (collectItems consumed calls rs).1 = [] := by
  induction rs with
  | nil => rfl
  | cons r rs ih =>
    have ih := ih fun q hq => h q (mem_cons_of_mem _ hq)
    rw [collectItems]
    split
    · exact ih
    · rename_i hr
      rw [if_neg]
      · exact ih
      · intro hany
        obtain ⟨c, hc, ha⟩ := any_eq_true.mp hany
        rw [h r mem_cons_self hr c hc] at ha
        cases ha

/-- No call is answered by two results. -/
def Separate (calls : List ToolCall) (rs : List ToolResult) : Prop :=
  rs.Pairwise fun r q => ∀ c ∈ calls, ¬ (answers c r = true ∧ answers c q = true)

theorem separate_of_countP {calls : List ToolCall} (h : ∀ c ∈ calls, rs.countP (answers c ·) ≤ 1) :
    Separate calls rs := by
  induction rs with
  | nil => exact .nil
  | cons r rs ih =>
    refine pairwise_cons.mpr ⟨fun q hq c hc hboth => ?_, ih fun c hc => ?_⟩
    · have hpos : 0 < rs.countP (answers c ·) := countP_pos_iff.mpr ⟨q, hq, hboth.2⟩
      have hle : rs.countP (answers c ·) + 1 ≤ 1 := by
        have h := h c hc
        rwa [countP_cons_of_pos hboth.1] at h
      omega
    · exact Nat.le_trans ((sublist_cons_self r rs).countP_le) (h c hc)

theorem Separate.filter {calls : List ToolCall} (h : Separate calls rs) (p : ToolCall → Bool) :
    Separate (calls.filter p) rs :=
  List.Pairwise.imp (fun hq c hc => hq c (mem_of_mem_filter hc)) h

theorem countP_filter_of_separate {calls : List ToolCall} {q : ToolResult}
    (h : ∀ c ∈ calls, ¬ (answers c r = true ∧ answers c q = true)) :
    (calls.filter (!answers · r)).countP (answers · q) = calls.countP (answers · q) := by
  rw [countP_filter]
  refine countP_congr fun c hc => ?_
  have := h c hc
  cases hr : answers c r <;> cases hq : answers c q <;> simp_all

section

variable {consumed : List ResultIdentity}

/-- The text a call's tool message gets: that of the result that answers it, if that is not used
up. -/
def servedText (consumed : List ResultIdentity) (rs : List ToolResult) (c : ToolCall) : String :=
  ownText (rs.filter fun r => toolResultIdentity r ∉ consumed) c

/-- What is collected for the calls: the results not used up, the calls they leave, and one tool
message a call. -/
structure Collected (consumed : List ResultIdentity) (calls : List ToolCall)
    (rs : List ToolResult) : Prop where
  found : (collectItems consumed calls rs).1 =
    rs.filter (fun r => toolResultIdentity r ∉ consumed)
  left : (collectItems consumed calls rs).2 = calls.filter (fun c =>
    (rs.filter fun r => toolResultIdentity r ∉ consumed).all (!answers c ·))
  payloads : ((collectItems consumed calls rs).1.map toolResultMessage ++
    (collectItems consumed calls rs).2.map (toolPayload ·.id "")).Perm
      (calls.map fun c => toolPayload c.id (servedText consumed rs c))

/-- **Results that answer the calls one to one are collected unless used up.** -/
theorem collectItems_spec {calls : List ToolCall} {rs : List ToolResult}
    (hone : ∀ r ∈ rs, toolResultIdentity r ∉ consumed → calls.countP (answers · r) = 1)
    (hsep : Separate calls rs)
    (hids : ∀ c ∈ calls, ∀ r ∈ rs, answers c r = true → r.toolUseId = c.id) :
    Collected consumed calls rs := by
  induction rs generalizing calls with
  | nil => exact ⟨rfl, by simp [collectItems], by simp [collectItems, servedText, ownText]⟩
  | cons r rs ih =>
    have hsep' : Separate calls rs := (pairwise_cons.mp hsep).2
    by_cases hr : toolResultIdentity r ∈ consumed
    · -- a result that is used up is passed over
      have hfilter : (r :: rs).filter (fun r => toolResultIdentity r ∉ consumed) =
          rs.filter (fun r => toolResultIdentity r ∉ consumed) :=
        filter_cons_of_neg (by simpa using hr)
      have hskip : collectItems consumed calls (r :: rs) = collectItems consumed calls rs := by
        rw [collectItems, if_pos hr]
      have hrest := ih (fun q hq => hone q (mem_cons_of_mem _ hq)) hsep'
        fun c hc q hq => hids c hc q (mem_cons_of_mem _ hq)
      refine ⟨?_, ?_, ?_⟩
      · rw [hskip, hfilter]
        exact hrest.found
      · rw [hskip, hfilter]
        exact hrest.left
      · unfold servedText
        rw [hskip, hfilter]
        exact hrest.payloads
    · have hcount := hone r mem_cons_self hr
      have hany : calls.any (answers · r) = true := by
        obtain ⟨c, hc, ha⟩ := countP_pos_iff.mp (by rw [hcount]; exact Nat.one_pos)
        exact any_eq_true.mpr ⟨c, hc, ha⟩
      have hfilter : (r :: rs).filter (fun r => toolResultIdentity r ∉ consumed) =
          r :: rs.filter (fun r => toolResultIdentity r ∉ consumed) :=
        filter_cons_of_pos (by simpa using hr)
      have htake : collectItems consumed calls (r :: rs) =
          (r :: (collectItems consumed (calls.filter (!answers · r)) rs).1,
            (collectItems consumed (calls.filter (!answers · r)) rs).2) := by
        rw [collectItems, if_neg hr, if_pos hany, eraseP_eq_filter hcount]
      obtain ⟨hfound, hleft, hperm⟩ := @ih (calls.filter (!answers · r))
        (fun q hq hfresh => by
          rw [countP_filter_of_separate ((pairwise_cons.mp hsep).1 q hq)]
          exact hone q (mem_cons_of_mem _ hq) hfresh)
        (hsep'.filter _)
        (fun c hc q hq => hids c (mem_of_mem_filter hc) q (mem_cons_of_mem _ hq))
      refine ⟨by rw [htake, hfilter, hfound], ?_, ?_⟩
      · rw [htake, hfilter, hleft, filter_filter]
        refine filter_congr fun c _ => ?_
        rw [all_cons, Bool.and_comm]
      · rw [htake]
        obtain ⟨c, hc, ha⟩ := any_eq_true.mp hany
        obtain ⟨c₀, l₁, l₂, -, hc₀, hcalls, herase⟩ :=
          exists_of_eraseP (p := (answers · r)) hc ha
        rw [eraseP_eq_filter hcount] at herase
        have hserved : toolPayload c₀.id (servedText consumed (r :: rs) c₀) =
            toolResultMessage r := by
          have hmem : c₀ ∈ calls := by simp [hcalls]
          rw [servedText, hfilter, ownText, find?_cons_of_pos hc₀, toolResultMessage,
            hids c₀ hmem r mem_cons_self hc₀]
          rfl
        have hrest : (calls.filter (!answers · r)).map
              (fun c => toolPayload c.id (servedText consumed (r :: rs) c)) =
            (calls.filter (!answers · r)).map
              (fun c => toolPayload c.id (servedText consumed rs c)) := by
          refine map_congr_left fun c hc => ?_
          have hno : ¬ answers c r = true := by simpa using (mem_filter.mp hc).2
          rw [servedText, hfilter, ownText, find?_cons_of_neg hno]
          rfl
        have hsplit : (calls.map fun c => toolPayload c.id (servedText consumed (r :: rs) c)).Perm
            (toolPayload c₀.id (servedText consumed (r :: rs) c₀) :: (l₁ ++ l₂).map
              fun c => toolPayload c.id (servedText consumed (r :: rs) c)) := by
          conv_lhs => rw [hcalls]
          exact perm_middle.map _
        rw [← herase, hrest, hserved] at hsplit
        exact (hperm.cons (toolResultMessage r)).trans hsplit.symm

/-- Looking for unmatched calls is collecting with nothing used up. -/
theorem unmatchedToolCalls_eq (calls : List ToolCall) (rs : List ToolResult) :
    unmatchedToolCalls calls rs = (collectItems [] calls rs).2 := by
  induction rs generalizing calls with
  | nil => rfl
  | cons r rs ih =>
    rw [unmatchedToolCalls, ih, collectItems, if_neg (not_mem_nil)]
    split
    · rfl
    · rename_i hany
      rw [eraseP_of_forall_not fun c hc ha => hany (any_eq_true.mpr ⟨c, hc, ha⟩)]

/-! ### What is used up -/

theorem answers_execution {e : String} (h : answers c r = true) (he : r.executionId = some e) :
    e = c.executionId := by
  rcases answers_iff.mp h with h | ⟨h, -⟩
  · rw [he] at h
    exact Option.some.inj h
  · rw [he] at h
    cases h

theorem answers_legacy (h : answers c r = true) (he : r.executionId = none) :
    c.id = r.toolUseId := by
  rcases answers_iff.mp h with h | ⟨-, h⟩
  · rw [he] at h
    cases h
  · exact h

/-- What is used up is what the exchanges so far held. -/
def Consumed (consumed : List ResultIdentity) (seen : List ToolResult) : Prop :=
  ∀ i, i ∈ consumed ↔ ∃ r ∈ seen, toolResultIdentity r = i

/-- The situation at an assistant message with the calls `calls`, before the messages `ms`: `seen`
are the results of the exchanges so far, which answer the calls `earlier`. -/
structure AtCalls (consumed : List ResultIdentity) (seen : List ToolResult)
    (earlier calls : List ToolCall) (ms : List Message) : Prop where
  used : Consumed consumed seen
  seenAnswer : ∀ r ∈ seen, ∃ c ∈ earlier, answers c r = true
  laterAnswer : ∀ r ∈ laterResults ms, ∃ c ∈ allCalls ms, answers c r = true
  distinct : ((earlier ++ calls ++ allCalls ms).map (·.executionId)).Nodup
  oneToOne : OneToOne calls (nextResults ms)
  carries : ∀ c ∈ calls, ∀ r ∈ nextResults ms, answers c r = true → r.toolUseId = c.id

variable {seen : List ToolResult} {earlier calls : List ToolCall} {ms : List Message}

section

variable (h : AtCalls consumed seen earlier calls ms)
include h

theorem AtCalls.not_earlier {d : ToolCall}
    (hc : c ∈ calls) (hd : d ∈ earlier) : d.executionId ≠ c.executionId := by
  have hnodup := h.distinct
  rw [append_assoc, map_append, nodup_append] at hnodup
  refine hnodup.2.2 _ (mem_map_of_mem hd) _ (mem_map_of_mem ?_)
  exact mem_append_left _ hc

theorem AtCalls.not_later {d : ToolCall}
    (hc : c ∈ calls) (hd : d ∈ allCalls ms) : c.executionId ≠ d.executionId := by
  have hnodup := h.distinct
  rw [map_append, nodup_append] at hnodup
  refine hnodup.2.2 _ (mem_map_of_mem ?_) _ (mem_map_of_mem hd)
  exact mem_append_right _ hc

theorem AtCalls.legacy (hc : c ∈ calls)
    (hr : answers c r = true) (hused : toolResultIdentity r ∈ consumed) : r.executionId = none := by
  cases he : r.executionId with
  | none => rfl
  | some e =>
    obtain ⟨q, hq, hid⟩ := (h.used _).mp hused
    have hqe : q.executionId = some e := by
      unfold toolResultIdentity at hid
      rw [he] at hid
      cases hq : q.executionId with
      | none => rw [hq] at hid; cases hid
      | some e' => rw [hq] at hid; cases hid; rfl
    obtain ⟨d, hd, hdq⟩ := h.seenAnswer q hq
    refine absurd ?_ (h.not_earlier hc hd)
    rw [← answers_execution hdq hqe, ← answers_execution hr he]

theorem AtCalls.own (hc : c ∈ calls) : ∃ r ∈ nextResults ms, answers c r = true := by
  have hcount := h.oneToOne.2 c hc
  exact countP_pos_iff.mp (by rw [hcount]; exact Nat.one_pos)

theorem AtCalls.collected :
    Collected consumed calls (nextResults ms) :=
  collectItems_spec (fun r hr _ => h.oneToOne.1 r hr)
    (separate_of_countP fun c hc => Nat.le_of_eq (h.oneToOne.2 c hc)) h.carries

/-- **The look-ahead finds the results of the message's own exchange** that are not used up. -/
theorem AtCalls.lookahead :
    collectLookahead consumed calls ms = (collectItems consumed calls (nextResults ms)).1 := by
  rw [collectLookahead_flat, results_split, collectItems_append]
  refine (congrArg _ (collectItems_none ?_)).trans (append_nil _)
  intro r hr hfresh c hc
  rw [h.collected.left, mem_filter, all_eq_true] at hc
  obtain ⟨hc, hopen⟩ := hc
  rw [Bool.eq_false_iff]
  intro ha
  obtain ⟨d, hd, hdr⟩ := h.laterAnswer r hr
  cases he : r.executionId with
  | some e =>
    refine absurd ?_ (h.not_later hc hd)
    rw [← answers_execution ha he, ← answers_execution hdr he]
  | none =>
    -- the call's own result is used up, and has the identity of `r`
    obtain ⟨r₀, hr₀, ha₀⟩ := h.own hc
    have hused : toolResultIdentity r₀ ∈ consumed := by
      by_contra hfresh₀
      have hno := hopen r₀ (mem_filter.mpr ⟨hr₀, by simpa using hfresh₀⟩)
      simp [ha₀] at hno
    have he₀ := h.legacy hc ha₀ hused
    refine hfresh ?_
    unfold toolResultIdentity at hused ⊢
    rw [he₀, ← answers_legacy ha₀ he₀] at hused
    rw [he, ← answers_legacy ha he]
    exact hused

theorem AtCalls.remaining :
    unmatchedToolCalls calls (collectItems consumed calls (nextResults ms)).1 =
      (collectItems consumed calls (nextResults ms)).2 := by
  have hsub : ∀ r ∈ (nextResults ms).filter (fun r => toolResultIdentity r ∉ consumed),
      r ∈ nextResults ms := fun r hr => mem_of_mem_filter hr
  have hsep := separate_of_countP fun c hc => Nat.le_of_eq (h.oneToOne.2 c hc)
  have hagain := @collectItems_spec [] calls
    ((nextResults ms).filter (fun r => toolResultIdentity r ∉ consumed))
    (fun r hr _ => h.oneToOne.1 r (hsub r hr)) (List.Pairwise.filter _ hsep)
    (fun c hc r hr => h.carries c hc r (hsub r hr))
  rw [h.collected.found, unmatchedToolCalls_eq, hagain.left, h.collected.left]
  simp

end

end

/-! ### The payloads of one message -/

section

variable {e : Endpoint} {consumed : List ResultIdentity} {m : Message} {ms : List Message}

theorem messagePayload_role (e : Endpoint) (m : Message) :
    (messagePayload e m).role = roleName m.role := by
  unfold messagePayload
  split <;> rfl

theorem messagePayload_calls (e : Endpoint) (m : Message) :
    (messagePayload e m).toolCalls = m.calls.map functionCall := by
  unfold messagePayload
  cases hm : m.content with
  | str s => simp [Message.calls, Message.blocks, hm]
  | blocks bs => rfl

theorem hasBlocks_of_calls (h : m.calls ≠ []) : m.hasBlocks = true := by
  by_contra hb
  rw [Message.calls, Message.blocks_eq_nil_of_not_hasBlocks (Bool.eq_false_iff.mpr hb)] at h
  exact h rfl

theorem results_filter_nil (hown : ∀ r ∈ m.results, toolResultIdentity r ∈ consumed) :
    m.results.filter (fun r => toolResultIdentity r ∉ consumed) = [] :=
  filter_eq_nil_iff.mpr fun r hr => by simpa using hown r hr

/-- A message with calls, whose own results are used up: its payload, the tool messages, and the
images of its results. -/
theorem messagePayloads_calls {seen : List ToolResult} {earlier : List ToolCall}
    (h : AtCalls consumed seen earlier m.calls ms)
    (hown : ∀ r ∈ m.results, toolResultIdentity r ∈ consumed) (hcalls : m.calls ≠ []) :
    messagePayloads e consumed m ms =
      ([messagePayload e m] ++ batchPayloads (collectItems consumed m.calls (nextResults ms)).1
          (collectItems consumed m.calls (nextResults ms)).2,
        (collectItems consumed m.calls (nextResults ms)).1) := by
  have hpayload : (messagePayload e m).toolCalls ≠ [] := by
    rw [messagePayload_calls]
    exact fun hnil => hcalls (map_eq_nil_iff.mp hnil)
  have hothers : ¬ ((m.blocks.filter fun b => b.asToolResult?.isNone).isEmpty = true ∧
      m.results ≠ []) := by
    rintro ⟨hempty, -⟩
    obtain ⟨c, hc⟩ := exists_mem_of_ne_nil _ hcalls
    have hmem := filter_eq_nil_iff.mp (List.isEmpty_iff.mp hempty) _ (Message.mem_calls.mp hc)
    exact hmem rfl
  unfold messagePayloads
  rw [hasBlocks_of_calls hcalls, results_filter_nil hown]
  simp only [Bool.not_true, Bool.false_eq_true, if_false, ne_eq, not_true_eq_false]
  rw [if_neg hothers, if_pos hpayload, h.lookahead, h.remaining]
  simp [emitPayload, hpayload]

/-- A message without calls, whose own results are used up. -/
theorem messagePayloads_plain (hown : ∀ r ∈ m.results, toolResultIdentity r ∈ consumed)
    (hcalls : m.calls = []) :
    (messagePayloads e consumed m ms).2 = [] ∧
      ∀ p ∈ (messagePayloads e consumed m ms).1, p.role = roleName m.role ∧ p.toolCalls = [] := by
  have hpayload : (messagePayload e m).toolCalls = [] := by
    rw [messagePayload_calls, hcalls]
    rfl
  have hone : ∀ p ∈ emitPayload (messagePayload e m), p.role = roleName m.role ∧ p.toolCalls = [] := by
    intro p hp
    unfold emitPayload at hp
    split at hp
    · rw [mem_singleton.mp hp]
      exact ⟨messagePayload_role e m, hpayload⟩
    · cases hp
  unfold messagePayloads
  rw [results_filter_nil hown]
  simp only [ne_eq, not_true_eq_false, if_false, hpayload]
  split
  · refine ⟨rfl, fun p hp => ?_⟩
    rw [mem_singleton.mp hp]
    exact ⟨messagePayload_role e m, hpayload⟩
  · split
    · exact ⟨rfl, forall_mem_nil _⟩
    · exact ⟨rfl, hone⟩

end

/-! ### Own results -/

theorem eq_of_countP_one {α : Type} {p : α → Bool} {l : List α} (h : l.countP p = 1) {a b : α}
    (ha : a ∈ l) (hpa : p a = true) (hb : b ∈ l) (hpb : p b = true) : a = b := by
  have hlen : (l.filter p).length = 1 := by rw [← countP_eq_length_filter, h]
  obtain ⟨x, hx⟩ := length_eq_one_iff.mp hlen
  have hmem : ∀ y, y ∈ l → p y = true → y = x := by
    intro y hy hpy
    have := mem_filter.mpr ⟨hy, hpy⟩
    rw [hx] at this
    exact mem_singleton.mp this
  rw [hmem a ha hpa, hmem b hb hpb]

theorem ownText_of_unique (hr : r ∈ rs) (ha : answers c r = true)
    (hunique : ∀ q ∈ rs, answers c q = true → q = r) : ownText rs c = toolResultText r := by
  obtain ⟨q, hq⟩ := Option.isSome_iff_exists.mp
    (find?_isSome.mpr ⟨r, hr, ha⟩ : (rs.find? (answers c ·)).isSome = true)
  have hqr : q = r := hunique q (mem_of_find?_eq_some hq) (find?_some hq)
  rw [ownText, hq, hqr]
  rfl

theorem ownText_of_none (h : ∀ r ∈ rs, answers c r = false) : ownText rs c = "" := by
  have hnone : rs.find? (answers c ·) = none :=
    find?_eq_none.mpr fun r hr => by simp [h r hr]
  rw [ownText, hnone]
  rfl

section

variable {consumed : List ResultIdentity} {seen : List ToolResult}
variable {earlier calls : List ToolCall} {ms : List Message}

theorem AtCalls.servedText (h : AtCalls consumed seen earlier calls ms) (hc : c ∈ calls)
    (hr : r ∈ nextResults ms) (ha : answers c r = true) :
    ownText (nextResults ms) c = toolResultText r ∧
      servedText consumed (nextResults ms) c =
        if toolResultIdentity r ∈ consumed then "" else toolResultText r := by
  have hunique : ∀ q ∈ nextResults ms, answers c q = true → q = r := fun q hq haq =>
    eq_of_countP_one (h.oneToOne.2 c hc) hq haq hr ha
  refine ⟨ownText_of_unique hr ha hunique, ?_⟩
  split
  · rename_i hused
    refine ownText_of_none fun q hq => ?_
    obtain ⟨hq, hfresh⟩ := mem_filter.mp hq
    rw [Bool.eq_false_iff]
    intro haq
    rw [hunique q hq haq] at hfresh
    simp [hused] at hfresh
  · rename_i hfresh
    exact ownText_of_unique (mem_filter.mpr ⟨hr, by simpa using hfresh⟩) ha
      fun q hq => hunique q (mem_of_mem_filter hq)

/-- **A message's calls are served their own results exactly when every result that is used up
before has an empty text.** -/
theorem AtCalls.served_iff (h : AtCalls consumed seen earlier calls ms) :
    (calls.map fun c => toolPayload c.id (OpenAi.servedText consumed (nextResults ms) c)).Perm
        (expectedRun calls (nextResults ms)) ↔
      ∀ r ∈ nextResults ms, toolResultIdentity r ∈ consumed → toolResultText r = "" := by
  constructor
  · intro hperm r hr hused
    obtain ⟨c, hc, ha⟩ := countP_pos_iff.mp
      (by rw [h.oneToOne.1 r hr]; exact Nat.one_pos : 0 < calls.countP (answers · r))
    obtain ⟨hown, hserved⟩ := h.servedText hc hr ha
    have hmem : toolPayload c.id (toolResultText r) ∈ expectedRun calls (nextResults ms) := by
      rw [← hown]
      exact mem_map.mpr ⟨c, hc, rfl⟩
    obtain ⟨d, hd, heq⟩ := mem_map.mp (hperm.mem_iff.mpr hmem)
    simp only [toolPayload, Payload.mk.injEq, Option.some.injEq, Sum.inl.injEq] at heq
    -- a used-up result has no execution id, so no other call of the message has the same id
    have hlegacy := h.legacy hc ha hused
    have had : answers d r = true := by
      refine answers_iff.mpr (.inr ⟨hlegacy, ?_⟩)
      rw [heq.2.2.2.2]
      exact answers_legacy ha hlegacy
    have hdc : d = c := eq_of_countP_one (h.oneToOne.1 r hr) hd had hc ha
    rw [hdc, hserved, if_pos hused] at heq
    exact heq.2.1.symm
  · intro hempty
    refine List.Perm.of_eq (map_congr_left fun c hc => ?_)
    obtain ⟨r, hr, ha⟩ := h.own hc
    obtain ⟨hown, hserved⟩ := h.servedText hc hr ha
    rw [hown, hserved]
    split
    · rename_i hused
      rw [hempty r hr hused]
    · rfl

end

/-! ### The request -/

theorem laterResults_answered {ms : List Message} (h : ExchangesFrom ms) :
    ∀ r ∈ laterResults ms, ∃ c ∈ allCalls ms, answers c r = true := by
  induction ms with
  | nil => exact forall_mem_nil _
  | cons m ms ih =>
    obtain ⟨hm, hrest⟩ := h
    have hmore : ∀ r ∈ laterResults ms, ∃ c ∈ allCalls (m :: ms), answers c r = true := by
      intro r hr
      obtain ⟨c, hc, ha⟩ := ih hrest r hr
      exact ⟨c, mem_append_right _ hc, ha⟩
    intro r hr
    rw [laterResults] at hr
    split at hr
    · rename_i hrole
      rw [if_pos hrole] at hm
      rw [results_split, mem_append] at hr
      rcases hr with hr | hr
      · obtain ⟨c, hc, ha⟩ := countP_pos_iff.mp
          (by rw [hm.1 r hr]; exact Nat.one_pos : 0 < m.calls.countP (answers · r))
        exact ⟨c, mem_append_left _ hc, ha⟩
      · exact hmore r hr
    · exact hmore r hr

/-- The situation before the messages `ms`: `seen` are the results of the exchanges so far, with
those of the current one that are still to come. -/
structure Before (consumed : List ResultIdentity) (seen : List ToolResult)
    (earlier : List ToolCall) (ms : List Message) : Prop where
  used : Consumed consumed seen
  current : ∀ r ∈ nextResults ms, r ∈ seen
  seenAnswer : ∀ r ∈ seen, ∃ c ∈ earlier, answers c r = true
  exchanges : ExchangesFrom ms
  distinct : ((earlier ++ allCalls ms).map (·.executionId)).Nodup
  carries : ∀ c ∈ allCalls ms, ∀ r ∈ ms.flatMap (·.results), answers c r = true →
    r.toolUseId = c.id
  roles : ∀ m ∈ ms, roleName m.role ≠ "tool"

section

variable {consumed : List ResultIdentity} {seen : List ToolResult} {earlier : List ToolCall}
variable {m : Message} {ms : List Message}

section

variable (h : Before consumed seen earlier (m :: ms))
include h

theorem Before.own :
    ∀ r ∈ m.results, toolResultIdentity r ∈ consumed := fun r hr =>
  (h.used _).mpr ⟨r, h.current r (mem_append_left _ hr), rfl⟩

theorem Before.atCalls (hrole : m.role = .assistant) :
    AtCalls consumed seen earlier m.calls ms where
  used := h.used
  seenAnswer := h.seenAnswer
  laterAnswer := laterResults_answered h.exchanges.2
  distinct := by
    rw [append_assoc]
    exact h.distinct
  oneToOne := by
    have hm := h.exchanges.1
    rwa [if_pos hrole] at hm
  carries := fun c hc r hr => h.carries c (mem_append_left _ hc) r (by
    rw [flatMap_cons, results_split]
    exact mem_append_right _ (mem_append_left _ hr))

theorem Before.answered (hrole : m.role = .assistant) :
    Before (consumed ++ ((nextResults ms).filter
        (fun r => toolResultIdentity r ∉ consumed)).map toolResultIdentity)
      (seen ++ nextResults ms) (earlier ++ m.calls) ms where
  used := by
    intro i
    constructor
    · intro hi
      rcases mem_append.mp hi with hi | hi
      · obtain ⟨r, hr, hid⟩ := (h.used i).mp hi
        exact ⟨r, mem_append_left _ hr, hid⟩
      · obtain ⟨r, hr, hid⟩ := mem_map.mp hi
        exact ⟨r, mem_append_right _ (mem_of_mem_filter hr), hid⟩
    · rintro ⟨r, hr, rfl⟩
      by_cases hold : toolResultIdentity r ∈ consumed
      · exact mem_append_left _ hold
      · rcases mem_append.mp hr with hr | hr
        · exact absurd ((h.used _).mpr ⟨r, hr, rfl⟩) hold
        · refine mem_append_right _ (mem_map_of_mem ?_)
          exact mem_filter.mpr ⟨hr, by simpa using hold⟩
  current := fun r hr => mem_append_right _ hr
  seenAnswer := by
    intro r hr
    rcases mem_append.mp hr with hr | hr
    · obtain ⟨c, hc, ha⟩ := h.seenAnswer r hr
      exact ⟨c, mem_append_left _ hc, ha⟩
    · obtain ⟨c, hc, ha⟩ := countP_pos_iff.mp
        (by rw [(h.atCalls hrole).oneToOne.1 r hr]; exact Nat.one_pos :
          0 < m.calls.countP (answers · r))
      exact ⟨c, mem_append_right _ hc, ha⟩
  exchanges := h.exchanges.2
  distinct := by
    rw [append_assoc]
    exact h.distinct
  carries := fun c hc r hr => h.carries c (mem_append_right _ hc) r
    (mem_append_right _ hr)
  roles := fun x hx => h.roles x (mem_cons_of_mem _ hx)

theorem Before.other (hrole : m.role ≠ .assistant) : Before consumed seen earlier ms where
  used := h.used
  current := fun r hr => h.current r (by
    rw [nextResults, if_neg hrole]
    exact mem_append_right _ hr)
  seenAnswer := h.seenAnswer
  exchanges := h.exchanges.2
  distinct := by
    have hd := h.distinct
    have hcalls := h.exchanges.1
    rw [if_neg hrole] at hcalls
    rwa [allCalls, flatMap_cons, hcalls, nil_append] at hd
  carries := fun c hc r hr => h.carries c (mem_append_right _ hc) r
    (mem_append_right _ hr)
  roles := fun x hx => h.roles x (mem_cons_of_mem _ hx)

end

end

/-- Every result with a text is new when its exchange comes: none of those in `seen` has its
identity. -/
def FreshFrom (seen : List ToolResult) : List Message → Prop
  | [] => True
  | m :: ms =>
      if m.role = .assistant then
        (∀ r ∈ nextResults ms, (∃ q ∈ seen, toolResultIdentity q = toolResultIdentity r) →
          toolResultText r = "") ∧ FreshFrom (seen ++ nextResults ms) ms
      else FreshFrom seen ms

theorem batch_tool (batch : List ToolResult) (remaining : List ToolCall) :
    ∀ p ∈ batch.map toolResultMessage ++ remaining.map (toolPayload ·.id ""), p.role = "tool" := by
  intro p hp
  rcases mem_append.mp hp with hp | hp
  · obtain ⟨r, -, rfl⟩ := mem_map.mp hp
    rfl
  · obtain ⟨c, -, rfl⟩ := mem_map.mp hp
    rfl

theorem followup_plain (batch : List ToolResult) :
    ∀ p ∈ batch.filterMap imageFollowup, p.role ≠ "tool" ∧ p.toolCalls = [] := by
  intro p hp
  obtain ⟨r, -, hr⟩ := mem_filterMap.mp hp
  unfold imageFollowup at hr
  split at hr
  · cases hr
  · cases hr
    exact ⟨by simp, rfl⟩

theorem payloadsFrom_cons (e : Endpoint) (consumed : List ResultIdentity) (m : Message)
    (ms : List Message) :
    payloadsFrom e consumed (m :: ms) = (messagePayloads e consumed m ms).1 ++ payloadsFrom e
      (consumed ++ (messagePayloads e consumed m ms).2.map toolResultIdentity) ms := rfl

/-- The groups of the request from some message on: they are the exchanges, each served its own
results exactly when those are new. -/
theorem scan_payloadsFrom (e : Endpoint) {ms : List Message} {consumed : List ResultIdentity}
    {seen : List ToolResult} {earlier : List ToolCall} (h : Before consumed seen earlier ms) :
    ∃ groups, scanTools (payloadsFrom e consumed ms) = some ([], groups) ∧
      (List.Forall₂ (fun ex g => g.1 = ex.1.map functionCall ∧
          g.2.Perm (expectedRun ex.1 ex.2)) (exchanges ms) groups ↔ FreshFrom seen ms) := by
  induction ms generalizing consumed seen earlier with
  | nil => exact ⟨[], rfl, iff_of_true .nil trivial⟩
  | cons m ms ih =>
    have hplainRole : roleName m.role ≠ "tool" := h.roles m mem_cons_self
    by_cases hcalls : m.calls = []
    · -- no calls: its payloads are plain, and nothing is used up
      obtain ⟨hused, hplain⟩ := @messagePayloads_plain e consumed m ms h.own hcalls
      have hnext : m.role = .assistant → nextResults ms = [] := by
        intro hrole
        refine eq_nil_iff_forall_not_mem.mpr fun r hr => ?_
        have hcount := (h.atCalls hrole).oneToOne.1 r hr
        rw [hcalls] at hcount
        cases hcount
      have hrest : Before consumed seen earlier ms := by
        by_cases hrole : m.role = .assistant
        · have hanswered := h.answered hrole
          rw [hnext hrole, hcalls] at hanswered
          simpa using hanswered
        · exact h.other hrole
      obtain ⟨groups, hscan, hiff⟩ := ih hrest
      refine ⟨groups, ?_, ?_⟩
      · rw [payloadsFrom_cons, hused, map_nil, append_nil]
        refine scanTools_plain (fun p hp => ?_) hscan
        obtain ⟨hrole, hnone⟩ := hplain p hp
        rw [hrole]
        exact ⟨hplainRole, hnone⟩
      · have hskip : exchanges (m :: ms) = exchanges ms := by
          rw [exchanges, if_neg (by simp [hcalls])]
        rw [hskip, hiff, FreshFrom]
        split
        · rename_i hrole
          rw [hnext hrole, append_nil]
          simp
        · rfl
    · have hrole : m.role = .assistant := by
        by_contra hother
        have hm := h.exchanges.1
        rw [if_neg hother] at hm
        exact hcalls hm
      have hat := h.atCalls hrole
      have hanswered := h.answered hrole
      rw [← hat.collected.found] at hanswered
      obtain ⟨groups, hscan, hiff⟩ := ih hanswered
      refine ⟨((messagePayload e m).toolCalls,
        (collectItems consumed m.calls (nextResults ms)).1.map toolResultMessage ++
          (collectItems consumed m.calls (nextResults ms)).2.map (toolPayload ·.id "")) :: groups,
        ?_, ?_⟩
      · rw [payloadsFrom_cons, messagePayloads_calls hat h.own hcalls]
        rw [batchPayloads, append_assoc, append_assoc, singleton_append]
        refine scanTools_group ?_ ?_ (batch_tool _ _) (followup_plain _) hscan
        · rw [messagePayload_role]
          exact hplainRole
        · rw [messagePayload_calls]
          exact fun hnil => hcalls (map_eq_nil_iff.mp hnil)
      · rw [exchanges, if_pos hcalls, forall₂_cons, hiff, FreshFrom, if_pos hrole]
        refine and_congr_left fun _ => ?_
        have hserved := hat.served_iff
        constructor
        · rintro ⟨-, hperm⟩ r hr hseen
          exact hserved.mp (hat.collected.payloads.symm.trans hperm) r hr ((h.used _).mpr hseen)
        · intro hfresh
          refine ⟨messagePayload_calls e m, hat.collected.payloads.trans (hserved.mpr ?_)⟩
          intro r hr hused
          exact hfresh r hr ((h.used _).mp hused)

/-! ### Results with the identity of an earlier one -/

/-- No result with a text has the identity of an earlier result. -/
def FreshIdentities (rs : List ToolResult) : Prop :=
  rs.Pairwise fun q r => toolResultIdentity q = toolResultIdentity r → toolResultText r = ""

theorem freshIdentities_append {qs : List ToolResult} :
    FreshIdentities (qs ++ rs) ↔ FreshIdentities qs ∧ FreshIdentities rs ∧
      ∀ q ∈ qs, ∀ r ∈ rs, toolResultIdentity q = toolResultIdentity r → toolResultText r = "" :=
  pairwise_append

/-- Results with one identity answer the same calls. -/
theorem answers_of_identity {q : ToolResult} (h : toolResultIdentity q = toolResultIdentity r)
    (ha : answers c r = true) : answers c q = true := by
  unfold toolResultIdentity at h
  rw [answers_iff] at ha ⊢
  cases hq : q.executionId <;> cases hr : r.executionId <;> simp_all

theorem freshIdentities_of_oneToOne {calls : List ToolCall} (h : OneToOne calls rs) :
    FreshIdentities rs := by
  have hsep := separate_of_countP fun c hc => Nat.le_of_eq (h.2 c hc)
  refine List.Pairwise.imp_of_mem (fun {q r} _ hr hno hid => ?_) hsep
  obtain ⟨c, hc, ha⟩ := countP_pos_iff.mp
    (by rw [h.1 r hr]; exact Nat.one_pos : 0 < calls.countP (answers · r))
  exact absurd ⟨answers_of_identity hid ha, ha⟩ (hno c hc)

theorem freshFrom_iff {ms : List Message} (h : ExchangesFrom ms) (seen : List ToolResult) :
    FreshFrom seen ms ↔
      (∀ q ∈ seen, ∀ r ∈ laterResults ms, toolResultIdentity q = toolResultIdentity r →
        toolResultText r = "") ∧ FreshIdentities (laterResults ms) := by
  induction ms generalizing seen with
  | nil => exact iff_of_true trivial ⟨fun q _ r hr => absurd hr not_mem_nil, .nil⟩
  | cons m ms ih =>
    rw [FreshFrom, laterResults]
    split
    · rename_i hrole
      have hm := h.1
      rw [if_pos hrole] at hm
      have hown := freshIdentities_of_oneToOne hm
      rw [ih h.2, results_split, freshIdentities_append]
      constructor
      · rintro ⟨hnew, hseen, hlater⟩
        refine ⟨fun q hq r hr hid => ?_, hown, hlater, fun q hq r hr => ?_⟩
        · rcases mem_append.mp hr with hr | hr
          · exact hnew r hr ⟨q, hq, hid⟩
          · exact hseen q (mem_append_left _ hq) r hr hid
        · exact hseen q (mem_append_right _ hq) r hr
      · rintro ⟨hseen, -, hlater, hcross⟩
        refine ⟨fun r hr ⟨q, hq, hid⟩ => hseen q hq r (mem_append_left _ hr) hid,
          fun q hq r hr hid => ?_, hlater⟩
        rcases mem_append.mp hq with hq | hq
        · exact hseen q hq r (mem_append_right _ hr) hid
        · exact hcross q hq r hr hid
    · exact ih h.2 seen

/-- **`to_openai` pairs calls and results exactly when no result with a text has the identity of an
earlier result**: only a result without an execution id can, whose provider id an earlier such
result has. -/
theorem toOpenai_paired_iff (e : Endpoint) (ms : List Message) (hexchanges : Exchanges ms)
    (hdistinct : DistinctExecutionIds ms) (hcarries : CarriesProviderId ms)
    (hroles : ∀ m ∈ ms, roleName m.role ≠ "tool") :
    Paired ms (toOpenai e ms) ↔ FreshIdentities (ms.flatMap (·.results)) := by
  have hbefore : Before [] [] [] ms :=
    { used := fun i => by simp
      current := fun r hr => by rw [hexchanges.1] at hr; exact hr
      seenAnswer := forall_mem_nil _
      exchanges := hexchanges.2
      distinct := hdistinct
      carries := by
        intro c hc r hr ha
        rcases answers_iff.mp ha with he | ⟨-, he⟩
        · obtain ⟨u, hu, hr⟩ := mem_flatMap.mp hr
          exact hcarries c r (mem_allCalls.mp hc)
            (mem_flatMap.mpr ⟨u, hu, Message.mem_results.mp hr⟩) he
        · exact he.symm
      roles := hroles }
  obtain ⟨groups, hscan, hiff⟩ := scan_payloadsFrom e hbefore
  have hgroups : toolGroups (toOpenai e ms) = some groups := by
    rw [toolGroups, toOpenai, hscan]
  have hpaired : Paired ms (toOpenai e ms) ↔ FreshFrom [] ms := by
    rw [← hiff, Paired]
    constructor
    · rintro ⟨groups', hg, hall⟩
      rw [hgroups, Option.some.injEq] at hg
      rw [hg]
      exact hall
    · intro hall
      exact ⟨groups, hgroups, hall⟩
  rw [hpaired, freshFrom_iff hexchanges.2, results_split, hexchanges.1, nil_append]
  exact ⟨fun h => h.2, fun h => ⟨fun q hq => absurd hq not_mem_nil, h⟩⟩

/-! ### A provider that numbers its calls anew in each response -/

def bareEndpoint : Endpoint where
  reasoningReplayField _ _ := none

def countedCall (executionId : String) : ToolCall where
  id := "call_0"
  name := "read_file"
  input := .obj []
  executionId := executionId

def countedResult (executionId : Option String) (text : String) : ToolResult where
  toolUseId := "call_0"
  content := .inl text
  name := "read_file"
  isError := false
  executionId := executionId

/-- Two turns, each with a call of the id `call_0`. -/
def twoTurns (first second : Option String) : List Message :=
  [{ role := .assistant, content := .blocks [.toolCall (countedCall "exec-1")] },
   { role := .user, content := .blocks [.toolResult (countedResult first "one")] },
   { role := .assistant, content := .blocks [.toolCall (countedCall "exec-2")] },
   { role := .user, content := .blocks [.toolResult (countedResult second "two")] }]

theorem oneToOne_single (h : answers c r = true) : OneToOne [c] [r] := by
  refine ⟨fun q hq => ?_, fun d hd => ?_⟩
  · rw [mem_singleton.mp hq]
    simp [h]
  · rw [mem_singleton.mp hd]
    simp [h]

/-- The results may carry their calls' execution ids or none. -/
theorem twoTurns_exchanges {first second : Option String}
    (hfirst : first = some "exec-1" ∨ first = none)
    (hsecond : second = some "exec-2" ∨ second = none) :
    Exchanges (twoTurns first second) ∧ DistinctExecutionIds (twoTurns first second) ∧
      CarriesProviderId (twoTurns first second) ∧
      ∀ m ∈ twoTurns first second, roleName m.role ≠ "tool" := by
  refine ⟨⟨rfl, oneToOne_single ?_, rfl, oneToOne_single ?_, rfl, trivial⟩, ?_, ?_, ?_⟩
  · rcases hfirst with rfl | rfl <;> decide
  · rcases hsecond with rfl | rfl <;> decide
  · show ["exec-1", "exec-2"].Nodup
    decide
  · intro c r hc hr _
    simp only [Conversation.allBlocks, twoTurns, Message.blocks, flatMap_cons,
      flatMap_nil, append_nil, cons_append, nil_append, mem_cons,
      ContentBlock.toolCall.injEq, ContentBlock.toolResult.injEq, reduceCtorEq, not_mem_nil,
      false_or, or_false] at hc hr
    rcases hc with rfl | rfl <;> rcases hr with rfl | rfl <;> rfl
  · intro m hm
    simp only [twoTurns, mem_cons, not_mem_nil, or_false] at hm
    rcases hm with rfl | rfl | rfl | rfl <;> simp [roleName]

theorem toOpenai_paired_withExecutionIds :
    Paired (twoTurns (some "exec-1") (some "exec-2"))
      (toOpenai bareEndpoint (twoTurns (some "exec-1") (some "exec-2"))) := by
  obtain ⟨hex, hdistinct, hcarries, hroles⟩ := twoTurns_exchanges (.inl rfl) (.inl rfl)
  refine (toOpenai_paired_iff bareEndpoint _ hex hdistinct hcarries hroles).mpr ?_
  exact pairwise_pair.mpr fun hid => absurd hid (by decide)

/-- Without execution ids the second turn's result counts as the first's, used up already, and its
call is answered by an empty text. -/
theorem toOpenai_loses_secondResult :
    (Exchanges (twoTurns none none) ∧ DistinctExecutionIds (twoTurns none none) ∧
      CarriesProviderId (twoTurns none none) ∧
      ∀ m ∈ twoTurns none none, roleName m.role ≠ "tool") ∧
    ¬ Paired (twoTurns none none) (toOpenai bareEndpoint (twoTurns none none)) := by
  refine ⟨twoTurns_exchanges (.inr rfl) (.inr rfl), ?_⟩
  rintro ⟨groups, hgroups, hall⟩
  have hrequest : toolGroups (toOpenai bareEndpoint (twoTurns none none)) =
      some [([functionCall (countedCall "exec-1")], [toolPayload "call_0" "one"]),
        ([functionCall (countedCall "exec-2")], [toolPayload "call_0" ""])] := rfl
  rw [hrequest, Option.some.injEq] at hgroups
  subst hgroups
  obtain ⟨-, hrest⟩ := forall₂_cons.mp hall
  obtain ⟨⟨-, hperm⟩, -⟩ := forall₂_cons.mp hrest
  have hmem : toolPayload "call_0" "two" ∈ [toolPayload "call_0" ""] :=
    hperm.mem_iff.mpr mem_cons_self
  simp [toolPayload] at hmem

end KolegaCode.OpenAi
