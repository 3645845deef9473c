import KolegaCode.Orchestration.Runtime

/-!
# Orchestration — resuming a run

A resumed run hands the completed rows of every content key out in the order in which the first run
issued their calls (`run_replays`), and the journal that it writes replays the run itself
(`resume_replays`).
-/

namespace KolegaCode.Orchestration

open List Option
open Json (Dict get?)

/-! ### The rows that calls take -/

/-- The row of the cache that a call took. -/
def Call.taken (call : Call) : Option Dict :=
  match call.fate with
  | .replayed row => some row
  | _ => none

def Runtime.keys (r : Runtime) : List String := r.calls.map Call.key

/-- A call took the row of its key that as many calls of that key came before as rows. -/
structure Replays (left : String → List Dict) (r : Runtime) : Prop where
  cache : ∀ key, r.cache.left key = (left key).drop (r.keys.count key)
  calls : ∀ i call, r.calls[i]? = some call →
    call.taken = (left call.key)[(r.keys.take i).count call.key]?

section Step

variable {c : Config} {r : Runtime} {left : String → List Dict}

theorem getElem?_setFate (index i : Nat) (fate : Fate) : (r.setFate index fate).calls[i]? =
    if index = i then r.calls[i]?.map fun call => { call with fate } else r.calls[i]? := by
  rw [Runtime.setFate, getElem?_modify]
  split
  · rfl
  · exact Option.map_id'

theorem keys_setFate (index : Nat) (fate : Fate) : (r.setFate index fate).keys = r.keys := by
  refine ext_getElem? fun i => ?_
  rw [Runtime.keys, Runtime.keys, getElem?_map, getElem?_map, getElem?_setFate]
  split
  · rw [Option.map_map]
    rfl
  · rfl

/-- A call at work has taken no row, and takes none when it ends. -/
theorem Replays.setFate {index : Nat} {fate : Fate} {key : String} {spec : AgentRunSpec}
    (h : Replays left r) (hlive : r.calls[index]? = some ⟨key, spec, .live⟩)
    (hfate : ∀ row, fate ≠ .replayed row) : Replays left (r.setFate index fate) := by
  refine ⟨fun key => ?_, fun i call hcall => ?_⟩
  · rw [keys_setFate]
    exact h.cache key
  · rw [keys_setFate]
    rw [getElem?_setFate] at hcall
    split at hcall
    · next heq =>
      subst heq
      rw [hlive] at hcall
      have hcall := Option.some.inj hcall
      have htaken := h.calls index _ hlive
      rw [← hcall]
      refine Eq.trans ?_ htaken
      unfold Call.taken
      split
      · next row hrow => exact absurd hrow (hfate row)
      · rfl
    · exact h.calls i call hcall

theorem Replays.agent (h : Replays left r) (call : AgentCall) : Replays left (r.agent c call) := by
  set spec := call.spec c r with hspec
  set key := spec.cacheKey c with hkey
  obtain ⟨hrow, hcache⟩ : (r.cache.take key).1 = (r.cache.left key).head? ∧ ∀ key',
      (r.cache.take key).2.left key' =
        if key' = key then (r.cache.left key).tail else r.cache.left key' :=
    ⟨(r.cache.take_left key key).1, fun key' => (r.cache.take_left key key').2⟩
  -- whichever way it goes, the call is the last, and has the head of what was left
  have hagent : ∃ fate, (r.agent c call).calls = r.calls ++ [⟨key, spec, fate⟩] ∧
      (Call.mk key spec fate).taken = (r.cache.left key).head? ∧
      ∀ key', (r.agent c call).cache.left key' =
        if key' = key then (r.cache.left key).tail else r.cache.left key' := by
    unfold Runtime.agent
    dsimp only
    rw [← hspec, ← hkey]
    cases htake : r.cache.take key with
    | mk row cache =>
      rw [htake] at hrow hcache
      cases row with
      | some row => exact ⟨.replayed row, rfl, hrow, hcache⟩
      | none =>
        have hnil : r.cache.left key = [] := head?_eq_none_iff.mp hrow.symm
        refine ⟨.live, rfl, hrow, fun key' => ?_⟩
        by_cases heq : key' = key
        · rw [if_pos heq, heq, hnil]
          rfl
        · rw [if_neg heq]
  obtain ⟨fate, hcalls, htaken, hleft⟩ := hagent
  have hkeys : (r.agent c call).keys = r.keys ++ [key] := by
    rw [Runtime.keys, hcalls, map_append]
    rfl
  refine ⟨fun key' => ?_, fun i call' hcall => ?_⟩
  · rw [hleft, hkeys, count_append, h.cache, h.cache]
    split
    · next heq =>
      rw [heq, count_singleton_self, tail_drop]
    · next hne =>
      rw [count_singleton, if_neg (by simpa using fun h => hne h.symm), Nat.add_zero]
  · have hlength : r.keys.length = r.calls.length := length_map _
    rw [hcalls] at hcall
    rw [hkeys]
    by_cases hi : i < r.calls.length
    · rw [getElem?_append_left hi] at hcall
      rw [take_append_of_le_length (by omega)]
      exact h.calls i call' hcall
    · have hlt := (List.getElem?_eq_some_iff.mp hcall).1
      rw [length_append, length_singleton] at hlt
      have heq : i = r.calls.length := by omega
      subst heq
      rw [getElem?_concat_length] at hcall
      cases hcall
      rw [htaken, h.cache, ← hlength, List.take_left, head?_drop]

theorem Replays.step (h : Replays left r) (event : Event) : Replays left (r.step c event) := by
  cases event with
  | phase title => exact ⟨h.cache, h.calls⟩
  | agent call =>
    unfold Runtime.step
    dsimp only
    split
    · exact h
    · exact h.agent call
  | settle index result =>
    unfold Runtime.step
    dsimp only
    split
    · next key spec hlive =>
      have hset := @Replays.setFate r left index (.returned result) key spec h hlive nofun
      exact ⟨hset.cache, hset.calls⟩
    · exact h
  | fail index =>
    unfold Runtime.step
    dsimp only
    split
    · next key spec hlive => exact h.setFate hlive nofun
    · exact h

theorem replays_run (cache : ResumeCache) (events : List Event) :
    Replays cache.left (.run c cache events) := by
  have hstart : Replays cache.left (.start cache) :=
    ⟨fun key => (drop_zero (l := cache.left key)).symm, fun i call h => by cases h⟩
  have hfold : ∀ (events : List Event) (r : Runtime), Replays cache.left r →
      Replays cache.left (events.foldl (Runtime.step c) r) := by
    intro events
    induction events with
    | nil => exact fun _ h => h
    | cons event events ih => exact fun r h => ih _ (h.step event)
  exact hfold events _ hstart

end Step

/-! ### The rows that calls write -/

/-- The row that a call has written. -/
def Call.written (index : Nat) (call : Call) : Option Row :=
  match call.fate with
  | .replayed row => some (replayedRow index call.key call.spec row)
  | .returned result => some (resultRow index call.key call.spec result)
  | _ => none

theorem index_of_written {index : Nat} {call : Call} {row : Row}
    (h : call.written index = some row) : row.index = index ∧ row.key = call.key := by
  unfold Call.written at h
  split at h <;> cases h <;> exact ⟨rfl, rfl⟩

/-- The journal has the row of every call that has returned, once. -/
structure Journaled (r : Runtime) : Prop where
  nodup : (r.journal.map Row.index).Nodup
  mem : ∀ row, row ∈ r.journal ↔
    ∃ i, ∃ call : Call, r.calls[i]? = some call ∧ call.written i = some row

section Written

variable {c : Config} {r : Runtime}

theorem Journaled.index_lt (h : Journaled r) {row : Row} (hrow : row ∈ r.journal) :
    row.index < r.calls.length := by
  obtain ⟨i, call, hcall, hwritten⟩ := (h.mem row).mp hrow
  rw [(index_of_written hwritten).1]
  exact (List.getElem?_eq_some_iff.mp hcall).1

theorem nodup_append_row {journal : List Row} {row : Row} (h : (journal.map Row.index).Nodup)
    (hnew : ∀ r ∈ journal, r.index ≠ row.index) : ((journal ++ [row]).map Row.index).Nodup := by
  rw [map_append, map_singleton, nodup_append]
  refine ⟨h, nodup_singleton _, ?_⟩
  intro i hi j hj
  obtain ⟨r, hr, rfl⟩ := mem_map.mp hi
  rw [mem_singleton.mp hj]
  exact hnew r hr

theorem Journaled.agent (h : Journaled r) (call : AgentCall) : Journaled (r.agent c call) := by
  have hnew : ∀ row ∈ r.journal, row.index ≠ r.calls.length := fun row hrow =>
    Nat.ne_of_lt (h.index_lt hrow)
  -- the calls are those before and the new one
  have hmem : ∀ (call' : Call) (row : Row), (∃ i, ∃ call'' : Call,
      (r.calls ++ [call'])[i]? = some call'' ∧ call''.written i = some row) ↔
        row ∈ r.journal ∨ call'.written r.calls.length = some row := by
    intro call' row
    rw [h.mem]
    constructor
    · rintro ⟨i, call'', hcall, hwritten⟩
      by_cases hi : i < r.calls.length
      · rw [getElem?_append_left hi] at hcall
        exact .inl ⟨i, call'', hcall, hwritten⟩
      · have hlt := (List.getElem?_eq_some_iff.mp hcall).1
        rw [length_append, length_singleton] at hlt
        have heq : i = r.calls.length := by omega
        rw [heq, getElem?_concat_length] at hcall
        cases hcall
        exact .inr (heq ▸ hwritten)
    · rintro (⟨i, call'', hcall, hwritten⟩ | hwritten)
      · have hi := (List.getElem?_eq_some_iff.mp hcall).1
        exact ⟨i, call'', by rw [getElem?_append_left hi, hcall], hwritten⟩
      · exact ⟨r.calls.length, call', getElem?_concat_length, hwritten⟩
  unfold Runtime.agent
  dsimp only
  split
  · next row hrow =>
    refine ⟨nodup_append_row h.nodup hnew, fun row' => ?_⟩
    rw [hmem, mem_append, mem_singleton]
    refine or_congr_right ⟨fun heq => heq ▸ rfl, fun heq => (Option.some.inj heq).symm⟩
  · refine ⟨h.nodup, fun row' => ?_⟩
    rw [hmem]
    refine (or_iff_left fun hwritten => ?_).symm
    cases hwritten

theorem Journaled.step (h : Journaled r) (event : Event) : Journaled (r.step c event) := by
  -- a call that was at work had no row
  have hset : ∀ (index : Nat) (key : String) (spec : AgentRunSpec) (fate : Fate) (row : Row),
      r.calls[index]? = some ⟨key, spec, .live⟩ →
      ((∃ i, ∃ call : Call, (r.setFate index fate).calls[i]? = some call ∧
        call.written i = some row) ↔
        row ∈ r.journal ∨ (Call.mk key spec fate).written index = some row) := by
    intro index key spec fate row hlive
    rw [h.mem]
    constructor
    · rintro ⟨i, call, hcall, hwritten⟩
      rw [getElem?_setFate] at hcall
      split at hcall
      · next heq =>
        subst heq
        rw [hlive] at hcall
        cases hcall
        exact .inr hwritten
      · exact .inl ⟨i, call, hcall, hwritten⟩
    · rintro (⟨i, call, hcall, hwritten⟩ | hwritten)
      · refine ⟨i, call, ?_, hwritten⟩
        rw [getElem?_setFate, if_neg, hcall]
        rintro rfl
        rw [hlive] at hcall
        cases hcall
        cases hwritten
      · refine ⟨index, _, ?_, hwritten⟩
        rw [getElem?_setFate, if_pos rfl, hlive]
        rfl
  cases event with
  | phase title => exact ⟨h.nodup, h.mem⟩
  | agent call =>
    unfold Runtime.step
    dsimp only
    split
    · exact h
    · exact h.agent call
  | settle index result =>
    unfold Runtime.step
    dsimp only
    split
    · next key spec hlive =>
      refine ⟨nodup_append_row h.nodup fun row hrow heq => ?_, fun row => ?_⟩
      · obtain ⟨i, call, hcall, hwritten⟩ := (h.mem row).mp hrow
        have hi : i = index := (index_of_written hwritten).1.symm.trans heq
        rw [hi, hlive] at hcall
        cases hcall
        cases hwritten
      · refine Iff.trans ?_ (hset index key spec (.returned result) row hlive).symm
        refine Iff.trans mem_append (or_congr_right (Iff.trans mem_singleton ?_))
        exact ⟨fun heq => heq ▸ rfl, fun heq => (Option.some.inj heq).symm⟩
    · exact h
  | fail index =>
    unfold Runtime.step
    dsimp only
    split
    · next key spec hlive =>
      refine ⟨h.nodup, fun row => ?_⟩
      rw [hset index key spec .raised row hlive]
      refine (or_iff_left fun hwritten => ?_).symm
      cases hwritten
    · exact h

theorem journaled_run (cache : ResumeCache) (events : List Event) :
    Journaled (.run c cache events) := by
  have hstart : Journaled (.start cache) :=
    ⟨nodup_nil, fun row => iff_of_false not_mem_nil fun ⟨i, call, h, _⟩ => by cases h⟩
  have hfold : ∀ (events : List Event) (r : Runtime), Journaled r →
      Journaled (events.foldl (Runtime.step c) r) := by
    intro events
    induction events with
    | nil => exact fun _ h => h
    | cons event events ih => exact fun r h => ih _ (h.step event)
  exact hfold events _ hstart

end Written

/-! ### Resuming -/

def Fate.value : Fate → Option Json
  | .replayed row => some ((get? row "value").getD .null)
  | .returned result => some result.value
  | _ => none

/-- The call has returned, and its worker, if it had one, was successful. -/
def Call.Completed (call : Call) : Prop :=
  match call.fate with
  | .replayed _ => True
  | .returned result => result.status = "completed"
  | _ => False

/-- The row of a call that has completed is a completed one, and has the value of the call. -/
theorem Call.Completed.written {call : Call} (h : call.Completed) (index : Nat) :
    ∃ row, call.written index = some row ∧ row.status = "completed" ∧
      call.fate.value = some row.value := by
  obtain ⟨key, spec, fate⟩ := call
  cases fate with
  | replayed row => exact ⟨_, rfl, rfl, rfl⟩
  | returned result => exact ⟨_, rfl, h, rfl⟩
  | live => cases h
  | raised => cases h

theorem getElem?_filter {α : Type} (p : α → Bool) {l : List α} {i : Nat} {a : α}
    (h : l[i]? = some a) (ha : p a = true) : (l.filter p)[(l.take i).countP p]? = some a := by
  induction l generalizing i with
  | nil => cases h
  | cons b l ih =>
    cases i with
    | zero =>
      cases h
      rw [filter_cons, if_pos ha]
      rfl
    | succ i =>
      have htail := ih h
      rw [filter_cons, take_succ_cons, countP_cons]
      split
      · rw [getElem?_cons_succ, htail]
      · exact htail

theorem getElem?_filterMap {α β : Type} {f : α → Option β} {l : List α}
    (h : ∀ a ∈ l, (f a).isSome) (n : Nat) : (l.filterMap f)[n]? = l[n]?.bind f := by
  induction l generalizing n with
  | nil => rfl
  | cons a l ih =>
    obtain ⟨b, hb⟩ := isSome_iff_exists.mp (h a mem_cons_self)
    rw [filterMap_cons, hb]
    cases n with
    | zero => exact hb.symm
    | succ n => exact ih (fun a' ha' => h a' (mem_cons_of_mem _ ha')) n

/-- The rows of a key, call by call. -/
def Runtime.rowsOf (r : Runtime) (key : String) : List Row :=
  (r.calls.zipIdx.filter fun call => call.1.key = key).filterMap fun call => call.1.written call.2

section Resumed

variable {r : Runtime} (hj : Journaled r) (hcompleted : ∀ call ∈ r.calls, call.Completed)
include hcompleted

theorem written_isSome {entry : Call × Nat} (h : entry ∈ r.calls.zipIdx) :
    (entry.1.written entry.2).isSome := by
  obtain ⟨row, hrow, -⟩ := (hcompleted entry.1
    (mem_of_getElem? (mk_mem_zipIdx_iff_getElem?.mp h))).written entry.2
  rw [hrow]
  rfl

theorem getElem?_rowsOf {i : Nat} {call : Call} (h : r.calls[i]? = some call) :
    (r.rowsOf call.key)[(r.keys.take i).count call.key]? = call.written i := by
  have hzip : r.calls.zipIdx[i]? = some (call, i) := by
    rw [getElem?_zipIdx, h, Option.map_some, Nat.zero_add]
  have hfilter := getElem?_filter (fun entry : Call × Nat => decide (entry.1.key = call.key)) hzip
    (decide_eq_true rfl)
  have hcount : (r.calls.zipIdx.take i).countP (fun entry => decide (entry.1.key = call.key)) =
      (r.keys.take i).count call.key := by
    rw [Runtime.keys, ← map_take, count_eq_countP, countP_map]
    have hmap : (r.calls.zipIdx.take i).map Prod.fst = r.calls.take i := by
      rw [map_take, zipIdx_map_fst]
    rw [← hmap, countP_map]
    rfl
  rw [hcount] at hfilter
  rw [Runtime.rowsOf, getElem?_filterMap (fun entry hentry =>
    written_isSome hcompleted (mem_of_mem_filter hentry)), hfilter]
  rfl

include hj

theorem inIssueOrder_rowsOf (key : String) : InIssueOrder r.journal key (r.rowsOf key) := by
  refine ⟨?_, fun row => ?_⟩
  · -- the calls are in the order of their indices, and a row has the index of its call
    have hzip : r.calls.zipIdx.Pairwise fun a b => a.2 < b.2 := by
      rw [← pairwise_map (f := Prod.snd) (R := (· < ·)), zipIdx_map_snd]
      exact pairwise_lt_range'
    refine List.Pairwise.filterMap _ (fun a b hlt row hrow row' hrow' => ?_) (hzip.filter _)
    rw [(index_of_written hrow).1, (index_of_written hrow').1]
    exact hlt
  · rw [hj.mem, Runtime.rowsOf, mem_filterMap]
    constructor
    · rintro ⟨⟨call, i⟩, hentry, hwritten⟩
      obtain ⟨hzip, hkey⟩ := mem_filter.mp hentry
      have hcall := mk_mem_zipIdx_iff_getElem?.mp hzip
      obtain ⟨row', hrow', hstatus, -⟩ := (hcompleted call (mem_of_getElem? hcall)).written i
      cases hrow'.symm.trans hwritten
      exact ⟨⟨i, call, hcall, hwritten⟩, hstatus,
        (index_of_written hwritten).2.trans (of_decide_eq_true hkey)⟩
    · rintro ⟨⟨i, call, hcall, hwritten⟩, -, hkey⟩
      refine ⟨(call, i), mem_filter.mpr ⟨mk_mem_zipIdx_iff_getElem?.mpr hcall, ?_⟩, hwritten⟩
      exact decide_eq_true ((index_of_written hwritten).2.symm.trans hkey)

end Resumed

/-! ### Replaying -/

/-- Every key has its completed rows in the order of their indices. -/
theorem exists_inIssueOrder {journal : List Row} (h : (journal.map Row.index).Nodup) (key : String) :
    ∃ rows, InIssueOrder journal key rows := by
  set completed := journal.filter fun row => row.status = "completed" ∧ row.key = key with hcompleted
  have htotal : Std.Total fun a b : Row => a.index ≤ b.index := ⟨fun a b => Nat.le_total _ _⟩
  have htrans : IsTrans Row fun a b => a.index ≤ b.index := ⟨fun _ _ _ => Nat.le_trans⟩
  have hperm := perm_insertionSort (fun a b : Row => a.index ≤ b.index) completed
  refine ⟨completed.insertionSort fun a b => a.index ≤ b.index, ?_, fun row => ?_⟩
  · have hnodup : (completed.map Row.index).Nodup := h.sublist (filter_sublist.map Row.index)
    have hne := pairwise_map.mp ((hperm.map Row.index).nodup_iff.mpr hnodup)
    have hle := pairwise_insertionSort (fun a b : Row => a.index ≤ b.index) completed
    exact (hle.and hne).imp fun h => Nat.lt_of_le_of_ne h.1 h.2
  · rw [hperm.mem_iff, hcompleted, mem_filter, decide_eq_true_iff]

/-- As many of a key come before a call as before another only where both are one call. -/
theorem eq_of_count_take {keys : List String} {key : String} {i j : Nat} (hi : keys[i]? = some key)
    (hj : keys[j]? = some key) (h : (keys.take i).count key = (keys.take j).count key) : i = j := by
  have hlt : ∀ {i j : Nat}, keys[i]? = some key → i < j →
      (keys.take i).count key < (keys.take j).count key := by
    intro i j hi hij
    have hsucc : (keys.take (i + 1)).count key = (keys.take i).count key + 1 := by
      rw [take_add_one, hi, count_append]
      exact congrArg _ (count_singleton_self ..)
    have hle := (take_prefix_take_left (l := keys) (show i + 1 ≤ j from hij)).sublist.count_le key
    omega
  rcases Nat.lt_trichotomy i j with hij | hij | hij
  · exact absurd h (Nat.ne_of_lt (hlt hi hij))
  · exact hij
  · exact absurd h.symm (Nat.ne_of_lt (hlt hj hij))

section Replaying

variable (toInt : Json → Option Int)

/-- A run that resumes the one of `journal`. -/
def Runtime.resume (c : Config) (journal : List Row) (events : List Event) : Runtime :=
  .run c (loadCache toInt (linesOf journal)) events

variable {toInt} {c : Config} {journal rows : List Row} {events : List Event} {i : Nat} {call : Call}

/-- What a call takes: the row that has as many before it as there are calls of its key before. -/
theorem taken_resume (h : (journal.map Row.index).Nodup)
    (hcall : (Runtime.resume toInt c journal events).calls[i]? = some call)
    (hrows : InIssueOrder journal call.key rows) :
    call.taken = (rows[((Runtime.resume toInt c journal events).keys.take i).count call.key]?).map
      Row.payload := by
  have htaken := (replays_run (c := c) (loadCache toInt (linesOf journal)) events).calls i call hcall
  rw [left_loadCache toInt h hrows, getElem?_map] at htaken
  exact htaken

theorem fate_of_taken {row : Dict} (h : call.taken = some row) : call.fate = .replayed row := by
  unfold Call.taken at h
  split at h
  · next row' hfate => rw [hfate, Option.some.inj h]
  · cases h

/-- The value that a row hands out is the one it was written with. -/
theorem value_replayed (row : Row) : (Fate.replayed row.payload).value = some row.value := by
  have hvalue : get? row.payload "value" = some row.value := row.get?_payload (by decide)
  rw [Fate.value, hvalue]
  rfl

theorem getElem?_keys {r : Runtime} (h : r.calls[i]? = some call) : r.keys[i]? = some call.key := by
  rw [Runtime.keys, getElem?_map, h]
  rfl

/-- No two calls take one row. -/
theorem taken_once (h : (journal.map Row.index).Nodup) {j : Nat} {call' : Call} {row row' : Dict}
    (hcall : (Runtime.resume toInt c journal events).calls[i]? = some call)
    (hcall' : (Runtime.resume toInt c journal events).calls[j]? = some call')
    (htaken : call.taken = some row) (htaken' : call'.taken = some row')
    (hindex : get? row "index" = get? row' "index") : i = j := by
  have hentry : ∀ {i : Nat} {call : Call} {row : Dict},
      (Runtime.resume toInt c journal events).calls[i]? = some call → call.taken = some row →
      ∃ rows entry, InIssueOrder journal call.key rows ∧ entry.payload = row ∧
        rows[((Runtime.resume toInt c journal events).keys.take i).count call.key]? = some entry := by
    intro i call row hcall htaken
    obtain ⟨rows, hrows⟩ := exists_inIssueOrder h call.key
    rw [taken_resume h hcall hrows] at htaken
    obtain ⟨entry, hentry, hpayload⟩ := map_eq_some_iff.mp htaken
    exact ⟨rows, entry, hrows, hpayload, hentry⟩
  obtain ⟨rows, entry, hrows, rfl, hentry₁⟩ := hentry hcall htaken
  obtain ⟨rows', entry', hrows', rfl, hentry₂⟩ := hentry hcall' htaken'
  -- both rows are in the journal, so one index makes them one row
  have hmem := (hrows.mem entry).mp (mem_of_getElem? hentry₁)
  have hmem' := (hrows'.mem entry').mp (mem_of_getElem? hentry₂)
  rw [entry.get?_payload (by decide), entry'.get?_payload (by decide)] at hindex
  have hone : entry = entry' := by
    refine inj_on_of_nodup_map h hmem.1 hmem'.1 ?_
    exact Int.ofNat.inj (Json.int.inj (Option.some.inj hindex))
  subst hone
  have hkey : call.key = call'.key := hmem.2.2.symm.trans hmem'.2.2
  have hsame : rows = rows' := by
    refine List.Pairwise.eq_of_mem_iff hrows.sorted hrows'.sorted fun row => ?_
    rw [hrows.mem, hrows'.mem, hkey]
  subst hsame
  have hnodup : rows.Nodup := by
    refine hrows.sorted.imp ?_
    rintro a b hlt rfl
    exact Nat.lt_irrefl _ hlt
  have hcount := (getElem?_inj (List.getElem?_eq_some_iff.mp hentry₁).1 hnodup).mp
    (hentry₁.trans hentry₂.symm)
  rw [← hkey] at hcount
  exact eq_of_count_take (getElem?_keys hcall) (hkey ▸ getElem?_keys hcall') hcount

/-- The calls of a key receive the values of these rows, one after another, and are dispatched once
none is left. -/
def Runtime.Receives (r : Runtime) (key : String) (rows : List Row) : Prop :=
  ∀ (i : Nat) (call : Call), r.calls[i]? = some call → call.key = key →
    match rows[(r.keys.take i).count key]? with
    | some row => call.fate = .replayed row.payload ∧ call.fate.value = some row.value
    | none => ∀ row, call.fate ≠ .replayed row

/-- No row is handed out to two calls. -/
def Runtime.ConsumesOnce (r : Runtime) : Prop :=
  ∀ (i j : Nat) (call call' : Call) (row row' : Dict), r.calls[i]? = some call → r.calls[j]? = some call' →
    call.fate = .replayed row → call'.fate = .replayed row' →
    get? row "index" = get? row' "index" → i = j

/-- A run dispatches nothing, and returns to every call what `r` has returned to it. -/
def Runtime.Again (r r' : Runtime) : Prop :=
  ∀ (i : Nat) (call' : Call), r'.calls[i]? = some call' → ∃ (call : Call) (row : Dict),
    r.calls[i]? = some call ∧ call'.fate = .replayed row ∧ call'.fate.value = call.fate.value

/-- **Resuming replays.**  The calls of a key receive the values of its completed rows in the order
in which these were issued, and run live once there is none left; and a run whose calls have all
completed leaves a journal that replays it. -/
theorem resume_replays (h : (journal.map Row.index).Nodup) :
    let r := Runtime.resume toInt c journal events
    (∀ key, ∃ rows, InIssueOrder journal key rows ∧ r.Receives key rows) ∧ r.ConsumesOnce ∧
      ((∀ call ∈ r.calls, call.Completed) → ∀ c' events',
        (Runtime.resume toInt c' r.journal events').keys <+: r.keys →
          r.Again (.resume toInt c' r.journal events')) := by
  refine ⟨fun key => ?_, ?_, ?_⟩
  · obtain ⟨rows, hrows⟩ := exists_inIssueOrder h key
    refine ⟨rows, hrows, ?_⟩
    rintro i call hcall rfl
    have htaken := taken_resume h hcall hrows
    split
    · next row hrow =>
      rw [hrow] at htaken
      have hfate := fate_of_taken htaken
      exact ⟨hfate, hfate ▸ value_replayed row⟩
    · next hnone =>
      rw [hnone] at htaken
      intro row hfate
      rw [Call.taken, hfate] at htaken
      cases htaken
  · intro i j call call' row row' hcall hcall' hfate hfate' hindex
    refine taken_once h hcall hcall' ?_ ?_ hindex
    · rw [Call.taken, hfate]
    · rw [Call.taken, hfate']
  · intro hcompleted c' events' hprefix i call' hcall'
    have hj : Journaled (Runtime.resume toInt c journal events) := journaled_run _ events
    set r := Runtime.resume toInt c journal events with hr
    set r' := Runtime.resume toInt c' r.journal events' with hr'
    -- the call at the same place of the run before has the same key
    have hkey' := getElem?_keys hcall'
    have hlt := (List.getElem?_eq_some_iff.mp hkey').1
    obtain ⟨rest, hrest⟩ := hprefix
    have hkey : r.keys[i]? = some call'.key := by
      rw [← hrest, getElem?_append_left hlt, hkey']
    rw [Runtime.keys, getElem?_map] at hkey
    obtain ⟨call, hcall, hkeys⟩ := map_eq_some_iff.mp hkey
    obtain ⟨row, hwritten, -, hvalue⟩ := (hcompleted call (mem_of_getElem? hcall)).written i
    have htake : r'.keys.take i = r.keys.take i := by
      rw [← hrest, take_append_of_le_length (Nat.le_of_lt hlt)]
    have htaken := taken_resume hj.nodup hcall' (inIssueOrder_rowsOf hj hcompleted call'.key)
    rw [← hr', htake, ← hkeys, getElem?_rowsOf hcompleted hcall, hwritten] at htaken
    have hfate := fate_of_taken htaken
    exact ⟨call, row.payload, hcall, hfate, by rw [hfate, value_replayed, hvalue]⟩

end Replaying

/-- The rows of two calls, of which the second has returned first. -/
def swapped : List Row :=
  [⟨1, "p", none, .str "second", "completed", [], by simp⟩,
    ⟨0, "p", none, .str "first", "completed", [], by simp⟩]

/-- A run whose keys are the prompts. -/
def byPrompt : Config where
  routingFingerprint := none
  actualAgentType := id
  readOnlyMode := false
  maxAgentDepth := 1
  digest := fun payload => match get? payload "prompt" with
    | some (.str prompt) => prompt
    | _ => ""
  lower := id

def ask (prompt : String) : Event := .agent ⟨prompt, none, none, none, none, none, none⟩

theorem resume_replays_swapped :
    (let r := Runtime.resume (fun _ => none) byPrompt swapped [ask "p", ask "p", ask "p"];
      (∀ key, ∃ rows, InIssueOrder swapped key rows ∧ r.Receives key rows) ∧ r.ConsumesOnce ∧
        ((∀ call ∈ r.calls, call.Completed) → ∀ c' events',
          (Runtime.resume (fun _ => none) c' r.journal events').keys <+: r.keys →
            r.Again (.resume (fun _ => none) c' r.journal events'))) ∧
      (Runtime.resume (fun _ => none) byPrompt swapped
        [ask "p", ask "p", ask "p"]).calls.map (fun call => call.fate.value) =
          [some (.str "first"), some (.str "second"), none] :=
  ⟨resume_replays (by decide), by decide⟩

end KolegaCode.Orchestration
