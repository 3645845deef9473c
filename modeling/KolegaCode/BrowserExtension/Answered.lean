import KolegaCode.BrowserExtension.Multiplex

/-!
# Browser extension — requests that go out settle once

The table has the requests whose futures are not set, each with its timer armed: whatever takes an
entry out of it sets the future of that entry, which need not be the one that was looked for.
-/

namespace KolegaCode.BrowserExtension

open List

/-! ### What the log says of a request -/

/-- A result or a remote error. -/
def Outcome.IsAnswer : Outcome → Prop
  | .result _ | .remote .. => True
  | _ => False

theorem not_isAnswer_abandoned : ¬ Outcome.IsAnswer .abandoned := nofun

/-- What an envelope settles the request with that it answers. -/
def Payload.outcome : Payload → Option Outcome
  | .response result => some (.result result)
  | .error code message retryable => some (.remote code message retryable)
  | _ => none

def Entry.settles (n : Nat) : Entry → Bool
  | .settled m _ => m = n
  | _ => false

/-- The envelope with this answer has been read. -/
def Peer.Received (s : Peer) (n : Nat) (outcome : Outcome) : Prop :=
  ∃ request envelope, s.pending.issued[n]? = some request ∧ .read envelope ∈ s.log ∧
    request.Answers envelope ∧ envelope.payload.outcome = some outcome

/-- A call that has ended has been settled, and with the answer that it gives. -/
def Call.Given (call : Call) : Prop :=
  ∀ outcome, call.phase = .over outcome →
    call.future ≠ none ∧ (outcome.IsAnswer → call.future = some outcome)

/-- The books of the requests that go out; `loose` are those that have been taken out of the table
and not yet been settled. -/
structure Books (c : Config) (s : Peer) (loose : List Nat) : Prop where
  length : s.calls.length = s.pending.issued.length
  size : s.pending.size ≤ c.maxPendingRequests
  apart : ∀ n ∈ loose, ¬ s.pending.IsOpen n ∧ ∃ call, s.calls[n]? = some call ∧ call.future = none
  future : ∀ (n : Nat) (call : Call), s.calls[n]? = some call → n ∉ loose →
    (call.future = none ↔ s.pending.IsOpen n)
  armed : ∀ (n : Nat) (call : Call), s.calls[n]? = some call → s.pending.IsOpen n → call.timer = true
  timer : ∀ (n : Nat) (call : Call), s.calls[n]? = some call → call.timer = true → s.pending.IsOpen n ∨ n ∈ loose
  settled : ∀ (n : Nat) (call : Call) (outcome : Outcome), s.calls[n]? = some call →
    (call.future = some outcome ↔ .settled n outcome ∈ s.log)
  called : ∀ n outcome, .settled n outcome ∈ s.log → n < s.calls.length
  once : ∀ n, s.log.countP (Entry.settles n) ≤ 1
  own : ∀ n outcome, .settled n outcome ∈ s.log → outcome.IsAnswer → s.Received n outcome
  given : ∀ (n : Nat) (call : Call), s.calls[n]? = some call → call.Given

variable {c : Config} {s s' : Peer} {loose : List Nat}

theorem Books.start : Books c .start [] := by
  have hcalls : ∀ (n : Nat) (call : Call), Peer.start.calls[n]? ≠ some call :=
    fun _ _ h => not_mem_nil (mem_of_getElem? h)
  have hlog : ∀ entry, entry ∉ Peer.start.log := fun entry => not_mem_nil
  exact
    { length := rfl
      size := Nat.zero_le _
      apart := fun n hn => absurd hn not_mem_nil
      future := fun n call hcall => absurd hcall (hcalls n call)
      armed := fun n call hcall => absurd hcall (hcalls n call)
      timer := fun n call hcall => absurd hcall (hcalls n call)
      settled := fun n call _ hcall => absurd hcall (hcalls n call)
      called := fun _ _ hmem => absurd hmem (hlog _)
      once := fun _ => Nat.zero_le _
      own := fun _ _ hmem => absurd hmem (hlog _)
      given := fun n call hcall => absurd hcall (hcalls n call) }

theorem Books.congr (h : Books c s loose) (hpending : s'.pending = s.pending)
    (hcalls : s'.calls = s.calls) (hlog : s'.log = s.log) : Books c s' loose := by
  obtain ⟨_, _, _, _, _, _, _, _⟩ := s
  obtain ⟨_, _, _, _, _, _, _, _⟩ := s'
  cases hpending
  cases hcalls
  cases hlog
  exact ⟨h.length, h.size, h.apart, h.future, h.armed, h.timer, h.settled, h.called, h.once, h.own,
    h.given⟩

theorem settles_eq_false {entry : Entry} (h : ∀ n outcome, entry ≠ .settled n outcome) (n : Nat) :
    entry.settles n = false := by
  cases entry with
  | settled m outcome => exact absurd rfl (h m outcome)
  | _ => rfl

theorem Books.record (h : Books c s loose) {entry : Entry}
    (hentry : ∀ n outcome, entry ≠ .settled n outcome) : Books c (s.record entry) loose := by
  have hmem : ∀ n outcome, .settled n outcome ∈ (s.record entry).log ↔
      .settled n outcome ∈ s.log := by
    intro n outcome
    refine mem_append.trans (or_iff_left fun hmem => ?_)
    exact hentry n outcome (mem_singleton.mp hmem).symm
  refine ⟨h.length, h.size, h.apart, h.future, h.armed, h.timer, ?_, ?_, ?_, ?_, h.given⟩
  · intro n call outcome hcall
    rw [hmem]
    exact h.settled n call outcome hcall
  · intro n outcome hsettled
    exact h.called n outcome ((hmem n outcome).mp hsettled)
  · intro n
    rw [Peer.record, countP_append, countP_singleton, settles_eq_false hentry n]
    exact h.once n
  · intro n outcome hsettled hanswer
    obtain ⟨request, envelope, hrequest, hread, hrest⟩ :=
      h.own n outcome ((hmem n outcome).mp hsettled) hanswer
    exact ⟨request, envelope, hrequest, mem_append_left _ hread, hrest⟩

/-! ### Taking an entry out, and settling it -/

variable {call : Call} {outcome : Outcome} {envelope : Envelope}

theorem getElem?_modify_calls {f : Call → Call} {n i : Nat}
    (h : (s.calls.modify n f)[i]? = some call) :
    ∃ old, s.calls[i]? = some old ∧ call = if n = i then f old else old := by
  rw [getElem?_modify] at h
  obtain ⟨old, hold, rfl⟩ := Option.map_eq_some_iff.mp h
  exact ⟨old, hold, rfl⟩

/-- A call goes on: its future stays, and its timer is not armed again. -/
theorem Books.modify (h : Books c s loose) {n : Nat} {f : Call → Call}
    (hfuture : ∀ call, (f call).future = call.future)
    (harmed : s.pending.IsOpen n → ∀ call, call.timer = true → (f call).timer = true)
    (htimer : ∀ call, (f call).timer = true → call.timer = true)
    (hgiven : ∀ (call : Call), s.calls[n]? = some call → (f call).Given) :
    Books c { s with calls := s.calls.modify n f } loose := by
  have hsame : ∀ {i : Nat} {call old : Call}, call = (if n = i then f old else old) →
      call.future = old.future := by
    rintro i call old rfl
    split
    · exact hfuture old
    · rfl
  refine ⟨?_, h.size, ?_, ?_, ?_, ?_, ?_, ?_, h.once, h.own, ?_⟩
  · rw [length_modify, h.length]
  · intro i hi
    obtain ⟨hopen, old, hold, hnone⟩ := h.apart i hi
    refine ⟨hopen, if n = i then f old else old, ?_, (hsame rfl).trans hnone⟩
    rw [getElem?_modify, hold]
    rfl
  · intro i call hcall hi
    obtain ⟨old, hold, heq⟩ := getElem?_modify_calls hcall
    rw [hsame heq]
    exact h.future i old hold hi
  · intro i call hcall hopen
    obtain ⟨old, hold, rfl⟩ := getElem?_modify_calls hcall
    have htrue := h.armed i old hold hopen
    split
    · next heq => exact harmed (heq ▸ hopen) old htrue
    · exact htrue
  · intro i call hcall htrue
    obtain ⟨old, hold, rfl⟩ := getElem?_modify_calls hcall
    refine h.timer i old hold ?_
    split at htrue
    · exact htimer old htrue
    · exact htrue
  · intro i call outcome hcall
    obtain ⟨old, hold, heq⟩ := getElem?_modify_calls hcall
    rw [hsame heq]
    exact h.settled i old outcome hold
  · intro i outcome hsettled
    rw [length_modify]
    exact h.called i outcome hsettled
  · intro i call hcall
    obtain ⟨old, hold, rfl⟩ := getElem?_modify_calls hcall
    split
    · next heq => exact hgiven old (heq ▸ hold)
    · exact h.given i old hold

theorem Books.disarm (h : Books c s loose) {n : Nat} (hn : n ∈ loose) :
    Books c (s.disarm n) loose :=
  h.modify (fun _ => rfl) (fun hopen => absurd hopen (h.apart n hn).1) (fun _ h => nomatch h)
    fun call hcall => h.given n call hcall

/-- A call goes on, or ends with what its future has. -/
theorem Books.setPhase (h : Books c s loose) {n : Nat} {phase : CallPhase}
    (hphase : ∀ (call : Call), s.calls[n]? = some call → Call.Given { call with phase }) :
    Books c (s.setPhase n phase) loose :=
  h.modify (fun _ => rfl) (fun _ _ h => h) (fun _ h => h) hphase

theorem Books.settle {n : Nat} (h : Books c s (n :: loose)) (hnew : n ∉ loose)
    (htimer : ∀ (call : Call), s.calls[n]? = some call → call.timer = false)
    (hown : outcome.IsAnswer → s.Received n outcome) : Books c (s.settle n outcome) loose := by
  obtain ⟨hopen, call, hcall, hnone⟩ := h.apart n mem_cons_self
  obtain ⟨future, timer, phase⟩ := call
  cases hnone
  have hsettle : s.settle n outcome =
      { s with
        calls := s.calls.modify n fun call => { call with future := some outcome }
        log := s.log ++ [.settled n outcome] } := by
    rw [Peer.settle, hcall]
  have hunsettled : ∀ outcome', .settled n outcome' ∉ s.log := fun outcome' hmem =>
    nomatch (h.settled n _ outcome' hcall).mpr hmem
  have hmem : ∀ i outcome', .settled i outcome' ∈ s.log ++ [.settled n outcome] ↔
      .settled i outcome' ∈ s.log ∨ i = n ∧ outcome' = outcome := by
    intro i outcome'
    rw [mem_append, mem_singleton, Entry.settled.injEq]
  rw [hsettle]
  refine ⟨?_, h.size, ?_, ?_, ?_, ?_, ?_, ?_, ?_, ?_, ?_⟩
  · rw [length_modify, h.length]
  · intro i hi
    obtain ⟨hopen', old, hold, hnone⟩ := h.apart i (mem_cons_of_mem _ hi)
    refine ⟨hopen', old, ?_, hnone⟩
    have hne : n ≠ i := fun heq => hnew (heq ▸ hi)
    rw [getElem?_modify, hold]
    exact congrArg some (if_neg hne)
  · intro i call hcall' hi
    obtain ⟨old, hold, rfl⟩ := getElem?_modify_calls hcall'
    split
    · next heq =>
      subst heq
      exact iff_of_false (fun h => nomatch h) hopen
    · next hne =>
      refine h.future i old hold fun hmem => ?_
      rcases mem_cons.mp hmem with heq | hmem
      · exact hne heq.symm
      · exact hi hmem
  · intro i call hcall' hopen'
    obtain ⟨old, hold, rfl⟩ := getElem?_modify_calls hcall'
    have htrue := h.armed i old hold hopen'
    split
    · exact htrue
    · exact htrue
  · intro i call hcall' htrue
    obtain ⟨old, hold, rfl⟩ := getElem?_modify_calls hcall'
    split at htrue
    · next heq =>
      subst heq
      have hfalse := htimer old hold
      rw [htrue] at hfalse
      cases hfalse
    · next hne =>
      refine (h.timer i old hold htrue).imp_right fun hmem => ?_
      exact (mem_cons.mp hmem).resolve_left fun heq => hne heq.symm
  · intro i call outcome' hcall'
    obtain ⟨old, hold, rfl⟩ := getElem?_modify_calls hcall'
    rw [hmem]
    split
    · next heq =>
      subst heq
      rw [or_iff_right (hunsettled outcome'), and_iff_right rfl]
      exact ⟨fun h => (Option.some.inj h).symm, fun h => h ▸ rfl⟩
    · next hne =>
      rw [h.settled i old outcome' hold]
      exact (or_iff_left fun h => hne h.1.symm).symm
  · intro i outcome' hsettled
    rw [length_modify]
    rcases (hmem i outcome').mp hsettled with hsettled | ⟨rfl, -⟩
    · exact h.called i outcome' hsettled
    · exact (List.getElem?_eq_some_iff.mp hcall).1
  · intro i
    rw [countP_append, countP_singleton]
    by_cases heq : n = i
    · -- the first entry of this call
      subst heq
      have hzero : s.log.countP (Entry.settles n) = 0 := by
        refine countP_eq_zero.mpr fun entry hentry hsettles => ?_
        cases entry with
        | settled m outcome' =>
          have hm : m = n := of_decide_eq_true hsettles
          exact hunsettled outcome' (hm ▸ hentry)
        | _ => cases hsettles
      rw [hzero]
      split <;> decide
    · have hother : Entry.settles i (.settled n outcome) = false := decide_eq_false heq
      rw [hother]
      exact h.once i
  · intro i outcome' hsettled hanswer
    rcases (hmem i outcome').mp hsettled with hsettled | ⟨rfl, rfl⟩
    · obtain ⟨request, envelope, hrequest, hread, hrest⟩ := h.own i outcome' hsettled hanswer
      exact ⟨request, envelope, hrequest, mem_append_left _ hread, hrest⟩
    · obtain ⟨request, envelope, hrequest, hread, hrest⟩ := hown hanswer
      exact ⟨request, envelope, hrequest, mem_append_left _ hread, hrest⟩
  · intro i call hcall'
    obtain ⟨old, hold, rfl⟩ := getElem?_modify_calls hcall'
    split
    · next heq =>
      -- it has not ended, for it was not settled
      subst heq
      intro outcome' hover
      rw [hcall] at hold
      cases hold
      exact absurd rfl (h.given n _ hcall outcome' hover).1
    · exact h.given i old hold

theorem settle_of_settled {n : Nat}
    (h : ∀ (call : Call), s.calls[n]? = some call → call.future ≠ none) :
    s.settle n outcome = s := by
  unfold Peer.settle
  split
  · next timer phase hcall => exact absurd rfl (h _ hcall)
  · rfl

/-- `_pop_pending` takes the entry of an id out, whichever call it is of. -/
theorem Books.drop (h : Books c s []) {requestId : String} {m : Nat}
    (hget : s.pending.get? requestId = some m) :
    Books c { s with pending := s.pending.drop requestId } [m] := by
  have hopen : ∀ {n : Nat}, (s.pending.drop requestId).IsOpen n ↔ s.pending.IsOpen n ∧ n ≠ m :=
    Pending.isOpen_drop hget
  have hm : s.pending.IsOpen m := Pending.isOpen_iff.mpr ⟨_, hget⟩
  refine ⟨h.length, Nat.le_trans (Pending.size_drop_le _ _) h.size, ?_, ?_, ?_, ?_, h.settled,
    h.called, h.once, h.own, h.given⟩
  · intro n hn
    rw [mem_singleton.mp hn]
    have hlt : m < s.calls.length := h.length ▸ hm.lt
    refine ⟨fun hn => (hopen.mp hn).2 rfl, s.calls[m], getElem?_eq_getElem hlt, ?_⟩
    exact (h.future m _ (getElem?_eq_getElem hlt) not_mem_nil).mpr hm
  · intro n call hcall hn
    rw [h.future n call hcall not_mem_nil, hopen]
    exact (and_iff_left fun heq => hn (mem_singleton.mpr heq)).symm
  · intro n call hcall hn
    exact h.armed n call hcall (hopen.mp hn).1
  · intro n call hcall htrue
    by_cases heq : n = m
    · exact .inr (mem_singleton.mpr heq)
    · refine .inl (hopen.mpr ⟨?_, heq⟩)
      exact (h.timer n call hcall htrue).resolve_right not_mem_nil

theorem timer_disarm {n : Nat} (h : (s.disarm n).calls[n]? = some call) : call.timer = false := by
  obtain ⟨old, hold, rfl⟩ := getElem?_modify_calls h
  rw [if_pos rfl]

/-- What takes an entry out and settles it keeps the books. -/
theorem Books.release (h : Books c s []) {requestId : String} {m : Nat}
    (hget : s.pending.get? requestId = some m) (hown : outcome.IsAnswer → s.Received m outcome) :
    Books c (({ s with pending := s.pending.drop requestId }.disarm m).settle m outcome) [] :=
  ((h.drop hget).disarm (mem_singleton.mpr rfl)).settle not_mem_nil
    (fun _ => timer_disarm) hown

theorem popPending_none {requestId : String} (h : s.pending.get? requestId = none) :
    s.popPending requestId = (none, s) := by
  rw [Peer.popPending, h]

theorem popPending_some {requestId : String} {m : Nat} (h : s.pending.get? requestId = some m) :
    s.popPending requestId =
      (some m, { s with pending := s.pending.drop requestId }.disarm m) := by
  rw [Peer.popPending, h]

theorem Books.sendCancel (h : Books c s loose) (n : Nat) (reason : String) :
    Books c (s.sendCancel n reason) loose := by
  unfold Peer.sendCancel
  split
  · split
    · exact h
    · exact h.record nofun
  · exact h

theorem Books.issued (h : Books c s loose) {n : Nat} (hcall : s.calls[n]? = some call) :
    ∃ request, s.pending.issued[n]? = some request ∧ s.callId n = request.requestId := by
  have hlt : n < s.pending.issued.length := h.length ▸ (List.getElem?_eq_some_iff.mp hcall).1
  refine ⟨s.pending.issued[n], getElem?_eq_getElem hlt, ?_⟩
  rw [Peer.callId, getElem?_eq_getElem hlt]
  rfl

theorem Books.entry (h : Books c s []) {n : Nat} (hcall : s.calls[n]? = some call)
    (hnone : call.future = none) : s.pending.get? (s.callId n) = some n := by
  obtain ⟨request, hrequest, hid⟩ := h.issued hcall
  rw [hid, ← Pending.isOpen_iff_of_issued hrequest]
  exact (h.future n call hcall not_mem_nil).mp hnone

theorem Books.over (h : Books c s []) {n : Nat} (hnone : s.pending.get? (s.callId n) = none)
    (hover : ¬ outcome.IsAnswer) : Books c (s.setPhase n (.over outcome)) [] := by
  refine h.setPhase fun call hcall outcome' heq => ⟨fun hfuture => ?_, fun hanswer => ?_⟩
  · rw [h.entry hcall hfuture] at hnone
    cases hnone
  · exact absurd (CallPhase.over.inj heq ▸ hanswer) hover

/-! ### What is left in the table -/

/-- No entry of an id is left. -/
structure Gone (s s' : Peer) (requestId : String) : Prop where
  none : s'.pending.get? requestId = none
  issued : s'.pending.issued = s.pending.issued

theorem Gone.callId {requestId : String} (h : Gone s s' requestId) (n : Nat) :
    s'.callId n = s.callId n := by
  rw [Peer.callId, Peer.callId, h.issued]

theorem Gone.over {n : Nat} (h : Gone s s' (s.callId n)) :
    s'.pending.get? (s'.callId n) = Option.none := by
  rw [h.callId]
  exact h.none

theorem gone_popPending (s : Peer) (requestId : String) :
    Gone s (s.popPending requestId).2 requestId := by
  unfold Peer.popPending
  split
  · next hnone => exact ⟨hnone, rfl⟩
  · refine ⟨?_, rfl⟩
    exact (Assoc.get?_erase s.pending.table requestId requestId).trans (if_pos rfl)

theorem pending_settle (s : Peer) (n : Nat) (outcome : Outcome) :
    (s.settle n outcome).pending = s.pending := by
  unfold Peer.settle
  split
  · rfl
  · rfl

theorem pending_sendCancel (s : Peer) (n : Nat) (reason : String) :
    (s.sendCancel n reason).pending = s.pending := by
  unfold Peer.sendCancel
  split
  · split
    · rfl
    · rfl
  · rfl

theorem Gone.congr {s'' : Peer} {requestId : String} (h : Gone s s' requestId)
    (hpending : s''.pending = s'.pending) : Gone s s'' requestId :=
  ⟨hpending ▸ h.none, hpending ▸ h.issued⟩

theorem Gone.settle {requestId : String} (h : Gone s s' requestId) (n : Nat) (outcome : Outcome) :
    Gone s (s'.settle n outcome) requestId := h.congr (pending_settle s' n outcome)

theorem Gone.sendCancel {requestId : String} (h : Gone s s' requestId) (n : Nat) (reason : String) :
    Gone s (s'.sendCancel n reason) requestId := h.congr (pending_sendCancel s' n reason)

theorem gone_abandonWrite (s : Peer) (n : Nat) (requestId : String) :
    Gone s (s.abandonWrite n requestId).2 requestId := by
  have hpop := gone_popPending s requestId
  unfold Peer.abandonWrite
  split
  · next m s' heq =>
    rw [heq] at hpop
    exact hpop.settle m _
  · next s' heq =>
    rw [heq] at hpop
    exact hpop.settle n _

theorem Gone.close {requestId : String} (h : Gone s s' requestId) (reason : String) :
    Gone s (s'.close reason) requestId := by
  have hfold : ∀ (items : List Nat) (s : Peer),
      (items.foldl (fun s n => (s.disarm n).settle n (.closed reason)) s).pending = s.pending := by
    intro items
    induction items with
    | nil => exact fun _ => rfl
    | cons n items ih => exact fun s => (ih _).trans (pending_settle (s.disarm n) n _)
  unfold Peer.close
  split
  · exact h
  · have hpending := hfold s'.pending.numbers { s' with
      closing := true, closedReason := reason, pending := s'.pending.clear }
    exact ⟨congrArg (·.get? requestId) hpending, (congrArg (·.issued) hpending).trans h.issued⟩

/-! ### The steps -/

section

variable (h : Books c s [])
include h

theorem Books.close (reason : String) : Books c (s.close reason) [] := by
  have hfold : ∀ (items : List Nat) (s : Peer), items.Nodup → Books c s items →
      Books c (items.foldl (fun s n => (s.disarm n).settle n (.closed reason)) s) [] := by
    intro items
    induction items with
    | nil => exact fun _ _ h => h
    | cons n items ih =>
      intro s hnodup h
      obtain ⟨hn, hnodup⟩ := nodup_cons.mp hnodup
      exact ih _ hnodup ((h.disarm mem_cons_self).settle hn (fun _ => timer_disarm) nofun)
  unfold Peer.close
  split
  · exact h
  · refine Books.congr (hfold s.pending.numbers _ s.pending.nodup_numbers ?_) rfl rfl rfl
    have hopen : ∀ n, ¬ s.pending.clear.IsOpen n := s.pending.not_isOpen_clear
    refine ⟨h.length, Nat.zero_le _, ?_, ?_, ?_, ?_, h.settled, h.called, h.once, h.own, h.given⟩
    · intro n hn
      have hn := Pending.mem_numbers.mp hn
      have hlt : n < s.calls.length := h.length ▸ hn.lt
      refine ⟨hopen n, s.calls[n], getElem?_eq_getElem hlt, ?_⟩
      exact (h.future n _ (getElem?_eq_getElem hlt) not_mem_nil).mpr hn
    · intro n call hcall hn
      rw [h.future n call hcall not_mem_nil]
      exact iff_of_false (fun hn' => hn (Pending.mem_numbers.mpr hn')) (hopen n)
    · intro n call hcall hn
      exact absurd hn (hopen n)
    · intro n call hcall htrue
      refine .inr (Pending.mem_numbers.mpr ?_)
      exact (h.timer n call hcall htrue).resolve_right not_mem_nil

theorem Books.abandonWrite (n : Nat) : Books c (s.abandonWrite n (s.callId n)).2 [] := by
  unfold Peer.abandonWrite
  cases hget : s.pending.get? (s.callId n) with
  | some m =>
    rw [popPending_some hget]
    exact h.release hget nofun
  | none =>
    rw [popPending_none hget]
    dsimp only
    -- without an entry of its id the call has been settled before
    rw [settle_of_settled]
    · exact h
    · intro call hcall hnone
      rw [h.entry hcall hnone] at hget
      cases hget

theorem Books.writeCancelled (n : Nat) : Books c (s.writeCancelled n (s.callId n)) [] := by
  have hbooks := h.abandonWrite n
  have hgone := gone_abandonWrite s n (s.callId n)
  unfold Peer.writeCancelled
  split
  · next m s' heq =>
    rw [heq] at hbooks hgone
    exact (hbooks.sendCancel m _).over (hgone.sendCancel m _).over not_isAnswer_abandoned
  · next s' heq =>
    rw [heq] at hbooks hgone
    exact hbooks.over hgone.over not_isAnswer_abandoned

theorem Books.waitCancelled (n : Nat) : Books c (s.waitCancelled n (s.callId n)) [] := by
  have hgone := gone_popPending s (s.callId n)
  unfold Peer.waitCancelled
  cases hget : s.pending.get? (s.callId n) with
  | some m =>
    rw [popPending_some hget] at hgone ⊢
    have hreleased := h.release hget fun h => absurd h not_isAnswer_abandoned
    exact (hreleased.sendCancel m _).over ((hgone.settle m _).sendCancel m _).over
      not_isAnswer_abandoned
  | none =>
    rw [popPending_none hget]
    exact h.over hget not_isAnswer_abandoned

theorem Books.resume {n : Nat} {timer : Bool} {phase : CallPhase}
    (hcall : s.calls[n]? = some ⟨some outcome, timer, phase⟩) :
    Books c (s.resume n (s.callId n) outcome) [] := by
  unfold Peer.resume
  split
  · exact h.waitCancelled n
  · refine h.setPhase fun call hcall' outcome' heq => ?_
    rw [hcall] at hcall'
    cases hcall'
    cases heq
    exact ⟨nofun, fun _ => rfl⟩

theorem Books.expireRequest (requestId : String) : Books c (s.expireRequest requestId) [] := by
  unfold Peer.expireRequest
  cases hget : s.pending.get? requestId with
  | some m =>
    rw [popPending_some hget]
    have hreleased := h.release hget fun h : Outcome.IsAnswer .deadline => h.elim
    exact hreleased.sendCancel m _
  | none =>
    rw [popPending_none hget]
    exact h

/-- An envelope answers the call under whose id it comes if it answers its request. -/
theorem Books.handleAnswer (now : Nat) (hread : .read envelope ∈ s.log)
    (houtcome : envelope.payload.outcome = some outcome) :
    Books c (s.handleAnswer envelope now outcome) [] := by
  unfold Peer.handleAnswer
  cases hget : s.pending.get? envelope.requestId with
  | none =>
    rw [popPending_none hget]
    exact h
  | some m =>
    rw [popPending_some hget]
    obtain ⟨request, hrequest, -⟩ := Pending.exists_issued hget
    have hissued : ({ s with pending := s.pending.drop envelope.requestId }.disarm
        m).pending.issued[m]? = some request := hrequest
    dsimp only
    rw [hissued]
    refine h.release hget fun hanswer => ?_
    split at hanswer
    · exact hanswer.elim
    · next hmatches =>
      split at hanswer
      · exact hanswer.elim
      · next hexpired =>
        rw [if_neg hmatches, if_neg hexpired]
        exact ⟨request, envelope, hrequest, hread, not_not.mp hmatches, houtcome⟩

theorem Books.request (envelope : Envelope) : Books c (s.request c envelope) [] := by
  unfold Peer.request
  split
  · exact h
  · next hcond =>
    rw [not_or, not_or, not_or] at hcond
    obtain ⟨-, hsize, hid, -⟩ := hcond
    have hnone : s.pending.get? envelope.requestId = none := Option.not_isSome_iff_eq_none.mp hid
    have hopen : ∀ {n : Nat}, (s.pending.register envelope).IsOpen n ↔
        s.pending.IsOpen n ∨ n = s.calls.length := by
      intro n
      rw [Pending.isOpen_register hnone, h.length]
    -- a call is an earlier one or the new one, which is open
    have hcases : ∀ {n : Nat} {call : Call}, (s.calls ++ [⟨none, true, .writing⟩])[n]? = some call →
        s.calls[n]? = some call ∧ n ≠ s.calls.length ∨
          n = s.calls.length ∧ call = ⟨none, true, .writing⟩ := by
      intro n call hcall
      have hlt := (List.getElem?_eq_some_iff.mp hcall).1
      rw [length_append, length_singleton] at hlt
      rcases Nat.lt_or_eq_of_le (Nat.le_of_lt_succ hlt) with hlt | rfl
      · rw [getElem?_append_left hlt] at hcall
        exact .inl ⟨hcall, Nat.ne_of_lt hlt⟩
      · rw [getElem?_concat_length] at hcall
        exact .inr ⟨rfl, (Option.some.inj hcall).symm⟩
    refine ⟨?_, ?_, nofun, ?_, ?_, ?_, ?_, ?_, h.once, ?_, ?_⟩
    · rw [length_append, h.length]
      exact (length_append : (_ ++ [envelope]).length = _).symm
    · rw [Pending.size_register hnone]
      exact Nat.lt_of_not_le hsize
    · intro n call hcall _
      rw [hopen]
      rcases hcases hcall with ⟨hold, hne⟩ | ⟨rfl, rfl⟩
      · rw [or_iff_left hne]
        exact h.future n call hold not_mem_nil
      · exact iff_of_true rfl (.inr rfl)
    · intro n call hcall hn
      rcases hcases hcall with ⟨hold, hne⟩ | ⟨rfl, rfl⟩
      · exact h.armed n call hold ((hopen.mp hn).resolve_right hne)
      · rfl
    · intro n call hcall htrue
      rcases hcases hcall with ⟨hold, hne⟩ | ⟨rfl, rfl⟩
      · exact (h.timer n call hold htrue).imp_left fun hn => hopen.mpr (.inl hn)
      · exact .inl (hopen.mpr (.inr rfl))
    · intro n call outcome hcall
      rcases hcases hcall with ⟨hold, hne⟩ | ⟨rfl, rfl⟩
      · exact h.settled n call outcome hold
      · refine iff_of_false nofun fun hsettled => ?_
        exact Nat.lt_irrefl _ (h.called _ outcome hsettled)
    · intro n outcome hsettled
      rw [length_append]
      exact Nat.lt_add_right 1 (h.called n outcome hsettled)
    · intro n outcome hsettled hanswer
      obtain ⟨request, envelope', hrequest, hrest⟩ := h.own n outcome hsettled hanswer
      refine ⟨request, envelope', ?_, hrest⟩
      exact (getElem?_append_left (List.getElem?_eq_some_iff.mp hrequest).1).trans hrequest
    · intro n call hcall
      rcases hcases hcall with ⟨hold, hne⟩ | ⟨rfl, rfl⟩
      · exact h.given n call hold
      · exact nofun

end

/-! ### Requests that come in -/

section Incoming

variable {n : Nat} {requestId : String}

theorem Books.finish (h : Books c s loose) : Books c (s.finish n requestId) loose := by
  unfold Peer.finish
  dsimp only
  split
  · exact h.congr rfl rfl rfl
  · exact h.congr rfl rfl rfl

theorem Books.sendError (h : Books c s loose) {reply : Payload} :
    Books c (s.sendError n requestId reply) loose := by
  unfold Peer.sendError
  split
  · exact h.finish
  · exact h.congr rfl rfl rfl

variable {request : Envelope} {now : Nat}

section

variable (h : Books c s loose)
include h

theorem Books.reject {reply : Payload} : Books c (s.reject request reply) loose := by
  unfold Peer.reject
  split
  · exact h
  · exact h.record nofun

theorem Books.startIncomingRequest :
    Books c (s.startIncomingRequest c envelope now) loose := by
  unfold Peer.startIncomingRequest
  split
  · exact h.reject
  · split
    · exact h
    · split
      · exact h.reject
      · have hrecord : Books c (s.record (.accepted s.tasks.length envelope)) loose :=
          h.record nofun
        exact hrecord.congr rfl rfl rfl

theorem Books.startHandler :
    Books c (s.startHandler c n request now) loose := by
  unfold Peer.startHandler
  split
  · exact h.sendError
  · split
    · exact h.sendError
    · exact h.congr rfl rfl rfl

theorem Books.endHandler {later : Nat} {outcome : Handled} :
    Books c (s.endHandler c n request now later outcome) loose := by
  cases outcome with
  | timedOut => exact h.sendError
  | cancelled => exact h.finish
  | raised => exact h.sendError
  | returned result =>
    unfold Peer.endHandler
    dsimp only
    repeat' split
    · exact h.finish
    · exact h.sendError
    · exact h.sendError
    · exact h.sendError
    · exact h.congr rfl rfl rfl

theorem Books.handleCancel : Books c (s.handleCancel envelope) loose := by
  unfold Peer.handleCancel
  repeat' split
  · exact h
  · exact h.congr rfl rfl rfl
  · exact h
  · exact h

end

end Incoming

theorem Books.dispatch (h : Books c s []) (now : Nat) (hread : .read envelope ∈ s.log) :
    Books c (s.dispatch c envelope now) [] := by
  unfold Peer.dispatch
  split
  · next result hpayload => exact h.handleAnswer now hread (by rw [hpayload]; rfl)
  · next code message retryable hpayload => exact h.handleAnswer now hread (by rw [hpayload]; rfl)
  · exact h.startIncomingRequest
  · exact h.handleCancel
  · exact h

/-! ### A run -/

theorem Books.step (h : Books c s []) (event : Event) : Books c (s.step c event) [] := by
  cases event with
  | request requestId deadlineMs operation params => exact h.request _
  | written n =>
    unfold Peer.step
    dsimp only
    split
    · exact h.setPhase fun _ _ _ => nofun
    · exact h
  | writeTimedOut n | writeFailed n =>
    unfold Peer.step
    dsimp only
    split
    · exact ((h.abandonWrite n).close _).over ((gone_abandonWrite s n _).close _).over nofun
    · exact h
  | callerCancelled n =>
    unfold Peer.step
    dsimp only
    split
    · exact h.writeCancelled n
    · exact h.waitCancelled n
    · exact h
  | resume n =>
    unfold Peer.step
    dsimp only
    split
    · next outcome timer hcall => exact h.resume hcall
    · exact h
  | expire n =>
    unfold Peer.step
    dsimp only
    split
    · exact h.expireRequest _
    · exact h
  | read envelope now =>
    unfold Peer.step
    dsimp only
    split
    · exact h
    · split
      · have hrecord : Books c (s.record (.read envelope)) [] := h.record nofun
        exact hrecord.dispatch now (mem_append_right _ (mem_singleton.mpr rfl))
      · exact h.close _
  | started n now =>
    unfold Peer.step
    dsimp only
    split
    · exact h.startHandler
    · exact h
  | handled n outcome now later =>
    unfold Peer.step
    dsimp only
    split
    · exact h.endHandler
    · exact h
  | put n =>
    unfold Peer.step
    dsimp only
    split
    · split
      · exact h
      · have htask : Books c (s.setTask n .draining) [] := h.congr rfl rfl rfl
        exact htask.record nofun
    · exact h
  | drained n =>
    unfold Peer.step
    dsimp only
    split
    · exact h.finish
    · exact h
  | replyFailed n reason =>
    unfold Peer.step
    dsimp only
    split
    · exact (h.close reason).finish
    · exact (h.close reason).finish
    · exact h
  | close reason => exact h.close reason
  | lost => exact h.congr rfl rfl rfl

theorem books_run (c : Config) (events : List Event) : Books c (.run c events) [] := by
  have hfold : ∀ (events : List Event) (s : Peer), Books c s [] →
      Books c (events.foldl (Peer.step c) s) [] := by
    intro events
    induction events with
    | nil => exact fun _ h => h
    | cons event events ih => exact fun s h => ih _ (h.step event)
  exact hfold events _ .start

end KolegaCode.BrowserExtension
