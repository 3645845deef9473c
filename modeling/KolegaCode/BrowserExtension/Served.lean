import KolegaCode.BrowserExtension.Answered

/-!
# Browser extension — requests that come in are answered once

A task writes its answer while its entry is in the table, and a cancel of its request takes the
entry out.  `_run_handler` looks for the entry before it writes a result, but not before it writes
an error.
-/

namespace KolegaCode.BrowserExtension

open List Option

/-! ### What the log says of a task -/

def Envelope.IsCancel (envelope : Envelope) : Prop :=
  match envelope.payload with
  | .cancel _ => True
  | _ => False

/-- A cancel that belongs to the request of a task has been processed since it was accepted. -/
def Stopped (log : List Entry) (n : Nat) : Prop :=
  ∃ before after request envelope, log = before ++ .read envelope :: after ∧
    .accepted n request ∈ before ∧ envelope.IsCancel ∧
    envelope.requestId = request.requestId ∧ request.Cancels envelope

def Entry.replies (n : Nat) : Entry → Bool
  | .replied m _ => m = n
  | _ => false

/-- A task that may write, or has written and is about to end. -/
def TaskPhase.IsActive : TaskPhase → Prop
  | .created | .replying _ | .draining => True
  | .handling | .done => False

theorem TaskPhase.not_isActive_interrupt (phase : TaskPhase) : ¬ phase.interrupt.IsActive := by
  cases phase <;> exact id

/-- An entry that says nothing of a task. -/
def Entry.IsApart : Entry → Prop
  | .read envelope => ¬ envelope.IsCancel
  | .accepted .. | .replied .. => False
  | _ => True

theorem append_singleton_eq {α : Type} {l before after : List α} {x y : α}
    (h : l ++ [x] = before ++ y :: after) :
    (∃ after', after = after' ++ [x] ∧ l = before ++ y :: after') ∨
      after = [] ∧ l = before ∧ x = y := by
  rcases eq_nil_or_concat after with rfl | ⟨after', z, rfl⟩
  · obtain ⟨rfl, heq⟩ := append_inj' h rfl
    exact .inr ⟨rfl, rfl, (List.cons.inj heq).1⟩
  · rw [concat_eq_append, ← cons_append, ← append_assoc] at h
    obtain ⟨hl, heq⟩ := append_inj' h rfl
    refine .inl ⟨after', ?_, hl⟩
    rw [concat_eq_append, heq]

theorem stopped_append {log : List Entry} {entry : Entry} {n : Nat} :
    Stopped (log ++ [entry]) n ↔ Stopped log n ∨ ∃ request envelope, entry = .read envelope ∧
      .accepted n request ∈ log ∧ envelope.IsCancel ∧ envelope.requestId = request.requestId ∧
      request.Cancels envelope := by
  constructor
  · rintro ⟨before, after, request, envelope, heq, hrest⟩
    rcases append_singleton_eq heq with ⟨after', -, hlog⟩ | ⟨-, rfl, rfl⟩
    · exact .inl ⟨before, after', request, envelope, hlog, hrest⟩
    · exact .inr ⟨request, envelope, rfl, hrest⟩
  · rintro (⟨before, after, request, envelope, rfl, hrest⟩ | ⟨request, envelope, rfl, hrest⟩)
    · refine ⟨before, after ++ [entry], request, envelope, ?_, hrest⟩
      rw [append_assoc, cons_append]
    · exact ⟨log, [], request, envelope, rfl, hrest⟩

/-! ### The invariant -/

/-- The books of the requests that come in. -/
structure Desk (s : Peer) : Prop where
  length : s.tasks.length = s.inflight.issued.length
  active : ∀ (n : Nat) (phase : TaskPhase), s.tasks[n]? = some phase → phase.IsActive →
    s.inflight.IsOpen n
  accepted : ∀ n request, .accepted n request ∈ s.log → s.inflight.issued[n]? = some request
  stopped : ∀ n, Stopped s.log n → ¬ s.inflight.IsOpen n
  quiet : ∀ before after n reply, s.log = before ++ .replied n reply :: after → ¬ Stopped before n
  once : ∀ n, s.log.countP (Entry.replies n) ≤ 1
  written : ∀ n reply, .replied n reply ∈ s.log →
    s.tasks[n]? = some .draining ∨ s.tasks[n]? = some .done

variable {c : Config} {s s' : Peer} {n : Nat}

theorem Desk.start : Desk .start where
  length := rfl
  active := fun _ _ h => absurd (mem_of_getElem? h) not_mem_nil
  accepted := fun _ _ h => absurd h not_mem_nil
  stopped := by
    rintro n ⟨before, after, request, envelope, heq, -⟩
    cases before <;> cases heq
  quiet := by
    intro before after n reply heq
    cases before <;> cases heq
  once := fun _ => Nat.zero_le _
  written := fun _ _ h => absurd h not_mem_nil

theorem Desk.congr (h : Desk s) (hinflight : s'.inflight = s.inflight) (htasks : s'.tasks = s.tasks)
    (hlog : s'.log = s.log) : Desk s' := by
  obtain ⟨_, _, _, _, _, _, _, _⟩ := s
  obtain ⟨_, _, _, _, _, _, _, _⟩ := s'
  cases hinflight
  cases htasks
  cases hlog
  exact ⟨h.length, h.active, h.accepted, h.stopped, h.quiet, h.once, h.written⟩

theorem Desk.append (h : Desk s) (entry : Entry)
    (haccepted : ∀ n request, entry = .accepted n request → s.inflight.issued[n]? = some request)
    (hread : ∀ n request envelope, entry = .read envelope → .accepted n request ∈ s.log →
      envelope.IsCancel → envelope.requestId = request.requestId → request.Cancels envelope →
        ¬ s.inflight.IsOpen n)
    (hreplied : ∀ n reply, entry = .replied n reply → ¬ Stopped s.log n ∧
      s.tasks[n]? = some .draining ∧ ∀ reply', .replied n reply' ∉ s.log) :
    Desk (s.record entry) := by
  refine ⟨h.length, h.active, ?_, ?_, ?_, ?_, ?_⟩
  · intro n request hmem
    rcases mem_append.mp hmem with hmem | hmem
    · exact h.accepted n request hmem
    · exact haccepted n request (mem_singleton.mp hmem).symm
  · intro n hstopped
    rcases stopped_append.mp hstopped with hstopped | ⟨request, envelope, heq, hmem, hrest⟩
    · exact h.stopped n hstopped
    · exact hread n request envelope heq hmem hrest.1 hrest.2.1 hrest.2.2
  · intro before after n reply heq
    rcases append_singleton_eq heq with ⟨after', -, hlog⟩ | ⟨-, rfl, hlast⟩
    · exact h.quiet before after' n reply hlog
    · exact (hreplied n reply hlast).1
  · intro n
    rw [Peer.record, countP_append, countP_singleton]
    split
    · next hreplies =>
      -- the first answer of this task
      have hzero : s.log.countP (Entry.replies n) = 0 := by
        refine countP_eq_zero.mpr fun entry' hentry' hreplies' => ?_
        cases entry with
        | replied m reply =>
          cases entry' with
          | replied m' reply' =>
            have hm : m = n := of_decide_eq_true hreplies
            have hm' : m' = n := of_decide_eq_true hreplies'
            subst hm
            subst hm'
            exact (hreplied _ reply rfl).2.2 reply' hentry'
          | _ => cases hreplies'
        | _ => cases hreplies
      rw [hzero]
    · exact h.once n
  · intro n reply hmem
    rcases mem_append.mp hmem with hmem | hmem
    · exact h.written n reply hmem
    · exact .inl (hreplied n reply (mem_singleton.mp hmem).symm).2.1

theorem Desk.record (h : Desk s) {entry : Entry} (hentry : entry.IsApart) :
    Desk (s.record entry) := by
  refine h.append entry ?_ ?_ ?_
  · rintro n request rfl
    exact hentry.elim
  · rintro n request envelope rfl - hcancel
    exact absurd hcancel hentry
  · rintro n reply rfl
    exact hentry.elim

theorem Desk.modify (h : Desk s) {f : TaskPhase → TaskPhase}
    (hactive : ∀ phase, (f phase).IsActive → s.inflight.IsOpen n)
    (hwritten : ∀ reply phase, .replied n reply ∈ s.log → phase = .draining ∨ phase = .done →
      f phase = .draining ∨ f phase = .done) : Desk { s with tasks := s.tasks.modify n f } := by
  refine ⟨?_, ?_, h.accepted, h.stopped, h.quiet, h.once, ?_⟩
  · rw [length_modify, h.length]
  · intro i phase hphase hactive'
    rw [getElem?_modify] at hphase
    obtain ⟨old, hold, rfl⟩ := map_eq_some_iff.mp hphase
    split at hactive'
    · next heq => exact heq ▸ hactive old hactive'
    · exact h.active i old hold hactive'
  · intro i reply hmem
    rw [getElem?_modify]
    by_cases heq : n = i
    · subst heq
      rcases h.written n reply hmem with hold | hold
      · rw [hold, Option.map_eq_map, Option.map_some, if_pos rfl]
        exact (hwritten reply _ hmem (.inl rfl)).imp (congrArg some) (congrArg some)
      · rw [hold, Option.map_eq_map, Option.map_some, if_pos rfl]
        exact (hwritten reply _ hmem (.inr rfl)).imp (congrArg some) (congrArg some)
    · simp only [if_neg heq, Option.map_eq_map, Option.map_id']
      exact h.written i reply hmem

theorem Desk.setTask (h : Desk s) {phase : TaskPhase}
    (hactive : phase.IsActive → s.inflight.IsOpen n)
    (hwritten : ∀ reply, .replied n reply ∈ s.log → phase = .draining ∨ phase = .done) :
    Desk (s.setTask n phase) :=
  h.modify (fun _ => hactive) fun reply _ hmem _ => hwritten reply hmem

theorem task_modify {f : TaskPhase → TaskPhase} {phase : TaskPhase}
    (h : (s.tasks.modify n f)[n]? = some phase) : ∃ old, phase = f old := by
  rw [getElem?_modify] at h
  obtain ⟨old, -, rfl⟩ := map_eq_some_iff.mp h
  exact ⟨old, if_pos rfl⟩

section

variable (h : Desk s)
include h

theorem Desk.unwritten {phase : TaskPhase} (htask : s.tasks[n]? = some phase)
    (hphase : phase ≠ .draining) (hdone : phase ≠ .done) (reply : Payload) :
    .replied n reply ∉ s.log := by
  intro hmem
  rcases h.written n reply hmem with hold | hold
  · rw [htask] at hold
    exact hphase (Option.some.inj hold)
  · rw [htask] at hold
    exact hdone (Option.some.inj hold)

theorem Desk.drop {requestId : String} (hget : s.inflight.get? requestId = some n)
    (htask : ∀ (phase : TaskPhase), s.tasks[n]? = some phase → ¬ phase.IsActive) :
    Desk { s with inflight := s.inflight.drop requestId } := by
  refine ⟨h.length, ?_, h.accepted, ?_, h.quiet, h.once, h.written⟩
  · intro i phase hphase hactive
    refine (Pending.isOpen_drop hget).mpr ⟨h.active i phase hphase hactive, ?_⟩
    rintro rfl
    exact htask phase hphase hactive
  · intro i hstopped hopen
    exact h.stopped i hstopped ((Pending.isOpen_drop hget).mp hopen).1

/-! ### The steps of requests that go out -/

theorem Desk.settle (n : Nat) (outcome : Outcome) : Desk (s.settle n outcome) := by
  unfold Peer.settle
  split
  · have hrecord : Desk (s.record (.settled n outcome)) := h.record trivial
    exact hrecord.congr rfl rfl rfl
  · exact h

theorem Desk.popPending (requestId : String) : Desk (s.popPending requestId).2 := by
  unfold Peer.popPending
  split
  · exact h
  · exact h.congr rfl rfl rfl

theorem Desk.sendCancel (n : Nat) (reason : String) : Desk (s.sendCancel n reason) := by
  unfold Peer.sendCancel
  split
  · split
    · exact h
    · exact h.record trivial
  · exact h

theorem Desk.setPhase (n : Nat) (phase : CallPhase) : Desk (s.setPhase n phase) :=
  h.congr rfl rfl rfl

theorem Desk.abandonWrite (n : Nat) (requestId : String) : Desk (s.abandonWrite n requestId).2 := by
  have hpop := h.popPending requestId
  unfold Peer.abandonWrite
  split
  · next m s' heq =>
    rw [heq] at hpop
    exact hpop.settle m .abandoned
  · next s' heq =>
    rw [heq] at hpop
    exact hpop.settle n .abandoned

theorem Desk.writeCancelled (n : Nat) (requestId : String) :
    Desk (s.writeCancelled n requestId) := by
  have habandon := h.abandonWrite n requestId
  unfold Peer.writeCancelled
  split
  · next m s' heq =>
    rw [heq] at habandon
    exact (habandon.sendCancel m _).setPhase n _
  · next s' heq =>
    rw [heq] at habandon
    exact habandon.setPhase n _

theorem Desk.waitCancelled (n : Nat) (requestId : String) : Desk (s.waitCancelled n requestId) := by
  have hpop := h.popPending requestId
  unfold Peer.waitCancelled
  split
  · next m s' heq =>
    rw [heq] at hpop
    exact ((hpop.settle m _).sendCancel m _).setPhase n _
  · next s' heq =>
    rw [heq] at hpop
    exact hpop.setPhase n _

theorem Desk.resume (n : Nat) (requestId : String) (outcome : Outcome) :
    Desk (s.resume n requestId outcome) := by
  unfold Peer.resume
  split
  · exact h.waitCancelled n requestId
  · exact h.setPhase n _

theorem Desk.expireRequest (requestId : String) : Desk (s.expireRequest requestId) := by
  have hpop := h.popPending requestId
  unfold Peer.expireRequest
  split
  · next m s' heq =>
    rw [heq] at hpop
    exact (hpop.settle m _).sendCancel m _
  · next s' heq =>
    rw [heq] at hpop
    exact hpop

theorem Desk.handleAnswer (envelope : Envelope) (now : Nat) (outcome : Outcome) :
    Desk (s.handleAnswer envelope now outcome) := by
  have hpop := h.popPending envelope.requestId
  unfold Peer.handleAnswer
  split
  · next m s' heq =>
    rw [heq] at hpop
    split
    · exact hpop.settle m _
    · exact hpop
  · next s' heq =>
    rw [heq] at hpop
    exact hpop

theorem Desk.request (envelope : Envelope) : Desk (s.request c envelope) := by
  unfold Peer.request
  split
  · exact h
  · exact h.congr rfl rfl rfl

end

theorem settle_incoming (s : Peer) (n : Nat) (outcome : Outcome) :
    (s.settle n outcome).inflight = s.inflight ∧ (s.settle n outcome).tasks = s.tasks := by
  unfold Peer.settle
  split
  · exact ⟨rfl, rfl⟩
  · exact ⟨rfl, rfl⟩

theorem Desk.stop (h : Desk s) : Desk { s with
    inflight := s.inflight.clear
    tasks := s.tasks.mapIdx fun n phase =>
      if s.inflight.IsOpen n then phase.interrupt else phase } := by
  have hopen : ∀ n, ¬ s.inflight.clear.IsOpen n := s.inflight.not_isOpen_clear
  refine ⟨?_, ?_, h.accepted, fun n _ => hopen n, h.quiet, h.once, ?_⟩
  · rw [length_mapIdx, h.length]
    rfl
  · intro n phase hphase hactive
    rw [getElem?_mapIdx] at hphase
    obtain ⟨old, hold, rfl⟩ := map_eq_some_iff.mp hphase
    split at hactive
    · exact absurd hactive old.not_isActive_interrupt
    · next hclosed => exact absurd (h.active n old hold hactive) hclosed
  · intro n reply hmem
    rw [getElem?_mapIdx]
    rcases h.written n reply hmem with hold | hold
    · rw [hold, Option.map_some]
      split
      · exact .inr rfl
      · exact .inl rfl
    · rw [hold, Option.map_some]
      split
      · exact .inr rfl
      · exact .inr rfl

/-- Settling what has been in the table leaves the tasks alone. -/
theorem Desk.foldl_settle (h : Desk s) (items : List Nat) (reason : String) :
    let s' := items.foldl (fun s n => (s.disarm n).settle n (.closed reason)) s
    Desk s' ∧ s'.inflight = s.inflight ∧ s'.tasks = s.tasks := by
  induction items generalizing s with
  | nil => exact ⟨h, rfl, rfl⟩
  | cons n items ih =>
    have hdisarm : Desk (s.disarm n) := h.congr rfl rfl rfl
    have hsettle := settle_incoming (s.disarm n) n (.closed reason)
    have htail := ih (hdisarm.settle n (.closed reason))
    exact ⟨htail.1, htail.2.1.trans hsettle.1, htail.2.2.trans hsettle.2⟩

theorem Desk.close (h : Desk s) (reason : String) : Desk (s.close reason) := by
  unfold Peer.close
  split
  · exact h
  · have hstart : Desk { s with
        closing := true, closedReason := reason, pending := s.pending.clear } :=
      h.congr rfl rfl rfl
    obtain ⟨hdesk, hinflight, htasks⟩ := hstart.foldl_settle s.pending.numbers reason
    have hstop := hdesk.stop
    rw [hinflight, htasks] at hstop
    exact hstop

theorem issued_close (s : Peer) (reason : String) :
    (s.close reason).inflight.issued = s.inflight.issued := by
  unfold Peer.close
  split
  · rfl
  · rfl

/-! ### The steps of tasks -/

theorem Desk.finish (h : Desk s) {request : Envelope} (hrequest : s.inflight.issued[n]? = some request) :
    Desk (s.finish n request.requestId) := by
  have hdone : Desk (s.setTask n .done) := h.setTask False.elim fun _ _ => .inr rfl
  unfold Peer.finish
  dsimp only
  split
  · next hopen =>
    refine hdone.drop ((Pending.isOpen_iff_of_issued hrequest).mp hopen) fun phase hphase => ?_
    obtain ⟨_, rfl⟩ := task_modify hphase
    exact id
  · exact hdone

theorem Desk.sendError (h : Desk s) {request : Envelope} {phase : TaskPhase} {reply : Payload}
    (hrequest : s.inflight.issued[n]? = some request) (htask : s.tasks[n]? = some phase)
    (hphase : phase ≠ .draining) (hdone : phase ≠ .done) (hopen : s.Closed ∨ s.inflight.IsOpen n) :
    Desk (s.sendError n request.requestId reply) := by
  unfold Peer.sendError
  split
  · exact h.finish hrequest
  · next hclosed =>
    exact h.setTask (fun _ => hopen.resolve_left hclosed) fun reply' hmem =>
      absurd hmem (h.unwritten htask hphase hdone reply')

theorem Desk.reject (h : Desk s) (request : Envelope) (reply : Payload) :
    Desk (s.reject request reply) := by
  unfold Peer.reject
  split
  · exact h
  · exact h.record trivial

theorem Desk.startIncomingRequest (h : Desk s) (envelope : Envelope) (now : Nat) :
    Desk (s.startIncomingRequest c envelope now) := by
  unfold Peer.startIncomingRequest
  split
  · exact h.reject _ _
  · split
    · exact h
    · next hid =>
      split
      · exact h.reject _ _
      · have hnone : s.inflight.get? envelope.requestId = none :=
          not_isSome_iff_eq_none.mp hid
        have hissued : ∀ {n : Nat} {request : Envelope}, s.inflight.issued[n]? = some request →
            (s.inflight.issued ++ [envelope])[n]? = some request := fun hold =>
          (getElem?_append_left (List.getElem?_eq_some_iff.mp hold).1).trans hold
        have hregister : Desk { s with
            inflight := s.inflight.register envelope, tasks := s.tasks ++ [.created] } := by
          refine ⟨?_, ?_, ?_, ?_, h.quiet, h.once, ?_⟩
          · rw [length_append, h.length]
            exact (length_append : (_ ++ [envelope]).length = _).symm
          · intro n phase hphase hactive
            rw [Pending.isOpen_register hnone, ← h.length]
            have hlt := (List.getElem?_eq_some_iff.mp hphase).1
            rw [length_append, length_singleton] at hlt
            rcases Nat.lt_or_eq_of_le (Nat.le_of_lt_succ hlt) with hlt | rfl
            · rw [getElem?_append_left hlt] at hphase
              exact .inl (h.active n phase hphase hactive)
            · exact .inr rfl
          · intro n request hmem
            exact hissued (h.accepted n request hmem)
          · intro n hstopped hopen
            rcases (Pending.isOpen_register hnone).mp hopen with hopen | rfl
            · exact h.stopped n hstopped hopen
            · obtain ⟨before, after, request, envelope', heq, hmem, -⟩ := hstopped
              have haccepted := h.accepted s.inflight.issued.length request
                (heq ▸ mem_append_left _ hmem)
              exact Nat.lt_irrefl _ (List.getElem?_eq_some_iff.mp haccepted).1
          · intro n reply hmem
            have hold := h.written n reply hmem
            have hlt : n < s.tasks.length := by
              rcases hold with hold | hold
              · exact (List.getElem?_eq_some_iff.mp hold).1
              · exact (List.getElem?_eq_some_iff.mp hold).1
            rw [getElem?_append_left hlt]
            exact hold
        have haccept :=
          hregister.append (.accepted s.tasks.length envelope) (fun n request heq => by
            cases heq
            rw [h.length]
            exact getElem?_concat_length) (fun _ _ _ heq => nomatch heq) fun _ _ heq => nomatch heq
        exact haccept.congr rfl rfl rfl

theorem Desk.startHandler (h : Desk s) {request : Envelope} (now : Nat)
    (hrequest : s.inflight.issued[n]? = some request) (htask : s.tasks[n]? = some .created) :
    Desk (s.startHandler c n request now) := by
  have hopen : s.Closed ∨ s.inflight.IsOpen n := .inr (h.active n _ htask trivial)
  unfold Peer.startHandler
  split
  · exact h.sendError hrequest htask nofun nofun hopen
  · split
    · exact h.sendError hrequest htask nofun nofun hopen
    · exact h.setTask False.elim fun reply hmem => absurd hmem (h.unwritten htask nofun nofun reply)

/-- A handler ends with an exception only while the entry of its task is in the table. -/
def Heeds (s : Peer) : Event → Prop
  | .handled n .timedOut _ _ | .handled n .raised _ _ => s.Closed ∨ s.inflight.IsOpen n
  | _ => True

theorem Desk.endHandler (h : Desk s) {request : Envelope} (now later : Nat) {outcome : Handled}
    (hrequest : s.inflight.issued[n]? = some request) (htask : s.tasks[n]? = some .handling)
    (hheeds : Heeds s (.handled n outcome now later)) :
    Desk (s.endHandler c n request now later outcome) := by
  cases outcome with
  | timedOut => exact h.sendError hrequest htask nofun nofun hheeds
  | cancelled => exact h.finish hrequest
  | raised => exact h.sendError hrequest htask nofun nofun hheeds
  | returned result =>
    unfold Peer.endHandler
    dsimp only
    split
    · exact h.finish hrequest
    · next hopen =>
      have hopen := not_not.mp hopen
      split
      · exact h.sendError hrequest htask nofun nofun (.inr hopen)
      · split
        · exact h.sendError hrequest htask nofun nofun (.inr hopen)
        · split
          · exact h.sendError hrequest htask nofun nofun (.inr hopen)
          · exact h.setTask (fun _ => hopen) fun reply hmem =>
              absurd hmem (h.unwritten htask nofun nofun reply)

/-- A cancel that belongs to the request of a task takes the task's entry out. -/
theorem Desk.handleCancel (h : Desk s) (envelope : Envelope) :
    Desk ((s.record (.read envelope)).handleCancel envelope) := by
  -- the task to which the cancel belongs is the one under the id that it names
  have hfound : ∀ n request, .accepted n request ∈ s.log →
      envelope.requestId = request.requestId → s.inflight.IsOpen n →
      s.inflight.get? envelope.requestId = some n ∧ s.inflight.issued[n]? = some request := by
    intro n request hmem hid hopen
    have hissued := h.accepted n request hmem
    rw [hid, ← Pending.isOpen_iff_of_issued hissued]
    exact ⟨hopen, hissued⟩
  have hignored : (∀ n request, s.inflight.get? envelope.requestId = some n →
      s.inflight.issued[n]? = some request → ¬ request.Cancels envelope) →
      Desk (s.record (.read envelope)) := by
    intro hother
    refine h.append _ nofun ?_ nofun
    intro n request envelope' heq hmem _ hid hcancels hopen
    cases heq
    obtain ⟨hget, hissued⟩ := hfound n request hmem hid hopen
    exact hother n request hget hissued hcancels
  unfold Peer.handleCancel
  cases hget : s.inflight.get? envelope.requestId with
  | none =>
    have hrecord : (s.record (.read envelope)).inflight.get? envelope.requestId = none := hget
    rw [hrecord]
    refine hignored fun n request hget' => ?_
    rw [hget] at hget'
    cases hget'
  | some m =>
    obtain ⟨request, hissued, -⟩ := Pending.exists_issued hget
    have hrecord : (s.record (.read envelope)).inflight.get? envelope.requestId = some m := hget
    have hrecord' : (s.record (.read envelope)).inflight.issued[m]? = some request := hissued
    rw [hrecord]
    dsimp only
    rw [hrecord']
    dsimp only
    split
    · have hinterrupt : Desk { s with tasks := s.tasks.modify m TaskPhase.interrupt } := by
        refine h.modify (fun phase hactive => absurd hactive phase.not_isActive_interrupt) ?_
        rintro reply phase - (rfl | rfl)
        · exact .inr rfl
        · exact .inr rfl
      have hdrop := hinterrupt.drop hget fun phase hphase => by
        obtain ⟨old, rfl⟩ := task_modify hphase
        exact old.not_isActive_interrupt
      refine (hdrop.append (.read envelope) nofun ?_ nofun).congr rfl rfl rfl
      intro n request' envelope' heq hmem _ hid _ hopen
      cases heq
      obtain ⟨hopen, hne⟩ := (Pending.isOpen_drop hget).mp hopen
      exact hne (Option.some.inj ((hfound n request' hmem hid hopen).1.symm.trans hget))
    · next hmatch =>
      refine hignored fun n request' hget' hissued' hcancels => ?_
      rw [hget] at hget'
      cases hget'
      rw [hissued] at hissued'
      cases hissued'
      exact hmatch hcancels

/-! ### A run -/

theorem Desk.dispatch (h : Desk s) (envelope : Envelope) (now : Nat) :
    Desk ((s.record (.read envelope)).dispatch c envelope now) := by
  have hrecord : ∀ payload, envelope.payload = payload → (∀ reason, payload ≠ .cancel reason) →
      Desk (s.record (.read envelope)) := by
    rintro payload rfl hother
    refine h.record fun hcancel : envelope.IsCancel => ?_
    unfold Envelope.IsCancel at hcancel
    split at hcancel
    · next reason heq => exact hother reason heq
    · exact hcancel
  unfold Peer.dispatch
  split
  · next result heq => exact (hrecord _ heq nofun).handleAnswer _ _ _
  · next code message retryable heq => exact (hrecord _ heq nofun).handleAnswer _ _ _
  · next operation params heq => exact (hrecord _ heq nofun).startIncomingRequest _ _
  · exact h.handleCancel envelope
  · next name data heq => exact hrecord _ heq nofun

theorem Desk.step (h : Desk s) {event : Event} (hheeds : Heeds s event) : Desk (s.step c event) := by
  cases event with
  | request requestId deadlineMs operation params => exact h.request _
  | written n =>
    unfold Peer.step
    dsimp only
    split
    · exact h.setPhase n _
    · exact h
  | writeTimedOut n | writeFailed n =>
    unfold Peer.step
    dsimp only
    split
    · exact ((h.abandonWrite n _).close _).setPhase n _
    · exact h
  | callerCancelled n =>
    unfold Peer.step
    dsimp only
    split
    · exact h.writeCancelled n _
    · exact h.waitCancelled n _
    · exact h
  | resume n =>
    unfold Peer.step
    dsimp only
    split
    · exact h.resume n _ _
    · exact h
  | expire n =>
    unfold Peer.step
    dsimp only
    split
    · exact h.expireRequest _
    · exact h
  | read envelope now =>
    unfold Peer.step
    dsimp only
    split
    · exact h
    · split
      · exact h.dispatch envelope now
      · exact h.close _
  | started n now =>
    unfold Peer.step
    dsimp only
    split
    · next request htask hrequest => exact h.startHandler now hrequest htask
    · exact h
  | handled n outcome now later =>
    unfold Peer.step
    dsimp only
    split
    · next request htask hrequest => exact h.endHandler now later hrequest htask hheeds
    · exact h
  | put n =>
    unfold Peer.step
    dsimp only
    split
    · next reply htask =>
      split
      · exact h
      · -- the task has its entry, so that it has not been stopped
        have hopen := h.active n _ htask trivial
        have hunwritten := h.unwritten htask nofun nofun
        have hdraining : Desk (s.setTask n .draining) :=
          h.setTask (fun _ => hopen) fun _ _ => .inl rfl
        refine hdraining.append _ (fun _ _ heq => nomatch heq) (fun _ _ _ heq => nomatch heq) ?_
        rintro n' reply' heq
        cases heq
        refine ⟨fun hstopped => h.stopped n hstopped hopen, ?_, hunwritten⟩
        rw [Peer.setTask, getElem?_modify, htask]
        exact congrArg some (if_pos rfl)
    · exact h
  | drained n =>
    unfold Peer.step
    dsimp only
    split
    · next request htask hrequest => exact h.finish hrequest
    · exact h
  | replyFailed n reason =>
    unfold Peer.step
    dsimp only
    split
    · next request htask hrequest =>
      exact (h.close reason).finish ((congrArg (·[n]?) (issued_close s reason)).trans hrequest)
    · next request htask hrequest =>
      exact (h.close reason).finish ((congrArg (·[n]?) (issued_close s reason)).trans hrequest)
    · exact h
  | close reason => exact h.close reason
  | lost => exact h.congr rfl rfl rfl

/-- Every step of a run heeds the entries of the tasks. -/
def Careful (c : Config) (s : Peer) : List Event → Prop
  | [] => True
  | event :: events => Heeds s event ∧ Careful c (s.step c event) events

theorem desk_run {events : List Event} (h : Careful c .start events) : Desk (.run c events) := by
  have hfold : ∀ (events : List Event) (s : Peer), Desk s → Careful c s events →
      Desk (events.foldl (Peer.step c) s) := by
    intro events
    induction events with
    | nil => exact fun _ h _ => h
    | cons event events ih => exact fun s h hcareful => ih _ (h.step hcareful.1) hcareful.2
  exact hfold events _ .start h

/-! ### What a peer promises -/

/-- Every request that goes out is settled once, at the latest when its timer fires; it is given an
answer of its own; and until then it is in the table, which keeps its bound. -/
structure Peer.Settles (c : Config) (s : Peer) : Prop where
  once : ∀ n, s.log.countP (Entry.settles n) ≤ 1
  own : ∀ n outcome, .settled n outcome ∈ s.log → outcome.IsAnswer → s.Received n outcome
  given : ∀ (n : Nat) (call : Call) (outcome : Outcome), s.calls[n]? = some call →
    call.phase = .over outcome → call.future ≠ none ∧
      (outcome.IsAnswer → .settled n outcome ∈ s.log)
  pending : ∀ (n : Nat) (call : Call), s.calls[n]? = some call →
    (∀ outcome, .settled n outcome ∉ s.log) → s.pending.get? (s.callId n) = some n
  expires : ∀ (n : Nat) (call : Call), s.calls[n]? = some call →
    (∀ outcome, .settled n outcome ∉ s.log) → .settled n .deadline ∈ (s.step c (.expire n)).log
  size : s.pending.size ≤ c.maxPendingRequests

/-- Every request that comes in is answered once at most, and not after a cancel of it. -/
structure Peer.Serves (s : Peer) : Prop where
  once : ∀ n, s.log.countP (Entry.replies n) ≤ 1
  quiet : ∀ before after n reply, s.log = before ++ .replied n reply :: after → ¬ Stopped before n

theorem mem_sendCancel {entry : Entry} (h : entry ∈ s.log) (n : Nat) (reason : String) :
    entry ∈ (s.sendCancel n reason).log := by
  unfold Peer.sendCancel
  split
  · split
    · exact h
    · exact mem_append_left _ h
  · exact h

theorem settled_expireRequest {requestId : String} {call : Call}
    (hget : s.pending.get? requestId = some n) (hcall : s.calls[n]? = some call)
    (hfuture : call.future = none) : .settled n .deadline ∈ (s.expireRequest requestId).log := by
  have hdisarm : ({ s with pending := s.pending.drop requestId }.disarm n).calls[n]? =
      some ⟨none, false, call.phase⟩ := by
    rw [Peer.disarm, getElem?_modify, hcall, ← hfuture]
    exact congrArg some (if_pos rfl)
  rw [Peer.expireRequest, popPending_some hget]
  refine mem_sendCancel ?_ n _
  rw [Peer.settle, hdisarm]
  exact mem_append_right _ (mem_singleton.mpr rfl)

theorem Books.settles (h : Books c s []) : s.Settles c := by
  have hunsettled : ∀ (n : Nat) (call : Call), s.calls[n]? = some call →
      (∀ outcome, .settled n outcome ∉ s.log) → call.future = none := by
    intro n call hcall hnone
    refine Option.eq_none_iff_forall_ne_some.mpr fun outcome hfuture => hnone outcome ?_
    exact (h.settled n call outcome hcall).mp hfuture
  refine ⟨h.once, h.own, ?_, ?_, ?_, h.size⟩
  · intro n call outcome hcall hover
    obtain ⟨hfuture, hanswer⟩ := h.given n call hcall outcome hover
    exact ⟨hfuture, fun h' => (h.settled n call outcome hcall).mp (hanswer h')⟩
  · intro n call hcall hnone
    exact h.entry hcall (hunsettled n call hcall hnone)
  · intro n call hcall hnone
    have hfuture := hunsettled n call hcall hnone
    have hentry := h.entry hcall hfuture
    have htimer := h.armed n call hcall ((h.future n call hcall not_mem_nil).mp hfuture)
    have hstep : s.step c (.expire n) = s.expireRequest (s.callId n) := by
      obtain ⟨future, timer, phase⟩ := call
      cases htimer
      rw [Peer.step, hcall]
    rw [hstep]
    exact settled_expireRequest hentry hcall hfuture

theorem Desk.serves (h : Desk s) : s.Serves := ⟨h.once, h.quiet⟩

/-- **Multiplexed requests.**  In every run in which no handler ends with an exception after its
request was cancelled, requests settle once, with their own answer, and are answered once. -/
theorem settles_and_serves (events : List Event) (h : Careful c .start events) :
    (Peer.run c events).Settles c ∧ (Peer.run c events).Serves :=
  ⟨(books_run c events).settles, (desk_run h).serves⟩

/-! ### A handler that ends with an exception -/

/-- A peer of the runtime, whose handler takes every request. -/
def runtimePeer : Config where
  outboundDirection := .runtimeToExtension
  runtimeId := "r"
  sessionId := "s"
  maxPendingRequests := 1
  maxInflightRequests := 1
  handles := true
  accepts := fun _ => true

def clickRequest : Envelope where
  direction := .extensionToRuntime
  requestId := "q"
  runtimeId := "r"
  sessionId := "s"
  deadlineMs := 100
  payload := .request "browser.click" []

/-- A request is handled and cancelled; its handler fails as it is cancelled. -/
def failing : List Event :=
  [.read clickRequest 0, .started 0 0, .read (clickRequest.cancelFor "caller_cancelled") 1,
    .handled 0 .raised 2 2, .put 0]

theorem answered_after_cancel : ¬ (Peer.run runtimePeer failing).Serves := by
  intro h
  refine h.quiet [.read clickRequest, .accepted 0 clickRequest,
    .read (clickRequest.cancelFor "caller_cancelled")] [] 0 Peer.internalError ?_ ?_
  · decide
  · exact ⟨[.read clickRequest, .accepted 0 clickRequest], [], clickRequest,
      clickRequest.cancelFor "caller_cancelled", rfl,
      mem_cons_of_mem _ mem_cons_self, trivial, rfl, by decide⟩

/-- A request goes out and is answered while one that has come in is handled. -/
def crossing : List Event :=
  [.request "a" 50 "browser.tabs" [], .read clickRequest 0, .started 0 0, .written 0,
    .read ⟨.extensionToRuntime, "a", "r", "s", 50, .response .null⟩ 1, .handled 0 (.returned .null) 2 2,
    .put 0, .drained 0, .resume 0]

theorem settles_and_serves_crossing :
    ((Peer.run runtimePeer crossing).Settles runtimePeer ∧ (Peer.run runtimePeer crossing).Serves) ∧
      .settled 0 (.result .null) ∈ (Peer.run runtimePeer crossing).log ∧
      .replied 0 (.response .null) ∈ (Peer.run runtimePeer crossing).log :=
  ⟨settles_and_serves crossing (by simp only [crossing, Careful, Heeds, and_self]),
    by decide, by decide⟩

end KolegaCode.BrowserExtension
