import KolegaCode.Control.Settled

/-!
# Control — an accepted answer is the answer

Every coroutine that has not ended can be taken a step further, and none is taken more than three:
`own_step_enabled` and `rank_run`.

Where a coroutine settles a request again, it is announced as settled twice, and an answer accepted
after the timer had fired is not the one that is returned: `settled_twice`.
-/

namespace KolegaCode.Control

variable {Id Client Msg : Type} [DecidableEq Id]

/-! ### The coroutines end -/

/-- How many of its own steps a coroutine has left at most. -/
def Waiter.rank : Waiter Msg → Nat
  | .announcing => 3
  | .waiting => 2
  | .expired => 1
  | .cancelling => 1
  | .returned _ => 0
  | .cancelled => 0

def rankOf (s : ControlChannel Id Client Msg) (id : Id) : Nat :=
  match s.requests.get? id with
  | none => 3
  | some request => request.waiter.rank

/-- The steps the event loop takes with a coroutine. -/
def Event.owner : Event Id Client Msg → Option Id
  | .announced id | .timeout id | .resume id => some id
  | _ => none

/-- How many steps the event loop has taken with the coroutine of a request. -/
def ownSteps (id : Id) (events : List (Event Id Client Msg)) : Nat :=
  events.countP fun event => event.owner = some id

variable (s : ControlChannel Id Client Msg)

theorem rankOf_settle (id' : Id) (response : Msg)
    (reason : Reason) (id : Id) : rankOf (s.settle id' response reason) id = rankOf s id := by
  rw [ControlChannel.settle]
  split
  · rfl
  · next request hreq =>
    by_cases he : id = id'
    · simp only [rankOf, he, Assoc.get?_set_self, hreq]
      rfl
    · simp only [rankOf, Assoc.get?_set_of_ne he]

theorem rankOf_setRequest (id' : Id) (request : ControlRequest Msg) (id : Id) :
    rankOf (s.setRequest id' request) id = if id = id' then request.waiter.rank else rankOf s id := by
  by_cases he : id = id'
  · simp only [rankOf, ControlChannel.setRequest, he, Assoc.get?_set_self, if_true]
  · simp only [rankOf, ControlChannel.setRequest, Assoc.get?_set_of_ne he, if_neg he]

variable {id' : Id} {request : ControlRequest Msg}

theorem rankOf_finish {s : ControlChannel Id Client Msg} (h : s.requests.get? id' ≠ none)
    (result : Msg) (id : Id) :
    rankOf (s.finish id' result) id = if id = id' then 0 else rankOf s id := by
  obtain ⟨request, hreq⟩ := Option.ne_none_iff_exists'.mp h
  simp only [ControlChannel.finish, hreq]
  exact rankOf_setRequest ..

theorem rankOf_finishFuture {s : ControlChannel Id Client Msg}
    (h : s.requests.get? id' = some request) (hdone : request.future.isSome) (id : Id) :
    rankOf (s.finishFuture id') id = if id = id' then 0 else rankOf s id := by
  obtain ⟨result, hfuture⟩ := Option.isSome_iff_exists.mp hdone
  rw [ControlChannel.finishFuture_eq h hfuture, rankOf_finish (by simp [h])]

theorem rankOf_settleDefault (ids : List Id) (reason : Reason)
    (id : Id) : rankOf (ids.foldl (ControlChannel.settleDefault reason) s) id = rankOf s id := by
  induction ids generalizing s with
  | nil => rfl
  | cons id' ids ih =>
    rw [List.foldl_cons, ih, ControlChannel.settleDefault]
    split
    · rfl
    · exact rankOf_settle ..

/-- One request changes, and its coroutine is taken on. -/
theorem rank_le_of_change {s s' : ControlChannel Id Client Msg} {id : Id} (rank steps : Nat)
    (h : s.requests.get? id' = some request)
    (hrank : rankOf s' id = if id = id' then rank else rankOf s id)
    (hle : rank + steps ≤ request.waiter.rank) :
    rankOf s' id + (if some id' = some id then steps else 0) ≤ rankOf s id := by
  rw [hrank]
  by_cases he : id = id'
  · subst he
    simpa only [if_true, rankOf, h] using hle
  · have hne : ¬ some id' = some id := fun e => he (Option.some.inj e).symm
    exact Nat.le_of_eq (by rw [if_neg he, if_neg hne, Nat.add_zero])

theorem Waiter.rank_pos {waiter : Waiter Msg} (h : waiter.ended = false) : 1 ≤ waiter.rank := by
  cases waiter <;> simp_all [Waiter.ended, Waiter.rank]

variable [DecidableEq Client] {s s' : ControlChannel Id Client Msg}
  {event : Event Id Client Msg}

/-- A step of the event loop with a coroutine takes it on, and no other step sets it back. -/
theorem rank_step (hstep : step s event = some s') (id : Id) :
    rankOf s' id + (if event.owner = some id then 1 else 0) ≤ rankOf s id := by
  cases event with
  | acquire client =>
    simp only [step, ControlChannel.acquire] at hstep
    split at hstep
    · next hok =>
      split at hok
      · cases hok
      · cases hok
        cases hstep
        exact Nat.le_refl _
    · cases hstep
      exact Nat.le_refl _
  | release client =>
    cases hstep
    rw [ControlChannel.release]
    split
    · exact Nat.le_refl _
    · rw [rankOf_settleDefault]
      exact Nat.le_refl _
  | request id' kind payload default =>
    simp only [step] at hstep
    split at hstep
    · cases hstep
    · next hnew =>
      cases hstep
      have hnone := Assoc.get?_eq_none_iff.mpr hnew
      by_cases he : id = id'
      · subst he
        simp [rankOf, ControlChannel.request, ControlChannel.write, hnone, Event.owner, Waiter.rank]
      · simp [rankOf, ControlChannel.request, ControlChannel.write, Assoc.get?_set_of_ne he,
          Event.owner]
  | announced id' =>
    simp only [step] at hstep
    split at hstep
    · next request hreq =>
      split at hstep
      · next hwaiter =>
        cases hstep
        rw [ControlChannel.announced]
        split
        · refine rank_le_of_change 0 _ hreq ?_ (by simp [hwaiter, Waiter.rank])
          have hget : (s.settle id' request.default .noController).requests.get? id' =
              some (ControlChannel.resolve request request.default) := by
            simp [ControlChannel.settle, hreq]
          rw [rankOf_finishFuture hget (by simp [ControlChannel.resolve]), rankOf_settle]
        · split
          · next hdone =>
            exact rank_le_of_change _ _ hreq (rankOf_finishFuture hreq hdone id)
              (by simp [hwaiter, Waiter.rank])
          · exact rank_le_of_change _ _ hreq (rankOf_setRequest ..) (by simp [hwaiter, Waiter.rank])
      · cases hstep
    · cases hstep
  | timeout id' =>
    simp only [step] at hstep
    split at hstep
    · next request hreq =>
      split at hstep
      · next hwaiter =>
        cases hstep
        exact rank_le_of_change _ _ hreq (rankOf_setRequest ..) (by simp [hwaiter, Waiter.rank])
      · cases hstep
    · cases hstep
  | cancel id' =>
    simp only [step] at hstep
    split at hstep
    · next request hreq =>
      split at hstep
      · cases hstep
      · next hended =>
        cases hstep
        have hpos := Waiter.rank_pos (Bool.not_eq_true _ ▸ hended)
        have hle := rank_le_of_change _ 0 hreq
          (rankOf_setRequest s id' { request with waiter := .cancelling } id) hpos
        simpa only [ite_self, Event.owner, reduceCtorEq, if_false] using hle
    · cases hstep
  | resume id' =>
    simp only [step] at hstep
    split at hstep
    · next request hreq =>
      rw [ControlChannel.resume] at hstep
      cases hwaiter : request.waiter with
      | waiting =>
        simp only [hwaiter] at hstep
        split at hstep
        · next hdone =>
          cases hstep
          exact rank_le_of_change _ _ hreq (rankOf_finishFuture hreq hdone id)
            (by simp [hwaiter, Waiter.rank])
        · cases hstep
      | expired =>
        simp only [hwaiter] at hstep
        cases hstep
        refine rank_le_of_change 0 _ hreq ?_ (by simp [hwaiter, Waiter.rank])
        rw [rankOf_finish (by simp [ControlChannel.settle, hreq]), rankOf_settle]
      | cancelling =>
        simp only [hwaiter] at hstep
        obtain ⟨request', hreq', rfl⟩ := Option.map_eq_some_iff.mp hstep
        refine rank_le_of_change 0 _ hreq ?_ (by simp [hwaiter, Waiter.rank])
        refine (rankOf_setRequest ..).trans ?_
        rw [rankOf_settle]
        rfl
      | announcing | returned result | cancelled => simp [hwaiter] at hstep
    · cases hstep
  | markDelivered id' =>
    cases hstep
    rw [ControlChannel.markDelivered]
    split
    · exact Nat.le_refl _
    · next request hreq =>
      split
      · exact Nat.le_refl _
      · have hle := rank_le_of_change _ 0 hreq
          (rankOf_setRequest s id' { request with delivered := true } id) (Nat.le_refl _)
        simpa only [ite_self, Event.owner, reduceCtorEq, if_false] using hle
  | respond id' response client =>
    simp only [step, ControlChannel.respond] at hstep
    have hsettle : rankOf (s.settle id' response .answered) id ≤ rankOf s id :=
      Nat.le_of_eq (rankOf_settle ..)
    split at hstep
    · next s₁ hok =>
      cases hstep
      split at hok
      · cases hok
      · split at hok
        · cases hok
        · cases hok
          exact hsettle
    · next s₁ hok =>
      cases hstep
      split at hok
      · cases hok
      · split at hok
        · cases hok
          exact Nat.le_refl _
        · cases hok
    · cases hstep
      exact Nat.le_refl _

/-- The event loop takes at most three steps with a coroutine. -/
theorem rank_run {events : List (Event Id Client Msg)} (hrun : run s events = some s') (id : Id) :
    rankOf s' id + ownSteps id events ≤ rankOf s id := by
  induction events generalizing s with
  | nil =>
    cases hrun
    exact Nat.le_refl _
  | cons event events ih =>
    obtain ⟨s₁, hstep, hrun⟩ := Option.bind_eq_some_iff.mp hrun
    have hone := rank_step hstep id
    have hrest := ih hrun
    rw [ownSteps, List.countP_cons]
    simp only [decide_eq_true_eq]
    rw [ownSteps] at hrest
    omega

/-- A coroutine that has not ended can be taken on. -/
theorem own_step_enabled {id : Id} (hreq : s.requests.get? id = some request)
    (hended : request.waiter.ended = false) :
    ∃ event : Event Id Client Msg, event.owner = some id ∧ step s event ≠ none := by
  cases hwaiter : request.waiter with
  | announcing => exact ⟨.announced id, rfl, by simp [step, hreq, hwaiter]⟩
  | waiting => exact ⟨.timeout id, rfl, by simp [step, hreq, hwaiter]⟩
  | expired => exact ⟨.resume id, rfl, by simp [step, hreq, ControlChannel.resume, hwaiter]⟩
  | cancelling =>
    refine ⟨.resume id, rfl, ?_⟩
    simp [step, hreq, ControlChannel.resume, hwaiter, ControlChannel.settle]
  | returned result | cancelled => simp [hwaiter, Waiter.ended] at hended

/-- An answer of a client that does not hold the lease changes nothing. -/
theorem step_respond_of_not_holder {client : Client} (hlease : s.lease ≠ some client) (id : Id)
    (response : Msg) : step s (.respond id response (some client)) = some s := by
  simp only [step, ControlChannel.respond]
  by_cases hnone : s.lease = none
  · simp [hnone, ControlChannel.hasController]
  · rw [if_pos ⟨by simp, hnone, fun e => hlease e.symm⟩]

/-- **An accepted control answer is the answer.**  In every run in which no coroutine settles a
request that has been settled: every request ends at most once, within three steps of its coroutine,
of which one can always be taken; it returns the response of an answer that was accepted; an answer
of an identified client without the lease changes nothing; and a request is announced as settled
once when it is settled, and never before. -/
theorem accepted_answer_returned (events : List (Event Id Client Msg))
    (s : ControlChannel Id Client Msg)
    (hcareful : Careful (ControlChannel.new Id Client Msg) events)
    (hrun : run (ControlChannel.new Id Client Msg) events = some s) :
    (∀ id request, s.requests.get? id = some request →
      endings id s.log = (if request.waiter.ended then 1 else 0) ∧
      resolutions id s.log = (if request.future.isSome then 1 else 0) ∧
      (request.waiter.ended = false →
        ownSteps id events < 3 ∧
        ∃ event : Event Id Client Msg, event.owner = some id ∧ step s event ≠ none)) ∧
    (∀ id response result, .accepted id response ∈ s.log → .returned id result ∈ s.log →
      result = response) ∧
    (∀ id response client, s.lease ≠ some client →
      step s (.respond id response (some client)) = some s) := by
  have hsound := sound_new.run hcareful hrun
  refine ⟨fun id request hreq => ?_, fun id response result haccepted hreturned => ?_,
    fun id response client hlease => step_respond_of_not_holder hlease id response⟩
  · have hr := hsound.about hreq
    refine ⟨hr.ended, hr.resolved, fun hended => ⟨?_, own_step_enabled hreq hended⟩⟩
    have hrank := rank_run hrun id
    have hpos := Waiter.rank_pos hended
    simp only [rankOf, hreq] at hrank
    change request.waiter.rank + ownSteps id events ≤ 3 at hrank
    omega
  · have hmem : ∀ {entry : Entry Id Msg}, entry.id = id → entry ∈ s.log →
        entry ∈ entriesOf id s.log :=
      fun he h => List.mem_filter.mpr ⟨h, decide_eq_true he⟩
    have hs := hsound.sound id
    cases hreq : s.requests.get? id with
    | none =>
      simp only [Sound, view, hreq] at hs
      have hin := hmem rfl haccepted
      rw [hs.2] at hin
      cases hin
    | some request =>
      have hr := hsound.about hreq
      have hfuture := hr.accepted _ (hmem rfl haccepted)
      rw [hr.returned _ (hmem rfl hreturned)] at hfuture
      exact Option.some.inj hfuture

/-- A request of client 1's session, with 0 for its default. -/
def asked : List (Event Nat Nat Nat) := [.acquire 1, .request 7 "question" 3 0]

theorem accepted_answer_returned_asked :
    ∃ s, run (.new Nat Nat Nat) (asked ++ [.announced 7, .respond 7 5 (some 1), .resume 7]) = some s ∧
      .returned 7 5 ∈ s.log ∧ resolutions 7 s.log = 1 := by
  obtain ⟨s, hs⟩ := Option.isSome_iff_exists.mp (show (run (.new Nat Nat Nat)
    (asked ++ [.announced 7, .respond 7 5 (some 1), .resume 7])).isSome from by decide)
  have h := accepted_answer_returned _ s (by decide) hs
  have hs' := hs
  cases hs'
  exact ⟨_, hs, by decide, (h.1 7 _ rfl).2.1⟩

/-- **A request settled twice.**  The client answers after the timer of the wait has fired and
before the coroutine is resumed: the answer is accepted, and the default is returned.  The client
leaves while the request is being announced: the request is announced as settled twice. -/
theorem settled_twice :
    (∃ s, run (.new Nat Nat Nat)
        (asked ++ [.announced 7, .timeout 7, .respond 7 5 (some 1), .resume 7]) = some s ∧
      .accepted 7 5 ∈ s.log ∧ .returned 7 0 ∈ s.log ∧ .cancelled 7 ∉ s.log ∧
      resolutions 7 s.log = 2) ∧
    ∃ s, run (.new Nat Nat Nat) (asked ++ [.release 1, .announced 7]) = some s ∧
      resolutions 7 s.log = 2 :=
  ⟨⟨_, rfl, by decide, by decide, by decide, by decide⟩, _, rfl, by decide⟩

end KolegaCode.Control
