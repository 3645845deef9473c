import KolegaCode.Control.Channel

/-!
# Control — a request is settled once

A step is followed from one request: `View` is the request, whether it is pending, and the entries
of the log about it.  `Sound` says what holds of a view in every run without a `Careless` step, one
that settles a request that has been settled before.
-/

namespace KolegaCode.Control

open List Option

variable {Id Client Msg : Type} [DecidableEq Id] [DecidableEq Client]

def Entry.id : Entry Id Msg → Id
  | .requested id _ | .resolved id _ _ | .accepted id _ | .returned id _ | .cancelled id => id

def Entry.isResolved : Entry Id Msg → Bool
  | .resolved .. => true
  | _ => false

/-- The coroutine ends, one way or the other. -/
def Entry.isEnd : Entry Id Msg → Bool
  | .returned .. | .cancelled _ => true
  | _ => false

/-- The entries about a request. -/
def entriesOf (id : Id) (log : List (Entry Id Msg)) : List (Entry Id Msg) :=
  log.filter fun entry => entry.id = id

/-- How often the request was announced as settled. -/
def resolutions (id : Id) (log : List (Entry Id Msg)) : Nat :=
  (entriesOf id log).countP Entry.isResolved

/-- How often the coroutine of the request ended. -/
def endings (id : Id) (log : List (Entry Id Msg)) : Nat :=
  (entriesOf id log).countP Entry.isEnd

/-! ### One request -/

structure View (Id Msg : Type) where
  request : Option (ControlRequest Msg)
  pending : Bool
  entries : List (Entry Id Msg)

def view (s : ControlChannel Id Client Msg) (id : Id) : View Id Msg where
  request := s.requests.get? id
  pending := decide (id ∈ s.pending)
  entries := entriesOf id s.log

/-- What holds of a request and the entries about it. -/
structure SoundRequest (id : Id) (request : ControlRequest Msg) (pending : Bool)
    (entries : List (Entry Id Msg)) : Prop where
  pending : pending = request.future.isNone
  resolved : entries.countP Entry.isResolved = if request.future.isSome then 1 else 0
  ended : entries.countP Entry.isEnd = if request.waiter.ended then 1 else 0
  accepted : ∀ response, .accepted id response ∈ entries → request.future = some response
  returned : ∀ result, .returned id result ∈ entries → request.future = some result

def Sound (id : Id) (v : View Id Msg) : Prop :=
  match v.request with
  | none => v.pending = false ∧ v.entries = []
  | some request => SoundRequest id request v.pending v.entries

/-! ### When a request is settled twice -/

/-- A coroutine settles a request that has been settled before. -/
def Careless (s : ControlChannel Id Client Msg) : Event Id Client Msg → Bool
  | .announced id =>
    !s.hasController && (s.requests.get? id).any fun request => request.future.isSome
  | .resume id => (s.requests.get? id).any fun request =>
      (match request.waiter with
        | .expired | .cancelling => true
        | _ => false) && request.future.isSome
  | _ => false

/-- No step of the run is careless where it is taken. -/
def Careful : ControlChannel Id Client Msg → List (Event Id Client Msg) → Prop
  | _, [] => True
  | s, event :: events =>
    Careless s event = false ∧
      match step s event with
      | none => True
      | some s' => Careful s' events

instance decidableCareful : ∀ (s : ControlChannel Id Client Msg)
    (events : List (Event Id Client Msg)), Decidable (Careful s events)
  | _, [] => .isTrue trivial
  | s, event :: events =>
    have : Decidable (match step s event with
        | none => True
        | some s' => Careful s' events) :=
      match step s event with
      | none => .isTrue trivial
      | some s' => decidableCareful s' events
    inferInstanceAs (Decidable (_ ∧ _))

/-! ### What the operations do to one request -/

section

variable {s s' : ControlChannel Id Client Msg} {id id' : Id} {request : ControlRequest Msg}

omit [DecidableEq Client]

theorem entriesOf_append (id : Id) (log log' : List (Entry Id Msg)) :
    entriesOf id (log ++ log') = entriesOf id log ++ entriesOf id log' := filter_append ..

theorem view_write (s : ControlChannel Id Client Msg) (entry : Entry Id Msg) (id : Id) :
    view (s.write entry) id = { view s id with
      entries := (view s id).entries ++ if entry.id = id then [entry] else [] } := by
  simp only [view, ControlChannel.write, entriesOf_append]
  congr 2
  by_cases h : entry.id = id <;> simp [entriesOf, h]

theorem view_setRequest (s : ControlChannel Id Client Msg) (id' : Id) (request : ControlRequest Msg)
    (id : Id) : view (s.setRequest id' request) id =
      if id = id' then { view s id with request := some request } else view s id := by
  simp only [view, ControlChannel.setRequest, Assoc.get?_set]
  split <;> rfl

theorem view_settle (h : s.requests.get? id' = some request) (response : Msg) (reason : Reason)
    (id : Id) : view (s.settle id' response reason) id =
      if id = id' then
        ⟨some (ControlChannel.resolve request response), false,
          (view s id).entries ++ [.resolved id response reason]⟩
      else view s id := by
  simp only [view, ControlChannel.settle, h, Assoc.get?_set, entriesOf_append, mem_filter,
    decide_eq_true_eq]
  split
  · next he =>
    subst he
    simp [entriesOf, Entry.id]
  · next he =>
    have hne : ¬ id' = id := fun e => he e.symm
    simp [he, entriesOf, Entry.id, hne]

omit [DecidableEq Id] in
theorem SoundRequest.resolve {entries : List (Entry Id Msg)}
    (h : SoundRequest id request true entries) (response : Msg) (reason : Reason) :
    SoundRequest id (ControlChannel.resolve request response) false
      (entries ++ [.resolved id response reason]) ∧
    (ControlChannel.resolve request response).future = some response := by
  have hopen : request.future = none := isNone_iff_eq_none.mp h.pending.symm
  have hfuture : (ControlChannel.resolve request response).future = some response := by
    simp [ControlChannel.resolve, hopen]
  refine ⟨⟨by rw [hfuture]; rfl, ?_, ?_, ?_, ?_⟩, hfuture⟩
  · have hnone := h.resolved
    rw [hopen] at hnone
    rw [hfuture, countP_append, hnone]
    rfl
  · rw [countP_append, h.ended]
    simp [Entry.isEnd]
    rfl
  · intro response' hmem
    rcases mem_append.mp hmem with hmem | hmem
    · exact absurd (h.accepted _ hmem) (by simp [hopen])
    · simp at hmem
  · intro result hmem
    rcases mem_append.mp hmem with hmem | hmem
    · exact absurd (h.returned _ hmem) (by simp [hopen])
    · simp at hmem

omit [DecidableEq Id] in
theorem SoundRequest.finish {entries : List (Entry Id Msg)} {pending : Bool} {result : Msg}
    (h : SoundRequest id request pending entries) (hended : request.waiter.ended = false)
    (hfuture : request.future = some result) :
    SoundRequest id { request with waiter := .returned result } pending
      (entries ++ [.returned id result]) where
  pending := h.pending
  resolved := by
    rw [countP_append, h.resolved]
    simp [Entry.isResolved]
  ended := by
    rw [countP_append, h.ended, hended]
    rfl
  accepted := by
    intro response hmem
    rcases mem_append.mp hmem with hmem | hmem
    · exact h.accepted _ hmem
    · simp at hmem
  returned := by
    intro result' hmem
    rcases mem_append.mp hmem with hmem | hmem
    · exact h.returned _ hmem
    · simp only [mem_singleton, Entry.returned.injEq, true_and] at hmem
      rw [hmem, hfuture]

theorem view_finish (h : s.requests.get? id' = some request) (result : Msg) (id : Id) :
    view (s.finish id' result) id =
      if id = id' then
        ⟨some { request with waiter := .returned result }, (view s id).pending,
          (view s id).entries ++ [.returned id result]⟩
      else view s id := by
  simp only [ControlChannel.finish, h, view_write, view_setRequest, Entry.id]
  by_cases he : id = id'
  · simp [he]
  · have hne : ¬ id' = id := fun e => he e.symm
    simp [he, hne]

theorem ControlChannel.finishFuture_eq (h : s.requests.get? id = some request) {result : Msg}
    (hfuture : request.future = some result) : s.finishFuture id = s.finish id result := by
  simp [finishFuture, h, hfuture]

/-! ### The channel -/

/-- What holds of every request of a channel. -/
structure SoundChannel (s : ControlChannel Id Client Msg) : Prop where
  sound : ∀ id, Sound id (view s id)
  nodup : s.pending.Nodup

theorem SoundChannel.about (h : SoundChannel s) (hreq : s.requests.get? id = some request) :
    SoundRequest id request (decide (id ∈ s.pending)) (entriesOf id s.log) := by
  have hs := h.sound id
  simpa only [Sound, view, hreq] using hs

theorem SoundChannel.known (h : SoundChannel s) (hpending : id ∈ s.pending) :
    ∃ request, s.requests.get? id = some request ∧ request.future = none := by
  have hs := h.sound id
  cases hreq : s.requests.get? id with
  | none =>
    simp only [Sound, view, hreq] at hs
    simp [hpending] at hs
  | some request =>
    refine ⟨request, rfl, isNone_iff_eq_none.mp ?_⟩
    rw [← (h.about hreq).pending, decide_eq_true hpending]

theorem SoundChannel.settle (h : SoundChannel s) (hreq : s.requests.get? id = some request)
    (hopen : request.future = none) (response : Msg) (reason : Reason) :
    SoundChannel (s.settle id response reason) := by
  have hsound := h.about hreq
  have hpending := hsound.pending
  rw [hopen, Option.isNone_none] at hpending
  rw [hpending] at hsound
  refine ⟨fun id' => ?_, ?_⟩
  · rw [view_settle hreq]
    split
    · next he =>
      subst he
      exact (hsound.resolve response reason).1
    · exact h.sound id'
  · simp only [ControlChannel.settle, hreq]
    exact h.nodup.filter _

theorem ControlChannel.get?_settle (hreq : s.requests.get? id = some request)
    (hopen : request.future = none) (response : Msg) (reason : Reason) :
    (s.settle id response reason).requests.get? id =
      some { request with future := some response } := by
  simp [settle, hreq, resolve, hopen]

section

variable (h : SoundChannel s)
include h

section

variable (hreq : s.requests.get? id = some request)
include hreq

theorem SoundChannel.finish (hended : request.waiter.ended = false) {result : Msg}
    (hfuture : request.future = some result) : SoundChannel (s.finish id result) := by
  refine ⟨fun id' => ?_, ?_⟩
  · rw [view_finish hreq]
    split
    · next he =>
      subst he
      exact (h.about hreq).finish hended hfuture
    · exact h.sound id'
  · simp only [ControlChannel.finish, hreq]
    exact h.nodup

theorem SoundChannel.setRequest {request' : ControlRequest Msg}
    (hfuture : request'.future = request.future)
    (hended : request'.waiter.ended = request.waiter.ended) :
    SoundChannel (s.setRequest id request') := by
  refine ⟨fun id' => ?_, h.nodup⟩
  rw [view_setRequest]
  split
  · next he =>
    subst he
    have hr := h.about hreq
    exact ⟨hfuture ▸ hr.pending, hfuture ▸ hr.resolved, hended ▸ hr.ended, hfuture ▸ hr.accepted,
      hfuture ▸ hr.returned⟩
  · exact h.sound id'

theorem SoundChannel.abandon (hended : request.waiter.ended = false) :
    SoundChannel ((s.setRequest id { request with waiter := .cancelled }).write
      (.cancelled id)) := by
  refine ⟨fun id' => ?_, h.nodup⟩
  have hr := h.about hreq
  rw [view_write, view_setRequest]
  by_cases he : id' = id
  · subst he
    rw [if_pos rfl]
    simp only [Sound, view, Entry.id, if_true]
    refine ⟨hr.pending, ?_, ?_, ?_, ?_⟩
    · rw [countP_append, hr.resolved]
      simp [Entry.isResolved]
    · rw [countP_append, hr.ended, hended]
      rfl
    · exact fun response hmem => hr.accepted response (by simpa using hmem)
    · exact fun result hmem => hr.returned result (by simpa using hmem)
  · have hne : ¬ id = id' := fun e => he e.symm
    rw [if_neg he, if_neg (show ¬ (Entry.cancelled id : Entry Id Msg).id = id' from hne),
      append_nil]
    exact h.sound id'

/-- An answer is accepted that has settled its request. -/
theorem SoundChannel.accept {response : Msg} (hfuture : request.future = some response) :
    SoundChannel (s.write (.accepted id response)) := by
  refine ⟨fun id' => ?_, h.nodup⟩
  have hr := h.about hreq
  rw [view_write]
  by_cases he : id' = id
  · subst he
    simp only [Sound, view, hreq, Entry.id, if_true]
    refine ⟨hr.pending, ?_, ?_, ?_, ?_⟩
    · rw [countP_append, hr.resolved]
      simp [Entry.isResolved]
    · rw [countP_append, hr.ended]
      simp [Entry.isEnd]
    · intro response' hmem
      rcases mem_append.mp hmem with hmem | hmem
      · exact hr.accepted _ hmem
      · simp only [mem_singleton, Entry.accepted.injEq, true_and] at hmem
        rw [hmem, hfuture]
    · exact fun result hmem => hr.returned result (by simpa using hmem)
  · have hne : ¬ id = id' := fun e => he e.symm
    rw [if_neg (show ¬ (Entry.accepted id response).id = id' from hne), append_nil]
    exact h.sound id'

end

/-- A release settles what is pending. -/
theorem SoundChannel.settlePending {ids : List Id} (hnodup : ids.Nodup)
    (hpending : ∀ id ∈ ids, id ∈ s.pending) (reason : Reason) :
    SoundChannel (ids.foldl (ControlChannel.settleDefault reason) s) := by
  induction ids generalizing s with
  | nil => exact h
  | cons id ids ih =>
    obtain ⟨hid, hnodup⟩ := nodup_cons.mp hnodup
    obtain ⟨request, hreq, hopen⟩ := h.known (hpending id mem_cons_self)
    have hsettle : ControlChannel.settleDefault reason s id = s.settle id request.default reason := by
      simp only [ControlChannel.settleDefault, hreq]
    rw [foldl_cons, hsettle]
    refine ih (h.settle hreq hopen _ _) hnodup fun id' hid' => ?_
    simp only [ControlChannel.settle, hreq, mem_filter]
    refine ⟨hpending id' (mem_cons_of_mem _ hid'), decide_eq_true ?_⟩
    rintro rfl
    exact hid hid'

theorem SoundChannel.create (hnew : id ∉ s.requests.keys) (kind : String)
    (payload default : Msg) : SoundChannel (s.request id kind payload default) := by
  have hnone : s.requests.get? id = none := Assoc.get?_eq_none_iff.mpr hnew
  have hs := h.sound id
  simp only [Sound, view, hnone] at hs
  have hpending : id ∉ s.pending := of_decide_eq_false hs.1
  refine ⟨fun id' => ?_, ?_⟩
  · simp only [ControlChannel.request, view_write, Entry.id]
    by_cases he : id' = id
    · subst he
      simp only [Sound, view, Assoc.get?_set_self, hs.2, nil_append, if_true]
      exact ⟨by simp, rfl, rfl, by simp, by simp⟩
    · have hne : ¬ id = id' := fun e => he e.symm
      have hsound := h.sound id'
      simp only [Sound, view, Assoc.get?_set_of_ne he, hne, if_false, append_nil,
        mem_append, mem_singleton, he, or_false] at hsound ⊢
      exact hsound
  · refine nodup_append.mpr ⟨h.nodup, by simp, fun a ha b hb hab => ?_⟩
    rw [mem_singleton] at hb
    exact hpending (hb ▸ hab ▸ ha)

end

end

section

variable {s s' : ControlChannel Id Client Msg} {event : Event Id Client Msg}

/-- **The step.**  A step that is not careless keeps what holds of every request. -/
theorem SoundChannel.step (h : SoundChannel s) (hcareful : Careless s event = false)
    (hstep : step s event = some s') : SoundChannel s' := by
  cases event with
  | acquire client =>
    simp only [Control.step, ControlChannel.acquire] at hstep
    split at hstep
    · next hok =>
      split at hok
      · cases hok
      · cases hok
        cases hstep
        exact ⟨h.sound, h.nodup⟩
    · cases hstep
      exact h
  | release client =>
    cases hstep
    rw [ControlChannel.release]
    split
    · exact h
    · refine SoundChannel.settlePending (s := { s with lease := none }) ⟨h.sound, h.nodup⟩ h.nodup ?_ _
      exact fun _ hid => hid
  | request id kind payload default =>
    simp only [Control.step] at hstep
    split at hstep
    · cases hstep
    · next hnew =>
      cases hstep
      exact h.create hnew kind payload default
  | announced id =>
    simp only [Control.step] at hstep
    split at hstep
    · next request hreq =>
      split at hstep
      · next hwaiter =>
        cases hstep
        have hended : request.waiter.ended = false := by rw [hwaiter]; rfl
        rw [ControlChannel.announced]
        split
        · next hno =>
          -- no controller, and the request is open
          have hopen : request.future = none := by
            simp only [Careless, hreq, any_some, hno, Bool.true_and] at hcareful
            exact not_isSome_iff_eq_none.mp (by simp [hcareful])
          have hget := ControlChannel.get?_settle hreq hopen request.default .noController
          rw [ControlChannel.finishFuture_eq hget rfl]
          exact (h.settle hreq hopen _ _).finish hget hended rfl
        · split
          · next hdone =>
            obtain ⟨result, hfuture⟩ := isSome_iff_exists.mp hdone
            rw [ControlChannel.finishFuture_eq hreq hfuture]
            exact h.finish hreq hended hfuture
          · exact h.setRequest hreq rfl hended.symm
      · cases hstep
    · cases hstep
  | timeout id =>
    simp only [Control.step] at hstep
    split at hstep
    · next request hreq =>
      split at hstep
      · next hwaiter =>
        cases hstep
        exact h.setRequest hreq rfl (by rw [hwaiter]; rfl)
      · cases hstep
    · cases hstep
  | cancel id =>
    simp only [Control.step] at hstep
    split at hstep
    · next request hreq =>
      split at hstep
      · cases hstep
      · next hended =>
        cases hstep
        exact h.setRequest hreq rfl (by rw [Bool.not_eq_true] at hended; rw [hended]; rfl)
    · cases hstep
  | resume id =>
    simp only [Control.step] at hstep
    split at hstep
    · next request hreq =>
      rw [ControlChannel.resume] at hstep
      simp only [Careless, hreq, any_some] at hcareful
      cases hwaiter : request.waiter with
      | waiting =>
        simp only [hwaiter] at hstep
        split at hstep
        · next hdone =>
          cases hstep
          obtain ⟨result, hfuture⟩ := isSome_iff_exists.mp hdone
          rw [ControlChannel.finishFuture_eq hreq hfuture]
          exact h.finish hreq (by rw [hwaiter]; rfl) hfuture
        · cases hstep
      | expired =>
        simp only [hwaiter, Bool.true_and] at hstep hcareful
        cases hstep
        have hopen : request.future = none := not_isSome_iff_eq_none.mp (by simp [hcareful])
        have hget := ControlChannel.get?_settle hreq hopen request.default .timeout
        exact (h.settle hreq hopen _ _).finish hget (by rw [hwaiter]; rfl) rfl
      | cancelling =>
        simp only [hwaiter, Bool.true_and] at hstep hcareful
        have hopen : request.future = none := not_isSome_iff_eq_none.mp (by simp [hcareful])
        have hget := ControlChannel.get?_settle hreq hopen request.default .cancelled
        rw [hget, Option.map_some] at hstep
        cases hstep
        exact (h.settle hreq hopen _ _).abandon hget (by rw [hwaiter]; rfl)
      | announcing | returned result | cancelled => simp [hwaiter] at hstep
    · cases hstep
  | markDelivered id =>
    cases hstep
    rw [ControlChannel.markDelivered]
    split
    · exact h
    · next request hreq =>
      split
      · exact h
      · exact h.setRequest hreq rfl rfl
  | respond id response client =>
    simp only [Control.step, ControlChannel.respond] at hstep
    split at hstep
    · next s₁ hok =>
      cases hstep
      split at hok
      · cases hok
      · split at hok
        · cases hok
        · next hlive =>
          cases hok
          simp only [Bool.or_eq_true, Bool.not_eq_true', decide_eq_false_iff_not, not_or,
            not_not] at hlive
          obtain ⟨request, hreq, hopen⟩ := h.known hlive.2
          have hget := ControlChannel.get?_settle hreq hopen response .answered
          exact (h.settle hreq hopen _ _).accept hget rfl
    · next s₁ hok =>
      cases hstep
      split at hok
      · cases hok
      · split at hok
        · cases hok
          exact h
        · cases hok
    · cases hstep
      exact h

omit [DecidableEq Client] in
theorem sound_new : SoundChannel (ControlChannel.new Id Client Msg) :=
  ⟨fun _ => ⟨rfl, rfl⟩, nodup_nil⟩

theorem SoundChannel.run {events : List (Event Id Client Msg)} (h : SoundChannel s)
    (hcareful : Careful s events) (hrun : run s events = some s') : SoundChannel s' := by
  induction events generalizing s with
  | nil =>
    cases hrun
    exact h
  | cons event events ih =>
    obtain ⟨hevent, hevents⟩ := hcareful
    obtain ⟨s₁, hstep, hrun⟩ := bind_eq_some_iff.mp hrun
    rw [hstep] at hevents
    exact ih (h.step hevent hstep) hevents hrun

end

end KolegaCode.Control
