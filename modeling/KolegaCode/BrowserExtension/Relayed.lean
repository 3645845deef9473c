import KolegaCode.BrowserExtension.Broker

/-!
# Browser extension — no pending request is dropped silently

An entry leaves the broker's table with an answer, with the requester's own cancel or because the
requester's side is gone.  Four messages break this: a cancel that does not match the request under
its key, an answer too large for the browser's port, and a disconnect that finds a newer request
under the key of one that it has listed.
-/

namespace KolegaCode.BrowserExtension

open List Option

/-! ### What the broker keeps -/

/-- An entry of the log with which a request ends. -/
def Sent.closes (n : Nat) : Sent → Bool
  | .answered m _ _ => m = n
  | .withdrawn m _ _ => m = n
  | _ => false

def Sent.answers (n : Nat) : Sent → Bool
  | .answered m _ _ => m = n
  | _ => false

def Envelope.IsAnswer (envelope : Envelope) : Prop :=
  match envelope.payload with
  | .response _ | .error _ _ _ => True
  | _ => False

def Envelope.Revokes (envelope : Envelope) : Prop :=
  match envelope.payload with
  | .cancel _ => True
  | _ => False

theorem Envelope.answers_errorFor (request : Envelope) (code message : String) (retryable : Bool) :
    request.Answers (request.errorFor code message retryable) := ⟨rfl, rfl, rfl, rfl, rfl⟩

theorem MessageDirection.opposite_opposite (direction : MessageDirection) :
    direction.opposite.opposite = direction := by
  cases direction <;> rfl

variable {pending : RelayPending} {envelope : Envelope}

/-- What comes under the key of a request and matches it, comes the other way. -/
theorem Envelope.Matches.answers (h : pending.request.Matches envelope)
    (hkey : pending.key = (envelope.direction.opposite, envelope.runtimeId, envelope.requestId)) :
    pending.request.Answers envelope := by
  have hdirection : pending.request.direction = envelope.direction.opposite := congrArg Prod.fst hkey
  obtain ⟨hruntime, hsession, hid, hdeadline⟩ := h
  refine ⟨?_, hruntime, hsession, hid, hdeadline⟩
  rw [hdirection, envelope.direction.opposite_opposite]

theorem Envelope.Matches.cancels (h : pending.request.Matches envelope)
    (hkey : pending.key = (envelope.direction, envelope.runtimeId, envelope.requestId)) :
    pending.request.Cancels envelope := by
  obtain ⟨hruntime, hsession, -, hdeadline⟩ := h
  exact ⟨(congrArg Prod.fst hkey).symm, hruntime, hsession, hdeadline⟩

namespace Broker

def closings (s : Broker) (n : Nat) : Nat := s.log.countP (Sent.closes n)

/-- A connection is the one of its runtime, and can be written. -/
def Connected (s : Broker) (r : Nat) : Prop :=
  ∃ relay, s.relays[r]? = some relay ∧ relay.writable = true ∧
    s.runtimes.get? relay.runtimeId = some r

/-- The requester's side is gone. -/
def Gone (s : Broker) (pending : RelayPending) : Prop :=
  match pending.origin with
  | none => s.extension = false ∨ s.closed = true
  | some r => ¬ s.Connected r

/-- A request comes from the browser, or over the connection of its runtime. -/
def Comes (s : Broker) (pending : RelayPending) : Prop :=
  match pending.origin with
  | none => pending.request.direction = .extensionToRuntime
  | some r => pending.request.direction = .runtimeToExtension ∧ ∃ relay, s.relays[r]? = some relay ∧
      relay.runtimeId = pending.request.runtimeId ∧ relay.sessionId = pending.request.sessionId

/-- What is handed to a requester is an answer to its request, and comes to its side. -/
def Owns (s : Broker) : Sent → Prop
  | .answered n side envelope => ∃ pending, s.pending.issued[n]? = some pending ∧
      pending.request.Answers envelope ∧ envelope.IsAnswer ∧
      match side with
      | .extension => pending.request.direction = .extensionToRuntime
      | .runtime r => pending.request.direction = .runtimeToExtension ∧ ∃ relay,
          s.relays[r]? = some relay ∧ relay.runtimeId = pending.request.runtimeId
  | .withdrawn n _ envelope => ∃ pending, s.pending.issued[n]? = some pending ∧
      pending.request.Cancels envelope ∧ pending.request.requestId = envelope.requestId ∧
      envelope.Revokes
  | _ => True

/-- An item of the list of a disconnect. -/
def Listed (s : Broker) (item : RelayKey × Nat) : Prop :=
  ∃ pending, s.pending.issued[item.2]? = some pending ∧ pending.key = item.1 ∧
    ∀ r, pending.origin = some r → r < s.relays.length ∧ ¬ s.Connected r

/-- The invariant of the broker. -/
structure Sound (c : BrokerConfig) (s : Broker) : Prop where
  size : s.pending.size ≤ c.maxPendingRequests
  current : ∀ runtimeId r, s.runtimes.get? runtimeId = some r →
    ∃ relay, s.relays[r]? = some relay ∧ relay.runtimeId = runtimeId
  ended : s.closed = true → s.runtimes = []
  comes : ∀ pending ∈ s.pending.issued, s.Comes pending
  issued : ∀ n, 0 < s.closings n → n < s.pending.issued.length
  once : ∀ n, s.closings n ≤ 1
  unclosed : ∀ n, s.pending.IsOpen n → s.closings n = 0
  listed : ∀ loop ∈ s.loops, ∀ item ∈ loop.2, s.Listed item
  owns : ∀ entry ∈ s.log, s.Owns entry

/-- No request that was open has left the table without what it is owed. -/
def Keeps (s s' : Broker) : Prop :=
  ∀ n pending, s.pending.issued[n]? = some pending → s.pending.IsOpen n → ¬ s'.pending.IsOpen n →
    s'.closings n = 1 ∨ s'.closings n = 0 ∧ s'.Gone pending

/-- What any part of a step preserves. -/
structure Goes (c : BrokerConfig) (s s' : Broker) : Prop where
  sound : s'.Sound c
  gone : ∀ pending ∈ s.pending.issued, s.Gone pending → s'.Gone pending
  issued : s.pending.issued <+: s'.pending.issued
  stays : ∀ n < s.pending.issued.length, ¬ s.pending.IsOpen n →
    ¬ s'.pending.IsOpen n ∧ s'.closings n = s.closings n
  keeps : s.Keeps s'

variable {c : BrokerConfig} {s s' s'' : Broker}

theorem Goes.refl (h : s.Sound c) : Goes c s s where
  sound := h
  gone := fun _ _ h => h
  issued := prefix_refl _
  stays := fun _ _ h => ⟨h, rfl⟩
  keeps := fun _ _ _ hopen hclosed => absurd hopen hclosed

theorem Goes.trans (h : Goes c s s') (h' : Goes c s' s'') : Goes c s s'' where
  sound := h'.sound
  gone := fun pending hmem hgone =>
    h'.gone pending (h.issued.subset hmem) (h.gone pending hmem hgone)
  issued := h.issued.trans h'.issued
  stays := fun n hn hclosed => by
    obtain ⟨hclosed', heq⟩ := h.stays n hn hclosed
    obtain ⟨hclosed'', heq'⟩ := h'.stays n (Nat.lt_of_lt_of_le hn h.issued.length_le) hclosed'
    exact ⟨hclosed'', heq'.trans heq⟩
  keeps := fun n pending hissued hopen hclosed => by
    have hissued' : s'.pending.issued[n]? = some pending := by
      obtain ⟨rest, hrest⟩ := h.issued
      rw [← hrest, getElem?_append_left (List.getElem?_eq_some_iff.mp hissued).1, hissued]
    by_cases hopen' : s'.pending.IsOpen n
    · exact h'.keeps n pending hissued' hopen' hclosed
    · -- it left in the first part, and the second adds nothing for it
      have hlt := (List.getElem?_eq_some_iff.mp hissued').1
      rw [(h'.stays n hlt hopen').2]
      refine (h.keeps n pending hissued hopen hopen').imp_right fun ⟨hzero, hgone⟩ => ?_
      exact ⟨hzero, h'.gone pending (mem_of_getElem? hissued') hgone⟩

/-! ### Parts of a step that leave the table alone -/

/-- Connections come and go, and sides are lost. -/
structure Quiet (s s' : Broker) : Prop where
  pending : s'.pending = s.pending
  log : s'.log = s.log
  relays : ∀ (r : Nat) (relay : RuntimeRelay), s.relays[r]? = some relay →
    ∃ relay', s'.relays[r]? = some relay' ∧ relay'.runtimeId = relay.runtimeId ∧
      relay'.sessionId = relay.sessionId
  connected : ∀ r < s.relays.length, s'.Connected r → s.Connected r
  extension : s.extension = false → s'.extension = false
  closed : s.closed = true → s'.closed = true

theorem Quiet.length_le (h : Quiet s s') : s.relays.length ≤ s'.relays.length := by
  by_contra hlt
  obtain ⟨relay', hrelay', -⟩ := h.relays s'.relays.length _
    (getElem?_eq_getElem (Nat.lt_of_not_le hlt))
  exact Nat.lt_irrefl _ (List.getElem?_eq_some_iff.mp hrelay').1

variable {pending : RelayPending} {r n : Nat} {key : RelayKey} {envelope : Envelope}
  {failed : Broker} {entry : Side → Envelope → Sent} {relay : RuntimeRelay} {event : BrokerEvent}
  {events : List BrokerEvent}

theorem Quiet.comes (h : Quiet s s') (hcomes : s.Comes pending) : s'.Comes pending := by
  unfold Comes at hcomes ⊢
  split at hcomes
  · exact hcomes
  · obtain ⟨hdirection, relay, hrelay, hid, hsession⟩ := hcomes
    obtain ⟨relay', hrelay', hid', hsession'⟩ := h.relays _ relay hrelay
    exact ⟨hdirection, relay', hrelay', hid'.trans hid, hsession'.trans hsession⟩

theorem Quiet.owns (h : Quiet s s') {entry : Sent} (howns : s.Owns entry) : s'.Owns entry := by
  cases entry with
  | answered n side envelope =>
    obtain ⟨pending, hissued, hanswers, hanswer, hside⟩ := howns
    refine ⟨pending, h.pending ▸ hissued, hanswers, hanswer, ?_⟩
    cases side with
    | extension => exact hside
    | runtime r =>
      obtain ⟨hdirection, relay, hrelay, hid⟩ := hside
      obtain ⟨relay', hrelay', hid', -⟩ := h.relays r relay hrelay
      exact ⟨hdirection, relay', hrelay', hid'.trans hid⟩
  | withdrawn n side envelope =>
    obtain ⟨pending, hissued, hrest⟩ := howns
    exact ⟨pending, h.pending ▸ hissued, hrest⟩
  | _ => trivial

theorem Quiet.listed (h : Quiet s s') {item : RelayKey × Nat} (hlisted : s.Listed item) :
    s'.Listed item := by
  obtain ⟨pending, hissued, hkey, hgone⟩ := hlisted
  refine ⟨pending, h.pending ▸ hissued, hkey, fun r hr => ?_⟩
  obtain ⟨hlt, hconnected⟩ := hgone r hr
  exact ⟨Nat.lt_of_lt_of_le hlt h.length_le, fun h' => hconnected (h.connected r hlt h')⟩

theorem Comes.lt (h : s.Comes pending) (hr : pending.origin = some r) : r < s.relays.length := by
  unfold Comes at h
  rw [hr] at h
  obtain ⟨-, relay, hrelay, -⟩ := h
  exact (List.getElem?_eq_some_iff.mp hrelay).1

theorem Quiet.gone (h : Quiet s s') (hcomes : s.Comes pending) (hgone : s.Gone pending) :
    s'.Gone pending := by
  unfold Gone at hgone ⊢
  split at hgone
  · exact hgone.imp h.extension h.closed
  · next r hr => exact fun h' => hgone (h.connected r (hcomes.lt hr) h')

theorem Sound.quiet (hs : s.Sound c) (h : Quiet s s')
    (hcurrent : ∀ runtimeId r, s'.runtimes.get? runtimeId = some r →
      ∃ relay, s'.relays[r]? = some relay ∧ relay.runtimeId = runtimeId)
    (hended : s'.closed = true → s'.runtimes = [])
    (hlisted : ∀ loop ∈ s'.loops, ∀ item ∈ loop.2, s'.Listed item) : Goes c s s' := by
  have hclosings : ∀ n, s'.closings n = s.closings n := fun n =>
    congrArg (List.countP (Sent.closes n)) h.log
  refine ⟨⟨?_, hcurrent, hended, ?_, ?_, ?_, ?_, hlisted, ?_⟩, ?_, ?_, ?_, ?_⟩
  · rw [h.pending]
    exact hs.size
  · rw [h.pending]
    exact fun pending hmem => h.comes (hs.comes pending hmem)
  · intro n hn
    rw [h.pending]
    exact hs.issued n (hclosings n ▸ hn)
  · intro n
    rw [hclosings]
    exact hs.once n
  · intro n hopen
    rw [hclosings]
    exact hs.unclosed n (h.pending ▸ hopen)
  · rw [h.log]
    exact fun entry hmem => h.owns (hs.owns entry hmem)
  · exact fun pending hmem hgone => h.gone (hs.comes pending hmem) hgone
  · exact h.pending.symm ▸ prefix_refl s.pending.issued
  · intro n _ hclosed
    exact ⟨h.pending ▸ hclosed, hclosings n⟩
  · intro n pending _ hopen hclosed
    exact absurd (h.pending ▸ hopen) hclosed

theorem Sound.quiet_of_loops (hs : s.Sound c) (h : Quiet s s')
    (hcurrent : ∀ runtimeId r, s'.runtimes.get? runtimeId = some r →
      ∃ relay, s'.relays[r]? = some relay ∧ relay.runtimeId = runtimeId)
    (hended : s'.closed = true → s'.runtimes = []) (hloops : ∀ loop ∈ s'.loops, ∀ item ∈ loop.2,
      ∃ loop' ∈ s.loops, item ∈ loop'.2) : Goes c s s' :=
  hs.quiet h hcurrent hended fun loop hloop item hitem => by
    obtain ⟨loop', hloop', hitem'⟩ := hloops loop hloop item hitem
    exact h.listed (hs.listed loop' hloop' item hitem')

theorem Sound.relays (hs : s.Sound c) {f : RuntimeRelay → RuntimeRelay} (r : Nat)
    (hid : ∀ relay, (f relay).runtimeId = relay.runtimeId)
    (hsession : ∀ relay, (f relay).sessionId = relay.sessionId)
    (hwritable : ∀ relay, (f relay).writable = true → relay.writable = true) :
    Goes c s { s with relays := s.relays.modify r f } := by
  have hget : ∀ {i : Nat} {relay : RuntimeRelay}, s.relays[i]? = some relay →
      (s.relays.modify r f)[i]? = some (if r = i then f relay else relay) := by
    intro i relay hrelay
    rw [getElem?_modify, hrelay]
    rfl
  have hsame : ∀ (i : Nat) (relay : RuntimeRelay),
      (if r = i then f relay else relay).runtimeId = relay.runtimeId ∧
        (if r = i then f relay else relay).sessionId = relay.sessionId := by
    intro i relay
    split
    · exact ⟨hid relay, hsession relay⟩
    · exact ⟨rfl, rfl⟩
  refine hs.quiet_of_loops ⟨rfl, rfl, ?_, ?_, id, id⟩ ?_ hs.ended fun loop hloop item hitem =>
    ⟨loop, hloop, hitem⟩
  · intro i relay hrelay
    exact ⟨_, hget hrelay, hsame i relay⟩
  · rintro i hi ⟨relay', hrelay', hwrite, hruntime⟩
    have hrelay := getElem?_eq_getElem hi
    have heq := Option.some.inj ((hget hrelay).symm.trans hrelay')
    subst heq
    rw [(hsame i _).1] at hruntime
    refine ⟨_, hrelay, ?_, hruntime⟩
    split at hwrite
    · exact hwritable _ hwrite
    · exact hwrite
  · intro runtimeId i hi
    obtain ⟨relay, hrelay, heq⟩ := hs.current runtimeId i hi
    exact ⟨_, hget hrelay, (hsame i relay).1.trans heq⟩

/-- `_runtime_disconnected` takes the connection out, and lists the requests of its runtime: those
that it came with and those that go to it. -/
theorem Sound.disconnect (hs : s.Sound c) (r : Nat) : Goes c s (s.disconnect r) := by
  unfold Broker.disconnect
  split
  · exact .refl hs
  · next relay hrelay =>
    split
    · exact .refl hs
    · next hruntime =>
      have hget : ∀ runtimeId, (s.runtimes.erase relay.runtimeId).get? runtimeId =
          if runtimeId = relay.runtimeId then none else s.runtimes.get? runtimeId :=
        Assoc.get?_erase _ _
      have hle : ∀ {runtimeId : String} {i : Nat},
          (s.runtimes.erase relay.runtimeId).get? runtimeId = some i →
            s.runtimes.get? runtimeId = some i ∧ runtimeId ≠ relay.runtimeId := by
        intro runtimeId i hi
        rw [hget] at hi
        split at hi
        · cases hi
        · next hne => exact ⟨hi, hne⟩
      have hquiet : Quiet s { s with
          runtimes := s.runtimes.erase relay.runtimeId
          loops := s.loops ++
            [(r, s.pending.table.filter fun entry => entry.1.2.1 = relay.runtimeId)] } := by
        refine ⟨rfl, rfl, fun i relay' hrelay' => ⟨relay', hrelay', rfl, rfl⟩, ?_, id, id⟩
        rintro i - ⟨relay', hrelay', hwrite, hi⟩
        exact ⟨relay', hrelay', hwrite, (hle hi).1⟩
      refine hs.quiet hquiet (fun runtimeId i hi => hs.current runtimeId i (hle hi).1) ?_ ?_
      · intro hclosed
        rw [hs.ended hclosed]
        rfl
      · intro loop hloop item hitem
        rcases mem_append.mp hloop with hloop | hloop
        · exact hquiet.listed (hs.listed loop hloop item hitem)
        · rw [mem_singleton.mp hloop] at hitem
          obtain ⟨hmem, hkey⟩ := mem_filter.mp hitem
          have hentry : s.pending.get? item.1 = some item.2 :=
            Assoc.get?_of_mem s.pending.nodup hmem
          obtain ⟨pending, hissued, hpending⟩ := Pending.exists_issued hentry
          refine ⟨pending, hissued, hpending, fun i hi => ?_⟩
          have hcomes := hs.comes pending (mem_of_getElem? hissued)
          refine ⟨hcomes.lt hi, ?_⟩
          rintro ⟨relay', hrelay', -, hruntime'⟩
          unfold Comes at hcomes
          rw [hi] at hcomes
          obtain ⟨-, relay'', hrelay'', hid, -⟩ := hcomes
          rw [hrelay'] at hrelay''
          cases hrelay''
          -- it came from this runtime, which has no connection now
          refine (hle hruntime').2 (hid.trans ?_)
          have hkey := of_decide_eq_true hkey
          rw [← hpending] at hkey
          exact hkey

theorem Goes.disconnect (h : Goes c s s') (r : Nat) : Goes c s (s'.disconnect r) :=
  h.trans (h.sound.disconnect r)

theorem Sound.endReader (hs : s.Sound c) (r : Nat) : Goes c s (s.endReader r) :=
  (hs.relays (f := fun relay => { relay with reading := false }) r (fun _ => rfl) (fun _ => rfl)
    fun _ h => h).disconnect r

/-! ### Parts of a step that write, or change the table -/

theorem closings_record (s : Broker) (entry : Sent) (n : Nat) :
    (s.record entry).closings n = s.closings n + if entry.closes n = true then 1 else 0 := by
  rw [closings, record, countP_append, countP_singleton]
  rfl

theorem Sound.record (hs : s.Sound c) {entry : Sent} (hentry : ∀ n, entry.closes n = false) :
    Goes c s (s.record entry) := by
  have howns : s.Owns entry := by
    cases entry with
    | answered n side envelope | withdrawn n side envelope =>
      exact absurd (hentry n) (by simp [Sent.closes])
    | _ => trivial
  have hclosings : ∀ n, (s.record entry).closings n = s.closings n := by
    intro n
    rw [closings_record, hentry]
    rfl
  refine ⟨⟨hs.size, hs.current, hs.ended, hs.comes, ?_, ?_, ?_, hs.listed, ?_⟩, fun _ _ h => h,
    prefix_refl _, fun n _ hclosed => ⟨hclosed, hclosings n⟩,
    fun n pending _ hopen hclosed => absurd hopen hclosed⟩
  · intro n hn
    exact hs.issued n (hclosings n ▸ hn)
  · intro n
    rw [hclosings]
    exact hs.once n
  · intro n hopen
    rw [hclosings]
    exact hs.unclosed n hopen
  · intro entry' hmem
    rcases mem_append.mp hmem with hmem | hmem
    · exact hs.owns entry' hmem
    · rw [mem_singleton.mp hmem]
      exact howns

theorem Sound.take (hs : s.Sound c) (hget : s.pending.get? key = some n)
    (hissued : s.pending.issued[n]? = some pending) (written : List Sent)
    (hcloses : ∀ m, written.countP (Sent.closes m) ≤ if n = m then 1 else 0)
    (howed : written.countP (Sent.closes n) = 0 → s.Gone pending)
    (howns : ∀ entry ∈ written, s.Owns entry) :
    Goes c s { s with pending := s.pending.drop key, log := s.log ++ written } := by
  have hopen : s.pending.IsOpen n := Pending.isOpen_iff.mpr ⟨key, hget⟩
  have hclosings : ∀ m, Broker.closings
      { s with pending := s.pending.drop key, log := s.log ++ written } m =
        s.closings m + written.countP (Sent.closes m) := fun m => countP_append
  have hother : ∀ m, n ≠ m → written.countP (Sent.closes m) = 0 := by
    intro m hne
    have hle := hcloses m
    rw [if_neg hne] at hle
    exact Nat.le_zero.mp hle
  have hself : written.countP (Sent.closes n) ≤ 1 := by
    have hle := hcloses n
    rw [if_pos rfl] at hle
    exact hle
  refine ⟨⟨Nat.le_trans (Pending.size_drop_le _ _) hs.size, hs.current, hs.ended, hs.comes, ?_, ?_,
    ?_, hs.listed, ?_⟩, fun _ _ h => h, prefix_refl _, ?_, ?_⟩
  · intro m hm
    by_cases heq : n = m
    · exact heq ▸ hopen.lt
    · rw [hclosings, hother m heq] at hm
      exact hs.issued m hm
  · intro m
    rw [hclosings]
    by_cases heq : n = m
    · rw [← heq, hs.unclosed n hopen, Nat.zero_add]
      exact hself
    · rw [hother m heq]
      exact hs.once m
  · intro m hm
    obtain ⟨hm, hne⟩ := (Pending.isOpen_drop hget).mp hm
    rw [hclosings, hother m fun heq => hne heq.symm]
    exact hs.unclosed m hm
  · intro entry hmem
    rcases mem_append.mp hmem with hmem | hmem
    · exact hs.owns entry hmem
    · exact howns entry hmem
  · intro m _ hclosed
    refine ⟨fun hm => hclosed ((Pending.isOpen_drop hget).mp hm).1, ?_⟩
    rw [hclosings, hother m]
    · rfl
    · rintro rfl
      exact hclosed hopen
  · intro m pending' hissued' hm hclosed
    have heq : m = n := by
      by_contra hne
      exact hclosed ((Pending.isOpen_drop hget).mpr ⟨hm, hne⟩)
    subst heq
    rw [hissued] at hissued'
    cases hissued'
    rw [hclosings, hs.unclosed m hopen, Nat.zero_add]
    rcases Nat.eq_zero_or_pos (written.countP (Sent.closes m)) with hzero | hpos
    · exact .inr ⟨hzero, howed hzero⟩
    · exact .inl (Nat.le_antisymm hself hpos)

theorem Sound.forget (hs : s.Sound c) (hget : s.pending.get? key = some n)
    (hissued : s.pending.issued[n]? = some pending) (hgone : s.Gone pending) :
    Goes c s { s with pending := s.pending.drop key } := by
  have htake := hs.take hget hissued [] (fun m => Nat.zero_le _) (fun _ => hgone)
    fun _ hmem => absurd hmem not_mem_nil
  rw [append_nil] at htake
  exact htake

theorem Sound.settle (hs : s.Sound c) (hget : s.pending.get? key = some n)
    (hissued : s.pending.issued[n]? = some pending) (entry : Sent)
    (hentry : ∀ m, entry.closes m = decide (n = m)) (howns : s.Owns entry) :
    Goes c s ({ s with pending := s.pending.drop key }.record entry) := by
  have hcount : ∀ m, [entry].countP (Sent.closes m) = if n = m then 1 else 0 := fun m => by
    simp only [countP_singleton, hentry, decide_eq_true_eq]
  refine hs.take hget hissued [entry] (fun m => ?_) (fun hzero => ?_) fun entry' hmem => ?_
  · rw [hcount]
  · rw [hcount, if_pos rfl] at hzero
    cases hzero
  · rw [mem_singleton.mp hmem]
    exact howns

theorem Owns.mono (hpending : s.pending.issued <+: s'.pending.issued) (hrelays : s'.relays = s.relays)
    {entry : Sent} (h : s.Owns entry) : s'.Owns entry := by
  have hissued : ∀ {n : Nat} {pending : RelayPending}, s.pending.issued[n]? = some pending →
      s'.pending.issued[n]? = some pending := by
    intro n pending hold
    obtain ⟨rest, hrest⟩ := hpending
    rw [← hrest, getElem?_append_left (List.getElem?_eq_some_iff.mp hold).1, hold]
  cases entry with
  | answered n side envelope =>
    obtain ⟨pending, hold, hanswers, hanswer, hside⟩ := h
    refine ⟨pending, hissued hold, hanswers, hanswer, ?_⟩
    cases side with
    | extension => exact hside
    | runtime r => exact ⟨hside.1, hrelays ▸ hside.2⟩
  | withdrawn n side envelope =>
    obtain ⟨pending, hold, hrest⟩ := h
    exact ⟨pending, hissued hold, hrest⟩
  | _ => trivial

theorem Sound.register (hs : s.Sound c) {request : Envelope} {origin : Option Nat}
    (hnone : s.pending.get? (RelayPending.key ⟨request, origin⟩) = none)
    (hsize : ¬ c.maxPendingRequests ≤ s.pending.size) (hcomes : s.Comes ⟨request, origin⟩) :
    Goes c s (s.register request origin) := by
  have hopen : ∀ {n : Nat}, (s.pending.register ⟨request, origin⟩).IsOpen n ↔
      s.pending.IsOpen n ∨ n = s.pending.issued.length := Pending.isOpen_register hnone
  have hprefix : s.pending.issued <+: (s.register request origin).pending.issued :=
    prefix_append _ _
  refine ⟨⟨?_, hs.current, hs.ended, ?_, ?_, hs.once, ?_, ?_, ?_⟩, fun _ _ h => h, hprefix, ?_, ?_⟩
  · rw [Broker.register, Pending.size_register hnone]
    exact Nat.lt_of_not_le hsize
  · intro pending hmem
    rcases mem_append.mp hmem with hmem | hmem
    · exact hs.comes pending hmem
    · rw [mem_singleton.mp hmem]
      exact hcomes
  · intro n hn
    exact Nat.lt_of_lt_of_le (hs.issued n hn) hprefix.length_le
  · intro n hn
    rcases hopen.mp hn with hn | rfl
    · exact hs.unclosed n hn
    · exact Nat.eq_zero_of_not_pos fun hpos => Nat.lt_irrefl _ (hs.issued _ hpos)
  · intro loop hloop item hitem
    obtain ⟨pending, hissued, hrest⟩ := hs.listed loop hloop item hitem
    refine ⟨pending, ?_, hrest⟩
    exact (getElem?_append_left (List.getElem?_eq_some_iff.mp hissued).1).trans hissued
  · exact fun entry hmem => (hs.owns entry hmem).mono hprefix rfl
  · intro n hn hclosed
    refine ⟨fun h => ?_, rfl⟩
    exact (hopen.mp h).elim hclosed fun heq => Nat.lt_irrefl _ (heq ▸ hn)
  · intro n pending _ hn hclosed
    exact absurd (hopen.mpr (.inl hn)) hclosed

/-! ### Writes -/

/-- The requester of a request whose answer its runtime's channel does not take is gone. -/
theorem Sound.gone_of_not_takes (hs : s.Sound c) (hmem : pending ∈ s.pending.issued)
    (hdirection : pending.request.direction = .runtimeToExtension)
    (hruntime : s.runtimes.get? pending.request.runtimeId = some r)
    (hid : envelope.runtimeId = pending.request.runtimeId)
    (hsession : envelope.sessionId = pending.request.sessionId) (h : ¬ s.Takes r envelope) :
    s.Gone pending := by
  have hcomes := hs.comes pending hmem
  unfold Comes at hcomes
  unfold Gone
  split at hcomes
  · rw [hdirection] at hcomes
    cases hcomes
  · next r' _ =>
    obtain ⟨-, relay, hrelay, hid', hsession'⟩ := hcomes
    rintro ⟨relay', hrelay', hwrite, hruntime'⟩
    rw [hrelay] at hrelay'
    cases hrelay'
    rw [hid', hruntime] at hruntime'
    cases hruntime'
    refine h ?_
    rw [Takes, hrelay, any_some, hwrite, hid', hsession', hid, hsession]
    simp

theorem Sound.gone_of_disconnected (hs : s.Sound c) (hmem : pending ∈ s.pending.issued)
    (hdirection : pending.request.direction = .runtimeToExtension)
    (hruntime : s.runtimes.get? pending.request.runtimeId = none) : s.Gone pending := by
  have hcomes := hs.comes pending hmem
  unfold Comes at hcomes
  unfold Gone
  split at hcomes
  · rw [hdirection] at hcomes
    cases hcomes
  · next r' _ =>
    obtain ⟨-, relay, hrelay, hid, -⟩ := hcomes
    rintro ⟨relay', hrelay', -, hruntime'⟩
    rw [hrelay] at hrelay'
    cases hrelay'
    rw [hid, hruntime] at hruntime'
    cases hruntime'

theorem Sound.origin_none (hs : s.Sound c) (hmem : pending ∈ s.pending.issued)
    (hdirection : pending.request.direction = .extensionToRuntime) : pending.origin = none := by
  have hcomes := hs.comes pending hmem
  unfold Comes at hcomes
  split at hcomes
  · next heq => exact heq
  · rw [hdirection] at hcomes
    cases hcomes.1

theorem Sound.gone_of_extension (hs : s.Sound c) (hmem : pending ∈ s.pending.issued)
    (hdirection : pending.request.direction = .extensionToRuntime)
    (h : s.extension = false ∨ s.closed = true) : s.Gone pending := by
  unfold Gone
  rw [hs.origin_none hmem hdirection]
  exact h

theorem settlePending_cases (s : Broker) (key : RelayKey) :
    s.settlePending key = (none, s) ∨ ∃ n pending, s.pending.get? key = some n ∧
      s.pending.issued[n]? = some pending ∧ pending.key = key ∧
      s.settlePending key = (some (n, pending.request), { s with pending := s.pending.drop key }) := by
  unfold settlePending
  split
  · exact .inl rfl
  · next n hget =>
    obtain ⟨pending, hissued, hkey⟩ := Pending.exists_issued hget
    exact .inr ⟨n, pending, hget, hissued, hkey, by rw [hissued]; rfl⟩

theorem toRuntime_getD (r : Nat) (entry : Side → Envelope → Sent) (envelope : Envelope)
    (failed : Broker) : (s.toRuntime r entry envelope).getD failed =
      if s.Takes r envelope then s.record (entry (.runtime r) envelope) else failed := by
  unfold toRuntime
  split
  · rfl
  · rfl

theorem toExtension_getD (entry : Side → Envelope → Sent) (envelope : Envelope) (failed : Broker) :
    (s.toExtension entry envelope).getD failed =
      if s.extension then s.record (entry .extension envelope) else failed := by
  unfold toExtension
  split
  · rfl
  · rfl

theorem passOn_getD (entry : Side → Envelope → Sent) (envelope : Envelope) (failed : Broker) :
    (s.passOn c entry envelope).getD failed =
      if c.fits envelope ∧ s.extension then s.record (entry .extension envelope) else failed := by
  unfold passOn
  by_cases hfits : c.fits envelope
  · rw [if_pos hfits, toExtension_getD]
    simp only [hfits, true_and]
  · rw [if_neg hfits, if_neg fun h => hfits h.1]
    rfl

theorem Sound.answerBrowser (hs : s.Sound c) (hget : s.pending.get? key = some n)
    (hissued : s.pending.issued[n]? = some pending)
    (hdirection : pending.request.direction = .extensionToRuntime)
    (hanswers : pending.request.Answers envelope) (hanswer : envelope.IsAnswer)
    (hfailed : Goes c s { s with pending := s.pending.drop key } → Goes c s failed) :
    Goes c s (({ s with pending := s.pending.drop key }.toExtension (.answered n) envelope).getD
      failed) := by
  rw [toExtension_getD]
  split
  · exact hs.settle hget hissued _ (fun _ => rfl) ⟨pending, hissued, hanswers, hanswer, hdirection⟩
  · next hextension =>
    refine hfailed (hs.forget hget hissued ?_)
    exact hs.gone_of_extension (mem_of_getElem? hissued) hdirection
      (.inl (Bool.eq_false_iff.mpr hextension))

theorem Sound.answerSession (hs : s.Sound c) (hget : s.pending.get? key = some n)
    (hissued : s.pending.issued[n]? = some pending)
    (hdirection : pending.request.direction = .runtimeToExtension)
    (hruntime : s.runtimes.get? pending.request.runtimeId = some r)
    (hanswers : pending.request.Answers envelope) (hanswer : envelope.IsAnswer)
    (hfailed : Goes c s { s with pending := s.pending.drop key } → Goes c s failed) :
    Goes c s (({ s with pending := s.pending.drop key }.toRuntime r (.answered n) envelope).getD
      failed) := by
  rw [toRuntime_getD]
  split
  · refine hs.settle hget hissued _ (fun _ => rfl)
      ⟨pending, hissued, hanswers, hanswer, hdirection, ?_⟩
    exact hs.current _ r hruntime
  · next htakes =>
    exact hfailed (hs.forget hget hissued (hs.gone_of_not_takes (mem_of_getElem? hissued)
      hdirection hruntime hanswers.2.1 hanswers.2.2.1 htakes))

theorem Goes.toRuntime (h : Goes c s s')
    (hentry : ∀ n, (entry (.runtime r) envelope).closes n = false) (hfailed : Goes c s failed) :
    Goes c s ((s'.toRuntime r entry envelope).getD failed) := by
  rw [toRuntime_getD]
  split
  · exact h.trans (h.sound.record hentry)
  · exact hfailed

theorem Goes.toExtension (h : Goes c s s')
    (hentry : ∀ n, (entry .extension envelope).closes n = false) (hfailed : Goes c s failed) :
    Goes c s ((s'.toExtension entry envelope).getD failed) := by
  rw [toExtension_getD]
  split
  · exact h.trans (h.sound.record hentry)
  · exact hfailed

theorem Goes.passOn (h : Goes c s s') (hentry : ∀ n, (entry .extension envelope).closes n = false)
    (hfailed : Goes c s failed) : Goes c s ((s'.passOn c entry envelope).getD failed) := by
  rw [passOn_getD]
  split
  · exact h.trans (h.sound.record hentry)
  · exact hfailed

/-! ### The end -/

/-- When the broker closes, no side of a requester is left. -/
theorem Sound.gone_of_closed (hs : s.Sound c) (hclosed : s.closed = true)
    (pending : RelayPending) : s.Gone pending := by
  unfold Gone
  split
  · exact .inr hclosed
  · rintro ⟨relay, -, -, hruntime⟩
    rw [hs.ended hclosed] at hruntime
    cases hruntime

theorem Sound.closeItem (hs : s.Sound c) (hclosed : s.closed = true) (runtimes : Assoc String Nat)
    (hcurrent : ∀ runtimeId r, runtimes.get? runtimeId = some r →
      ∃ relay, s.relays[r]? = some relay ∧ relay.runtimeId = runtimeId) (key : RelayKey) :
    Goes c s (s.closeItem runtimes key) ∧ (s.closeItem runtimes key).closed = true ∧
      (s.closeItem runtimes key).relays = s.relays := by
  unfold Broker.closeItem
  rcases settlePending_cases s key with heq | ⟨n, pending, hget, hissued, -, heq⟩
  · rw [heq]
    exact ⟨.refl hs, hclosed, rfl⟩
  · rw [heq]
    dsimp only
    have hforget := hs.forget hget hissued (hs.gone_of_closed hclosed pending)
    split
    · exact ⟨hforget, hclosed, rfl⟩
    · next r hruntime =>
      split
      · next hdirection =>
        rw [toRuntime_getD]
        split
        · refine ⟨hs.settle hget hissued _ (fun _ => rfl) ?_, hclosed, rfl⟩
          exact ⟨pending, hissued, pending.request.answers_errorFor _ _ _, trivial, hdirection,
            hcurrent _ r hruntime⟩
        · exact ⟨hforget, hclosed, rfl⟩
      · refine ⟨hforget.toRuntime (fun _ => rfl) hforget, ?_, ?_⟩
        · rw [toRuntime_getD]
          split
          · exact hclosed
          · exact hclosed
        · rw [toRuntime_getD]
          split
          · rfl
          · rfl

theorem Sound.close (hs : s.Sound c) : Goes c s s.close := by
  have hfold : ∀ (keys : List RelayKey) (s' : Broker), Goes c s s' → s'.closed = true →
      s'.relays = s.relays → let s'' := keys.foldl (Broker.closeItem s.runtimes) s'
        Goes c s s'' ∧ s''.closed = true := by
    intro keys
    induction keys with
    | nil => exact fun _ h hclosed _ => ⟨h, hclosed⟩
    | cons key keys ih =>
      intro s' h hclosed hrelays
      obtain ⟨hgoes, hclosed', hrelays'⟩ := h.sound.closeItem hclosed s.runtimes
        (by rw [hrelays]; exact hs.current) key
      exact ih _ (h.trans hgoes) hclosed' (hrelays'.trans hrelays)
  unfold Broker.close
  split
  · exact .refl hs
  · have hstart : Goes c s { s with closed := true, runtimes := [] } := by
      refine hs.quiet_of_loops ⟨rfl, rfl, fun r relay hrelay => ⟨relay, hrelay, rfl, rfl⟩, ?_, id,
        fun _ => rfl⟩ nofun (fun _ => rfl) fun loop hloop item hitem => ⟨loop, hloop, hitem⟩
      rintro r - ⟨relay, -, -, hruntime⟩
      cases hruntime
    obtain ⟨hgoes, hclosed⟩ := hfold s.pending.table.keys _ hstart rfl rfl
    refine hgoes.trans ?_
    refine hgoes.sound.quiet_of_loops ⟨rfl, rfl, ?_, ?_, id, id⟩ ?_ hgoes.sound.ended
      fun loop hloop item hitem => ⟨loop, hloop, hitem⟩
    · intro r relay hrelay
      refine ⟨{ relay with writable := false, reading := false }, ?_, rfl, rfl⟩
      exact (getElem?_map ..).trans (congrArg (Option.map _) hrelay)
    · rintro r - ⟨relay, -, -, hruntime⟩
      have hnil := hgoes.sound.ended hclosed
      dsimp only at hruntime
      rw [hnil] at hruntime
      cases hruntime
    · intro runtimeId r hruntime
      have hnil := hgoes.sound.ended hclosed
      dsimp only at hruntime
      rw [hnil] at hruntime
      cases hruntime

theorem Goes.close (h : Goes c s s') : Goes c s s'.close := h.trans h.sound.close

theorem Goes.endReader (h : Goes c s s') (r : Nat) : Goes c s (s'.endReader r) :=
  h.trans (h.sound.endReader r)

theorem Sound.refuseExtension (hs : s.Sound c) (request : Envelope) (code message : String)
    (retryable : Bool) : Goes c s (s.refuseExtension request code message retryable) :=
  (Goes.refl hs).toExtension (fun _ => rfl) hs.close

theorem Sound.refuseRuntime (hs : s.Sound c) (r : Nat) (request : Envelope) (code message : String)
    (retryable : Bool) : Goes c s (s.refuseRuntime r request code message retryable) :=
  (Goes.refl hs).toRuntime (fun _ => rfl) (hs.endReader r)

/-! ### Envelopes of the browser -/

theorem Sound.runtimeFor (hs : s.Sound c) (hclosed : s.closed = false) {connects : Bool}
    (h : s.runtimeFor c envelope connects = some (r, s')) :
    Goes c s s' ∧ s'.runtimes.get? envelope.runtimeId = some r ∧ s'.pending = s.pending := by
  unfold Broker.runtimeFor at h
  split at h
  · next r' hruntime =>
    split at h
    · cases h
      exact ⟨.refl hs, hruntime, rfl⟩
    · cases h
  · next hnone =>
    split at h
    · cases h
    · cases h
      have hget : ∀ runtimeId, (s.runtimes.set envelope.runtimeId s.relays.length).get? runtimeId =
          if runtimeId = envelope.runtimeId then some s.relays.length
          else s.runtimes.get? runtimeId := fun runtimeId => Assoc.get?_set _ _ _ _
      refine ⟨?_, by dsimp only; rw [hget, if_pos rfl], rfl⟩
      refine hs.quiet_of_loops ⟨rfl, rfl, ?_, ?_, id, id⟩ ?_ ?_ fun loop hloop item hitem =>
        ⟨loop, hloop, hitem⟩
      · intro i relay hrelay
        refine ⟨relay, ?_, rfl, rfl⟩
        exact (getElem?_append_left (List.getElem?_eq_some_iff.mp hrelay).1).trans hrelay
      · rintro i hi ⟨relay, hrelay, hwrite, hruntime⟩
        dsimp only at hrelay hruntime
        rw [getElem?_append_left hi] at hrelay
        rw [hget] at hruntime
        split at hruntime
        · exact absurd (Option.some.inj hruntime) (Nat.ne_of_gt hi)
        · exact ⟨relay, hrelay, hwrite, hruntime⟩
      · intro runtimeId i hruntime
        dsimp only at hruntime
        rw [hget] at hruntime
        split at hruntime
        · next heq =>
          cases hruntime
          exact ⟨_, getElem?_concat_length, heq.symm⟩
        · obtain ⟨relay, hrelay, hid⟩ := hs.current runtimeId i hruntime
          refine ⟨relay, ?_, hid⟩
          exact (getElem?_append_left (List.getElem?_eq_some_iff.mp hrelay).1).trans hrelay
      · intro htrue
        dsimp only at htrue
        rw [hclosed] at htrue
        cases htrue

theorem Sound.requestRuntime (hs : s.Sound c) (r : Nat) (now : Nat)
    (hdirection : envelope.direction = .extensionToRuntime) :
    Goes c s (s.requestRuntime c r envelope now) := by
  unfold Broker.requestRuntime
  split
  · exact hs.refuseExtension _ _ _ _
  · split
    · exact .refl hs
    · next hnone =>
      split
      · exact hs.refuseExtension _ _ _ _
      · next hsize =>
        have hregister := hs.register (not_isSome_iff_eq_none.mp hnone) hsize hdirection
        exact hregister.toRuntime (fun _ => rfl) (hregister.disconnect r)

theorem Sound.answerRuntime (hs : s.Sound c) (now : Nat)
    (hdirection : envelope.direction = .extensionToRuntime) (hanswer : envelope.IsAnswer)
    (hruntime : s.runtimes.get? envelope.runtimeId = some r) :
    Goes c s (s.answerRuntime r envelope now) := by
  unfold Broker.answerRuntime
  rcases settlePending_cases s (envelope.direction.opposite, envelope.runtimeId, envelope.requestId)
    with heq | ⟨n, pending, hget, hissued, hkey, heq⟩
  · rw [heq]
    exact .refl hs
  · rw [heq]
    dsimp only
    have hrequester : pending.request.direction = .runtimeToExtension := by
      refine (congrArg Prod.fst hkey).trans ?_
      rw [hdirection]
      rfl
    have hid : pending.request.runtimeId = envelope.runtimeId :=
      congrArg (fun key => key.2.1) hkey
    rw [← hid] at hruntime
    split
    · exact hs.answerSession hget hissued hrequester hruntime
        (pending.request.answers_errorFor _ _ _) trivial Goes.close
    · next hmatches =>
      split
      · exact hs.answerSession hget hissued hrequester hruntime
          (pending.request.answers_errorFor _ _ _) trivial Goes.close
      · exact hs.answerSession hget hissued hrequester hruntime
          ((not_not.mp hmatches).answers hkey) hanswer fun h => h.disconnect r

/-- A cancel matches the request that it finds. -/
def Finds (s : Broker) (envelope : Envelope) : Prop :=
  ∀ n pending, s.pending.get? (envelope.direction, envelope.runtimeId, envelope.requestId) = some n →
    s.pending.issued[n]? = some pending → pending.request.Matches envelope

theorem Sound.cancelRuntime (hs : s.Sound c) (r : Nat) (hrevokes : envelope.Revokes)
    (hfinds : s.Finds envelope) : Goes c s (s.cancelRuntime r envelope) := by
  unfold Broker.cancelRuntime
  rcases settlePending_cases s (envelope.direction, envelope.runtimeId, envelope.requestId)
    with heq | ⟨n, pending, hget, hissued, hkey, heq⟩
  · rw [heq]
    exact .refl hs
  · rw [heq]
    dsimp only
    have hmatches := hfinds n pending hget hissued
    rw [if_neg (not_not.mpr hmatches)]
    have hsettle := hs.settle hget hissued (.withdrawn n (.runtime r) envelope)
      (fun _ => rfl) ⟨pending, hissued, hmatches.cancels hkey, hmatches.2.2.1.symm, hrevokes⟩
    split
    · exact hsettle
    · exact hsettle.disconnect r

theorem Sound.routeFromExtension (hs : s.Sound c) (hclosed : s.closed = false) (now later : Nat)
    {connects : Bool} (hdirection : envelope.direction = .extensionToRuntime)
    (hfinds : envelope.Revokes → (s.runtimeFor c envelope connects).isSome → s.Finds envelope) :
    Goes c s (s.routeFromExtension c envelope now later connects) := by
  unfold Broker.routeFromExtension
  split
  · split
    · exact hs.refuseExtension _ _ _ _
    · split
      · exact hs.refuseExtension _ _ _ _
      · split
        · split
          · exact hs.refuseExtension _ _ _ _
          · exact hs.refuseExtension _ _ _ _
        · next r s' hr =>
          obtain ⟨hgoes, -, -⟩ := hs.runtimeFor hclosed hr
          exact hgoes.trans (hgoes.sound.requestRuntime r later hdirection)
  · next result hpayload =>
    split
    · exact .refl hs
    · next r s' hr =>
      obtain ⟨hgoes, hruntime, -⟩ := hs.runtimeFor hclosed hr
      refine hgoes.trans (hgoes.sound.answerRuntime later hdirection ?_ hruntime)
      unfold Envelope.IsAnswer
      rw [hpayload]
      trivial
  · next code message retryable hpayload =>
    split
    · exact .refl hs
    · next r s' hr =>
      obtain ⟨hgoes, hruntime, -⟩ := hs.runtimeFor hclosed hr
      refine hgoes.trans (hgoes.sound.answerRuntime later hdirection ?_ hruntime)
      unfold Envelope.IsAnswer
      rw [hpayload]
      trivial
  · next reason hpayload =>
    have hrevokes : envelope.Revokes := by
      unfold Envelope.Revokes
      rw [hpayload]
      trivial
    split
    · exact .refl hs
    · next r s' hr =>
      obtain ⟨hgoes, -, hpending⟩ := hs.runtimeFor hclosed hr
      refine hgoes.trans (hgoes.sound.cancelRuntime r hrevokes ?_)
      unfold Finds
      rw [hpending]
      exact hfinds hrevokes (by rw [hr]; rfl)
  · split
    · exact .refl hs
    · next r s' hr =>
      obtain ⟨hgoes, -, -⟩ := hs.runtimeFor hclosed hr
      exact hgoes.toRuntime (fun _ => rfl) (hgoes.disconnect r)

/-! ### Envelopes of the runtimes -/

theorem Sound.requestExtension (hs : s.Sound c) (now : Nat) (hrelay : s.relays[r]? = some relay)
    (hreads : Reads relay envelope) : Goes c s (s.requestExtension c r envelope now) := by
  unfold Broker.requestExtension
  split
  · exact hs.refuseRuntime r _ _ _ _
  · split
    · exact hs.refuseRuntime r _ _ _ _
    · split
      · exact .refl hs
      · next hnone =>
        split
        · exact hs.refuseRuntime r _ _ _ _
        · next hsize =>
          have hregister := hs.register (not_isSome_iff_eq_none.mp hnone) hsize
            ⟨hreads.2.2, relay, hrelay, hreads.1.symm, hreads.2.1.symm⟩
          exact hregister.passOn (fun _ => rfl) (hregister.endReader r)

/-- An answer fits the browser's port if it is to be passed on. -/
def Fits (c : BrokerConfig) (s : Broker) (envelope : Envelope) (now : Nat) : Prop :=
  ∀ n pending, s.pending.get?
      (envelope.direction.opposite, envelope.runtimeId, envelope.requestId) = some n →
    s.pending.issued[n]? = some pending → pending.request.Matches envelope →
      ¬ pending.request.IsExpired now → s.extension = true → c.fits envelope = true

theorem Sound.answerExtension (hs : s.Sound c) (r : Nat) {now : Nat}
    (hdirection : envelope.direction = .runtimeToExtension) (hanswer : envelope.IsAnswer)
    (hfits : s.Fits c envelope now) : Goes c s (s.answerExtension c r envelope now) := by
  unfold Broker.answerExtension
  rcases settlePending_cases s (envelope.direction.opposite, envelope.runtimeId, envelope.requestId)
    with heq | ⟨n, pending, hget, hissued, hkey, heq⟩
  · rw [heq]
    exact .refl hs
  · rw [heq]
    dsimp only
    have hrequester : pending.request.direction = .extensionToRuntime := by
      refine (congrArg Prod.fst hkey).trans ?_
      rw [hdirection]
      rfl
    split
    · exact hs.answerBrowser hget hissued hrequester (pending.request.answers_errorFor _ _ _) trivial
        fun h => h.endReader r
    · next hmatches =>
      have hmatches := not_not.mp hmatches
      split
      · exact hs.answerBrowser hget hissued hrequester (pending.request.answers_errorFor _ _ _)
          trivial fun h => h.endReader r
      · next hexpired =>
        unfold Broker.passOn
        split
        · exact hs.answerBrowser hget hissued hrequester (hmatches.answers hkey) hanswer
            fun h => h.endReader r
        · next hlarge =>
          -- too large an answer is not passed on only when the browser is gone
          refine (hs.forget hget hissued ?_).endReader r
          refine hs.gone_of_extension (mem_of_getElem? hissued) hrequester (.inl ?_)
          exact Bool.eq_false_iff.mpr fun hextension =>
            hlarge (hfits n pending hget hissued hmatches hexpired hextension)

theorem Sound.cancelExtension (hs : s.Sound c) (r : Nat) (hrevokes : envelope.Revokes)
    (hfinds : s.Finds envelope) : Goes c s (s.cancelExtension c r envelope) := by
  unfold Broker.cancelExtension
  rcases settlePending_cases s (envelope.direction, envelope.runtimeId, envelope.requestId)
    with heq | ⟨n, pending, hget, hissued, hkey, heq⟩
  · rw [heq]
    exact .refl hs
  · rw [heq]
    dsimp only
    have hmatches := hfinds n pending hget hissued
    rw [if_neg (not_not.mpr hmatches)]
    have hsettle := hs.settle hget hissued (.withdrawn n .extension envelope)
      (fun _ => rfl) ⟨pending, hissued, hmatches.cancels hkey, hmatches.2.2.1.symm, hrevokes⟩
    split
    · exact hsettle
    · exact hsettle.endReader r

/-! ### Deadlines and disconnects -/

theorem Sound.expirePending (hs : s.Sound c) (hopen : s.pending.IsOpen n) :
    Goes c s (s.expirePending n) := by
  unfold Broker.expirePending
  split
  · exact .refl hs
  · next pending hissued =>
    have hget : s.pending.get? pending.key = some n := (Pending.isOpen_iff_of_issued hissued).mp hopen
    have hmem := mem_of_getElem? hissued
    have hanswers : pending.request.Answers _ :=
      pending.request.answers_errorFor "deadline_exceeded" "Request deadline exceeded" true
    dsimp only
    split
    · next hdirection hruntime =>
      exact hs.answerBrowser hget hissued hdirection hanswers trivial id
    · next r hdirection hruntime =>
      have hanswer := hs.answerBrowser hget hissued hdirection hanswers trivial id
      unfold Broker.toExtension at hanswer ⊢
      split at hanswer
      · next hextension =>
        rw [if_pos hextension]
        exact hanswer.toRuntime (fun _ => rfl) hanswer
      · next hextension =>
        rw [if_neg hextension]
        exact hanswer
    · next hdirection hruntime =>
      exact hs.forget hget hissued (hs.gone_of_disconnected hmem hdirection hruntime)
    · next r hdirection hruntime =>
      have hanswer := hs.answerSession hget hissued hdirection hruntime hanswers trivial id
      exact hanswer.toExtension (fun _ => rfl) hanswer

/-- A disconnect finds no other request under the key of one that it has listed. -/
def Lists (s : Broker) (i : Nat) : Prop :=
  ∀ r key n items m, s.loops[i]? = some (r, (key, n) :: items) → s.pending.get? key = some m →
    m = n ∨ s.closed = true

theorem Sound.setLoop (hs : s.Sound c) {i : Nat} {items items' : List (RelayKey × Nat)}
    (hloop : s.loops[i]? = some (r, items)) (hsubset : items' ⊆ items) :
    Goes c s { s with loops := s.loops.set i (r, items') } := by
  refine hs.quiet_of_loops
    ⟨rfl, rfl, fun r relay hrelay => ⟨relay, hrelay, rfl, rfl⟩, fun _ _ h => h, id, id⟩
    hs.current hs.ended fun loop hmem item hitem => ?_
  rcases mem_or_eq_of_mem_set hmem with hmem | rfl
  · exact ⟨loop, hmem, hitem⟩
  · exact ⟨_, mem_of_getElem? hloop, hsubset hitem⟩

theorem Sound.disconnectStep (hs : s.Sound c) {i : Nat} (hlists : s.Lists i) :
    Goes c s (s.disconnectStep i) := by
  unfold Broker.disconnectStep
  split
  · exact .refl hs
  · next r hloop =>
    have hclosed : Goes c s (s.closeChannel r) :=
      hs.relays (f := fun relay => { relay with writable := false, reading := false }) r
        (fun _ => rfl) (fun _ => rfl) nofun
    refine hclosed.trans ?_
    refine hclosed.sound.quiet_of_loops
      ⟨rfl, rfl, fun r relay hrelay => ⟨relay, hrelay, rfl, rfl⟩, fun _ _ h => h, id, id⟩
      hclosed.sound.current hclosed.sound.ended fun loop hloop item hitem => ?_
    exact ⟨loop, mem_of_mem_eraseIdx hloop, hitem⟩
  · next r key n items hloop =>
    have hrest := hs.setLoop hloop (subset_cons_self (key, n) items)
    have hlisted := hs.listed _ (mem_of_getElem? hloop) (key, n) mem_cons_self
    rcases settlePending_cases s key with heq | ⟨m, pending, hget, hissued, -, heq⟩
    · rw [heq]
      exact hrest
    · rw [heq]
      dsimp only
      have hlist := hlists r key n items m hloop hget
      split
      · next hskip =>
        have hclosed : s.closed = true := by
          rcases hskip with hne | hclosed
          · exact hlist.resolve_left hne
          · exact hclosed
        exact hrest.trans (hrest.sound.forget hget hissued (hrest.sound.gone_of_closed hclosed _))
      · next hskip =>
        rw [not_or, not_not] at hskip
        obtain ⟨rfl, hopen⟩ := hskip
        split
        · next hdirection =>
          rw [toExtension_getD]
          split
          · exact hrest.trans (hrest.sound.settle hget hissued _ (fun _ => rfl) ⟨pending, hissued,
              pending.request.answers_errorFor _ _ _, trivial, hdirection⟩)
          · next hextension =>
            have hnil := hs.setLoop hloop (nil_subset _)
            refine hnil.trans (hnil.sound.forget hget hissued ?_)
            exact hnil.sound.gone_of_extension (mem_of_getElem? hissued) hdirection
              (.inl (Bool.eq_false_iff.mpr hextension))
        · next hdirection =>
          -- it came from the runtime that has disconnected
          have hgone : s.Gone pending := by
            obtain ⟨pending', hissued', -, hgone⟩ := hlisted
            rw [hissued] at hissued'
            cases hissued'
            have hcomes := hs.comes pending (mem_of_getElem? hissued)
            unfold Comes at hcomes
            unfold Gone
            split at hcomes
            · exact absurd hcomes hdirection
            · next r' hr' => exact (hgone r' hr').2
          rw [toExtension_getD]
          split
          · have hforget := hrest.trans (hrest.sound.forget hget hissued hgone)
            exact hforget.trans (hforget.sound.record fun _ => rfl)
          · have hnil := hs.setLoop hloop (nil_subset _)
            exact hnil.trans (hnil.sound.forget hget hissued hgone)

/-! ### A run -/

/-- What a step meets: a cancel matches the request that it finds, an answer that is passed on fits,
and a disconnect finds the requests that it has listed. -/
def Heeds (c : BrokerConfig) (s : Broker) : BrokerEvent → Prop
  | .fromExtension envelope _ _ connects =>
    envelope.Revokes → (s.runtimeFor c envelope connects).isSome → s.Finds envelope
  | .fromRuntime _ envelope now =>
    (envelope.Revokes → s.Finds envelope) ∧ (envelope.IsAnswer → s.Fits c envelope now)
  | .disconnecting i => s.Lists i
  | _ => True

theorem Sound.routeFromRuntime (hs : s.Sound c) {now : Nat} (hrelay : s.relays[r]? = some relay)
    (hreads : Reads relay envelope) (hheeds : s.Heeds c (.fromRuntime r envelope now)) :
    Goes c s (s.routeFromRuntime c r envelope now) := by
  have hanswer : ∀ {payload : Payload}, envelope.payload = payload →
      (match payload with | .response _ | .error _ _ _ => True | _ => False) →
        envelope.IsAnswer := by
    rintro payload rfl h
    exact h
  unfold Broker.routeFromRuntime
  split
  · exact hs.requestExtension now hrelay hreads
  · next result hpayload =>
    have hanswer := hanswer hpayload trivial
    exact hs.answerExtension r hreads.2.2 hanswer (hheeds.2 hanswer)
  · next code message retryable hpayload =>
    have hanswer := hanswer hpayload trivial
    exact hs.answerExtension r hreads.2.2 hanswer (hheeds.2 hanswer)
  · next reason hpayload =>
    have hrevokes : envelope.Revokes := by
      unfold Envelope.Revokes
      rw [hpayload]
      trivial
    exact hs.cancelExtension r hrevokes (hheeds.1 hrevokes)
  · exact (Goes.refl hs).passOn (fun _ => rfl) (hs.endReader r)

theorem Sound.step (hs : s.Sound c) (hheeds : s.Heeds c event) : Goes c s (s.step c event) := by
  cases event with
  | fromExtension envelope now later connects =>
    unfold Broker.step
    dsimp only
    split
    · exact .refl hs
    · next hclosed =>
      split
      · exact hs.close
      · next hdirection =>
        exact hs.routeFromExtension (Bool.eq_false_iff.mpr hclosed) now later
          (not_not.mp hdirection) hheeds
  | fromRuntime r envelope now =>
    unfold Broker.step
    dsimp only
    split
    · exact .refl hs
    · next relay hrelay =>
      split
      · exact .refl hs
      · split
        · next hreads => exact hs.routeFromRuntime hrelay hreads hheeds
        · exact hs.endReader r
  | readerEnds r => exact hs.endReader r
  | expire n =>
    unfold Broker.step
    dsimp only
    split
    · next hopen => exact hs.expirePending hopen
    · exact .refl hs
  | disconnecting i => exact hs.disconnectStep hheeds
  | relayLost r =>
    exact hs.relays (f := fun relay => { relay with writable := false }) r (fun _ => rfl)
      (fun _ => rfl) nofun
  | extensionLost =>
    exact hs.quiet_of_loops
      ⟨rfl, rfl, fun r relay hrelay => ⟨relay, hrelay, rfl, rfl⟩, fun _ _ h => h, fun _ => rfl, id⟩
      hs.current hs.ended fun loop hloop item hitem => ⟨loop, hloop, hitem⟩
  | close => exact hs.close

theorem Sound.start : Broker.start.Sound c where
  size := Nat.zero_le _
  current := fun _ _ h => absurd h.symm (Option.some_ne_none _)
  ended := fun h => absurd h Bool.false_ne_true
  comes := forall_mem_nil _
  issued := fun _ h => absurd h (Nat.lt_irrefl _)
  once := fun _ => Nat.zero_le _
  unclosed := fun _ _ => rfl
  listed := forall_mem_nil _
  owns := fun _ hmem => absurd hmem not_mem_nil

/-- Every step of a run meets the condition. -/
def Careful (c : BrokerConfig) (s : Broker) : List BrokerEvent → Prop
  | [] => True
  | event :: events => s.Heeds c event ∧ (s.step c event).Careful c events

theorem sound_run (h : Broker.start.Careful c events) : (run c events).Sound c := by
  have hfold : ∀ (events : List BrokerEvent) (s : Broker), s.Sound c → s.Careful c events →
      (events.foldl (Broker.step c) s).Sound c := by
    intro events
    induction events with
    | nil => exact fun _ h _ => h
    | cons event events ih => exact fun s h hcareful => ih _ (h.step hcareful.1).sound hcareful.2
  exact hfold events _ .start h

theorem Careful.append (h : s.Careful c (events ++ [event])) :
    s.Careful c events ∧ (events.foldl (Broker.step c) s).Heeds c event := by
  induction events generalizing s with
  | nil => exact ⟨trivial, h.1⟩
  | cons first events ih =>
    obtain ⟨hcareful, hheeds⟩ := ih h.2
    exact ⟨⟨h.1, hcareful⟩, hheeds⟩

/-- **No request is dropped silently.**  In a run whose steps all meet the condition, a request
leaves the table with one answer to its requester or its requester's own cancel, or because the
requester's side is gone; it is never answered twice; and the table keeps its bound. -/
theorem keeps_pending (events : List BrokerEvent) (event : BrokerEvent)
    (h : Broker.start.Careful c (events ++ [event])) :
    let s := run c events
    let s' := run c (events ++ [event])
    s.Keeps s' ∧ (∀ n, s'.log.countP (Sent.answers n) ≤ 1) ∧ (∀ entry ∈ s'.log, s'.Owns entry) ∧
      s'.pending.size ≤ c.maxPendingRequests := by
  obtain ⟨hcareful, hheeds⟩ := h.append
  have hgoes := (sound_run hcareful).step hheeds
  have hrun : run c (events ++ [event]) = (run c events).step c event := by
    rw [run, foldl_append]
    rfl
  rw [← hrun] at hgoes
  intro s s'
  have hs' : Goes c s s' := hgoes
  refine ⟨hs'.keeps, fun n => ?_, hs'.sound.owns, hs'.sound.size⟩
  refine Nat.le_trans (countP_mono_left fun entry _ hanswers => ?_) (hs'.sound.once n)
  cases entry with
  | answered m side envelope => exact hanswers
  | _ => cases hanswers

/-! ### A cancel that does not match -/

def oneRuntime : BrokerConfig where
  maxRuntimes := 1
  maxPendingRequests := 1
  fits := fun _ => true

def browserRequest : Envelope where
  direction := .extensionToRuntime
  requestId := "q"
  runtimeId := "r"
  sessionId := "s"
  deadlineMs := 100
  payload := .request "browser.click" []

/-- The browser's cancel of its request, with another deadline. -/
def otherDeadline : Envelope :=
  { browserRequest with deadlineMs := 101, payload := .cancel "caller_cancelled" }

/-- The request has left the table, and nothing is said of it to either side. -/
theorem dropped_by_cancel :
    let events : List BrokerEvent := [.fromExtension browserRequest 0 0 true]
    ¬ (run oneRuntime events).Keeps
      (run oneRuntime (events ++ [.fromExtension otherDeadline 1 1 false])) := by
  intro events h
  have hdropped := h 0 ⟨browserRequest, none⟩ rfl (by decide) (by decide)
  have hclosings : (run oneRuntime (events ++
    [.fromExtension otherDeadline 1 1 false])).closings 0 = 0 := by decide
  rcases hdropped with hone | ⟨-, hgone | hgone⟩
  · rw [hclosings] at hone
    cases hone
  · have hextension : (run oneRuntime (events ++
      [.fromExtension otherDeadline 1 1 false])).extension = true := by decide
    rw [hextension] at hgone
    cases hgone
  · have hclosed : (run oneRuntime (events ++
      [.fromExtension otherDeadline 1 1 false])).closed = false := by decide
    rw [hclosed] at hgone
    cases hgone

def runtimeResponse : Envelope := browserRequest.responseFor .null

theorem keeps_pending_answered :
    (let events : List BrokerEvent := [.fromExtension browserRequest 0 0 true];
      let s := run oneRuntime events;
      let s' := run oneRuntime (events ++ [.fromRuntime 0 runtimeResponse 1]);
      s.Keeps s' ∧ (∀ n, s'.log.countP (Sent.answers n) ≤ 1) ∧ (∀ entry ∈ s'.log, s'.Owns entry) ∧
        s'.pending.size ≤ oneRuntime.maxPendingRequests) ∧
      .answered 0 .extension runtimeResponse ∈ (run oneRuntime
        [.fromExtension browserRequest 0 0 true, .fromRuntime 0 runtimeResponse 1]).log :=
  ⟨keeps_pending [.fromExtension browserRequest 0 0 true] (.fromRuntime 0 runtimeResponse 1)
    ⟨False.elim, ⟨False.elim, fun _ _ _ _ _ _ _ _ => rfl⟩, trivial⟩, by decide⟩

end Broker

end KolegaCode.BrowserExtension
