import Mathlib.Data.Rat.Defs
import Mathlib.Logic.Function.Basic
import Mathlib.Data.List.Basic

/-!
# Peer — inbound messages

`deliver_inbound`, the one ladder a message of another session goes through: it is journalled,
dropped when it repeats one of its sender inside the window, refused when the queue is full, and
otherwise queued.  `PeerRepeatGuard` remembers when it last saw a sender's text, also of a message
that is then refused: on a retry that one is reported as accepted without being queued
(`refused_then_accepted`).
-/

namespace KolegaCode.Peer

open List

/-! ### The guard -/

/-- `PeerMessage`. -/
structure PeerMessage where
  messageId : String
  senderSessionId : String
  senderTitle : String
  text : String
  replyTo : Option String
  createdAt : String
  deriving DecidableEq, Repr

/-- `PEER_REPEAT_WINDOW_SECONDS`. -/
def peerRepeatWindowSeconds : Rat := 60

/-- `MAX_QUEUED_PEER_MESSAGES`. -/
def maxQueuedPeerMessages : Nat := 50

/-- What `PeerRepeatGuard` remembers: when it last saw a sender with a text's hash. -/
abbrev LastSeen := String × Int → Option Rat

/-- What the sender is told. -/
inductive DeliveryOutcome
  | accepted
  | refused
  deriving DecidableEq, Repr

/-- `KnownEventType`, as far as the ladder writes it. -/
inductive PeerEvent
  | received
  | delivered
  deriving DecidableEq, Repr

/-- `InboundNoticeKind`. -/
inductive InboundNoticeKind
  | repeatDropped
  | queueFull
  deriving DecidableEq, Repr

/-- A session's inbox: the guard's memory, the queued messages, and what was journalled and
rendered. -/
structure Inbox where
  lastSeen : LastSeen
  queue : List PeerMessage
  events : List (PeerEvent × PeerMessage)
  notices : List (InboundNoticeKind × PeerMessage)

section

-- Python's `hash` of a text, and the guard's `window_seconds`
variable (hash : String → Int) (window : Rat)

/-- The key under which the guard knows a message. -/
def guardKey (m : PeerMessage) : String × Int := (m.senderSessionId, hash m.text)

/-- Whether `PeerRepeatGuard.allow` lets the message pass at `now`. -/
def allows (lastSeen : LastSeen) (m : PeerMessage) (now : Rat) : Bool :=
  match lastSeen (guardKey hash m) with
  | some last => !decide (now - last < window)
  | none => true

/-- What `PeerRepeatGuard.allow` remembers of the attempt, whether it passes or not. -/
def remember (lastSeen : LastSeen) (m : PeerMessage) (now : Rat) : LastSeen :=
  Function.update lastSeen (guardKey hash m) (some now)

/-- `recipient_queue_full`. -/
def recipientQueueFull (queuedPeerCount : Nat) : Bool := maxQueuedPeerMessages ≤ queuedPeerCount

/-- `deliver_inbound`. -/
def deliverInbound (s : Inbox) (m : PeerMessage) (now : Rat) : Inbox × DeliveryOutcome :=
  let passed := allows hash window s.lastSeen m now
  let s :=
    { s with
      lastSeen := remember hash s.lastSeen m now
      events := s.events ++ [(PeerEvent.received, m)] }
  if !passed then ({ s with notices := s.notices ++ [(InboundNoticeKind.repeatDropped, m)] }, .accepted)
  else if recipientQueueFull s.queue.length then
    ({ s with notices := s.notices ++ [(InboundNoticeKind.queueFull, m)] }, .refused)
  else
    ({ s with queue := s.queue ++ [m], events := s.events ++ [(PeerEvent.delivered, m)] }, .accepted)

/-! ### Runs -/

/-- One delivery, as it went. -/
structure Call where
  message : PeerMessage
  now : Rat
  outcome : DeliveryOutcome
  enqueued : Bool
  deriving DecidableEq, Repr

/-- An arrival, or the agent's taking some of the queued messages. -/
inductive Op
  | deliver (m : PeerMessage) (now : Rat)
  | consume (kept : List PeerMessage)

/-- The inbox and the deliveries so far, the last one first. -/
structure World where
  inbox : Inbox
  past : List Call

def World.start : World := ⟨⟨fun _ => none, [], [], []⟩, []⟩

/-- One step; what is kept of the queue is a part of it, in order. -/
def step (w : World) : Op → World
  | .deliver m now =>
      let (inbox, outcome) := deliverInbound hash window w.inbox m now
      ⟨inbox, ⟨m, now, outcome, w.inbox.queue.length < inbox.queue.length⟩ :: w.past⟩
  | .consume kept =>
      if kept.isSublist w.inbox.queue then ⟨{ w.inbox with queue := kept }, w.past⟩ else w

def run (w : World) (ops : List Op) : World := ops.foldl (step hash window) w

/-! ### What an answer means -/

/-- The calls are of one sender and one text. -/
def SameMessage (m m' : PeerMessage) : Prop :=
  m.senderSessionId = m'.senderSessionId ∧ m.text = m'.text

instance (m m' : PeerMessage) : Decidable (SameMessage m m') :=
  inferInstanceAs (Decidable (_ ∧ _))

/-- The message was queued by an earlier call inside the rolling window: the last call with it is
less than the window ago, and either queued it or was itself a repeat of such a call. -/
inductive Backed : List Call → PeerMessage → Rat → Prop
  | queued {c : Call} {past : List Call} {m : PeerMessage} {now : Rat} :
      SameMessage c.message m → now - c.now < window → c.outcome = .accepted →
        c.enqueued = true → Backed (c :: past) m now
  | again {c : Call} {past : List Call} {m : PeerMessage} {now : Rat} :
      SameMessage c.message m → now - c.now < window → c.outcome = .accepted →
        Backed past m c.now → Backed (c :: past) m now
  | other {c : Call} {past : List Call} {m : PeerMessage} {now : Rat} :
      ¬SameMessage c.message m → Backed past m now → Backed (c :: past) m now

/-- Every answer of acceptance is true: the call queued the message, or an earlier call inside the
window did. -/
def Truthful : List Call → Prop
  | [] => True
  | c :: past =>
      (c.outcome = .accepted → c.enqueued = true ∨ Backed window past c.message c.now) ∧
        Truthful past

/-- A delivery comes at a good time: no call inside the window before it with its sender and hash
was refused, or had another text. -/
def Timely (past : List Call) : Op → Prop
  | .deliver m now =>
      ∀ c ∈ past, guardKey hash c.message = guardKey hash m → now - c.now < window →
        c.outcome ≠ .refused ∧ c.message.text = m.text
  | .consume _ => True

instance (past : List Call) (op : Op) : Decidable (Timely hash window past op) :=
  match op with
  | .deliver m now =>
      inferInstanceAs (Decidable (∀ c ∈ past, guardKey hash c.message = guardKey hash m →
        now - c.now < window → c.outcome ≠ .refused ∧ c.message.text = m.text))
  | .consume _ => inferInstanceAs (Decidable True)

/-- Every delivery of the run comes at a good time. -/
def AllTimely (w : World) : List Op → Prop
  | [] => True
  | op :: ops => Timely hash window w.past op ∧ AllTimely (step hash window w op) ops

instance decidableAllTimely (w : World) : (ops : List Op) → Decidable (AllTimely hash window w ops)
  | [] => inferInstanceAs (Decidable True)
  | op :: ops =>
      @instDecidableAnd _ _ (inferInstanceAs (Decidable (Timely hash window w.past op)))
        (decidableAllTimely (step hash window w op) ops)

end

/-! ### One delivery -/

variable {hash : String → Int} {window : Rat}

/-- The three ways a delivery goes: a repeat, a refusal, a message queued. -/
theorem deliverInbound_cases (hash : String → Int) (window : Rat) (s : Inbox) (m : PeerMessage)
    (now : Rat) :
    (allows hash window s.lastSeen m now = false ∧
        (deliverInbound hash window s m now).2 = .accepted ∧
        (deliverInbound hash window s m now).1.queue = s.queue) ∨
      (allows hash window s.lastSeen m now = true ∧ maxQueuedPeerMessages ≤ s.queue.length ∧
        (deliverInbound hash window s m now).2 = .refused ∧
        (deliverInbound hash window s m now).1.queue = s.queue) ∨
      (allows hash window s.lastSeen m now = true ∧ s.queue.length < maxQueuedPeerMessages ∧
        (deliverInbound hash window s m now).2 = .accepted ∧
        (deliverInbound hash window s m now).1.queue = s.queue ++ [m]) := by
  cases hpassed : allows hash window s.lastSeen m now with
  | false =>
    left
    simp [deliverInbound, hpassed]
  | true =>
    right
    by_cases hfull : maxQueuedPeerMessages ≤ s.queue.length
    · left
      simp [deliverInbound, hpassed, recipientQueueFull, hfull]
    · right
      simp [deliverInbound, hpassed, recipientQueueFull, hfull, Nat.lt_of_not_le hfull]

theorem deliverInbound_lastSeen (s : Inbox) (m : PeerMessage) (now : Rat) :
    (deliverInbound hash window s m now).1.lastSeen = remember hash s.lastSeen m now := by
  rw [deliverInbound]
  split
  · rfl
  · split
    · rfl
    · rfl

variable {m : PeerMessage} {now : Rat} {older past : List Call} {w : World}

theorem SameMessage.guardKey_eq {m' : PeerMessage} (h : SameMessage m m') :
    guardKey hash m = guardKey hash m' := by
  rw [guardKey, guardKey, h.1, h.2]

/-! ### The invariant -/

/-- The last call with a key. -/
def lastCall (hash : String → Int) (past : List Call) (key : String × Int) : Option Call :=
  past.find? fun c => guardKey hash c.message = key

/-- What holds along a run: the guard remembers the last call of each key, the queue is in bounds,
every answer is true, and what is queued is accepted. -/
structure Inv (hash : String → Int) (window : Rat) (w : World) : Prop where
  memory : ∀ key, w.inbox.lastSeen key = (lastCall hash w.past key).map Call.now
  bounded : w.inbox.queue.length ≤ maxQueuedPeerMessages
  truthful : Truthful window w.past

theorem inv_start : Inv hash window World.start := by
  refine ⟨fun key => rfl, Nat.zero_le _, trivial⟩

/-- Calls with another key say nothing about a message. -/
theorem Backed.skip :
    ∀ {newer : List Call}, (∀ c ∈ newer, guardKey hash c.message ≠ guardKey hash m) →
      Backed window older m now → Backed window (newer ++ older) m now
  | [], _, h => h
  | c :: newer, hne, h => by
      refine .other (fun hsame => ?_) (Backed.skip (fun c' hc' => hne c' ?_) h)
      · exact hne c mem_cons_self hsame.guardKey_eq
      · exact mem_cons_of_mem _ hc'

theorem Truthful.at_call {c : Call} :
    ∀ {newer : List Call}, Truthful window (newer ++ c :: older) → c.outcome = .accepted →
      c.enqueued = true ∨ Backed window older c.message c.now
  | [], h, hc => h.1 hc
  | _ :: _, h, hc => Truthful.at_call h.2 hc

/-- A text is of the same message when it is of the same call's. -/
theorem Backed.congr {m' : PeerMessage} (h : Backed window past m now) (hm : SameMessage m m') :
    Backed window past m' now := by
  induction h with
  | queued hsame hwindow hout henq =>
    exact .queued ⟨hsame.1.trans hm.1, hsame.2.trans hm.2⟩ hwindow hout henq
  | again hsame hwindow hout _ ih =>
    exact .again ⟨hsame.1.trans hm.1, hsame.2.trans hm.2⟩ hwindow hout (ih hm)
  | other hother _ ih =>
    refine .other (fun hsame => hother ?_) (ih hm)
    exact ⟨hsame.1.trans hm.1.symm, hsame.2.trans hm.2.symm⟩

/-- **A repeat that comes at a good time repeats a message that was queued.** -/
theorem backed_of_repeat (hw : Inv hash window w) (ht : Timely hash window w.past (.deliver m now))
    (hrepeat : allows hash window w.inbox.lastSeen m now = false) : Backed window w.past m now := by
  rw [allows, hw.memory] at hrepeat
  cases hlast : lastCall hash w.past (guardKey hash m) with
  | none =>
    rw [hlast] at hrepeat
    cases hrepeat
  | some c =>
    rw [hlast] at hrepeat
    have hwindow : now - c.now < window := by simpa using hrepeat
    obtain ⟨hkey, newer, older, hpast, hnewer⟩ := find?_eq_some_iff_append.mp hlast
    have hkey : guardKey hash c.message = guardKey hash m := of_decide_eq_true hkey
    have hmem : c ∈ w.past := by
      rw [hpast]
      exact mem_append_right _ mem_cons_self
    obtain ⟨hout, htext⟩ := ht c hmem hkey hwindow
    have hsame : SameMessage c.message m := ⟨congrArg Prod.fst hkey, htext⟩
    have hacc : c.outcome = .accepted := by
      cases hc : c.outcome with
      | accepted => rfl
      | refused => exact absurd hc hout
    have hskip : ∀ c' ∈ newer, guardKey hash c'.message ≠ guardKey hash m := by
      intro c' hc' hkey'
      have := hnewer c' hc'
      rw [hkey'] at this
      simp at this
    have htruth := hw.truthful
    rw [hpast] at htruth ⊢
    refine Backed.skip hskip ?_
    rcases Truthful.at_call htruth hacc with henq | hbacked
    · exact .queued hsame hwindow hacc henq
    · exact .again hsame hwindow hacc (hbacked.congr hsame)

/-! ### Runs -/

theorem step_deliver (w : World) (m : PeerMessage) (now : Rat) :
    step hash window w (.deliver m now) =
      ⟨(deliverInbound hash window w.inbox m now).1,
        ⟨m, now, (deliverInbound hash window w.inbox m now).2,
          w.inbox.queue.length < (deliverInbound hash window w.inbox m now).1.queue.length⟩ ::
            w.past⟩ := rfl

theorem step_memory (hw : Inv hash window w) (key : String × Int) :
    (step hash window w (.deliver m now)).inbox.lastSeen key =
      (lastCall hash (step hash window w (.deliver m now)).past key).map Call.now := by
  rw [step_deliver]
  show (deliverInbound hash window w.inbox m now).1.lastSeen key = _
  rw [deliverInbound_lastSeen, remember, lastCall, find?_cons]
  by_cases hkey : key = guardKey hash m
  · rw [hkey, Function.update_self]
    simp
  · rw [Function.update_of_ne hkey, hw.memory key, lastCall]
    have hne : decide (guardKey hash m = key) = false := decide_eq_false fun h => hkey h.symm
    rw [hne]

/-- **One step** keeps the invariant, when the delivery comes at a good time. -/
theorem step_inv {op : Op} (hw : Inv hash window w) (ht : Timely hash window w.past op) :
    Inv hash window (step hash window w op) := by
  cases op with
  | consume kept =>
    rw [step]
    split
    · next hkept =>
      have hsub : kept.Sublist w.inbox.queue := isSublist_iff_sublist.mp hkept
      exact ⟨hw.memory, Nat.le_trans hsub.length_le hw.bounded, hw.truthful⟩
    · exact hw
  | deliver m now =>
    refine ⟨step_memory hw, ?_, ?_⟩
    · rw [step_deliver]
      rcases deliverInbound_cases hash window w.inbox m now with
        ⟨-, -, hqueue⟩ | ⟨-, -, -, hqueue⟩ | ⟨-, hroom, -, hqueue⟩
      · rw [hqueue]
        exact hw.bounded
      · rw [hqueue]
        exact hw.bounded
      · rw [hqueue, length_append]
        exact hroom
    · rw [step_deliver]
      refine ⟨fun hacc => ?_, hw.truthful⟩
      rcases deliverInbound_cases hash window w.inbox m now with
        ⟨hrepeat, -, -⟩ | ⟨-, -, hrefused, -⟩ | ⟨-, -, -, hqueue⟩
      · exact Or.inr (backed_of_repeat hw ht hrepeat)
      · rw [hrefused] at hacc
        cases hacc
      · left
        simp [hqueue]

theorem run_inv {ops : List Op} (hw : Inv hash window w) (ht : AllTimely hash window w ops) :
    Inv hash window (run hash window w ops) := by
  induction ops generalizing w with
  | nil => exact hw
  | cons op ops ih => exact ih (step_inv hw ht.1) ht.2

theorem AllTimely.take {ops : List Op} (ht : AllTimely hash window w ops) (n : Nat) :
    AllTimely hash window w (ops.take n) := by
  induction ops generalizing w n with
  | nil =>
    rw [take_nil]
    trivial
  | cons op ops ih =>
    cases n with
    | zero => trivial
    | succ n => exact ⟨ht.1, ih ht.2 n⟩

/-- A message that is accepted after it was refused has been queued in between. -/
def QueuedSinceRefusal (past : List Call) : Prop :=
  ∀ newer c between r older, past = newer ++ c :: (between ++ r :: older) →
    SameMessage r.message c.message → r.outcome = .refused → c.outcome = .accepted →
      c.enqueued = true ∨ ∃ e ∈ between, e.enqueued = true ∧ SameMessage e.message c.message

/-- The call that queued a message inside the window comes after every refusal of it. -/
theorem Backed.since {r : Call} (h : Backed window past m now) :
    ∀ {between : List Call}, past = between ++ r :: older → SameMessage r.message m →
      r.outcome = .refused → ∃ e ∈ between, e.enqueued = true ∧ SameMessage e.message m := by
  induction h with
  | @queued c past m now hsame _ hout henq =>
    intro between hpast hr href
    cases between with
    | nil =>
      cases hpast
      rw [href] at hout
      cases hout
    | cons e between =>
      cases hpast
      exact ⟨c, mem_cons_self, henq, hsame⟩
  | @again c past m now hsame _ hout _ ih =>
    intro between hpast hr href
    cases between with
    | nil =>
      cases hpast
      rw [href] at hout
      cases hout
    | cons e between =>
      cases hpast
      obtain ⟨e, he, henq, hsame'⟩ := ih rfl hr href
      exact ⟨e, mem_cons_of_mem _ he, henq, hsame'⟩
  | @other c past m now hother _ ih =>
    intro between hpast hr href
    cases between with
    | nil =>
      cases hpast
      exact absurd hr hother
    | cons e between =>
      cases hpast
      obtain ⟨e, he, henq, hsame'⟩ := ih rfl hr href
      exact ⟨e, mem_cons_of_mem _ he, henq, hsame'⟩

theorem Truthful.queuedSinceRefusal (h : Truthful window past) : QueuedSinceRefusal past := by
  rintro newer c between r older rfl hsame href hacc
  rcases Truthful.at_call h hacc with henq | hbacked
  · exact Or.inl henq
  · exact Or.inr (hbacked.since rfl hsame href)

/-- A hash of texts that tells those of the runs below apart. -/
def textHash (text : String) : Int :=
  text.toList.foldl (fun h c => 31 * h + c.toNat) 7

def message (text : String) : PeerMessage := ⟨"id", "s1", "alpha", text, none, "now"⟩

/-- A message, a repeat of it, the agent's turn, and the message again after the window. -/
def repeatedRun : List Op :=
  [.deliver (message "ping") 0, .deliver (message "ping") 10, .consume [],
    .deliver (message "ping") 100]

/-- Fifty messages fill the queue, the next is refused, the agent takes them all, and the sender
tries again. -/
def retryRun : List Op :=
  (List.range 50).map (fun i => Op.deliver (message (toString i)) i) ++
    [.deliver (message "deploy is done") 50, .consume [], .deliver (message "deploy is done") 55]

end KolegaCode.Peer
