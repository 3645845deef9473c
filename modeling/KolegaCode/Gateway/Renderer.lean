import Mathlib.Data.Rat.Init
import Mathlib.Algebra.Order.Field.Rat
import KolegaCode.Gateway.Formatting

/-!
# Gateway — a turn in the chat

`TurnRenderer.run` mirrors the chunks of a turn into a chat.  A segment of the response becomes one
message that is edited while the segment grows, and is sent on in further messages when it ends.
Sends and edits succeed; a message's identifier is its place in the chat.  The messages of the tool
rounds are left out.
-/

namespace KolegaCode.Gateway

open List Option

/-- One chunk of `process_message_stream`; what a chunk lacks is empty. -/
structure StreamChunk where
  type : String
  content : Text
  uuid : String
  complete : Bool

/-- The transport a turn is shown on, and the readings of its clock. -/
structure Transport where
  supportsEdits : Bool
  chunkLimit : Int
  editThrottle : ℚ
  monotonic : Nat → ℚ

/-- The renderer, and the reply messages in the chat.  `settled` is a history variable: each
segment that has ended, with the messages that were sent of it. -/
structure TurnRenderer where
  segmentUuid : Option String := none
  segmentText : Text := []
  totalText : Text := []
  replyId : Option Nat := none
  editedText : Text := []
  lastFlush : ℚ := 0
  readings : Nat := 0
  chat : List Text := []
  settled : List (Text × List Text) := []

namespace TurnRenderer

/-- The messages of the segments that have ended. -/
def sent (s : TurnRenderer) : List Text := s.settled.flatMap Prod.snd

/-- `_edit_reply`. -/
def editReply (a : Transport) (s : TurnRenderer) (id : Nat) (text : Text) : TurnRenderer :=
  if text = s.editedText then s
  else
    let s := if a.supportsEdits then { s with chat := s.chat.set id text } else s
    { s with editedText := text }

/-- The part of `_flush_segment` that shows the pieces of the segment. -/
def showPieces (a : Transport) (s : TurnRenderer) (final : Bool) (first : Text)
    (extras : List Text) : TurnRenderer :=
  match s.replyId with
  | none =>
    -- a transport without edits gets a segment once, at its end
    if !final && !a.supportsEdits then s
    else { s with
      replyId := some s.chat.length
      chat := s.chat ++ [first]
      editedText := first }
  | some id =>
    if !final then
      -- a message at the limit is left alone until the segment ends
      if extras ≠ [] then s else s.editReply a id first
    else
      let s := s.editReply a id first
      { s with chat := s.chat ++ extras }

/-- `_flush_segment`. -/
def flushSegment (a : Transport) (s : TurnRenderer) (final : Bool) : Option TurnRenderer :=
  if s.segmentText = [] then some s
  else
    let now := a.monotonic s.readings
    let s := { s with readings := s.readings + 1 }
    if !final && decide (now - s.lastFlush < a.editThrottle) then some s
    else
      let s := { s with lastFlush := now }
      match chunkText s.segmentText a.chunkLimit with
      | some (first :: extras) => some (s.showPieces a final first extras)
      | _ => none

/-- `_finalize_segment`. -/
def finalizeSegment (a : Transport) (s : TurnRenderer) : Option TurnRenderer :=
  (s.flushSegment a true).map fun s =>
    { s with
      replyId := none
      editedText := []
      segmentText := []
      segmentUuid := none
      settled :=
        if s.segmentText = [] then s.settled
        else s.settled ++ [(s.segmentText, s.chat.drop s.sent.length)] }

/-- The chunk belongs to another segment than the one whose message is open. -/
def rotates (s : TurnRenderer) (chunk : StreamChunk) : Bool :=
  s.replyId.isSome && chunk.uuid ≠ "" && some chunk.uuid ≠ s.segmentUuid

/-- The part of a round that ends a segment for the chunk of another. -/
def turnOver (a : Transport) (s : TurnRenderer) (chunk : StreamChunk) : Option TurnRenderer :=
  if s.rotates chunk then s.finalizeSegment a else some s

/-- The part of a round that takes in the content of the chunk. -/
def takeContent (a : Transport) (s : TurnRenderer) (chunk : StreamChunk) : Option TurnRenderer :=
  if chunk.content = [] then some s
  else
    let s := { s with
      segmentUuid := if s.replyId = none then some chunk.uuid else s.segmentUuid
      segmentText := s.segmentText ++ chunk.content }
    s.flushSegment a chunk.complete

/-- The part of a round that ends the segment when the chunk completes it. -/
def settle (a : Transport) (s : TurnRenderer) (chunk : StreamChunk) : Option TurnRenderer :=
  if chunk.complete ∧ (s.replyId ≠ none ∨ s.segmentText ≠ []) then s.finalizeSegment a else some s

/-- One round of `async for chunk in chunks`. -/
def consume (a : Transport) (s : TurnRenderer) (chunk : StreamChunk) : Option TurnRenderer :=
  if chunk.type ≠ "response" then some s
  else do
    let s := { s with totalText := s.totalText ++ chunk.content }
    let s ← s.turnOver a chunk
    let s ← s.takeContent a chunk
    s.settle a chunk

/-- `run`: the state in which it returns `totalText`. -/
def run (a : Transport) (chunks : List StreamChunk) : Option TurnRenderer := do
  let s ← chunks.foldlM (consume a) {}
  s.finalizeSegment a

end TurnRenderer

/-! ### What is to be shown -/

/-- The whole text of the response. -/
def responseText (chunks : List StreamChunk) : Text :=
  (chunks.filter (·.type = "response")).flatMap (·.content)

/-- Segments that make up a text, each with the messages that show it. -/
structure Shows (limit : Int) (text : Text) (chat : List Text)
    (segments : List (Text × List Text)) : Prop where
  text : (segments.map Prod.fst).flatten = text
  chat : chat = segments.flatMap Prod.snd
  pieces : ∀ segment ∈ segments, chunkText segment.1 limit = some segment.2

/-- A text that is shown is in the chat with every character but line feeds, and once. -/
theorem Shows.solid {limit : Int} {text : Text} {chat : List Text}
    {segments : List (Text × List Text)} (h : Shows limit text chat segments) :
    solid chat.flatten = solid text := by
  obtain ⟨rfl, rfl, hpieces⟩ := h
  induction segments with
  | nil => rfl
  | cons segment segments ih =>
    rw [flatMap_cons, flatten_append, solid_append,
      (chunkText_spec (hpieces segment mem_cons_self)).2,
      ih fun g hg => hpieces g (mem_cons_of_mem _ hg), ← solid_append]
    rfl

/-! ### Where it goes wrong -/

/-- The text does not fit into one message. -/
def overflows (a : Transport) (text : Text) : Bool :=
  match chunkText text a.chunkLimit with
  | some (_ :: _ :: _) => true
  | _ => false

/-- The chunk completes a segment that does not fit into one message, and brings text while a
message of the segment is open, or brings none while there is no message. -/
def goesWrong (a : Transport) (s : TurnRenderer) (chunk : StreamChunk) : Bool :=
  let opened := s.replyId.isSome && !s.rotates chunk
  let carried := if s.rotates chunk then [] else s.segmentText
  decide (chunk.type = "response") && chunk.complete && overflows a (carried ++ chunk.content) &&
    (opened == decide (chunk.content ≠ []))

/-- The response ends before a message is opened of a segment that does not fit into one. -/
def endsWrong (a : Transport) (s : TurnRenderer) : Bool :=
  s.replyId.isNone && overflows a s.segmentText

/-- No segment goes wrong in the rest of a run. -/
def goesRight (a : Transport) (s : TurnRenderer) : List StreamChunk → Bool
  | [] => !endsWrong a s
  | chunk :: chunks =>
    !goesWrong a s chunk &&
      match s.consume a chunk with
      | some s => goesRight a s chunks
      | none => true

/-! ### The open segment -/

section

open TurnRenderer

variable {a : Transport} {s s' : TurnRenderer} {whole total : Text} {opened pieces : List Text}
variable {first : Text} {extras : List Text}

/-- Of the text `whole`, the segment that has not ended is shown by the messages `opened`, which are
the last in the chat; the first of them is the one that is edited. -/
structure Streaming (whole total : Text) (opened : List Text) (s : TurnRenderer) : Prop where
  text : (s.settled.map Prod.fst).flatten ++ s.segmentText = whole
  total : s.totalText = total
  chat : s.chat = s.sent ++ opened
  reply : (s.replyId = none ∧ opened = []) ∨
    (s.replyId = some s.sent.length ∧ s.segmentText ≠ [] ∧ opened.head? = some s.editedText)

theorem Streaming.isSome (h : Streaming whole total opened s) :
    s.replyId.isSome = decide (opened ≠ []) := by
  rcases h.reply with ⟨hr, ho⟩ | ⟨hr, -, ho⟩
  · simp [hr, ho]
  · cases opened with
    | nil => simp at ho
    | cons => simp [hr]

theorem Streaming.of_open (h : Streaming whole total (first :: extras) s) :
    s.replyId = some s.sent.length ∧ s.segmentText ≠ [] ∧ s.editedText = first := by
  rcases h.reply with ⟨-, ho⟩ | ⟨hr, ht, ho⟩
  · cases ho
  · exact ⟨hr, ht, (Option.some.inj ho).symm⟩

theorem Streaming.of_closed (h : Streaming whole total [] s) : s.replyId = none := by
  rcases h.reply with ⟨hr, -⟩ | ⟨-, -, ho⟩
  · exact hr
  · cases ho

/-- The messages of an open segment are shown anew, and nothing else is changed. -/
structure Reshown (opened : List Text) (s s' : TurnRenderer) : Prop where
  settled : s'.settled = s.settled
  segmentText : s'.segmentText = s.segmentText
  totalText : s'.totalText = s.totalText
  chat : s'.chat = s.sent ++ opened
  replyId : s'.replyId = some s.sent.length
  head : opened.head? = some s'.editedText

theorem Reshown.streaming {opened' : List Text} (h : Streaming whole total opened s)
    (hr : Reshown opened' s s') (htext : s.segmentText ≠ []) :
    Streaming whole total opened' s' := by
  have hsent : s'.sent = s.sent := by rw [sent, sent, hr.settled]
  refine ⟨?_, hr.totalText.trans h.total, hsent ▸ hr.chat, .inr ⟨hsent ▸ hr.replyId, ?_, hr.head⟩⟩
  · rw [hr.settled, hr.segmentText]
    exact h.text
  · rw [hr.segmentText]
    exact htext

/-- The edit of the message that is open, where the messages of the transport can be edited or the
message has the text already. -/
theorem Streaming.editReply (h : Streaming whole total (first :: extras) s) (text : Text)
    (hedit : a.supportsEdits = true ∨ text = first) :
    Reshown (text :: extras) s (s.editReply a s.sent.length text) := by
  obtain ⟨hreply, -, hedited⟩ := h.of_open
  rw [TurnRenderer.editReply, hedited]
  split
  · next he =>
    subst he
    exact ⟨rfl, rfl, rfl, h.chat, hreply, by rw [hedited]; rfl⟩
  · next hne =>
    have hedits := hedit.resolve_right hne
    refine ⟨?_, ?_, ?_, ?_, ?_, rfl⟩ <;> simp only [hedits, if_true]
    · rw [h.chat, set_append_right _ _ (Nat.le_refl _), Nat.sub_self]
      rfl
    · exact hreply

/-- What ends a segment opens its message and sends the first piece, or shows the first piece in
the message that is open and sends the others. -/
theorem Streaming.showFinal (extras : List Text) (h : Streaming whole total opened s)
    (hedit : opened ≠ [] → a.supportsEdits = true ∨ opened.head? = some first) :
    Reshown (first :: (opened.tail ++ if opened = [] then [] else extras)) s
      (s.showPieces a true first extras) := by
  rw [showPieces]
  cases opened with
  | nil =>
    rw [if_pos rfl]
    split
    · exact ⟨rfl, rfl, rfl, by simp [h.chat], by simp [h.chat], rfl⟩
    · next hr => exact absurd hr (by simp [h.of_closed])
  | cons head more =>
    obtain ⟨hreply, -, -⟩ := h.of_open
    rw [if_neg (cons_ne_nil _ _)]
    split
    · next hr => exact absurd hr (by simp [hreply])
    · next id hr =>
      obtain rfl := Option.some.inj (hreply.symm.trans hr)
      have hedited := h.editReply (a := a) first
        ((hedit (cons_ne_nil _ _)).imp_right fun he => (Option.some.inj he).symm)
      refine ⟨hedited.settled, hedited.segmentText, hedited.totalText, ?_, hedited.replyId,
        hedited.head⟩
      exact (congrArg (· ++ extras) hedited.chat).trans (append_assoc ..)

/-- While a segment goes on at most one of its messages is open, and one only on a transport that
can edit it. -/
def Single (a : Transport) (opened : List Text) : Prop :=
  opened = [] ∨ a.supportsEdits = true ∧ ∃ text, opened = [text]

theorem Streaming.showOn (h : Streaming whole total opened s) (htext : s.segmentText ≠ [])
    (hone : Single a opened) :
    (s.showPieces a false first extras).settled = s.settled ∧
      ∃ opened', Streaming whole total opened' (s.showPieces a false first extras) ∧
        Single a opened' := by
  rw [showPieces]
  rcases hone with rfl | ⟨hedits, text, rfl⟩
  · split
    · split
      · exact ⟨rfl, [], h, .inl rfl⟩
      · next hcan =>
        refine ⟨rfl, [first], Reshown.streaming h ?_ htext, .inr ⟨by simpa using hcan, first, rfl⟩⟩
        exact ⟨rfl, rfl, rfl, by simp [h.chat], by simp [h.chat], rfl⟩
    · next hr => exact absurd hr (by simp [h.of_closed])
  · split
    · next hr => exact absurd hr (by simp [h.of_open.1])
    · next id hr =>
      obtain rfl := Option.some.inj (h.of_open.1.symm.trans hr)
      rw [Bool.not_false, if_pos rfl]
      split
      · exact ⟨rfl, [text], h, .inr ⟨hedits, text, rfl⟩⟩
      · have hr := h.editReply (a := a) first (.inl hedits)
        exact ⟨hr.settled, [first], hr.streaming h htext, .inr ⟨hedits, first, rfl⟩⟩

theorem Streaming.asked (h : Streaming whole total opened s) (readings : Nat) (lastFlush : ℚ) :
    Streaming whole total opened { s with readings := readings, lastFlush := lastFlush } :=
  ⟨h.text, h.total, h.chat, h.reply⟩

theorem Streaming.flush (h : Streaming whole total opened s) (hone : Single a opened)
    (hf : s.flushSegment a false = some s') :
    s'.settled = s.settled ∧ ∃ opened', Streaming whole total opened' s' ∧ Single a opened' := by
  rw [flushSegment] at hf
  split at hf
  · cases hf
    exact ⟨rfl, opened, h, hone⟩
  next htext =>
  dsimp only at hf
  split at hf
  · cases hf
    exact ⟨rfl, opened, h.asked _ _, hone⟩
  · split at hf
    · cases hf
      exact (h.asked _ _).showOn htext hone
    · cases hf

theorem Streaming.flushFinal (h : Streaming whole total opened s) (htext : s.segmentText ≠ [])
    (hedit : opened ≠ [] → a.supportsEdits = true ∨
      ∀ pieces, chunkText s.segmentText a.chunkLimit = some pieces → opened.head? = pieces.head?)
    (hf : s.flushSegment a true = some s') :
    ∃ first extras, chunkText s.segmentText a.chunkLimit = some (first :: extras) ∧
      Reshown (first :: (opened.tail ++ if opened = [] then [] else extras)) s s' := by
  rw [flushSegment, if_neg htext] at hf
  simp only [Bool.not_true, Bool.false_and, Bool.false_eq_true, if_false] at hf
  split at hf
  · next first extras hp =>
    cases hf
    have hr := (h.asked (s.readings + 1) (a.monotonic s.readings)).showFinal (a := a)
      extras fun ho => (hedit ho).imp_right fun he => he _ hp
    exact ⟨first, extras, hp, hr.settled, hr.segmentText, hr.totalText, hr.chat, hr.replyId,
      hr.head⟩
  · cases hf

/-- The messages of a segment, when it ends with these open. -/
def shownAtEnd (pieces opened : List Text) : List Text :=
  pieces.take 1 ++ (opened.tail ++ if opened = [] then [] else pieces.tail)

theorem Streaming.finalize (h : Streaming whole total opened s) (htext : s.segmentText ≠ [])
    (hedit : opened ≠ [] → a.supportsEdits = true ∨
      ∀ pieces, chunkText s.segmentText a.chunkLimit = some pieces → opened.head? = pieces.head?)
    (hf : s.finalizeSegment a = some s') :
    ∃ pieces, chunkText s.segmentText a.chunkLimit = some pieces ∧
      Streaming whole total [] s' ∧ s'.segmentText = [] ∧
      s'.settled = s.settled ++ [(s.segmentText, shownAtEnd pieces opened)] := by
  obtain ⟨s₁, hs₁, rfl⟩ := map_eq_some_iff.mp hf
  obtain ⟨first, extras, hp, hr⟩ := h.flushFinal htext hedit hs₁
  have hsent : s₁.sent = s.sent := by rw [sent, sent, hr.settled]
  have hnew : s₁.segmentText ≠ [] := hr.segmentText ▸ htext
  have hdrop : s₁.chat.drop s₁.sent.length = shownAtEnd (first :: extras) opened := by
    rw [hr.chat, hsent, drop_left]
    rfl
  refine ⟨_, hp, ⟨?_, hr.totalText.trans h.total, ?_, .inl ⟨rfl, rfl⟩⟩, rfl, ?_⟩
  · rw [if_neg hnew, map_append, flatten_append, append_nil, hr.settled, hr.segmentText]
    simpa using h.text
  · rw [if_neg hnew, hdrop, hr.chat]
    simp [sent, hr.settled, shownAtEnd]
  · rw [if_neg hnew, hdrop, hr.settled, hr.segmentText]

/-! ### Right and wrong ends -/

/-- Every segment that has ended is shown by its pieces. -/
def Right (a : Transport) (s : TurnRenderer) : Prop :=
  ∀ segment ∈ s.settled, chunkText segment.1 a.chunkLimit = some segment.2

theorem right_append {text : Text} {shown : List Text}
    (hs : s'.settled = s.settled ++ [(text, shown)])
    (hp : chunkText text a.chunkLimit = some pieces) : Right a s' ↔ Right a s ∧ shown = pieces := by
  simp only [Right, hs, forall_mem_append, forall_mem_singleton, hp, Option.some.injEq]
  exact and_congr_right fun _ => eq_comm

theorem right_congr (hs : s'.settled = s.settled) : Right a s' ↔ Right a s := by
  rw [Right, hs, Right]

theorem overflows_eq {text : Text} (hp : chunkText text a.chunkLimit = some (first :: extras)) :
    overflows a text = decide (extras ≠ []) := by
  rw [overflows, hp]
  cases extras <;> simp

theorem overflows_nil : overflows a [] = false := by
  rw [overflows]
  split
  · next hp => cases chunkText_nil hp
  · rfl

/-- Without an open message all pieces but the first are lost. -/
theorem shownAtEnd_closed : shownAtEnd (first :: extras) [] = first :: extras ↔ extras = [] := by
  simp [shownAtEnd, eq_comm]

theorem shownAtEnd_single (text : Text) : shownAtEnd pieces [text] = pieces := by
  cases pieces <;> simp [shownAtEnd]

/-- Where they were sent already all pieces but the first come twice. -/
theorem shownAtEnd_again :
    shownAtEnd (first :: extras) (first :: extras) = first :: extras ↔ extras = [] := by
  simp [shownAtEnd]

/-! ### The end of a segment -/

/-- The end of a segment of which at most one message is open. -/
theorem Streaming.settled_right (h : Streaming whole total opened s) (hone : Single a opened)
    (hf : s.finalizeSegment a = some s') (htext : s.segmentText ≠ []) :
    Streaming whole total [] s' ∧ s'.segmentText = [] ∧
      (Right a s' ↔ Right a s ∧ (opened = [] → overflows a s.segmentText = false)) := by
  obtain ⟨pieces, hp, hs, hempty, hsettled⟩ := h.finalize htext
    (fun ho => .inl ((hone.resolve_left ho).1)) hf
  refine ⟨hs, hempty, (right_append hsettled hp).trans (and_congr_right fun _ => ?_)⟩
  cases pieces with
  | nil => exact absurd rfl (chunkText_ne_nil hp htext)
  | cons first extras =>
    rcases hone with rfl | ⟨-, text, rfl⟩
    · rw [shownAtEnd_closed, overflows_eq hp]
      simp
    · simp [shownAtEnd_single]

/-- The end of a segment without text, and so without a message, changes nothing. -/
theorem Streaming.finalize_nil (h : Streaming whole total opened s) (htext : s.segmentText = [])
    (hf : s.finalizeSegment a = some s') :
    Streaming whole total [] s' ∧ s'.segmentText = [] ∧ s'.settled = s.settled := by
  obtain ⟨s₁, hs₁, rfl⟩ := map_eq_some_iff.mp hf
  rw [flushSegment, if_pos htext] at hs₁
  cases hs₁
  have hclosed : opened = [] := by
    rcases h.reply with ⟨-, ho⟩ | ⟨-, hne, -⟩
    · exact ho
    · exact absurd htext hne
  subst hclosed
  refine ⟨⟨?_, h.total, ?_, .inl ⟨rfl, rfl⟩⟩, rfl, if_pos htext⟩
  · have := h.text
    rw [htext] at this
    rw [if_pos htext]
    exact this
  · rw [sent, if_pos htext]
    exact h.chat

/-! ### A round -/

/-- The chunk ends the segment in a way that loses pieces, or sends them twice. -/
def endsBadly (a : Transport) (opened : Bool) (text : Text) (chunk : StreamChunk) : Bool :=
  chunk.complete && overflows a (text ++ chunk.content) &&
    (opened == decide (chunk.content ≠ []))

variable {chunk : StreamChunk}

section

variable (h : Streaming whole total opened s)
include h

theorem Streaming.rotate (hone : Single a opened) (hf : s.turnOver a chunk = some s') :
    (Right a s' ↔ Right a s) ∧
      s'.segmentText = (if s.rotates chunk then [] else s.segmentText) ∧
      ∃ opened', Streaming whole total opened' s' ∧ Single a opened' ∧
        decide (opened' ≠ []) = (s.replyId.isSome && !s.rotates chunk) := by
  rw [turnOver] at hf
  split at hf
  · next hrot =>
    have hopen : opened ≠ [] := by
      have hsome : s.replyId.isSome = true := by
        simp only [rotates, Bool.and_eq_true] at hrot
        exact hrot.1.1
      exact of_decide_eq_true (h.isSome ▸ hsome)
    obtain ⟨-, hopened⟩ | ⟨-, htext, -⟩ := h.reply
    · exact absurd hopened hopen
    obtain ⟨hs, hempty, hright⟩ := h.settled_right hone hf htext
    refine ⟨hright.trans (and_iff_left fun ho => absurd ho hopen), ?_, [], hs, .inl rfl, ?_⟩
    · rw [hempty, if_pos hrot]
    · simp [hrot]
  · next hrot =>
    cases hf
    refine ⟨Iff.rfl, (if_neg hrot).symm, opened, h, hone, ?_⟩
    rw [h.isSome, Bool.eq_false_iff.mpr hrot, Bool.not_false, Bool.and_true]

theorem Streaming.settleEmpty (hone : Single a opened)
    (hcontent : chunk.content = []) (hf : s.settle a chunk = some s') :
    (Right a s' ↔ Right a s ∧ endsBadly a (decide (opened ≠ [])) s.segmentText chunk = false) ∧
      ∃ opened', Streaming whole total opened' s' ∧ Single a opened' := by
  rw [settle] at hf
  split at hf
  · next hcond =>
    have htext : s.segmentText ≠ [] := by
      rcases h.reply with ⟨hr, -⟩ | ⟨-, htext, -⟩
      · exact hcond.2.resolve_left (not_not.mpr hr)
      · exact htext
    obtain ⟨hs, -, hright⟩ := h.settled_right hone hf htext
    refine ⟨hright.trans (and_congr_right fun _ => ?_), [], hs, .inl rfl⟩
    rw [endsBadly, hcond.1, hcontent, append_nil]
    by_cases ho : opened = [] <;> simp [ho]
  · next hcond =>
    cases hf
    refine ⟨(and_iff_left ?_).symm, opened, h, hone⟩
    rw [endsBadly, hcontent, append_nil]
    cases hcomplete : chunk.complete with
    | false => rfl
    | true =>
      have htext : s.segmentText = [] := by
        by_contra hne
        exact hcond ⟨hcomplete, .inr hne⟩
      rw [htext, overflows_nil]
      rfl

/-- A chunk with text that completes its segment: the flush shows the segment whole or opens its
message, and the end of the segment sends the rest, or again. -/
theorem Streaming.settleFinal {s₁ : TurnRenderer} (hone : Single a opened)
    (htext : s.segmentText ≠ []) (hcomplete : chunk.complete = true)
    (hflush : s.flushSegment a true = some s₁) (hf : s₁.settle a chunk = some s') :
    (Right a s' ↔ Right a s ∧ (opened ≠ [] → overflows a s.segmentText = false)) ∧
      Streaming whole total [] s' := by
  obtain ⟨first, extras, hp, hr⟩ := h.flushFinal htext (fun ho => .inl (hone.resolve_left ho).1)
    hflush
  have hs₁ := hr.streaming h htext
  have htext₁ : s₁.segmentText ≠ [] := hr.segmentText ▸ htext
  rw [settle, if_pos ⟨hcomplete, .inr htext₁⟩] at hf
  obtain ⟨pieces, hp', hs, -, hsettled⟩ := hs₁.finalize htext₁ (fun _ => .inr fun pieces he => by
    rw [hr.segmentText, hp] at he
    rw [← Option.some.inj he]
    rfl) hf
  rw [hr.segmentText, hp] at hp'
  cases hp'
  rw [hr.settled, hr.segmentText] at hsettled
  refine ⟨(right_append hsettled hp).trans (and_congr_right fun _ => ?_), hs⟩
  rcases hone with rfl | ⟨-, text, rfl⟩
  · rw [if_pos rfl, tail_nil, append_nil, shownAtEnd_single]
    simp
  · rw [if_neg (cons_ne_nil _ _), tail_cons, nil_append, shownAtEnd_again, overflows_eq hp]
    simp

theorem Streaming.takeAndSettle {s₁ : TurnRenderer} (hone : Single a opened)
    (ht : s.takeContent a chunk = some s₁) (hf : s₁.settle a chunk = some s') :
    (Right a s' ↔ Right a s ∧ endsBadly a (decide (opened ≠ [])) s.segmentText chunk = false) ∧
      ∃ opened', Streaming (whole ++ chunk.content) total opened' s' ∧ Single a opened' := by
  rw [takeContent] at ht
  split at ht
  · next hcontent =>
    cases ht
    rw [hcontent, append_nil]
    exact h.settleEmpty hone hcontent hf
  · next hcontent =>
    have htext : s.segmentText ++ chunk.content ≠ [] :=
      append_ne_nil_of_right_ne_nil _ hcontent
    have hgrown : Streaming (whole ++ chunk.content) total opened
        { s with
          segmentUuid := if s.replyId = none then some chunk.uuid else s.segmentUuid
          segmentText := s.segmentText ++ chunk.content } := by
      refine ⟨?_, h.total, h.chat, h.reply.imp_right fun hr => ⟨hr.1, htext, hr.2.2⟩⟩
      rw [← h.text]
      exact (append_assoc ..).symm
    cases hcomplete : chunk.complete with
    | false =>
      rw [hcomplete] at ht
      obtain ⟨hsettled, opened', hs, hone'⟩ := hgrown.flush hone ht
      rw [settle, if_neg (by simp [hcomplete])] at hf
      cases hf
      refine ⟨(right_congr hsettled).trans (and_iff_left ?_).symm, opened', hs, hone'⟩
      rw [endsBadly, hcomplete]
      rfl
    | true =>
      rw [hcomplete] at ht
      obtain ⟨hright, hs⟩ := hgrown.settleFinal hone htext hcomplete ht hf
      refine ⟨hright.trans (and_congr_right fun _ => ?_), [], hs, .inl rfl⟩
      simp only [endsBadly, hcomplete, Bool.true_and, hcontent, ne_eq, not_false_eq_true,
        decide_true]
      by_cases ho : opened = [] <;> simp [ho]

end

/-- **What a round keeps**, and when it ends a segment right. -/
theorem consume_spec (h : Streaming whole whole opened s) (hone : Single a opened)
    (hf : s.consume a chunk = some s') :
    (Right a s' ↔ Right a s ∧ goesWrong a s chunk = false) ∧
      ∃ opened', Streaming (whole ++ responseText [chunk]) (whole ++ responseText [chunk])
        opened' s' ∧ Single a opened' := by
  rw [consume] at hf
  by_cases htype : chunk.type = "response"
  · rw [if_neg (not_not.mpr htype)] at hf
    have hwhole : responseText [chunk] = chunk.content := by simp [responseText, htype]
    have hstart : Streaming whole (whole ++ chunk.content) opened
        { s with totalText := s.totalText ++ chunk.content } :=
      ⟨h.text, by rw [← h.total], h.chat, h.reply⟩
    obtain ⟨s₁, hs₁, hf⟩ := bind_eq_some_iff.mp hf
    obtain ⟨s₂, hs₂, hf⟩ := bind_eq_some_iff.mp hf
    obtain ⟨hright₁, htext₁, opened₁, hstreaming₁, hone₁, hopened₁⟩ := hstart.rotate hone hs₁
    obtain ⟨hright, opened', hs, hone'⟩ := hstreaming₁.takeAndSettle hone₁ hs₂ hf
    rw [hwhole]
    refine ⟨hright.trans (and_congr hright₁ ?_), opened', hs, hone'⟩
    rw [hopened₁, htext₁, goesWrong, endsBadly, htype, decide_eq_true rfl, Bool.true_and]
    rfl
  · rw [if_pos htype] at hf
    cases hf
    have hwhole : responseText [chunk] = [] := by simp [responseText, htype]
    rw [hwhole, append_nil]
    refine ⟨(and_iff_left ?_).symm, opened, h, hone⟩
    simp [goesWrong, htype]

/-! ### A run -/

theorem responseText_cons (chunk : StreamChunk) (chunks : List StreamChunk) :
    responseText (chunk :: chunks) = responseText [chunk] ++ responseText chunks := by
  by_cases htype : chunk.type = "response" <;> simp [responseText, htype]

theorem run_from (chunks : List StreamChunk) (h : Streaming whole whole opened s)
    (hone : Single a opened)
    (hf : (chunks.foldlM (consume a) s).bind (finalizeSegment a) = some s') :
    (Right a s' ↔ Right a s ∧ goesRight a s chunks = true) ∧ s'.segmentText = [] ∧
      Streaming (whole ++ responseText chunks) (whole ++ responseText chunks) [] s' := by
  induction chunks generalizing s whole opened with
  | nil =>
    have hf' : s.finalizeSegment a = some s' := hf
    rw [show responseText [] = [] from rfl, append_nil, goesRight, endsWrong]
    by_cases htext : s.segmentText = []
    · obtain ⟨hs, hempty, hsettled⟩ := h.finalize_nil htext hf'
      refine ⟨(right_congr hsettled).trans (and_iff_left ?_).symm, hempty, hs⟩
      rw [htext, overflows_nil, Bool.and_false]
      rfl
    · obtain ⟨hs, hempty, hright⟩ := h.settled_right hone hf' htext
      refine ⟨hright.trans (and_congr_right fun _ => ?_), hempty, hs⟩
      rw [← Option.not_isSome, h.isSome]
      by_cases ho : opened = [] <;> simp [ho]
  | cons chunk chunks ih =>
    rw [foldlM_cons] at hf
    cases hc : s.consume a chunk with
    | none => simp [hc] at hf
    | some s₁ =>
      obtain ⟨hright₁, opened₁, hs₁, hone₁⟩ := consume_spec h hone hc
      obtain ⟨hright, hempty, hs⟩ := ih hs₁ hone₁ (by simpa [hc] using hf)
      rw [responseText_cons, ← append_assoc]
      refine ⟨hright.trans ?_, hempty, hs⟩
      rw [hright₁, goesRight, hc, Bool.and_eq_true, Bool.not_eq_true', and_assoc]

/-- **When the whole reply reaches the chat once.**  A run shows the whole response, each segment
by its pieces, if and only if no segment too long for one message is completed by a chunk with text
while its message is open, or by a chunk without text, or by the end of the stream, before one is
open. -/
theorem reply_shown_iff (a : Transport) (chunks : List StreamChunk) (s : TurnRenderer)
    (h : TurnRenderer.run a chunks = some s) :
    s.totalText = responseText chunks ∧
      (Shows a.chunkLimit (responseText chunks) s.chat s.settled ↔
        goesRight a {} chunks = true) := by
  have hstart : Streaming [] [] [] {} := ⟨rfl, rfl, rfl, .inl ⟨rfl, rfl⟩⟩
  obtain ⟨hright, hempty, hs⟩ := run_from chunks hstart (.inl rfl) h
  have htrue : Right a {} := fun _ hm => absurd hm not_mem_nil
  rw [nil_append] at hs
  refine ⟨hs.total, Iff.trans ⟨fun hshows => hshows.pieces, fun hr => ⟨?_, ?_, hr⟩⟩
    (hright.trans (and_iff_right htrue))⟩
  · have := hs.text
    rwa [hempty, append_nil] at this
  · exact hs.chat.trans (append_nil _)

end

/-! ### Three replies -/

/-- A transport that can edit, without a throttle; two characters fit into a message. -/
def editing : Transport := ⟨true, 2, 0, fun reading => reading⟩

/-- The same, without edits. -/
def finalOnly : Transport := ⟨false, 2, 0, fun reading => reading⟩

def part (content : String) (complete : Bool) : StreamChunk :=
  ⟨"response", content.toList, "u", complete⟩

theorem reply_shown_three :
    ∃ s, TurnRenderer.run editing [part "a" false, part "bc" false, part "" true] = some s ∧
      Shows 2 "abc".toList s.chat s.settled := by
  obtain ⟨s, hs⟩ := isSome_iff_exists.mp (show (TurnRenderer.run editing
    [part "a" false, part "bc" false, part "" true]).isSome from by decide +kernel)
  exact ⟨s, hs, ((reply_shown_iff editing _ s hs).2).mpr (by decide +kernel)⟩

/-- **A reply is cut, and another is repeated.**  Without edits the end of the stream sends the
first piece only; with edits the completing chunk sends the last piece twice. -/
theorem reply_cut_and_repeated :
    (∃ s, TurnRenderer.run finalOnly [part "ab" false, part "c" false] = some s ∧
      ¬ ∃ segments, Shows 2 "abc".toList s.chat segments) ∧
    ∃ s, TurnRenderer.run editing [part "ab" false, part "c" true] = some s ∧
      ¬ ∃ segments, Shows 2 "abc".toList s.chat segments := by
  have hcut : (TurnRenderer.run finalOnly [part "ab" false, part "c" false]).map (·.chat) =
      some ["ab".toList] := by decide +kernel
  have hrepeated : (TurnRenderer.run editing [part "ab" false, part "c" true]).map (·.chat) =
      some ["ab".toList, "c".toList, "c".toList] := by decide +kernel
  obtain ⟨s, hs, hchat⟩ := map_eq_some_iff.mp hcut
  obtain ⟨s', hs', hchat'⟩ := map_eq_some_iff.mp hrepeated
  refine ⟨⟨s, hs, ?_⟩, s', hs', ?_⟩
  · rintro ⟨segments, hshows⟩
    have := hshows.solid
    rw [hchat] at this
    exact absurd this (by decide)
  · rintro ⟨segments, hshows⟩
    have := hshows.solid
    rw [hchat'] at this
    exact absurd this (by decide)

end KolegaCode.Gateway
