import Mathlib.Logic.Relation
import KolegaCode.Hashline.Hash
import KolegaCode.Lib.Decimal
import KolegaCode.Lib.JsonText
import KolegaCode.Lib.Utf8

/-!
# Lsp — the frames of a language server

`_process_buffer` takes frames off the front of what was read.  The length in a header is the
server's: where it is negative, the next frame starts inside the header, and where the header has
no more characters than that, `_process_buffer` never returns, or what it leaves depends on how much
was read (`Careful` streams have no such header).

A message on which `_dispatch` raises ends the reading; this is left out.
-/

namespace KolegaCode.Lsp.Framing

open List Option
open Decimal (scanSign ofDigits)
open Hashline (isSpace)

abbrev Bytes := List UInt8

/-- `b"\r\n\r\n"`. -/
def blankLine : Bytes := [13, 10, 13, 10]

/-- `buffer.find(b"\r\n\r\n")`. -/
def headerEnd : Bytes → Option Nat
  | [] => none
  | b :: bs => if blankLine.isPrefixOf (b :: bs) then some 0 else (headerEnd bs).map (· + 1)

/-- `data.decode("utf-8", errors="replace")`, `n` bytes behind the start of `data`, with a
replacement for each byte that starts no character; Python has one for a whole cut character. -/
def decodeReplace : Nat → Bytes → List Char
  | _, [] => []
  | n + 1, _ :: rest => decodeReplace n rest
  | 0, b :: rest =>
    match Utf8.decodeChar? (b :: rest) with
    | some c => c :: decodeReplace (c.utf8Size - 1) rest
    | none => '\uFFFD' :: decodeReplace 0 rest

/-- `int(text)` of a stripped text; `none` is a `ValueError`. -/
def int? (text : List Char) : Option Int :=
  let (negative, ds) := scanSign text
  let groups := ds.splitOnP (· = '_')
  if (∀ g ∈ groups, g ≠ [] ∧ g.all Text.isDecimal) ∧ groups.flatten.length ≤ 4300 then
    some (if negative then -(ofDigits groups.flatten : Int) else ofDigits groups.flatten)
  else none

/-- `header.split("\r\n")`, where `line` is what was read of the current line. -/
def headerLines (line : List Char) : List Char → List (List Char)
  | [] => [line]
  | '\r' :: '\n' :: cs => line :: headerLines [] cs
  | c :: cs => headerLines (line ++ [c]) cs

/-- `_parse_content_length`.  No letter outside ASCII becomes one of the name's by `lower`. -/
def parseContentLength (header : List Char) : Option Int :=
  ((headerLines [] header).find? fun line =>
    (line.take 15).map Char.toLower = "content-length:".toList).bind
      fun line => int? (Text.strip isSpace (line.drop 15))

/-- The length the header in front of the blank line at `n` announces. -/
def announced (buffer : Bytes) (n : Nat) : Option Int :=
  parseContentLength (decodeReplace 0 (buffer.take n))

/-- The index `i` of a slice. -/
def sliceIndex (length : Nat) (i : Int) : Nat := if i < 0 then (length + i).toNat else i.toNat

/-- One pass of `_process_buffer`: the body, where the header announces a length, and what remains.
With `none` the buffer is kept until there is more. -/
def nextFrame (buffer : Bytes) : Option (Option Bytes × Bytes) :=
  (headerEnd buffer).bind fun n =>
    match announced buffer n with
    | none => some (none, buffer.drop (n + 4))
    | some length =>
      if buffer.length < n + 4 + length then none
      else
        let stop := sliceIndex buffer.length (n + 4 + length)
        some (some ((buffer.take stop).drop (n + 4)), buffer.drop stop)

/-- `json.loads(body.decode("utf-8"))`; `none` is a malformed message. -/
def message (body : Bytes) : Option Json := (Utf8.decode body).bind Json.loads

/-- `_process_buffer` returns, with the messages it dispatches and the bytes it keeps. -/
inductive Processes : Bytes → List Json → Bytes → Prop
  | wait {buffer : Bytes} (h : nextFrame buffer = none) : Processes buffer [] buffer
  | next {buffer remaining rest : Bytes} {body : Option Bytes} {messages : List Json}
      (h : nextFrame buffer = some (body, remaining)) (hr : Processes remaining messages rest) :
      Processes buffer ((body.bind message).toList ++ messages) rest

/-- `_read_loop` from a buffer, over the chunks that are read. -/
inductive Reads : Bytes → List Bytes → List Json → Bytes → Prop
  | eof {buffer : Bytes} : Reads buffer [] [] buffer
  | chunk {buffer c rest rest' : Bytes} {chunks : List Bytes} {messages messages' : List Json}
      (hp : Processes (buffer ++ c) messages rest) (h : Reads rest chunks messages' rest') :
      Reads buffer (c :: chunks) (messages ++ messages') rest'

/-- The header at the front, if there is one, does not take back all of what it takes. -/
def Advances (buffer : Bytes) : Prop :=
  ∀ n length, headerEnd buffer = some n → announced buffer n = some length → 0 < n + 4 + length

def Step (buffer remaining : Bytes) : Prop := ∃ body, nextFrame buffer = some (body, remaining)

/-- Every header that is reached is one. -/
def Careful (stream : Bytes) : Prop :=
  ∀ buffer, Relation.ReflTransGen Step stream buffer → Advances buffer

variable {b c r r' : Bytes} {ms ms' : List Json} {n : Nat} {x : Option Bytes}

/-! ### More bytes behind a buffer -/

theorem headerEnd_le (h : headerEnd b = some n) : n + 4 ≤ b.length := by
  induction b generalizing n with
  | nil => cases h
  | cons d b ih =>
    rw [headerEnd] at h
    split at h
    · next hp =>
      cases h
      exact ( isPrefixOf_iff_prefix.mp hp).length_le
    · obtain ⟨m, hm, rfl⟩ := map_eq_some_iff.mp h
      have := ih hm
      rw [length_cons]
      omega

theorem headerEnd_append (h : headerEnd b = some n) (c : Bytes) : headerEnd (b ++ c) = some n := by
  induction b generalizing n with
  | nil => cases h
  | cons d b ih =>
    have hle := headerEnd_le h
    rw [cons_append, headerEnd]
    rw [headerEnd] at h
    have hiff : blankLine.isPrefixOf (d :: (b ++ c)) = blankLine.isPrefixOf (d :: b) := by
      rw [Bool.eq_iff_iff, isPrefixOf_iff_prefix, isPrefixOf_iff_prefix, ← cons_append]
      refine ⟨fun hp => prefix_of_prefix_length_le hp (prefix_append _ _) ?_,
        fun hp => hp.trans (prefix_append _ _)⟩
      exact (show 4 ≤ n + 4 by omega).trans hle
    rw [hiff]
    split at h
    · next hp => rw [if_pos hp, h]
    · next hp =>
      obtain ⟨m, hm, rfl⟩ := map_eq_some_iff.mp h
      rw [if_neg hp, ih hm]
      rfl

theorem announced_append (h : headerEnd b = some n) (c : Bytes) :
    announced (b ++ c) n = announced b n := by
  rw [announced, take_append_of_le_length (by have := headerEnd_le h; omega), announced]

theorem Advances.of_append (h : Advances (b ++ c)) : Advances b := fun n _ hn hl =>
  h n _ (headerEnd_append hn c) (announced_append hn c ▸ hl)

/-- A frame that is taken off is taken off whatever follows, and something goes with it. -/
theorem nextFrame_append (ha : Advances b) (h : nextFrame b = some (x, r)) (c : Bytes) :
    nextFrame (b ++ c) = some (x, r ++ c) ∧ r.length < b.length := by
  obtain ⟨n, hn, h⟩ := bind_eq_some_iff.mp h
  have hle := headerEnd_le hn
  rw [nextFrame, headerEnd_append hn, bind_some, announced_append hn]
  cases hl : announced b n with
  | none =>
    rw [hl] at h
    cases h
    rw [drop_append_of_le_length hle, length_drop]
    exact ⟨rfl, by omega⟩
  | some length =>
    have hpos := ha n length hn hl
    simp only [hl, sliceIndex, if_neg hpos.le.not_gt] at h ⊢
    split at h
    · cases h
    · next hlt =>
      cases h
      have hstop : (n + 4 + length).toNat ≤ b.length := by omega
      rw [if_neg (by rw [length_append]; omega), take_append_of_le_length hstop,
        drop_append_of_le_length hstop, length_drop]
      exact ⟨rfl, by omega⟩

/-! ### Careful streams -/

theorem Careful.advances (h : Careful b) : Advances b := h b .refl

theorem Careful.next (h : Careful b) (hn : nextFrame b = some (x, r)) : Careful r :=
  fun t ht => h t (.head ⟨x, hn⟩ ht)

theorem Careful.of_append (h : Careful (b ++ c)) : Careful b := by
  intro t ht
  refine Advances.of_append (h (t ++ c) ?_)
  induction ht with
  | refl => exact .refl
  | tail _ hs ih =>
    obtain ⟨x, hx⟩ := hs
    exact ih.tail ⟨x, (nextFrame_append (Advances.of_append (h _ ih)) hx c).1⟩

/-- **`_process_buffer` returns.** -/
theorem Careful.processes (h : Careful b) : ∃ ms r, Processes b ms r := by
  induction hlen : b.length using Nat.strong_induction_on generalizing b with
  | _ k ih =>
    cases hn : nextFrame b with
    | none => exact ⟨[], b, .wait hn⟩
    | some p =>
      have hlt := (nextFrame_append h.advances hn []).2
      obtain ⟨ms, r, hp⟩ := ih p.2.length (hlen ▸ hlt) (h.next hn) rfl
      exact ⟨_, r, .next hn hp⟩

theorem Processes.unique (h : Processes b ms r) (h' : Processes b ms' r') : ms' = ms ∧ r' = r := by
  induction h generalizing ms' r' with
  | wait hn =>
    cases h' with
    | wait => exact ⟨rfl, rfl⟩
    | next hn' => cases hn.symm.trans hn'
  | next hn _ ih =>
    cases h' with
    | wait hn' => cases hn.symm.trans hn'
    | next hn' hr' =>
      cases hn.symm.trans hn'
      obtain ⟨rfl, rfl⟩ := ih hr'
      exact ⟨rfl, rfl⟩

/-- What is kept is processed with what is read next as if it had all been read at once. -/
theorem Processes.append (h : Processes b ms r) (hc : Careful (b ++ c)) :
    Careful (r ++ c) ∧
      ∀ {ms' r'}, Processes (r ++ c) ms' r' → Processes (b ++ c) (ms ++ ms') r' := by
  induction h with
  | wait => exact ⟨hc, id⟩
  | next hn _ ih =>
    have hn' := (nextFrame_append hc.of_append.advances hn c).1
    obtain ⟨hr, hp⟩ := ih (hc.next hn')
    exact ⟨hr, fun h => by rw [append_assoc]; exact .next hn' (hp h)⟩

theorem Processes.waits (h : Processes b ms r) : nextFrame r = none := by
  induction h with
  | wait hn => exact hn
  | next _ _ ih => exact ih

theorem Processes.not_same (h : Processes b ms r) : nextFrame b ≠ some (x, b) := by
  induction h with
  | wait hn => exact fun h => nomatch hn.symm.trans h
  | next hn _ ih =>
    intro h
    cases hn.symm.trans h
    exact ih hn

/-- **The cutting makes no difference.** -/
theorem reads_iff {chunks : List Bytes} (hb : nextFrame b = none)
    (hc : Careful (b ++ chunks.flatten)) :
    Reads b chunks ms r ↔ Processes (b ++ chunks.flatten) ms r := by
  induction chunks generalizing b ms r with
  | nil =>
    rw [flatten_nil, append_nil]
    constructor
    · intro h
      cases h with
      | eof => exact .wait hb
    · intro h
      obtain ⟨rfl, rfl⟩ := (Processes.wait hb).unique h
      exact .eof
  | cons c chunks ih =>
    rw [flatten_cons, ← append_assoc] at hc ⊢
    constructor
    · intro h
      cases h with
      | chunk hp h => exact (hp.append hc).2 ((ih hp.waits (hp.append hc).1).mp h)
    · intro h
      obtain ⟨m₁, r₁, hp⟩ := hc.of_append.processes
      have hc₁ := (hp.append hc).1
      obtain ⟨m₂, r₂, hp₂⟩ := hc₁.processes
      obtain ⟨rfl, rfl⟩ := ((hp.append hc).2 hp₂).unique h
      exact .chunk hp ((ih hp.waits hc₁).mpr hp₂)

/-! ### Well-formed frames -/

/-- A frame whose header holds no blank line and announces the length of its body. -/
structure Frame where
  header : Bytes
  body : Bytes
  ends : headerEnd (header ++ blankLine) = some header.length
  length : announced header header.length = some (body.length : Int)

example : Frame where
  header := Utf8.encode "Content-Type: x\r\nContent-Length: 2".toList
  body := Utf8.encode "{}".toList
  ends := by decide +kernel
  length := by decide +kernel

def Frame.bytes (f : Frame) : Bytes := f.header ++ blankLine ++ f.body

theorem Frame.announced_append (f : Frame) (c : Bytes) :
    announced (f.header ++ c) f.header.length = some (f.body.length : Int) := by
  rw [← f.length, announced, announced, take_left, take_length]

theorem Frame.headerEnd_append (f : Frame) (c : Bytes) :
    headerEnd (f.bytes ++ c) = some f.header.length := by
  rw [bytes, append_assoc, Framing.headerEnd_append f.ends]

theorem Frame.advances (f : Frame) (c : Bytes) : Advances (f.bytes ++ c) := by
  intro n length hn hl
  cases (f.headerEnd_append c).symm.trans hn
  rw [bytes, append_assoc, append_assoc, f.announced_append] at hl
  cases hl
  omega

theorem Frame.nextFrame_append (f : Frame) (c : Bytes) :
    nextFrame (f.bytes ++ c) = some (some f.body, c) := by
  have hlength : (f.header ++ blankLine).length = f.header.length + 4 := length_append
  rw [nextFrame, f.headerEnd_append, bind_some, bytes, append_assoc, append_assoc,
    f.announced_append, ← append_assoc]
  simp only [sliceIndex]
  rw [if_neg (by rw [length_append, hlength, length_append]; omega), if_neg (by omega)]
  have hstop : ((f.header.length : Int) + 4 + f.body.length).toNat =
      (f.header ++ blankLine ++ f.body).length := by
    rw [length_append, hlength]
    omega
  rw [hstop, ← append_assoc, take_left, drop_left, ← hlength, drop_left]

theorem frames_processes (frames : List Frame) : Careful (frames.flatMap Frame.bytes) ∧
    Processes (frames.flatMap Frame.bytes) (frames.filterMap (message ·.body)) [] := by
  induction frames with
  | nil =>
    refine ⟨fun t ht => ?_, .wait rfl⟩
    obtain rfl | ⟨r, ⟨x, hx⟩, -⟩ := ht.cases_head
    · exact nofun
    · cases hx
  | cons f frames ih =>
    have hn := f.nextFrame_append (frames.flatMap Frame.bytes)
    rw [flatMap_cons]
    constructor
    · intro t ht
      obtain rfl | ⟨r, ⟨x, hx⟩, hr⟩ := ht.cases_head
      · exact f.advances _
      · cases hn.symm.trans hx
        exact ih.1 t hr
    · have hp := Processes.next hn ih.2
      rw [filterMap_cons]
      cases hm : message f.body <;> simpa [hm] using hp

end KolegaCode.Lsp.Framing
