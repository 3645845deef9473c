import KolegaCode.Presentation.Projection
import KolegaCode.Presentation.Fold

/-!
# Presentation — the retained terminal text

Kept in chunks or in one text, the terminal is the last `TERMINAL_BUFFER_CHARS` characters of what
was written to it.
-/

namespace KolegaCode.Presentation

open List
open Projection (TerminalBuffer PresentationState dropTerminalPrefix compactTerminal)
open Fold (WebState)

/-- The count is right, and no more than the first chunk is dropped. -/
structure Sound (b : TerminalBuffer) : Prop where
  chars : b.chars = b.text.toList.length
  offset : b.offset ≤ (b.parts.headD "").length

variable (b : TerminalBuffer)

theorem text_toList :
    b.text.toList = (String.join b.parts).toList.drop b.offset := by
  rw [TerminalBuffer.text, String.toList_ofList]

theorem join_cons (part : String) (parts : List String) :
    String.join (part :: parts) = part ++ String.join parts := by
  rw [← String.toList_inj]
  simp

/-- **Dropping from the front**, whatever the chunks are. -/
theorem dropTerminalPrefix_spec (excess : Nat) (h : Sound b) (hexcess : excess ≤ b.chars) :
    (dropTerminalPrefix b excess).text.toList = b.text.toList.drop excess ∧
      Sound (dropTerminalPrefix b excess) := by
  obtain ⟨parts, offset, chars⟩ := b
  induction parts generalizing offset chars excess with
  | nil =>
    have hoffset : offset = 0 := Nat.le_zero.mp h.offset
    have hchars : chars = 0 := h.chars.trans (by rw [text_toList]; simp)
    have hzero : excess = 0 := Nat.le_zero.mp (hchars ▸ hexcess)
    rw [dropTerminalPrefix, hzero, drop_zero]
    exact ⟨rfl, h⟩
  | cons part parts ih =>
    rw [dropTerminalPrefix]
    have hoffset : offset ≤ part.length := h.offset
    have hlength : part.toList.length = part.length := String.length_toList
    have htext : ∀ offset chars, (⟨part :: parts, offset, chars⟩ : TerminalBuffer).text.toList =
        (part.toList ++ (String.join parts).toList).drop offset := by
      intro offset chars
      rw [text_toList, join_cons, String.toList_append]
    have hchars : chars = part.length - offset + (String.join parts).toList.length := by
      refine h.chars.trans ?_
      rw [htext, length_drop, length_append, hlength]
      omega
    split
    · next hzero =>
      rw [hzero, drop_zero]
      exact ⟨rfl, h⟩
    · dsimp only
      split
      · next hle =>
        have hrest : Sound ⟨parts, 0, chars - (part.length - offset)⟩ := by
          refine ⟨?_, Nat.zero_le _⟩
          rw [text_toList, drop_zero]
          dsimp only
          omega
        obtain ⟨hspec, hsound⟩ := ih (excess - (part.length - offset)) 0
          (chars - (part.length - offset)) hrest (Nat.sub_le_sub_right hexcess _)
        refine ⟨hspec.trans ?_, hsound⟩
        have hskip : offset + excess = part.toList.length + (excess - (part.length - offset)) := by
          omega
        rw [text_toList, htext, drop_zero, drop_drop, hskip, drop_length_add_append]
      · next hgt =>
        refine ⟨?_, ?_, ?_⟩
        · rw [htext, htext, drop_drop]
        · rw [htext, length_drop, length_append, hlength]
          dsimp only
          omega
        · show offset + excess ≤ part.length
          omega

theorem compactTerminal_spec (h : Sound b) :
    (compactTerminal b).text.toList = b.text.toList ∧ Sound (compactTerminal b) := by
  have htext : (compactTerminal b).text.toList = b.text.toList := by
    rw [text_toList, compactTerminal]
    split
    · simp
    · next hempty => simp [not_not.mp hempty]
  exact ⟨htext, h.chars.trans (congrArg List.length htext.symm), Nat.zero_le _⟩

/-- The state of the web client that shows the same. -/
def web (s : PresentationState) : WebState := { toView := s.toView, terminal := s.buffer.text }

variable (s : PresentationState)

@[simp] theorem web_toView : (web s).toView = s.toView := rfl

@[simp] theorem web_terminal : (web s).terminal = s.buffer.text := rfl

theorem web_eq {s : PresentationState} {w : WebState} (hview : s.toView = w.toView)
    (htext : s.buffer.text.toList = w.terminal.toList) : web s = w := by
  obtain ⟨view, terminal⟩ := w
  rw [web, hview, String.toList_inj.mp htext]

theorem push_spec (text : String) (h : Sound b) :
    let b' : TerminalBuffer := { b with parts := b.parts ++ [text], chars := b.chars + text.length }
    b'.text.toList = b.text.toList ++ text.toList ∧ Sound b' := by
  have hle : b.offset ≤ (String.join b.parts).toList.length := by
    have hoffset := h.offset
    cases hparts : b.parts with
    | nil =>
      rw [hparts] at hoffset
      exact hoffset
    | cons part parts =>
      rw [hparts, headD_cons] at hoffset
      rw [join_cons, String.toList_append, length_append, String.length_toList]
      omega
  have htext : (String.ofList ((String.join (b.parts ++ [text])).toList.drop b.offset)).toList =
      b.text.toList ++ text.toList := by
    rw [String.toList_ofList, text_toList, String.join_append, String.toList_append,
      drop_append_of_le_length hle]
    simp
  refine ⟨htext, ?_, ?_⟩
  · dsimp only
    rw [TerminalBuffer.text, htext, length_append, ← h.chars, String.length_toList]
  · have hoffset := h.offset
    cases hparts : b.parts with
    | nil =>
      rw [hparts] at hoffset
      exact hoffset.trans (Nat.zero_le _)
    | cons part parts =>
      rw [hparts] at hoffset
      exact hoffset

/-- Merging the chunks, whenever it is done, changes nothing. -/
theorem merge_spec (h : Sound b) (p : Prop) [Decidable p] :
    (if p then compactTerminal b else b).text.toList = b.text.toList ∧
      Sound (if p then compactTerminal b else b) := by
  split
  · exact compactTerminal_spec b h
  · exact ⟨rfl, h⟩

/-- **The two terminals show the same text.** -/
theorem appendTerminal_web (text : String) (h : Sound s.buffer) :
    web (Projection.appendTerminal s text) = Fold.appendTerminal (web s) text ∧
      Sound (Projection.appendTerminal s text).buffer := by
  rw [Projection.appendTerminal, Fold.appendTerminal]
  by_cases hempty : text = ""
  · rw [if_pos hempty, if_pos hempty]
    exact ⟨rfl, h⟩
  · rw [if_neg hempty, if_neg hempty]
    obtain ⟨hpush, hsound⟩ := push_spec s.buffer text h
    have hcombined : (s.buffer.text ++ text).length = s.buffer.chars + text.length := by
      rw [String.length_append, h.chars, String.length_toList]
    by_cases hover : s.buffer.chars + text.length > TERMINAL_BUFFER_CHARS
    · obtain ⟨hdrop, hdropped⟩ := dropTerminalPrefix_spec _
        (s.buffer.chars + text.length - TERMINAL_BUFFER_CHARS) hsound (Nat.sub_le _ _)
      simp only [web_terminal, hcombined, if_pos hover]
      refine ⟨web_eq rfl ?_, (merge_spec _ hdropped _).2⟩
      rw [(merge_spec _ hdropped _).1, hdrop, hpush, String.toList_ofList, String.toList_append]
    · simp only [web_terminal, hcombined, if_neg hover]
      refine ⟨web_eq rfl ?_, (merge_spec _ hsound _).2⟩
      rw [(merge_spec _ hsound _).1, hpush, String.toList_append]

end KolegaCode.Presentation
