import KolegaCode.Presentation.Terminal
import Mathlib.Data.List.DropRight

/-!
# Presentation — what the terminal shows after a stream of output

The text is joined when it is read and kept until more is written.  Whatever was written and
whenever it was read, it is the end of all that was written.
-/

namespace KolegaCode.Presentation

open List
open Projection (PresentationState textOf onTerminalOutput onTerminalCommand)
open Recording (AgentEvent)

/-- The state with the text of the last read, which the next chunk clears. -/
structure Buffered where
  state : PresentationState := {}
  text : Option String := none

/-- What happens to the terminal: output, the line of a command, and a read. -/
inductive TerminalStep
  | output (event : AgentEvent)
  | command (event : AgentEvent)
  | read

/-- The chunk that is appended; an empty one is ignored. -/
def TerminalStep.chunk : TerminalStep → String
  | .output event => textOf event ["display_output", "output"]
  | .command event =>
    if textOf event ["command"] ≠ "" then "$ " ++ textOf event ["command"] ++ "\n" else ""
  | .read => ""

/-- The property `terminal`: the text, and the state that keeps it. -/
def Buffered.terminal (b : Buffered) : String × Buffered :=
  match b.text with
  | some text => (text, b)
  | none => (b.state.buffer.text, { b with text := some b.state.buffer.text })

def Buffered.step (b : Buffered) (step : TerminalStep) : Buffered :=
  let kept := if step.chunk = "" then b.text else none
  match step with
  | .output event => { state := onTerminalOutput b.state event, text := kept }
  | .command event => { state := onTerminalCommand b.state event, text := kept }
  | .read => b.terminal.2

theorem rtake_append_rtake {α : Type*} (n : Nat) (a b : List α) :
    (a.rtake n ++ b).rtake n = (a ++ b).rtake n := by
  simp only [List.rtake, length_append, length_drop, drop_append, drop_drop]
  congr 2 <;> omega

/-- The terminal holds the end of what was written. -/
structure Buffered.Holds (b : Buffered) (written : List Char) : Prop where
  sound : Sound b.state.buffer
  text : b.state.buffer.text.toList = written.rtake TERMINAL_BUFFER_CHARS
  truncated : b.state.terminalTruncated = true ↔ TERMINAL_BUFFER_CHARS < written.length
  kept : ∀ text, b.text = some text → text = b.state.buffer.text

/-- **One chunk.**  The end of what was written moves on by the chunk. -/
theorem appendTerminal_holds (state : PresentationState) (written : List Char) (text : String)
    (sound : Sound state.buffer)
    (htext : state.buffer.text.toList = written.rtake TERMINAL_BUFFER_CHARS)
    (htruncated : state.terminalTruncated = true ↔ TERMINAL_BUFFER_CHARS < written.length) :
    let state' := Projection.appendTerminal state text
    Sound state'.buffer ∧
      state'.buffer.text.toList = (written ++ text.toList).rtake TERMINAL_BUFFER_CHARS ∧
      (state'.terminalTruncated = true ↔
        TERMINAL_BUFFER_CHARS < (written ++ text.toList).length) := by
  obtain ⟨hweb, hsound⟩ := appendTerminal_web state text sound
  refine ⟨hsound, ?_⟩
  have hshown : (Projection.appendTerminal state text).buffer.text =
      (Fold.appendTerminal (web state) text).terminal := congrArg Fold.WebState.terminal hweb
  have hflag : (Projection.appendTerminal state text).terminalTruncated =
      (Fold.appendTerminal (web state) text).terminalTruncated :=
    congrArg (fun w => w.toView.terminalTruncated) hweb
  have hcombined : (state.buffer.text ++ text).toList =
      written.rtake TERMINAL_BUFFER_CHARS ++ text.toList := by
    rw [String.toList_append, htext]
  have hlength : (state.buffer.text ++ text).length =
      min written.length TERMINAL_BUFFER_CHARS + text.toList.length := by
    rw [← String.length_toList, hcombined, length_append, List.rtake, length_drop]
    omega
  rw [hshown, hflag, Fold.appendTerminal, web_terminal]
  rw [length_append]
  split
  · next hempty =>
    rw [hempty]
    simpa using ⟨htext, htruncated⟩
  · dsimp only
    rw [← rtake_append_rtake, ← hcombined]
    split
    · next hover =>
      refine ⟨?_, ?_⟩
      · rw [String.toList_ofList, List.rtake, String.length_toList]
      · simp only [true_iff]
        omega
    · next hfits =>
      refine ⟨?_, ?_⟩
      · rw [List.rtake, String.length_toList, Nat.sub_eq_zero_of_le (Nat.not_lt.mp hfits),
          drop_zero]
      · rw [web_toView, htruncated]
        omega

theorem Buffered.Holds.read {b : Buffered} {written : List Char} (h : b.Holds written) :
    b.terminal.1 = b.state.buffer.text ∧ b.terminal.2.Holds written := by
  unfold Buffered.terminal
  split
  · next text htext => exact ⟨h.kept text htext, h⟩
  · refine ⟨rfl, h.sound, h.text, h.truncated, fun text htext => ?_⟩
    exact (Option.some.inj htext).symm

/-- A step appends its chunk and changes nothing else of the terminal. -/
theorem Buffered.step_state (b : Buffered) (step : TerminalStep) :
    (b.step step).state.buffer = (Projection.appendTerminal b.state step.chunk).buffer ∧
      (b.step step).state.terminalTruncated =
        (Projection.appendTerminal b.state step.chunk).terminalTruncated := by
  have hnothing : Projection.appendTerminal b.state "" = b.state := by
    rw [Projection.appendTerminal, if_pos rfl]
  cases step with
  | output event => exact ⟨rfl, rfl⟩
  | command event =>
    simp only [Buffered.step, onTerminalCommand, TerminalStep.chunk]
    split
    · exact ⟨rfl, rfl⟩
    · rw [hnothing]
      exact ⟨rfl, rfl⟩
  | read =>
    rw [TerminalStep.chunk, hnothing]
    simp only [Buffered.step, Buffered.terminal]
    split <;> exact ⟨rfl, rfl⟩

theorem Buffered.Holds.step {b : Buffered} {written : List Char} (h : b.Holds written)
    (step : TerminalStep) : (b.step step).Holds (written ++ step.chunk.toList) := by
  obtain ⟨hsound, htext, htruncated⟩ :=
    appendTerminal_holds b.state written step.chunk h.sound h.text h.truncated
  obtain ⟨hbuffer, hflag⟩ := b.step_state step
  refine ⟨hbuffer ▸ hsound, hbuffer ▸ htext, hflag ▸ htruncated, fun text hkept => ?_⟩
  have hchunk : ∀ text, (if step.chunk = "" then b.text else none) = some text →
      text = (Projection.appendTerminal b.state step.chunk).buffer.text := by
    intro text hkept
    split at hkept
    · next hempty =>
      rw [hempty, Projection.appendTerminal, if_pos rfl]
      exact h.kept text hkept
    · exact absurd hkept (by simp)
  rw [hbuffer]
  cases step with
  | output event | command event => exact hchunk text hkept
  | read => exact (h.read.2.kept text hkept).trans (congrArg _ hbuffer)

/-- The chunks of a stream, one after the other. -/
def written (steps : List TerminalStep) : List Char := steps.flatMap (·.chunk.toList)

theorem Buffered.run_holds (steps : List TerminalStep) {b : Buffered} {before : List Char}
    (h : b.Holds before) : (steps.foldl Buffered.step b).Holds (before ++ written steps) := by
  induction steps generalizing b before with
  | nil => simpa [written] using h
  | cons step steps ih =>
    rw [foldl_cons, written, flatMap_cons, ← append_assoc]
    exact ih (h.step step)

theorem Buffered.start_holds : Buffered.Holds {} [] where
  sound := ⟨rfl, Nat.le_refl _⟩
  text := rfl
  truncated := by simp
  kept text h := absurd h (by simp)

/-- **The streamed terminal.**  After any stream of output and reads the terminal reads as the last
`TERMINAL_BUFFER_CHARS` characters of all that was written, and says whether there was more. -/
theorem Buffered.terminal_eq_rtake (steps : List TerminalStep) :
    ((steps.foldl Buffered.step {}).terminal.1).toList =
        (written steps).rtake TERMINAL_BUFFER_CHARS ∧
      ((steps.foldl Buffered.step {}).state.terminalTruncated = true ↔
        TERMINAL_BUFFER_CHARS < (written steps).length) := by
  have h : (steps.foldl Buffered.step {}).Holds (written steps) :=
    Buffered.run_holds steps Buffered.start_holds
  exact ⟨by rw [h.read.1, h.text], h.truncated⟩

end KolegaCode.Presentation
