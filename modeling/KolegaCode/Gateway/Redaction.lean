import Mathlib.Data.List.Sort
import KolegaCode.Lib.Replace
import KolegaCode.Gateway.Renderer

/-!
# Gateway — credentials in the chat

`scrub` replaces every known secret in a text by a placeholder, the longest first.  The chunks of a
response are scrubbed one at a time, before the renderer joins them.
-/

namespace KolegaCode.Gateway

open List
open Text (replace fill Clear)

def REDACTED_PLACEHOLDER : Text := "[redacted]".toList
def MIN_SECRET_LENGTH : Nat := 6

/-- The distinct secrets, the longest first.  Secrets of one length come in the order of the set
they are held in, which is taken to be that of the list. -/
def sortedSecrets (secretValues : List Text) : List Text :=
  ((secretValues.filter (MIN_SECRET_LENGTH ≤ ·.length)).eraseDups).mergeSort
    fun a b => b.length ≤ a.length

def scrub (text : Text) (secretValues : List Text) : Text :=
  if text = [] ∨ secretValues = [] then text
  else (sortedSecrets secretValues).foldl (fun text secret => replace secret REDACTED_PLACEHOLDER text)
    text

/-- `_scrub_chunks`. -/
def scrubChunks (secretValues : List Text) (chunks : List StreamChunk) : List StreamChunk :=
  chunks.map fun chunk =>
    if chunk.content = [] then chunk
    else { chunk with content := scrub chunk.content secretValues }

/-! ### What scrubbing leaves -/

/-- A secret that can be told from the placeholder. -/
structure Proper (secret : Text) : Prop where
  long : MIN_SECRET_LENGTH ≤ secret.length
  opening : '[' ∉ secret
  closing : ']' ∉ secret
  apart : ¬ secret <:+: REDACTED_PLACEHOLDER

/-- The text with a gap for every occurrence that is scrubbed. -/
def survivors (secretValues : List Text) (text : Text) : List (Option Char) :=
  (sortedSecrets secretValues).foldl (fun l secret => replace (secret.map some) [none] l)
    (text.map some)

variable {secretValues : List Text} {secret : Text}

theorem mem_sortedSecrets :
    secret ∈ sortedSecrets secretValues ↔
      secret ∈ secretValues ∧ MIN_SECRET_LENGTH ≤ secret.length := by
  rw [sortedSecrets, mem_mergeSort, mem_eraseDups, mem_filter, decide_eq_true_iff]

theorem Proper.clear (h : Proper secret) : Clear secret REDACTED_PLACEHOLDER where
  ne_nil := by
    rintro rfl
    exact absurd h.long (by decide)
  bounds := by
    refine ⟨'[', "redacted".toList, ']', rfl, h.opening, h.closing, fun hi => h.apart ?_⟩
    exact hi.trans ⟨['['], [']'], rfl⟩

theorem Proper.map_ne_nil (h : Proper secret) : secret.map some ≠ [] :=
  fun he => h.clear.ne_nil (map_eq_nil_iff.mp he)

theorem none_not_mem (text : Text) : none ∉ text.map some := by simp

/-- The scrubbed text is what survives, with placeholders in the gaps. -/
theorem scrub_eq_fill (h : ∀ secret ∈ secretValues, Proper secret) (text : Text) :
    scrub text secretValues = fill REDACTED_PLACEHOLDER (survivors secretValues text) := by
  have hfold : ∀ (secrets : List Text) (l : List (Option Char)), (∀ s ∈ secrets, Proper s) →
      secrets.foldl (fun text secret => replace secret REDACTED_PLACEHOLDER text)
          (fill REDACTED_PLACEHOLDER l) =
        fill REDACTED_PLACEHOLDER
          (secrets.foldl (fun l secret => replace (secret.map some) [none] l) l) := by
    intro secrets
    induction secrets with
    | nil => exact fun _ _ => rfl
    | cons s secrets ih =>
      intro l hs
      rw [foldl_cons, foldl_cons, Text.replace_fill (hs s mem_cons_self).clear]
      exact ih _ fun s hm => hs s (mem_cons_of_mem _ hm)
  have hsorted := hfold (sortedSecrets secretValues) (text.map some) fun s hs =>
    h s (mem_sortedSecrets.mp hs).1
  rw [Text.fill_map_some] at hsorted
  rw [survivors, ← hsorted, scrub]
  split
  · next hor =>
    rcases hor with rfl | rfl
    · exact (foldl_fixed' (fun _ => rfl) _).symm
    · rw [show sortedSecrets [] = [] from mergeSort_nil, foldl_nil]
  · rfl

theorem infix_of_foldl (secrets : List Text) (h : ∀ s ∈ secrets, Proper s) {word : Text}
    {l : List (Option Char)}
    (hi : word.map some <:+:
      secrets.foldl (fun l secret => replace (secret.map some) [none] l) l) :
    word.map some <:+: l := by
  induction secrets generalizing l with
  | nil => exact hi
  | cons s secrets ih =>
    have := ih (fun s hm => h s (mem_cons_of_mem _ hm)) hi
    exact Text.infix_of_replace (h s mem_cons_self).map_ne_nil (none_not_mem word) this

/-- No secret survives in a text that is scrubbed whole. -/
theorem not_infix_survivors (h : ∀ secret ∈ secretValues, Proper secret)
    (hs : secret ∈ secretValues) (text : Text) :
    ¬ secret.map some <:+: survivors secretValues text := by
  have hfold : ∀ (secrets : List Text) (l : List (Option Char)), (∀ s ∈ secrets, Proper s) →
      secret ∈ secrets → ¬ secret.map some <:+:
        secrets.foldl (fun l secret => replace (secret.map some) [none] l) l := by
    intro secrets
    induction secrets with
    | nil => exact fun _ _ hm => absurd hm not_mem_nil
    | cons s secrets ih =>
      intro l hproper hm hi
      have htail := fun s hm => hproper s (mem_cons_of_mem _ hm)
      rcases mem_cons.mp hm with rfl | hm
      · exact Text.not_infix_replace (hproper secret mem_cons_self).map_ne_nil
          (none_not_mem secret) l (infix_of_foldl secrets htail hi)
      · exact ih _ htail hm hi
  exact hfold _ _ (fun s hs => h s (mem_sortedSecrets.mp hs).1)
    (mem_sortedSecrets.mpr ⟨hs, (h secret hs).long⟩)

/-- **A text that is scrubbed whole has no secret.** -/
theorem scrub_clean (h : ∀ secret ∈ secretValues, Proper secret) (hs : secret ∈ secretValues)
    (text : Text) : ¬ secret <:+: scrub text secretValues := by
  rw [scrub_eq_fill h, Text.infix_fill (h secret hs).clear]
  exact not_infix_survivors h hs text

/-! ### A response in chunks -/

/-- What survives of a response whose chunks are scrubbed one at a time. -/
def survivingResponse (secretValues : List Text) (chunks : List StreamChunk) :
    List (Option Char) :=
  (chunks.filter (·.type = "response")).flatMap fun chunk => survivors secretValues chunk.content

/-- Characters that survive, one after another, spell a secret. -/
def SpelledOut (secretValues : List Text) (chunks : List StreamChunk) : Prop :=
  ∃ secret ∈ secretValues, secret.map some <:+: survivingResponse secretValues chunks

theorem survivors_nil : survivors secretValues [] = [] :=
  foldl_fixed' (fun _ => rfl) _

theorem responseText_scrubChunks (h : ∀ secret ∈ secretValues, Proper secret)
    (chunks : List StreamChunk) :
    responseText (scrubChunks secretValues chunks) =
      fill REDACTED_PLACEHOLDER (survivingResponse secretValues chunks) := by
  have hchunk : ∀ chunk : StreamChunk,
      (if chunk.content = [] then chunk
        else { chunk with content := scrub chunk.content secretValues }) =
      { chunk with content := fill REDACTED_PLACEHOLDER (survivors secretValues chunk.content) } := by
    intro chunk
    split
    · next hempty => rw [hempty, survivors_nil, Text.fill_nil, ← hempty]
    · rw [scrub_eq_fill h]
  simp only [scrubChunks, hchunk]
  induction chunks with
  | nil => rfl
  | cons chunk chunks ih =>
    rw [map_cons, responseText_cons, ih]
    by_cases htype : chunk.type = "response"
    · simp [responseText, survivingResponse, htype, Text.fill_append]
    · simp [responseText, survivingResponse, htype]

/-- A key that the model repeats. -/
def leakedKey : Text := "hunter2-hunter2".toList

theorem proper_leakedKey : ∀ secret ∈ [leakedKey], Proper secret := by
  intro secret hs
  rw [mem_singleton.mp hs]
  exact ⟨by decide, by decide, by decide, by decide⟩

/-- Scrubbed whole, a text that has two keys, one in the other. -/
theorem scrub_clean_nested :
    ¬ leakedKey <:+: scrub "hunter2-hunter2-hunter2".toList [leakedKey, "hunter2".toList] :=
  scrub_clean (by
    intro secret hs
    rcases mem_cons.mp hs with rfl | hs
    · exact proper_leakedKey leakedKey mem_cons_self
    · rw [mem_singleton.mp hs]
      exact ⟨by decide, by decide, by decide, by decide⟩) mem_cons_self _

end KolegaCode.Gateway
