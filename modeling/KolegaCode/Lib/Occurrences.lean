import Mathlib.Data.List.Infix
import Mathlib.Order.Defs.LinearOrder

/-!
# Library — the occurrences of a word

A text is read from the left, and behind an occurrence the next one is looked for.  Occurrences that
are found so do not overlap; every other one overlaps one that is found, and starts within it.
-/

namespace KolegaCode.Text

open List

variable {α : Type} [DecidableEq α]

/-- Where the word occurs from the place `pos` on, when `skip` elements are not looked at. -/
def occurrencesFrom (word : List α) : (skip pos : Nat) → List α → List Nat
  | _, _, [] => []
  | skip + 1, pos, _ :: l => occurrencesFrom word skip (pos + 1) l
  | 0, pos, c :: l =>
    if word <+: c :: l then pos :: occurrencesFrom word (word.length - 1) (pos + 1) l
    else occurrencesFrom word 0 (pos + 1) l

/-- The places a word that is not empty is found at. -/
def occurrences (word text : List α) : List Nat :=
  if word = [] then [] else occurrencesFrom word 0 0 text

variable {word text : List α}

theorem mem_occurrencesFrom {skip pos : Nat} {l : List α} {i : Nat}
    (h : i ∈ occurrencesFrom word skip pos l) :
    pos + skip ≤ i ∧ i < pos + l.length ∧ word <+: l.drop (i - pos) := by
  induction l generalizing skip pos with
  | nil => cases skip <;> exact absurd h not_mem_nil
  | cons c l ih =>
    have hdrop : pos + 1 ≤ i → (c :: l).drop (i - pos) = l.drop (i - (pos + 1)) := by
      intro hle
      rw [show i - pos = i - (pos + 1) + 1 by omega, drop_succ_cons]
    cases skip with
    | succ skip =>
      obtain ⟨hle, hlt, hword⟩ := ih h
      refine ⟨by omega, by rw [length_cons]; omega, ?_⟩
      rwa [hdrop (by omega)]
    | zero =>
      rw [occurrencesFrom] at h
      split at h
      · next hhere =>
        rcases mem_cons.mp h with rfl | h
        · refine ⟨Nat.le_refl _, by rw [length_cons]; omega, ?_⟩
          rwa [Nat.sub_self]
        · obtain ⟨hle, hlt, hword⟩ := ih h
          refine ⟨by omega, by rw [length_cons]; omega, ?_⟩
          rwa [hdrop (by omega)]
      · obtain ⟨hle, hlt, hword⟩ := ih h
        refine ⟨by omega, by rw [length_cons]; omega, ?_⟩
        rwa [hdrop (by omega)]

theorem covers_occurrencesFrom (hword : word ≠ []) {skip pos : Nat} {l : List α} {j : Nat}
    (hj : skip ≤ j) (h : word <+: l.drop j) :
    ∃ i ∈ occurrencesFrom word skip pos l, i ≤ pos + j ∧ pos + j < i + word.length := by
  have hlength := length_pos_of_ne_nil hword
  induction l generalizing skip pos j with
  | nil =>
    rw [drop_nil, prefix_nil] at h
    exact absurd h hword
  | cons c l ih =>
    cases skip with
    | succ skip =>
      obtain ⟨j, rfl⟩ := Nat.exists_eq_add_of_le' (Nat.lt_of_lt_of_le (Nat.succ_pos skip) hj)
      obtain ⟨i, hi, hle, hlt⟩ := @ih _ (pos + 1) _ (Nat.le_of_succ_le_succ hj) h
      exact ⟨i, hi, by omega, by omega⟩
    | zero =>
      rw [occurrencesFrom]
      split
      · next hhere =>
        rcases Nat.lt_or_ge j word.length with hlt | hge
        · exact ⟨pos, mem_cons_self, by omega, by omega⟩
        · obtain ⟨j, rfl⟩ := Nat.exists_eq_add_of_le' (Nat.lt_of_lt_of_le hlength hge)
          obtain ⟨i, hi, hle, hlt⟩ := @ih (word.length - 1) (pos + 1) _ (by omega) h
          exact ⟨i, mem_cons_of_mem _ hi, by omega, by omega⟩
      · next hhere =>
        cases j with
        | zero => exact absurd h hhere
        | succ j =>
          obtain ⟨i, hi, hle, hlt⟩ := @ih 0 (pos + 1) _ (Nat.zero_le j) h
          exact ⟨i, hi, by omega, by omega⟩

theorem mem_occurrences {i : Nat} (h : i ∈ occurrences word text) :
    word ≠ [] ∧ i < text.length ∧ word <+: text.drop i := by
  rw [occurrences] at h
  split at h
  · exact absurd h not_mem_nil
  · next hword =>
    obtain ⟨-, hlt, hprefix⟩ := mem_occurrencesFrom h
    rw [Nat.sub_zero] at hprefix
    exact ⟨hword, by omega, hprefix⟩

/-- **Every occurrence** starts within one that is found. -/
theorem covers_occurrences (hword : word ≠ []) {j : Nat} (h : word <+: text.drop j) :
    ∃ i ∈ occurrences word text, i ≤ j ∧ j < i + word.length := by
  rw [occurrences, if_neg hword]
  obtain ⟨i, hi, hle, hlt⟩ := @covers_occurrencesFrom _ _ _ hword 0 0 _ _ (Nat.zero_le j) h
  exact ⟨i, hi, by omega, by omega⟩

theorem add_length_le {i : Nat} (h : i ∈ occurrences word text) :
    i + word.length ≤ text.length := by
  obtain ⟨-, hlt, hprefix⟩ := mem_occurrences h
  have hlength := hprefix.length_le
  rw [length_drop] at hlength
  omega

end KolegaCode.Text
