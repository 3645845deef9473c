import Mathlib.Data.List.Infix

/-!
# Lib — replacing what is found in a text

`rewrite find` goes through a text from left to right.  Where `find` finds something at the front
of what is left, it is taken out, something else is put in, and the scan goes on behind it;
otherwise it goes on at the next character.  `str.replace` and `re.sub` are cases of it.

A placeholder splits the text: `fill` puts it into a text with gaps, and a word that keeps clear of
it occurs in the filled text exactly where it occurs between the gaps.
-/

namespace KolegaCode.Text

open List

variable {α : Type}

/-- What is found at the front of a text, and what is put in for it. -/
abbrev Finder (α : Type) := List α → Option (List α × List α)

/-- What is found is at the front, and is something. -/
def Finder.Sound (find : Finder α) : Prop :=
  ∀ l found new, find l = some (found, new) → found ≠ [] ∧ found <+: l

/-- The scan; the next `skip` characters were found and are passed over. -/
def rewriteFrom (find : Finder α) : Nat → List α → List α
  | _, [] => []
  | skip + 1, _ :: l => rewriteFrom find skip l
  | 0, c :: l =>
    match find (c :: l) with
    | some (found, new) => new ++ rewriteFrom find (found.length - 1) l
    | none => c :: rewriteFrom find 0 l

def rewrite (find : Finder α) (l : List α) : List α := rewriteFrom find 0 l

theorem rewriteFrom_eq_drop (find : Finder α) (skip : Nat) (l : List α) :
    rewriteFrom find skip l = rewrite find (l.drop skip) := by
  induction l generalizing skip with
  | nil => cases skip <;> rfl
  | cons c l ih =>
    cases skip with
    | zero => rfl
    | succ skip => exact ih skip

@[simp] theorem rewrite_nil (find : Finder α) : rewrite find [] = [] := rfl

variable {find : Finder α} {front : List α} {x : α}

theorem rewrite_cons {c : α} {l : List α} (h : find (c :: l) = none) :
    rewrite find (c :: l) = c :: rewrite find l := by
  rw [rewrite, rewriteFrom, h]
  rfl

theorem rewrite_append {found new l : List α} (hne : found ≠ [])
    (h : find (found ++ l) = some (found, new)) :
    rewrite find (found ++ l) = new ++ rewrite find l := by
  cases found with
  | nil => exact absurd rfl hne
  | cons c found =>
    rw [rewrite, cons_append, rewriteFrom, ← cons_append, h]
    simp only [length_cons, Nat.add_sub_cancel, rewriteFrom_eq_drop, drop_left]

theorem rewrite_induction {find : Finder α} (hsound : find.Sound) {motive : List α → Prop}
    (nil : motive [])
    (found : ∀ found new l, found ≠ [] → find (found ++ l) = some (found, new) → motive l →
      motive (found ++ l))
    (other : ∀ c l, find (c :: l) = none → motive l → motive (c :: l)) (l : List α) : motive l := by
  induction hlen : l.length using Nat.strongRecOn generalizing l with
  | ind n ih =>
    cases l with
    | nil => exact nil
    | cons c l =>
      cases hfind : find (c :: l) with
      | none => exact other c l hfind (ih l.length (by simp [← hlen]) l rfl)
      | some p =>
        obtain ⟨piece, new⟩ := p
        obtain ⟨hne, rest, hrest⟩ := hsound _ _ _ hfind
        rw [← hrest] at hfind hlen ⊢
        have hpos := length_pos_of_ne_nil hne
        refine found piece new rest hne hfind (ih rest.length ?_ rest rfl)
        rw [← hlen, length_append]
        omega

/-- Where nothing is found, the text is left as it is. -/
theorem rewrite_append_of_clear (l : List α)
    (h : ∀ q, q ≠ [] → q <:+ front → find (q ++ l) = none) :
    rewrite find (front ++ l) = front ++ rewrite find l := by
  induction front with
  | nil => rfl
  | cons c front ih =>
    have hc := h (c :: front) (cons_ne_nil _ _) (suffix_refl _)
    rw [cons_append] at hc ⊢
    rw [rewrite_cons hc, ih fun q hq hs => h q hq (hs.trans (suffix_cons c front)),
      cons_append]

theorem prefix_of_rewrite (hsound : find.Sound)
    (hnew : ∀ l found new, find l = some (found, new) → ∃ more, new = x :: more) {word : List α}
    (hx : x ∉ word) {l : List α} (h : word <+: rewrite find l) : word <+: l := by
  induction l using rewrite_induction hsound generalizing word with
  | nil => exact h
  | found found new l hne hfind _ =>
    obtain ⟨more, rfl⟩ := hnew _ _ _ hfind
    rw [rewrite_append hne hfind, cons_append] at h
    cases word with
    | nil => exact nil_prefix
    | cons c word =>
      obtain ⟨rfl, -⟩ := cons_prefix_cons.mp h
      exact absurd mem_cons_self hx
  | other c l hno ih =>
    rw [rewrite_cons hno] at h
    cases word with
    | nil => exact nil_prefix
    | cons c' word =>
      obtain ⟨rfl, hrest⟩ := cons_prefix_cons.mp h
      exact cons_prefix_cons.mpr ⟨rfl, ih (fun hm => hx (mem_cons_of_mem _ hm)) hrest⟩

/-! ### One word -/

section

variable [DecidableEq α]

def findWord (old new : List α) : Finder α := fun l =>
  if old <+: l then some (old, new) else none

/-- `text.replace(old, new)`, for an `old` that is not empty. -/
def replace (old new l : List α) : List α := rewrite (findWord old new) l

variable {old new l : List α}

theorem findWord_sound (hold : old ≠ []) : (findWord old new).Sound := by
  intro l found new' h
  rw [findWord] at h
  split at h
  · next hprefix =>
    cases h
    exact ⟨hold, hprefix⟩
  · cases h

theorem findWord_none {l : List α} (h : ¬ old <+: l) : findWord old new l = none := if_neg h

theorem replace_append (hold : old ≠ []) (l : List α) :
    replace old new (old ++ l) = new ++ replace old new l :=
  rewrite_append hold (if_pos (prefix_append old l))

theorem replace_cons {c : α} (h : ¬ old <+: c :: l) :
    replace old new (c :: l) = c :: replace old new l := rewrite_cons (findWord_none h)

theorem replace_induction (hold : old ≠ []) {motive : List α → Prop} (nil : motive [])
    (found : ∀ l, motive l → motive (old ++ l))
    (other : ∀ c l, ¬ old <+: c :: l → motive l → motive (c :: l)) (l : List α) : motive l := by
  refine @rewrite_induction _ (findWord old []) (findWord_sound hold) motive nil ?_ ?_ l
  · intro piece new' l _ hfind ih
    rw [findWord] at hfind
    split at hfind
    · cases hfind
      exact found l ih
    · cases hfind
  · intro c l hfind ih
    refine other c l (fun h => ?_) ih
    rw [findWord, if_pos h] at hfind
    cases hfind

theorem replace_append_of_clear (l : List α) (h : ∀ q, q ≠ [] → q <:+ front → ¬ old <+: q ++ l) :
    replace old new (front ++ l) = front ++ replace old new l :=
  rewrite_append_of_clear l fun q hq hs => findWord_none (h q hq hs)

theorem findWord_new {l found new' : List α} (h : findWord old new l = some (found, new')) :
    new' = new := by
  rw [findWord] at h
  split at h <;> cases h
  rfl

theorem prefix_of_replace (hold : old ≠ []) {word : List α} (hx : x ∉ word)
    (h : word <+: replace old [x] l) : word <+: l :=
  prefix_of_rewrite (findWord_sound hold) (fun _ _ _ hfind => ⟨[], findWord_new hfind⟩) hx h

/-- And it was there before, anywhere. -/
theorem infix_of_replace (hold : old ≠ []) {word : List α} (hx : x ∉ word)
    (h : word <:+: replace old [x] l) : word <:+: l := by
  induction l using replace_induction hold with
  | nil => exact h
  | found l ih =>
    rw [replace_append hold, singleton_append, infix_cons_iff] at h
    rcases h with h | h
    · cases word with
      | nil => exact nil_infix
      | cons c word =>
        obtain ⟨rfl, -⟩ := cons_prefix_cons.mp h
        exact absurd mem_cons_self hx
    · exact (ih h).trans (suffix_append old l).isInfix
  | other c l hno ih =>
    have hcons : replace old [x] (c :: l) = c :: replace old [x] l := replace_cons hno
    rcases infix_cons_iff.mp (hcons ▸ h) with hp | hi
    · exact (prefix_of_replace hold hx (hcons ▸ hp)).isInfix
    · exact (ih hi).trans (suffix_cons c l).isInfix

/-- **What is replaced by a sign it has not is gone.** -/
theorem not_infix_replace (hold : old ≠ []) (hx : x ∉ old) (l : List α) :
    ¬ old <:+: replace old [x] l := by
  induction l using replace_induction hold with
  | nil => exact fun h => hold (infix_nil.mp h)
  | found l ih =>
    rw [replace_append hold, singleton_append, infix_cons_iff]
    rintro (h | h)
    · obtain ⟨c, old', rfl⟩ := exists_cons_of_ne_nil hold
      obtain ⟨rfl, -⟩ := cons_prefix_cons.mp h
      exact hx mem_cons_self
    · exact ih h
  | other c l hno ih =>
    have hcons : replace old [x] (c :: l) = c :: replace old [x] l := replace_cons hno
    rw [hcons, infix_cons_iff]
    rintro (h | h)
    · exact hno (prefix_of_replace hold hx (hcons ▸ h))
    · exact ih h

end

/-! ### Texts with gaps -/

/-- The placeholder in every gap. -/
def fill (placeholder : List α) (l : List (Option α)) : List α :=
  l.flatMap fun c => c.elim placeholder fun c => [c]

variable {placeholder : List α} {word : List α}

@[simp] theorem fill_nil : fill placeholder [] = [] := rfl

@[simp] theorem fill_none (l : List (Option α)) :
    fill placeholder (none :: l) = placeholder ++ fill placeholder l := rfl

@[simp] theorem fill_some (c : α) (l : List (Option α)) :
    fill placeholder (some c :: l) = c :: fill placeholder l := rfl

theorem fill_append (l l' : List (Option α)) :
    fill placeholder (l ++ l') = fill placeholder l ++ fill placeholder l' :=
  flatMap_append ..

@[simp] theorem fill_map_some (l : List α) : fill placeholder (l.map some) = l := by
  induction l with
  | nil => rfl
  | cons c l ih => rw [map_cons, fill_some, ih]

/-- The word has neither the first nor the last sign of the placeholder, and is not within it. -/
structure Clear (word placeholder : List α) : Prop where
  ne_nil : word ≠ []
  bounds : ∃ opening middle closing, placeholder = opening :: (middle ++ [closing]) ∧
    opening ∉ word ∧ closing ∉ word ∧ ¬ word <:+: middle

theorem prefix_fill (h : Clear word placeholder) (l : List (Option α)) {part : List α}
    (hpart : part ⊆ word) : part <+: fill placeholder l ↔ part.map some <+: l := by
  obtain ⟨opening, middle, closing, rfl, hopening, -, -⟩ := h.bounds
  induction l generalizing part with
  | nil => cases part <;> simp
  | cons c l ih =>
    cases part with
    | nil => simp
    | cons c' part =>
      cases c with
      | none =>
        simp only [fill_none, cons_append, cons_prefix_cons, map_cons,
          reduceCtorEq, false_and, iff_false, not_and]
        rintro rfl
        exact absurd (hpart mem_cons_self) hopening
      | some c =>
        simp only [fill_some, cons_prefix_cons, map_cons, Option.some.injEq]
        rw [ih fun x hx => hpart (mem_cons_of_mem _ hx)]

theorem prefix_of_not_mem {x : α} {front rest : List α} (hx : x ∉ word)
    (h : word <+: front ++ x :: rest) : word <+: front := by
  rcases prefix_or_prefix_of_prefix h (prefix_append front (x :: rest)) with h' | h'
  · exact h'
  · obtain ⟨more, rfl⟩ := h'
    cases more with
    | nil => rw [append_nil]
    | cons c more =>
      obtain ⟨rfl, -⟩ := cons_prefix_cons.mp ((prefix_append_right_inj front).mp h)
      exact absurd (mem_append_right _ mem_cons_self) hx

/-- No occurrence starts in a placeholder. -/
theorem Clear.not_prefix (h : Clear word placeholder) {q : List α} (hq : q ≠ [])
    (hs : q <:+ placeholder) (l : List α) : ¬ word <+: q ++ l := by
  obtain ⟨opening, middle, closing, rfl, hopening, hclosing, hmiddle⟩ := h.bounds
  intro hprefix
  rcases suffix_cons_iff.mp hs with rfl | hs
  · obtain ⟨c, word, rfl⟩ := exists_cons_of_ne_nil h.ne_nil
    obtain ⟨rfl, -⟩ := cons_prefix_cons.mp hprefix
    exact hopening mem_cons_self
  · -- the word ends before the last sign, and so is within the middle
    rcases suffix_concat_iff.mp hs with rfl | ⟨q', rfl, hq'⟩
    · exact hq rfl
    · rw [append_assoc, singleton_append] at hprefix
      exact hmiddle ((prefix_of_not_mem hclosing hprefix).isInfix.trans hq'.isInfix)

theorem infix_of_infix_append {l : List α} (h : ∀ q, q ≠ [] → q <:+ front → ¬ word <+: q ++ l)
    (hi : word <:+: front ++ l) : word <:+: l := by
  induction front with
  | nil => exact hi
  | cons c front ih =>
    rcases infix_cons_iff.mp hi with hp | hi
    · exact absurd hp (h (c :: front) (cons_ne_nil _ _) (suffix_refl _))
    · exact ih (fun q hq hs => h q hq (hs.trans (suffix_cons c front))) hi

/-- **A word that keeps clear of the placeholder occurs in a filled text where it occurs between
the gaps.** -/
theorem infix_fill (h : Clear word placeholder) (l : List (Option α)) :
    word <:+: fill placeholder l ↔ word.map some <:+: l := by
  induction l with
  | nil => simp
  | cons c l ih =>
    rw [infix_cons_iff, ← ih, ← prefix_fill h (c :: l) (List.Subset.refl word)]
    cases c with
    | some c => rw [fill_some, infix_cons_iff]
    | none =>
      rw [fill_none]
      refine ⟨fun hi => .inr ?_, ?_⟩
      · exact infix_of_infix_append (fun q hq hs => h.not_prefix hq hs _) hi
      · rintro (hp | hi)
        · exact hp.isInfix
        · exact hi.trans (suffix_append _ _).isInfix

/-- A replacement in a filled text is one in the text with gaps. -/
theorem replace_fill [DecidableEq α] (h : Clear word placeholder) (l : List (Option α)) :
    replace word placeholder (fill placeholder l) =
      fill placeholder (replace (word.map some) [none] l) := by
  have hold : word.map some ≠ [] := fun he => h.ne_nil (map_eq_nil_iff.mp he)
  induction l using replace_induction hold with
  | nil => rfl
  | found l ih =>
    rw [fill_append, fill_map_some, replace_append h.ne_nil, ih, replace_append hold, fill_append]
    simp
  | other c l hno ih =>
    rw [replace_cons hno]
    have hno' := mt (prefix_fill h (c :: l) (List.Subset.refl word)).mp hno
    cases c with
    | some c =>
      rw [fill_some] at hno' ⊢
      rw [replace_cons hno', ih, fill_some]
    | none =>
      rw [fill_none, replace_append_of_clear _ fun q hq hs => h.not_prefix hq hs _, ih, fill_none]

end KolegaCode.Text
