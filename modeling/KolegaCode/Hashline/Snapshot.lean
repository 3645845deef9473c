import KolegaCode.Hashline.Trace

/-!
# Hashline — edits against one snapshot

`simultaneous` is what the edits mean: all of them at once, against the file as it was.  The code
executes them one after the other, from the last line to the first.  For edits whose ranges do not
meet, the two agree exactly when every block lands beside what stands for its line (`WellPlaced`).
A block anchored at a line of a range is spliced at the line's old number, after the range has been
replaced, and lands elsewhere as soon as the new content has another length.

An empty file has no line.  The code reads it as one empty line, and an `append` without an anchor
takes the place of that line.
-/

namespace KolegaCode.Hashline

open List
open Patch HashlineEdit

/-- No line is in two ranges. -/
def RangesApart {α : Type} (edits : List (HashlineEdit α)) : Prop :=
  edits.Pairwise fun e e' => Apart e.patch e'.patch

/-- The file is empty and an `append` without an anchor writes it. -/
def Filled (text : String) (edits : List (HashlineEdit String)) : Bool :=
  text = "" && (placedEdits text edits).any atEof

/-- **The simultaneous application** of the edits to the snapshot: every line outside the ranges
stays, a range is its content, and a block stands directly beside the line its anchor names, or
beside the content of the range that line is in.  Of two blocks at one place the one anchored at
the smaller line stands in front, or else the later one.  In an empty file that is filled no line
stays. -/
def simultaneous (text : String) (edits : List (HashlineEdit String)) : List Placed :=
  layout (placeLines (splitLines text))
    (if Filled text edits then placedPatches text edits ++ [.range 1 1 []]
     else placedPatches text edits)

/-- An edit that writes in front of its anchor. -/
def inFront {α : Type} : HashlineEdit α → Bool
  | .prepend _ _ | .insert .. => true
  | _ => false

/-- Every block lands where it belongs.  In an empty file that is filled, the line one that the
other edits name is gone: only a block in front of it does, and the first block at the end must
not look like an empty file to the next. -/
def WellPlaced (text : String) (edits : List (HashlineEdit String)) : Prop :=
  if Filled text edits then
    (∀ e ∈ placedEdits text edits, e.atEof = true ∨ inFront e = true) ∧
      ∀ e es, (placedEdits text edits).filter atEof = e :: es →
        e.content.map Placed.text = [""] → es = []
  else AllAligned (placeLines (splitLines text)) [] (placedPatches text edits)

/-! ### Edits without an anchor come first -/

variable {α : Type}

theorem eq_of_atEof {e : HashlineEdit α} (h : e.atEof = true) : e = .append none e.content := by
  cases e with
  | append t c =>
    cases t with
    | none => rfl
    | some t => cases h
  | prepend t c => cases h
  | set t c => cases h
  | replace f l c => cases h
  | insert t u c => cases h

theorem patch_of_atEof {e : HashlineEdit α} (h : e.atEof = true) : e.patch = .atEnd e.content := by
  rw [eq_of_atEof h]
  rfl

section Order

variable {text : String} {edits : List (HashlineEdit String)}

theorem atEof_of_lt_line {e : HashlineEdit α} {n : Nat} (hf : e.patch.Fits n)
    (h : n < e.patch.line n) : e.atEof = true := by
  cases e with
  | append t c =>
    cases t with
    | none => rfl
    | some t => exact absurd hf.2 (Nat.not_le.mpr h)
  | prepend t c => cases t <;> exact absurd hf.2 (Nat.not_le.mpr h)
  | set t c | replace f l c => exact absurd hf.2.2 (Nat.not_le.mpr h)
  | insert t u c => exact absurd hf.2 (Nat.not_le.mpr h)

theorem sortKey_of_atBof {n : Nat} {item : Nat × HashlineEdit String}
    (h : item.2.atBof = true) : (sortKey n item).line = 0 := by
  obtain ⟨k, e⟩ := item
  cases e with
  | prepend t c =>
    cases t with
    | none => rfl
    | some t => cases h
  | append t c => cases h
  | set t c => cases h
  | replace f l c => cases h
  | insert t u c => cases h

theorem atBof_of_atEof {e : HashlineEdit α} (h : e.atEof = true) : e.atBof = false := by
  rw [eq_of_atEof h]
  rfl

/-- Behind an edit with an anchor there is no `append` without one. -/
theorem pairwise_atEof (hv : ∀ e ∈ edits, Valid (splitLines text).length e) :
    (placedEdits text edits).Pairwise fun e e' => e'.atEof = true → e.atEof = true := by
  rw [placedEdits, pairwise_map]
  refine List.Pairwise.imp_of_mem (fun {a b} hma hmb hab hbe => ?_) (ranked_pairwise _ edits)
  have hfit := (fits_withContent a.2 (placeContent a.1 a.2.content) _).mpr
    (hv _ (mem_of_mem_ranked hma)).1
  have hbb : b.2.atBof = false := by
    rw [placeEdit, atEof_withContent] at hbe
    exact atBof_of_atEof hbe
  obtain ⟨hlb, -⟩ := sortKey_eq (n := (splitLines text).length) hbb
  rw [patch_of_atEof hbe, line] at hlb
  rw [SortKey.Le] at hab
  cases haa : a.2.atBof with
  | true =>
    have hla := sortKey_of_atBof (n := (splitLines text).length) haa
    omega
  | false =>
    obtain ⟨hla, -⟩ := sortKey_eq (n := (splitLines text).length) haa
    refine atEof_of_lt_line hfit ?_
    omega

end Order

/-! ### Files with a line -/

/-- Appending to lines that are not one empty line gives such lines. -/
theorem map_text_append_ne {text : α → String} {xs : List α} (c : List α) (hne : xs ≠ [])
    (h : xs.map text ≠ [""]) : (xs ++ c).map text ≠ [""] := by
  intro he
  rw [map_append, append_eq_singleton_iff] at he
  rcases he with ⟨hx, -⟩ | ⟨hx, -⟩
  · exact hne (map_eq_nil_iff.mp hx)
  · exact h hx

theorem applyEdit_atEof {text : α → String} {xs : List α} {e : HashlineEdit α}
    (he : e.atEof = true) (h : xs.map text ≠ [""]) : applyEdit text xs e = xs ++ e.content := by
  rw [applyEdit_eq_run fun _ => h, patch_of_atEof he]
  rfl

/-- The first block at the end takes the place of one empty line. -/
theorem applyEdit_blank {text : α → String} {xs : List α} {e : HashlineEdit α}
    (he : e.atEof = true) (h : xs.map text = [""]) : applyEdit text xs e = e.content := by
  rw [eq_of_atEof he]
  exact if_pos h

/-- Edits without an anchor at the end never find one empty line, when the file is not one. -/
theorem applyAll_eq_runAll_of_ne {text : α → String} {es : List (HashlineEdit α)} :
    ∀ {xs : List α}, (es.Pairwise fun e e' => e'.atEof = true → e.atEof = true) →
      (∀ e ∈ es, e.atBof = false) → xs ≠ [] → xs.map text ≠ [""] →
      applyAll text xs es = runAll xs (es.map patch) := by
  induction es with
  | nil =>
    intro xs _ _ _ _
    rfl
  | cons e es ih =>
    intro xs hp hb hne h
    obtain ⟨hp1, hp2⟩ := pairwise_cons.mp hp
    by_cases he : e.atEof = true
    · rw [applyAll, foldl_cons, applyEdit_atEof he h, map_cons, runAll_cons, patch_of_atEof he]
      exact ih hp2 (fun e' he' => hb e' (mem_cons_of_mem _ he'))
        (append_ne_nil_of_left_ne_nil hne _) (map_text_append_ne _ hne h)
    · refine applyAll_eq_runAll (fun e' he' => ?_) xs
      rw [hb e' he', Bool.or_false]
      rcases mem_cons.mp he' with rfl | he'
      · exact Bool.eq_false_iff.mpr he
      · exact Bool.eq_false_iff.mpr fun he'' => he (hp1 e' he' he'')

section Lines

variable {text : String} {edits : List (HashlineEdit String)}

theorem atBof_placedEdits (hb : ∀ e ∈ edits, e.atBof = false) :
    ∀ e ∈ placedEdits text edits, e.atBof = false := by
  intro e he
  obtain ⟨k, e', he', rfl⟩ := mem_placedEdits he
  rw [atBof_withContent]
  exact hb e' he'

theorem map_text_placeLines_eq_blank_iff :
    (placeLines (splitLines text)).map Placed.text = [""] ↔ text = "" := by
  rw [map_text_placeLines, splitLines_eq_blank_iff]

theorem placeLines_ne_nil : placeLines (splitLines text) ≠ [] := by
  intro h
  have hm := map_text_placeLines (splitLines text)
  rw [h] at hm
  exact splitLines_ne_nil text hm.symm

/-- Unless an empty file is filled, the execution is a run of patches. -/
theorem traced_eq_runAll (hv : ∀ e ∈ edits, Valid (splitLines text).length e)
    (hb : ∀ e ∈ edits, e.atBof = false) (hf : Filled text edits = false) :
    traced text edits = runAll (placeLines (splitLines text)) (placedPatches text edits) := by
  by_cases ht : text = ""
  · have hany : (placedEdits text edits).any atEof = false := by
      simpa [Filled, ht] using hf
    refine applyAll_eq_runAll (fun e he => ?_) _
    rw [atBof_placedEdits hb e he, Bool.or_false]
    simpa using any_eq_false.mp hany e he
  · exact applyAll_eq_runAll_of_ne (pairwise_atEof hv) (atBof_placedEdits hb)
      placeLines_ne_nil (mt map_text_placeLines_eq_blank_iff.mp ht)

end Lines

/-! ### An empty file that is filled -/

theorem eq_filter_append_filter {q : α → Bool} {l : List α}
    (h : l.Pairwise fun a b => q b = true → q a = true) :
    l = l.filter q ++ l.filter fun x => !q x := by
  induction l with
  | nil => rfl
  | cons a l ih =>
    obtain ⟨h1, h2⟩ := pairwise_cons.mp h
    by_cases ha : q a = true
    · rw [filter_cons_of_pos ha, filter_cons_of_neg (by simp [ha]), cons_append, ← ih h2]
    · have hl : l.filter q = [] :=
        filter_eq_nil_iff.mpr fun b hb hqb => ha (h1 b hb hqb)
      rw [filter_cons_of_neg ha, filter_cons_of_pos (by simp [ha]), hl, nil_append]
      rw [hl, nil_append] at ih
      exact congrArg _ (ih h2)

theorem applyEdit_subset {text : α → String} {xs : List α} {e : HashlineEdit α} :
    ∀ x ∈ applyEdit text xs e, x ∈ xs ++ e.content := by
  intro x hx
  by_cases hg : (e.atEof || e.atBof) = true ∧ xs.map text = [""]
  · obtain ⟨he, hg⟩ := hg
    refine mem_append_right _ ?_
    cases e with
    | append t c | prepend t c =>
      cases t with
      | none => rwa [applyEdit, if_pos hg] at hx
      | some t => cases he
    | set t c => cases he
    | replace f l c => cases he
    | insert t u c => cases he
  · rw [applyEdit_eq_run fun he => fun h => hg ⟨he, h⟩] at hx
    rw [← patch_content]
    cases hp : e.patch with
    | range a b c | after k c | before k c =>
      rw [hp] at hx
      exact (splice_subperm _ _ _ _).subset hx
    | atEnd c =>
      rw [hp] at hx
      exact hx

/-- A line that is gone does not come back. -/
theorem not_mem_applyAll {text : α → String} {x : α} {es : List (HashlineEdit α)} :
    ∀ {xs : List α}, x ∉ xs → x ∉ es.flatMap HashlineEdit.content → x ∉ applyAll text xs es := by
  induction es with
  | nil =>
    intro xs hx _
    exact hx
  | cons e es ih =>
    intro xs hx hc
    rw [flatMap_cons, mem_append, not_or] at hc
    refine ih (fun hm => ?_) hc.2
    rcases mem_append.mp (applyEdit_subset x hm) with hm | hm
    · exact hx hm
    · exact hc.1 hm

theorem applyAll_atEof {text : α → String} {es : List (HashlineEdit α)}
    (he : ∀ e ∈ es, e.atEof = true) :
    ∀ {xs : List α}, xs ≠ [] → xs.map text ≠ [""] →
      applyAll text xs es = xs ++ es.flatMap HashlineEdit.content := by
  induction es with
  | nil =>
    intro xs _ _
    simp [applyAll]
  | cons e es ih =>
    intro xs hne h
    rw [applyAll, foldl_cons, applyEdit_atEof (he e (by simp)) h]
    have h' := ih (fun e' he' => he e' (mem_cons_of_mem _ he'))
      (append_ne_nil_of_left_ne_nil hne e.content) (map_text_append_ne e.content hne h)
    rw [applyAll] at h'
    rw [h', flatMap_cons, append_assoc]

theorem runAll_afters {ps : List (Patch α)} (h : ∀ p ∈ ps, p = .after 1 p.content) :
    ∀ (x : α) (ys : List α),
      runAll (x :: ys) ps = x :: (ps.reverse.flatMap Patch.content ++ ys) := by
  induction ps with
  | nil =>
    intro x ys
    rfl
  | cons p ps ih =>
    intro x ys
    have hp : p.run (x :: ys) = x :: (p.content ++ ys) := by
      rw [h p (by simp)]
      simp [run, splice, Patch.content]
    rw [runAll_cons, hp, ih (fun q hq => h q (mem_cons_of_mem _ hq)), reverse_cons, flatMap_append]
    simp

theorem runAll_befores {ps : List (Patch α)} (h : ∀ p ∈ ps, p = .before 1 p.content) :
    ∀ xs : List α, runAll xs ps = ps.reverse.flatMap Patch.content ++ xs := by
  induction ps with
  | nil =>
    intro xs
    rfl
  | cons p ps ih =>
    intro xs
    have hp : p.run xs = p.content ++ xs := by
      rw [h p (by simp)]
      simp [run, splice, Patch.content]
    rw [runAll_cons, hp, ih (fun q hq => h q (mem_cons_of_mem _ hq)), reverse_cons, flatMap_append]
    simp

/-- In a file of one line, the patches with an anchor name line one. -/
theorem patch_line_one {e : HashlineEdit α} (hf : e.patch.Fits 1) (he : e.atEof = false) :
    e.patch = .range 1 1 e.content ∧ inFront e = false ∨
      e.patch = .after 1 e.content ∧ inFront e = false ∨
      e.patch = .before 1 e.content ∧ inFront e = true := by
  cases e with
  | append t c =>
    cases t with
    | none => cases he
    | some t =>
      obtain ⟨h1, h2⟩ := hf
      exact .inr (.inl ⟨by rw [patch, le_antisymm h2 h1]; rfl, rfl⟩)
  | prepend t c =>
    cases t with
    | none => exact .inr (.inr ⟨rfl, rfl⟩)
    | some t =>
      obtain ⟨h1, h2⟩ := hf
      exact .inr (.inr ⟨by rw [patch, le_antisymm h2 h1]; rfl, rfl⟩)
  | set t c =>
    obtain ⟨h1, -, h2⟩ := hf
    exact .inl ⟨by rw [patch, le_antisymm h2 h1]; rfl, rfl⟩
  | replace f l c =>
    obtain ⟨h1, h2, h3⟩ := hf
    refine .inl ⟨?_, rfl⟩
    rw [patch, show f.line = 1 by omega, show l.line = 1 by omega]
    rfl
  | insert t u c =>
    obtain ⟨h1, h2⟩ := hf
    exact .inr (.inr ⟨by rw [patch, le_antisymm h2 h1]; rfl, rfl⟩)

theorem layout_filled {b : α} {ends as bs : List (Patch α)}
    (hends : ∀ p ∈ ends, p = .atEnd p.content) (has : ∀ p ∈ as, p = .after 1 p.content)
    (hbs : ∀ p ∈ bs, p = .before 1 p.content) :
    layout [b] (ends ++ (as ++ bs) ++ [.range 1 1 []]) =
      bs.reverse.flatMap Patch.content ++ (as.reverse.flatMap Patch.content ++
        ends.flatMap Patch.content) := by
  set r : Patch α := .range 1 1 [] with hr
  have hfind : (ends ++ (as ++ bs) ++ [r]).find? (covers 1) = some r := by
    rw [find?_append, find?_eq_none.mpr]
    · rfl
    · intro p hp
      rcases mem_append.mp hp with hp | hp
      · rw [hends p hp]
        simp [covers]
      · rcases mem_append.mp hp with hp | hp
        · rw [has p hp]
          simp [covers]
        · rw [hbs p hp]
          simp [covers]
  have hhome : home (ends ++ (as ++ bs) ++ [r]) 1 = 1 := by rw [home, hfind]
  have hcore : core [b] (ends ++ (as ++ bs) ++ [r]) 1 = [] := by
    rw [core, hfind]
    rfl
  have hnil : ∀ (f : Patch α → List α) (l : List (Patch α)), (∀ p ∈ l, f p = []) →
      l.flatMap f = [] := fun f l h => flatMap_eq_nil_iff.mpr h
  have hb : befores (ends ++ (as ++ bs) ++ [r]) 1 = bs.reverse.flatMap Patch.content := by
    rw [befores, reverse_concat, flatMap_cons, reverse_append, reverse_append,
      flatMap_append, flatMap_append, hnil _ as.reverse, hnil _ ends.reverse]
    · rw [append_nil, append_nil]
      refine flatMap_congr fun p hp => ?_
      rw [hbs p (mem_reverse.mp hp), blockBefore, if_pos hhome]
      rfl
    · intro p hp
      rw [hends p (mem_reverse.mp hp)]
      rfl
    · intro p hp
      rw [has p (mem_reverse.mp hp)]
      rfl
  have ha : afters (ends ++ (as ++ bs) ++ [r]) 1 = as.reverse.flatMap Patch.content := by
    rw [afters, reverse_concat, flatMap_cons, reverse_append, reverse_append,
      flatMap_append, flatMap_append, hnil _ bs.reverse, hnil _ ends.reverse]
    · rw [append_nil, nil_append]
      refine flatMap_congr fun p hp => ?_
      rw [has p (mem_reverse.mp hp), blockAfter, if_pos hhome]
      rfl
    · intro p hp
      rw [hends p (mem_reverse.mp hp)]
      rfl
    · intro p hp
      rw [hbs p (mem_reverse.mp hp)]
      rfl
  have he : (ends ++ (as ++ bs) ++ [r]).flatMap blockEnd = ends.flatMap Patch.content := by
    rw [flatMap_append, flatMap_append, flatMap_append, hnil _ as, hnil _ bs]
    · rw [append_nil, append_nil, hr]
      simp only [flatMap_cons, flatMap_nil, blockEnd, append_nil]
      refine flatMap_congr fun p hp => ?_
      rw [hends p hp]
      rfl
    · intro p hp
      rw [hbs p hp]
      rfl
    · intro p hp
      rw [has p hp]
      rfl
  rw [layout, he, length_singleton, range'_one, flatMap_singleton, Patch.segment, hb,
    hcore, ha, append_nil, append_assoc]

section FilledFile

variable {edits : List (HashlineEdit String)}

theorem placeLines_empty : placeLines (splitLines "") = [⟨.original 1, ""⟩] := by decide

theorem placedEdits_eq_append (hv : ∀ e ∈ edits, Valid (splitLines "").length e) :
    placedEdits "" edits = (placedEdits "" edits).filter atEof ++
      (placedEdits "" edits).filter fun e => !e.atEof :=
  eq_filter_append_filter (pairwise_atEof hv)

variable {e : HashlineEdit Placed}

theorem content_ne_nil (hv : ∀ e ∈ edits, Valid (splitLines "").length e)
    (he : e ∈ placedEdits "" edits) (hc : ∀ k, e.patch.covers k = false) : e.content ≠ [] := by
  rw [← patch_content]
  exact content_placedPatches hv _ (mem_map_of_mem he) hc

/-- The blocks at the end are in the simultaneous application. -/
theorem mem_simultaneous_of_atEof {text : String} (he : e ∈ placedEdits text edits)
    (h : e.atEof = true) {x : Placed} (hx : x ∈ e.content) : x ∈ simultaneous text edits := by
  refine mem_append_right _ (mem_flatMap.mpr ⟨e.patch, ?_, ?_⟩)
  · have hm : e.patch ∈ placedPatches text edits := mem_map_of_mem he
    split
    · exact mem_append_left _ hm
    · exact hm
  · rw [patch_of_atEof h]
    exact hx

/-- What the filled file holds after the blocks at the end, unless the first of them is one empty
line and there is another. -/
theorem applyAll_blank {text : α → String} {b : α} {a : HashlineEdit α}
    {as : List (HashlineEdit α)} (hb : text b = "") (ha : ∀ e ∈ a :: as, e.atEof = true)
    (hne : a.content ≠ []) (h : a.content.map text = [""] → as = []) :
    applyAll text [b] (a :: as) = (a :: as).flatMap HashlineEdit.content := by
  have hfirst : applyEdit text [b] a = a.content :=
    applyEdit_blank (ha a (by simp)) (by simp [hb])
  rw [applyAll, foldl_cons, hfirst, flatMap_cons]
  by_cases hbl : a.content.map text = [""]
  · rw [h hbl]
    simp
  · exact applyAll_atEof (fun e he => ha e (mem_cons_of_mem _ he)) hne hbl

theorem nodup_content (text : String) (edits : List (HashlineEdit String)) :
    ((placedEdits text edits).flatMap HashlineEdit.content).Nodup :=
  (nodup_append'.mp (nodup_placed (splitLines text)
    (ranked_nodup (splitLines text).length edits))).2.1

theorem traced_ne_of_lost {text : String} {x : Placed} (he : e ∈ placedEdits text edits)
    (h : e.atEof = true) (hx : x ∈ e.content) {pre post : List (HashlineEdit Placed)}
    {xs : List Placed} (hsplit : placedEdits text edits = pre ++ post)
    (hpre : applyAll Placed.text (placeLines (splitLines text)) pre = xs) (hxs : x ∉ xs)
    (hpost : x ∉ post.flatMap HashlineEdit.content) :
    traced text edits ≠ simultaneous text edits := by
  intro heq
  have hm := mem_simultaneous_of_atEof he h hx
  rw [← heq, traced, hsplit, applyAll, foldl_append] at hm
  rw [applyAll] at hpre
  rw [hpre] at hm
  exact not_mem_applyAll hxs hpost hm

/-- The edits of an empty file that is filled: those at the end, the first of them `a`, and those
that name line one. -/
structure FillSplit (edits : List (HashlineEdit String)) (a : HashlineEdit Placed)
    (as bs : List (HashlineEdit Placed)) : Prop where
  eq : placedEdits "" edits = (a :: as) ++ bs
  ends : ∀ e ∈ a :: as, e.atEof = true
  rest : ∀ e ∈ bs, (e.atEof || e.atBof) = false
  fits : ∀ e ∈ bs, e.patch.Fits 1
  ranked : (bs.map patch).Pairwise (Precedes 1)
  nonempty : ∀ e ∈ (a :: as) ++ bs, (∀ k, e.patch.covers k = false) → e.content ≠ []

theorem exists_fillSplit (hv : ∀ e ∈ edits, Valid (splitLines "").length e)
    (hb : ∀ e ∈ edits, e.atBof = false) (hd : RangesApart edits) (hf : Filled "" edits = true) :
    ∃ a as bs, FillSplit edits a as bs ∧ (placedEdits "" edits).filter atEof = a :: as := by
  have hE := placedEdits_eq_append hv
  have hscript := script_placedPatches hv hb hd
  obtain ⟨e, he, hee⟩ := any_eq_true.mp (Bool.and_eq_true_iff.mp hf).2
  obtain ⟨a, as, has⟩ :=
    exists_cons_of_ne_nil (ne_nil_of_mem (mem_filter.mpr ⟨he, hee⟩))
  have hsub := filter_sublist (p := fun e => !e.atEof) (l := placedEdits "" edits)
  refine ⟨a, as, (placedEdits "" edits).filter fun e => !e.atEof, ⟨?_, ?_, ?_, ?_, ?_, ?_⟩, has⟩
  · rw [← has]
    exact hE
  · intro e he
    rw [← has] at he
    exact (mem_filter.mp he).2
  · intro e he
    rw [atBof_placedEdits hb e (hsub.subset he), Bool.or_false]
    simpa using (mem_filter.mp he).2
  · intro e he
    exact hscript.fits _ (mem_map_of_mem (hsub.subset he))
  · exact hscript.ranked.sublist (hsub.map patch)
  · intro e he hc
    rw [← has, ← hE] at he
    exact content_ne_nil hv he hc

namespace FillSplit

variable {a : HashlineEdit Placed} {as bs : List (HashlineEdit Placed)}

theorem content_ne_nil_head (h : FillSplit edits a as bs) : a.content ≠ [] :=
  h.nonempty a (by simp) fun k => by rw [patch_of_atEof (h.ends a (by simp))]; rfl

theorem not_mem_tail (h : FillSplit edits a as bs) {x : Placed} (hx : x ∈ a.content) :
    x ∉ (as ++ bs).flatMap HashlineEdit.content := by
  have hnd := nodup_content "" edits
  rw [h.eq, cons_append, flatMap_cons, nodup_append'] at hnd
  exact fun hm => hnd.2.2 hx hm

theorem nodup_head (h : FillSplit edits a as bs) : a.content.Nodup := by
  have hnd := nodup_content "" edits
  rw [h.eq, cons_append, flatMap_cons, nodup_append'] at hnd
  exact hnd.1

variable {e : HashlineEdit Placed}

section

variable (h : FillSplit edits a as bs)
include h

theorem atEof_rest (he : e ∈ bs) :
    e.atEof = false := (Bool.or_eq_false_iff.mp (h.rest e he)).1

/-- What the file holds after the edits at the end. -/
theorem applyAll_ends (hbl : a.content.map Placed.text = [""] → as = []) :
    applyAll Placed.text (placeLines (splitLines "")) (a :: as) =
      a.content ++ as.flatMap HashlineEdit.content := by
  rw [placeLines_empty, applyAll_blank rfl h.ends h.content_ne_nil_head hbl, flatMap_cons]

theorem mem_head : a ∈ placedEdits "" edits := by
  rw [h.eq]
  simp

theorem traced_ne_of_blank (hbl : a.content.map Placed.text = [""]) (has : as ≠ []) :
    traced "" edits ≠ simultaneous "" edits := by
  obtain ⟨x, hx⟩ := exists_mem_of_ne_nil _ h.content_ne_nil_head
  obtain ⟨a', as', rfl⟩ := exists_cons_of_ne_nil has
  have hxt := h.not_mem_tail hx
  rw [cons_append, flatMap_cons, mem_append, not_or] at hxt
  have hsplit : placedEdits "" edits = [a, a'] ++ (as' ++ bs) := h.eq
  refine traced_ne_of_lost h.mem_head (h.ends a (by simp)) hx hsplit ?_ hxt.1 hxt.2
  rw [placeLines_empty, applyAll, foldl_cons, foldl_cons, foldl_nil,
    applyEdit_blank (h.ends a (by simp)) rfl, applyEdit_blank (h.ends a' (by simp)) hbl]

/-- The edits that name line one are ranked by their kind. -/
theorem pairwise_kind :
    bs.Pairwise fun e e' => e.patch.kind ≤ e'.patch.kind := by
  have hline : ∀ e ∈ bs, e.patch.line 1 = 1 := by
    intro e he
    rcases patch_line_one (h.fits e he) (h.atEof_rest he) with ⟨hp, -⟩ | ⟨hp, -⟩ | ⟨hp, -⟩ <;>
      rw [hp] <;> rfl
  refine List.Pairwise.imp_of_mem (fun {e e'} he he' hee => ?_) (pairwise_map.mp h.ranked)
  rw [Precedes, hline e he, hline e' he'] at hee
  omega

/-- A range removes the first line of the first block. -/
theorem traced_ne_of_range (hbl : a.content.map Placed.text = [""] → as = []) (he : e ∈ bs)
    (hr : e.patch.kind = 0) : traced "" edits ≠ simultaneous "" edits := by
  obtain ⟨x, xs, hx⟩ := exists_cons_of_ne_nil h.content_ne_nil_head
  have hxa : x ∈ a.content := by rw [hx]; simp
  have hxt := h.not_mem_tail hxa
  -- the first edit that names line one is a range, as its kind is the least
  obtain ⟨e', bs', rfl⟩ := exists_cons_of_ne_nil (ne_nil_of_mem he)
  have hk : e'.patch.kind = 0 := by
    rcases mem_cons.mp he with rfl | he
    · exact hr
    · exact Nat.le_zero.mp (hr ▸ (pairwise_cons.mp h.pairwise_kind).1 e he)
  have he' : e'.patch = .range 1 1 e'.content := by
    rcases patch_line_one (h.fits e' (by simp)) (h.atEof_rest (by simp)) with
      ⟨hp, -⟩ | ⟨hp, -⟩ | ⟨hp, -⟩
    · exact hp
    · rw [hp] at hk
      cases hk
    · rw [hp] at hk
      cases hk
  have hsplit : placedEdits "" edits = (a :: as ++ [e']) ++ bs' := by rw [h.eq]; simp
  have hrun : applyAll Placed.text (placeLines (splitLines "")) (a :: as ++ [e']) =
      e'.content ++ (xs ++ as.flatMap HashlineEdit.content) := by
    have hends := h.applyAll_ends hbl
    rw [applyAll] at hends
    rw [applyAll, foldl_append, hends, foldl_cons, foldl_nil,
      applyEdit_eq_run (by rw [h.rest e' (by simp)]; intro hc; cases hc), he', hx]
    simp [run, splice]
  rw [flatMap_append, flatMap_cons, mem_append, mem_append, not_or, not_or] at hxt
  refine traced_ne_of_lost h.mem_head (h.ends a (by simp)) hxa hsplit hrun ?_ hxt.2.2
  have hnd := h.nodup_head
  rw [hx, nodup_cons] at hnd
  simp only [mem_append, not_or]
  exact ⟨hxt.2.1, hnd.1, hxt.1⟩

/-- Without ranges, the blocks after line one come first and those before it last. -/
theorem exists_blocks (hr : ∀ e ∈ bs, e.patch.kind ≠ 0) :
    ∃ fs gs, bs = fs ++ gs ∧ (∀ e ∈ fs, e.patch = .after 1 e.content ∧ inFront e = false) ∧
      ∀ e ∈ gs, e.patch = .before 1 e.content ∧ inFront e = true := by
  have hbs : ∀ e ∈ bs, e.patch = .after 1 e.content ∧ inFront e = false ∨
      e.patch = .before 1 e.content ∧ inFront e = true := by
    intro e he
    rcases patch_line_one (h.fits e he) (h.atEof_rest he) with ⟨hp, -⟩ | hp | hp
    · exact absurd (by rw [hp]; rfl) (hr e he)
    · exact .inl hp
    · exact .inr hp
  have hkinds : bs.Pairwise fun e e' => (!inFront e') = true → (!inFront e) = true := by
    refine List.Pairwise.imp_of_mem (fun {e e'} he he' hk hq => ?_) h.pairwise_kind
    rcases hbs e he with ⟨-, hi⟩ | ⟨hp, -⟩
    · simp [hi]
    · rcases hbs e' he' with ⟨hp', -⟩ | ⟨-, hi'⟩
      · rw [hp, hp'] at hk
        simp only [kind] at hk
        omega
      · simp [hi'] at hq
  refine ⟨_, _, eq_filter_append_filter hkinds, fun e he => ?_, fun e he => ?_⟩
  · obtain ⟨he, hi⟩ := mem_filter.mp he
    rcases hbs e he with hp | ⟨-, hi'⟩
    · exact hp
    · simp [hi'] at hi
  · obtain ⟨he, hi⟩ := mem_filter.mp he
    rcases hbs e he with ⟨-, hi'⟩ | hp
    · simp [hi'] at hi
    · exact hp

/-- Without ranges, the blocks after line one land behind the first line of the first block. -/
theorem traced_eq_iff_of_no_range (hf : Filled "" edits = true)
    (hbl : a.content.map Placed.text = [""] → as = []) (hr : ∀ e ∈ bs, e.patch.kind ≠ 0) :
    traced "" edits = simultaneous "" edits ↔ ∀ e ∈ bs, inFront e = true := by
  obtain ⟨x, xs, hx⟩ := exists_cons_of_ne_nil h.content_ne_nil_head
  have hxt := h.not_mem_tail (x := x) (by rw [hx]; simp)
  obtain ⟨fs, gs, rfl, hfs, hgs⟩ := h.exists_blocks hr
  have hfs' : ∀ p ∈ fs.map patch, p = .after 1 p.content := by
    intro p hp
    obtain ⟨e, he, rfl⟩ := mem_map.mp hp
    rw [(hfs e he).1]
    rfl
  have hgs' : ∀ p ∈ gs.map patch, p = .before 1 p.content := by
    intro p hp
    obtain ⟨e, he, rfl⟩ := mem_map.mp hp
    rw [(hgs e he).1]
    rfl
  have hends : ∀ p ∈ (a :: as).map patch, p = .atEnd p.content := by
    intro p hp
    obtain ⟨e, he, rfl⟩ := mem_map.mp hp
    rw [patch_of_atEof (h.ends e he)]
    rfl
  have ht : traced "" edits = (gs.map patch).reverse.flatMap Patch.content ++
      x :: ((fs.map patch).reverse.flatMap Patch.content ++
        (xs ++ as.flatMap HashlineEdit.content)) := by
    have happ := h.applyAll_ends hbl
    rw [applyAll] at happ
    rw [traced, h.eq, applyAll, foldl_append, happ, ← applyAll, applyAll_eq_runAll h.rest,
      map_append, runAll, foldl_append, ← runAll, ← runAll, runAll_befores hgs', hx,
      cons_append, runAll_afters hfs']
  have hs : simultaneous "" edits = (gs.map patch).reverse.flatMap Patch.content ++
      ((fs.map patch).reverse.flatMap Patch.content ++
        x :: (xs ++ as.flatMap HashlineEdit.content)) := by
    have hcontent : ((a :: as).map patch).flatMap Patch.content =
        x :: (xs ++ as.flatMap HashlineEdit.content) := by
      rw [flatMap_map, flatMap_congr fun e _ => patch_content e, flatMap_cons, hx,
        cons_append]
    rw [simultaneous, if_pos hf, placedPatches, h.eq, map_append, map_append,
      placeLines_empty, layout_filled hends hfs' hgs', hcontent]
  rw [ht, hs, append_cancel_left_eq]
  refine ⟨fun heq => ?_, fun hin => ?_⟩
  · cases hfn : fs with
    | nil =>
      intro e he
      exact (hgs e he).2
    | cons f fs' =>
      -- the first line of some block after line one would be the first line of the first block
      have hf : f ∈ fs := by rw [hfn]; simp
      have hfc : f.content ≠ [] := h.nonempty f (by simp [hf]) fun k => by rw [(hfs f hf).1]; rfl
      obtain ⟨y, hy⟩ := exists_mem_of_ne_nil _ hfc
      have hF : (fs.map patch).reverse.flatMap Patch.content ≠ [] := by
        refine ne_nil_of_mem (a := y) (mem_flatMap.mpr ⟨f.patch, ?_, ?_⟩)
        · exact mem_reverse.mpr (mem_map_of_mem hf)
        · rwa [patch_content]
      obtain ⟨z, zs, hz⟩ := exists_cons_of_ne_nil hF
      rw [hz, cons_append, cons_append, List.cons.injEq] at heq
      have hzF : z ∈ (fs.map patch).reverse.flatMap Patch.content := by rw [hz]; simp
      obtain ⟨p, hp, hzp⟩ := mem_flatMap.mp hzF
      obtain ⟨e, he, rfl⟩ := mem_map.mp (mem_reverse.mp hp)
      rw [patch_content, ← heq.1] at hzp
      exact absurd (mem_flatMap.mpr ⟨e, by simp [he], hzp⟩) hxt
  · have hfn : fs = [] := by
      refine eq_nil_iff_forall_not_mem.mpr fun e he => ?_
      have hi := hin e (by simp [he])
      rw [(hfs e he).2] at hi
      cases hi
    rw [hfn]
    rfl

end

end FillSplit

/-- **An empty file that is filled**: the two meanings agree exactly when every block is well
placed. -/
theorem filled_iff (hv : ∀ e ∈ edits, Valid (splitLines "").length e)
    (hb : ∀ e ∈ edits, e.atBof = false) (hd : RangesApart edits) (hf : Filled "" edits = true) :
    traced "" edits = simultaneous "" edits ↔ WellPlaced "" edits := by
  obtain ⟨a, as, bs, h, hfilter⟩ := exists_fillSplit hv hb hd hf
  rw [WellPlaced, if_pos hf, hfilter]
  by_cases hbl : a.content.map Placed.text = [""] → as = []
  · by_cases hr : ∀ e ∈ bs, e.patch.kind ≠ 0
    · rw [h.traced_eq_iff_of_no_range hf hbl hr]
      refine ⟨fun hin => ⟨fun e he => ?_, fun e es hes => ?_⟩, fun hw e he => ?_⟩
      · rw [h.eq] at he
        rcases mem_append.mp he with he | he
        · exact .inl (h.ends e he)
        · exact .inr (hin e he)
      · obtain ⟨rfl, rfl⟩ := List.cons.inj hes
        exact hbl
      · have hw := hw.1 e (by rw [h.eq]; exact mem_append_right _ he)
        rw [h.atEof_rest he] at hw
        exact hw.resolve_left Bool.false_ne_true
    · push Not at hr
      obtain ⟨e, he, hk⟩ := hr
      refine iff_of_false (h.traced_ne_of_range hbl he hk) fun hw => ?_
      have hw := hw.1 e (by rw [h.eq]; exact mem_append_right _ he)
      rw [h.atEof_rest he] at hw
      rcases patch_line_one (h.fits e he) (h.atEof_rest he) with ⟨-, hi⟩ | ⟨-, hi⟩ | ⟨hp, -⟩
      · simp [hi] at hw
      · simp [hi] at hw
      · rw [hp] at hk
        cases hk
  · obtain ⟨hbl', has⟩ := Classical.not_imp.mp hbl
    exact iff_of_false (h.traced_ne_of_blank hbl' has) fun hw => has (hw.2 a as rfl hbl')

end FilledFile

/-! ### Main result -/

/-- **Snapshot semantics.**  For an accepted list of edits whose ranges do not meet, the traced
lines are the simultaneous application of the edits exactly when every block is well placed. -/
theorem traced_eq_simultaneous_iff (text result : String) (edits : List (HashlineEdit String))
    (h : applyHashlineEdits text edits = .ok result) (hb : ∀ e ∈ edits, e.atBof = false)
    (hd : RangesApart edits) :
    result = joinLines ((traced text edits).map Placed.text) ∧
      (traced text edits = simultaneous text edits ↔ WellPlaced text edits) := by
  obtain ⟨hv, hres⟩ := applyHashlineEdits_ok h
  refine ⟨by rw [traced_text, hres], ?_⟩
  by_cases hf : Filled text edits = true
  · obtain rfl : text = "" := by simpa using (Bool.and_eq_true_iff.mp hf).1
    exact filled_iff hv hb hd hf
  · rw [traced_eq_runAll hv hb (Bool.eq_false_iff.mpr hf), simultaneous, if_neg hf, WellPlaced,
      if_neg hf]
    exact runAll_eq_layout_iff (script_placedPatches hv hb hd) (nodup_placedPatches text edits)
      (content_placedPatches hv)

/-- A block after the last line of a range that keeps its length, and one outside the ranges. -/
theorem traced_eq_simultaneous_sameLength :
    let edits : List (HashlineEdit String) :=
      [.set ⟨1, "RW"⟩ ["x"], .append (some ⟨1, "RW"⟩) ["z"], .insert ⟨1, "RW"⟩ ⟨2, "XH"⟩ ["w"]]
    applyHashlineEdits "a\nb" edits = .ok "x\nz\nw\nb" ∧ WellPlaced "a\nb" edits ∧
      traced "a\nb" edits = simultaneous "a\nb" edits := by
  intro edits
  have h : applyHashlineEdits "a\nb" edits = .ok "x\nz\nw\nb" := by decide
  have hw : WellPlaced "a\nb" edits := by
    rw [WellPlaced, if_neg (by decide)]
    decide
  have hd : RangesApart edits := by
    simp [edits, RangesApart, Apart, patch, covers]
  exact ⟨h, hw, (traced_eq_simultaneous_iff _ _ edits h (by decide) hd).2.mpr hw⟩

/-- A block after a line that is replaced by two lines lands between them. -/
theorem staleAppend_misplaced :
    let edits : List (HashlineEdit String) :=
      [.set ⟨1, "RW"⟩ ["x", "y"], .append (some ⟨1, "RW"⟩) ["z"]]
    applyHashlineEdits "a\nb" edits = .ok "x\nz\ny\nb" ∧ RangesApart edits ∧
      (∀ e ∈ edits, e.atBof = false) ∧
      (simultaneous "a\nb" edits).map Placed.text = ["x", "y", "z", "b"] ∧
      (traced "a\nb" edits).map Placed.text ≠ (simultaneous "a\nb" edits).map Placed.text := by
  intro edits
  have hd : RangesApart edits := by
    simp [edits, RangesApart, Apart, patch, covers]
  exact ⟨by decide, hd, by decide, by decide, by decide⟩

end KolegaCode.Hashline
