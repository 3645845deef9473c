import KolegaCode.Hashline.Snapshot
import KolegaCode.Lib.PatchTrack

/-!
# Hashline — lines that no edit names

A line of the file that lies in no range stays, once and in its place among the others.  Nothing
rejects ranges that overlap, and the second of two such ranges is spliced at line numbers the first
one has moved.  `survivors_eq_iff` says when the law holds: every line outside the ranges can be
followed through the edits by line counts (`trackAll`), and a `prepend` without an anchor does not
take the one empty line that is left for an empty file (`Swallowed`).
-/

namespace KolegaCode.Hashline

open List
open Patch HashlineEdit

/-- The lines of the file; an empty file has none. -/
def originalLines (text : String) : List Placed :=
  if text = "" then [] else placeLines (splitLines text)

/-- A line of the file that lies in no range. -/
def outside (edits : List (HashlineEdit String)) (x : Placed) : Bool :=
  match x.origin with
  | .original i => edits.all fun e => !e.patch.covers i
  | .written .. => false

/-- The lines of the file outside the ranges. -/
def kept (text : String) (edits : List (HashlineEdit String)) (x : Placed) : Bool :=
  outside edits x && decide (x ∈ originalLines text)

/-- What the result holds of these lines. -/
def survivors (text : String) (edits : List (HashlineEdit String)) : List Placed :=
  (traced text edits).filter (kept text edits)

/-- The edits other than `prepend`s without an anchor: these come last. -/
def framedEdits (text : String) (edits : List (HashlineEdit String)) : List (HashlineEdit Placed) :=
  (placedEdits text edits).filter fun e => !e.atBof

/-- A `prepend` without an anchor finds one line left, and a line outside the ranges is empty. -/
def Swallowed (text : String) (edits : List (HashlineEdit String)) : Prop :=
  (placedEdits text edits).any atBof = true ∧
    countAll (originalLines text).length ((framedEdits text edits).map patch) = 1 ∧
    ∃ x ∈ originalLines text, outside edits x = true ∧ x.text = ""

/-- Every line outside the ranges can be followed through the edits, and none is swallowed. -/
def FrameKept (text : String) (edits : List (HashlineEdit String)) : Prop :=
  (∀ i x, (originalLines text)[i]? = some x → outside edits x = true →
    (trackAll i ((framedEdits text edits).map patch)).isSome = true) ∧ ¬ Swallowed text edits

theorem eq_of_atBof {α : Type} {e : HashlineEdit α} (h : e.atBof = true) :
    e = .prepend none e.content := by
  cases e with
  | prepend t c =>
    cases t with
    | none => rfl
    | some t => cases h
  | append t c => cases h
  | set t c => cases h
  | replace f l c => cases h
  | insert t u c => cases h

/-! ### Prepends without an anchor come last -/

section Bof

variable {α : Type} {keep : α → Bool} {text : α → String}

theorem applyEdit_atBof {xs : List α} {e : HashlineEdit α} (he : e.atBof = true) :
    applyEdit text xs e = if xs.map text = [""] then e.content else e.content ++ xs := by
  rw [eq_of_atBof he]
  simp [applyEdit, splice, HashlineEdit.content]

/-- They add lines in front, as long as they do not take the list for an empty file. -/
theorem filter_applyAll_atBof {es : List (HashlineEdit α)} :
    ∀ {xs : List α}, (∀ e ∈ es, e.atBof = true ∧ e.content ≠ []) →
      (∀ x ∈ es.flatMap HashlineEdit.content, keep x = false) →
      (xs.map text = [""] → xs.filter keep = []) →
      (applyAll text xs es).filter keep = xs.filter keep := by
  induction es with
  | nil =>
    intro xs _ _ _
    rfl
  | cons e es ih =>
    intro xs he hc hx
    rw [flatMap_cons, forall_mem_append] at hc
    obtain ⟨he1, hne⟩ := he e (by simp)
    have hec : e.content.filter keep = [] := filter_eq_nil_iff.mpr (by simpa using hc.1)
    have hstep : (applyEdit text xs e).filter keep = xs.filter keep := by
      rw [applyEdit_atBof he1]
      split
      · rename_i hbl
        rw [hec, hx hbl]
      · rw [filter_append, hec, nil_append]
    rw [applyAll, foldl_cons, ← applyAll, ih (fun e' he' => he e' (by simp [he'])) hc.2, hstep]
    intro hbl
    rw [hstep]
    by_cases hxb : xs.map text = [""]
    · exact hx hxb
    · rw [applyEdit_atBof he1, if_neg hxb, map_append, append_eq_singleton_iff] at hbl
      rcases hbl with ⟨hnil, -⟩ | ⟨-, hnil⟩
      · exact absurd (map_eq_nil_iff.mp hnil) hne
      · rw [map_eq_nil_iff.mp hnil]
        rfl

/-- The first of them takes one empty line for an empty file. -/
theorem filter_applyAll_swallowed {e : HashlineEdit α} {es : List (HashlineEdit α)} {xs : List α}
    (he : ∀ e' ∈ e :: es, e'.atBof = true ∧ e'.content ≠ [])
    (hc : ∀ x ∈ (e :: es).flatMap HashlineEdit.content, keep x = false)
    (hx : xs.map text = [""]) : (applyAll text xs (e :: es)).filter keep = [] := by
  rw [flatMap_cons, forall_mem_append] at hc
  have hec : e.content.filter keep = [] := filter_eq_nil_iff.mpr (by simpa using hc.1)
  rw [applyAll, foldl_cons, applyEdit_atBof (he e (by simp)).1, if_pos hx, ← applyAll,
    filter_applyAll_atBof (fun e' he' => he e' (by simp [he'])) hc.2 fun _ => hec, hec]

end Bof

section Order

variable {text : String} {edits : List (HashlineEdit String)}

/-- Behind a `prepend` without an anchor there are only such. -/
theorem pairwise_atBof (hv : ∀ e ∈ edits, Valid (splitLines text).length e) :
    (placedEdits text edits).Pairwise fun e e' => (!e'.atBof) = true → (!e.atBof) = true := by
  rw [placedEdits, pairwise_map]
  refine List.Pairwise.imp_of_mem (fun {a b} hma hmb hab hbb => ?_) (ranked_pairwise _ edits)
  rw [placeEdit, atBof_withContent, Bool.not_eq_true'] at hbb ⊢
  by_contra haa
  have hla := sortKey_of_atBof (n := (splitLines text).length) (Bool.not_eq_false _ ▸ haa)
  obtain ⟨hlb, -⟩ := sortKey_eq (n := (splitLines text).length) hbb
  have hfit := (fits_withContent b.2 (placeContent b.1 b.2.content) _).mpr
    (hv _ (mem_of_mem_ranked hmb)).1
  have hpos : 1 ≤ (placeEdit b).patch.line (splitLines text).length := by
    change (placeEdit b).patch.Fits _ at hfit
    cases hp : (placeEdit b).patch with
    | range a' b' c' =>
      rw [hp] at hfit
      exact le_trans hfit.1 hfit.2.1
    | after k c' | before k c' =>
      rw [hp] at hfit
      exact hfit.1
    | atEnd c' => exact Nat.le_add_left 1 _
  rw [SortKey.Le] at hab
  omega

theorem traced_eq_framed (hv : ∀ e ∈ edits, Valid (splitLines text).length e) (ht : text ≠ "") :
    traced text edits = applyAll Placed.text
      (runAll (originalLines text) ((framedEdits text edits).map patch))
      ((placedEdits text edits).filter fun e => !!e.atBof) := by
  have hE := eq_filter_append_filter (pairwise_atBof hv)
  have hframed : applyAll Placed.text (placeLines (splitLines text)) (framedEdits text edits) =
      runAll (placeLines (splitLines text)) ((framedEdits text edits).map patch) := by
    refine applyAll_eq_runAll_of_ne ((pairwise_atEof hv).sublist filter_sublist)
      (fun e he => ?_) placeLines_ne_nil (mt map_text_placeLines_eq_blank_iff.mp ht)
    simpa using (mem_filter.mp he).2
  rw [originalLines, if_neg ht, ← hframed, traced, applyAll, applyAll, applyAll,
    ← foldl_append, framedEdits, ← hE]

end Order

/-! ### The frame law -/

section Frame

variable {text : String} {edits : List (HashlineEdit String)}

theorem kept_content {e : HashlineEdit Placed} (he : e ∈ placedEdits text edits) :
    ∀ x ∈ e.content, kept text edits x = false := by
  intro x hx
  obtain ⟨k, e', -, rfl⟩ := mem_placedEdits he
  rw [content_withContent] at hx
  obtain ⟨j, hj⟩ := origin_of_mem_placeContent hx
  simp [kept, outside, hj]

theorem filter_kept_originalLines :
    (originalLines text).filter (kept text edits) = (originalLines text).filter (outside edits) :=
  filter_congr fun x hx => by simp [kept, hx]

theorem nodup_originalLines (text : String) : (originalLines text).Nodup := by
  rw [originalLines]
  split
  · exact nodup_nil
  · exact nodup_placeLines _

/-- The lines that stand before the `prepend`s without an anchor. -/
def framed (text : String) (edits : List (HashlineEdit String)) : List Placed :=
  runAll (originalLines text) ((framedEdits text edits).map patch)

theorem mem_of_mem_framedEdits {e : HashlineEdit Placed} (he : e ∈ framedEdits text edits) :
    e ∈ placedEdits text edits := (mem_filter.mp he).1

theorem kept_framedEdits :
    ∀ x ∈ ((framedEdits text edits).map patch).flatMap Patch.content, kept text edits x = false := by
  intro x hx
  obtain ⟨p, hp, hx⟩ := mem_flatMap.mp hx
  obtain ⟨e, he, rfl⟩ := mem_map.mp hp
  rw [patch_content] at hx
  exact kept_content (mem_of_mem_framedEdits he) x hx

/-- The framed edits keep the lines outside the ranges exactly when they can be followed. -/
theorem filter_framed_iff :
    (framed text edits).filter (kept text edits) = (originalLines text).filter (kept text edits) ↔
      ∀ i x, (originalLines text)[i]? = some x → outside edits x = true →
        (trackAll i ((framedEdits text edits).map patch)).isSome = true := by
  rw [framed, filter_runAll_eq_iff (nodup_originalLines text) kept_framedEdits]
  refine forall_congr' fun i => forall_congr' fun x => forall_congr' fun hx => ?_
  rw [kept, decide_eq_true (mem_of_getElem? hx), Bool.and_true]

/-- One empty line outside the ranges is left, in terms of line counts. -/
theorem blank_iff_count
    (hf : (framed text edits).filter (kept text edits) =
      (originalLines text).filter (kept text edits)) :
    ((framed text edits).map Placed.text = [""] ∧
        (framed text edits).filter (kept text edits) ≠ []) ↔
      countAll (originalLines text).length ((framedEdits text edits).map patch) = 1 ∧
        ∃ x ∈ originalLines text, outside edits x = true ∧ x.text = "" := by
  rw [← length_runAll, ← framed]
  refine ⟨fun h => ?_, fun h => ?_⟩
  · obtain ⟨hbl, hne⟩ := h
    obtain ⟨y, hy, hty⟩ := map_eq_singleton_iff.mp hbl
    obtain ⟨x, hx⟩ := exists_mem_of_ne_nil _ hne
    have hxy : x = y := by simpa [hy] using (mem_filter.mp hx).1
    rw [hf, filter_kept_originalLines] at hx
    obtain ⟨hxo, hxk⟩ := mem_filter.mp hx
    exact ⟨by rw [hy]; rfl, x, hxo, hxk, by rw [hxy, hty]⟩
  · obtain ⟨hlen, x, hxo, hxk, hxt⟩ := h
    have hx : x ∈ (framed text edits).filter (kept text edits) := by
      rw [hf, filter_kept_originalLines]
      exact mem_filter.mpr ⟨hxo, hxk⟩
    obtain ⟨y, hy⟩ := length_eq_one_iff.mp hlen
    have hxy : x = y := by simpa [hy] using (mem_filter.mp hx).1
    refine ⟨?_, ne_nil_of_mem hx⟩
    rw [hy, ← hxy, map_singleton, hxt]

theorem survivors_eq_iff_of_ne (hv : ∀ e ∈ edits, Valid (splitLines text).length e)
    (ht : text ≠ "") :
    survivors text edits = (originalLines text).filter (outside edits) ↔ FrameKept text edits := by
  set B := (placedEdits text edits).filter fun e => !!e.atBof with hB
  have hBm : ∀ e ∈ B, e ∈ placedEdits text edits := fun e he => (mem_filter.mp he).1
  have hBe : ∀ e ∈ B, e.atBof = true ∧ e.content ≠ [] := by
    intro e he
    have hb : e.atBof = true := by simpa using (mem_filter.mp he).2
    refine ⟨hb, ?_⟩
    rw [← patch_content]
    exact content_placedPatches hv _ (mem_map_of_mem (hBm e he))
      fun k => by rw [eq_of_atBof hb]; rfl
  have hBc : ∀ x ∈ B.flatMap HashlineEdit.content, kept text edits x = false := by
    intro x hx
    obtain ⟨e, he, hx⟩ := mem_flatMap.mp hx
    exact kept_content (hBm e he) x hx
  have htr : survivors text edits =
      (applyAll Placed.text (framed text edits) B).filter (kept text edits) := by
    rw [survivors, traced_eq_framed hv ht]
    rfl
  rw [htr, ← filter_kept_originalLines, FrameKept, ← filter_framed_iff]
  by_cases hsw : B ≠ [] ∧ (framed text edits).map Placed.text = [""] ∧
      (framed text edits).filter (kept text edits) ≠ []
  · obtain ⟨hne, hbl, hk⟩ := hsw
    obtain ⟨e, es, hes⟩ := exists_cons_of_ne_nil hne
    rw [hes] at hBe hBc
    rw [hes, filter_applyAll_swallowed hBe hBc hbl]
    refine iff_of_false (fun heq => ?_) fun hkept => ?_
    · have hs : ((framed text edits).filter (kept text edits)).Sublist
          ((originalLines text).filter (kept text edits)) :=
        filter_runAll_sublist kept_framedEdits
      rw [← heq] at hs
      exact hk (sublist_nil.mp hs)
    · refine hkept.2 ⟨any_eq_true.mpr ⟨e, ?_, ?_⟩, (blank_iff_count hkept.1).mp ⟨hbl, hk⟩⟩
      · exact hBm e (by rw [hes]; simp)
      · exact (hBe e (by simp)).1
  · have hfilter : (applyAll Placed.text (framed text edits) B).filter (kept text edits) =
        (framed text edits).filter (kept text edits) := by
      by_cases hne : B = []
      · rw [hne]
        rfl
      · exact filter_applyAll_atBof hBe hBc fun hbl => by
          by_contra hk
          exact hsw ⟨hne, hbl, hk⟩
    rw [hfilter]
    refine ⟨fun heq => ⟨heq, fun hswal => hsw ⟨?_, (blank_iff_count heq).mpr hswal.2⟩⟩, And.left⟩
    obtain ⟨e, he, hb⟩ := any_eq_true.mp hswal.1
    exact ne_nil_of_mem (mem_filter.mpr ⟨he, by simp [hb]⟩)

end Frame

/-- **The frame law.**  For every accepted list of edits, overlapping ranges included, the traced
lines hold every line outside the ranges once and in order exactly when each can be followed through
the edits and none is swallowed. -/
theorem survivors_eq_iff (text result : String) (edits : List (HashlineEdit String))
    (h : applyHashlineEdits text edits = .ok result) :
    result = joinLines ((traced text edits).map Placed.text) ∧
      (survivors text edits = (originalLines text).filter (outside edits) ↔
        FrameKept text edits) := by
  obtain ⟨hv, hres⟩ := applyHashlineEdits_ok h
  refine ⟨by rw [traced_text, hres], ?_⟩
  by_cases ht : text = ""
  · have ho : originalLines text = [] := if_pos ht
    refine iff_of_true ?_ ⟨?_, ?_⟩
    · rw [survivors, ho, filter_nil, filter_eq_nil_iff]
      intro x _
      simp [kept, ho]
    · intro i x hx
      rw [ho] at hx
      cases hx
    · intro hs
      obtain ⟨-, -, x, hx, -⟩ := hs
      rw [ho] at hx
      cases hx
  · exact survivors_eq_iff_of_ne hv ht

/-- Two ranges that overlap, the first as long as its content. -/
theorem survivors_eq_overlapping :
    let edits : List (HashlineEdit String) :=
      [.replace ⟨1, "RW"⟩ ⟨2, "XH"⟩ ["x", "y"], .set ⟨2, "XH"⟩ ["w"]]
    applyHashlineEdits "a\nb\nc" edits = .ok "x\nw\nc" ∧ FrameKept "a\nb\nc" edits := by
  intro edits
  have h : applyHashlineEdits "a\nb\nc" edits = .ok "x\nw\nc" := by decide
  exact ⟨h, (survivors_eq_iff _ _ edits h).2.mp (by decide)⟩

/-- The second of two ranges that overlap removes a line that neither names. -/
theorem overlappingRange_removes :
    let edits : List (HashlineEdit String) :=
      [.replace ⟨1, "RW"⟩ ⟨3, "PX"⟩ ["x"], .set ⟨2, "XH"⟩ ["w"]]
    applyHashlineEdits "a\nb\nc\nd" edits = .ok "x\nw" ∧
      (originalLines "a\nb\nc\nd").filter (outside edits) = [⟨.original 4, "d"⟩] ∧
      survivors "a\nb\nc\nd" edits = [] := by
  intro edits
  exact ⟨by decide, by decide, by decide⟩

end KolegaCode.Hashline
