import KolegaCode.Hashline.Edits
import KolegaCode.Lib.Except

/-!
# Hashline — the execution followed line by line

What an accepted list of edits satisfies (`applyHashlineEdits_ok`), the execution as a run of
patches, and the same execution on lines that carry their origin: line `i` of the file, or line
`j` of the content of edit `k`.  Two lines with the same text stay apart there.
-/

namespace KolegaCode.Hashline

open List
open Patch

variable {α β : Type}

/-! ### Edits as patches -/

namespace HashlineEdit

/-- What an edit does to the lines; without an anchor, at the end or in front of line one. -/
def patch : HashlineEdit α → Patch α
  | set tag c => .range tag.line tag.line c
  | replace first last c => .range first.line last.line c
  | append (some tag) c => .after tag.line c
  | append none c => .atEnd c
  | prepend (some tag) c => .before tag.line c
  | prepend none c => .before 1 c
  | insert _ tag c => .before tag.line c

/-- An `append` without an anchor. -/
def atEof : HashlineEdit α → Bool
  | append none _ => true
  | _ => false

/-- A `prepend` without an anchor. -/
def atBof : HashlineEdit α → Bool
  | prepend none _ => true
  | _ => false

variable (e : HashlineEdit α)

@[simp] theorem content_withContent (c : List β) : (e.withContent c).content = c := by
  cases e <;> rfl

theorem patch_content : e.patch.content = e.content := by
  cases e with
  | append t c => cases t <;> rfl
  | prepend t c => cases t <;> rfl
  | set t c => rfl
  | replace f l c => rfl
  | insert t u c => rfl

@[simp] theorem atEof_withContent (c : List β) : (e.withContent c).atEof = e.atEof := by
  cases e with
  | append t c => cases t <;> rfl
  | prepend t c => rfl
  | set t c => rfl
  | replace f l c => rfl
  | insert t u c => rfl

@[simp] theorem atBof_withContent (c : List β) : (e.withContent c).atBof = e.atBof := by
  cases e with
  | append t c => rfl
  | prepend t c => cases t <;> rfl
  | set t c => rfl
  | replace f l c => rfl
  | insert t u c => rfl

theorem covers_withContent (c : List β) (k : Nat) :
    (e.withContent c).patch.covers k = e.patch.covers k := by
  cases e with
  | append t c => cases t <;> rfl
  | prepend t c => cases t <;> rfl
  | set t c => rfl
  | replace f l c => rfl
  | insert t u c => rfl

theorem fits_withContent (c : List β) (n : Nat) :
    (e.withContent c).patch.Fits n ↔ e.patch.Fits n := by
  cases e with
  | append t c => cases t <;> rfl
  | prepend t c => cases t <;> rfl
  | set t c => rfl
  | replace f l c => rfl
  | insert t u c => rfl

end HashlineEdit

open HashlineEdit

/-- An edit is its patch, unless it has no anchor and the list is one empty line. -/
theorem applyEdit_eq_run {text : α → String} {xs : List α} {e : HashlineEdit α}
    (h : (e.atEof || e.atBof) = true → xs.map text ≠ [""]) :
    applyEdit text xs e = e.patch.run xs := by
  cases e with
  | append t c | prepend t c =>
    cases t with
    | none => exact if_neg (h rfl)
    | some t => rfl
  | set t c => rfl
  | replace f l c => rfl
  | insert t u c => rfl

theorem applyAll_eq_runAll {text : α → String} {es : List (HashlineEdit α)}
    (h : ∀ e ∈ es, (e.atEof || e.atBof) = false) :
    ∀ xs, applyAll text xs es = runAll xs (es.map patch) := by
  induction es with
  | nil =>
    intro xs
    rfl
  | cons e es ih =>
    intro xs
    rw [applyAll, foldl_cons, applyEdit_eq_run fun he => ?_]
    · exact ih (fun e' he' => h e' (mem_cons_of_mem _ he')) _
    · rw [h e (by simp)] at he
      cases he

variable {text' : β → String} {fileLines : List String} {ms ms' : List HashMismatch}

/-- Forgetting the origin of lines commutes with an edit. -/
theorem applyEdit_map (f : α → β) {text : α → String} (hf : ∀ x, text' (f x) = text x)
    (xs : List α) (e : HashlineEdit α) :
    (applyEdit text xs e).map f = applyEdit text' (xs.map f) (e.withContent (e.content.map f)) := by
  have hm : (xs.map f).map text' = xs.map text := by
    rw [map_map]
    exact map_congr_left fun x _ => hf x
  cases e with
  | append t c =>
    cases t with
    | none =>
      simp only [applyEdit, withContent, HashlineEdit.content, hm]
      split
      · rfl
      · exact map_append
    | some t => exact splice_map f _ _ _ _
  | prepend t c =>
    cases t with
    | none =>
      simp only [applyEdit, withContent, HashlineEdit.content, hm]
      split
      · rfl
      · exact splice_map f _ _ _ _
    | some t => exact splice_map f _ _ _ _
  | set t c | replace f' l c | insert t u c => exact splice_map f _ _ _ _

theorem applyAll_map (f : α → β) {text : α → String} (hf : ∀ x, text' (f x) = text x)
    (es : List (HashlineEdit α)) :
    ∀ xs : List α, (applyAll text xs es).map f =
      applyAll text' (xs.map f) (es.map fun e => e.withContent (e.content.map f)) := by
  induction es with
  | nil =>
    intro xs
    rfl
  | cons e es ih =>
    intro xs
    rw [applyAll, foldl_cons, map_cons, applyAll, foldl_cons, ← applyEdit_map f hf]
    exact ih _

/-! ### Accepted edits -/

/-- What the checks of `apply_hashline_edits` say of an edit in a file of `n` lines. -/
def Valid (n : Nat) (e : HashlineEdit α) : Prop :=
  e.patch.Fits n ∧ ((∀ k, e.patch.covers k = false) → e.content ≠ [])

theorem validateTag_ok {tag : LineTag} (h : validateTag tag fileLines ms = .ok ms') :
    1 ≤ tag.line ∧ tag.line ≤ fileLines.length := by
  rw [validateTag] at h
  split at h
  · cases h
  · omega

theorem validate_ok {e : HashlineEdit String} (hn : fileLines ≠ [])
    (h : validate fileLines ms e = .ok ms') : Valid fileLines.length e := by
  have hn' : 1 ≤ fileLines.length := length_pos_iff.mpr hn
  cases e with
  | set t c =>
    obtain ⟨h1, h2⟩ := validateTag_ok h
    exact ⟨⟨h1, le_refl _, h2⟩, fun hc => by simpa [patch, covers] using hc t.line⟩
  | replace f l c =>
    rw [validate] at h
    split at h
    · cases h
    · obtain ⟨ms₁, hf, hl⟩ := bind_eq_ok.mp h
      obtain ⟨h1, -⟩ := validateTag_ok hf
      obtain ⟨-, h2⟩ := validateTag_ok hl
      refine ⟨⟨h1, by omega, h2⟩, fun hc => ?_⟩
      have hcf := hc f.line
      simp only [patch, covers, Bool.and_eq_false_iff, decide_eq_false_iff_not] at hcf
      omega
  | append t c =>
    simp only [validate] at h
    split at h
    · cases h
    · rename_i hc
      cases t with
      | none => exact ⟨trivial, fun _ => hc⟩
      | some t => exact ⟨validateTag_ok h, fun _ => hc⟩
  | prepend t c =>
    simp only [validate] at h
    split at h
    · cases h
    · rename_i hc
      cases t with
      | none => exact ⟨⟨le_refl 1, hn'⟩, fun _ => hc⟩
      | some t => exact ⟨validateTag_ok h, fun _ => hc⟩
  | insert t u c =>
    rw [validate] at h
    split at h
    · cases h
    · rename_i hc
      split at h
      · cases h
      · obtain ⟨ms₁, -, hu⟩ := bind_eq_ok.mp h
        exact ⟨validateTag_ok hu, fun _ => hc⟩

theorem applyHashlineEdits_ok {text result : String} {edits : List (HashlineEdit String)}
    (h : applyHashlineEdits text edits = .ok result) :
    (∀ e ∈ edits, Valid (splitLines text).length e) ∧
      result = joinLines (applyAll id (splitLines text)
        ((ranked (splitLines text).length edits).map Prod.snd)) := by
  rw [applyHashlineEdits] at h
  split at h
  · rename_i he
    cases h
    refine ⟨by simp [he], ?_⟩
    rw [he]
    exact (joinLines_splitLines text).symm
  · obtain ⟨ms, hv, h⟩ := bind_eq_ok.mp h
    refine ⟨fun e hm => ?_, ?_⟩
    · obtain ⟨s, s', hs⟩ := foldlM_eq_ok hv e hm
      exact validate_ok (splitLines_ne_nil text) hs
    · split at h
      · cases h
      · dsimp only at h
        split at h
        · cases h
        · cases h
          rfl

/-! ### The edits that are executed -/

theorem foldl_keepNew [DecidableEq α] (xs : List (HashlineEdit α × Nat)) :
    ∀ kept, ∃ l, xs.foldl keepNew kept = kept ++ l ∧ l.Sublist (xs.map Prod.swap) := by
  induction xs with
  | nil =>
    intro kept
    exact ⟨[], by simp⟩
  | cons x xs ih =>
    intro kept
    by_cases hk : (kept.any fun seen => sameKey seen.2 x.1) = true
    · obtain ⟨l, hl, hs⟩ := ih kept
      refine ⟨l, ?_, hs.trans (sublist_cons_self _ _)⟩
      rw [foldl_cons, keepNew, if_pos hk, hl]
    · obtain ⟨l, hl, hs⟩ := ih (kept ++ [(x.2, x.1)])
      refine ⟨(x.2, x.1) :: l, ?_, hs.cons_cons _⟩
      rw [foldl_cons, keepNew, if_neg hk, hl]
      simp

theorem deduplicated_sublist [DecidableEq α] (edits : List (HashlineEdit α)) :
    (deduplicated edits).Sublist (edits.zipIdx.map Prod.swap) := by
  obtain ⟨l, hl, hs⟩ := foldl_keepNew edits.zipIdx []
  rw [deduplicated, hl]
  exact hs

theorem SortKey.le_trans {a b c : SortKey} (h : a.Le b) (h' : b.Le c) : a.Le c := by
  simp only [SortKey.Le] at *
  omega

theorem SortKey.le_total (a b : SortKey) : a.Le b ∨ b.Le a := by
  simp only [SortKey.Le]
  omega

section Ranked

variable [DecidableEq α] {n : Nat} {edits : List (HashlineEdit α)}

theorem ranked_perm (n : Nat) (edits : List (HashlineEdit α)) :
    (ranked n edits).Perm (deduplicated edits) := perm_insertionSort _ _

theorem ranked_pairwise (n : Nat) (edits : List (HashlineEdit α)) :
    (ranked n edits).Pairwise fun a b => (sortKey n a).Le (sortKey n b) := by
  have : IsTrans (Nat × HashlineEdit α) fun a b => (sortKey n a).Le (sortKey n b) :=
    ⟨fun _ _ _ => SortKey.le_trans⟩
  have : Std.Total fun a b : Nat × HashlineEdit α => (sortKey n a).Le (sortKey n b) :=
    ⟨fun _ _ => SortKey.le_total _ _⟩
  exact pairwise_insertionSort _ _

theorem mem_of_mem_ranked {item : Nat × HashlineEdit α} (h : item ∈ ranked n edits) :
    item.2 ∈ edits := by
  have hs := (deduplicated_sublist edits).subset ((ranked_perm n edits).mem_iff.mp h)
  obtain ⟨⟨e, i⟩, hm, rfl⟩ := mem_map.mp hs
  exact (mem_zipIdx hm).2.2 ▸ getElem_mem _

/-- No two of the edits that are executed have the same index. -/
theorem ranked_nodup (n : Nat) (edits : List (HashlineEdit α)) :
    ((ranked n edits).map Prod.fst).Nodup := by
  have h : ((edits.zipIdx.map Prod.swap).map Prod.fst).Nodup := by
    rw [map_map, show Prod.fst ∘ Prod.swap = (Prod.snd : HashlineEdit α × Nat → Nat) from rfl,
      zipIdx_map_snd]
    exact nodup_range' 
  exact ((ranked_perm n edits).map _).nodup_iff.mpr (h.sublist ((deduplicated_sublist edits).map _))

end Ranked

/-! ### Lines with their origin -/

/-- Where a line comes from: a line of the file, or a line of an edit's content. -/
inductive Origin where
  | original (line : Nat)
  | written (edit index : Nat)
deriving Repr, DecidableEq

/-- A line with its origin. -/
structure Placed where
  origin : Origin
  text : String
deriving Repr, DecidableEq

/-- The lines of the file. -/
def placeLines (fileLines : List String) : List Placed :=
  fileLines.zipIdx.map fun (s, i) => ⟨.original (i + 1), s⟩

/-- The content of the edit with index `k`. -/
def placeContent (k : Nat) (content : List String) : List Placed :=
  content.zipIdx.map fun (s, j) => ⟨.written k j, s⟩

/-- An edit with its index, on lines with their origin. -/
def placeEdit (item : Nat × HashlineEdit String) : HashlineEdit Placed :=
  item.2.withContent (placeContent item.1 item.2.content)

/-- The edits that are executed, on lines with their origin. -/
def placedEdits (text : String) (edits : List (HashlineEdit String)) : List (HashlineEdit Placed) :=
  (ranked (splitLines text).length edits).map placeEdit

/-- The execution on lines with their origin. -/
def traced (text : String) (edits : List (HashlineEdit String)) : List Placed :=
  applyAll Placed.text (placeLines (splitLines text)) (placedEdits text edits)

theorem map_text_placeLines (fileLines : List String) :
    (placeLines fileLines).map Placed.text = fileLines := by
  rw [placeLines, map_map]
  exact zipIdx_map_fst 0 fileLines

theorem map_text_placeContent (k : Nat) (content : List String) :
    (placeContent k content).map Placed.text = content := by
  rw [placeContent, map_map]
  exact zipIdx_map_fst 0 content

theorem withContent_placeEdit (item : Nat × HashlineEdit String) :
    (placeEdit item).withContent ((placeEdit item).content.map Placed.text) = item.2 := by
  rw [placeEdit, content_withContent, map_text_placeContent]
  cases item.2 <;> rfl

theorem traced_text (text : String) (edits : List (HashlineEdit String)) :
    (traced text edits).map Placed.text =
      applyAll id (splitLines text) ((ranked (splitLines text).length edits).map Prod.snd) := by
  have hf : ∀ x : Placed, id (Placed.text x) = x.text := fun _ => rfl
  rw [traced, applyAll_map Placed.text hf, map_text_placeLines, placedEdits, map_map]
  congr 1
  exact map_congr_left fun item _ => withContent_placeEdit item

theorem length_placeLines (fileLines : List String) :
    (placeLines fileLines).length = fileLines.length := by
  rw [placeLines, length_map, length_zipIdx]

theorem nodup_placeLines (fileLines : List String) : (placeLines fileLines).Nodup := by
  have h : (placeLines fileLines).map Placed.origin =
      (List.range' 0 fileLines.length).map fun i => .original (i + 1) := by
    rw [placeLines, map_map, ← zipIdx_map_snd 0 fileLines, map_map]
    rfl
  refine List.Nodup.of_map Placed.origin ?_
  rw [h]
  refine List.Nodup.map (fun i j hij => ?_) nodup_range'
  simpa using hij

theorem nodup_placeContent (k : Nat) (content : List String) : (placeContent k content).Nodup := by
  have h : (placeContent k content).map Placed.origin =
      (List.range' 0 content.length).map (.written k) := by
    rw [placeContent, map_map, ← zipIdx_map_snd 0 content, map_map]
    rfl
  refine List.Nodup.of_map Placed.origin ?_
  rw [h]
  refine List.Nodup.map (fun i j hij => ?_) nodup_range'
  simpa using hij

theorem origin_of_mem_placeLines {x : Placed} (h : x ∈ placeLines fileLines) :
    ∃ i, x.origin = .original i := by
  obtain ⟨⟨s, i⟩, -, rfl⟩ := mem_map.mp h
  exact ⟨i + 1, rfl⟩

theorem origin_of_mem_placeContent {k : Nat} {content : List String} {x : Placed}
    (h : x ∈ placeContent k content) : ∃ j, x.origin = .written k j := by
  obtain ⟨⟨s, j⟩, -, rfl⟩ := mem_map.mp h
  exact ⟨j, rfl⟩

theorem content_placeEdit (item : Nat × HashlineEdit String) :
    (placeEdit item).content = placeContent item.1 item.2.content :=
  content_withContent _ _

/-- The origins of the lines of a file and of the contents of edits are all different. -/
theorem nodup_placed (fileLines : List String) {items : List (Nat × HashlineEdit String)}
    (h : (items.map Prod.fst).Nodup) :
    (placeLines fileLines ++ (items.map placeEdit).flatMap HashlineEdit.content).Nodup := by
  rw [flatMap_map, nodup_append']
  refine ⟨nodup_placeLines fileLines, nodup_flatMap.mpr ⟨fun item _ => ?_, ?_⟩, ?_⟩
  · rw [content_placeEdit]
    exact nodup_placeContent _ _
  · refine List.Pairwise.imp (fun {item item'} hne => ?_) (pairwise_map.mp h)
    intro x hx hx'
    simp only [content_placeEdit] at hx hx'
    obtain ⟨j, hj⟩ := origin_of_mem_placeContent hx
    obtain ⟨j', hj'⟩ := origin_of_mem_placeContent hx'
    rw [hj] at hj'
    exact hne (Origin.written.inj hj').1
  · intro x hx hx'
    obtain ⟨i, hi⟩ := origin_of_mem_placeLines hx
    obtain ⟨item, -, hx'⟩ := mem_flatMap.mp hx'
    rw [content_placeEdit] at hx'
    obtain ⟨j, hj⟩ := origin_of_mem_placeContent hx'
    rw [hi] at hj
    cases hj

/-! ### The patches that are run -/

/-- The patches of the edits that are executed. -/
def placedPatches (text : String) (edits : List (HashlineEdit String)) : List (Patch Placed) :=
  (placedEdits text edits).map patch

section Patches

variable {text : String} {edits : List (HashlineEdit String)}

theorem mem_placedEdits {e : HashlineEdit Placed} (h : e ∈ placedEdits text edits) :
    ∃ k, ∃ e' ∈ edits, e = e'.withContent (placeContent k e'.content) := by
  obtain ⟨item, hm, rfl⟩ := mem_map.mp h
  exact ⟨item.1, item.2, mem_of_mem_ranked hm, rfl⟩

theorem nodup_placedPatches (text : String) (edits : List (HashlineEdit String)) :
    (placeLines (splitLines text) ++ (placedPatches text edits).flatMap Patch.content).Nodup := by
  have h := nodup_placed (splitLines text) (ranked_nodup (splitLines text).length edits)
  rwa [placedPatches, flatMap_map, placedEdits, flatMap_congr fun e _ => patch_content e]

theorem fits_placedPatches (hv : ∀ e ∈ edits, Valid (splitLines text).length e) :
    ∀ p ∈ placedPatches text edits, p.Fits (placeLines (splitLines text)).length := by
  intro p hp
  obtain ⟨e, he, rfl⟩ := mem_map.mp hp
  obtain ⟨k, e', he', rfl⟩ := mem_placedEdits he
  rw [fits_withContent, length_placeLines]
  exact (hv e' he').1

theorem content_placedPatches (hv : ∀ e ∈ edits, Valid (splitLines text).length e) :
    ∀ p ∈ placedPatches text edits, (∀ k, p.covers k = false) → p.content ≠ [] := by
  intro p hp hc
  obtain ⟨e, he, rfl⟩ := mem_map.mp hp
  obtain ⟨k, e', he', rfl⟩ := mem_placedEdits he
  have hne := (hv e' he').2 fun j => by rw [← hc j, covers_withContent]
  rw [patch_content, content_withContent]
  intro hnil
  have hmap := map_text_placeContent k e'.content
  rw [hnil] at hmap
  exact hne hmap.symm

/-- The sort key ranks an edit by the line and the kind of its patch, but for a `prepend` without
an anchor. -/
theorem sortKey_eq {n : Nat} {item : Nat × HashlineEdit String} (h : item.2.atBof = false) :
    (sortKey n item).line = (placeEdit item).patch.line n ∧
      (placeEdit item).patch.kind = min 2 (sortKey n item).kind := by
  obtain ⟨k, e⟩ := item
  cases e with
  | append t c => cases t <;> exact ⟨rfl, rfl⟩
  | prepend t c =>
    cases t with
    | none => cases h
    | some t => exact ⟨rfl, rfl⟩
  | set t c => exact ⟨rfl, rfl⟩
  | replace f l c => exact ⟨rfl, rfl⟩
  | insert t u c => exact ⟨rfl, rfl⟩

theorem precedes_of_le {n : Nat} {a b : Nat × HashlineEdit String} (ha : a.2.atBof = false)
    (hb : b.2.atBof = false) (h : (sortKey n a).Le (sortKey n b)) :
    Precedes n (placeEdit a).patch (placeEdit b).patch := by
  obtain ⟨hla, hka⟩ := sortKey_eq (n := n) ha
  obtain ⟨hlb, hkb⟩ := sortKey_eq (n := n) hb
  rw [SortKey.Le] at h
  rw [Precedes]
  omega

theorem apart_placedPatches (hd : edits.Pairwise fun e e' => Apart e.patch e'.patch) :
    (placedPatches text edits).Pairwise Apart := by
  have hz : (edits.zipIdx.map Prod.swap).Pairwise fun a b => Apart a.2.patch b.2.patch := by
    rw [← zipIdx_map_fst 0 edits, pairwise_map] at hd
    rwa [pairwise_map]
  have hr := (hz.sublist (deduplicated_sublist edits)).perm
    (ranked_perm (splitLines text).length edits).symm Apart.symm
  rw [placedPatches, placedEdits, map_map, pairwise_map]
  refine hr.imp fun {a b} hab k hk => ?_
  rw [Function.comp_apply, placeEdit, covers_withContent] at hk ⊢
  exact hab k hk

theorem script_placedPatches (hv : ∀ e ∈ edits, Valid (splitLines text).length e)
    (hb : ∀ e ∈ edits, e.atBof = false) (hd : edits.Pairwise fun e e' => Apart e.patch e'.patch) :
    Script (placeLines (splitLines text)).length (placedPatches text edits) := by
  refine ⟨fits_placedPatches hv, ?_, apart_placedPatches hd⟩
  rw [placedPatches, placedEdits, map_map, pairwise_map, length_placeLines]
  refine List.Pairwise.imp_of_mem (fun {a b} hma hmb hab => ?_) (ranked_pairwise _ edits)
  exact precedes_of_le (hb _ (mem_of_mem_ranked hma)) (hb _ (mem_of_mem_ranked hmb)) hab

end Patches

end KolegaCode.Hashline
