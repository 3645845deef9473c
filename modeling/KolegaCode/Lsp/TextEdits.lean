import KolegaCode.Lib.Lines
import KolegaCode.Lib.Except
import KolegaCode.Lib.Splices
import KolegaCode.Session.Event
import Mathlib.Data.List.Sort

/-!
# Lsp — the text edits of a language server

A server sends edits whose ranges it means for the document as it is.  They are resolved to offsets,
checked for overlaps, and spliced in from the last start to the first, the later edit of the list
before the earlier one of the same start.
-/

namespace KolegaCode.Lsp

open List
open Json (Dict get?)
open Session (asInt?)
open Text (splitlinesKeepends)
open Splices

/-- An entry of the list, as `_validate_text_edit_list` leaves it. -/
structure TextEdit where
  range : Dict
  newText : List Char

/-- `_ResolvedTextEdit`. -/
structure ResolvedTextEdit where
  start : Nat
  stop : Nat
  newText : List Char
  index : Nat
deriving DecidableEq

/-! ### Positions -/

/-- `_python_offset_for_utf16`: the characters of `text` in front of a position in UTF-16 units. -/
def pythonOffsetForUtf16 (utf16Character unitsSeen index : Nat) : List Char → Except String Nat
  | [] =>
    if unitsSeen = utf16Character then .ok index
    else .error "Text edit character is outside the line."
  | char :: text =>
    if unitsSeen = utf16Character then .ok index
    else
      let units := unitsSeen + if char.toNat > 0xFFFF then 2 else 1
      if units > utf16Character then
        .error "Text edit character splits a UTF-16 surrogate pair."
      else pythonOffsetForUtf16 utf16Character units (index + 1) text

/-- A line without the ending the protocol knows. -/
def lineBody (line : List Char) : List Char :=
  if ['\r', '\n'] <:+ line then line.take (line.length - 2)
  else if ['\n'] <:+ line ∨ ['\r'] <:+ line then line.take (line.length - 1)
  else line

def offsetForPosition (content : List Char) (position : Option Json) : Except String Nat :=
  match position with
  | some (.obj position) =>
    match (get? position "line").bind asInt?, (get? position "character").bind asInt? with
    | some line, some character =>
      if line < 0 ∨ character < 0 then
        .error "Text edit line and character must be non-negative."
      else
        let lines := splitlinesKeepends content
        if lines = [] then
          if line = 0 ∧ character = 0 then .ok 0
          else .error "Text edit position is outside the document."
        else if line = lines.length ∧ character = 0 then .ok content.length
        else
          match lines[line.toNat]? with
          | none => .error "Text edit line is outside the document."
          | some text => do
            let lineStart := ((lines.take line.toNat).map List.length).sum
            let offset ← pythonOffsetForUtf16 character.toNat 0 0 (lineBody text)
            return lineStart + offset
    | _, _ => .error "Text edit line and character must be integers."
  | _ => .error "Text edit position must be an object."

/-! ### The edits -/

/-- The loop that resolves the ranges.  A replacement that is there already is left out, an
insertion never. -/
def resolve (content : List Char) (index : Nat) (seenNonEmpty : List (Nat × Nat × List Char)) :
    List TextEdit → Except String (List ResolvedTextEdit)
  | [] => .ok []
  | edit :: edits => do
    let start ← offsetForPosition content (get? edit.range "start")
    let stop ← offsetForPosition content (get? edit.range "end")
    if stop < start then .error "Text edit range end is before start."
    else
      let key := (start, stop, edit.newText)
      if start ≠ stop ∧ key ∈ seenNonEmpty then resolve content (index + 1) seenNonEmpty edits
      else
        let seen := if start ≠ stop then key :: seenNonEmpty else seenNonEmpty
        let resolved ← resolve content (index + 1) seen edits
        return ⟨start, stop, edit.newText, index⟩ :: resolved

/-- The order of the check: by start, end and index. -/
def ResolvedTextEdit.Ascending (a b : ResolvedTextEdit) : Prop :=
  a.start < b.start ∨ a.start = b.start ∧ (a.stop < b.stop ∨ a.stop = b.stop ∧ a.index ≤ b.index)

instance : DecidableRel ResolvedTextEdit.Ascending :=
  fun _ _ => inferInstanceAs (Decidable (_ ∨ _ ∧ (_ ∨ _ ∧ _)))

/-- The order of the splices: by start and index, the last first. -/
def ResolvedTextEdit.Descending (a b : ResolvedTextEdit) : Prop :=
  b.start < a.start ∨ b.start = a.start ∧ b.index ≤ a.index

instance : DecidableRel ResolvedTextEdit.Descending :=
  fun _ _ => inferInstanceAs (Decidable (_ ∨ _ ∧ _))

def applyTextEdits (content : List Char) (edits : List TextEdit) : Except String (List Char) := do
  let resolved ← resolve content 0 [] edits
  let ascending := resolved.insertionSort ResolvedTextEdit.Ascending
  if (ascending.zip ascending.tail).any fun pair => decide (pair.1.stop > pair.2.start) then
    .error "WorkspaceEdit contains overlapping text edits."
  else
    return (resolved.insertionSort ResolvedTextEdit.Descending).foldl
      (fun updated edit => updated.take edit.start ++ edit.newText ++ updated.drop edit.stop) content

/-! ### The ranges in the document -/

/-- The ranges and texts of the list, in the document as it is. -/
def locate (content : List Char) : List TextEdit → Except String (List (Edit Char))
  | [] => .ok []
  | edit :: edits => do
    let start ← offsetForPosition content (get? edit.range "start")
    let stop ← offsetForPosition content (get? edit.range "end")
    if stop < start then .error "Text edit range end is before start."
    else
      let located ← locate content edits
      return ⟨start, stop, edit.newText⟩ :: located

/-- The list without the replacements that it holds before. -/
def distinct : List (Edit Char) → List (Edit Char)
  | [] => []
  | e :: edits => e :: (distinct edits).filter fun f => f.start = f.stop ∨ f ≠ e

/-! ### Offsets are inside the document -/

variable {index : Nat} {content : List Char} {seen : List (Nat × Nat × List Char)}
  {edits : List TextEdit} {resolved : List ResolvedTextEdit}

theorem pythonOffsetForUtf16_le {utf16Character unitsSeen offset : Nat} {text : List Char}
    (h : pythonOffsetForUtf16 utf16Character unitsSeen index text = .ok offset) :
    offset ≤ index + text.length := by
  induction text generalizing unitsSeen index with
  | nil =>
    rw [pythonOffsetForUtf16] at h
    split at h <;> cases h
    exact Nat.le_add_right _ _
  | cons char text ih =>
    rw [pythonOffsetForUtf16] at h
    dsimp only at h
    generalize unitsSeen + (if char.toNat > 0xFFFF then 2 else 1) = units at h
    rw [length_cons]
    split at h
    · cases h
      exact Nat.le_add_right _ _
    · split at h
      · cases h
      · have := ih h
        omega

theorem length_lineBody_le (line : List Char) : (lineBody line).length ≤ line.length := by
  rw [lineBody]
  split
  · exact length_take_le' _ _
  · split
    · exact length_take_le' _ _
    · exact Nat.le_refl _

theorem offsetForPosition_le {position : Option Json} {offset : Nat}
    (h : offsetForPosition content position = .ok offset) : offset ≤ content.length := by
  have hlines : ((splitlinesKeepends content).map List.length).sum = content.length := by
    rw [← length_flatten, Text.flatten_splitlinesKeepends]
  simp only [offsetForPosition] at h
  split at h
  · split at h
    · next line character _ _ =>
      split at h
      · cases h
      · split at h
        · split at h <;> cases h
          exact Nat.zero_le _
        · split at h
          · cases h
            exact Nat.le_refl _
          · split at h
            · cases h
            · next text htext =>
              obtain ⟨inLine, hinLine, h⟩ := bind_eq_ok.mp h
              cases h
              have hle := (pythonOffsetForUtf16_le hinLine).trans
                (Nat.add_le_add_left (length_lineBody_le text) 0)
              obtain ⟨hlt, rfl⟩ := List.getElem?_eq_some_iff.mp htext
              rw [Nat.zero_add] at hle
              rw [← hlines, ← take_append_drop line.toNat (splitlinesKeepends content),
                map_append, sum_append, take_append_drop,
                drop_eq_getElem_cons hlt, map_cons, sum_cons]
              omega
    · cases h
  · cases h

/-! ### What the loop resolves -/

def ResolvedTextEdit.toEdit (e : ResolvedTextEdit) : Edit Char := ⟨e.start, e.stop, e.newText⟩

theorem resolve_cons_eq_ok {edit : TextEdit}
    (h : resolve content index seen (edit :: edits) = .ok resolved) :
    ∃ start stop, offsetForPosition content (get? edit.range "start") = .ok start ∧
      offsetForPosition content (get? edit.range "end") = .ok stop ∧ start ≤ stop ∧
      (start ≠ stop ∧ (start, stop, edit.newText) ∈ seen ∧
          resolve content (index + 1) seen edits = .ok resolved ∨
        ¬ (start ≠ stop ∧ (start, stop, edit.newText) ∈ seen) ∧
          ∃ rest, resolve content (index + 1)
              (if start ≠ stop then (start, stop, edit.newText) :: seen else seen) edits =
                .ok rest ∧
            resolved = ⟨start, stop, edit.newText, index⟩ :: rest) := by
  rw [resolve] at h
  obtain ⟨start, hstart, h⟩ := bind_eq_ok.mp h
  obtain ⟨stop, hstop, h⟩ := bind_eq_ok.mp h
  refine ⟨start, stop, hstart, hstop, ?_⟩
  split at h
  · cases h
  · next hle =>
    refine ⟨Nat.not_lt.mp hle, ?_⟩
    dsimp only at h
    split at h
    · next hseen => exact .inl ⟨hseen.1, hseen.2, h⟩
    · next hseen =>
      obtain ⟨rest, hrest, h⟩ := bind_eq_ok.mp h
      cases h
      exact .inr ⟨hseen, rest, hrest, rfl⟩

theorem resolve_inside (h : resolve content index seen edits = .ok resolved) :
    ∀ e ∈ resolved, e.start ≤ e.stop ∧ e.stop ≤ content.length := by
  induction edits generalizing index seen resolved with
  | nil =>
    cases h
    exact fun e he => absurd he not_mem_nil
  | cons edit edits ih =>
    obtain ⟨start, stop, -, hstop, hle, ⟨-, -, hrest⟩ | ⟨-, rest, hrest, rfl⟩⟩ :=
      resolve_cons_eq_ok h
    · exact ih hrest
    · exact forall_mem_cons.mpr ⟨⟨hle, offsetForPosition_le hstop⟩, ih hrest⟩

/-- The indices ascend, so no two edits of the list have one. -/
theorem resolve_index (h : resolve content index seen edits = .ok resolved) :
    (∀ e ∈ resolved, index ≤ e.index) ∧ resolved.Pairwise (·.index < ·.index) := by
  induction edits generalizing index seen resolved with
  | nil =>
    cases h
    exact ⟨fun e he => absurd he not_mem_nil, .nil⟩
  | cons edit edits ih =>
    obtain ⟨start, stop, -, -, -, ⟨-, -, hrest⟩ | ⟨-, rest, hrest, rfl⟩⟩ := resolve_cons_eq_ok h
    · obtain ⟨hge, hpairwise⟩ := ih hrest
      exact ⟨fun e he => (Nat.le_succ _).trans (hge e he), hpairwise⟩
    · obtain ⟨hge, hpairwise⟩ := ih hrest
      exact ⟨forall_mem_cons.mpr ⟨Nat.le_refl _, fun e he => (Nat.le_succ _).trans (hge e he)⟩,
        pairwise_cons.mpr ⟨hge, hpairwise⟩⟩

/-- An edit the loop takes, with what it has seen before. -/
def Unseen (seen : List (Nat × Nat × List Char)) (e : Edit Char) : Bool :=
  decide (e.start = e.stop ∨ (e.start, e.stop, e.text) ∉ seen)

/-- **The loop takes the distinct edits.** -/
theorem resolve_located (h : resolve content index seen edits = .ok resolved) :
    ∃ located, locate content edits = .ok located ∧
      resolved.map ResolvedTextEdit.toEdit = (distinct located).filter (Unseen seen) := by
  induction edits generalizing index seen resolved with
  | nil =>
    cases h
    exact ⟨[], rfl, rfl⟩
  | cons edit edits ih =>
    obtain ⟨start, stop, hstart, hstop, hle, hcases⟩ := resolve_cons_eq_ok h
    have hlocate : ∀ located, locate content edits = .ok located →
        locate content (edit :: edits) = .ok (⟨start, stop, edit.newText⟩ :: located) := by
      intro located hlocated
      rw [locate, hstart, hstop, hlocated]
      exact if_neg (Nat.not_lt.mpr hle)
    rcases hcases with ⟨hne, hmem, hrest⟩ | ⟨hnew, rest, hrest, rfl⟩
    · obtain ⟨located, hlocated, hmap⟩ := ih hrest
      refine ⟨_, hlocate located hlocated, ?_⟩
      have hhere : Unseen seen ⟨start, stop, edit.newText⟩ = false := by
        simp [Unseen, hne, hmem]
      rw [hmap, distinct, filter_cons_of_neg (by simp [hhere]), filter_filter]
      refine filter_congr fun f _ => ?_
      by_cases hf : f = ⟨start, stop, edit.newText⟩
      · simp [hf, hhere]
      · simp [hf]
    · obtain ⟨located, hlocated, hmap⟩ := ih hrest
      refine ⟨_, hlocate located hlocated, ?_⟩
      have hhere : Unseen seen ⟨start, stop, edit.newText⟩ = true := by
        by_cases heq : start = stop
        · simp [Unseen, heq]
        · simpa [Unseen, heq] using fun hmem => hnew ⟨heq, hmem⟩
      rw [map_cons, hmap, distinct, filter_cons_of_pos hhere, filter_filter]
      congr 1
      refine filter_congr fun f _ => ?_
      by_cases heq : start = stop
      · subst heq
        by_cases hf : f = ⟨start, start, edit.newText⟩
        · simp [hf, Unseen]
        · simp [hf]
      · obtain ⟨fstart, fstop, ftext⟩ := f
        rw [Bool.eq_iff_iff]
        simp only [Unseen, heq, ne_eq, not_false_eq_true, if_true, mem_cons, Edit.mk.injEq,
          Prod.mk.injEq, Bool.and_eq_true, decide_eq_true_iff]
        tauto

/-! ### The two orders -/

instance : Std.Total ResolvedTextEdit.Ascending where
  total a b := by
    simp only [ResolvedTextEdit.Ascending]
    omega

instance : IsTrans ResolvedTextEdit ResolvedTextEdit.Ascending where
  trans a b c := by
    simp only [ResolvedTextEdit.Ascending]
    omega

instance : Std.Total ResolvedTextEdit.Descending where
  total a b := by
    simp only [ResolvedTextEdit.Descending]
    omega

instance : IsTrans ResolvedTextEdit ResolvedTextEdit.Descending where
  trans a b c := by
    simp only [ResolvedTextEdit.Descending]
    omega

theorem isChain_of_zip {α : Type} {p : α × α → Bool} {l : List α}
    (h : (l.zip l.tail).any p = false) : l.IsChain fun a b => p (a, b) = false := by
  induction l with
  | nil => exact .nil
  | cons a l ih =>
    cases l with
    | nil => exact .singleton a
    | cons b l =>
      rw [tail_cons, zip_cons_cons, any_cons, Bool.or_eq_false_iff] at h
      exact .cons_cons h.1 (ih h.2)

/-- **The check.**  Next to each other in ascending order means apart. -/
theorem pairwise_of_check (hordered : ∀ e ∈ resolved, e.start ≤ e.stop)
    (hcheck : ((resolved.insertionSort ResolvedTextEdit.Ascending).zip
      (resolved.insertionSort ResolvedTextEdit.Ascending).tail).any
        (fun pair => decide (pair.1.stop > pair.2.start)) = false) :
    resolved.Pairwise fun a b => a.stop ≤ b.start ∨ b.stop ≤ a.start := by
  set ascending := resolved.insertionSort ResolvedTextEdit.Ascending
  have hperm : ascending.Perm resolved := perm_insertionSort _ _
  let After (a b : ResolvedTextEdit) : Prop := a.stop ≤ b.start ∧ b.start ≤ b.stop
  have htrans : IsTrans ResolvedTextEdit After :=
    ⟨fun a b c hab hbc => ⟨hab.1.trans (hab.2.trans hbc.1), hbc.2⟩⟩
  have hchain : ascending.IsChain After := by
    refine (isChain_of_zip hcheck).imp_of_mem_imp fun a b _ hb hab => ?_
    exact ⟨by simpa using hab, hordered b (hperm.mem_iff.mp hb)⟩
  have hsymm : ∀ {a b : ResolvedTextEdit}, (a.stop ≤ b.start ∨ b.stop ≤ a.start) →
      (b.stop ≤ a.start ∨ a.stop ≤ b.start) := Or.symm
  exact (hperm.pairwise_iff hsymm).mp
    ((isChain_iff_pairwise.mp hchain).imp fun hab => .inl hab.1)

theorem fits_of_check (hinside : ∀ e ∈ resolved, e.start ≤ e.stop ∧ e.stop ≤ content.length)
    (hcheck : ((resolved.insertionSort ResolvedTextEdit.Ascending).zip
      (resolved.insertionSort ResolvedTextEdit.Ascending).tail).any
        (fun pair => decide (pair.1.stop > pair.2.start)) = false) :
    Fits content.length (resolved.map ResolvedTextEdit.toEdit) where
  ordered e he := by
    obtain ⟨r, hr, rfl⟩ := mem_map.mp he
    exact (hinside r hr).1
  inside e he := by
    obtain ⟨r, hr, rfl⟩ := mem_map.mp he
    exact (hinside r hr).2
  apart := pairwise_map.mpr (pairwise_of_check (fun e he => (hinside e he).1) hcheck)

/-- **The splices go by position**, from the last one on. -/
theorem descending_eq {n : Nat} (hinside : ∀ e ∈ resolved, e.start ≤ n)
    (hindex : resolved.Pairwise (·.index < ·.index)) :
    (resolved.insertionSort ResolvedTextEdit.Descending).map ResolvedTextEdit.toEdit =
      (byPosition n (resolved.map ResolvedTextEdit.toEdit)).reverse := by
  let positions : List ResolvedTextEdit :=
    (List.range (n + 1)).flatMap fun p => resolved.filter (·.start = p)
  have hmap : byPosition n (resolved.map ResolvedTextEdit.toEdit) =
      positions.map ResolvedTextEdit.toEdit := by
    rw [byPosition, map_flatMap]
    refine flatMap_congr fun p _ => ?_
    rw [filter_map]
    rfl
  have hstrict : positions.Pairwise fun a b =>
      a.start < b.start ∨ a.start = b.start ∧ a.index < b.index := by
    refine pairwise_flatMap.mpr ⟨fun p _ => ?_, ?_⟩
    · refine (hindex.filter _).imp_of_mem fun {a b} ha hb hab => .inr ⟨?_, hab⟩
      have ha : a.start = p := by simpa using of_mem_filter ha
      have hb : b.start = p := by simpa using of_mem_filter hb
      rw [ha, hb]
    · refine pairwise_lt_range.imp fun {p q} hpq a ha b hb => .inl ?_
      have ha : a.start = p := by simpa using of_mem_filter ha
      have hb : b.start = q := by simpa using of_mem_filter hb
      rwa [ha, hb]
  have hperm : positions.Perm resolved := by
    refine (perm_ext_iff_of_nodup ?_ ?_).mpr fun e => ?_
    · refine hstrict.imp fun {a b} hab heq => ?_
      rw [heq] at hab
      omega
    · refine hindex.imp fun {a b} hab heq => ?_
      rw [heq] at hab
      omega
    · rw [mem_flatMap]
      constructor
      · rintro ⟨p, -, he⟩
        exact mem_of_mem_filter he
      · intro he
        exact ⟨e.start, List.mem_range.mpr (Nat.lt_succ_of_le (hinside e he)),
          mem_filter.mpr ⟨he, by simp⟩⟩
  have hdescending : resolved.insertionSort ResolvedTextEdit.Descending = positions.reverse := by
    have hsorted := pairwise_insertionSort ResolvedTextEdit.Descending resolved
    refine List.Perm.eq_of_pairwise ?_ hsorted ?_
      ((perm_insertionSort _ _).trans (hperm.symm.trans (reverse_perm _).symm))
    · intro a b ha hb hab hba
      have ha := (mem_insertionSort _).mp ha
      have hb := hperm.mem_iff.mp (mem_reverse.mp hb)
      have hsame : a.index = b.index := by
        simp only [ResolvedTextEdit.Descending] at hab hba
        omega
      by_contra hne
      have : Std.Symm fun a b : ResolvedTextEdit => a.index ≠ b.index := { symm _ _ h := h.symm }
      exact (hindex.imp Nat.ne_of_lt).forall ha hb hne hsame
    · refine pairwise_reverse.mpr (hstrict.imp fun {a b} hab => ?_)
      simp only [ResolvedTextEdit.Descending]
      omega
  rw [hdescending, hmap, map_reverse]

/-! ### What the function does -/

/-- **The edits are made one after the other**, for ranges of the document that fit. -/
theorem applyTextEdits_eq_ok {result : List Char} (h : applyTextEdits content edits = .ok result) :
    ∃ located, locate content edits = .ok located ∧ Fits content.length (distinct located) ∧
      result = spliceAll content (distinct located) := by
  obtain ⟨resolved, hresolved, h⟩ := bind_eq_ok.mp h
  obtain ⟨located, hlocated, hmap⟩ := resolve_located hresolved
  have hall : (distinct located).filter (Unseen []) = distinct located :=
    filter_eq_self.mpr fun e _ => by simp [Unseen]
  rw [hall] at hmap
  have hinside := resolve_inside hresolved
  dsimp only at h
  split at h
  · cases h
  · next hcheck =>
    have hfits := fits_of_check hinside (Bool.not_eq_true _ ▸ hcheck)
    refine ⟨located, hlocated, hmap ▸ hfits, ?_⟩
    have hfold : ∀ (l : List ResolvedTextEdit) (updated : List Char),
        l.foldl (fun updated edit =>
            updated.take edit.start ++ edit.newText ++ updated.drop edit.stop) updated =
          (l.map ResolvedTextEdit.toEdit).foldl (fun updated e => e.splice updated) updated := by
      intro l updated
      rw [foldl_map]
      rfl
    cases h
    rw [hfold, descending_eq (fun e he => (hinside e he).1.trans (hinside e he).2)
      (resolve_index hresolved).2, foldl_reverse, hmap]
    rfl

/-- **The edits are made at once** exactly when no replacement stands in the list before an
insertion at its start that it disturbs. -/
theorem applyTextEdits_eq_patched_iff {content result : List Char} {edits : List TextEdit}
    (h : applyTextEdits content edits = .ok result) :
    ∃ located, locate content edits = .ok located ∧
      (result = patched content (distinct located) ↔ Untangled content (distinct located)) := by
  obtain ⟨located, hlocated, hfits, rfl⟩ := applyTextEdits_eq_ok h
  exact ⟨located, hlocated, spliceAll_eq_patched_iff hfits⟩

/-- An edit of the first line. -/
def onFirstLine (start stop : Int) (newText : List Char) : TextEdit where
  range :=
    [("start", .obj [("line", .int 0), ("character", .int start)]),
     ("end", .obj [("line", .int 0), ("character", .int stop)])]
  newText := newText

/-- An insertion behind the replacement of the list that starts with it. -/
def disturbed : List TextEdit := [onFirstLine 0 2 ['X'], onFirstLine 0 0 ['Y']]

/-- Both edits in the other order, which the splices make at once. -/
theorem applyTextEdits_eq_patched_insertion_first :
    applyTextEdits ['a', 'b', 'c', 'd'] disturbed.reverse = .ok ['Y', 'X', 'c', 'd'] ∧
      ∃ located, locate ['a', 'b', 'c', 'd'] disturbed.reverse = .ok located ∧
        (['Y', 'X', 'c', 'd'] = patched ['a', 'b', 'c', 'd'] (distinct located) ↔
          Untangled ['a', 'b', 'c', 'd'] (distinct located)) :=
  ⟨rfl, applyTextEdits_eq_patched_iff rfl⟩

/-- The inserted text is lost, and a character of the replaced range is left. -/
theorem applyTextEdits_insertion_last :
    applyTextEdits ['a', 'b', 'c', 'd'] disturbed = .ok ['X', 'b', 'c', 'd'] ∧
      ∃ located, locate ['a', 'b', 'c', 'd'] disturbed = .ok located ∧
        patched ['a', 'b', 'c', 'd'] (distinct located) = ['X', 'Y', 'c', 'd'] :=
  ⟨rfl, _, rfl, by decide⟩

end KolegaCode.Lsp
