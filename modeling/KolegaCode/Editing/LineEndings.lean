import KolegaCode.Lib.Lines
import KolegaCode.Lib.Occurrences

/-!
# Editing — a search text with other line endings

The text that is searched has a line feed for each of its endings, and the index map says where in
the raw text each of its characters begins.  The end of a span is where the next character begins,
so it is behind both characters of a CRLF (`lineEndingSpans_exact`).
-/

namespace KolegaCode.Editing

open List
open Text (normalizeNewlines occurrences)

/-! ### The matcher -/

/-- What the loop of `_normalize_line_endings_with_index_map` appends from `index` on. -/
def indexedFrom (index : Nat) : List Char → List (Char × Nat)
  | [] => []
  | '\r' :: '\n' :: cs => ('\n', index) :: indexedFrom (index + 2) cs
  | c :: cs => (if c = '\r' then '\n' else c, index) :: indexedFrom (index + 1) cs

def normalizeLineEndingsWithIndexMap (text : List Char) : List Char × List Nat :=
  (indexedFrom 0 text).unzip

def findSpans (content searchText : List Char) : List (Nat × Nat) :=
  (occurrences searchText content).map fun index => (index, index + searchText.length)

def mapNormalizedSpan (span : Nat × Nat) (indexMap : List Nat) (originalLength : Nat) : Nat × Nat :=
  (indexMap.getD span.1 originalLength, indexMap.getD span.2 originalLength)

def lineEndingSpans (content searchText : List Char) : List (Nat × Nat) :=
  let (normalizedContent, indexMap) := normalizeLineEndingsWithIndexMap content
  let (normalizedSearch, _) := normalizeLineEndingsWithIndexMap searchText
  (findSpans normalizedContent normalizedSearch).map
    (mapNormalizedSpan · indexMap content.length)

/-! ### Cuts of the raw text -/

/-- The place is between the two characters of a CRLF. -/
def SplitsCrlf (content : List Char) (place : Nat) : Prop :=
  ∃ front back, content = front ++ '\r' :: '\n' :: back ∧ place = front.length + 1

/-- A span of the raw text that is the search text, up to line endings. -/
structure RawMatch (content searchText : List Char) (span : Nat × Nat) : Prop where
  ordered : span.1 ≤ span.2
  bound : span.2 ≤ content.length
  start : ¬ SplitsCrlf content span.1
  stop : ¬ SplitsCrlf content span.2
  text : normalizeNewlines ((content.take span.2).drop span.1) = normalizeNewlines searchText

theorem map_fst_indexedFrom (index : Nat) (cs : List Char) :
    (indexedFrom index cs).map Prod.fst = normalizeNewlines cs := by
  fun_induction indexedFrom index cs with
  | case1 => rfl
  | case2 index cs ih => rw [map_cons, ih]; rfl
  | case3 index c cs hcr ih =>
    rw [map_cons, ih, normalizeNewlines, normalizeNewlines, Text.replaceCrlf.eq_3 _ _ hcr]
    rfl

theorem indexedFrom_cut {index : Nat} {cs : List Char} {k : Nat}
    (h : k ≤ (indexedFrom index cs).length) :
    ∃ front back, cs = front ++ back ∧ ¬ (front.getLast? = some '\r' ∧ back.head? = some '\n') ∧
      indexedFrom index front = (indexedFrom index cs).take k ∧
      indexedFrom (index + front.length) back = (indexedFrom index cs).drop k := by
  induction k generalizing index cs with
  | zero => exact ⟨[], cs, rfl, nofun, rfl, rfl⟩
  | succ k ih =>
    fun_cases indexedFrom index cs with
    | case1 => exact absurd h (Nat.not_succ_le_zero k)
    | case2 cs =>
      obtain ⟨front, back, rfl, hsplit, hfront, hback⟩ := ih (Nat.le_of_succ_le_succ h)
      refine ⟨'\r' :: '\n' :: front, back, rfl, ?_, ?_, ?_⟩
      · cases front with
        | nil => exact nofun
        | cons c front => simpa using hsplit
      · rw [indexedFrom, hfront, take_succ_cons]
      · rw [drop_succ_cons, ← hback, length_cons, length_cons, Nat.add_assoc index 2,
          Nat.add_comm 2]
    | case3 c cs hcr =>
      rw [indexedFrom.eq_3 _ _ _ hcr] at h
      obtain ⟨front, back, rfl, hsplit, hfront, hback⟩ := ih (Nat.le_of_succ_le_succ h)
      have hcr' : ∀ rest, c = '\r' → front = '\n' :: rest → False := by
        rintro rest hc rfl
        exact hcr _ hc rfl
      refine ⟨c :: front, back, rfl, ?_, ?_, ?_⟩
      · cases front with
        | nil =>
          rintro ⟨hc, hhead⟩
          obtain ⟨rest, rfl⟩ := head?_eq_some_iff.mp hhead
          exact hcr rest (by simpa using hc) rfl
        | cons d front => simpa using hsplit
      · rw [indexedFrom.eq_3 _ _ _ hcr', hfront, take_succ_cons]
      · rw [drop_succ_cons, ← hback, length_cons, Nat.add_assoc index 1, Nat.add_comm 1]

theorem not_splitsCrlf {front back : List Char}
    (h : ¬ (front.getLast? = some '\r' ∧ back.head? = some '\n')) :
    ¬ SplitsCrlf (front ++ back) front.length := by
  rintro ⟨before, after, heq, hlength⟩
  rw [show before ++ '\r' :: '\n' :: after = before ++ ['\r'] ++ '\n' :: after by simp] at heq
  obtain ⟨rfl, rfl⟩ := append_inj heq (by simpa using hlength)
  exact h ⟨getLast?_concat, rfl⟩

theorem getD_indexedFrom {front back : List Char} {k : Nat}
    (h : indexedFrom front.length back = (indexedFrom 0 (front ++ back)).drop k) :
    ((indexedFrom 0 (front ++ back)).map Prod.snd).getD k (front ++ back).length = front.length := by
  rw [getD_eq_getElem?_getD, getElem?_map, ← Nat.add_zero k, ← getElem?_drop, ← h]
  fun_cases indexedFrom front.length back with
  | case1 => simp
  | case2 | case3 => rfl

/-! ### The spans -/

theorem rawMatch_of_occurrence {content searchText : List Char} {i : Nat}
    (h : i ∈ occurrences (normalizeNewlines searchText) (normalizeNewlines content)) :
    let span := mapNormalizedSpan (i, i + (normalizeNewlines searchText).length)
      ((indexedFrom 0 content).map Prod.snd) content.length
    RawMatch content searchText span ∧ (normalizeNewlines (content.take span.1)).length = i := by
  intro span
  have hbound := Text.add_length_le h
  obtain ⟨hne, -, hprefix⟩ := Text.mem_occurrences h
  have hlength : (indexedFrom 0 content).length = (normalizeNewlines content).length := by
    rw [← map_fst_indexedFrom 0, length_map]
  obtain ⟨front, back, rfl, hsplit, hfront, hback⟩ :=
    @indexedFrom_cut 0 content i (by omega)
  rw [Nat.zero_add] at hback
  obtain ⟨mid, rest, rfl, hsplit', hmid, hrest⟩ :=
    @indexedFrom_cut front.length back (normalizeNewlines searchText).length
      (by rw [hback, length_drop]; omega)
  have htext : normalizeNewlines mid = normalizeNewlines searchText := by
    rw [← map_fst_indexedFrom front.length mid, hmid, hback, map_take, map_drop,
      map_fst_indexedFrom]
    exact (prefix_iff_eq_take.mp hprefix).symm
  have hmidne : mid ≠ [] := by
    rintro rfl
    exact hne htext.symm
  have hstart : span.1 = front.length := getD_indexedFrom hback
  have hstop : span.2 = (front ++ mid).length := by
    have hplace := @getD_indexedFrom (front ++ mid) rest
      (i + (normalizeNewlines searchText).length) (by
        rw [length_append, hrest, hback, drop_drop, append_assoc])
    rwa [append_assoc front] at hplace
  have hfronttext : (normalizeNewlines front).length = i := by
    rw [← map_fst_indexedFrom 0 front, hfront, length_map, length_take_of_le (by omega)]
  refine ⟨⟨?_, ?_, ?_, ?_, ?_⟩, ?_⟩
  · rw [hstart, hstop, length_append]
    exact Nat.le_add_right _ _
  · rw [hstop, ← append_assoc]
    exact (prefix_append _ rest).length_le
  · rw [hstart]
    exact not_splitsCrlf hsplit
  · rw [hstop, ← append_assoc]
    refine not_splitsCrlf fun hboth => hsplit' ⟨?_, hboth.2⟩
    rw [← hboth.1, getLast?_append_of_ne_nil _ hmidne]
  · rw [hstart, hstop, ← append_assoc, take_left', drop_left', htext] <;> rfl
  · rw [hstart, take_left', hfronttext]
    rfl

/-- **Every span is the search text in the raw text**, and there is one for each occurrence that the
scan finds. -/
theorem lineEndingSpans_exact (content searchText : List Char) :
    (∀ span ∈ lineEndingSpans content searchText, RawMatch content searchText span) ∧
      (lineEndingSpans content searchText).map
          (fun span => (normalizeNewlines (content.take span.1)).length) =
        occurrences (normalizeNewlines searchText) (normalizeNewlines content) := by
  have hspans : lineEndingSpans content searchText =
      (occurrences (normalizeNewlines searchText) (normalizeNewlines content)).map fun i =>
        mapNormalizedSpan (i, i + (normalizeNewlines searchText).length)
          ((indexedFrom 0 content).map Prod.snd) content.length := by
    simp only [lineEndingSpans, normalizeLineEndingsWithIndexMap, findSpans, unzip_eq_map,
      map_fst_indexedFrom, map_map]
    rfl
  rw [hspans]
  constructor
  · intro span hspan
    obtain ⟨i, hi, rfl⟩ := mem_map.mp hspan
    exact (rawMatch_of_occurrence hi).1
  · rw [map_map]
    exact (map_congr_left fun i hi => (rawMatch_of_occurrence hi).2).trans (map_id _)

example : lineEndingSpans "a\r\nb\ra\nb".toList "a\nb".toList = [(0, 4), (5, 8)] := by decide

end KolegaCode.Editing
