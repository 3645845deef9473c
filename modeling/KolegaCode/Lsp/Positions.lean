import KolegaCode.Lsp.TextEdits

/-!
# Lsp — positions of the protocol

A position of the protocol is a line, where lines end at LF, CRLF or CR, and a column in UTF-16
units.  `offsetForPosition` takes the lines of `str.splitlines`, which ends lines at eight other
characters too (`isForeign`), so it finds a place exactly when none of these stands in front of it,
other than directly.
-/

namespace KolegaCode.Lsp

open List
open Json (Dict get?)
open Session (asInt?)
open Text (splitlinesKeepends linesFrom isLineBreak)

/-! ### Places -/

/-- The lines of the protocol, each with its ending; `line` is what was read of the current one. -/
def protocolLines (line : List Char) : List Char → List (List Char × List Char)
  | [] => [(line, [])]
  | '\r' :: '\n' :: cs => (line, ['\r', '\n']) :: protocolLines [] cs
  | c :: cs =>
    if c = '\n' ∨ c = '\r' then (line, [c]) :: protocolLines [] cs
    else protocolLines (line ++ [c]) cs

def units (c : Char) : Nat := if c.toNat > 0xFFFF then 2 else 1

def utf16Length (cs : List Char) : Nat := (cs.map units).sum

/-- A place in a line, by its column. -/
def Column (body : List Char) (column i : Nat) : Prop :=
  i ≤ body.length ∧ utf16Length (body.take i) = column

/-- The column is inside the surrogate pair of the character at `i`. -/
def Splits (body : List Char) (column i : Nat) : Prop :=
  ∃ c, body[i]? = some c ∧ c.toNat > 0xFFFF ∧ utf16Length (body.take i) + 1 = column

/-- What `P` says of a line's columns, for the offsets of a document. -/
def At (P : List Char → Nat → Nat → Prop) :
    List (List Char × List Char) → Nat → Nat → Nat → Prop
  | [], _, _, _ => False
  | l :: _, 0, column, p => P l.1 column p
  | l :: ls, k + 1, column, p => ∃ q, p = l.1.length + l.2.length + q ∧ At P ls k column q

/-- A character at which `str.splitlines` ends a line and the protocol does not. -/
def isForeign (c : Char) : Bool := isLineBreak c && c != '\n' && c != '\r'

/-- The first `n` characters hold no such character. -/
def Clean (cs : List Char) (n : Nat) : Prop := ∀ c ∈ cs.take n, isForeign c = false

/-! ### Columns -/

theorem units_pos (c : Char) : 0 < units c := by
  unfold units
  split <;> decide

theorem column_cons {c : Char} {cs : List Char} {column i : Nat} :
    Column (c :: cs) column (i + 1) ↔ units c ≤ column ∧ Column cs (column - units c) i := by
  simp only [Column, length_cons, take_succ_cons, utf16Length, map_cons, sum_cons]
  omega

theorem column_zero {cs : List Char} {column : Nat} : Column cs column 0 ↔ column = 0 := by
  simp [Column, utf16Length, eq_comm]

theorem pythonOffsetForUtf16_iff {column seen index o : Nat} {text : List Char}
    (h : seen ≤ column) : pythonOffsetForUtf16 column seen index text = .ok o ↔
      ∃ i, o = index + i ∧ Column text (column - seen) i := by
  induction text generalizing seen index with
  | nil =>
    rw [pythonOffsetForUtf16]
    split
    · next heq =>
      refine ⟨fun hok => ⟨0, by cases hok; rfl, column_zero.mpr (by omega)⟩, ?_⟩
      rintro ⟨i, rfl, hi, -⟩
      rw [Nat.le_zero.mp hi]
      rfl
    · next hne =>
      refine ⟨fun hok => (by cases hok), ?_⟩
      rintro ⟨i, -, hi⟩
      obtain rfl := Nat.le_zero.mp hi.1
      exact absurd (column_zero.mp hi) (by omega)
  | cons c text ih =>
    have hpos := units_pos c
    rw [pythonOffsetForUtf16]
    split
    · next heq =>
      refine ⟨fun hok => ⟨0, by cases hok; rfl, column_zero.mpr (by omega)⟩, ?_⟩
      rintro ⟨i, rfl, hi⟩
      cases i with
      | zero => rfl
      | succ i => exact absurd (column_cons.mp hi).1 (by omega)
    · next hne =>
      change (if seen + units c > column then _ else _) = _ ↔ _
      split
      · refine ⟨fun hok => (by cases hok), ?_⟩
        rintro ⟨i, -, hi⟩
        cases i with
        | zero => exact absurd (column_zero.mp hi) (by omega)
        | succ i => exact absurd (column_cons.mp hi).1 (by omega)
      · next hle =>
        rw [show (if c.toNat > 0xFFFF then 2 else 1) = units c from rfl, ih (by omega)]
        constructor
        · rintro ⟨i, rfl, hi⟩
          exact ⟨i + 1, by omega, column_cons.mpr ⟨by omega, by rwa [Nat.sub_sub]⟩⟩
        · rintro ⟨i, rfl, hi⟩
          cases i with
          | zero => exact absurd (column_zero.mp hi) (by omega)
          | succ i => exact ⟨i, by omega, by rw [← Nat.sub_sub]; exact (column_cons.mp hi).2⟩

/-- No place is inside a surrogate pair. -/
theorem Column.not_splits {body : List Char} {column i j : Nat} (h : Column body column i)
    (hs : Splits body column j) : False := by
  obtain ⟨c, hc, hlarge, hcol⟩ := hs
  have hmono : ∀ {a b : Nat}, a ≤ b → utf16Length (body.take a) ≤ utf16Length (body.take b) := by
    intro a b hab
    rw [utf16Length, utf16Length, ← take_append_drop a (body.take b), take_take,
      Nat.min_eq_left hab, map_append, sum_append]
    exact Nat.le_add_right _ _
  have hnext : utf16Length (body.take (j + 1)) = utf16Length (body.take j) + 2 := by
    rw [take_add_one, hc]
    simp [utf16Length, units, hlarge]
  rcases Nat.lt_or_ge j i with hlt | hle
  · have : utf16Length (body.take (j + 1)) ≤ _ := hmono hlt
    have := h.2
    omega
  · have := hmono hle
    have := h.2
    omega

/-! ### What the code finds -/

/-- What the code finds in the lines of `splitlines`. -/
def Finds : List (List Char) → Nat → Nat → Nat → Prop
  | [], k, column, o => k = 0 ∧ column = 0 ∧ o = 0
  | l :: _, 0, column, o => Column (lineBody l) column o
  | l :: ls, k + 1, column, o => ∃ q, o = l.length + q ∧ Finds ls k column q

theorem finds_iff (lines : List (List Char)) (k column o : Nat) : Finds lines k column o ↔
    (k = lines.length ∧ column = 0 ∧ o = (lines.map List.length).sum) ∨
      ∃ l i, lines[k]? = some l ∧ o = ((lines.take k).map List.length).sum + i ∧
        Column (lineBody l) column i := by
  induction lines generalizing k o with
  | nil => simp [Finds]
  | cons l lines ih =>
    cases k with
    | zero => simp [Finds]
    | succ k =>
      simp only [Finds, ih, length_cons, Nat.add_right_cancel_iff, map_cons,
        sum_cons, getElem?_cons_succ, take_succ_cons]
      constructor
      · rintro ⟨q, rfl, ⟨hk, hc, rfl⟩ | ⟨l', i, hl, rfl, hi⟩⟩
        · exact .inl ⟨hk, hc, rfl⟩
        · exact .inr ⟨l', i, hl, by omega, hi⟩
      · rintro (⟨hk, hc, rfl⟩ | ⟨l', i, hl, rfl, hi⟩)
        · exact ⟨_, rfl, .inl ⟨hk, hc, rfl⟩⟩
        · exact ⟨_, by rw [Nat.add_assoc], .inr ⟨l', i, hl, rfl, hi⟩⟩

/-- A position with a line and a column. -/
def IsPosition (position : Dict) (k column : Nat) : Prop :=
  (get? position "line").bind asInt? = some (k : Int) ∧
    (get? position "character").bind asInt? = some (column : Int)

theorem offsetForPosition_iff {content : List Char} {position : Dict} {k column o : Nat}
    (h : IsPosition position k column) : offsetForPosition content (some (.obj position)) = .ok o ↔
      Finds (splitlinesKeepends content) k column o := by
  have hsum : ((splitlinesKeepends content).map List.length).sum = content.length := by
    rw [← length_flatten, Text.flatten_splitlinesKeepends]
  rw [finds_iff, hsum, offsetForPosition]
  simp only [h.1, h.2]
  rw [if_neg (by omega)]
  generalize splitlinesKeepends content = lines at hsum
  simp only [Int.natCast_eq_zero, Int.natCast_inj, Int.toNat_natCast]
  split
  · next hnil =>
    subst hnil
    split
    · next hk => simp_all [eq_comm]
    · next hk => simp_all
  · split
    · next hne hk => simp [hk.1, hk.2, eq_comm]
    · next hne hk =>
      rw [or_iff_right fun h => hk ⟨h.1, h.2.1⟩]
      split
      · next hnone => simp [hnone]
      · next l hl =>
        simp only [hl, bind_eq_ok, pythonOffsetForUtf16_iff (Nat.zero_le column), Nat.zero_add,
          Nat.sub_zero]
        constructor
        · rintro ⟨i, ⟨i, rfl, hi⟩, hok⟩
          cases hok
          exact ⟨l, i, rfl, rfl, hi⟩
        · rintro ⟨l, i, ⟨⟩, rfl, hi⟩
          exact ⟨i, ⟨i, rfl, hi⟩, rfl⟩

/-! ### The two ways to take lines -/

/-- The lines of `splitlines`, from those that `linesFrom` finds. -/
def pieces (line cs : List Char) : List (List Char) := (linesFrom line cs).map fun l => l.1 ++ l.2

theorem isForeign_iff {c : Char} :
    isForeign c = true ↔ isLineBreak c = true ∧ c ≠ '\n' ∧ c ≠ '\r' := by
  simp [isForeign, and_assoc]

theorem clean_le {line rest : List Char} (h : ∀ c ∈ line, isLineBreak c = false) {n : Nat}
    (hn : n ≤ line.length) : Clean (line ++ rest) n := fun c hc => by
  rw [take_append_of_le_length hn] at hc
  simp [isForeign, h c (mem_of_mem_take hc)]

theorem clean_append {line ending rest : List Char} (h : ∀ c ∈ line, isLineBreak c = false)
    (hending : ∀ c ∈ ending, isForeign c = false) (q : Nat) :
    Clean (line ++ (ending ++ rest)) (line.length + ending.length + q - 1) ↔
      Clean rest (q - 1) := by
  rcases Nat.eq_zero_or_pos q with rfl | hq
  · refine ⟨fun _ => by simp [Clean], fun _ c hc => ?_⟩
    rw [← append_assoc, take_append_of_le_length (by rw [length_append]; omega)] at hc
    rcases mem_append.mp (mem_of_mem_take hc) with hc | hc
    · simp [isForeign, h c hc]
    · exact hending c hc
  · have hlen : line.length + ending.length + q - 1 = (line ++ ending).length + (q - 1) := by
      rw [length_append]
      omega
    rw [Clean, hlen, ← append_assoc, take_length_add_append]
    refine ⟨fun hc c hm => hc c (mem_append_right _ hm), fun hc c hm => ?_⟩
    rcases mem_append.mp hm with hm | hm
    · rcases mem_append.mp hm with hm | hm
      · simp [isForeign, h c hm]
      · exact hending c hm
    · exact hc c hm

theorem clean_foreign {line rest : List Char} (h : ∀ c ∈ line, isLineBreak c = false) {c : Char}
    (hc : isForeign c = true) {n : Nat} : Clean (line ++ c :: rest) n ↔ n ≤ line.length := by
  refine ⟨fun hclean => ?_, clean_le h⟩
  by_contra hlt
  have hmem : c ∈ (line ++ c :: rest).take n := by
    rw [take_append, mem_append, show n - line.length = n - line.length - 1 + 1 by omega,
      take_succ_cons]
    exact .inr mem_cons_self
  rw [hclean c hmem] at hc
  cases hc

theorem lineBody_append {line ending : List Char} (h : ∀ c ∈ line, isLineBreak c = false)
    (hending : ending = ['\r', '\n'] ∨ ending = ['\n'] ∨ ending = ['\r']) :
    lineBody (line ++ ending) = line := by
  have hcr : ¬ ['\r', '\n'] <:+ line ++ ['\n'] := by
    rintro ⟨before, heq⟩
    rw [show before ++ ['\r', '\n'] = (before ++ ['\r']) ++ ['\n'] by simp] at heq
    have hmem : '\r' ∈ line := by rw [← append_cancel_right heq]; simp
    exact absurd (h _ hmem) (by decide)
  have hlf : ¬ ['\r', '\n'] <:+ line ++ ['\r'] := by
    rintro ⟨before, heq⟩
    have := congrArg List.getLast? heq
    simp at this
  unfold lineBody
  rcases hending with rfl | rfl | rfl
  · rw [if_pos (suffix_append _ _)]
    simp
  · rw [if_neg hcr, if_pos (.inl (suffix_append _ _))]
    simp
  · rw [if_neg hlf, if_pos (.inr (suffix_append _ _))]
    simp

/-- A line that ends in no line feed or carriage return has no ending the code knows. -/
theorem lineBody_eq_self {line : List Char} (h : ∀ c ∈ line.getLast?, c ≠ '\n' ∧ c ≠ '\r') :
    lineBody line = line := by
  have hlast : ∀ {p : List Char} {c}, line = p ++ [c] → c ≠ '\n' ∧ c ≠ '\r' := by
    rintro p c rfl
    exact h c (by simp)
  have hlf : ¬ ['\r', '\n'] <:+ line := fun ⟨before, heq⟩ =>
    (hlast (p := before ++ ['\r']) (by simp [← heq])).1 rfl
  have hone : ¬ (['\n'] <:+ line ∨ ['\r'] <:+ line) := by
    rintro (⟨before, heq⟩ | ⟨before, heq⟩)
    · exact (hlast heq.symm).1 rfl
    · exact (hlast heq.symm).2 rfl
  rw [lineBody, if_neg hlf, if_neg hone]

theorem protocolLines_append (a : List Char) (line cs : List Char) :
    protocolLines (a ++ line) cs = (protocolLines line cs).modifyHead fun l => (a ++ l.1, l.2) := by
  fun_induction protocolLines line cs with
  | case1 line => rfl
  | case2 line cs => rfl
  | case3 line c cs hcr hbreak => rw [protocolLines.eq_3 _ _ _ hcr, if_pos hbreak]; rfl
  | case4 line c cs hcr hbreak ih =>
    rw [protocolLines.eq_3 _ _ _ hcr, if_neg hbreak, append_assoc, ih]

section

variable {P : List Char → Nat → Nat → Prop} {line cs : List Char} {k m column column' p o : Nat}

theorem at_succ_append (a : List Char) : At P (protocolLines (a ++ []) cs) (k + 1) column p ↔
    ∃ q, p = a.length + q ∧ At P (protocolLines [] cs) (k + 1) column q := by
  rw [protocolLines_append]
  cases protocolLines [] cs with
  | nil => simp [At]
  | cons l ls =>
    simp only [modifyHead_cons, At, length_append]
    constructor
    · rintro ⟨q, rfl, hq⟩
      exact ⟨_, by rw [Nat.add_assoc, Nat.add_assoc], q, Nat.add_assoc _ _ _ |>.symm, hq⟩
    · rintro ⟨_, rfl, q, rfl, hq⟩
      exact ⟨q, by omega, hq⟩

theorem lt_of_at_succ (h : At P (protocolLines line cs) (k + 1) column p) : line.length < p := by
  fun_induction protocolLines line cs with
  | case1 line => exact h.elim fun _ h => h.2.elim
  | case2 line cs | case3 line c cs =>
    obtain ⟨q, rfl, -⟩ := h
    simp only [length_cons]
    omega
  | case4 line c cs _ _ ih =>
    have := ih h
    rw [length_append] at this
    omega

/-- The document is read from where a line begins: it ends, the line ends, a foreign character
follows, or the line goes on. -/
theorem lines_induction
    {motive : (line cs : List Char) → (∀ c ∈ line, isLineBreak c = false) → Prop}
    (nil : ∀ line hline, motive line [] hline)
    (ending : ∀ line ending cs hline, ending ≠ [] → lineBody (line ++ ending) = line →
      (∀ c ∈ ending, isForeign c = false) →
      pieces line (ending ++ cs) = (line ++ ending) :: pieces [] cs →
      protocolLines line (ending ++ cs) = (line, ending) :: protocolLines [] cs →
      motive [] cs nofun → motive line (ending ++ cs) hline)
    (foreign : ∀ line c cs hline, isForeign c = true → lineBody (line ++ [c]) = line ++ [c] →
      pieces line (c :: cs) = (line ++ [c]) :: pieces [] cs →
      protocolLines line (c :: cs) = protocolLines (line ++ [c] ++ []) cs →
      motive [] cs nofun → motive line (c :: cs) hline)
    (plain : ∀ line c cs hline hline', pieces line (c :: cs) = pieces (line ++ [c]) cs →
      protocolLines line (c :: cs) = protocolLines (line ++ [c]) cs →
      motive (line ++ [c]) cs hline' → motive line (c :: cs) hline) (line cs : List Char)
    (hline : ∀ c ∈ line, isLineBreak c = false) : motive line cs hline := by
  fun_induction linesFrom line cs with
  | case1 line => exact nil line hline
  | case2 line => exact nil line hline
  | case3 line cs ih =>
    exact ending line ['\r', '\n'] cs hline (by decide) (lineBody_append hline (.inl rfl))
      (by simp [isForeign]) rfl rfl (ih _)
  | case4 line c cs hcr hbreak ih =>
    have hpieces : pieces line (c :: cs) = (line ++ [c]) :: pieces [] cs := by
      rw [pieces, Text.linesFrom_cons _ hcr, if_pos hbreak]
      rfl
    by_cases hc : c = '\n' ∨ c = '\r'
    · refine ending line [c] cs hline (by simp)
        (lineBody_append hline (.inr (hc.imp (congrArg ([·])) (congrArg ([·]))))) ?_ hpieces
        (by rw [singleton_append, protocolLines.eq_3 _ _ _ hcr, if_pos hc]) (ih _)
      rintro d hd
      rw [mem_singleton.mp hd]
      rcases hc with rfl | rfl <;> rfl
    · rw [not_or] at hc
      exact foreign line c cs hline (isForeign_iff.mpr ⟨hbreak, hc⟩) (lineBody_eq_self (by simpa))
        hpieces (by rw [protocolLines.eq_3 _ _ _ hcr, if_neg (not_or.mpr hc), append_nil])
        (ih _)
  | case5 line c cs hcr hbreak ih =>
    have hc : ¬ (c = '\n' ∨ c = '\r') := by
      rintro (rfl | rfl) <;> exact hbreak rfl
    have hline' : ∀ d ∈ line ++ [c], isLineBreak d = false := fun d hd => by
      rcases mem_append.mp hd with hd | hd
      · exact hline d hd
      · rw [mem_singleton.mp hd]
        exact Bool.not_eq_true _ ▸ hbreak
    exact plain line c cs hline hline'
      (by rw [pieces, Text.linesFrom_cons _ hcr, if_neg hbreak]; rfl)
      (by rw [protocolLines.eq_3 _ _ _ hcr, if_neg hc]) (ih hline')

theorem Finds.lt (hline : ∀ c ∈ line, isLineBreak c = false)
    (hf : Finds (pieces line cs) k column o) (hkm : k ≤ m)
    (hat : At P (protocolLines line cs) (m + 1) column' p) : o < p := by
  induction line, cs, hline using lines_induction generalizing k m o p with
  | nil line => exact hat.elim fun _ h => h.2.elim
  | ending line ending cs hline hne hbody hending hpieces hprotocol ih =>
    rw [hpieces] at hf
    rw [hprotocol] at hat
    obtain ⟨q, rfl, hat⟩ := hat
    cases k with
    | zero =>
      have hle : o ≤ _ := hf.1
      rw [hbody] at hle
      have := length_pos_of_ne_nil hne
      dsimp only
      omega
    | succ k =>
      obtain ⟨q', rfl, hf⟩ := hf
      cases m with
      | zero => omega
      | succ m =>
        have := ih hf (by omega) hat
        dsimp only
        rw [length_append]
        omega
  | foreign line c cs hline hc hbody hpieces hprotocol ih =>
    rw [hpieces] at hf
    rw [hprotocol, at_succ_append] at hat
    obtain ⟨q, rfl, hat⟩ := hat
    cases k with
    | zero =>
      have : o ≤ _ := hf.1
      rw [hbody] at this
      have := lt_of_at_succ hat
      omega
    | succ k =>
      obtain ⟨q', rfl, hf⟩ := hf
      have := ih hf (Nat.le_of_succ_le hkm) hat
      omega
  | plain line c cs hline hline' hpieces hprotocol ih =>
    exact ih (hpieces ▸ hf) hkm (hprotocol ▸ hat)

theorem finds_end (hline : ∀ c ∈ line, isLineBreak c = false) :
    Finds (pieces line []) 0 column o ↔ Column line column o := by
  rcases eq_or_ne line [] with rfl | hne
  · simp only [pieces, linesFrom, isEmpty_nil, if_true, map_nil, Finds, Column,
      length_nil, Nat.le_zero, take_nil, true_and]
    exact ⟨fun h => ⟨h.2, h.1.symm⟩, fun h => ⟨h.2.symm, h.1⟩⟩
  · have hbody : lineBody line = line := lineBody_eq_self fun c hc => by
      have := hline c (mem_of_getLast? hc)
      constructor <;> rintro rfl <;> cases this
    simp only [pieces, linesFrom, isEmpty_eq_false_iff.mpr hne, Bool.false_eq_true, if_false,
      map_cons, append_nil, Finds, hbody]

/-- Up to the first foreign character, and right behind it, the code reads the line of the
protocol. -/
theorem exists_found (hP : ∀ {body column i}, P body column i → i ≤ body.length)
    (hline : ∀ c ∈ line, isLineBreak c = false) (hat : At P (protocolLines line cs) k column p)
    (hclean : Clean (line ++ cs) (p - 1)) : ∃ start i body found, p = start + i ∧
      P body column i ∧ found <+: body ∧ i ≤ found.length ∧
        ∀ column o,
          Finds (pieces line cs) k column o ↔ ∃ j, o = start + j ∧ Column found column j := by
  induction line, cs, hline using lines_induction generalizing k p with
  | nil line hline =>
    cases k with
    | succ k => exact hat.elim fun _ h => h.2.elim
    | zero =>
      refine ⟨0, p, line, line, (Nat.zero_add p).symm, hat, prefix_refl _, hP hat, ?_⟩
      simp [finds_end hline]
  | ending line ending cs hline hne hbody hending hpieces hprotocol ih =>
    rw [hprotocol] at hat
    rw [hpieces]
    cases k with
    | zero =>
      refine ⟨0, p, line, line, (Nat.zero_add p).symm, hat, prefix_refl _, hP hat, ?_⟩
      simp [Finds, hbody]
    | succ k =>
      obtain ⟨q, rfl, hat⟩ := hat
      obtain ⟨start, i, body, found, rfl, hP', hpre, hle, hfinds⟩ :=
        ih hat ((clean_append hline hending q).mp hclean)
      refine ⟨(line ++ ending).length + start, i, body, found, ?_, hP', hpre, hle, ?_⟩
      · rw [length_append, Nat.add_assoc _ start]
      · intro column o
        simp only [Finds, hfinds]
        constructor
        · rintro ⟨_, rfl, j, rfl, hj⟩
          exact ⟨j, (Nat.add_assoc _ _ _).symm, hj⟩
        · rintro ⟨j, rfl, hj⟩
          exact ⟨start + j, Nat.add_assoc _ _ _, j, rfl, hj⟩
  | foreign line c cs hline hc hbody hpieces hprotocol ih =>
    have hle := (clean_foreign hline hc).mp hclean
    rw [hprotocol] at hat
    rw [hpieces]
    cases k with
    | zero =>
      rw [protocolLines_append] at hat
      rcases hls : protocolLines [] cs with - | ⟨l, ls⟩
      · rw [hls] at hat
        exact hat.elim
      · rw [hls] at hat
        refine ⟨0, p, line ++ [c] ++ l.1, line ++ [c], (Nat.zero_add p).symm, hat,
          prefix_append _ _, ?_, ?_⟩
        · rw [length_append, length_singleton]
          omega
        · simp [Finds, hbody]
    | succ k =>
      rw [at_succ_append] at hat
      obtain ⟨q, rfl, hat⟩ := hat
      have := lt_of_at_succ hat
      simp only [length_append, length_singleton, length_nil] at hle this
      omega
  | plain line c cs hline hline' hpieces hprotocol ih =>
    rw [hpieces]
    exact ih (hprotocol ▸ hat) (by rwa [append_assoc])

/-- A place that is found has no foreign character in front of it, other than directly. -/
theorem clean_of_found (hline : ∀ c ∈ line, isLineBreak c = false)
    (hf : Finds (pieces line cs) k column p) (hat : At P (protocolLines line cs) k column p) :
    Clean (line ++ cs) (p - 1) := by
  induction line, cs, hline using lines_induction generalizing k p with
  | nil line hline =>
    cases k with
    | succ k => exact hat.elim fun _ h => h.2.elim
    | zero =>
      have hle := (finds_end hline |>.mp hf).1
      exact clean_le hline (Nat.sub_le_of_le_add (Nat.le_succ_of_le hle))
  | ending line ending cs hline hne hbody hending hpieces hprotocol ih =>
    rw [hpieces] at hf
    rw [hprotocol] at hat
    cases k with
    | zero =>
      have hle : p ≤ _ := hf.1
      rw [hbody] at hle
      exact clean_le hline (by omega)
    | succ k =>
      obtain ⟨q, rfl, hat⟩ := hat
      obtain ⟨q', hq, hf⟩ := hf
      rw [length_append, Nat.add_left_cancel_iff] at hq
      exact (clean_append hline hending q).mpr (ih (hq ▸ hf) hat)
  | foreign line c cs hline hc hbody hpieces hprotocol ih =>
    rw [hpieces] at hf
    rw [hprotocol] at hat
    cases k with
    | zero =>
      have hle : p ≤ _ := hf.1
      rw [hbody, length_append, length_singleton] at hle
      exact (clean_foreign hline hc).mpr (by omega)
    | succ k =>
      rw [at_succ_append] at hat
      obtain ⟨q, rfl, hat⟩ := hat
      obtain ⟨q', hq, hf⟩ := hf
      have := hf.lt (fun _ hc => absurd hc not_mem_nil) (Nat.le_refl k) hat
      omega
  | plain line c cs hline hline' hpieces hprotocol ih =>
    rw [append_cons]
    exact ih (hpieces ▸ hf) (hprotocol ▸ hat)

end

/-! ### Positions -/

/-- **Places are found**: for a place of the document the code returns its offset exactly when no
foreign character is in front of it, other than directly; and then, where the column is inside a
surrogate pair, it raises. -/
theorem offsetForPosition_place (content : List Char) {position : Dict} {k column : Nat}
    (h : IsPosition position k column) (p : Nat) :
    (At Column (protocolLines [] content) k column p →
      (offsetForPosition content (some (.obj position)) = .ok p ↔ Clean content (p - 1))) ∧
    (At Splits (protocolLines [] content) k column p → Clean content (p - 1) →
      ∀ o, offsetForPosition content (some (.obj position)) ≠ .ok o) := by
  have hpieces : splitlinesKeepends content = pieces [] content := rfl
  have hnil : ∀ c ∈ ([] : List Char), isLineBreak c = false :=
    fun _ hc => absurd hc not_mem_nil
  simp only [ne_eq, offsetForPosition_iff h, hpieces]
  refine ⟨fun hat => ⟨fun hf => clean_of_found hnil hf hat, fun hclean => ?_⟩,
    fun hat hclean o hf => ?_⟩
  · obtain ⟨start, i, body, found, rfl, ⟨hi, hcol⟩, ⟨rest, rfl⟩, hle, hfinds⟩ :=
      exists_found And.left hnil hat hclean
    refine (hfinds column _).mpr ⟨i, rfl, hle, ?_⟩
    rwa [take_append_of_le_length hle] at hcol
  · obtain ⟨start, i, body, found, rfl, hsplits, ⟨rest, rfl⟩, -, hfinds⟩ :=
      exists_found (fun ⟨_, hc, _⟩ => (List.getElem?_eq_some_iff.mp hc).1.le) hnil hat hclean
    obtain ⟨j, -, hj, hcol⟩ := (hfinds column o).mp hf
    refine Column.not_splits ⟨hj.trans (prefix_append _ _).length_le, ?_⟩ hsplits
    rwa [take_append_of_le_length hj]

private def positionOf (k column : Nat) : Dict := [("line", .int k), ("character", .int column)]

/-- Behind an emoji in the second line. -/
theorem offsetForPosition_place_emoji :
    offsetForPosition "a\r\n😀b".toList (some (.obj (positionOf 1 2))) = .ok 4 :=
  ((@offsetForPosition_place "a\r\n😀b".toList (positionOf 1 2) 1 2 ⟨rfl, rfl⟩ 4).1
    ⟨1, rfl, by decide, by decide⟩).mpr (by simp [Clean, isForeign, isLineBreak])

/-- A form feed shifts the lines behind it. -/
theorem offsetForPosition_formFeed :
    At Column (protocolLines [] "a\x0cb\nc".toList) 1 0 4 ∧
      offsetForPosition "a\x0cb\nc".toList (some (.obj (positionOf 1 0))) = .ok 2 :=
  ⟨⟨0, rfl, by decide, by decide⟩, by decide⟩

end KolegaCode.Lsp
