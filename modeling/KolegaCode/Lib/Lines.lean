import KolegaCode.Lib.Text
import Mathlib.Data.List.Chain
import Mathlib.Algebra.GroupWithZero.Nat

/-!
# Lib — where a line stands

A line of a text, counted by its line feeds, is a stretch of the text (`Stands`).  The lines of a
part of a text are lines of the text, numbered on, when the part begins where a line begins and
ends where one ends (`stands_iff`).  The second half is about the pieces that `str.splitlines`
makes of a text.
-/

namespace KolegaCode.Text

open List

/-! ### Lines and positions -/

variable {cs line : List Char} {pieces : List (List Char)}

theorem mem_splitOn {sep : Char} {part : List Char} (h : part ∈ cs.splitOn sep) :
    sep ∉ part ∧ ∀ c ∈ part, c ∈ cs := by
  induction cs generalizing part with
  | nil =>
    rw [splitOn_nil, mem_singleton] at h
    rw [h]
    exact ⟨not_mem_nil, fun _ hc => absurd hc not_mem_nil⟩
  | cons x cs ih =>
    rw [splitOn_cons_eq_if_modifyHead] at h
    split at h
    · rcases mem_cons.mp h with rfl | h
      · exact ⟨not_mem_nil, fun _ hc => absurd hc not_mem_nil⟩
      · obtain ⟨hsep, hmem⟩ := ih h
        exact ⟨hsep, fun c hc => mem_cons_of_mem x (hmem c hc)⟩
    · next hne =>
      obtain ⟨first, parts, hparts⟩ := exists_cons_of_ne_nil (splitOn_ne_nil sep cs)
      rw [hparts, modifyHead_cons] at h
      rcases mem_cons.mp h with rfl | h
      · obtain ⟨hsep, hmem⟩ := ih (hparts ▸ mem_cons_self)
        refine ⟨fun hin => ?_, fun c hc => ?_⟩
        · rcases mem_cons.mp hin with rfl | hin
          · exact hne (by simp)
          · exact hsep hin
        · rcases mem_cons.mp hc with rfl | hc
          · exact mem_cons_self
          · exact mem_cons_of_mem x (hmem c hc)
      · obtain ⟨hsep, hmem⟩ := ih (hparts ▸ mem_cons_of_mem _ h)
        exact ⟨hsep, fun c hc => mem_cons_of_mem x (hmem c hc)⟩

/-- The text begins here, or a line feed is right before. -/
def AtLineStart (before : List Char) : Prop := before = [] ∨ before.getLast? = some '\n'

/-- The text ends here, or a line feed follows. -/
def AtLineEnd (after : List Char) : Prop := after = [] ∨ after.head? = some '\n'

instance (before : List Char) : Decidable (AtLineStart before) := inferInstanceAs (Decidable (_ ∨ _))

instance (after : List Char) : Decidable (AtLineEnd after) := inferInstanceAs (Decidable (_ ∨ _))

/-- Line `number` of a text begins at `position`, and reads `line`. -/
def Stands (text : List Char) (position number : Nat) (line : List Char) : Prop :=
  ∃ before after, text = before ++ (line ++ after) ∧ before.length = position ∧
    before.count '\n' + 1 = number ∧ AtLineStart before ∧ AtLineEnd after

/-- Where a line of a list of lines begins in their text. -/
def lineStart (lines : List (List Char)) (j : Nat) : Nat :=
  ((lines.take j).map fun l => l.length + 1).sum

theorem atLineStart_append {before rest : List Char} (h : AtLineStart rest) (hne : rest ≠ []) :
    AtLineStart (before ++ rest) := by
  refine .inr ?_
  rw [getLast?_append_of_ne_nil before hne]
  exact h.resolve_left hne

/-- There is one more line than there are line feeds. -/
theorem length_splitOn (text : List Char) : (text.splitOn '\n').length = text.count '\n' + 1 := by
  induction text with
  | nil => rfl
  | cons c text ih =>
    rw [splitOn_cons_eq_if_modifyHead]
    split
    · next heq =>
      rw [eq_of_beq heq, length_cons, ih, count_cons_self]
    · next hne =>
      rw [length_modifyHead, ih, count_cons_of_ne fun heq => hne (by rw [heq]; rfl)]

theorem splitOn_getElem {text : List Char} {j : Nat} (h : (text.splitOn '\n')[j]? = some line) :
    ∃ before after, text = before ++ (line ++ after) ∧
      before.length = lineStart (text.splitOn '\n') j ∧ before.count '\n' = j ∧
      AtLineStart before ∧
      ((after = [] ∧ j + 1 = (text.splitOn '\n').length) ∨
        after.head? = some '\n' ∧ j + 1 < (text.splitOn '\n').length) := by
  have hjoin : ∀ (lines : List (List Char)) (j : Nat), (∀ l ∈ lines, '\n' ∉ l) →
      lines[j]? = some line → ∃ before after, ['\n'].intercalate lines = before ++ (line ++ after) ∧
        before.length = lineStart lines j ∧ before.count '\n' = j ∧ AtLineStart before ∧
        ((after = [] ∧ j + 1 = lines.length) ∨ after.head? = some '\n' ∧ j + 1 < lines.length) := by
    intro lines
    induction lines with
    | nil =>
      intro j _ h
      cases h
    | cons first lines ih =>
      intro j hclean h
      cases j with
      | zero =>
        cases h
        cases lines with
        | nil => exact ⟨[], [], by simp, rfl, rfl, .inl rfl, .inl ⟨rfl, rfl⟩⟩
        | cons next lines =>
          refine ⟨[], '\n' :: ['\n'].intercalate (next :: lines), ?_, rfl, rfl, .inl rfl, .inr ⟨rfl, ?_⟩⟩
          · rw [intercalate_cons_cons, append_assoc]
            rfl
          · rw [length_cons, length_cons]
            omega
      | succ j =>
        rw [getElem?_cons_succ] at h
        obtain ⟨before, after, htext, hlen, hcount, hstart, hend⟩ :=
          ih j (fun l hl => hclean l (mem_cons_of_mem _ hl)) h
        have hne : lines ≠ [] := by
          rintro rfl
          cases h
        obtain ⟨next, rest, rfl⟩ := exists_cons_of_ne_nil hne
        have hfirst := count_eq_zero_of_not_mem (hclean first mem_cons_self)
        refine ⟨first ++ '\n' :: before, after, ?_, ?_, ?_, ?_, ?_⟩
        · rw [intercalate_cons_cons, append_assoc, htext, append_assoc]
          rfl
        · rw [length_append, length_cons, hlen, lineStart, lineStart, take_succ_cons,
            map_cons, sum_cons]
          omega
        · rw [count_append, count_cons_self, hfirst, hcount, Nat.zero_add]
        · refine .inr ?_
          rw [getLast?_append_of_ne_nil first (cons_ne_nil _ _)]
          rcases hstart with rfl | hlast
          · rfl
          · rw [getLast?_cons, hlast]
            rfl
        · rw [length_cons]
          exact hend.imp (fun he => ⟨he.1, by omega⟩) fun he => ⟨he.1, by omega⟩
  obtain ⟨before, after, htext, hrest⟩ := hjoin (text.splitOn '\n') j
    (fun l hl => (mem_splitOn hl).1) h
  rw [intercalate_splitOn] at htext
  exact ⟨before, after, htext, hrest⟩

/-- The lines of a part of a text are lines of the text, numbered on from `k`, exactly where the
part begins at the start of line `k + 1` and ends at the end of a line. -/
theorem stands_iff (before part after : List Char) (k : Nat) :
    (∀ j line, (part.splitOn '\n')[j]? = some line →
      Stands (before ++ (part ++ after)) (before.length + lineStart (part.splitOn '\n') j)
        (k + 1 + j) line) ↔
      before.count '\n' = k ∧ AtLineStart before ∧ AtLineEnd after := by
  constructor
  · intro hall
    have hne := splitOn_ne_nil '\n' part
    have hpos := length_pos_of_ne_nil hne
    obtain ⟨u, v, htext, hulen, hucount, -, -⟩ :=
      splitOn_getElem (getElem?_eq_getElem hpos)
    obtain ⟨b, a, hb, hblen, hbcount, hbstart, -⟩ :=
      hall 0 _ (getElem?_eq_getElem hpos)
    have hbefore : b = before := by
      refine (append_inj hb.symm ?_).1
      rw [hblen]
      rfl
    rw [hbefore] at hbcount hbstart
    have hlast : (part.splitOn '\n').length - 1 < (part.splitOn '\n').length := by omega
    obtain ⟨u', v', htext', hulen', -, -, hv⟩ :=
      splitOn_getElem (getElem?_eq_getElem hlast)
    obtain ⟨b', a', hb', hblen', -, -, haend⟩ :=
      hall _ _ (getElem?_eq_getElem hlast)
    refine ⟨by omega, hbstart, ?_⟩
    have hv' : v' = [] := by
      rcases hv with hv | hv
      · exact hv.1
      · omega
    rw [hv', append_nil] at htext'
    -- the last line ends where the part does
    have hafter : a' = after := by
      have heq : before ++ u' ++ ((part.splitOn '\n')[(part.splitOn '\n').length - 1] ++ after) =
          b' ++ ((part.splitOn '\n')[(part.splitOn '\n').length - 1] ++ a') := by
        rw [← hb']
        conv_rhs => rw [htext']
        simp only [append_assoc]
      have htail := (append_inj heq (by rw [length_append, hulen', hblen'])).2
      exact (append_right_inj _).mp htail.symm
    rw [← hafter]
    exact haend
  · rintro ⟨hcount, hstart, hend⟩ j line hline
    obtain ⟨u, v, htext, hulen, hucount, hustart, hv⟩ := splitOn_getElem hline
    refine ⟨before ++ u, v ++ after, ?_, ?_, ?_, ?_, ?_⟩
    · conv_lhs => rw [htext]
      simp only [append_assoc]
    · rw [length_append, hulen]
    · rw [count_append, hcount, hucount]
      omega
    · by_cases hu : u = []
      · rw [hu, append_nil]
        exact hstart
      · exact atLineStart_append hustart hu
    · rcases hv with ⟨rfl, -⟩ | ⟨hv, -⟩
      · exact hend
      · refine .inr ?_
        rw [head?_append, hv]
        rfl

theorem Stands.getElem {text : List Char} {position number : Nat}
    (h : Stands text position number line) (hline : '\n' ∉ line) :
    1 ≤ number ∧ (text.splitOn '\n')[number - 1]? = some line := by
  obtain ⟨before, after, rfl, -, rfl, hstart, hend⟩ := h
  have hfirst : (line ++ after).splitOn '\n' = line :: (if after = [] then [] else
      (after.drop 1).splitOn '\n') := by
    rcases hend with rfl | hend
    · rw [append_nil, splitOn_eq_singleton hline, if_pos rfl]
    · obtain ⟨rest, rfl⟩ : ∃ rest, after = '\n' :: rest := by
        cases after with
        | nil => cases hend
        | cons c rest =>
          cases hend
          exact ⟨rest, rfl⟩
      rw [splitOn_append_cons_self, splitOn_eq_singleton hline, if_neg (by nofun)]
      rfl
  refine ⟨Nat.le_add_left 1 _, ?_⟩
  rw [Nat.add_sub_cancel]
  rcases hstart with rfl | hstart
  · rw [nil_append, hfirst]
    rfl
  · obtain ⟨u, rfl⟩ : ∃ u, before = u ++ ['\n'] :=
      ⟨before.dropLast, (dropLast_append_getLast? '\n' hstart).symm⟩
    rw [append_assoc, singleton_append, splitOn_append_cons_self, hfirst]
    have hlen : (u.splitOn '\n').length = u.count '\n' + 1 := length_splitOn u
    rw [count_append, count_singleton_self, ← hlen, getElem?_append_right (Nat.le_refl _),
      Nat.sub_self]
    rfl

/-! ### The pieces of `splitlines` -/

theorem flatten_linesFrom (cs : List Char) :
    ∀ line, ((linesFrom line cs).map fun l => l.1 ++ l.2).flatten = line ++ cs := by
  intro line
  fun_induction linesFrom line cs with
  | case1 line hnil => simpa using hnil
  | case2 line hne => simp
  | case3 line cs ih | case4 line c cs _ _ ih =>
    rw [map_cons, flatten_cons, ih, nil_append, append_assoc]
    rfl
  | case5 line c cs _ _ ih => rw [ih, append_assoc]; rfl

theorem flatten_splitlinesKeepends (cs : List Char) : (splitlinesKeepends cs).flatten = cs :=
  flatten_linesFrom cs []

/-- A piece that ends where a line ends by its line feeds, once endings are normalised. -/
def endsLine (piece : List Char) : Bool :=
  piece.getLast? = some '\n' || piece.getLast? = some '\r'

theorem replaceCrlf_append {a b : List Char}
    (h : ¬ (a.getLast? = some '\r' ∧ b.head? = some '\n')) :
    replaceCrlf (a ++ b) = replaceCrlf a ++ replaceCrlf b := by
  fun_induction replaceCrlf a with
  | case1 => rfl
  | case2 a ih =>
    rw [cons_append, cons_append, replaceCrlf, cons_append, ih]
    rintro ⟨hlast, hhead⟩
    refine h ⟨?_, hhead⟩
    have hne : a ≠ [] := by
      rintro rfl
      cases hlast
    rw [getLast?_cons_cons, getLast?_cons, hlast]
    rfl
  | case3 c a hcr ih =>
    have hcr' : ∀ rest, c = '\r' → a ++ b = '\n' :: rest → False := by
      rintro rest rfl hrest
      cases a with
      | nil => exact h ⟨rfl, by rw [show b = '\n' :: rest from hrest]; rfl⟩
      | cons d a =>
        rw [cons_append, List.cons.injEq] at hrest
        exact hcr a rfl (by rw [hrest.1])
    rw [cons_append, replaceCrlf.eq_3 _ _ hcr', cons_append]
    rw [ih]
    rintro ⟨hlast, hhead⟩
    refine h ⟨?_, hhead⟩
    rw [getLast?_cons, hlast]
    rfl

theorem normalizeNewlines_append {a b : List Char}
    (h : ¬ (a.getLast? = some '\r' ∧ b.head? = some '\n')) :
    normalizeNewlines (a ++ b) = normalizeNewlines a ++ normalizeNewlines b := by
  rw [normalizeNewlines, replaceCrlf_append h, map_append]
  rfl

theorem normalizeNewlines_head (c : Char) (cs : List Char) :
    (normalizeNewlines (c :: cs)).head? = some (if c = '\r' then '\n' else c) := by
  by_cases hcr : ∃ rest, c = '\r' ∧ cs = '\n' :: rest
  · obtain ⟨rest, rfl, rfl⟩ := hcr
    rfl
  · unfold normalizeNewlines
    rw [replaceCrlf.eq_3 _ _ fun rest hc hcs => hcr ⟨rest, hc, hcs⟩]
    rfl

/-- What a line that `splitlines` found is made of. -/
structure PieceOk (l : List Char × List Char) : Prop where
  line : ∀ c ∈ l.1, isLineBreak c = false
  ending : l.2 = [] ∨ l.2 = ['\r', '\n'] ∨ ∃ c, isLineBreak c = true ∧ l.2 = [c]
  nonempty : l.1 ++ l.2 ≠ []

theorem linesFrom_ok (cs : List Char) : ∀ line : List Char, (∀ c ∈ line, isLineBreak c = false) →
    ∀ l ∈ linesFrom line cs, PieceOk l := by
  intro line
  fun_induction linesFrom line cs with
  | case1 line hnil =>
    intro _ l hl
    cases hl
  | case2 line hne =>
    intro hline l hl
    rw [mem_singleton.mp hl]
    exact ⟨hline, .inl rfl, by simpa using hne⟩
  | case3 line cs ih =>
    intro hline l hl
    rcases mem_cons.mp hl with rfl | hl
    · exact ⟨hline, .inr (.inl rfl), by simp⟩
    · exact ih (fun c hc => absurd hc not_mem_nil) l hl
  | case4 line c cs hcr hbreak ih =>
    intro hline l hl
    rcases mem_cons.mp hl with rfl | hl
    · exact ⟨hline, .inr (.inr ⟨c, hbreak, rfl⟩), by simp⟩
    · exact ih (fun c hc => absurd hc not_mem_nil) l hl
  | case5 line c cs hcr hbreak ih =>
    intro hline
    refine ih fun d hd => ?_
    rcases mem_append.mp hd with hd | hd
    · exact hline d hd
    · rw [mem_singleton.mp hd]
      exact Bool.not_eq_true _ ▸ hbreak

/-- No two characters of one line ending are in different pieces. -/
def Apart (a b : List Char) : Prop := ¬ (a.getLast? = some '\r' ∧ b.head? = some '\n')

theorem linesFrom_head (cs : List Char) : ∀ line : List Char,
    (((linesFrom line cs).map fun l => l.1 ++ l.2).head?.bind List.head?) = (line ++ cs).head? := by
  intro line
  fun_induction linesFrom line cs with
  | case1 line hnil => simp [List.isEmpty_iff.mp hnil]
  | case2 line hne => simp
  | case3 line cs ih | case4 line c cs hcr hbreak ih => simp [head?_append]
  | case5 line c cs hcr hbreak ih => rw [ih]; simp

theorem isChain_linesFrom (cs : List Char) : ∀ line : List Char,
    (((linesFrom line cs).map fun l => l.1 ++ l.2)).IsChain Apart := by
  intro line
  have hcons : ∀ (piece cs : List Char), (piece.getLast? = some '\r' → cs.head? ≠ some '\n') →
      ((linesFrom [] cs).map fun l => l.1 ++ l.2).IsChain Apart →
      (piece :: (linesFrom [] cs).map fun l => l.1 ++ l.2).IsChain Apart := by
    intro piece cs hpiece hchain
    have hhead := linesFrom_head cs []
    cases hpieces : (linesFrom [] cs).map fun l => l.1 ++ l.2 with
    | nil => exact .singleton _
    | cons next rest =>
      rw [hpieces] at hchain hhead
      refine .cons_cons (fun hboth => hpiece hboth.1 ?_) hchain
      rw [← hboth.2]
      exact hhead.symm
  fun_induction linesFrom line cs with
  | case1 line hnil => exact .nil
  | case2 line hne => exact .singleton _
  | case3 line cs ih =>
    refine hcons _ _ (fun hlast => ?_) ih
    simp at hlast
  | case4 line c cs hcr hbreak ih =>
    refine hcons _ _ (fun hlast hhead => ?_) ih
    have hc : c = '\r' := by simpa using hlast
    cases cs with
    | nil => cases hhead
    | cons d cs =>
      cases hhead
      exact hcr cs hc rfl
  | case5 line c cs hcr hbreak ih => exact ih

theorem normalizeNewlines_flatten (h : pieces.IsChain Apart) (hne : ∀ piece ∈ pieces, piece ≠ []) :
    normalizeNewlines pieces.flatten = (pieces.map normalizeNewlines).flatten := by
  induction pieces with
  | nil => rfl
  | cons piece pieces ih =>
    have ih := ih (h.drop 1) fun p hp => hne p (mem_cons_of_mem _ hp)
    rw [flatten_cons, map_cons, flatten_cons, ← ih]
    refine normalizeNewlines_append fun hboth => ?_
    cases pieces with
    | nil => cases hboth.2
    | cons next rest =>
      have hnext := hne next (mem_cons_of_mem _ mem_cons_self)
      rw [flatten_cons, head?_append_of_ne_nil _ hnext] at hboth
      exact (isChain_cons_cons.mp h).1 hboth

/-- A text that has a line feed nowhere but at its end. -/
structure Lone (q : List Char) : Prop where
  nonempty : q ≠ []
  inner : '\n' ∉ q.dropLast

theorem Lone.count {q : List Char} (h : Lone q) :
    q.count '\n' = if q.getLast? = some '\n' then 1 else 0 := by
  obtain ⟨last, hlast⟩ : ∃ last, q = q.dropLast ++ [last] :=
    ⟨_, (dropLast_concat_getLast h.nonempty).symm⟩
  have hinner := count_eq_zero_of_not_mem h.inner
  rw [hlast, getLast?_concat, count_append, hinner, Nat.zero_add, count_singleton]
  simp

theorem Lone.eq_of_head {q : List Char} (h : Lone q) (hhead : q.head? = some '\n') : q = ['\n'] := by
  cases q with
  | nil => cases hhead
  | cons c q =>
    cases hhead
    cases q with
    | nil => rfl
    | cons d q => exact absurd mem_cons_self h.inner

theorem PieceOk.normalize {l : List Char × List Char} (h : PieceOk l) :
    Lone (normalizeNewlines (l.1 ++ l.2)) ∧
      ((normalizeNewlines (l.1 ++ l.2)).getLast? = some '\n' ↔ endsLine (l.1 ++ l.2) = true) := by
  have hlast : l.1.getLast? ≠ some '\r' := by
    intro hl
    exact absurd (h.line '\r' (mem_of_getLast? hl)) (by decide)
  have hclean : '\n' ∉ l.1 := fun hmem => absurd (h.line '\n' hmem) (by decide)
  have hself : normalizeNewlines l.1 = l.1 :=
    normalizeNewlines_eq_self fun hmem => absurd (h.line '\r' hmem) (by decide)
  rw [normalizeNewlines_append fun hboth => hlast hboth.1, hself]
  rcases h.ending with he | he | ⟨c, hc, he⟩
  · have hne : l.1 ≠ [] := by
      intro hnil
      exact h.nonempty (by rw [hnil, he]; rfl)
    have hlastn : l.1.getLast? ≠ some '\n' := fun hl => hclean (mem_of_getLast? hl)
    rw [he, show normalizeNewlines [] = [] from rfl, append_nil]
    refine ⟨⟨hne, fun hmem => hclean (dropLast_subset _ hmem)⟩, ?_⟩
    simp [endsLine, hlast, hlastn]
  · rw [he, show normalizeNewlines ['\r', '\n'] = ['\n'] from rfl]
    refine ⟨⟨by simp, by simpa using hclean⟩, ?_⟩
    simp [endsLine, getLast?_append]
  · have hone : normalizeNewlines [c] = [if c = '\r' then '\n' else c] := by
      unfold normalizeNewlines
      rw [replaceCrlf.eq_3 _ _ fun _ _ hcs => by cases hcs]
      rfl
    rw [he, hone]
    refine ⟨⟨by simp, by simpa using hclean⟩, ?_⟩
    by_cases hr : c = '\r'
    · simp [endsLine, hr]
    · simp [endsLine, hr]

/-- So many pieces end so many lines exactly when each ends one. -/
theorem count_pieces (h : ∀ q ∈ pieces, Lone q) :
    (pieces.flatten.count '\n' = pieces.length ∧ AtLineStart pieces.flatten) ↔
      ∀ q ∈ pieces, q.getLast? = some '\n' := by
  have hle : ∀ l : List (List Char), (∀ q ∈ l, Lone q) → l.flatten.count '\n' ≤ l.length := by
    intro l hl
    induction l with
    | nil => exact Nat.le_refl 0
    | cons q l ih =>
      have hq := (hl q mem_cons_self).count
      have ih := ih fun r hr => hl r (mem_cons_of_mem _ hr)
      rw [flatten_cons, count_append, length_cons, hq]
      split
      · omega
      · omega
  constructor
  · rintro ⟨hcount, -⟩
    induction pieces with
    | nil => exact fun q hq => absurd hq not_mem_nil
    | cons q pieces ih =>
      have hq := (h q mem_cons_self).count
      have hrest := hle pieces fun r hr => h r (mem_cons_of_mem _ hr)
      rw [flatten_cons, count_append, length_cons, hq] at hcount
      split at hcount
      · next hlast =>
        refine forall_mem_cons.mpr ⟨hlast, ih (fun r hr => h r (mem_cons_of_mem _ hr)) ?_⟩
        omega
      · omega
  · intro hall
    induction pieces with
    | nil => exact ⟨rfl, .inl rfl⟩
    | cons q pieces ih =>
      obtain ⟨hq, hpieces⟩ := forall_mem_cons.mp hall
      obtain ⟨hcount, hstart⟩ := ih (fun r hr => h r (mem_cons_of_mem _ hr)) hpieces
      rw [flatten_cons, count_append, length_cons, hcount, (h q mem_cons_self).count, if_pos hq]
      refine ⟨Nat.add_comm 1 _, ?_⟩
      by_cases hne : pieces.flatten = []
      · rw [hne, append_nil]
        exact .inr hq
      · exact atLineStart_append hstart hne

/-! ### Without carriage returns -/

theorem not_mem_normalizeNewlines (cs : List Char) : '\r' ∉ normalizeNewlines cs := by
  rw [normalizeNewlines]
  intro h
  obtain ⟨c, -, hc⟩ := mem_map.mp h
  split at hc
  · cases hc
  · next hne => exact hne hc

theorem mem_of_mem_splitlines (h : line ∈ splitlines cs) {c : Char} (hc : c ∈ line) : c ∈ cs := by
  obtain ⟨l, hl, rfl⟩ := mem_map.mp h
  rw [← flatten_splitlinesKeepends cs]
  exact mem_flatten_of_mem (mem_map.mpr ⟨l, hl, rfl⟩) (mem_append_left _ hc)

theorem countCrlf_eq_zero (h : '\r' ∉ cs) : countCrlf cs = 0 := by
  fun_induction countCrlf cs with
  | case1 => rfl
  | case2 cs ih => exact absurd mem_cons_self h
  | case3 c cs hne ih => exact ih fun hmem => h (mem_cons_of_mem _ hmem)

theorem dominantEnding_eq_lf (h : '\r' ∉ cs) : dominantEnding cs = ['\n'] := by
  rw [dominantEnding, countCrlf_eq_zero h, count_eq_zero_of_not_mem h]
  rfl

end KolegaCode.Text
