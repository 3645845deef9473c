import Mathlib.Data.List.Basic
import Mathlib.Data.List.Range
import Mathlib.Data.List.Nodup
import Mathlib.Data.List.Perm.Subperm
import Mathlib.Tactic.Ring

/-!
# Lib — line patches

A *patch* replaces a range of lines, or puts a block of lines after a line, before a line or at
the end of a list.  Two meanings of a list of patches:

* `runAll`: the patches one after the other, each a `splice` at the line numbers it was written
  with, whatever the patches before it did to the list;
* `layout`: all of them at once, against the list as it was.  A range is its new content, and a
  block stands directly beside the line it names, or beside the new content of the range that
  line is in.

In a `Script` the patches go from the last line to the first, and no two ranges meet.  Then the two
agree when every block anchored at a line of a range is `Aligned`: spliced at the line's old number,
it points beside the new content only when the lengths fit.
-/

namespace KolegaCode

open List

variable {α β : Type}

/-! ### Splices -/

/-- `xs[i:j] = c`: a slice with an end before its start is empty at its start, and ends past the
list are cut to its length. -/
def splice (xs : List α) (i j : Nat) (c : List α) : List α := xs.take i ++ c ++ xs.drop (max i j)

theorem splice_map (f : α → β) (xs : List α) (i j : Nat) (c : List α) :
    (splice xs i j c).map f = splice (xs.map f) i j (c.map f) := by
  simp [splice, map_take, map_drop]

theorem splice_append (xs ys zs c : List α) :
    splice (xs ++ ys ++ zs) xs.length (xs.length + ys.length) c = xs ++ c ++ zs := by
  rw [splice, Nat.max_eq_right (Nat.le_add_right _ _), append_assoc xs ys zs,
    List.take_left, ← append_assoc xs ys zs, ← length_append, drop_left]

theorem splice_min (xs c : List α) (i : Nat) :
    splice xs i i c = splice xs (min i xs.length) (min i xs.length) c := by
  rw [splice, splice, Nat.max_self, Nat.max_self]
  rcases Nat.le_total i xs.length with h | h
  · rw [Nat.min_eq_left h]
  · rw [Nat.min_eq_right h, take_of_length_le h, drop_eq_nil_of_le h]
    simp

variable {xs : List α}

theorem take_splice {i j m : Nat} {c : List α} (hm : m ≤ i) (hx : m ≤ xs.length) :
    (splice xs i j c).take m = xs.take m := by
  rw [splice, append_assoc, take_append_of_le_length]
  · rw [take_take, Nat.min_eq_left hm]
  · rw [length_take]
    exact le_min hm hx

/-- A splice forgets nothing that a filter keeps when it removes and adds only what the filter
drops. -/
theorem filter_splice {p : α → Bool} {i j : Nat} {c : List α} (hc : ∀ x ∈ c, p x = false)
    (hx : ∀ x ∈ (xs.take (max i j)).drop i, p x = false) :
    (splice xs i j c).filter p = xs.filter p := by
  have hsplit : xs = xs.take i ++ (xs.take (max i j)).drop i ++ xs.drop (max i j) := by
    have h : xs.take i = (xs.take (max i j)).take i := by
      rw [take_take, Nat.min_eq_left (Nat.le_max_left i j)]
    rw [h, take_append_drop, take_append_drop]
  have hc' : c.filter p = [] := filter_eq_nil_iff.mpr (by simpa using hc)
  have hx' : ((xs.take (max i j)).drop i).filter p = [] :=
    filter_eq_nil_iff.mpr (by simpa using hx)
  conv_rhs => rw [hsplit]
  rw [splice, filter_append, filter_append, filter_append, filter_append, hc', hx']

theorem filter_append_of_dropped {p : α → Bool} {c : List α} (hc : ∀ x ∈ c, p x = false) :
    (xs ++ c).filter p = xs.filter p := by
  have hc' : c.filter p = [] := filter_eq_nil_iff.mpr (by simpa using hc)
  rw [filter_append, hc', append_nil]

theorem splice_subperm (xs : List α) (i j : Nat) (c : List α) :
    (splice xs i j c).Subperm (xs ++ c) := by
  have h : (xs.take i ++ xs.drop (max i j)).Sublist xs := by
    conv_rhs => rw [← take_append_drop i xs]
    exact List.Sublist.append (List.Sublist.refl _)
      (drop_sublist_drop_left xs (Nat.le_max_left i j))
  have hp : (splice xs i j c).Perm (xs.take i ++ xs.drop (max i j) ++ c) := by
    rw [splice, append_assoc, append_assoc]
    exact perm_append_comm.append_left _
  exact hp.subperm.trans ((subperm_append_right c).mpr h.subperm)

/-! ### Patches -/

/-- A patch of a list of lines, numbered from one. -/
inductive Patch (α : Type) where
  | range (first last : Nat) (content : List α)
  | after (line : Nat) (content : List α)
  | before (line : Nat) (content : List α)
  | atEnd (content : List α)
deriving Repr, DecidableEq

namespace Patch

/-- The lines a patch adds. -/
def content : Patch α → List α
  | range _ _ c | after _ c | before _ c | atEnd c => c

/-- One patch, at the line numbers it was written with. -/
def run (xs : List α) : Patch α → List α
  | range first last c => splice xs (first - 1) last c
  | after line c => splice xs line line c
  | before line c => splice xs (line - 1) (line - 1) c
  | atEnd c => xs ++ c

/-- The patches one after the other. -/
def runAll (xs : List α) (ps : List (Patch α)) : List α := ps.foldl run xs

@[simp] theorem runAll_nil (xs : List α) : runAll xs [] = xs := rfl

@[simp] theorem runAll_cons (xs : List α) (p : Patch α) (ps : List (Patch α)) :
    runAll xs (p :: ps) = runAll (p.run xs) ps := rfl

/-- `k` is a line of the range the patch replaces. -/
def covers (k : Nat) : Patch α → Bool
  | range first last _ => first ≤ k && k ≤ last
  | _ => false

/-- The line a patch is ranked by, in a list of `n` lines. -/
def line (n : Nat) : Patch α → Nat
  | range _ last _ => last
  | after k _ | before k _ => k
  | atEnd _ => n + 1

/-- The rank of a patch among those with the same line. -/
def kind : Patch α → Nat
  | range .. => 0
  | after .. | atEnd _ => 1
  | before .. => 2

/-- `p` is executed before `q`: from the last line to the first, ranges first. -/
def Precedes (n : Nat) (p q : Patch α) : Prop :=
  q.line n < p.line n ∨ q.line n = p.line n ∧ p.kind ≤ q.kind

/-- No line is in both ranges. -/
def Apart (p q : Patch α) : Prop := ∀ k, p.covers k = true → q.covers k = false

/-- The lines a patch names exist. -/
def Fits (n : Nat) : Patch α → Prop
  | range first last _ => 1 ≤ first ∧ first ≤ last ∧ last ≤ n
  | after k _ | before k _ => 1 ≤ k ∧ k ≤ n
  | atEnd _ => True

/-- A patch that touches nothing in front of line `a`. -/
def From (a : Nat) : Patch α → Prop
  | range first _ _ => a ≤ first
  | after k _ | before k _ => a ≤ k
  | atEnd _ => True

/-! ### All patches at once -/

/-- The line beside which a block anchored at `k` stands: the first line of the range `k` is in,
or `k`. -/
def home (ps : List (Patch α)) (k : Nat) : Nat :=
  match ps.find? (covers k) with
  | some (range first _ _) => first
  | _ => k

/-- What stands in the place of line `k`: the new content where a range starts, nothing inside a
range, and otherwise the line. -/
def core (lines : List α) (ps : List (Patch α)) (k : Nat) : List α :=
  match ps.find? (covers k) with
  | some (range first _ c) => if first = k then c else []
  | _ => lines[k - 1]?.toList

/-- The block a patch puts before line `i`, when the home of a line is given by `h`. -/
def blockBefore (h : Nat → Nat) (i : Nat) : Patch α → List α
  | before k c => if h k = i then c else []
  | _ => []

/-- The block a patch puts after line `i`. -/
def blockAfter (h : Nat → Nat) (i : Nat) : Patch α → List α
  | after k c => if h k = i then c else []
  | _ => []

/-- The block a patch puts at the end. -/
def blockEnd : Patch α → List α
  | atEnd c => c
  | _ => []

/-- The blocks before line `i`: of two blocks the one ranked later stands in front. -/
def befores (ps : List (Patch α)) (i : Nat) : List α :=
  ps.reverse.flatMap (blockBefore (home ps) i)

/-- The blocks after line `i`: of two blocks the one ranked later stands in front. -/
def afters (ps : List (Patch α)) (i : Nat) : List α :=
  ps.reverse.flatMap (blockAfter (home ps) i)

/-- Line `i` with the blocks beside it. -/
def segment (lines : List α) (ps : List (Patch α)) (i : Nat) : List α :=
  befores ps i ++ core lines ps i ++ afters ps i

/-- **The simultaneous application** of the patches to `lines`. -/
def layout (lines : List α) (ps : List (Patch α)) : List α :=
  (List.range' 1 lines.length).flatMap (segment lines ps) ++ ps.flatMap blockEnd

/-! ### The patches ranked before a patch -/

/-- What the patches of a list satisfy in a list of `n` lines: the lines they name exist, they are
ranked, and no two ranges meet. -/
structure Script (n : Nat) (ps : List (Patch α)) : Prop where
  fits : ∀ p ∈ ps, p.Fits n
  ranked : ps.Pairwise (Precedes n)
  apart : ps.Pairwise Apart

namespace Script

variable {n : Nat} {ps qs : List (Patch α)} {p : Patch α}

theorem left (h : Script n (ps ++ qs)) : Script n ps :=
  ⟨fun p hp => h.fits p (mem_append_left _ hp), (pairwise_append.mp h.ranked).1,
    (pairwise_append.mp h.apart).1⟩

theorem precedes (h : Script n (ps ++ [p])) {q : Patch α} (hq : q ∈ ps) : Precedes n q p :=
  (pairwise_append.mp h.ranked).2.2 q hq p (by simp)

theorem apart_last (h : Script n (ps ++ [p])) {q : Patch α} (hq : q ∈ ps) : Apart q p :=
  (pairwise_append.mp h.apart).2.2 q hq p (by simp)

theorem fits_last (h : Script n (ps ++ [p])) : p.Fits n := h.fits p (by simp)

/-- The patches ranked before a range touch only lines behind it. -/
theorem from_range {a b : Nat} {c : List α} (h : Script n (ps ++ [range a b c])) :
    ∀ q ∈ ps, q.From (b + 1) := by
  intro q hq
  have hr := h.precedes hq
  have ha := h.apart_last hq b
  obtain ⟨-, hab, -⟩ := h.fits_last
  cases q with
  | range a' b' c' =>
    have hf := h.fits _ (mem_append_left _ hq)
    simp only [Fits] at hf
    simp only [covers, Bool.and_eq_true, decide_eq_true_eq, Bool.and_eq_false_iff,
      decide_eq_false_iff_not] at ha
    simp only [Precedes, line, kind] at hr
    simp only [From]
    omega
  | after k c' | before k c' =>
    simp only [Precedes, line, kind] at hr
    simp only [From]
    omega
  | atEnd c' => trivial

end Script

theorem home_cases (ps : List (Patch α)) (k : Nat) :
    (∃ a b c, range a b c ∈ ps ∧ a ≤ k ∧ k ≤ b ∧ home ps k = a) ∨
      (∀ p ∈ ps, p.covers k = false) ∧ home ps k = k := by
  cases hf : ps.find? (covers k) with
  | none =>
    right
    exact ⟨fun p hp => by simpa using find?_eq_none.mp hf p hp, by rw [home, hf]⟩
  | some p =>
    left
    have hc := find?_some hf
    have hm := mem_of_find?_eq_some hf
    cases p with
    | range a b c =>
      simp only [covers, Bool.and_eq_true, decide_eq_true_eq] at hc
      exact ⟨a, b, c, hm, hc.1, hc.2, by rw [home, hf]⟩
    | after k' c => cases hc
    | before k' c => cases hc
    | atEnd c => cases hc

variable {q : Patch α} {k j : Nat} {xs : List α}

theorem Apart.symm {p : Patch α} (h : Apart p q) : Apart q p := by
  intro k hk
  cases hp : p.covers k with
  | false => rfl
  | true => rw [h k hp] at hk; cases hk

instance : Std.Symm (Apart : Patch α → Patch α → Prop) := ⟨fun _ _ => Apart.symm⟩

/-- The patches ranked before a block touch only lines from the block's home on. -/
theorem Script.from_home {n : Nat} {ps : List (Patch α)} {p : Patch α} (h : Script n (ps ++ [p]))
    (hl : p.line n = k) : ∀ q ∈ ps, q.From (home ps k) := by
  intro q hq
  have hr := h.precedes hq
  rw [Precedes, hl] at hr
  rcases home_cases ps k with ⟨a, b, c, hm, hak, hkb, he⟩ | ⟨hn, he⟩
  · rw [he]
    cases q with
    | range a' b' c' =>
      by_cases hee : range a' b' c' = range a b c
      · cases hee
        exact le_refl a
      · -- two ranges that end behind `k`, and `k` is in the other one
        have hab := h.left.apart.forall hq hm hee a'
        have ha := h.left.apart.forall hq hm hee a
        have hf := h.fits _ (mem_append_left _ hq)
        simp only [covers, Bool.and_eq_true, decide_eq_true_eq, Bool.and_eq_false_iff,
          decide_eq_false_iff_not] at ha hab
        simp only [line, kind] at hr
        simp only [Fits] at hf
        simp only [From]
        omega
    | after k' c' | before k' c' =>
      simp only [line] at hr
      simp only [From]
      omega
    | atEnd c' => trivial
  · rw [he]
    have hc := hn q hq
    cases q with
    | range a' b' c' =>
      simp only [covers, Bool.and_eq_false_iff, decide_eq_false_iff_not] at hc
      simp only [line] at hr
      simp only [From]
      omega
    | after k' c' | before k' c' =>
      simp only [line] at hr
      simp only [From]
      omega
    | atEnd c' => trivial

theorem home_le (ps : List (Patch α)) (k : Nat) : home ps k ≤ k := by
  rcases home_cases ps k with ⟨a, b, c, -, hak, -, he⟩ | ⟨-, he⟩
  · rw [he]
    exact hak
  · exact le_of_eq he

theorem From.not_covers {a : Nat} {p : Patch α} (h : p.From a) (hj : j < a) :
    p.covers j = false := by
  cases p with
  | range a' b' c' =>
    simp only [From] at h
    simp only [covers, Bool.and_eq_false_iff, decide_eq_false_iff_not]
    omega
  | after k c => rfl
  | before k c => rfl
  | atEnd c => rfl

theorem le_home {a : Nat} {ps : List (Patch α)} (h : ∀ q ∈ ps, q.From a) (hk : a ≤ k) :
    a ≤ home ps k := by
  rcases home_cases ps k with ⟨a', b, c, hm, -, -, he⟩ | ⟨-, he⟩
  · rw [he]
    exact h _ hm
  · rw [he]
    exact hk

/-! ### The layout in front of and behind a patch -/

theorem blockBefore_of_lt {h : Nat → Nat} {a : Nat} {p : Patch α} (hp : p.From a)
    (hh : ∀ k, a ≤ k → a ≤ h k) (hj : j < a) : blockBefore h j p = [] := by
  cases p with
  | before k c =>
    have hk := hh k hp
    rw [blockBefore, if_neg (by omega)]
  | range a b c => rfl
  | after k c => rfl
  | atEnd c => rfl

theorem blockAfter_of_lt {h : Nat → Nat} {a : Nat} {p : Patch α} (hp : p.From a)
    (hh : ∀ k, a ≤ k → a ≤ h k) (hj : j < a) : blockAfter h j p = [] := by
  cases p with
  | after k c =>
    have hk := hh k hp
    rw [blockAfter, if_neg (by omega)]
  | range a b c => rfl
  | before k c => rfl
  | atEnd c => rfl

theorem core_of_forall_not_covers {lines : List α} {ps : List (Patch α)}
    (h : ∀ p ∈ ps, p.covers k = false) : core lines ps k = lines[k - 1]?.toList := by
  rw [core, find?_eq_none.mpr (by simpa using h)]

/-- Lines in front of all patches are as they were. -/
theorem segment_of_lt {lines : List α} {ps : List (Patch α)} {a : Nat} (h : ∀ q ∈ ps, q.From a)
    (hj : j < a) : segment lines ps j = lines[j - 1]?.toList := by
  have hb : befores ps j = [] := by
    rw [befores, flatMap_eq_nil_iff]
    intro q hq
    exact blockBefore_of_lt (h q (mem_reverse.mp hq)) (fun k => le_home h) hj
  have ha : afters ps j = [] := by
    rw [afters, flatMap_eq_nil_iff]
    intro q hq
    exact blockAfter_of_lt (h q (mem_reverse.mp hq)) (fun k => le_home h) hj
  rw [segment, hb, ha, core_of_forall_not_covers fun q hq => (h q hq).not_covers hj]
  simp

theorem flatMap_getElem?_toList (lines : List α) (m : Nat) :
    (List.range' 1 m).flatMap (fun j => lines[j - 1]?.toList) = lines.take m := by
  induction m with
  | zero => rfl
  | succ m ih =>
    rw [range'_concat, flatMap_append, ih, take_add_one]
    simp

theorem flatMap_congr_range' {f g : Nat → List α} {a m : Nat}
    (h : ∀ j, a ≤ j → j < a + m → f j = g j) :
    (List.range' a m).flatMap f = (List.range' a m).flatMap g := by
  refine flatMap_congr fun j hj => ?_
  rw [mem_range'_1] at hj
  exact h j hj.1 hj.2

/-- The part of the layout in front of all patches. -/
theorem front_eq_take {lines : List α} {ps : List (Patch α)} {a : Nat} (h : ∀ q ∈ ps, q.From a) :
    (List.range' 1 (a - 1)).flatMap (segment lines ps) = lines.take (a - 1) := by
  rw [← flatMap_getElem?_toList]
  exact flatMap_congr_range' fun j _ hj => segment_of_lt h (by omega)

/-- The part of the layout from line `a` on. -/
def rest (lines : List α) (ps : List (Patch α)) (a : Nat) : List α :=
  (List.range' a (lines.length + 1 - a)).flatMap (segment lines ps) ++ ps.flatMap blockEnd

theorem layout_eq_take_append_rest {lines : List α} {ps : List (Patch α)} {a : Nat}
    (h : ∀ q ∈ ps, q.From a) (ha : 1 ≤ a) (hn : a ≤ lines.length + 1) :
    layout lines ps = lines.take (a - 1) ++ rest lines ps a := by
  have hr : List.range' 1 lines.length = List.range' 1 (a - 1) ++
      List.range' a (lines.length + 1 - a) := by
    have h1 := range'_append_1 (s := 1) (m := a - 1) (n := lines.length + 1 - a)
    rw [show 1 + (a - 1) = a by omega, show a - 1 + (lines.length + 1 - a) = lines.length by omega]
      at h1
    exact h1.symm
  rw [layout, rest, hr, flatMap_append, front_eq_take h, append_assoc]

theorem rest_succ {lines : List α} {ps : List (Patch α)} {a : Nat} (hn : a ≤ lines.length) :
    rest lines ps a = segment lines ps a ++ rest lines ps (a + 1) := by
  rw [rest, rest, show lines.length + 1 - a = lines.length + 1 - (a + 1) + 1 by omega,
    range'_succ, flatMap_cons, append_assoc]

/-! ### One more patch -/

theorem find?_concat_of_not_covers {ps : List (Patch α)} {p : Patch α} (h : p.covers k = false) :
    (ps ++ [p]).find? (covers k) = ps.find? (covers k) := by
  simp [find?_append, h]

theorem home_concat_of_not_covers {ps : List (Patch α)} {p : Patch α} (h : p.covers k = false) :
    home (ps ++ [p]) k = home ps k := by
  rw [home, home, find?_concat_of_not_covers h]

theorem core_concat_of_not_covers {lines : List α} {ps : List (Patch α)} {p : Patch α}
    (h : p.covers k = false) : core lines (ps ++ [p]) k = core lines ps k := by
  rw [core, core, find?_concat_of_not_covers h]

section ConcatRange

variable {lines : List α} {ps : List (Patch α)} {a b : Nat} {c : List α}

theorem range_not_covers_of_gt (hj : b < j) : (range a b c).covers j = false := by
  simp only [covers, Bool.and_eq_false_iff, decide_eq_false_iff_not]
  omega

theorem le_home_concat_range (hf : ∀ q ∈ ps, q.From (b + 1)) (k : Nat) (hk : b + 1 ≤ k) :
    b + 1 ≤ home (ps ++ [range a b c]) k := by
  rw [home_concat_of_not_covers (range_not_covers_of_gt hk)]
  exact le_home hf hk

/-- Behind a new range nothing changes. -/
theorem segment_concat_range_of_gt (hf : ∀ q ∈ ps, q.From (b + 1)) (hj : b < j) :
    segment lines (ps ++ [range a b c]) j = segment lines ps j := by
  have hh : ∀ k, b + 1 ≤ k → home (ps ++ [range a b c]) k = home ps k := fun k hk =>
    home_concat_of_not_covers (range_not_covers_of_gt hk)
  have hb : befores (ps ++ [range a b c]) j = befores ps j := by
    rw [befores, befores, reverse_concat, flatMap_cons]
    refine flatMap_congr fun q hq => ?_
    have hq' := hf q (mem_reverse.mp hq)
    cases q with
    | before k c' => rw [blockBefore, blockBefore, hh k hq']
    | range a' b' c' => rfl
    | after k c' => rfl
    | atEnd c' => rfl
  have ha : afters (ps ++ [range a b c]) j = afters ps j := by
    rw [afters, afters, reverse_concat, flatMap_cons]
    refine flatMap_congr fun q hq => ?_
    have hq' := hf q (mem_reverse.mp hq)
    cases q with
    | after k c' => rw [blockAfter, blockAfter, hh k hq']
    | range a' b' c' => rfl
    | before k c' => rfl
    | atEnd c' => rfl
  rw [segment, segment, hb, ha, core_concat_of_not_covers (range_not_covers_of_gt hj)]

/-- A line of a new range holds the new content or nothing. -/
theorem segment_concat_range_of_covers (hf : ∀ q ∈ ps, q.From (b + 1)) (haj : a ≤ j) (hjb : j ≤ b) :
    segment lines (ps ++ [range a b c]) j = if a = j then c else [] := by
  have hb : befores (ps ++ [range a b c]) j = [] := by
    rw [befores, reverse_concat, flatMap_cons]
    rw [append_eq_nil_iff, flatMap_eq_nil_iff]
    exact ⟨rfl, fun q hq => blockBefore_of_lt (hf q (mem_reverse.mp hq))
      (le_home_concat_range hf) (by omega)⟩
  have ha : afters (ps ++ [range a b c]) j = [] := by
    rw [afters, reverse_concat, flatMap_cons]
    rw [append_eq_nil_iff, flatMap_eq_nil_iff]
    exact ⟨rfl, fun q hq => blockAfter_of_lt (hf q (mem_reverse.mp hq))
      (le_home_concat_range hf) (by omega)⟩
  have hn : ps.find? (covers j) = none :=
    find?_eq_none.mpr fun q hq => by simp [(hf q hq).not_covers (show j < b + 1 by omega)]
  have hc : core lines (ps ++ [range a b c]) j = if a = j then c else [] := by
    rw [core, find?_append, hn]
    simp [covers, haj, hjb]
  rw [segment, hb, ha, hc]
  simp

/-- A range is a splice of the layout of the patches ranked before it. -/
theorem layout_concat_range (h : Script lines.length (ps ++ [range a b c])) :
    layout lines (ps ++ [range a b c]) = splice (layout lines ps) (a - 1) b c := by
  obtain ⟨ha, hab, hbn⟩ := h.fits_last
  have hf := h.from_range
  have hf' : ∀ q ∈ ps ++ [range a b c], q.From a := by
    intro q hq
    rcases mem_append.mp hq with hq | hq
    · have := hf q hq
      cases q <;> simp only [From] at this ⊢ <;> omega
    · rw [mem_singleton.mp hq]
      exact le_refl a
  have hmid : (List.range' a (b + 1 - a)).flatMap (segment lines (ps ++ [range a b c])) = c := by
    rw [show b + 1 - a = b - a + 1 by omega, range'_succ, flatMap_cons,
      segment_concat_range_of_covers hf (le_refl a) hab, if_pos rfl]
    have : (List.range' (a + 1) (b - a)).flatMap (segment lines (ps ++ [range a b c])) = [] := by
      rw [flatMap_eq_nil_iff]
      intro j hj
      rw [mem_range'_1] at hj
      rw [segment_concat_range_of_covers hf (by omega) (by omega), if_neg (by omega)]
    rw [this, append_nil]
  have hrest : rest lines (ps ++ [range a b c]) a = c ++ rest lines ps (b + 1) := by
    have hr := range'_append_1 (s := a) (m := b + 1 - a) (n := lines.length + 1 - (b + 1))
    rw [show a + (b + 1 - a) = b + 1 by omega,
      show b + 1 - a + (lines.length + 1 - (b + 1)) = lines.length + 1 - a by omega] at hr
    rw [rest, rest, ← hr, flatMap_append, hmid, flatMap_append,
      flatMap_congr_range' fun j hj _ => segment_concat_range_of_gt hf hj]
    simp [blockEnd]
  rw [layout_eq_take_append_rest hf' ha (by omega), hrest,
    layout_eq_take_append_rest hf (by omega) (by omega), Nat.add_sub_cancel]
  rw [splice, Nat.max_eq_right (by omega), take_append_of_le_length (by simp; omega),
    take_take, Nat.min_eq_left (by omega), append_assoc]
  congr 2
  rw [drop_append, drop_eq_nil_of_le (by simp), nil_append]
  simp [Nat.min_eq_left hbn]

end ConcatRange

section ConcatBlock

variable {lines : List α} {ps : List (Patch α)} {p : Patch α}

theorem segment_concat_block (hp : ∀ k, p.covers k = false) (j : Nat) :
    segment lines (ps ++ [p]) j =
      blockBefore (home ps) j p ++ befores ps j ++ core lines ps j ++
        (blockAfter (home ps) j p ++ afters ps j) := by
  have hh : home (ps ++ [p]) = home ps := funext fun k => home_concat_of_not_covers (hp k)
  rw [segment, befores, afters, hh, reverse_concat, flatMap_cons, flatMap_cons,
    core_concat_of_not_covers (hp j)]
  rfl

/-- Away from its home a block changes nothing. -/
theorem segment_concat_block_of_ne (hp : ∀ k, p.covers k = false)
    (hb : blockBefore (home ps) j p = []) (ha : blockAfter (home ps) j p = []) :
    segment lines (ps ++ [p]) j = segment lines ps j := by
  rw [segment_concat_block hp, hb, ha]
  rfl

theorem layout_concat_block {a : Nat} {x y c : List α} (hp : ∀ k, p.covers k = false)
    (he : p.blockEnd = []) (hf : ∀ q ∈ ps, q.From a) (hpa : p.From a) (ha : 1 ≤ a)
    (hn : a ≤ lines.length) (hb : ∀ j, j ≠ a → blockBefore (home ps) j p = [])
    (hb' : ∀ j, j ≠ a → blockAfter (home ps) j p = [])
    (hs : segment lines ps a = x ++ y) (hs' : segment lines (ps ++ [p]) a = x ++ c ++ y) :
    layout lines (ps ++ [p]) =
      splice (layout lines ps) (a - 1 + x.length) (a - 1 + x.length) c := by
  have hrest : rest lines (ps ++ [p]) (a + 1) = rest lines ps (a + 1) := by
    rw [rest, rest, flatMap_congr_range' fun j hj _ =>
      segment_concat_block_of_ne hp (hb j (by omega)) (hb' j (by omega))]
    simp [he]
  rw [layout_eq_take_append_rest
      (forall_mem_append.mpr ⟨hf, forall_mem_singleton.mpr hpa⟩) ha (by omega),
    layout_eq_take_append_rest hf ha (by omega), rest_succ hn, rest_succ hn, hs, hs', hrest]
  have hlen : (lines.take (a - 1) ++ x).length = a - 1 + x.length := by
    rw [length_append, length_take, Nat.min_eq_left (by omega)]
  have hsplice := splice_append (lines.take (a - 1) ++ x) [] (y ++ rest lines ps (a + 1)) c
  rw [hlen] at hsplice
  simp only [length_nil, Nat.add_zero, append_nil, append_assoc] at hsplice ⊢
  exact hsplice.symm

/-- The position of a block anchored at line `k`, directly after what stands for `k`. -/
def landing (lines : List α) (ps : List (Patch α)) (k : Nat) : Nat :=
  home ps k - 1 + (befores ps (home ps k)).length + (core lines ps (home ps k)).length

theorem one_le_home {n : Nat} (h : Script n ps) (hk : 1 ≤ k) : 1 ≤ home ps k := by
  rcases home_cases ps k with ⟨a, b, c, hm, -, -, he⟩ | ⟨-, he⟩
  · rw [he]
    exact (h.fits _ hm).1
  · rw [he]
    exact hk

theorem landing_le_length {p : Patch α} (h : Script lines.length (ps ++ [p]))
    (hp : p.line lines.length = k) (hk : 1 ≤ k) (hn : k ≤ lines.length) :
    landing lines ps k ≤ (layout lines ps).length := by
  have hle := home_le ps k
  rw [layout_eq_take_append_rest (h.from_home hp) (one_le_home h.left hk) (by omega),
    rest_succ (by omega), landing, segment]
  simp only [length_append, length_take]
  omega

/-- A block after a line is a splice at its landing. -/
theorem layout_concat_after {c : List α} (h : Script lines.length (ps ++ [after k c])) :
    layout lines (ps ++ [after k c]) =
      splice (layout lines ps) (landing lines ps k) (landing lines ps k) c := by
  obtain ⟨hk1, hkn⟩ := h.fits_last
  rw [landing, Nat.add_assoc, ← length_append]
  refine layout_concat_block (fun _ => rfl) rfl (h.from_home rfl) (home_le ps k)
    (one_le_home h.left hk1) ((home_le ps k).trans hkn) (fun _ _ => rfl)
    (fun j hj => by rw [blockAfter, if_neg (Ne.symm hj)]) rfl ?_
  rw [segment_concat_block fun _ => rfl]
  simp [blockBefore, blockAfter]

/-- A block before a line is a splice in front of the line's home. -/
theorem layout_concat_before {c : List α} (h : Script lines.length (ps ++ [before k c])) :
    layout lines (ps ++ [before k c]) =
      splice (layout lines ps) (home ps k - 1) (home ps k - 1) c := by
  obtain ⟨hk1, hkn⟩ := h.fits_last
  refine layout_concat_block (x := []) (fun _ => rfl) rfl (h.from_home rfl) (home_le ps k)
    (one_le_home h.left hk1) ((home_le ps k).trans hkn)
    (fun j hj => by rw [blockBefore, if_neg (Ne.symm hj)]) (fun _ _ => rfl) rfl ?_
  rw [segment_concat_block fun _ => rfl]
  simp [blockBefore, blockAfter]

theorem layout_concat_atEnd {c : List α} :
    layout lines (ps ++ [atEnd c]) = layout lines ps ++ c := by
  rw [layout, layout, flatMap_congr (g := segment lines ps) fun j _ =>
    segment_concat_block_of_ne (fun _ => rfl) rfl rfl]
  simp [blockEnd]

end ConcatBlock

/-! ### The patches one after the other -/

/-- The block of `p` is spliced where it belongs, in the layout of the patches `ps` ranked before
it.  A range and a block at the end always are. -/
def Aligned (lines : List α) (ps : List (Patch α)) : Patch α → Prop
  | after k _ => min k (layout lines ps).length = landing lines ps k
  | before k _ => min (k - 1) (layout lines ps).length = home ps k - 1
  | _ => True

instance (lines : List α) (ps : List (Patch α)) : (p : Patch α) → Decidable (Aligned lines ps p)
  | after k _ => inferInstanceAs (Decidable (min k (layout lines ps).length = landing lines ps k))
  | before k _ =>
    inferInstanceAs (Decidable (min (k - 1) (layout lines ps).length = home ps k - 1))
  | range .. | atEnd _ => isTrue trivial

/-- Every patch of `qs` is aligned, after the patches `ps`. -/
def AllAligned (lines : List α) (ps : List (Patch α)) : List (Patch α) → Prop
  | [] => True
  | p :: qs => Aligned lines ps p ∧ AllAligned lines (ps ++ [p]) qs

instance (lines : List α) : (ps qs : List (Patch α)) → Decidable (AllAligned lines ps qs)
  | _, [] => isTrue trivial
  | ps, p :: qs =>
    have := instDecidableAllAligned lines (ps ++ [p]) qs
    inferInstanceAs (Decidable (Aligned lines ps p ∧ AllAligned lines (ps ++ [p]) qs))

theorem run_layout {lines : List α} {ps : List (Patch α)} {p : Patch α}
    (h : Script lines.length (ps ++ [p])) (hp : Aligned lines ps p) :
    p.run (layout lines ps) = layout lines (ps ++ [p]) := by
  cases p with
  | range a b c => rw [layout_concat_range h, run]
  | after k c => rw [layout_concat_after h, run, splice_min, hp]
  | before k c => rw [layout_concat_before h, run, splice_min, hp]
  | atEnd c => rw [layout_concat_atEnd, run]

theorem runAll_layout {lines : List α} {qs : List (Patch α)} :
    ∀ {ps : List (Patch α)}, Script lines.length (ps ++ qs) → AllAligned lines ps qs →
      runAll (layout lines ps) qs = layout lines (ps ++ qs) := by
  induction qs with
  | nil =>
    intro ps _ _
    simp
  | cons p qs ih =>
    intro ps h ha
    rw [append_cons] at h ⊢
    rw [runAll_cons, run_layout h.left ha.1]
    exact ih h ha.2

theorem layout_nil (lines : List α) : layout lines [] = lines := by
  have h := flatMap_getElem?_toList lines lines.length
  have hs : segment lines ([] : List (Patch α)) = fun j => lines[j - 1]?.toList := by
    ext1 j
    simp [segment, befores, afters, core]
  rw [layout, hs, h, take_length]
  simp

/-- **The run is the layout** when every block is spliced where it belongs. -/
theorem runAll_eq_layout {lines : List α} {ps : List (Patch α)} (h : Script lines.length ps)
    (ha : AllAligned lines [] ps) : runAll lines ps = layout lines ps := by
  have hrun : runAll (layout lines []) ps = layout lines ([] ++ ps) := runAll_layout h ha
  rwa [layout_nil] at hrun

/-! ### Blocks spliced elsewhere -/

theorem Script.sublist {n : Nat} {ps qs : List (Patch α)} (h : Script n ps)
    (hs : qs.Sublist ps) : Script n qs :=
  ⟨fun p hp => h.fits p (hs.subset hp), h.ranked.sublist hs, h.apart.sublist hs⟩

theorem Script.from_mem {n a b : Nat} {ps qs : List (Patch α)} {c : List α}
    (h : Script n (ps ++ qs)) (hr : range a b c ∈ qs) : ∀ q ∈ ps, q.From (b + 1) :=
  from_range (h.sublist ((List.Sublist.refl ps).append (singleton_sublist.mpr hr)))

/-- The lines the ranges of `qs` remove. -/
def removed (lines : List α) (qs : List (Patch α)) : List α :=
  qs.flatMap fun
    | range a b _ => (lines.take b).drop (a - 1)
    | _ => []

theorem mem_removed {lines : List α} {qs : List (Patch α)} {x : α} :
    x ∈ removed lines qs ↔ ∃ a b c, range a b c ∈ qs ∧ x ∈ (lines.take b).drop (a - 1) := by
  rw [removed, mem_flatMap]
  constructor
  · intro h
    obtain ⟨q, hq, hx⟩ := h
    cases q with
    | range a b c => exact ⟨a, b, c, hq, hx⟩
    | after k c => cases hx
    | before k c => cases hx
    | atEnd c => cases hx
  · intro h
    obtain ⟨a, b, c, hq, hx⟩ := h
    exact ⟨_, hq, hx⟩

/-- The ranges of `qs` find the lines they replace in `xs`. -/
def Ready (lines : List α) (qs : List (Patch α)) (xs : List α) : Prop :=
  ∀ a b c, range a b c ∈ qs → xs.take b = lines.take b

theorem take_layout {lines : List α} {ps : List (Patch α)} {m : Nat}
    (h : ∀ q ∈ ps, q.From (m + 1)) (hm : m ≤ lines.length) :
    (layout lines ps).take m = lines.take m := by
  rw [layout_eq_take_append_rest h (by omega) (by omega), Nat.add_sub_cancel,
    take_append_of_le_length (by simpa using hm), take_take, Nat.min_self]

theorem ready_layout {lines : List α} {ps qs : List (Patch α)}
    (h : Script lines.length (ps ++ qs)) : Ready lines qs (layout lines ps) := by
  intro a b c hr
  exact take_layout (h.from_mem hr) (h.fits _ (mem_append_right _ hr)).2.2

theorem Ready.run {lines : List α} {qs : List (Patch α)} (hx : Ready lines (q :: qs) xs)
    (h : Script lines.length (q :: qs)) : Ready lines qs (q.run xs) := by
  intro a b c hr
  have hb := hx a b c (mem_cons_of_mem _ hr)
  have hbn : b ≤ lines.length := (h.fits _ (mem_cons_of_mem _ hr)).2.2
  have hlen : b ≤ xs.length := by
    have hl := congrArg List.length hb
    rw [length_take, length_take, Nat.min_eq_left hbn] at hl
    omega
  have hf : q.From (b + 1) := by
    have hs : Script lines.length ([q] ++ qs) := h
    exact hs.from_mem hr q (by simp)
  rw [← hb]
  cases q with
  | range a' b' c' | after k c' | before k c' =>
    simp only [From] at hf
    exact take_splice (by omega) hlen
  | atEnd c' => exact take_append_of_le_length hlen

section Filter

variable {lines : List α} {keep : α → Bool}

/-- A patch changes nothing that survives the filter, when its content and the lines it removes do
not. -/
theorem filter_run (hc : ∀ x ∈ q.content, keep x = false)
    (hr : ∀ x ∈ removed lines [q], keep x = false) (hx : Ready lines [q] xs)
    (hq : q.Fits lines.length) : (q.run xs).filter keep = xs.filter keep := by
  cases q with
  | range a b c =>
    obtain ⟨ha, hab, -⟩ := hq
    refine filter_splice hc fun x hx' => hr x ?_
    rw [Nat.max_eq_right (by omega), hx a b c (by simp)] at hx'
    exact mem_removed.mpr ⟨a, b, c, by simp, hx'⟩
  | after k c | before k c =>
    refine filter_splice hc ?_
    simp [drop_eq_nil_of_le]
  | atEnd c => exact filter_append_of_dropped hc

theorem filter_runAll {qs : List (Patch α)} :
    ∀ {xs : List α}, (∀ x ∈ qs.flatMap content, keep x = false) →
      (∀ x ∈ removed lines qs, keep x = false) → Script lines.length qs → Ready lines qs xs →
      (runAll xs qs).filter keep = xs.filter keep := by
  induction qs with
  | nil =>
    intro xs _ _ _ _
    rfl
  | cons q qs ih =>
    intro xs hc hr h hx
    rw [flatMap_cons, forall_mem_append] at hc
    have hr' : ∀ x ∈ removed lines [q] ++ removed lines qs, keep x = false := by
      simpa [removed] using hr
    rw [forall_mem_append] at hr'
    have hq : Ready lines [q] xs := fun a b c hm => hx a b c (by simp_all)
    rw [runAll_cons, ih hc.2 hr'.2 (h.sublist (sublist_cons_self q qs)) (hx.run h),
      filter_run hc.1 hr'.1 hq (h.fits q (by simp))]

/-- Later patches change nothing of the layout that survives the filter. -/
theorem filter_layout {qs : List (Patch α)} :
    ∀ {ps : List (Patch α)}, (∀ x ∈ qs.flatMap content, keep x = false) →
      (∀ x ∈ removed lines qs, keep x = false) → Script lines.length (ps ++ qs) →
      (layout lines (ps ++ qs)).filter keep = (layout lines ps).filter keep := by
  induction qs with
  | nil =>
    intro ps _ _ _
    simp
  | cons q qs ih =>
    intro ps hc hr h
    have hready := ready_layout h
    rw [flatMap_cons, forall_mem_append] at hc
    have hr' : ∀ x ∈ removed lines [q] ++ removed lines qs, keep x = false := by
      simpa [removed] using hr
    rw [forall_mem_append] at hr'
    rw [append_cons] at h ⊢
    rw [ih hc.2 hr'.2 h]
    have hnil : ∀ i, ∀ x ∈ ((layout lines ps).take (max i i)).drop i, keep x = false := by
      simp [drop_eq_nil_of_le]
    cases q with
    | range a b c =>
      have hready' : Ready lines [range a b c] (layout lines ps) :=
        fun a b c hm => hready a b c (by simp_all)
      rw [layout_concat_range h.left]
      exact filter_run hc.1 hr'.1 hready' h.left.fits_last
    | after k c =>
      rw [layout_concat_after h.left]
      exact filter_splice hc.1 (hnil _)
    | before k c =>
      rw [layout_concat_before h.left]
      exact filter_splice hc.1 (hnil _)
    | atEnd c =>
      rw [layout_concat_atEnd]
      exact filter_append_of_dropped hc.1

end Filter

/-- The layout holds lines and contents, none of them twice. -/
theorem layout_subperm {lines : List α} {qs : List (Patch α)} :
    ∀ {ps : List (Patch α)}, Script lines.length (ps ++ qs) →
      (layout lines (ps ++ qs)).Subperm (layout lines ps ++ qs.flatMap content) := by
  induction qs with
  | nil =>
    intro ps _
    simpa using List.Subperm.refl _
  | cons q qs ih =>
    intro ps h
    rw [append_cons] at h ⊢
    have hq : (layout lines (ps ++ [q])).Subperm (layout lines ps ++ q.content) := by
      cases q with
      | range a b c =>
        rw [layout_concat_range h.left]
        exact splice_subperm _ _ _ _
      | after k c =>
        rw [layout_concat_after h.left]
        exact splice_subperm _ _ _ _
      | before k c =>
        rw [layout_concat_before h.left]
        exact splice_subperm _ _ _ _
      | atEnd c =>
        rw [layout_concat_atEnd]
        exact List.Subperm.refl _
    rw [flatMap_cons, ← append_assoc]
    exact (ih h).trans ((subperm_append_right _).mpr hq)

/-- Two places for one block are the same place, seen through a filter that keeps the block, only
when the filter drops everything between them. -/
theorem filter_between_eq_nil {keep : α → Bool} {c : List α} {i t : Nat} (hit : i ≤ t)
    (hc : c ≠ []) (hk : ∀ x ∈ c, keep x = true) (hx : ∀ x ∈ c, x ∉ xs)
    (h : (splice xs i i c).filter keep = (splice xs t t c).filter keep) :
    ((xs.take t).drop i).filter keep = [] := by
  have ht : xs.take t = xs.take i ++ (xs.take t).drop i := by
    have := take_append_drop i (xs.take t)
    rw [take_take, Nat.min_eq_left hit] at this
    exact this.symm
  have hi : xs.drop i = (xs.take t).drop i ++ xs.drop t := by
    obtain ⟨d, rfl⟩ := Nat.exists_eq_add_of_le hit
    rw [drop_take, Nat.add_sub_cancel_left, ← drop_drop, take_append_drop]
  have hcf : c.filter keep = c := filter_eq_self.mpr hk
  rw [splice, splice, Nat.max_self, Nat.max_self, ht, hi] at h
  simp only [filter_append, hcf, append_assoc, append_cancel_left_eq] at h
  rw [← append_assoc, ← append_assoc, append_cancel_right_eq] at h
  cases hm : ((xs.take t).drop i).filter keep with
  | nil => rfl
  | cons y ys =>
    rw [hm] at h
    obtain ⟨z, zs, rfl⟩ := exists_cons_of_ne_nil hc
    simp only [cons_append, List.cons.injEq] at h
    have hy : y ∈ ((xs.take t).drop i).filter keep := by rw [hm]; simp
    have hy' := mem_of_mem_take (mem_of_mem_drop (mem_of_mem_filter hy))
    exact absurd hy' (h.1 ▸ hx z (by simp))

section Misplaced

variable {lines : List α} {ps qs : List (Patch α)} {p : Patch α}

theorem nodup_layout (h : Script lines.length ps) (hd : (lines ++ ps.flatMap content).Nodup) :
    (layout lines ps).Nodup := by
  have hs : (layout lines ([] ++ ps)).Subperm (layout lines [] ++ ps.flatMap content) :=
    layout_subperm h
  rw [layout_nil, nil_append] at hs
  obtain ⟨l, hperm, hsub⟩ := hs
  exact hperm.nodup_iff.mp (hd.sublist hsub)

theorem mem_layout (h : Script lines.length ps) {x : α} (hx : x ∈ layout lines ps) :
    x ∈ lines ++ ps.flatMap content := by
  have hs : (layout lines ([] ++ ps)).Subperm (layout lines [] ++ ps.flatMap content) :=
    layout_subperm h
  rw [layout_nil, nil_append] at hs
  exact hs.subset hx

section

variable (h : Script lines.length (ps ++ p :: qs))
include h

theorem removed_subset_take (hp : p = after k p.content ∨ p = before k p.content) :
    ∀ x ∈ removed lines qs, x ∈ lines.take (home ps k - 1) := by
  intro x hx
  obtain ⟨a, b, c, hm, hx⟩ := mem_removed.mp hx
  rw [append_cons] at h
  have hf := h.from_mem hm
  have hpk : b + 1 ≤ k := by
    have hpf := hf p (by simp)
    rcases hp with he | he <;> rw [he] at hpf <;> exact hpf
  have hb : b + 1 ≤ home ps k := le_home (fun q hq => hf q (by simp [hq])) hpk
  exact take_subset_take_left lines (by omega) (mem_of_mem_drop hx)

/-- A block spliced at `i` instead of `t`, both from its home on, is never where it belongs,
whatever the patches behind it do. -/
theorem splice_misplaced {i t : Nat} (hd : (lines ++ (ps ++ p :: qs).flatMap content).Nodup)
    (hp : p = after k p.content ∨ p = before k p.content) (hc : p.content ≠ [])
    (hrun : p.run (layout lines ps) = splice (layout lines ps) i i p.content)
    (hlay : layout lines (ps ++ [p]) = splice (layout lines ps) t t p.content)
    (hi : home ps k - 1 ≤ i) (hil : i ≤ (layout lines ps).length) (ht : home ps k - 1 ≤ t)
    (htl : t ≤ (layout lines ps).length) (hne : i ≠ t) :
    runAll (layout lines ps) (p :: qs) ≠ layout lines (ps ++ p :: qs) := by
  classical
  intro heq
  have hrem := removed_subset_take h hp
  set keep : α → Bool := fun x => decide (x ∉ qs.flatMap content ∧ x ∉ removed lines qs) with hkeep
  have hkc : ∀ x ∈ qs.flatMap content, keep x = false := fun x hx =>
    decide_eq_false fun hn => hn.1 hx
  have hkr : ∀ x ∈ removed lines qs, keep x = false := fun x hx =>
    decide_eq_false fun hn => hn.2 hx
  have hpk : p.line lines.length = k := by
    rcases hp with he | he <;> rw [he] <;> rfl
  have hps : Script lines.length ps := h.left
  have hqs : Script lines.length (p :: qs) := h.sublist (sublist_append_right _ _)
  rw [flatMap_append, flatMap_cons] at hd
  have hdl : (layout lines ps).Nodup := nodup_layout hps (hd.sublist (by simp))
  -- both sides, seen through the filter, are the block in the layout of `ps`
  have h1 : (runAll (layout lines ps) (p :: qs)).filter keep =
      (splice (layout lines ps) i i p.content).filter keep := by
    rw [runAll_cons, filter_runAll hkc hkr (hqs.sublist (sublist_cons_self p qs))
      ((ready_layout h).run hqs), hrun]
  have h2 : (layout lines (ps ++ p :: qs)).filter keep =
      (splice (layout lines ps) t t p.content).filter keep := by
    rw [append_cons] at h ⊢
    rw [filter_layout hkc hkr h, hlay]
  rw [heq, h2] at h1
  -- the filter keeps the block, and everything from its home on
  have hnp : ∀ x ∈ p.content, x ∉ layout lines ps ∧ x ∉ qs.flatMap content ∧ x ∉ lines := by
    intro x hx
    rw [← append_assoc, ← append_assoc] at hd
    obtain ⟨hd1, -, hd2⟩ := nodup_append'.mp hd
    obtain ⟨-, -, hd3⟩ := nodup_append'.mp hd1
    refine ⟨fun hm => hd3 (mem_layout hps hm) hx, fun hm => hd2 (by simp [hx]) hm, fun hm =>
      hd3 (by simp [hm]) hx⟩
  have hkp : ∀ x ∈ p.content, keep x = true := by
    intro x hx
    obtain ⟨-, hxc, hxl⟩ := hnp x hx
    exact decide_eq_true ⟨hxc, fun hm => hxl (mem_of_mem_take (hrem x hm))⟩
  have htake : (layout lines ps).take (home ps k - 1) = lines.take (home ps k - 1) := by
    rw [append_cons] at h
    have hk1 : 1 ≤ k ∧ k ≤ lines.length := by
      have hfit := h.left.fits_last
      rcases hp with he | he <;> rw [he] at hfit <;> exact hfit
    have h1k := one_le_home hps hk1.1
    have hle := home_le ps k
    refine take_layout (fun q hq => ?_) (by omega)
    rw [Nat.sub_add_cancel h1k]
    exact h.left.from_home hpk q hq
  have hkd : ∀ x ∈ (layout lines ps).drop (home ps k - 1), keep x = true := by
    intro x hx
    refine decide_eq_true ⟨fun hm => ?_, fun hm => ?_⟩
    · rw [← append_assoc] at hd
      exact (nodup_append'.mp hd).2.2 (mem_layout hps (mem_of_mem_drop hx)) (by simp [hm])
    · have hm' := hrem x hm
      rw [← htake] at hm'
      rw [← take_append_drop (home ps k - 1) (layout lines ps)] at hdl
      exact (nodup_append'.mp hdl).2.2 hm' hx
  have hmid : ∀ lo hi, home ps k - 1 ≤ lo → lo < hi → hi ≤ (layout lines ps).length →
      (((layout lines ps).take hi).drop lo).filter keep ≠ [] := by
    intro lo hi hlo hlt hhi hnil
    rw [filter_eq_self.mpr fun x hx => hkd x ?_] at hnil
    · have hlen := congrArg List.length hnil
      simp only [length_drop, length_take, length_nil] at hlen
      omega
    · rw [drop_take] at hx
      exact drop_subset_drop_left _ hlo (mem_of_mem_take hx)
  rcases Nat.lt_or_gt_of_ne hne with hlt | hlt
  · exact hmid i t hi hlt htl
      (filter_between_eq_nil hlt.le hc hkp (fun x hx => (hnp x hx).1) h1.symm)
  · exact hmid t i ht hlt hil
      (filter_between_eq_nil hlt.le hc hkp (fun x hx => (hnp x hx).1) h1)

theorem aligned_of_runAll (hd : (lines ++ (ps ++ p :: qs).flatMap content).Nodup)
    (hc : p.content ≠ [])
    (heq : runAll (layout lines ps) (p :: qs) = layout lines (ps ++ p :: qs)) :
    Aligned lines ps p := by
  have h' := h
  rw [append_cons] at h'
  cases p with
  | range a b c => trivial
  | after k c =>
    obtain ⟨hk1, hkn⟩ := h'.left.fits_last
    have hle := home_le ps k
    have hll := landing_le_length (k := k) h'.left rfl hk1 hkn
    by_contra hne
    refine splice_misplaced h hd (.inl rfl) hc (splice_min _ _ _) (layout_concat_after h'.left)
      ?_ (Nat.min_le_right _ _) ?_ hll hne heq
    · rw [landing] at hll
      exact le_min (by omega) (by omega)
    · rw [landing]
      omega
  | before k c =>
    obtain ⟨hk1, hkn⟩ := h'.left.fits_last
    have hle := home_le ps k
    have hll := landing_le_length (k := k) h'.left rfl hk1 hkn
    rw [landing] at hll
    by_contra hne
    exact splice_misplaced h hd (.inr rfl) hc (splice_min _ _ _) (layout_concat_before h'.left)
      (le_min (by omega) (by omega)) (Nat.min_le_right _ _) le_rfl (by omega) hne heq
  | atEnd c => trivial

end

theorem allAligned_of_runAll :
    ∀ {qs ps : List (Patch α)}, Script lines.length (ps ++ qs) →
      (lines ++ (ps ++ qs).flatMap content).Nodup →
      (∀ p ∈ qs, (∀ k, p.covers k = false) → p.content ≠ []) →
      runAll (layout lines ps) qs = layout lines (ps ++ qs) → AllAligned lines ps qs := by
  intro qs
  induction qs with
  | nil =>
    intro ps _ _ _ _
    trivial
  | cons p qs ih =>
    intro ps h hd hc heq
    have hp : Aligned lines ps p := by
      cases p with
      | range a b c => trivial
      | after k c | before k c => exact aligned_of_runAll h hd (hc _ (by simp) fun _ => rfl) heq
      | atEnd c => trivial
    rw [append_cons] at h hd heq
    rw [runAll_cons, run_layout h.left hp] at heq
    exact ⟨hp, ih h hd (fun q hq => hc q (by simp [hq])) heq⟩

end Misplaced

/-- **The run is the layout exactly** when every block is spliced where it belongs, for lines and
contents that can be told apart and blocks that are not empty. -/
theorem runAll_eq_layout_iff {lines : List α} {ps : List (Patch α)}
    (h : Script lines.length ps) (hd : (lines ++ ps.flatMap content).Nodup)
    (hc : ∀ p ∈ ps, (∀ k, p.covers k = false) → p.content ≠ []) :
    runAll lines ps = layout lines ps ↔ AllAligned lines [] ps := by
  refine ⟨fun heq => ?_, runAll_eq_layout h⟩
  refine allAligned_of_runAll h hd hc ?_
  rw [layout_nil]
  exact heq

end Patch

end KolegaCode
