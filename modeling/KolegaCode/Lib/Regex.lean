import Mathlib.Data.List.Basic
import Mathlib.Data.List.TakeWhile

/-!
# Library — regular expressions

Backtracking matching: `run` lists every way an expression matches from a place on, in the order in
which Python's `re` tries them.  What is repeated is one character of a class; `search` finds the
leftmost match, `finditer` goes on after each.
-/

namespace KolegaCode.Re

open List Option

/-- A place in a text: what stands before it, read backwards, and what comes after. -/
@[ext] structure Cursor where
  before : List Char
  after : List Char
deriving DecidableEq

namespace Cursor

def start (text : List Char) : Cursor := ⟨[], text⟩

def pos (s : Cursor) : Nat := s.before.length

def text (s : Cursor) : List Char := s.before.reverse ++ s.after

def skip (s : Cursor) (n : Nat) : Cursor := ⟨(s.after.take n).reverse ++ s.before, s.after.drop n⟩

/-- The place comes later in the same text. -/
def Leads (s t : Cursor) : Prop := ∃ w, s.after = w ++ t.after ∧ t.before = w.reverse ++ s.before

theorem Leads.refl (s : Cursor) : s.Leads s := ⟨[], rfl, rfl⟩

theorem Leads.trans {s t u : Cursor} (h : s.Leads t) (h' : t.Leads u) : s.Leads u := by
  obtain ⟨w, hafter, hbefore⟩ := h
  obtain ⟨w', hafter', hbefore'⟩ := h'
  exact ⟨w ++ w', by rw [hafter, hafter', append_assoc],
    by rw [hbefore', hbefore, reverse_append, append_assoc]⟩

theorem leads_skip (s : Cursor) (n : Nat) : s.Leads (s.skip n) :=
  ⟨s.after.take n, (take_append_drop n s.after).symm, rfl⟩

theorem Leads.text {s t : Cursor} (h : s.Leads t) : t.text = s.text := by
  obtain ⟨w, hafter, hbefore⟩ := h
  simp [Cursor.text, hafter, hbefore]

theorem pos_le_text (s : Cursor) : s.pos ≤ s.text.length := by
  rw [Cursor.pos, Cursor.text, length_append, length_reverse]
  exact Nat.le_add_right _ _

end Cursor

/-- A group that matched, and where. -/
structure Capture where
  name : Nat
  start : Cursor
  stop : Cursor
deriving DecidableEq

/-- What the capture stands for. -/
def Capture.text (c : Capture) : List Char := c.start.after.take (c.stop.pos - c.start.pos)

inductive Regex where
  | empty
  | chr (p : Char → Bool)
  | seq (r q : Regex)
  | alt (r q : Regex)
  | opt (r : Regex)
  /-- From `min` characters of the class on, as many as there are, up to `max`. -/
  | many (min : Nat) (max : Option Nat) (p : Char → Bool)
  /-- As few of them as there need be. -/
  | few (min : Nat) (p : Char → Bool)
  /-- Either side of the place, but not both, is a character of the class. -/
  | boundary (p : Char → Bool)
  | group (name : Nat) (r : Regex)

namespace Regex

/-- The numbers of characters of the class that may be matched, the smallest first. -/
def counts (min : Nat) (max : Option Nat) (p : Char → Bool) (after : List Char) : List Nat :=
  let n := (after.takeWhile p).length
  let n := match max with
    | some k => Nat.min n k
    | none => n
  List.range' min (n + 1 - min)

/-- Every way to match from the place on, the preferred one first. -/
def run : Regex → Cursor → List (Cursor × List Capture)
  | .empty, s => [(s, [])]
  | .chr p, s =>
    match s.after with
    | c :: _ => if p c then [(s.skip 1, [])] else []
    | [] => []
  | .seq r q, s => (r.run s).flatMap fun m => (q.run m.1).map fun m' => (m'.1, m.2 ++ m'.2)
  | .alt r q, s => r.run s ++ q.run s
  | .opt r, s => r.run s ++ [(s, [])]
  | .many min max p, s => (counts min max p s.after).reverse.map fun n => (s.skip n, [])
  | .few min p, s => (counts min none p s.after).map fun n => (s.skip n, [])
  | .boundary p, s => if s.before.head?.any p ≠ s.after.head?.any p then [(s, [])] else []
  | .group name r, s => (r.run s).map fun m => (m.1, m.2 ++ [⟨name, s, m.1⟩])

def lit (cs : List Char) : Regex := cs.foldr (fun c r => .seq (.chr (· = c)) r) .empty

end Regex

/-! ### Ignoring case -/

/-- `(?i)[a-z]`: four letters that are not ASCII share a case with one that is. -/
def caselessLetter (c : Char) : Bool :=
  ('a' ≤ c && c ≤ 'z') || ('A' ≤ c && c ≤ 'Z') ||
    ['\u0130', '\u0131', '\u017f', '\u212a'].contains c

/-- `(?i)` of one ASCII character. -/
def caseless (x c : Char) : Bool :=
  c = x || c = x.toLower || c = x.toUpper ||
    match x.toLower with
    | 'i' => c = '\u0130' || c = '\u0131'
    | 'k' => c = '\u212a'
    | 's' => c = '\u017f'
    | _ => false

def Regex.litCaseless (cs : List Char) : Regex :=
  cs.foldr (fun c r => .seq (.chr (caseless c)) r) .empty

/-! ### Finding a match -/

structure Match where
  start : Cursor
  stop : Cursor
  captures : List Capture
deriving DecidableEq

namespace Match

/-- The group's capture, the last one that matched. -/
def group (m : Match) (name : Nat) : Option Capture :=
  m.captures.reverse.find? fun c => c.name = name

end Match

/-- The match at a place. -/
def matchAt (r : Regex) (s : Cursor) : Option Match :=
  (r.run s).head?.map fun m => ⟨s, m.1, m.2⟩

/-- `search`, from a place on. -/
def search (r : Regex) (before : List Char) : List Char → Option Match
  | [] => matchAt r ⟨before, []⟩
  | c :: after => (matchAt r ⟨before, c :: after⟩).or (search r (c :: before) after)

def finditerFrom (r : Regex) : (fuel : Nat) → Cursor → List Match
  | 0, _ => []
  | fuel + 1, s =>
    match search r s.before s.after with
    | none => []
    | some m => m :: finditerFrom r fuel m.stop

/-- `finditer`, for an expression that does not match the empty text. -/
def finditer (r : Regex) (text : List Char) : List Match :=
  finditerFrom r (text.length + 1) (.start text)

/-! ### Where matches are -/

open Cursor (Leads)

variable {r : Regex} {s t : Cursor} {m : Match}

/-- A match goes on from where it starts, and so does every group in it. -/
theorem leads_of_mem_run {m : Cursor × List Capture} (h : m ∈ r.run s) :
    s.Leads m.1 ∧ ∀ c ∈ m.2, s.Leads c.start ∧ c.start.Leads c.stop ∧ c.stop.Leads m.1 := by
  induction r generalizing s m with
  | empty =>
    rw [mem_singleton.mp h]
    exact ⟨.refl s, fun c hc => absurd hc not_mem_nil⟩
  | chr p =>
    rw [Regex.run] at h
    split at h
    · split at h
      · rw [mem_singleton.mp h]
        exact ⟨s.leads_skip 1, fun c hc => absurd hc not_mem_nil⟩
      · exact absurd h not_mem_nil
    · exact absurd h not_mem_nil
  | seq r q ihr ihq =>
    obtain ⟨m₁, hm₁, h⟩ := mem_flatMap.mp h
    obtain ⟨m₂, hm₂, rfl⟩ := mem_map.mp h
    obtain ⟨hs, hc₁⟩ := ihr hm₁
    obtain ⟨hm, hc₂⟩ := ihq hm₂
    refine ⟨hs.trans hm, fun c hc => ?_⟩
    rcases mem_append.mp hc with hc | hc
    · exact ⟨(hc₁ c hc).1, (hc₁ c hc).2.1, (hc₁ c hc).2.2.trans hm⟩
    · exact ⟨hs.trans (hc₂ c hc).1, (hc₂ c hc).2⟩
  | alt r q ihr ihq =>
    rcases mem_append.mp h with h | h
    · exact ihr h
    · exact ihq h
  | opt r ih =>
    rcases mem_append.mp h with h | h
    · exact ih h
    · rw [mem_singleton.mp h]
      exact ⟨.refl s, fun c hc => absurd hc not_mem_nil⟩
  | many min max p | few min p =>
    obtain ⟨n, -, rfl⟩ := mem_map.mp h
    exact ⟨s.leads_skip n, fun c hc => absurd hc not_mem_nil⟩
  | boundary p =>
    rw [Regex.run] at h
    split at h
    · rw [mem_singleton.mp h]
      exact ⟨.refl s, fun c hc => absurd hc not_mem_nil⟩
    · exact absurd h not_mem_nil
  | group name r ih =>
    obtain ⟨m', hm', rfl⟩ := mem_map.mp h
    obtain ⟨hs, hc⟩ := ih hm'
    refine ⟨hs, fun c hmem => ?_⟩
    rcases mem_append.mp hmem with hmem | hmem
    · exact hc c hmem
    · rw [mem_singleton.mp hmem]
      exact ⟨.refl s, hs, .refl _⟩

/-- Where a match and its groups are. -/
structure Match.Within (s : Cursor) (m : Match) : Prop where
  start : s.Leads m.start
  stop : m.start.Leads m.stop
  captures : ∀ c ∈ m.captures, m.start.Leads c.start ∧ c.start.Leads c.stop ∧ c.stop.Leads m.stop

theorem within_matchAt (h : matchAt r s = some m) : m.Within s := by
  rw [matchAt, map_eq_some_iff] at h
  obtain ⟨found, hfound, rfl⟩ := h
  obtain ⟨hstop, hcaptures⟩ := leads_of_mem_run (mem_of_head? hfound)
  exact ⟨.refl s, hstop, hcaptures⟩

theorem within_search {before after : List Char} (h : search r before after = some m) :
    m.Within ⟨before, after⟩ := by
  induction after generalizing before with
  | nil => exact within_matchAt h
  | cons c after ih =>
    rw [search, Option.or_eq_some_iff] at h
    rcases h with h | ⟨-, h⟩
    · exact within_matchAt h
    · have hm := ih h
      exact ⟨Leads.trans ⟨[c], rfl, rfl⟩ hm.start, hm.stop, hm.captures⟩

theorem within_finditerFrom {fuel : Nat} (h : m ∈ finditerFrom r fuel s) : m.Within s := by
  induction fuel generalizing s with
  | zero => exact absurd h not_mem_nil
  | succ fuel ih =>
    rw [finditerFrom] at h
    split at h
    · exact absurd h not_mem_nil
    · next first hfirst =>
      have hwithin : first.Within s := within_search hfirst
      rcases mem_cons.mp h with rfl | h
      · exact hwithin
      · have hm := ih h
        exact ⟨(hwithin.start.trans hwithin.stop).trans hm.start, hm.stop, hm.captures⟩

theorem Match.Within.group (h : m.Within s) {name : Nat} {c : Capture}
    (hc : m.group name = some c) :
    m.start.Leads c.start ∧ c.start.Leads c.stop ∧ c.stop.Leads m.stop :=
  h.captures c (mem_reverse.mp (mem_of_find?_eq_some hc))

/-- Every match of a text, and every group in it, ends within the text. -/
theorem stop_le_length {text : List Char} (h : m ∈ finditer r text) :
    m.stop.pos ≤ text.length ∧ ∀ name c, m.group name = some c → c.stop.pos ≤ text.length := by
  have hm := within_finditerFrom h
  have hstop := hm.start.trans hm.stop
  have htext : m.stop.text = text := hstop.text
  refine ⟨htext ▸ m.stop.pos_le_text, fun name c hc => ?_⟩
  obtain ⟨hstart, hend, -⟩ := hm.group hc
  have hctext : c.stop.text = text := ((hm.start.trans hstart).trans hend).text
  exact hctext ▸ c.stop.pos_le_text

/-! ### Which places match -/

/-- The expression matches from the one place to the other. -/
def Matches (r : Regex) (s t : Cursor) : Prop := ∃ captures, (t, captures) ∈ r.run s

theorem matchAt_isSome : (matchAt r s).isSome = true ↔ ∃ t, Matches r s t := by
  rw [matchAt, Option.isSome_map]
  cases h : r.run s with
  | nil => simp [Matches, h]
  | cons m ms => simpa using ⟨m.1, m.2, by rw [h]; exact mem_cons_self⟩

theorem matches_chr {p : Char → Bool} :
    Matches (.chr p) s t ↔ ∃ c, p c = true ∧ s.after = c :: t.after ∧ t.before = c :: s.before := by
  rw [Matches, Regex.run]
  constructor
  · rintro ⟨captures, h⟩
    split at h
    · next c rest hafter =>
      split at h
      · next hp =>
        obtain ⟨rfl, -⟩ := Prod.mk.inj (mem_singleton.mp h)
        exact ⟨c, hp, by simp [Cursor.skip, hafter], by simp [Cursor.skip, hafter]⟩
      · exact absurd h not_mem_nil
    · exact absurd h not_mem_nil
  · rintro ⟨c, hp, hafter, hbefore⟩
    refine ⟨[], ?_⟩
    rw [hafter]
    simp only [hp, if_true, mem_singleton, Prod.mk.injEq, and_true]
    ext1 <;> simp [Cursor.skip, hafter, hbefore]

theorem matches_seq {q : Regex} {u : Cursor} :
    Matches (.seq r q) s u ↔ ∃ t, Matches r s t ∧ Matches q t u := by
  constructor
  · rintro ⟨captures, h⟩
    obtain ⟨m, hm, h⟩ := mem_flatMap.mp h
    obtain ⟨m', hm', heq⟩ := mem_map.mp h
    obtain ⟨rfl, -⟩ := Prod.mk.inj heq
    exact ⟨m.1, ⟨m.2, hm⟩, m'.2, hm'⟩
  · rintro ⟨t, ⟨c, hm⟩, c', hm'⟩
    exact ⟨c ++ c', mem_flatMap.mpr ⟨_, hm, mem_map.mpr ⟨_, hm', rfl⟩⟩⟩

theorem matches_opt : Matches (.opt r) s t ↔ Matches r s t ∨ t = s := by
  constructor
  · rintro ⟨captures, h⟩
    rcases mem_append.mp h with h | h
    · exact .inl ⟨captures, h⟩
    · exact .inr (Prod.mk.inj (mem_singleton.mp h)).1
  · rintro (⟨captures, h⟩ | rfl)
    · exact ⟨captures, mem_append_left _ h⟩
    · exact ⟨[], mem_append_right _ mem_cons_self⟩

theorem matches_many {min : Nat} {p : Char → Bool} :
    Matches (.many min none p) s t ↔ ∃ w, min ≤ w.length ∧ (∀ c ∈ w, p c = true) ∧
      s.after = w ++ t.after ∧ t.before = w.reverse ++ s.before := by
  constructor
  · rintro ⟨captures, h⟩
    obtain ⟨n, hn, heq⟩ := mem_map.mp h
    obtain ⟨rfl, -⟩ := Prod.mk.inj heq
    rw [mem_reverse, Regex.counts.eq_def] at hn
    obtain ⟨i, hi, rfl⟩ := mem_range'.mp hn
    dsimp only at hi
    have hle : min + 1 * i ≤ (s.after.takeWhile p).length := by omega
    have htake : s.after.take (min + 1 * i) = (s.after.takeWhile p).take (min + 1 * i) := by
      conv_lhs => rw [← takeWhile_append_dropWhile (p := p) (l := s.after)]
      rw [take_append_of_le_length hle]
    refine ⟨s.after.take (min + 1 * i), ?_, fun c hc => ?_,
      (take_append_drop _ s.after).symm, rfl⟩
    · rw [htake, length_take]
      omega
    · rw [htake] at hc
      exact mem_takeWhile_imp (mem_of_mem_take hc)
  · rintro ⟨w, hmin, hall, hafter, hbefore⟩
    refine ⟨[], mem_map.mpr ⟨w.length, ?_, ?_⟩⟩
    · rw [mem_reverse, Regex.counts.eq_def, mem_range']
      have hle : w.length ≤ (s.after.takeWhile p).length := by
        rw [hafter, takeWhile_append_of_pos hall, length_append]
        exact Nat.le_add_right _ _
      exact ⟨w.length - min, by dsimp only; omega, by omega⟩
    · refine Prod.ext ?_ rfl
      ext1 <;> simp [Cursor.skip, hafter, hbefore]

theorem matches_lit {cs : List Char} :
    Matches (Regex.lit cs) s t ↔ s.after = cs ++ t.after ∧ t.before = cs.reverse ++ s.before := by
  induction cs generalizing s with
  | nil =>
    constructor
    · rintro ⟨captures, h⟩
      obtain ⟨rfl, -⟩ := Prod.mk.inj (mem_singleton.mp h)
      exact ⟨rfl, rfl⟩
    · rintro ⟨hafter, hbefore⟩
      refine ⟨[], mem_singleton.mpr (Prod.ext ?_ rfl)⟩
      ext1
      · exact hbefore
      · exact hafter.symm
  | cons c cs ih =>
    rw [Regex.lit, foldr_cons, matches_seq]
    constructor
    · rintro ⟨u, hu, h⟩
      obtain ⟨c', hc', hafter, hbefore⟩ := matches_chr.mp hu
      obtain ⟨hafter', hbefore'⟩ := ih.mp h
      rw [decide_eq_true_eq] at hc'
      rw [hafter, hafter', hbefore', hbefore, hc']
      simp
    · rintro ⟨hafter, hbefore⟩
      refine ⟨⟨c :: s.before, cs ++ t.after⟩, matches_chr.mpr ⟨c, by simp, hafter, rfl⟩,
        ih.mpr ⟨rfl, ?_⟩⟩
      rw [hbefore]
      simp

/-- **The leftmost match** is at the first place that matches. -/
theorem search_pos (r : Regex) (before after : List Char) :
    (search r before after).map (fun m => m.start.pos) =
      ((List.range (after.length + 1)).find? fun i =>
        (matchAt r (Cursor.skip ⟨before, after⟩ i)).isSome).map (before.length + ·) := by
  have hhere : ∀ s : Cursor, (matchAt r s).map (fun m => m.start.pos) =
      if (matchAt r s).isSome then some s.pos else none := by
    intro s
    rw [matchAt]
    cases r.run s <;> rfl
  induction after generalizing before with
  | nil =>
    rw [search, hhere]
    simp only [length_nil, Nat.zero_add, range_one, find?_cons, find?_nil,
      Cursor.skip, take_nil, drop_nil, reverse_nil, nil_append]
    cases (matchAt r ⟨before, []⟩).isSome <;> rfl
  | cons c after ih =>
    rw [search, length_cons, range_succ_eq_map, find?_cons]
    have hzero : Cursor.skip ⟨before, c :: after⟩ 0 = ⟨before, c :: after⟩ := rfl
    rw [hzero]
    cases hm : matchAt r ⟨before, c :: after⟩ with
    | some m =>
      have hpos := hhere ⟨before, c :: after⟩
      rw [hm] at hpos
      exact hpos
    | none =>
      simp only [none_or, isSome_none, ih, find?_map, Option.map_map]
      have hskip : ∀ i, Cursor.skip ⟨before, c :: after⟩ (i + 1) =
          Cursor.skip ⟨c :: before, after⟩ i := by
        intro i
        simp [Cursor.skip]
      have hfun : ((fun i => (matchAt r (Cursor.skip ⟨before, c :: after⟩ i)).isSome) ∘ Nat.succ) =
          fun i => (matchAt r (Cursor.skip ⟨c :: before, after⟩ i)).isSome := by
        funext i
        exact congrArg (fun s => (matchAt r s).isSome) (hskip i)
      rw [hfun]
      congr 1
      funext i
      simp only [Function.comp_apply, length_cons]
      omega

end KolegaCode.Re
