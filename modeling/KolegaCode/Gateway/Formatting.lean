import Mathlib.Data.List.Basic
import Mathlib.Data.List.TakeDrop

/-!
# Gateway — a text in pieces

`chunk_text` splits a text at line boundaries into pieces no longer than a limit, and cuts a line
that is longer than that.  A line feed at which it splits is in no piece; every other character is
in one.
-/

namespace KolegaCode.Gateway

open List

abbrev Text := List Char

/-- `"\n".join(lines)`. -/
def joinLines (lines : List Text) : Text := ['\n'].intercalate lines

/-- What `chunk_text` holds between two lines. -/
structure Chunking where
  chunks : List Text := []
  buffer : List Text := []
  joinedLen : Nat := 0

/-- The buffer becomes a piece. -/
def Chunking.push (s : Chunking) : Chunking :=
  { chunks := s.chunks ++ [joinLines s.buffer] }

/-- What a line of this length adds to the joined length. -/
def Chunking.addCost (s : Chunking) (line : Text) : Nat :=
  line.length + if s.buffer ≠ [] then 1 else 0

def Chunking.add (s : Chunking) (line : Text) : Chunking :=
  { s with buffer := s.buffer ++ [line], joinedLen := s.joinedLen + s.addCost line }

/-- `while len(line) > limit`: the pieces that are cut off, and what is left of the line.  A line
is cut at most as often as it has characters. -/
def hardSplit (limit : Nat) : Nat → Text → List Text × Text
  | 0, line => ([], line)
  | fuel + 1, line =>
    if limit < line.length then
      let (heads, rest) := hardSplit limit fuel (line.drop limit)
      (line.take limit :: heads, rest)
    else ([], line)

/-- One round of `for line in text.split("\n")`. -/
def chunkLine (limit : Nat) (s : Chunking) (line : Text) : Chunking :=
  let s := if limit < line.length ∧ s.buffer ≠ [] then s.push else s
  let (heads, line) := hardSplit limit line.length line
  let s := { s with chunks := s.chunks ++ heads }
  let s := if limit < s.joinedLen + s.addCost line then s.push else s
  s.add line

/-- The pieces of a text; a limit that is not positive is refused. -/
def chunkText (text : Text) (limit : Int) : Option (List Text) :=
  if limit ≤ 0 then none
  else if text = [] then some []
  else
    let s := (text.splitOn '\n').foldl (chunkLine limit.toNat) {}
    some (if s.buffer ≠ [] then s.chunks ++ [joinLines s.buffer] else s.chunks)

/-! ### The parts of a line -/

theorem hardSplit_flatten (limit fuel : Nat) (line : Text) :
    (hardSplit limit fuel line).1.flatten ++ (hardSplit limit fuel line).2 = line := by
  fun_induction hardSplit limit fuel line with
  | case1 => rfl
  | case2 fuel line hlt heads rest heq ih =>
    rw [heq] at ih
    rw [flatten_cons, append_assoc, ih, take_append_drop]
  | case3 => rfl

theorem hardSplit_of_le {limit : Nat} {line : Text} (h : line.length ≤ limit) :
    hardSplit limit line.length line = ([], line) := by
  cases hlen : line.length with
  | zero => rfl
  | succ n => rw [hardSplit, if_neg (by omega)]

theorem hardSplit_length {limit : Nat} (hpos : 0 < limit) {fuel : Nat} {line : Text}
    (h : line.length ≤ fuel + limit) :
    (∀ head ∈ (hardSplit limit fuel line).1, head.length ≤ limit) ∧
      (hardSplit limit fuel line).2.length ≤ limit := by
  fun_induction hardSplit limit fuel line with
  | case1 => exact ⟨fun _ hm => absurd hm not_mem_nil, by simpa using h⟩
  | case2 fuel line hlt heads rest heq ih =>
    have hrest := ih (by rw [length_drop]; omega)
    rw [heq] at hrest
    refine ⟨fun head hm => ?_, hrest.2⟩
    rcases mem_cons.mp hm with rfl | hm
    · exact length_take_le _ _
    · exact hrest.1 head hm
  | case3 fuel line hle => exact ⟨fun _ hm => absurd hm not_mem_nil, Nat.le_of_not_lt hle⟩

/-! ### What a round keeps -/

/-- The characters of a text other than its line feeds. -/
def solid (text : Text) : Text := text.filter (· ≠ '\n')

@[simp] theorem solid_append (a b : Text) : solid (a ++ b) = solid a ++ solid b :=
  filter_append ..

theorem joinLines_append {lines : List Text} (h : lines ≠ []) (line : Text) :
    joinLines (lines ++ [line]) = joinLines lines ++ '\n' :: line := by
  induction lines with
  | nil => exact absurd rfl h
  | cons l lines ih =>
    cases lines with
    | nil => simp [joinLines, intercalate_cons_cons]
    | cons l' lines =>
      simp only [joinLines, cons_append, intercalate_cons_cons, append_assoc] at ih ⊢
      rw [ih (cons_ne_nil _ _)]

theorem joinLines_cons (line : Text) (lines : List Text) :
    joinLines (line :: lines) = line ++ lines.flatMap ('\n' :: ·) := by
  induction lines generalizing line with
  | nil => simp [joinLines]
  | cons l lines ih =>
    rw [joinLines, intercalate_cons_cons, ← joinLines, ih, flatMap_cons]
    simp

theorem length_joinLines_append (lines : List Text) (line : Text) :
    (joinLines (lines ++ [line])).length =
      (joinLines lines).length + (line.length + if lines ≠ [] then 1 else 0) := by
  by_cases h : lines = []
  · simp [h, joinLines]
  · rw [joinLines_append h, length_append, length_cons, if_pos h]

/-- No piece is too long, and the length that is kept of the buffer is the length it would have
joined. -/
structure Chunking.Fits (limit : Nat) (s : Chunking) : Prop where
  chunks : ∀ piece ∈ s.chunks, piece.length ≤ limit
  joinedLen : s.joinedLen = (joinLines s.buffer).length
  buffer : s.joinedLen ≤ limit

variable {limit : Nat} {s : Chunking}

theorem Chunking.Fits.push (h : s.Fits limit) : s.push.Fits limit where
  chunks := by
    intro piece hm
    rcases mem_append.mp hm with hm | hm
    · exact h.chunks piece hm
    · rw [mem_singleton.mp hm, ← h.joinedLen]
      exact h.buffer
  joinedLen := rfl
  buffer := Nat.zero_le _

theorem Chunking.Fits.cut (h : s.Fits limit) {heads : List Text}
    (hheads : ∀ head ∈ heads, head.length ≤ limit) :
    ({ s with chunks := s.chunks ++ heads } : Chunking).Fits limit where
  chunks := by
    intro piece hm
    rcases mem_append.mp hm with hm | hm
    · exact h.chunks piece hm
    · exact hheads piece hm
  joinedLen := h.joinedLen
  buffer := h.buffer

theorem Chunking.Fits.add (h : s.Fits limit) {line : Text}
    (hroom : s.joinedLen + s.addCost line ≤ limit) : (s.add line).Fits limit where
  chunks := h.chunks
  joinedLen := by
    rw [Chunking.add, length_joinLines_append, ← h.joinedLen]
    rfl
  buffer := hroom

theorem Chunking.Fits.chunkLine (hpos : 0 < limit) (h : s.Fits limit) (line : Text) :
    (chunkLine limit s line).Fits limit := by
  obtain ⟨hheads, hrest⟩ := hardSplit_length hpos (Nat.le_add_right line.length limit)
  rw [Gateway.chunkLine]
  have hfirst : (if limit < line.length ∧ s.buffer ≠ [] then s.push else s).Fits limit := by
    split
    · exact h.push
    · exact h
  generalize (if limit < line.length ∧ s.buffer ≠ [] then s.push else s) = s₁ at hfirst ⊢
  have hcut := hfirst.cut hheads
  dsimp only
  split
  · refine hcut.push.add ?_
    simpa [Chunking.push, Chunking.addCost] using hrest
  · next hle => exact hcut.add (Nat.le_of_not_lt hle)

/-! ### The pieces of a text -/

theorem Chunking.Fits.foldl (hpos : 0 < limit) (lines : List Text) (h : s.Fits limit) :
    (lines.foldl (Gateway.chunkLine limit) s).Fits limit := by
  induction lines generalizing s with
  | nil => exact h
  | cons line lines ih => exact ih (h.chunkLine hpos line)

/-! ### What stands between two pieces -/

/-- Pieces of a text with these lines: between two of them is a line feed, or nothing, and then the
first is `limit` characters of a longer line.  A piece is empty only where a line is. -/
inductive Pieces (limit : Nat) (lines : List Text) : List Text → Text → Prop
  | one (c : Text) (h : c = [] → [] ∈ lines) : Pieces limit lines [c] c
  | feed {cs : List Text} {t : Text} (c : Text) (h : c = [] → [] ∈ lines)
      (hcs : Pieces limit lines cs t) : Pieces limit lines (cs ++ [c]) (t ++ '\n' :: c)
  | cut {cs : List Text} {t c : Text} (d : Text) (h : d = [] → [] ∈ lines)
      (hcs : Pieces limit lines (cs ++ [c]) t) (hlength : c.length = limit)
      (hline : ∃ line ∈ lines, limit < line.length ∧ c <:+: line) :
      Pieces limit lines (cs ++ [c] ++ [d]) (t ++ d)

/-- Whatever piece comes next belongs directly behind the text. -/
def Opens (limit : Nat) (lines cs : List Text) (t : Text) : Prop :=
  ∀ c, (c = [] → [] ∈ lines) → Pieces limit lines (cs ++ [c]) (t ++ c)

variable {lines cs : List Text} {t line : Text}

theorem Pieces.empty (h : Pieces limit lines cs t) : ∀ c ∈ cs, c = [] → [] ∈ lines := by
  induction h with
  | one c h => exact forall_mem_singleton.mpr h
  | feed c h _ ih | cut d h _ _ _ ih =>
    exact forall_mem_append.mpr ⟨ih, forall_mem_singleton.mpr h⟩

/-- No character but line feeds is lost. -/
theorem Pieces.solid (h : Pieces limit lines cs t) : solid cs.flatten = solid t := by
  induction h with
  | one c => rw [flatten_singleton]
  | feed c _ _ ih =>
    rw [flatten_append, solid_append, ih, solid_append, flatten_singleton]
    rfl
  | cut d _ _ _ _ ih =>
    rw [flatten_append, solid_append, ih, solid_append, flatten_singleton]

theorem Pieces.extend {c : Text} (h : Pieces limit lines (cs ++ [c]) t) (x : Text) :
    Pieces limit lines (cs ++ [c ++ x]) (t ++ x) := by
  have hempty {d : Text} (h : d = [] → [] ∈ lines) : d ++ x = [] → [] ∈ lines :=
    fun he => h (append_eq_nil_iff.mp he).1
  generalize hcs : cs ++ [c] = l at h
  cases h with
  | one _ h =>
    obtain ⟨rfl, hc⟩ := append_inj' (hcs.trans (nil_append [t]).symm) rfl
    cases hc
    exact .one _ (hempty h)
  | feed d h hd =>
    obtain ⟨rfl, hc⟩ := append_inj' hcs rfl
    cases hc
    rw [append_assoc, cons_append]
    exact .feed _ (hempty h) hd
  | cut d h hd hlength hline =>
    obtain ⟨rfl, hc⟩ := append_inj' hcs rfl
    cases hc
    rw [append_assoc _ c]
    exact .cut _ (hempty h) hd hlength hline

theorem Pieces.opens (h : Pieces limit lines cs t) : Opens limit lines cs (t ++ ['\n']) :=
  fun c hc => by
    rw [append_assoc]
    exact h.feed c hc

theorem hardSplit_ne_nil (fuel : Nat) (h : line ≠ []) : (hardSplit limit fuel line).2 ≠ [] := by
  fun_induction hardSplit limit fuel line with
  | case1 => exact h
  | case2 fuel line hlt heads rest heq ih =>
    rw [heq] at ih
    exact ih (ne_nil_of_length_pos (by rw [length_drop]; omega))
  | case3 => exact h

/-- The pieces that are cut off follow each other with nothing between them. -/
theorem Opens.hardSplit (hpos : 0 < limit) (h : Opens limit lines cs t) {whole : Text}
    (hwhole : whole ∈ lines) (fuel : Nat) (hline : line <:+ whole) :
    Opens limit lines (cs ++ (hardSplit limit fuel line).1)
      (t ++ (Gateway.hardSplit limit fuel line).1.flatten) := by
  fun_induction Gateway.hardSplit limit fuel line generalizing cs t with
  | case2 fuel line hlt heads rest heq ih =>
    rw [heq] at ih
    have hlength : (line.take limit).length = limit := length_take_of_le (by omega)
    have hne : line.take limit ≠ [] := ne_nil_of_length_pos (by omega)
    have hnext : Opens limit lines (cs ++ [line.take limit]) (t ++ line.take limit) :=
      fun d hd => .cut d hd (h _ fun he => absurd he hne) hlength
        ⟨whole, hwhole, Nat.lt_of_lt_of_le hlt hline.length_le,
          ( take_prefix _ _).isInfix.trans hline.isInfix⟩
    simpa using ih hnext ((drop_suffix _ _).trans hline)
  | case1 | case3 => simpa using h

/-- The buffer is the last piece of the text. -/
def Chunking.Held (limit : Nat) (lines : List Text) (s : Chunking) (t : Text) : Prop :=
  s.buffer ≠ [] ∧ Pieces limit lines (s.chunks ++ [joinLines s.buffer]) t

theorem chunkLine_short (h : line.length ≤ limit) :
    chunkLine limit s line = (if limit < s.joinedLen + s.addCost line then s.push else s).add line := by
  rw [chunkLine, if_neg fun hc => Nat.not_lt.mpr h hc.1, hardSplit_of_le h]
  simp only [append_nil]

theorem Chunking.held_of_empty (hpos : 0 < limit) (hbuffer : s.buffer = []) (hlen : s.joinedLen = 0)
    (h : Opens limit lines s.chunks t) (hline : line ∈ lines) :
    (chunkLine limit s line).Held limit lines (t ++ line) := by
  have hrest := (hardSplit_length hpos (Nat.le_add_right line.length limit)).2
  rw [chunkLine, if_neg fun hc => hc.2 hbuffer]
  dsimp only
  rw [if_neg (by simp only [addCost, hbuffer, hlen, ne_eq, not_true, if_false]; omega)]
  refine ⟨by simp [add], ?_⟩
  have hopens := h.hardSplit hpos hline line.length (suffix_refl line)
  have hheld := hopens (hardSplit limit line.length line).2 fun he =>
    Decidable.byContradiction fun hno => hardSplit_ne_nil _ (fun hl => hno (hl ▸ hline)) he
  rw [append_assoc t, hardSplit_flatten] at hheld
  simpa [add, hbuffer, joinLines] using hheld

theorem Chunking.Held.chunkLine (hpos : 0 < limit) (h : s.Held limit lines t)
    (hline : line ∈ lines) : (chunkLine limit s line).Held limit lines (t ++ '\n' :: line) := by
  have hpushed : (Gateway.chunkLine limit s.push line).Held limit lines (t ++ '\n' :: line) := by
    rw [← singleton_append, ← append_assoc]
    exact held_of_empty hpos rfl rfl h.2.opens hline
  rcases Nat.lt_or_ge limit line.length with hlong | hshort
  · have heq : Gateway.chunkLine limit s line = Gateway.chunkLine limit s.push line := by
      rw [Gateway.chunkLine, Gateway.chunkLine, if_pos ⟨hlong, h.1⟩, if_neg fun hc => hc.2 rfl]
    exact heq ▸ hpushed
  · rw [chunkLine_short hshort] at hpushed ⊢
    split
    · rwa [if_neg (Nat.not_lt.mpr (by simpa [push, addCost] using hshort))] at hpushed
    · refine ⟨by simp [add], ?_⟩
      rw [add, joinLines_append h.1]
      exact h.2.extend ('\n' :: line)

theorem Chunking.Held.foldl (hpos : 0 < limit) {rest : List Text} (h : s.Held limit lines t)
    (hrest : ∀ line ∈ rest, line ∈ lines) :
    (rest.foldl (Gateway.chunkLine limit) s).Held limit lines (t ++ rest.flatMap ('\n' :: ·)) := by
  induction rest generalizing s t with
  | nil => simpa using h
  | cons line rest ih =>
    rw [forall_mem_cons] at hrest
    simpa using ih (h.chunkLine hpos hrest.1) hrest.2

theorem buffer_ne_nil {lines : List Text} (h : lines ≠ []) (s : Chunking) :
    (lines.foldl (chunkLine limit) s).buffer ≠ [] := by
  rw [← dropLast_concat_getLast h, foldl_concat]
  exact append_ne_nil_of_right_ne_nil _ (cons_ne_nil _ _)

variable {text : Text} {limit : Int} {pieces : List Text}

theorem chunkText_eq (hpos : 0 < limit) (htext : text ≠ []) :
    chunkText text limit =
      some ((text.splitOn '\n').foldl (chunkLine limit.toNat) {}).push.chunks := by
  rw [chunkText, if_neg (by omega), if_neg htext]
  dsimp only
  rw [if_pos (buffer_ne_nil (splitOn_ne_nil '\n' text) {})]
  rfl

theorem chunkText_pos (h : chunkText text limit = some pieces) : 0 < limit := by
  rw [chunkText] at h
  split at h
  · cases h
  · omega

theorem chunkText_nil (h : chunkText [] limit = some pieces) : pieces = [] := by
  rw [chunkText, if_neg (by have := chunkText_pos h; omega), if_pos rfl] at h
  exact (Option.some.inj h).symm

section

variable (h : chunkText text limit = some pieces)
include h

theorem chunkText_ne_nil (htext : text ≠ []) : pieces ≠ [] := by
  rw [chunkText_eq (chunkText_pos h) htext] at h
  cases h
  exact append_ne_nil_of_right_ne_nil _ (cons_ne_nil _ _)

theorem pieces_chunkText (htext : text ≠ []) :
    Pieces limit.toNat (text.splitOn '\n') pieces text := by
  have hpos : 0 < limit.toNat := by have := chunkText_pos h; omega
  rw [chunkText_eq (chunkText_pos h) htext] at h
  obtain ⟨line, rest, hlines⟩ := exists_cons_of_ne_nil (splitOn_ne_nil '\n' text)
  have hall : ∀ l ∈ line :: rest, l ∈ line :: rest := fun _ hl => hl
  rw [forall_mem_cons] at hall
  have hfirst := @Chunking.held_of_empty _ {} _ [] line hpos rfl rfl (fun c hc => .one c hc) hall.1
  have hheld := (hfirst.foldl hpos hall.2).2
  have htext : joinLines (line :: rest) = text := by
    rw [← hlines, joinLines, intercalate_splitOn]
  rw [nil_append, ← joinLines_cons, htext] at hheld
  cases h
  rwa [hlines]

/-- **No piece is longer than the limit, and no character but line feeds is lost.** -/
theorem chunkText_spec :
    (∀ piece ∈ pieces, (piece.length : Int) ≤ limit) ∧ solid pieces.flatten = solid text := by
  by_cases htext : text = []
  · subst htext
    rw [chunkText_nil h]
    exact ⟨fun _ hm => absurd hm not_mem_nil, rfl⟩
  refine ⟨fun piece hm => ?_, (pieces_chunkText h htext).solid⟩
  have hpos := chunkText_pos h
  rw [chunkText_eq hpos htext] at h
  have hstart : ({} : Chunking).Fits limit.toNat := ⟨nofun, rfl, Nat.zero_le _⟩
  cases h
  have hle := (hstart.foldl (by omega) (text.splitOn '\n')).push.chunks piece hm
  omega

end

example : chunkText "ab\n\ncdefg\nh".toList 3 =
    some ["ab\n".toList, "cde".toList, "fg".toList, "h".toList] := by decide

end KolegaCode.Gateway
