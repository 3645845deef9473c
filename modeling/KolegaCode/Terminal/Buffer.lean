import KolegaCode.Lib.Utf8

/-!
# Terminal — the head/tail buffer

`HeadTailBuffer` keeps the first bytes of a terminal's output and a rolling tail of it.  Its state
is a function of the stream so far (`append_retained`), whatever chunks the stream came in.
-/

namespace KolegaCode.Terminal
open List
open Utf8

structure HeadTailBuffer where
  headCap : Nat
  tailCap : Nat
  head : List UInt8 := []
  tail : List UInt8 := []
  omittedLineBreaks : Nat := 0
  omittedEndsNewline : Bool := false
  totalBytes : Nat := 0
  deriving DecidableEq

structure HeadTailView where
  head : List Char
  tail : List Char
  omittedBytes : Nat := 0
  omittedNewlines : Nat := 0
  omittedEndsNewline : Bool := false
  omittedLines : Nat := 0
  deriving DecidableEq

namespace HeadTailBuffer

/-- What `append` does with the bytes behind the head. -/
def rollTail (buffer : HeadTailBuffer) (data : List UInt8) : HeadTailBuffer :=
  if data = [] then buffer
  else
    let tail := buffer.tail ++ data
    let excess := tail.length - buffer.tailCap
    if 0 < excess then
      let removed := tail.take excess
      { buffer with
        omittedLineBreaks := buffer.omittedLineBreaks + removed.count 0x0A
        omittedEndsNewline := removed.getLast? == some 0x0A
        tail := tail.drop excess }
    else { buffer with tail }

def append (buffer : HeadTailBuffer) (data : List UInt8) : HeadTailBuffer :=
  if data = [] then buffer
  else
    let buffer := { buffer with totalBytes := buffer.totalBytes + data.length }
    if buffer.head.length < buffer.headCap then
      let take := buffer.headCap - buffer.head.length
      { buffer with head := buffer.head ++ data.take take }.rollTail (data.drop take)
    else buffer.rollTail data

/-- The view; `none` is the `UnicodeDecodeError` of the strict decoding. -/
def view (buffer : HeadTailBuffer) : Option HeadTailView :=
  let rawOmitted := buffer.totalBytes - buffer.head.length - buffer.tail.length
  if rawOmitted = 0 then
    (decode (buffer.head ++ buffer.tail)).map fun text => { head := text, tail := [] }
  else
    let head := decodeIgnore buffer.head
    let tail := decodeIgnore buffer.tail
    let retainedBytes := (encode head).length + (encode tail).length
    let omittedBytes := buffer.totalBytes - retainedBytes
    let skippedTailBytes : Int := buffer.tail.length - (encode tail).length
    let omittedEndsNewline := if skippedTailBytes = 0 then buffer.omittedEndsNewline else false
    let omittedLines := buffer.omittedLineBreaks + if omittedEndsNewline then 0 else 1
    some { head, tail, omittedBytes, omittedNewlines := buffer.omittedLineBreaks,
           omittedEndsNewline, omittedLines := max 1 omittedLines }

/-! ### The state as a function of the stream -/

/-- The buffer with the tail and the counters that belong to `rest`, the stream behind the head. -/
def rolled (buffer : HeadTailBuffer) (rest : List UInt8) : HeadTailBuffer :=
  let omitted := rest.take (rest.length - buffer.tailCap)
  { buffer with
    omittedLineBreaks := omitted.count 0x0A
    omittedEndsNewline := omitted.getLast? == some 0x0A
    tail := rest.drop (rest.length - buffer.tailCap) }

/-- The buffer that has read `stream`. -/
def retained (headCap tailCap : Nat) (stream : List UInt8) : HeadTailBuffer :=
  let buffer : HeadTailBuffer :=
    { headCap, tailCap, head := stream.take headCap, totalBytes := stream.length }
  buffer.rolled (stream.drop headCap)

/-- A tail of at most `cap` elements, rolled on by `data`: what it keeps and what it has removed. -/
theorem rolled_append {α : Type*} (cap : Nat) (rest data : List α) {k excess : Nat}
    (hk : rest.length - cap = k) (he : (rest.drop k ++ data).length - cap = excess) :
    (rest ++ data).take ((rest ++ data).length - cap)
        = rest.take k ++ (rest.drop k ++ data).take excess ∧
      (rest ++ data).drop ((rest ++ data).length - cap) = (rest.drop k ++ data).drop excess := by
  rw [length_append, length_drop] at he
  have hsum : (rest ++ data).length - cap = k + excess := by
    rw [length_append]
    omega
  have hkr : k ≤ rest.length := hk ▸ Nat.sub_le _ _
  have hdrop : rest.drop k ++ data = (rest ++ data).drop k :=
    (drop_append_of_le_length hkr).symm
  rw [hsum, hdrop, take_add, take_append_of_le_length hkr, drop_drop]
  exact ⟨rfl, rfl⟩

/-- The tail takes the bytes behind the head one chunk after the other. -/
theorem rollTail_rolled (buffer : HeadTailBuffer) (rest data : List UInt8) :
    (buffer.rolled rest).rollTail data = buffer.rolled (rest ++ data) := by
  obtain ⟨htake, hdrop⟩ := rolled_append buffer.tailCap rest data rfl rfl
  rw [rollTail]
  split
  next hd => rw [hd, append_nil]
  next hd =>
  by_cases hex : 0 < (rest.drop (rest.length - buffer.tailCap) ++ data).length - buffer.tailCap
  · have hne : (rest.drop (rest.length - buffer.tailCap) ++ data).take
        ((rest.drop (rest.length - buffer.tailCap) ++ data).length - buffer.tailCap) ≠ [] :=
      fun h => (take_eq_nil_iff.mp h).elim (Nat.ne_of_gt hex) (by simp [hd])
    refine (if_pos hex).trans ?_
    simp only [rolled, htake, hdrop, count_append, getLast?_append_of_ne_nil _ hne]
  · rw [Nat.eq_zero_of_not_pos hex, take_zero, append_nil] at htake
    rw [Nat.eq_zero_of_not_pos hex, drop_zero] at hdrop
    refine (if_neg hex).trans ?_
    simp only [rolled, htake, hdrop]

/-- **One chunk.**  The buffer that has read a stream reads a chunk as if the stream had been longer
from the start. -/
theorem append_retained (headCap tailCap : Nat) (stream data : List UInt8) :
    (retained headCap tailCap stream).append data = retained headCap tailCap (stream ++ data) := by
  rw [append]
  split
  next hd => rw [hd, append_nil]
  next hd =>
  conv_rhs => rw [retained, take_append, drop_append, length_append, ← rollTail_rolled]
  by_cases hlt : stream.length < headCap
  · have hlen : (stream.take headCap).length = stream.length := by
      rw [length_take, Nat.min_eq_right (Nat.le_of_lt hlt)]
    refine (if_pos (hlen ▸ hlt)).trans ?_
    simp only [retained, rolled, hlen]
  · have hlen : ¬ (stream.take headCap).length < headCap := by
      rw [length_take, Nat.min_eq_left (Nat.le_of_not_lt hlt)]
      exact Nat.lt_irrefl _
    have hzero : headCap - stream.length = 0 := Nat.sub_eq_zero_of_le (Nat.le_of_not_lt hlt)
    refine (if_neg hlen).trans ?_
    rw [hzero, take_zero, append_nil, drop_zero]
    rfl

/-- **All chunks.** -/
theorem foldl_append_retained (headCap tailCap : Nat) (chunks : List (List UInt8)) :
    chunks.foldl append { headCap, tailCap } = retained headCap tailCap chunks.flatten := by
  have h : ∀ stream, chunks.foldl append (retained headCap tailCap stream)
      = retained headCap tailCap (stream ++ chunks.flatten) := by
    induction chunks with
    | nil => intro stream; rw [flatten_nil, append_nil]; rfl
    | cons data chunks ih =>
      intro stream
      rw [foldl_cons, append_retained, ih, flatten_cons, append_assoc]
  simpa [retained, rolled] using h []

theorem retained_tail (headCap tailCap : Nat) (stream : List UInt8) :
    (retained headCap tailCap stream).tail
      = (stream.drop headCap).drop ((stream.drop headCap).length - tailCap) := rfl

/-- What is kept of the stream, and what was removed between. -/
theorem retained_split (headCap tailCap : Nat) (stream : List UInt8) :
    ∃ removed, stream = stream.take headCap ++ (removed ++ (retained headCap tailCap stream).tail) ∧
      (retained headCap tailCap stream).omittedLineBreaks = removed.count 0x0A ∧
      (retained headCap tailCap stream).omittedEndsNewline = (removed.getLast? == some 0x0A) :=
  ⟨_, by rw [retained, rolled, take_append_drop, take_append_drop], rfl, rfl⟩

end HeadTailBuffer

open HeadTailBuffer

/-- The view shows `text` but for a middle part, and accounts for that part. -/
structure HeadTailView.Exact (view : HeadTailView) (text : List Char) : Prop where
  split : ∃ middle, text = view.head ++ (middle ++ view.tail) ∧
    view.omittedNewlines = middle.count '\n' ∧
    (view.omittedEndsNewline = true ↔ middle.getLast? = some '\n')
  omittedBytes : view.omittedBytes
    = (encode text).length - ((encode view.head).length + (encode view.tail).length)

theorem view_retained (headCap tailCap : Nat) (text : List Char) :
    ∃ view, (retained headCap tailCap (encode text)).view = some view ∧ view.Exact text := by
  obtain ⟨removed, hs, hcount, hends⟩ := retained_split headCap tailCap (encode text)
  have hlen := congrArg List.length hs
  generalize hb : retained headCap tailCap (encode text) = buffer at *
  have hhead : buffer.head = (encode text).take headCap := by rw [← hb]; rfl
  have htotal : buffer.totalBytes = (encode text).length := by rw [← hb]; rfl
  rw [← hhead] at hs hlen
  simp only [length_append] at hlen
  have hraw : buffer.totalBytes - buffer.head.length - buffer.tail.length = removed.length := by
    omega
  rw [view, hraw]
  split
  next hzero =>
    rw [length_eq_zero_iff] at hzero
    rw [hzero, nil_append] at hs
    rw [← hs, decode_encode]
    exact ⟨_, rfl, ⟨[], by simp, rfl, by simp⟩, by simp⟩
  next hpos =>
  obtain ⟨head, rest, cut, rfl, hdh, hph, hcut⟩ := decodeIgnore_prefix hs
  -- behind the head: what is cut off, what was removed, the tail
  have hrest : encode rest = (cut ++ removed) ++ buffer.tail := by
    rw [encode_append, hph, append_assoc] at hs
    rw [append_cancel_left hs, append_assoc]
  obtain ⟨middle, tail, skip, rfl, hdt, hpt, hskip⟩ := decodeIgnore_suffix hrest
  have hmiddle : encode middle = cut ++ removed ++ skip := by
    rw [encode_append, hpt, ← append_assoc] at hrest
    exact append_cancel_right hrest
  refine ⟨_, rfl, ⟨middle, by rw [hdh, hdt], ?_, ?_⟩, ?_⟩
  · show buffer.omittedLineBreaks = _
    rw [← count_encode, hmiddle, hcount, count_append, count_append,
      count_eq_zero.mpr hcut, count_eq_zero.mpr hskip, Nat.zero_add, Nat.add_zero]
  · rw [← getLast?_encode, hmiddle]
    show (if _ then buffer.omittedEndsNewline else false) = true ↔ _
    rw [hdt, hpt, length_append]
    by_cases hnil : skip = []
    · have hne : removed ≠ [] := fun h => hpos (by rw [h]; rfl)
      rw [if_pos (by simp [hnil]), hnil, append_nil, getLast?_append_of_ne_nil _ hne,
        hends, beq_iff_eq]
    · rw [if_neg (by simpa using hnil), getLast?_append_of_ne_nil _ hnil]
      exact ⟨nofun, fun h => absurd (mem_of_getLast? h) hskip⟩
  · show buffer.totalBytes - _ = _
    rw [htotal]

/-- **The view is exact.**  Whatever chunks a text's encoding comes in, the view shows the text but
for an accounted middle, and at no time does the buffer keep more than its caps allow. -/
theorem view_exact (headCap tailCap : Nat) (text : List Char) (chunks : List (List UInt8))
    (h : chunks.flatten = encode text) :
    (∃ view, (chunks.foldl append { headCap, tailCap }).view = some view ∧ view.Exact text) ∧
      (∀ chunks' : List (List UInt8), chunks'.flatten = chunks.flatten →
        (chunks'.foldl append { headCap, tailCap }).view
          = (chunks.foldl append { headCap, tailCap }).view) ∧
      ∀ earlier, earlier <+: chunks →
        (earlier.foldl append { headCap, tailCap }).head.length ≤ headCap ∧
          (earlier.foldl append { headCap, tailCap }).tail.length ≤ tailCap := by
  simp only [foldl_append_retained]
  refine ⟨h ▸ view_retained headCap tailCap text, fun chunks' h' => by rw [h'], ?_⟩
  intro earlier _
  refine ⟨length_take_le _ _, ?_⟩
  rw [retained_tail, length_drop]
  exact Nat.sub_le_iff_le_add'.mpr (Nat.sub_le_iff_le_add.mp (Nat.le_refl _))

/-- Both caps cut a character. -/
theorem view_exact_cut :
    ∃ view, ([[0xC3], [0xA9, 0x0A, 0xC3], [], [0xBC, 0x78]].foldl append
      { headCap := 1, tailCap := 2 }).view = some view ∧ view.Exact ['é', '\n', 'ü', 'x'] :=
  (view_exact 1 2 ['é', '\n', 'ü', 'x'] [[0xC3], [0xA9, 0x0A, 0xC3], [], [0xBC, 0x78]]
    (by decide)).1

end KolegaCode.Terminal
