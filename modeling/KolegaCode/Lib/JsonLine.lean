import KolegaCode.Lib.JsonHooks
import KolegaCode.Lib.JsonSuffix
import KolegaCode.Lib.Utf8

/-!
# Lib — a JSON object as a line of bytes

`dumpsBytes` is the UTF-8 encoding of the text of a value and `loadsBytes` reads it back.  The
encoded text has no control character, so it is one line, and no proper suffix of the bytes of an
object is read, whether it starts inside a character or between two.
-/

namespace KolegaCode.Json

open List
open Utf8

/-- `json.dumps(value, separators=(",", ":"), ensure_ascii=False).encode("utf-8")`. -/
def dumpsBytes (v : Json) : List UInt8 := encode (dumps v)

/-- The text behind a byte order mark. -/
def dropBom : List Char → List Char
  | [] => []
  | c :: s => if c = '\uFEFF' then s else c :: s

/-- `json.loads(data)` of bytes in UTF-8; `none` is a `JSONDecodeError` or a
`UnicodeDecodeError`. -/
def loadsBytes (b : List UInt8) : Option Json := (decode b).bind fun s => loads (dropBom s)

theorem dropBom_cons {c : Char} (h : c ≠ '\uFEFF') (s : List Char) : dropBom (c :: s) = c :: s :=
  if_neg h

theorem loadsBytes_dumpsBytes {fs : Dict} (h : Canonical (.obj fs)) :
    loadsBytes (dumpsBytes (.obj fs)) = some (.obj fs) := by
  have hb : dropBom (dumps (.obj fs)) = dumps (.obj fs) := dropBom_cons (by decide) _
  rw [loadsBytes, dumpsBytes, decode_encode, Option.bind_some, hb]
  exact loads_dumps h

/-- **No proper suffix of the bytes of an object is read.** -/
theorem loadsBytes_suffix_eq_none {fs : Dict} (h : Canonical (.obj fs)) {p b : List UInt8}
    (hb : dumpsBytes (.obj fs) = p ++ b) (hp : p ≠ []) : loadsBytes b = none := by
  cases hd : decode b with
  | none => rw [loadsBytes, hd]; rfl
  | some s =>
    rw [loadsBytes, hd, Option.bind_some]
    obtain ⟨s', hs, hps⟩ := decode_suffix hb hd
    have hs' : s' ≠ [] := by
      intro he
      rw [he] at hps
      exact hp hps
    cases s with
    | nil => rfl
    | cons c s =>
      rw [dropBom]
      split
      · rw [append_cons] at hs
        exact loads_suffix_eq_none h hs (by simp)
      · exact loads_suffix_eq_none h hs hs'

/-! ### No control character is written -/

theorem printable_shortEscape {c e : Char} (h : shortEscape c = some e) : 0x20 ≤ e.toNat := by
  rw [shortEscape.eq_def] at h
  split at h <;> cases h <;> decide

theorem printable_digitChar : ∀ d < 16, 0x20 ≤ (Nat.digitChar d).toNat := by decide

theorem printable_escapeChar (c : Char) : ∀ x ∈ escapeChar c, 0x20 ≤ x.toNat := by
  rw [escapeChar]
  split
  · rename_i e he
    intro x hx
    rcases hx with _ | ⟨_, _ | ⟨_, ⟨⟩⟩⟩
    · decide
    · exact printable_shortEscape he
  · split
    · rename_i hlt
      intro x hx
      simp only [mem_cons, not_mem_nil, or_false] at hx
      rcases hx with rfl | rfl | rfl | rfl | rfl | rfl
      · decide
      · decide
      · decide
      · decide
      · exact printable_digitChar _ (by omega)
      · exact printable_digitChar _ (by omega)
    · rename_i hlt
      intro x hx
      rw [mem_singleton] at hx
      rw [hx]
      omega

theorem printable_dumpsString (k : String) : ∀ x ∈ dumpsString k, 0x20 ≤ x.toNat := by
  intro x hx
  rw [dumpsString, mem_cons, mem_append, mem_singleton] at hx
  rcases hx with rfl | hx | rfl
  · decide
  · obtain ⟨c, -, hx⟩ := mem_flatMap.mp hx
    exact printable_escapeChar c x hx
  · decide

theorem NumberChar.printable {c : Char} (h : NumberChar c) : 0x20 ≤ c.toNat := by
  rcases h with h | h
  · simp only [Char.isDigit, Bool.and_eq_true, decide_eq_true_eq] at h
    have := UInt32.le_iff_toNat_le.mp h.1
    exact Nat.le_trans (by decide) this
  · simp only [mem_cons, not_mem_nil, or_false] at h
    rcases h with rfl | rfl | rfl | rfl | rfl <;> decide

theorem printable_number {s : List Char} {v : Json} (h : scanNumber s = some (v, [])) :
    ∀ x ∈ s, 0x20 ≤ x.toNat := by
  obtain ⟨t, rfl, ht⟩ := scanNumber_split h
  rw [append_nil]
  intro x hx
  exact (ht x hx).printable

mutual

theorem printable_dumps : ∀ {v : Json}, Canonical v → ∀ x ∈ dumps v, 0x20 ≤ x.toNat
  | null, _ => forall_char_of_all rfl
  | bool true, _ => forall_char_of_all rfl
  | bool false, _ => forall_char_of_all rfl
  | int n, _ => printable_number (scanNumber_dumpsInt n)
  | float repr, h => by
    rcases h with rfl | rfl | rfl | h
    · exact forall_char_of_all rfl
    · exact forall_char_of_all rfl
    · exact forall_char_of_all rfl
    · exact printable_number h
  | str s, _ => printable_dumpsString s
  | arr xs, h => by
    intro x hx
    rw [dumps, mem_cons, mem_append, mem_singleton] at hx
    rcases hx with rfl | hx | rfl
    · decide
    · exact printable_dumpsItems h x hx
    · decide
  | obj fs, h => by
    intro x hx
    rw [dumps, mem_cons, mem_append, mem_singleton] at hx
    rcases hx with rfl | hx | rfl
    · decide
    · exact printable_dumpsFields h.2 x hx
    · decide

theorem printable_dumpsItems : ∀ {xs : List Json}, CanonicalItems xs →
    ∀ x ∈ dumpsItems xs, 0x20 ≤ x.toNat
  | [], _ => by simp [dumpsItems]
  | [x], h => printable_dumps h.1
  | x :: y :: xs, h => by
    intro c hc
    rw [dumpsItems, mem_append, mem_cons] at hc
    · rcases hc with hc | rfl | hc
      · exact printable_dumps h.1 c hc
      · decide
      · exact printable_dumpsItems h.2 c hc
    · simp

theorem printable_dumpsFields : ∀ {fs : Dict}, CanonicalFields fs →
    ∀ x ∈ dumpsFields fs, 0x20 ≤ x.toNat
  | [], _ => by simp [dumpsFields]
  | [(k, v)], h => by
    intro c hc
    rw [dumpsFields, mem_append, mem_cons] at hc
    rcases hc with hc | rfl | hc
    · exact printable_dumpsString k c hc
    · decide
    · exact printable_dumps h.1 c hc
  | (k, v) :: f :: fs, h => by
    intro c hc
    rw [dumpsFields, mem_append, mem_cons, mem_append, mem_cons] at hc
    · rcases hc with hc | rfl | hc | rfl | hc
      · exact printable_dumpsString k c hc
      · decide
      · exact printable_dumps h.1 c hc
      · decide
      · exact printable_dumpsFields h.2 c hc
    · simp

end

/-- **The bytes of a value are one line.** -/
theorem printable_dumpsBytes {v : Json} (h : Canonical v) : ∀ b ∈ dumpsBytes v, Printable b :=
  printable_encode (printable_dumps h)

end KolegaCode.Json
