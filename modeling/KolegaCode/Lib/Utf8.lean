import Mathlib.Data.List.Basic

/-!
# Lib — UTF-8

`encode` and `decode` are `str.encode("utf-8")` and `bytes.decode("utf-8")` on lists of characters
and bytes.  A reader that starts in the middle of an encoded text either starts between two
characters or fails (`decode_suffix`), and a text without control characters has none among its
bytes (`printable_encode`).
-/

namespace KolegaCode.Utf8

open List

/-- `text.encode("utf-8")`. -/
def encode (s : List Char) : List UInt8 := s.flatMap String.utf8EncodeChar

/-- `data.decode("utf-8")`; `none` is a `UnicodeDecodeError`. -/
def decode (b : List UInt8) : Option (List Char) := b.toByteArray.utf8Decode?.map Array.toList

@[simp] theorem encode_nil : encode [] = [] := rfl

theorem encode_cons (c : Char) (s : List Char) :
    encode (c :: s) = String.utf8EncodeChar c ++ encode s := rfl

@[simp] theorem encode_append (s t : List Char) : encode (s ++ t) = encode s ++ encode t :=
  flatMap_append

theorem toByteArray_encode (s : List Char) : (encode s).toByteArray = s.utf8Encode := rfl

@[simp] theorem decode_encode (s : List Char) : decode (encode s) = some s := by
  rw [decode, toByteArray_encode, utf8Decode?_utf8Encode]
  rfl

variable {s t : List Char} {b q p r : List UInt8} {c : Char}

theorem encode_injective (h : encode s = encode t) : s = t := by
  have hd := congrArg decode h
  rw [decode_encode, decode_encode] at hd
  exact Option.some.inj hd

/-- What is decoded is the encoding of what it is decoded to. -/
theorem encode_of_decode (h : decode b = some s) : b = encode s := by
  rw [decode, Option.map_eq_some_iff] at h
  obtain ⟨a, ha, rfl⟩ := h
  have hsome : b.toByteArray.utf8Decode?.isSome := by rw [ha]; rfl
  have he : (b.toByteArray.utf8Decode?.get hsome).toList.utf8Encode = b.toByteArray :=
    ByteArray.utf8Encode_get_utf8Decode?
  simp only [ha, Option.get_some] at he
  rw [← toByteArray_encode] at he
  have hd := congrArg (fun x => x.data.toList) he
  simpa using hd.symm

theorem encode_eq_nil : encode s = [] ↔ s = [] := by
  refine ⟨fun h => encode_injective h, ?_⟩
  intro h
  rw [h]
  rfl

theorem firstByte_encodeChar {b : UInt8} (h : String.utf8EncodeChar c = b :: q) :
    b.IsUTF8FirstByte := by
  have hlt : 0 < (String.utf8EncodeChar c).length := by rw [h]; exact Nat.succ_pos _
  have hfirst : (String.utf8EncodeChar c)[0].IsUTF8FirstByte :=
    UInt8.isUTF8FirstByte_getElem_utf8EncodeChar.mpr rfl
  simpa only [h, getElem_cons_zero] using hfirst

theorem not_firstByte_encodeChar {b : UInt8} (h : String.utf8EncodeChar c = p ++ b :: q)
    (hp : p ≠ []) : ¬ b.IsUTF8FirstByte := by
  intro hb
  have hlt : p.length < (String.utf8EncodeChar c).length := by simp [h]
  have he : (String.utf8EncodeChar c)[p.length] = b := by simp [h]
  rw [← he, UInt8.isUTF8FirstByte_getElem_utf8EncodeChar, length_eq_zero_iff] at hb
  exact hp hb

theorem encodeChar_ne_nil (c : Char) : String.utf8EncodeChar c ≠ [] :=
  ne_nil_of_length_pos (by simp [c.utf8Size_pos])

theorem encodeChar_tail_append {d : Char} {s : List UInt8} (hc : String.utf8EncodeChar c = p ++ q)
    (hp : p ≠ []) (hq : q ≠ []) : String.utf8EncodeChar d ++ s ≠ q ++ r := by
  intro h
  obtain ⟨b, q', rfl⟩ := exists_cons_of_ne_nil hq
  obtain ⟨b', s', hd⟩ := exists_cons_of_ne_nil (encodeChar_ne_nil d)
  rw [hd, cons_append, cons_append, List.cons.injEq] at h
  exact not_firstByte_encodeChar hc hp (h.1 ▸ firstByte_encodeChar hd)

theorem encodeChar_tail (hc : String.utf8EncodeChar c = p ++ q) (hp : p ≠ []) (hq : q ≠ []) :
    encode t ≠ q ++ r := by
  cases t with
  | nil => exact fun h => hq (append_eq_nil_iff.mp h.symm).1
  | cons d t => exact encodeChar_tail_append hc hp hq

/-- **A reader that starts in the middle starts between two characters, or fails.** -/
theorem decode_suffix (h : encode s = p ++ b) (hb : decode b = some t) :
    ∃ s', s = s' ++ t ∧ p = encode s' := by
  rw [encode_of_decode hb] at h
  induction s generalizing p with
  | nil =>
    obtain ⟨hp, ht⟩ := append_eq_nil_iff.mp h.symm
    exact ⟨[], by rw [encode_eq_nil.mp ht]; rfl, hp⟩
  | cons c s ih =>
    by_cases hp : p = []
    · rw [hp, nil_append] at h
      exact ⟨[], encode_injective h, hp⟩
    rw [encode_cons] at h
    rcases append_eq_append_iff.mp h with ⟨q, rfl, hs⟩ | ⟨q, hc, ht⟩
    · obtain ⟨s', rfl, rfl⟩ := ih hs
      exact ⟨c :: s', rfl, rfl⟩
    · by_cases hq : q = []
      · rw [hq, append_nil] at hc
        rw [hq, nil_append] at ht
        exact ⟨[c], congrArg _ (encode_injective ht.symm), by rw [← hc, encode_cons]; simp⟩
      · exact absurd ht (encodeChar_tail hc hp hq)

/-! ### Decoding what is left of a cut text -/

/-- The character `data` starts with. -/
def decodeChar? (data : List UInt8) : Option Char := data.toByteArray.utf8DecodeChar? 0

theorem decodeChar?_encodeChar_append (c : Char) (r : List UInt8) :
    decodeChar? (String.utf8EncodeChar c ++ r) = some c := by
  rw [decodeChar?, toByteArray_append]
  exact ByteArray.utf8DecodeChar?_utf8EncodeChar_append

theorem decodeChar?_eq_some (h : decodeChar? b = some c) :
    ∃ r, b = String.utf8EncodeChar c ++ r := by
  obtain ⟨r, hr⟩ := ByteArray.exists_of_utf8DecodeChar?_eq_some h
  exact ⟨r.data.toList, by simpa using congrArg (fun x => x.data.toList) hr⟩

/-- The characters of `data`, `n` bytes behind its start.  Bytes that start no character are left
out one by one; Python leaves out the longest start of a character at once. -/
def decodeFrom : Nat → List UInt8 → List Char
  | _, [] => []
  | n + 1, _ :: rest => decodeFrom n rest
  | 0, b :: rest =>
    match decodeChar? (b :: rest) with
    | some c => c :: decodeFrom (c.utf8Size - 1) rest
    | none => decodeFrom 0 rest

/-- `data.decode("utf-8", errors="ignore")`. -/
def decodeIgnore (data : List UInt8) : List Char := decodeFrom 0 data

theorem decodeFrom_length (a r : List UInt8) : decodeFrom a.length (a ++ r) = decodeFrom 0 r := by
  induction a with
  | nil => rfl
  | cons b a ih => rwa [length_cons, cons_append, decodeFrom]

theorem decodeIgnore_encodeChar_append (c : Char) (r : List UInt8) :
    decodeIgnore (String.utf8EncodeChar c ++ r) = c :: decodeIgnore r := by
  obtain ⟨b, q, hc⟩ := exists_cons_of_ne_nil (encodeChar_ne_nil c)
  have hsize : c.utf8Size - 1 = q.length := by
    rw [← String.length_utf8EncodeChar, hc, length_cons, Nat.add_sub_cancel]
  have hd := decodeChar?_encodeChar_append c r
  rw [hc, cons_append] at hd ⊢
  rw [decodeIgnore, decodeFrom, hd]
  show c :: decodeFrom (c.utf8Size - 1) (q ++ r) = _
  rw [hsize, decodeFrom_length, decodeIgnore]

@[simp] theorem decodeIgnore_encode (s : List Char) : decodeIgnore (encode s) = s := by
  induction s with
  | nil => rfl
  | cons c s ih => rw [encode_cons, decodeIgnore_encodeChar_append, ih]

theorem decodeIgnore_cons_none {b : UInt8} (h : decodeChar? (b :: r) = none) :
    decodeIgnore (b :: r) = decodeIgnore r := by
  rw [decodeIgnore, decodeFrom, h]
  rfl

/-- A character that is cut off is left out. -/
theorem decodeIgnore_cut {a : List UInt8} (h : String.utf8EncodeChar c = a ++ (p ++ q))
    (hq : q ≠ []) : decodeIgnore p = [] := by
  induction p generalizing a with
  | nil => rfl
  | cons b p ih =>
    rw [decodeIgnore_cons_none, ih (a := a ++ [b]) (by rw [h]; simp)]
    cases hd : decodeChar? (b :: p) with
    | none => rfl
    | some d =>
      obtain ⟨r, hr⟩ := decodeChar?_eq_some hd
      by_cases ha : a = []
      · -- the character decoded is the one cut off, and ends before the cut
        have hcd := decodeChar?_encodeChar_append c []
        rw [append_nil, h, ha, nil_append, hr, append_assoc,
          decodeChar?_encodeChar_append, Option.some_inj] at hcd
        rw [ha, hr, hcd, nil_append, append_assoc, self_eq_append_right] at h
        exact absurd (append_eq_nil_iff.mp h).2 hq
      · refine absurd ?_ (encodeChar_tail_append (d := d) (r := []) h ha (cons_ne_nil b _)
          (s := r ++ q))
        rw [← append_assoc, ← hr, append_nil]

/-- What is left of a character behind its first bytes is left out. -/
theorem decodeIgnore_skip (r : List UInt8) (h : String.utf8EncodeChar c = p ++ q) (hp : p ≠ []) :
    decodeIgnore (q ++ r) = decodeIgnore r := by
  induction q generalizing p with
  | nil => rfl
  | cons b q ih =>
    rw [cons_append, decodeIgnore_cons_none, ih (p := p ++ [b]) (by rw [h]; simp) (by simp)]
    cases hd : decodeChar? (b :: (q ++ r)) with
    | none => rfl
    | some d =>
      obtain ⟨r', hr⟩ := decodeChar?_eq_some hd
      exact absurd hr.symm (encodeChar_tail_append h hp (cons_ne_nil b q))

/-- The byte of a line feed stands in no other character. -/
theorem eq_newline_of_mem (h : 0x0A ∈ String.utf8EncodeChar c) : c = '\n' := by
  obtain ⟨p, q, hc⟩ := append_of_mem h
  have hp : p = [] := by
    by_contra hp
    exact not_firstByte_encodeChar hc hp (by decide)
  have hd := decodeChar?_encodeChar_append c []
  rw [hc, hp, append_nil] at hd
  exact Option.some.inj (hd.symm.trans (decodeChar?_encodeChar_append '\n' q))

theorem count_encodeChar (c : Char) :
    (String.utf8EncodeChar c).count 0x0A = if c = '\n' then 1 else 0 := by
  by_cases h : c = '\n'
  · rw [h]
    rfl
  · rw [if_neg h, count_eq_zero]
    exact fun hb => h (eq_newline_of_mem hb)

theorem count_encode (s : List Char) : (encode s).count 0x0A = s.count '\n' := by
  induction s with
  | nil => rfl
  | cons c s ih =>
    rw [encode_cons, count_append, ih, count_encodeChar, count_cons, Nat.add_comm]
    simp only [beq_iff_eq]

theorem getLast?_encode (s : List Char) :
    (encode s).getLast? = some 0x0A ↔ s.getLast? = some '\n' := by
  rcases eq_nil_or_concat' s with rfl | ⟨s, c, rfl⟩
  · simp
  have hlast : (encode (s ++ [c])).getLast? = (String.utf8EncodeChar c).getLast? := by
    rw [encode_append, show encode [c] = String.utf8EncodeChar c from append_nil _,
      getLast?_append_of_ne_nil _ (encodeChar_ne_nil c)]
  rw [hlast, getLast?_concat, Option.some_inj]
  refine ⟨fun h => eq_newline_of_mem (mem_of_getLast? h), ?_⟩
  rintro rfl
  rfl

/-- **The start of an encoded text** decodes to the start of the text; what is cut off of the next
character has no line feed. -/
theorem decodeIgnore_prefix (h : encode s = p ++ q) :
    ∃ s₁ s₂ cut, s = s₁ ++ s₂ ∧ decodeIgnore p = s₁ ∧ p = encode s₁ ++ cut ∧ 0x0A ∉ cut := by
  induction s generalizing p with
  | nil =>
    obtain ⟨rfl, -⟩ := append_eq_nil_iff.mp h.symm
    exact ⟨[], [], [], rfl, rfl, rfl, not_mem_nil⟩
  | cons c s ih =>
    rw [encode_cons] at h
    rcases append_eq_append_iff.mp h with ⟨p', rfl, hs⟩ | ⟨q', hc, -⟩
    · obtain ⟨s₁, s₂, cut, rfl, hd, rfl, hcut⟩ := ih hs
      exact ⟨c :: s₁, s₂, cut, rfl, by rw [decodeIgnore_encodeChar_append, hd],
        by rw [encode_cons, append_assoc], hcut⟩
    by_cases hq : q' = []
    · rw [hq, append_nil] at hc
      have hp := decodeIgnore_encode [c]
      rw [encode_cons, encode_nil, append_nil, hc] at hp
      exact ⟨[c], s, [], rfl, hp, by rw [← hc]; simp [encode_cons], not_mem_nil⟩
    · refine ⟨[], c :: s, p, rfl, decodeIgnore_cut (a := []) hc hq, rfl, fun hb => ?_⟩
      -- a line feed is one byte long, so nothing of it stands behind the cut
      obtain rfl := eq_newline_of_mem (hc ▸ mem_append_left q' hb)
      exact hq ((append_eq_singleton_iff.mp hc.symm).resolve_left (fun h => ne_nil_of_mem hb h.1)).2

/-- **The end of an encoded text** decodes to the end of the text; what is skipped in front of it
has no line feed. -/
theorem decodeIgnore_suffix (h : encode s = p ++ q) :
    ∃ s₁ s₂ skip, s = s₁ ++ s₂ ∧ decodeIgnore q = s₂ ∧ q = skip ++ encode s₂ ∧ 0x0A ∉ skip := by
  induction s generalizing p with
  | nil =>
    obtain ⟨-, rfl⟩ := append_eq_nil_iff.mp h.symm
    exact ⟨[], [], [], rfl, rfl, rfl, not_mem_nil⟩
  | cons c s ih =>
    by_cases hp : p = []
    · rw [hp, nil_append] at h
      exact ⟨[], c :: s, [], rfl, h ▸ decodeIgnore_encode _, h.symm, not_mem_nil⟩
    rw [encode_cons] at h
    rcases append_eq_append_iff.mp h with ⟨p', rfl, hs⟩ | ⟨q', hc, rfl⟩
    · obtain ⟨s₁, s₂, skip, rfl, hd⟩ := ih hs
      exact ⟨c :: s₁, s₂, skip, rfl, hd⟩
    · refine ⟨[c], s, q', rfl, by rw [decodeIgnore_skip _ hc hp, decodeIgnore_encode], rfl, ?_⟩
      intro hb
      obtain ⟨a, b, rfl⟩ := append_of_mem hb
      rw [← append_assoc] at hc
      exact not_firstByte_encodeChar hc (append_ne_nil_of_left_ne_nil hp _) (by decide)

/-- A byte that is no control character of ASCII. -/
def Printable (b : UInt8) : Prop := 0x20 ≤ b.toNat

instance (b : UInt8) : Decidable (Printable b) := inferInstanceAs (Decidable (_ ≤ _))

theorem printable_ofNat {n : Nat} (h : 0x20 ≤ n) (hn : n < 0x100) : Printable (UInt8.ofNat n) := by
  rw [Printable, UInt8.toNat_ofNat', Nat.mod_eq_of_lt hn]
  exact h

theorem printable_encodeChar (h : 0x20 ≤ c.toNat) : ∀ b ∈ String.utf8EncodeChar c, Printable b := by
  have hv : 0x20 ≤ c.val.toNat := h
  intro b hb
  rw [String.utf8EncodeChar] at hb
  split at hb
  · rw [mem_singleton] at hb
    rw [hb]
    exact printable_ofNat hv (by omega)
  -- every byte of a longer encoding is at least 0x80
  split at hb
  · rcases hb with _ | ⟨_, _ | ⟨_, ⟨⟩⟩⟩ <;> exact printable_ofNat (by omega) (by omega)
  split at hb
  · rcases hb with _ | ⟨_, _ | ⟨_, _ | ⟨_, ⟨⟩⟩⟩⟩ <;> exact printable_ofNat (by omega) (by omega)
  · rcases hb with _ | ⟨_, _ | ⟨_, _ | ⟨_, _ | ⟨_, ⟨⟩⟩⟩⟩⟩ <;>
      exact printable_ofNat (by omega) (by omega)

theorem printable_encode (h : ∀ c ∈ s, 0x20 ≤ c.toNat) : ∀ b ∈ encode s, Printable b := by
  intro b hb
  obtain ⟨c, hc, hb⟩ := mem_flatMap.mp hb
  exact printable_encodeChar (h c hc) b hb

end KolegaCode.Utf8
