import KolegaCode.Lib.JsonHooks
import KolegaCode.Llm.OpenAi

/-!
# Llm — the arguments of a call are read back

`json.dumps` with its default separators writes every character outside ASCII as an escape.  What
it wrote is read back: `loads_dumps`.  The reader merges the items of a dictionary that have the
same key, which is seen where the strings of a value were changed before it was written.
-/

namespace KolegaCode.OpenAi

open List Option
open Json (hexValue scanHex scanEscape scanString scanOnce scanItems scanPairs scanNumber loads
  dictOf skipWs Delimited Canonical CanonicalItems CanonicalFields)

/-! ### Characters -/

theorem scanHex_escapeUnit {n : Nat} (h : n < 0x10000) (s : List Char) :
    scanHex ((escapeUnit n).drop 2 ++ s) = some (n, s) := by
  have hn : 4096 * (n / 4096) + 256 * (n / 256 % 16) + 16 * (n / 16 % 16) + n % 16 = n := by omega
  simp only [escapeUnit, drop_succ_cons, drop_zero, cons_append, nil_append, scanHex]
  rw [Json.hexValue_digitChar _ (by omega), Json.hexValue_digitChar _ (by omega),
    Json.hexValue_digitChar _ (by omega), Json.hexValue_digitChar _ (by omega)]
  simp only [bind_eq_bind, bind_some, hn]

theorem escapeUnit_append (n : Nat) (s : List Char) :
    escapeUnit n ++ s = '\\' :: 'u' :: ((escapeUnit n).drop 2 ++ s) := rfl

theorem toNat_not_surrogate (c : Char) : ¬ (0xd800 ≤ c.toNat ∧ c.toNat ≤ 0xdfff) := by
  have h := c.valid
  simp only [UInt32.isValidChar, Nat.isValidChar] at h
  have htoNat : c.toNat = c.val.toNat := rfl
  omega

theorem toNat_lt (c : Char) : c.toNat < 0x110000 := by
  have h := c.valid
  simp only [UInt32.isValidChar, Nat.isValidChar] at h
  have htoNat : c.toNat = c.val.toNat := rfl
  omega

theorem scanEscape_unit {c : Char} (h : c.toNat < 0x10000) (s : List Char) :
    scanEscape ('u' :: ((escapeUnit c.toNat).drop 2 ++ s)) = some (c, s) := by
  have hno := toNat_not_surrogate c
  rw [scanEscape, scanHex_escapeUnit h]
  simp only [bind_eq_bind, bind_some]
  rw [if_neg (by omega), if_neg (by omega), Char.ofNat_toNat]

theorem scanEscape_surrogates {n m : Nat} (hn : 0xd800 ≤ n ∧ n ≤ 0xdbff)
    (hm : 0xdc00 ≤ m ∧ m ≤ 0xdfff) (s : List Char) :
    scanEscape ('u' :: ((escapeUnit n).drop 2 ++ (escapeUnit m ++ s))) =
      some (Char.ofNat (0x10000 + (n - 0xd800) * 1024 + (m - 0xdc00)), s) := by
  rw [scanEscape, scanHex_escapeUnit (by omega)]
  simp only [bind_eq_bind, bind_some]
  rw [if_pos hn, escapeUnit_append]
  simp only [scanHex_escapeUnit (show m < 0x10000 by omega), bind_some]
  rw [if_pos hm]

theorem scanEscape_pair {c : Char} (h : 0x10000 ≤ c.toNat) (s : List Char) :
    scanEscape ('u' :: ((escapeUnit (0xd800 + (c.toNat - 0x10000) / 1024)).drop 2 ++
      (escapeUnit (0xdc00 + (c.toNat - 0x10000) % 1024) ++ s))) = some (c, s) := by
  have hlt := toNat_lt c
  have hc : 0x10000 + (0xd800 + (c.toNat - 0x10000) / 1024 - 0xd800) * 1024 +
      (0xdc00 + (c.toNat - 0x10000) % 1024 - 0xdc00) = c.toNat := by omega
  rw [scanEscape_surrogates ⟨by omega, by omega⟩ ⟨by omega, by omega⟩, hc, Char.ofNat_toNat]

theorem scanString_escapeAscii (c : Char) (fuel : Nat) (s : List Char) :
    scanString (fuel + 1) (escapeAscii c ++ s) =
      (scanString fuel s).bind fun p => some (c :: p.1, p.2) := by
  rw [escapeAscii]
  split
  · next h =>
    rw [append_assoc, escapeUnit_append, scanString, if_neg (by decide), if_pos rfl,
      scanEscape_pair h]
    rfl
  · split
    · rw [escapeUnit_append, scanString, if_neg (by decide), if_pos rfl, scanEscape_unit (by omega)]
      rfl
    · exact Json.scanString_escapeChar c fuel s

theorem scanString_ascii (cs r : List Char) (fuel : Nat) (h : cs.length < fuel) :
    scanString fuel (cs.flatMap escapeAscii ++ '"' :: r) = some (cs, r) := by
  induction cs generalizing fuel with
  | nil =>
    obtain ⟨f, rfl⟩ := Nat.exists_eq_succ_of_ne_zero (Nat.ne_of_gt h)
    rfl
  | cons c cs ih =>
    obtain ⟨f, rfl⟩ := Nat.exists_eq_succ_of_ne_zero (show fuel ≠ 0 by omega)
    rw [flatMap_cons, append_assoc, scanString_escapeAscii, ih f (by simpa using h)]
    rfl

theorem one_le_length_escapeAscii (c : Char) : 1 ≤ (escapeAscii c).length := by
  rw [escapeAscii]
  split
  · simp [escapeUnit]
  · split
    · simp [escapeUnit]
    · rw [Json.escapeChar]
      split
      · exact Nat.le_add_left 1 1
      · split <;> simp

theorem length_le_ascii (cs : List Char) : cs.length ≤ (cs.flatMap escapeAscii).length := by
  induction cs with
  | nil => exact Nat.le_refl 0
  | cons c cs ih =>
    have hc := one_le_length_escapeAscii c
    rw [flatMap_cons, length_append, length_cons]
    omega

/-- A string is read back after its opening quote. -/
theorem scanString_dumpsAscii (k : String) (r : List Char) :
    scanString ((k.toList.flatMap escapeAscii ++ '"' :: r).length + 1)
      (k.toList.flatMap escapeAscii ++ '"' :: r) = some (k.toList, r) := by
  refine scanString_ascii _ r _ ?_
  have h := length_le_ascii k.toList
  rw [length_append]
  omega

theorem dumpsAscii_append (k : String) (r : List Char) :
    dumpsAscii k ++ r = '"' :: (k.toList.flatMap escapeAscii ++ '"' :: r) := by
  simp [dumpsAscii]

theorem readsString_dumpsAscii (k : String) : Json.ReadsString (dumpsAscii k) k :=
  ⟨k.toList.flatMap escapeAscii ++ ['"'], by simp [dumpsAscii], fun r => by
    simpa using scanString_dumpsAscii k r⟩

/-! ### Values -/

mutual

/-- The texts of the floats in a value are those of floats. -/
def Readable : Json → Prop
  | .float s =>
    s = "NaN" ∨ s = "Infinity" ∨ s = "-Infinity" ∨ scanNumber s.toList = some (.float s, [])
  | .arr xs => ReadableItems xs
  | .obj fs => ReadableFields fs
  | _ => True

def ReadableItems : List Json → Prop
  | [] => True
  | x :: xs => Readable x ∧ ReadableItems xs

def ReadableFields : Json.Dict → Prop
  | [] => True
  | (_, v) :: fs => Readable v ∧ ReadableFields fs

end

mutual

/-- The value with the items of each dictionary merged that have the same key. -/
def merged : Json → Json
  | .arr xs => .arr (mergedItems xs)
  | .obj fs => .obj (dictOf (mergedFields fs))
  | v => v

def mergedItems : List Json → List Json
  | [] => []
  | x :: xs => merged x :: mergedItems xs

def mergedFields : Json.Dict → Json.Dict
  | [] => []
  | (k, v) :: fs => (k, merged v) :: mergedFields fs

end

mutual

theorem Readable.of_canonical : ∀ {v : Json}, Canonical v → Readable v ∧ merged v = v
  | .null, _ => ⟨trivial, rfl⟩
  | .bool _, _ => ⟨trivial, rfl⟩
  | .int _, _ => ⟨trivial, rfl⟩
  | .str _, _ => ⟨trivial, rfl⟩
  | .float _, h => ⟨h, rfl⟩
  | .arr _, h =>
    ⟨(ReadableItems.of_canonical h).1, congrArg Json.arr (ReadableItems.of_canonical h).2⟩
  | .obj fs, h => by
    obtain ⟨hr, hm⟩ := ReadableFields.of_canonical h.2
    exact ⟨hr, by rw [merged, hm, Json.dictOf_eq_self h.1]⟩

theorem ReadableItems.of_canonical : ∀ {xs : List Json}, CanonicalItems xs →
    ReadableItems xs ∧ mergedItems xs = xs
  | [], _ => ⟨trivial, rfl⟩
  | x :: xs, h => by
    obtain ⟨hx, hmx⟩ := Readable.of_canonical h.1
    obtain ⟨hxs, hmxs⟩ := ReadableItems.of_canonical h.2
    exact ⟨⟨hx, hxs⟩, by rw [mergedItems, hmx, hmxs]⟩

theorem ReadableFields.of_canonical : ∀ {fs : Json.Dict}, CanonicalFields fs →
    ReadableFields fs ∧ mergedFields fs = fs
  | [], _ => ⟨trivial, rfl⟩
  | (k, v) :: fs, h => by
    obtain ⟨hv, hmv⟩ := Readable.of_canonical h.1
    obtain ⟨hfs, hmfs⟩ := ReadableFields.of_canonical h.2
    exact ⟨⟨hv, hfs⟩, by rw [mergedFields, hmv, hmfs]⟩

end

mutual

/-- The text of a value reads as the value, merged. -/
theorem reads_dumps : ∀ (v : Json), Readable v → Json.Reads Json.Hooks.none (dumps v) (merged v)
  | .null, _ => Json.reads_dumps Json.Hooks.plain_none .null trivial (.inl rfl)
  | .bool true, _ => Json.reads_dumps Json.Hooks.plain_none (.bool true) trivial (.inl rfl)
  | .bool false, _ => Json.reads_dumps Json.Hooks.plain_none (.bool false) trivial (.inl rfl)
  | .int _, _ => Json.reads_number (Json.scanNumber_dumpsInt _)
  | .float _, hv => Json.reads_float hv (.inr fun _ => rfl)
  | .str s, _ => Json.reads_string (readsString_dumpsAscii s)
  | .arr [], _ => Json.reads_dumps Json.Hooks.plain_none (.arr []) trivial (.inl rfl)
  | .arr (x :: xs), hv => .arr (readsItems_dumps (x :: xs) (by simp) hv)
  | .obj [], _ =>
    Json.reads_dumps Json.Hooks.plain_none (.obj []) ⟨nodup_nil, trivial⟩ (.inl rfl)
  | .obj (p :: fs), hv => .obj (readsFields_dumps (p :: fs) (by simp) hv) rfl

theorem readsItems_dumps : ∀ (xs : List Json), xs ≠ [] → ReadableItems xs →
    Json.ReadsItems Json.Hooks.none (dumpsItems xs ++ [']']) (mergedItems xs)
  | [], h, _ => absurd rfl h
  | [x], _, hv => .last (reads_dumps x hv.1)
  | x :: y :: ys, _, hv => by
    rw [dumpsItems]
    · simp only [List.append_assoc, List.cons_append]
      exact .cons (w := [' ']) (reads_dumps x hv.1) (forall_mem_singleton.mpr rfl)
        (readsItems_dumps (y :: ys) (by simp) hv.2)
    · simp

theorem readsFields_dumps : ∀ (fs : Json.Dict), fs ≠ [] → ReadableFields fs →
    Json.ReadsFields Json.Hooks.none (dumpsFields fs ++ ['}']) (mergedFields fs)
  | [], h, _ => absurd rfl h
  | [(k, v)], _, hv => by
    rw [dumpsFields]
    simp only [List.append_assoc, List.cons_append]
    exact .last (w := [' ']) (readsString_dumpsAscii k) (forall_mem_singleton.mpr rfl)
      (reads_dumps v hv.1)
  | (k, v) :: p :: fs, _, hv => by
    rw [dumpsFields]
    · simp only [append_assoc, cons_append]
      exact .cons (w := [' ']) (readsString_dumpsAscii k) (forall_mem_singleton.mpr rfl)
        (reads_dumps v hv.1) (readsFields_dumps (p :: fs) (by simp) hv.2)
    · simp

end

/-- **The round trip**: what is read back from the text of a value is the value with its
dictionaries merged. -/
theorem loads_dumps {v : Json} (hv : Readable v) : loads (dumps v) = some (merged v) := by
  rw [Json.loads_eq, (reads_dumps v hv).loadsWith]
  rfl

end KolegaCode.OpenAi
