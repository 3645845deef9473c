import KolegaCode.Lib.JsonHooks
import KolegaCode.Lib.Utf8
import KolegaCode.Lib.Except
import Mathlib.Data.List.Sort
import Mathlib.Algebra.BigOperators.Group.List.Basic
import Mathlib.Algebra.GroupWithZero.Nat

/-!
# Lib — JSON with sorted keys

`json.dumps` with `sort_keys`.  The bytes of what it writes are a sum over the value, whatever order
the keys stand in (`length_encode_dumpsSorted`).  What the strict hooks read has no key twice in any
of its dictionaries (`uniqueKeys_of_loadsWith`).
-/

namespace KolegaCode.Json

open List
open Utf8 (encode)

section

variable (floatText : String → String)

/-- Texts with commas between them. -/
def commas (texts : List (List Char)) : List Char := [','].intercalate texts

mutual

/-- `json.dumps(value, separators=(",", ":"), ensure_ascii=False, sort_keys=True)`. -/
def dumpsSorted : Json → List Char
  | .float s => (floatText s).toList
  | .arr xs => '[' :: (commas (itemTexts xs) ++ [']'])
  | .obj fs =>
    '{' :: (commas (((fieldTexts fs).insertionSort fun p q => p.1 ≤ q.1).map fun p =>
      dumpsString p.1 ++ ':' :: p.2) ++ ['}'])
  | .null => dumps .null
  | .bool b => dumps (.bool b)
  | .int n => dumps (.int n)
  | .str s => dumps (.str s)

def itemTexts : List Json → List (List Char)
  | [] => []
  | x :: xs => dumpsSorted x :: itemTexts xs

def fieldTexts : Dict → List (String × List Char)
  | [] => []
  | (k, v) :: fs => (k, dumpsSorted v) :: fieldTexts fs

end

/-! ### The number of bytes -/

/-- The bytes of a string with its quotes. -/
def stringSize (s : String) : Nat := (encode (dumpsString s)).length

mutual

/-- The bytes a value is written in. -/
def size : Json → Nat
  | .float s => (encode (floatText s).toList).length
  | .arr xs => 2 + sizeItems xs + (xs.length - 1)
  | .obj fs => 2 + sizeFields fs + (fs.length - 1)
  | .null => 4
  | .bool b => if b then 4 else 5
  | .int n => (dumpsInt n).length
  | .str s => stringSize s

def sizeItems : List Json → Nat
  | [] => 0
  | x :: xs => size x + sizeItems xs

def sizeFields : Dict → Nat
  | [] => 0
  | (k, v) :: fs => stringSize k + 1 + size v + sizeFields fs

end

theorem length_encode_commas (texts : List (List Char)) :
    (encode (commas texts)).length =
      (texts.map fun t => (encode t).length).sum + (texts.length - 1) := by
  cases texts with
  | nil => rfl
  | cons t texts =>
    induction texts generalizing t with
    | nil => simp [commas, List.intercalate]
    | cons u texts ih =>
      have hcommas : commas (t :: u :: texts) = t ++ ',' :: commas (u :: texts) := by
        simp [commas, List.intercalate]
      rw [hcommas, Utf8.encode_append, length_append, Utf8.encode_cons, length_append, ih]
      simp only [map_cons, sum_cons, length_cons]
      have hcomma : (String.utf8EncodeChar ',').length = 1 := by decide
      omega

theorem length_encode_of_ascii {s : List Char} (h : ∀ c ∈ s, c.toNat < 0x80) :
    (encode s).length = s.length := by
  induction s with
  | nil => rfl
  | cons c s ih =>
    have hc : (String.utf8EncodeChar c).length = 1 := by
      rw [String.length_utf8EncodeChar, Char.utf8Size, if_pos]
      exact Nat.le_of_lt_succ (h c mem_cons_self)
    rw [Utf8.encode_cons, length_append, hc, ih fun d hd => h d (mem_cons_of_mem _ hd),
      length_cons, Nat.add_comm]

theorem length_encode_dumpsInt (n : Int) : (encode (dumpsInt n)).length = (dumpsInt n).length := by
  have hdigit : ∀ m : Nat, ∀ c ∈ Nat.toDigits 10 m, c.toNat < 0x80 := by
    intro m c hc
    have h := Nat.isDigit_of_mem_toDigits (by decide) (by decide) hc
    have hrange : 0x30 ≤ c.toNat ∧ c.toNat ≤ 0x39 := by
      simpa [Char.isDigit, UInt32.le_iff_toNat_le] using h
    omega
  refine length_encode_of_ascii fun c hc => ?_
  cases n with
  | ofNat m => exact hdigit m c hc
  | negSucc m =>
    rcases mem_cons.mp hc with rfl | hc
    · decide
    · exact hdigit (m + 1) c hc

theorem length_itemTexts (xs : List Json) : (itemTexts floatText xs).length = xs.length := by
  induction xs with
  | nil => rfl
  | cons x xs ih => simp [itemTexts, ih]

theorem length_fieldTexts (fs : Dict) : (fieldTexts floatText fs).length = fs.length := by
  induction fs with
  | nil => rfl
  | cons p fs ih => simp [fieldTexts, ih]

theorem sizeFields_eq (fs : Dict) :
    sizeFields floatText fs =
      (fs.map fun p => stringSize p.1 + 1 + size floatText p.2).sum := by
  induction fs with
  | nil => rfl
  | cons p fs ih => rw [sizeFields, ih, map_cons, sum_cons]

theorem sizeFields_perm {fs gs : Dict} (h : fs.Perm gs) :
    sizeFields floatText fs = sizeFields floatText gs := by
  rw [sizeFields_eq, sizeFields_eq]
  exact (h.map _).sum_eq

theorem size_obj_perm {fs gs : Dict} (h : fs.Perm gs) :
    size floatText (.obj fs) = size floatText (.obj gs) := by
  rw [size, size, sizeFields_perm floatText h, h.length_eq]

mutual

/-- **The bytes of the encoding with sorted keys.** -/
theorem length_encode_dumpsSorted :
    ∀ v : Json, (encode (dumpsSorted floatText v)).length = size floatText v
  | .float _ => by rw [dumpsSorted, size]
  | .arr xs => by
    rw [dumpsSorted, size, Utf8.encode_cons, length_append, Utf8.encode_append,
      length_append, length_encode_commas, sum_itemTexts xs, length_itemTexts]
    have hopen : (String.utf8EncodeChar '[').length = 1 := by decide
    have hclose : (encode [']']).length = 1 := by decide
    omega
  | .obj fs => by
    have hperm := perm_insertionSort (fun p q : String × List Char => p.1 ≤ q.1)
      (fieldTexts floatText fs)
    rw [dumpsSorted, size, Utf8.encode_cons, length_append, Utf8.encode_append,
      length_append, length_encode_commas, map_map, (hperm.map _).sum_eq,
      sum_fieldTexts fs, length_map, hperm.length_eq, length_fieldTexts]
    have hopen : (String.utf8EncodeChar '{').length = 1 := by decide
    have hclose : (encode ['}']).length = 1 := by decide
    omega
  | .null | .bool true | .bool false => by
    rw [dumpsSorted, size]
    decide
  | .int n => by rw [dumpsSorted, size, dumps, length_encode_dumpsInt]
  | .str s => by rw [dumpsSorted, size, dumps, stringSize]

theorem sum_itemTexts : ∀ xs : List Json,
    ((itemTexts floatText xs).map fun t => (encode t).length).sum = sizeItems floatText xs
  | [] => rfl
  | x :: xs => by
    rw [itemTexts, map_cons, sum_cons, length_encode_dumpsSorted x, sum_itemTexts xs, sizeItems]

theorem sum_fieldTexts : ∀ fs : Dict,
    ((fieldTexts floatText fs).map ((fun t => (encode t).length) ∘ fun p =>
      dumpsString p.1 ++ ':' :: p.2)).sum = sizeFields floatText fs
  | [] => rfl
  | (k, v) :: fs => by
    rw [fieldTexts, map_cons, sum_cons, sum_fieldTexts fs, sizeFields]
    simp only [Function.comp_apply, Utf8.encode_append, Utf8.encode_cons, length_append,
      length_encode_dumpsSorted v, stringSize]
    have hcolon : (String.utf8EncodeChar ':').length = 1 := by decide
    omega

end

end

mutual

/-- `dumps` writes as many bytes. -/
theorem length_encode_dumps : ∀ v : Json, (encode (dumps v)).length = size id v
  | .float _ => by rw [dumps, size, id]
  | .arr xs => by
    have hopen : (String.utf8EncodeChar '[').length = 1 := by decide
    have hclose : (encode [']']).length = 1 := by decide
    rw [dumps, size, Utf8.encode_cons, length_append, Utf8.encode_append, length_append,
      length_encode_dumpsItems xs]
    omega
  | .obj fs => by
    have hopen : (String.utf8EncodeChar '{').length = 1 := by decide
    have hclose : (encode ['}']).length = 1 := by decide
    rw [dumps, size, Utf8.encode_cons, length_append, Utf8.encode_append, length_append,
      length_encode_dumpsFields fs]
    omega
  | .null | .bool true | .bool false => by
    rw [size]
    decide
  | .int n => by rw [dumps, size, length_encode_dumpsInt]
  | .str s => by rw [dumps, size, stringSize]

theorem length_encode_dumpsItems : ∀ xs : List Json,
    (encode (dumpsItems xs)).length = sizeItems id xs + (xs.length - 1)
  | [] => rfl
  | [x] => by
    rw [dumpsItems, length_encode_dumps x, sizeItems, sizeItems]
    rfl
  | x :: y :: xs => by
    have hcomma : (String.utf8EncodeChar ',').length = 1 := by decide
    have hsize : sizeItems id (x :: y :: xs) = size id x + sizeItems id (y :: xs) := by
      rw [sizeItems]
    rw [dumpsItems, Utf8.encode_append, length_append,
      Utf8.encode_cons, length_append, length_encode_dumps x,
      length_encode_dumpsItems (y :: xs), hsize]
    · simp only [length_cons]
      omega
    · exact cons_ne_nil _ _

theorem length_encode_dumpsFields : ∀ fs : Dict,
    (encode (dumpsFields fs)).length = sizeFields id fs + (fs.length - 1)
  | [] => rfl
  | [(k, v)] => by
    have hcolon : (String.utf8EncodeChar ':').length = 1 := by decide
    rw [dumpsFields, Utf8.encode_append, length_append, Utf8.encode_cons, length_append,
      length_encode_dumps v, sizeFields, sizeFields, stringSize]
    simp only [length_cons, length_nil]
    omega
  | (k, v) :: q :: fs => by
    have hcolon : (String.utf8EncodeChar ':').length = 1 := by decide
    have hcomma : (String.utf8EncodeChar ',').length = 1 := by decide
    have hsize : sizeFields id ((k, v) :: q :: fs) =
        stringSize k + 1 + size id v + sizeFields id (q :: fs) := by
      rw [sizeFields]
    rw [dumpsFields, Utf8.encode_append, length_append,
      Utf8.encode_cons, length_append, Utf8.encode_append, length_append,
      Utf8.encode_cons, length_append, length_encode_dumps v,
      length_encode_dumpsFields (q :: fs), hsize, stringSize]
    · simp only [length_cons]
      omega
    · exact cons_ne_nil _ _

end

/-! ### Bounds -/

theorem ascii_digitChar : ∀ d < 16, (Nat.digitChar d).toNat < 128 := by decide

theorem length_encode_escapeChar_le (c : Char) : (encode (escapeChar c)).length ≤ 6 := by
  have hone : ∀ s : List Char, s.length ≤ 6 → (∀ d ∈ s, d.toNat < 0x80) →
      (encode s).length ≤ 6 := by
    intro s hs hascii
    rwa [length_encode_of_ascii hascii]
  unfold escapeChar
  split
  · next e he =>
    refine hone _ (by simp) ?_
    unfold shortEscape at he
    split at he <;> cases he <;> simp
  · split
    · next hcontrol =>
      refine hone _ (by simp) ?_
      simp only [forall_mem_cons, not_mem_nil, false_implies, implies_true, and_true]
      exact ⟨by decide, by decide, by decide, by decide, ascii_digitChar _ (by omega),
        ascii_digitChar _ (by omega)⟩
    · rw [Utf8.encode_cons, length_append, String.length_utf8EncodeChar]
      have := Char.utf8Size_le_four c
      simp only [Utf8.encode_nil, length_nil]
      omega

theorem length_le_length_encode (s : List Char) : s.length ≤ (encode s).length := by
  induction s with
  | nil => exact Nat.le_refl _
  | cons c s ih =>
    have := Char.utf8Size_pos c
    rw [Utf8.encode_cons, length_append, String.length_utf8EncodeChar, length_cons]
    omega

theorem le_stringSize (s : String) : s.toList.length ≤ stringSize s := by
  have hescape := length_le_escape s.toList
  have hencode := length_le_length_encode (dumpsString s)
  rw [dumpsString, length_cons, length_append] at hencode
  rw [stringSize, dumpsString]
  omega

theorem stringSize_le (s : String) : stringSize s ≤ 6 * s.toList.length + 2 := by
  have hchars : ∀ cs : List Char, (encode (cs.flatMap escapeChar)).length ≤ 6 * cs.length := by
    intro cs
    induction cs with
    | nil => exact Nat.le_refl _
    | cons c cs ih =>
      rw [flatMap_cons, Utf8.encode_append, length_append, length_cons]
      have := length_encode_escapeChar_le c
      omega
  have hquote : (String.utf8EncodeChar '"').length = 1 := by decide
  have hclose : (encode ['"']).length = 1 := by decide
  rw [stringSize, dumpsString, Utf8.encode_cons, length_append, Utf8.encode_append, length_append]
  have := hchars s.toList
  omega

/-! ### Floats -/

mutual

/-- The floats of a value, by their tokens. -/
def floats : Json → List String
  | .float s => [s]
  | .arr xs => floatsOfItems xs
  | .obj fs => floatsOfFields fs
  | _ => []

def floatsOfItems : List Json → List String
  | [] => []
  | x :: xs => floats x ++ floatsOfItems xs

def floatsOfFields : Dict → List String
  | [] => []
  | (_, v) :: fs => floats v ++ floatsOfFields fs

end

theorem mem_floatsOfFields {fs : Dict} {s : String} :
    s ∈ floatsOfFields fs ↔ ∃ p ∈ fs, s ∈ floats p.2 := by
  induction fs with
  | nil => simp [floatsOfFields]
  | cons p fs ih => simp [floatsOfFields, ih]

/-! ### Keys -/

mutual

/-- No dictionary of the value has a key twice. -/
def UniqueKeys : Json → Prop
  | arr xs => UniqueKeysItems xs
  | obj fs => (fs.map Prod.fst).Nodup ∧ UniqueKeysFields fs
  | _ => True

def UniqueKeysItems : List Json → Prop
  | [] => True
  | x :: xs => UniqueKeys x ∧ UniqueKeysItems xs

def UniqueKeysFields : Dict → Prop
  | [] => True
  | (_, v) :: fs => UniqueKeys v ∧ UniqueKeysFields fs

end

theorem uniqueKeysFields_iff {fs : Dict} : UniqueKeysFields fs ↔ ∀ p ∈ fs, UniqueKeys p.2 := by
  induction fs with
  | nil => simp [UniqueKeysFields]
  | cons p fs ih => simp [UniqueKeysFields, ih]

/-! ### What the strict hooks read -/

section

variable {ε : Type} {duplicate nonFinite : ε}

theorem foldlM_strict_eq_ok {pairs d result : Dict} (hd : (d.map Prod.fst).Nodup)
    (h : pairs.foldlM (fun result p =>
      if p.1 ∈ result.map Prod.fst then .error duplicate else .ok (set result p.1 p.2)) d =
        (.ok result : Except ε Dict)) : result = d ++ pairs ∧ (result.map Prod.fst).Nodup := by
  induction pairs generalizing d with
  | nil =>
    cases h
    exact ⟨(append_nil _).symm, hd⟩
  | cons p pairs ih =>
    obtain ⟨k, v⟩ := p
    rw [foldlM_cons] at h
    obtain ⟨d', hset, h⟩ := bind_eq_ok.mp h
    split at hset
    · cases hset
    · next hk =>
      cases hset
      rw [set_of_not_mem v hk] at h
      have hnodup : ((d ++ [(k, v)]).map Prod.fst).Nodup := by
        rw [map_append, nodup_append']
        refine ⟨hd, nodup_singleton _, ?_⟩
        intro a ha hk'
        rw [mem_singleton.mp hk'] at ha
        exact hk ha
      obtain ⟨rfl, hresult⟩ := ih hnodup h
      exact ⟨append_cons d (k, v) pairs ▸ rfl, hresult⟩

theorem rejectDuplicateKeys_eq_ok {pairs : Dict} {v : Json}
    (h : rejectDuplicateKeys duplicate pairs = .ok v) :
    v = .obj pairs ∧ (pairs.map Prod.fst).Nodup := by
  obtain ⟨result, hfold, h⟩ := bind_eq_ok.mp h
  cases h
  obtain ⟨rfl, hnodup⟩ := foldlM_strict_eq_ok (d := []) nodup_nil hfold
  exact ⟨rfl, hnodup⟩

theorem ofHook_eq_ok {α : Type} {x : Except ε α} {a : α} (h : ofHook x = .ok a) : x = .ok a := by
  cases x with
  | error e => cases h
  | ok b =>
    cases h
    rfl

theorem uniqueKeys_of_scanNumber {s : List Char} {p : Json × List Char}
    (h : scanNumber s = some p) : UniqueKeys p.1 := by
  obtain ⟨⟨whole, rest⟩, -, h⟩ := Option.bind_eq_some_iff.mp h
  dsimp only at h
  split at h
  · cases h
    trivial
  · cases h
    trivial

mutual

/-- What is scanned has no key twice. -/
theorem uniqueKeys_of_scanOnceWith : ∀ {fuel : Nat} {s : List Char} {p : Json × List Char},
    scanOnceWith (Hooks.strict duplicate nonFinite) fuel s = .ok p → UniqueKeys p.1
  | 0, s, p, h => by cases h
  | fuel + 1, s, p, h => by
    rw [scanOnceWith.eq_def] at h
    dsimp only at h
    split at h
    · obtain ⟨cs, -, h⟩ := bind_eq_ok.mp h
      cases h
      trivial
    · split at h
      · obtain ⟨v, hhook, h⟩ := bind_eq_ok.mp h
        cases h
        obtain ⟨rfl, -⟩ := rejectDuplicateKeys_eq_ok (ofHook_eq_ok hhook)
        exact ⟨nodup_nil, trivial⟩
      · obtain ⟨⟨pairs, rest⟩, hpairs, h⟩ := bind_eq_ok.mp h
        obtain ⟨v, hhook, h⟩ := bind_eq_ok.mp h
        cases h
        obtain ⟨rfl, hnodup⟩ := rejectDuplicateKeys_eq_ok (ofHook_eq_ok hhook)
        exact ⟨hnodup, uniqueKeys_of_scanPairsWith hpairs⟩
    · split at h
      · cases h
        trivial
      · obtain ⟨⟨xs, rest⟩, hitems, h⟩ := bind_eq_ok.mp h
        cases h
        exact uniqueKeys_of_scanItemsWith hitems
    · cases h
      trivial
    · cases h
      trivial
    · cases h
      trivial
    · cases h
    · cases h
    · cases h
    · cases hnumber : scanNumber s with
      | none =>
        rw [hnumber] at h
        cases h
      | some q =>
        rw [hnumber] at h
        cases h
        exact uniqueKeys_of_scanNumber hnumber

theorem uniqueKeys_of_scanItemsWith : ∀ {fuel : Nat} {s : List Char} {p : List Json × List Char},
    scanItemsWith (Hooks.strict duplicate nonFinite) fuel s = .ok p → UniqueKeysItems p.1
  | 0, s, p, h => by cases h
  | fuel + 1, s, p, h => by
    rw [scanItemsWith] at h
    obtain ⟨⟨x, rest⟩, hx, h⟩ := bind_eq_ok.mp h
    dsimp only at h
    split at h
    · cases h
      exact ⟨uniqueKeys_of_scanOnceWith hx, trivial⟩
    · obtain ⟨⟨xs, rest'⟩, hxs, h⟩ := bind_eq_ok.mp h
      cases h
      exact ⟨uniqueKeys_of_scanOnceWith hx, uniqueKeys_of_scanItemsWith hxs⟩
    · cases h

theorem uniqueKeys_of_scanPairsWith : ∀ {fuel : Nat} {s : List Char} {p : Dict × List Char},
    scanPairsWith (Hooks.strict duplicate nonFinite) fuel s = .ok p → UniqueKeysFields p.1
  | 0, s, p, h => by cases h
  | fuel + 1, s, p, h => by
    rw [scanPairsWith.eq_def] at h
    dsimp only at h
    split at h
    · obtain ⟨⟨key, rest⟩, -, h⟩ := bind_eq_ok.mp h
      dsimp only at h
      split at h
      · obtain ⟨⟨v, rest'⟩, hv, h⟩ := bind_eq_ok.mp h
        dsimp only at h
        split at h
        · cases h
          exact ⟨uniqueKeys_of_scanOnceWith hv, trivial⟩
        · obtain ⟨⟨pairs, rest''⟩, hpairs, h⟩ := bind_eq_ok.mp h
          cases h
          exact ⟨uniqueKeys_of_scanOnceWith hv, uniqueKeys_of_scanPairsWith hpairs⟩
        · cases h
      · cases h
    · cases h

end

/-- **What the strict hooks read has no key twice.** -/
theorem uniqueKeys_of_loadsWith {text : List Char} {v : Json}
    (h : loadsWith (Hooks.strict duplicate nonFinite) text = .ok v) : UniqueKeys v := by
  obtain ⟨⟨value, rest⟩, hscan, h⟩ := bind_eq_ok.mp h
  dsimp only at h
  split at h
  · cases h
    exact uniqueKeys_of_scanOnceWith hscan
  · cases h

end

end KolegaCode.Json
