import KolegaCode.Lib.JsonText
import Mathlib.Data.List.Nodup
import Mathlib.Data.List.TakeWhile

/-!
# Lib — the words of JSON text are read back

The strings and numbers that `json.dumps` writes are read from the front of any text that goes on
with a delimiter, and a dictionary without a repeated key is the list of its pairs.
-/

namespace KolegaCode.Json

open List Option

/-! ### Strings -/

variable {s r : List Char} {c : Char}

theorem forall_char_of_all {p : Char → Prop} [DecidablePred p]
    (h : (s.all fun c => decide (p c)) = true) : ∀ c ∈ s, p c := by
  simpa using h

theorem hexValue_digitChar : ∀ d < 16, hexValue (Nat.digitChar d) = some d := by decide

theorem unescape_shortEscape {e : Char} (h : shortEscape c = some e) :
    unescape e = some c ∧ e ≠ 'u' := by
  rw [shortEscape.eq_def] at h
  split at h <;> cases h <;> exact ⟨rfl, by decide⟩

theorem scanHex_control {n : Nat} (h : n < 0x20) (s : List Char) :
    scanHex ('0' :: '0' :: Nat.digitChar (n / 16) :: Nat.digitChar (n % 16) :: s) =
      some (n, s) := by
  have h0 : hexValue '0' = some 0 := by decide
  have hn : 4096 * 0 + 256 * 0 + 16 * (n / 16) + n % 16 = n := by omega
  rw [scanHex, h0, hexValue_digitChar _ (by omega), hexValue_digitChar _ (by omega)]
  simp only [bind_eq_bind, bind_some, hn]

theorem scanEscape_short {e : Char} (h : shortEscape c = some e) (s : List Char) :
    scanEscape (e :: s) = some (c, s) := by
  obtain ⟨hu, hne⟩ := unescape_shortEscape h
  rw [scanEscape.eq_def]
  split
  · rename_i heq
    exact absurd (List.cons.inj heq).1 hne
  · rename_i heq
    cases heq
    rw [hu]
    rfl
  · rename_i heq
    cases heq

theorem scanEscape_control (h : c.toNat < 0x20) (s : List Char) :
    scanEscape ('u' :: '0' :: '0' :: Nat.digitChar (c.toNat / 16) ::
      Nat.digitChar (c.toNat % 16) :: s) = some (c, s) := by
  rw [scanEscape, scanHex_control h]
  simp only [bind_eq_bind, bind_some]
  rw [if_neg (by omega), if_neg (by omega), Char.ofNat_toNat]

theorem scanString_escapeChar (c : Char) (fuel : Nat) (s : List Char) :
    scanString (fuel + 1) (escapeChar c ++ s) =
      (scanString fuel s).bind fun p => some (c :: p.1, p.2) := by
  rw [escapeChar]
  cases he : shortEscape c with
  | some e =>
    rw [cons_append, singleton_append, scanString, if_neg (by decide), if_pos rfl,
      scanEscape_short he]
    rfl
  | none =>
    dsimp only
    split
    · rename_i hlt
      rw [cons_append, scanString, if_neg (by decide), if_pos rfl]
      simp only [cons_append, nil_append, scanEscape_control hlt]
      rfl
    · rename_i hge
      have hq : c ≠ '"' := by
        intro h
        rw [h] at he
        cases he
      have hb : c ≠ '\\' := by
        intro h
        rw [h] at he
        cases he
      rw [singleton_append, scanString, if_neg hq, if_neg hb, if_neg hge]
      rfl

theorem scanString_escape (r : List Char) :
    ∀ (cs : List Char) (fuel : Nat), cs.length < fuel →
      scanString fuel (cs.flatMap escapeChar ++ '"' :: r) = some (cs, r) := by
  intro cs
  induction cs with
  | nil =>
    intro fuel hf
    obtain ⟨f, rfl⟩ := Nat.exists_eq_succ_of_ne_zero (Nat.ne_of_gt hf)
    rfl
  | cons c cs ih =>
    intro fuel hf
    obtain ⟨f, rfl⟩ := Nat.exists_eq_succ_of_ne_zero (show fuel ≠ 0 by omega)
    rw [flatMap_cons, append_assoc, scanString_escapeChar, ih f (by simpa using hf)]
    rfl

theorem length_le_escape (cs : List Char) : cs.length ≤ (cs.flatMap escapeChar).length := by
  induction cs with
  | nil => exact Nat.le_refl 0
  | cons c cs ih =>
    have hc : 1 ≤ (escapeChar c).length := by
      rw [escapeChar]
      split
      · exact Nat.le_add_left 1 1
      · split <;> simp
    rw [flatMap_cons, length_append, length_cons]
    omega

/-- A string is read back after its opening quote. -/
theorem scanString_dumpsString (k : String) (r : List Char) :
    scanString ((k.toList.flatMap escapeChar ++ '"' :: r).length + 1)
      (k.toList.flatMap escapeChar ++ '"' :: r) = some (k.toList, r) := by
  refine scanString_escape r _ _ ?_
  have h := length_le_escape k.toList
  rw [length_append]
  omega

/-! ### Numbers -/

/-- A text that goes on after a value. -/
def Delimited (r : List Char) : Prop := ∀ c s, r = c :: s → c = ',' ∨ c = ']' ∨ c = '}'

theorem delimited_nil : Delimited [] := by
  intro c s h
  cases h

theorem delimited_cons (h : c = ',' ∨ c = ']' ∨ c = '}') : Delimited (c :: s) := by
  intro c' s' he
  cases he
  exact h

section

variable (hr : Delimited r)
include hr

theorem scanDigits_append (s : List Char) :
    scanDigits (s ++ r) = ((scanDigits s).1, (scanDigits s).2 ++ r) := by
  rw [scanDigits, scanDigits]
  induction s with
  | nil =>
    cases r with
    | nil => rfl
    | cons c s =>
      have hc : c.isDigit = false := by
        rcases hr c s rfl with rfl | rfl | rfl <;> decide
      simp [hc]
  | cons c s ih =>
    by_cases hc : c.isDigit = true
    · simp only [Prod.mk.injEq] at ih ⊢
      simp [hc, ih.1, ih.2]
    · simp [hc]

theorem scanWhole_append {w t : List Char} (h : scanWhole s = some (w, t)) :
    scanWhole (s ++ r) = some (w, t ++ r) := by
  cases s with
  | nil => cases h
  | cons c s =>
    rw [cons_append, scanWhole]
    rw [scanWhole] at h
    split at h
    · rename_i hc
      cases h
      rw [if_pos hc]
    · rename_i hc
      rw [if_neg hc]
      split at h
      · rename_i hd
        rw [if_pos hd, ← cons_append, scanDigits_append hr, Option.some.inj h]
      · cases h

theorem Delimited.ne (h : r = c :: s) : c ≠ '.' ∧ c ≠ 'e' ∧ c ≠ 'E' ∧ c ≠ '-' ∧ c ≠ '+' := by
  rcases hr c s h with rfl | rfl | rfl <;> decide

theorem scanFraction_append (s : List Char) :
    scanFraction (s ++ r) = ((scanFraction s).1, (scanFraction s).2 ++ r) := by
  cases s with
  | nil =>
    cases r with
    | nil => rfl
    | cons c r =>
      exact if_neg fun h => (hr.ne rfl).1 h.1
  | cons c s =>
    rw [cons_append, scanFraction, scanFraction, scanDigits_append hr]
    split <;> rfl

theorem scanSign_append {signs : List Char} (hs : ∀ c ∈ signs, c = '-' ∨ c = '+') (s : List Char) :
    scanSign signs (s ++ r) = ((scanSign signs s).1, (scanSign signs s).2 ++ r) := by
  cases s with
  | nil =>
    cases r with
    | nil => rfl
    | cons c r =>
      obtain ⟨-, -, -, hm, hp⟩ := hr.ne rfl
      exact if_neg fun h => (hs c h).elim hm hp
  | cons c s =>
    rw [cons_append, scanSign, scanSign]
    split <;> rfl

theorem scanExponent_append (s : List Char) :
    scanExponent (s ++ r) = ((scanExponent s).1, (scanExponent s).2 ++ r) := by
  cases s with
  | nil =>
    cases r with
    | nil => rfl
    | cons c r =>
      obtain ⟨-, he, hE, -, -⟩ := hr.ne rfl
      exact if_neg fun h => h.1.elim he hE
  | cons c s =>
    rw [cons_append, scanExponent, scanExponent, scanSign_append hr (by simp)]
    rw [scanDigits_append hr]
    split <;> rfl

/-- A number is read in front of a delimiter as it is read alone. -/
theorem scanNumber_append {v : Json} (h : scanNumber s = some (v, [])) :
    scanNumber (s ++ r) = some (v, r) := by
  rw [scanNumber, scanSign_append hr (by simp)]
  rw [scanNumber] at h
  dsimp only at h ⊢
  cases hw : scanWhole (scanSign ['-'] s).2 with
  | none =>
    rw [hw] at h
    cases h
  | some p =>
    rw [hw] at h
    rw [scanWhole_append hr hw]
    simp only [bind_eq_bind, bind_some] at h ⊢
    rw [scanFraction_append hr]
    rw [scanExponent_append hr]
    split at h
    · rename_i hn
      rw [if_pos hn]
      obtain ⟨rfl, hrest⟩ := Prod.mk.inj (Option.some.inj h)
      rw [hrest]
      rfl
    · rename_i hn
      rw [if_neg hn]
      obtain ⟨rfl, hrest⟩ := Prod.mk.inj (Option.some.inj h)
      rw [hrest]
      rfl

end

theorem toDigits_head_ne_zero :
    ∀ {n : Nat}, 0 < n → ∀ c s, Nat.toDigits 10 n = c :: s → c ≠ '0' ∧ c.isDigit = true := by
  intro n
  induction n using Nat.strongRecOn with
  | _ n ih =>
    intro hn c s h
    by_cases hlt : n < 10
    · rw [Nat.toDigits_of_lt_base hlt] at h
      cases h
      refine ⟨by simp; omega, by rw [Nat.isDigit_digitChar]; simpa using hlt⟩
    · rw [Nat.toDigits_of_base_le (by decide) (by omega)] at h
      cases ht : Nat.toDigits 10 (n / 10) with
      | nil => exact absurd ht Nat.toDigits_ne_nil
      | cons d ds =>
        rw [ht] at h
        cases h
        exact ih (n / 10) (by omega) (by omega) _ _ ht

theorem scanWhole_toDigits (n : Nat) :
    scanWhole (Nat.toDigits 10 n) = some (Nat.toDigits 10 n, []) := by
  rcases Nat.eq_zero_or_pos n with rfl | hn
  · rfl
  · cases ht : Nat.toDigits 10 n with
    | nil => exact absurd ht Nat.toDigits_ne_nil
    | cons c s =>
      obtain ⟨hc, hd⟩ := toDigits_head_ne_zero hn c s ht
      have hall : ∀ x ∈ c :: s, x.isDigit = true := by
        rw [← ht]
        intro x hx
        exact Nat.isDigit_of_mem_toDigits (by decide) (by decide) hx
      rw [scanWhole, if_neg hc, if_pos hd, scanDigits, takeWhile_eq_self_iff.mpr hall,
        dropWhile_eq_nil_iff.mpr hall]

theorem scanNumber_dumpsInt (n : Int) : scanNumber (dumpsInt n) = some (.int n, []) := by
  cases n with
  | ofNat n =>
    have hs : scanSign ['-'] (Nat.toDigits 10 n) = ([], Nat.toDigits 10 n) := by
      cases ht : Nat.toDigits 10 n with
      | nil => rfl
      | cons c s =>
        have hd : c.isDigit = true :=
          Nat.isDigit_of_mem_toDigits (b := 10) (n := n) (by decide) (by decide) (by rw [ht]; simp)
        rw [scanSign, if_neg]
        intro h
        rw [mem_singleton.mp h] at hd
        cases hd
    rw [dumpsInt, scanNumber, hs]
    simp [scanWhole_toDigits, scanFraction, scanExponent]
  | negSucc n =>
    rw [dumpsInt, scanNumber, scanSign, if_pos (by simp)]
    simp [scanWhole_toDigits, scanFraction, scanExponent]
    omega

theorem scanNumber_head {p : Json × List Char} (h : scanNumber s = some p) :
    ∃ c t, s = c :: t ∧ (c.isDigit = true ∨ c = '-' ∧ ∃ d u, t = d :: u ∧ d.isDigit = true) := by
  have hwhole : ∀ {t : List Char} {q : List Char × List Char}, scanWhole t = some q →
      ∃ d u, t = d :: u ∧ d.isDigit = true := by
    intro t q hq
    cases t with
    | nil => cases hq
    | cons d u =>
      refine ⟨d, u, rfl, ?_⟩
      rw [scanWhole] at hq
      split at hq
      · rename_i hd
        rw [hd]
        rfl
      · split at hq
        · assumption
        · cases hq
  rw [scanNumber] at h
  cases hw : scanWhole (scanSign ['-'] s).2 with
  | none =>
    dsimp only at h
    rw [hw] at h
    cases h
  | some q =>
    obtain ⟨d, u, hdu, hd⟩ := hwhole hw
    cases s with
    | nil => cases hdu
    | cons c t =>
      rw [scanSign] at hdu
      split at hdu
      · rename_i hc
        exact ⟨c, t, rfl, .inr ⟨mem_singleton.mp hc, d, u, hdu, hd⟩⟩
      · cases hdu
        exact ⟨_, _, rfl, .inl hd⟩

theorem skipWs_cons (h : isWs c = false) : skipWs (c :: s) = c :: s := by
  rw [skipWs, dropWhile_cons_of_neg (by simp [h])]

/-! ### Dictionaries -/

theorem set_of_not_mem {d : Dict} {k : String} (v : Json) (h : k ∉ d.map Prod.fst) :
    set d k v = d ++ [(k, v)] := by
  induction d with
  | nil => rfl
  | cons p d ih =>
    obtain ⟨k', v'⟩ := p
    simp only [map_cons, mem_cons, not_or] at h
    rw [set, if_neg (Ne.symm h.1), ih h.2]
    rfl

theorem foldl_set (fs : Dict) :
    ∀ d : Dict, ((d ++ fs).map Prod.fst).Nodup →
      fs.foldl (fun d p => set d p.1 p.2) d = d ++ fs := by
  induction fs with
  | nil =>
    intro d _
    simp
  | cons p fs ih =>
    intro d h
    obtain ⟨k, v⟩ := p
    have hk : k ∉ d.map Prod.fst := by
      rw [map_append, nodup_append'] at h
      exact fun hm => h.2.2 hm (by simp)
    rw [foldl_cons, set_of_not_mem v hk, ih, append_assoc]
    · rfl
    · rwa [append_assoc]

theorem dictOf_eq_self {fs : Dict} (h : (fs.map Prod.fst).Nodup) : dictOf fs = fs :=
  foldl_set fs [] h

end KolegaCode.Json
