import KolegaCode.Lib.JsonRoundTrip

/-!
# Lib — no proper suffix of an object's text is a JSON text

Texts are followed by a small automaton that knows whether it is inside a string and how deep it is
in brackets.  In the middle of an object the depth is at least one (`within_dumps`), so a reader
that starts outside a string closes more than it opened; one that starts inside a string is outside
whenever the text is inside, up to the end (`Opposite`).  A text that is read returns to depth
zero, outside strings (`loads_closed`).
-/

namespace KolegaCode.Json

open List Option

/-! ### The automaton -/

/-- Outside a string, inside one, or behind a backslash in one. -/
inductive Mode where
  | out
  | str
  | esc
deriving DecidableEq

/-- One character; a backslash outside a string is refused. -/
def step : Mode × Int → Char → Option (Mode × Int)
  | (.out, d), c =>
    if c = '"' then some (.str, d)
    else if c = '\\' then none
    else if c = '{' ∨ c = '[' then some (.out, d + 1)
    else if c = '}' ∨ c = ']' then some (.out, d - 1)
    else some (.out, d)
  | (.str, d), c =>
    if c = '"' then some (.out, d) else if c = '\\' then some (.esc, d) else some (.str, d)
  | (.esc, d), _ => some (.str, d)

def steps (q : Mode × Int) (s : List Char) : Option (Mode × Int) := s.foldlM step q

@[simp] theorem steps_nil (q : Mode × Int) : steps q [] = some q := rfl

@[simp] theorem steps_cons (q : Mode × Int) (c : Char) (s : List Char) :
    steps q (c :: s) = (step q c).bind fun q => steps q s := rfl

theorem steps_append (q : Mode × Int) (s t : List Char) :
    steps q (s ++ t) = (steps q s).bind fun q => steps q t := by
  rw [steps, foldlM_append]
  rfl

/-- The depth at the start is only carried along. -/
theorem step_shift (m : Mode) (d k : Int) (c : Char) :
    step (m, d + k) c = (step (m, d) c).map fun q => (q.1, q.2 + k) := by
  cases m with
  | out =>
    simp only [step]
    split
    · rfl
    split
    · rfl
    split
    · simp only [Option.map_some, Option.some.injEq, Prod.mk.injEq, true_and]
      omega
    split
    · simp only [Option.map_some, Option.some.injEq, Prod.mk.injEq, true_and]
      omega
    · rfl
  | str =>
    simp only [step]
    split
    · rfl
    split <;> rfl
  | esc => rfl

theorem steps_shift (k : Int) (s : List Char) :
    ∀ (m : Mode) (d : Int), steps (m, d + k) s = (steps (m, d) s).map fun q => (q.1, q.2 + k) := by
  induction s with
  | nil =>
    intro m d
    rfl
  | cons c s ih =>
    intro m d
    rw [steps_cons, steps_cons, step_shift]
    cases step (m, d) c with
    | none => rfl
    | some q => exact ih q.1 q.2

/-- A text that is left as it was entered, outside strings. -/
def Closed (s : List Char) : Prop := ∀ d, steps (.out, d) s = some (.out, d)

variable {s t r p : List Char} {c : Char} {v : Json}

theorem Closed.append (hs : Closed s) (ht : Closed t) : Closed (s ++ t) := by
  intro d
  rw [steps_append, hs d]
  exact ht d

theorem closed_nil : Closed [] := fun _ => rfl

/-- A character that is no quote, backslash or bracket. -/
def Plain (c : Char) : Prop := c ∉ ['"', '\\', '{', '[', '}', ']']

instance (c : Char) : Decidable (Plain c) := inferInstanceAs (Decidable (¬ _))

theorem step_plain (h : Plain c) (d : Int) : step (.out, d) c = some (.out, d) := by
  simp only [Plain, mem_cons, not_mem_nil, or_false, not_or] at h
  obtain ⟨h1, h2, h3, h4, h5, h6⟩ := h
  simp [step, h1, h2, h3, h4, h5, h6]

theorem closed_of_plain (h : ∀ c ∈ s, Plain c) : Closed s := by
  induction s with
  | nil => exact closed_nil
  | cons c s ih =>
    intro d
    rw [steps_cons, step_plain (h c (by simp))]
    exact ih (fun c' hc' => h c' (by simp [hc'])) d

theorem closed_skipWs (s : List Char) : ∃ w, s = w ++ skipWs s ∧ Closed w := by
  refine ⟨s.takeWhile isWs, (takeWhile_append_dropWhile ..).symm, closed_of_plain ?_⟩
  intro c hc
  have hw := mem_takeWhile_imp hc
  simp only [isWs, Bool.or_eq_true, decide_eq_true_eq] at hw
  rcases hw with ((rfl | rfl) | rfl) | rfl <;> decide

/-! ### What is read is closed -/

/-- From inside a string to behind its closing quote. -/
def Closing (s : List Char) : Prop := ∀ d, steps (.str, d) s = some (.out, d)

theorem step_str (hq : c ≠ '"') (hb : c ≠ '\\') (d : Int) : step (.str, d) c = some (.str, d) := by
  rw [step, if_neg hq, if_neg hb]

theorem steps_str (h : ∀ c ∈ s, c ≠ '"' ∧ c ≠ '\\') (d : Int) :
    steps (.str, d) s = some (.str, d) := by
  induction s with
  | nil => rfl
  | cons c s ih =>
    obtain ⟨hq, hb⟩ := h c (by simp)
    rw [steps_cons, step_str hq hb]
    exact ih fun c' hc' => h c' (by simp [hc'])

theorem hexValue_ne {n : Nat} (h : hexValue c = some n) : c ≠ '"' ∧ c ≠ '\\' := by
  refine ⟨?_, ?_⟩
  · intro hc
    rw [hc] at h
    cases h
  · intro hc
    rw [hc] at h
    cases h

theorem scanHex_split {n : Nat} (h : scanHex s = some (n, r)) :
    ∃ t, s = t ++ r ∧ ∀ c ∈ t, c ≠ '"' ∧ c ≠ '\\' := by
  rw [scanHex.eq_def] at h
  split at h
  · rename_i a b c d s
    cases ha : hexValue a with
    | none => rw [ha] at h; cases h
    | some va =>
    cases hb : hexValue b with
    | none => rw [ha, hb] at h; cases h
    | some vb =>
    cases hc : hexValue c with
    | none => rw [ha, hb, hc] at h; cases h
    | some vc =>
    cases hd : hexValue d with
    | none => rw [ha, hb, hc, hd] at h; cases h
    | some vd =>
      rw [ha, hb, hc, hd] at h
      cases h
      refine ⟨[a, b, c, d], rfl, ?_⟩
      intro x hx
      simp only [mem_cons, not_mem_nil, or_false] at hx
      rcases hx with rfl | rfl | rfl | rfl
      · exact hexValue_ne ha
      · exact hexValue_ne hb
      · exact hexValue_ne hc
      · exact hexValue_ne hd
  · cases h

theorem steps_unicode (h : ∀ c ∈ t, c ≠ '"' ∧ c ≠ '\\') (u : List Char) (d : Int) :
    steps (.str, d) ('\\' :: 'u' :: (t ++ u)) = steps (.str, d) u := by
  rw [steps_cons, step, if_neg (by decide), if_pos rfl, bind_some, steps_cons, step,
    bind_some, steps_append, steps_str h, bind_some]

theorem scanEscape_split (h : scanEscape s = some (c, r)) :
    ∃ t, s = t ++ r ∧ ∀ d, steps (.str, d) ('\\' :: t) = some (.str, d) := by
  rw [scanEscape.eq_def] at h
  split at h
  · obtain ⟨⟨n, s₁⟩, hx, h'⟩ := bind_eq_some_iff.mp h
    obtain ⟨t₁, rfl, ht₁⟩ := scanHex_split hx
    dsimp only at h'
    split at h'
    · split at h'
      · obtain ⟨⟨m, s₂⟩, hx₂, h''⟩ := bind_eq_some_iff.mp h'
        obtain ⟨t₂, rfl, ht₂⟩ := scanHex_split hx₂
        dsimp only at h''
        split at h''
        · obtain ⟨-, rfl⟩ := Prod.mk.inj (Option.some.inj h'')
          refine ⟨'u' :: (t₁ ++ '\\' :: 'u' :: t₂), by simp, fun d => ?_⟩
          have h₂ := steps_unicode ht₂ [] d
          rw [append_nil] at h₂
          rw [steps_unicode ht₁, h₂]
          rfl
        · cases h''
      · cases h'
    · split at h'
      · cases h'
      · cases h'
        refine ⟨'u' :: t₁, rfl, fun d => ?_⟩
        have h₁ := steps_unicode ht₁ [] d
        rw [append_nil] at h₁
        rw [h₁]
        rfl
  · rename_i e s _
    obtain ⟨c', -, h⟩ := bind_eq_some_iff.mp h
    cases h
    exact ⟨[e], rfl, fun d => rfl⟩
  · cases h

/-- What is read of a string ends behind its closing quote. -/
theorem scanString_split : ∀ (fuel : Nat) {s r cs : List Char},
    scanString fuel s = some (cs, r) → ∃ t, s = t ++ r ∧ Closing t := by
  intro fuel
  induction fuel with
  | zero =>
    intro s r cs h
    cases s <;> cases h
  | succ fuel ih =>
    intro s r cs h
    cases s with
    | nil => cases h
    | cons c s =>
      rw [scanString] at h
      split at h
      · rename_i hq
        cases h
        refine ⟨[c], rfl, fun d => ?_⟩
        rw [hq]
        rfl
      split at h
      · rename_i hb
        obtain ⟨⟨c', s₁⟩, he, h⟩ := bind_eq_some_iff.mp h
        obtain ⟨⟨cs', s₂⟩, hs, h⟩ := bind_eq_some_iff.mp h
        cases h
        obtain ⟨t₁, rfl, ht₁⟩ := scanEscape_split he
        obtain ⟨t₂, rfl, ht₂⟩ := ih hs
        refine ⟨c :: (t₁ ++ t₂), by simp, fun d => ?_⟩
        rw [hb, ← cons_append, steps_append, ht₁]
        exact ht₂ d
      split at h
      · cases h
      · rename_i hq hb _
        obtain ⟨⟨cs', s₂⟩, hs, h⟩ := bind_eq_some_iff.mp h
        cases h
        obtain ⟨t₂, rfl, ht₂⟩ := ih hs
        refine ⟨c :: t₂, rfl, fun d => ?_⟩
        rw [steps_cons, step_str hq hb]
        exact ht₂ d

/-! ### Numbers -/

/-- A character of a number. -/
def NumberChar (c : Char) : Prop := c.isDigit = true ∨ c ∈ ['-', '+', '.', 'e', 'E']

instance (c : Char) : Decidable (NumberChar c) := inferInstanceAs (Decidable (_ ∨ _))

theorem NumberChar.plain (h : NumberChar c) : Plain c := by
  intro hm
  simp only [mem_cons, not_mem_nil, or_false] at hm
  rcases hm with rfl | rfl | rfl | rfl | rfl | rfl <;> exact absurd h (by decide)

theorem scanDigits_split (s : List Char) :
    s = (scanDigits s).1 ++ (scanDigits s).2 ∧ ∀ c ∈ (scanDigits s).1, NumberChar c :=
  ⟨(takeWhile_append_dropWhile ..).symm, fun _ hc =>
    Or.inl (mem_takeWhile_imp hc)⟩

theorem scanSign_split {signs : List Char} (hs : ∀ c ∈ signs, NumberChar c) (s : List Char) :
    s = (scanSign signs s).1 ++ (scanSign signs s).2 ∧ ∀ c ∈ (scanSign signs s).1, NumberChar c := by
  cases s with
  | nil => exact ⟨rfl, by simp [scanSign]⟩
  | cons c s =>
    rw [scanSign]
    split
    · rename_i hc
      exact ⟨rfl, by simpa using hs c hc⟩
    · exact ⟨rfl, by simp⟩

theorem scanWhole_split {w : List Char} (h : scanWhole s = some (w, t)) :
    s = w ++ t ∧ ∀ c ∈ w, NumberChar c := by
  cases s with
  | nil => cases h
  | cons c s =>
    rw [scanWhole] at h
    split at h
    · rename_i hc
      cases h
      refine ⟨rfl, ?_⟩
      rw [hc]
      exact forall_char_of_all rfl
    · split at h
      · have hd := scanDigits_split (c :: s)
        rw [Option.some.inj h] at hd
        exact hd
      · cases h

theorem scanFraction_split (s : List Char) :
    s = (scanFraction s).1 ++ (scanFraction s).2 ∧ ∀ c ∈ (scanFraction s).1, NumberChar c := by
  cases s with
  | nil => exact ⟨rfl, by simp [scanFraction]⟩
  | cons c s =>
    rw [scanFraction]
    split
    · rename_i hc
      obtain ⟨hs, hd⟩ := scanDigits_split s
      refine ⟨congrArg _ hs, ?_⟩
      intro x hx
      rcases mem_cons.mp hx with rfl | hx
      · rw [hc.1]
        decide
      · exact hd x hx
    · exact ⟨rfl, by simp⟩

theorem scanExponent_split (s : List Char) :
    s = (scanExponent s).1 ++ (scanExponent s).2 ∧ ∀ c ∈ (scanExponent s).1, NumberChar c := by
  cases s with
  | nil => exact ⟨rfl, by simp [scanExponent]⟩
  | cons c s =>
    rw [scanExponent]
    split
    · rename_i hc
      have hsign : ∀ c ∈ ['-', '+'], NumberChar c := forall_char_of_all rfl
      obtain ⟨hs, hd⟩ := scanSign_split hsign s
      obtain ⟨hs', hd'⟩ := scanDigits_split (scanSign ['-', '+'] s).2
      refine ⟨?_, ?_⟩
      · rw [cons_append, append_assoc, ← hs', ← hs]
      · intro x hx
        rcases mem_cons.mp hx with rfl | hx
        · rcases hc.1 with rfl | rfl <;> decide
        · rcases mem_append.mp hx with hx | hx
          · exact hd x hx
          · exact hd' x hx
    · exact ⟨rfl, by simp⟩

theorem scanNumber_split (h : scanNumber s = some (v, r)) :
    ∃ t, s = t ++ r ∧ ∀ c ∈ t, NumberChar c := by
  have hsign : ∀ c ∈ ['-'], NumberChar c := forall_char_of_all rfl
  obtain ⟨hs, hp⟩ := scanSign_split hsign s
  rw [scanNumber] at h
  dsimp only at h
  obtain ⟨⟨w, t⟩, hw, h'⟩ := bind_eq_some_iff.mp h
  obtain ⟨hs₁, hp₁⟩ := scanWhole_split hw
  obtain ⟨hs₂, hp₂⟩ := scanFraction_split t
  obtain ⟨hs₃, hp₃⟩ := scanExponent_split (scanFraction t).2
  have hr : (scanExponent (scanFraction t).2).2 = r := by
    dsimp only at h'
    split at h' <;> exact (Prod.mk.inj (Option.some.inj h')).2
  refine ⟨(scanSign ['-'] s).1 ++ (w ++ ((scanFraction t).1 ++ (scanExponent (scanFraction t).2).1)),
    ?_, ?_⟩
  · rw [append_assoc, append_assoc, append_assoc, ← hr, ← hs₃, ← hs₂, ← hs₁, ← hs]
  · intro c hc
    simp only [mem_append] at hc
    rcases hc with hc | hc | hc | hc
    · exact hp c hc
    · exact hp₁ c hc
    · exact hp₂ c hc
    · exact hp₃ c hc

/-! ### Values -/

theorem closed_string (h : Closing t) : Closed ('"' :: t) := by
  intro d
  exact h d

theorem closed_bracket (h : Closed t) : Closed ('{' :: (t ++ ['}'])) ∧
    Closed ('[' :: (t ++ [']'])) := by
  have he : ∀ d, steps (.out, d + 1) t = some (.out, d + 1) := fun d => h (d + 1)
  refine ⟨fun d => ?_, fun d => ?_⟩
  · rw [steps_cons]
    simp [step, steps_append, he]
  · rw [steps_cons]
    simp [step, steps_append, he]

theorem split_skipWs (h : skipWs s = t ++ r) (ht : Closed t) : ∃ t', s = t' ++ r ∧ Closed t' := by
  obtain ⟨w, hs, hw⟩ := closed_skipWs s
  exact ⟨w ++ t, by rw [append_assoc, ← h, ← hs], hw.append ht⟩

mutual

/-- What is read of a value is closed. -/
theorem scanOnce_split : ∀ (fuel : Nat) {s r : List Char} {v : Json},
    scanOnce fuel s = some (v, r) → ∃ t, s = t ++ r ∧ Closed t
  | 0, s, r, v, h => by cases h
  | fuel + 1, s, r, v, h => by
    rw [scanOnce.eq_def] at h
    dsimp only at h
    split at h
    · obtain ⟨⟨cs, s₁⟩, hs, h'⟩ := bind_eq_some_iff.mp h
      cases h'
      obtain ⟨t, rfl, ht⟩ := scanString_split _ hs
      exact ⟨'"' :: t, rfl, closed_string ht⟩
    · split at h
      · rename_i heq
        cases h
        obtain ⟨t, rfl, ht⟩ := split_skipWs (t := []) heq closed_nil
        exact ⟨'{' :: (t ++ ['}']), by simp, (closed_bracket ht).1⟩
      · obtain ⟨⟨fs, s₁⟩, hs, h'⟩ := bind_eq_some_iff.mp h
        cases h'
        obtain ⟨t, heq, ht⟩ := scanPairs_split fuel hs
        obtain ⟨t', rfl, ht'⟩ := split_skipWs heq ht
        exact ⟨'{' :: (t' ++ ['}']), by simp, (closed_bracket ht').1⟩
    · split at h
      · rename_i heq
        cases h
        obtain ⟨t, rfl, ht⟩ := split_skipWs (t := []) heq closed_nil
        exact ⟨'[' :: (t ++ [']']), by simp, (closed_bracket ht).2⟩
      · obtain ⟨⟨xs, s₁⟩, hs, h'⟩ := bind_eq_some_iff.mp h
        cases h'
        obtain ⟨t, heq, ht⟩ := scanItems_split fuel hs
        obtain ⟨t', rfl, ht'⟩ := split_skipWs heq ht
        exact ⟨'[' :: (t' ++ [']']), by simp, (closed_bracket ht').2⟩
    · cases h
      exact ⟨['n', 'u', 'l', 'l'], rfl, closed_of_plain (forall_char_of_all rfl)⟩
    · cases h
      exact ⟨['t', 'r', 'u', 'e'], rfl, closed_of_plain (forall_char_of_all rfl)⟩
    · cases h
      exact ⟨['f', 'a', 'l', 's', 'e'], rfl, closed_of_plain (forall_char_of_all rfl)⟩
    · cases h
      exact ⟨['N', 'a', 'N'], rfl, closed_of_plain (forall_char_of_all rfl)⟩
    · cases h
      exact ⟨['I', 'n', 'f', 'i', 'n', 'i', 't', 'y'], rfl, closed_of_plain (forall_char_of_all rfl)⟩
    · cases h
      exact ⟨['-', 'I', 'n', 'f', 'i', 'n', 'i', 't', 'y'], rfl, closed_of_plain (forall_char_of_all rfl)⟩
    · obtain ⟨t, hs, ht⟩ := scanNumber_split h
      exact ⟨t, hs, closed_of_plain fun c hc => (ht c hc).plain⟩

theorem scanItems_split : ∀ (fuel : Nat) {s r : List Char} {xs : List Json},
    scanItems fuel s = some (xs, r) → ∃ t, s = t ++ ']' :: r ∧ Closed t
  | 0, s, r, xs, h => by cases h
  | fuel + 1, s, r, xs, h => by
    rw [scanItems] at h
    obtain ⟨⟨x, s₁⟩, hx, h'⟩ := Option.bind_eq_some_iff.mp h
    obtain ⟨t, rfl, ht⟩ := scanOnce_split fuel hx
    dsimp only at h'
    split at h'
    · rename_i heq
      cases h'
      obtain ⟨t', rfl, ht'⟩ := split_skipWs (t := []) heq closed_nil
      exact ⟨t ++ t', by simp, ht.append ht'⟩
    · rename_i heq
      obtain ⟨⟨ys, s₂⟩, hys, h''⟩ := bind_eq_some_iff.mp h'
      cases h''
      obtain ⟨t₂, heq₂, ht₂⟩ := scanItems_split fuel hys
      obtain ⟨t₃, rfl, ht₃⟩ := split_skipWs heq₂ ht₂
      obtain ⟨t', rfl, ht'⟩ := split_skipWs (t := [',']) heq (closed_of_plain (forall_char_of_all rfl))
      exact ⟨t ++ (t' ++ t₃), by simp, ht.append (ht'.append ht₃)⟩
    · cases h'

theorem scanPairs_split : ∀ (fuel : Nat) {s r : List Char} {fs : Dict},
    scanPairs fuel s = some (fs, r) → ∃ t, s = t ++ '}' :: r ∧ Closed t
  | 0, s, r, fs, h => by cases h
  | fuel + 1, s, r, fs, h => by
    rw [scanPairs.eq_def] at h
    dsimp only at h
    split at h
    · obtain ⟨⟨key, s₁⟩, hk, h₁⟩ := Option.bind_eq_some_iff.mp h
      obtain ⟨tk, rfl, htk⟩ := scanString_split _ hk
      dsimp only at h₁
      split at h₁
      · rename_i heq
        obtain ⟨⟨v, s₂⟩, hv, h₂⟩ := Option.bind_eq_some_iff.mp h₁
        obtain ⟨tv, heqv, htv⟩ := scanOnce_split fuel hv
        obtain ⟨tv', rfl, htv'⟩ := split_skipWs heqv htv
        obtain ⟨tc, rfl, htc⟩ := split_skipWs (t := [':']) heq (closed_of_plain (forall_char_of_all rfl))
        have hfront : Closed ('"' :: tk ++ (tc ++ tv')) :=
          (closed_string htk).append (htc.append htv')
        dsimp only at h₂
        split at h₂
        · rename_i heq₂
          cases h₂
          obtain ⟨t', rfl, ht'⟩ := split_skipWs (t := []) heq₂ closed_nil
          exact ⟨'"' :: tk ++ (tc ++ tv') ++ t', by simp, hfront.append ht'⟩
        · rename_i heq₂
          obtain ⟨⟨ps, s₃⟩, hps, h₃⟩ := bind_eq_some_iff.mp h₂
          cases h₃
          obtain ⟨t₂, heq₃, ht₂⟩ := scanPairs_split fuel hps
          obtain ⟨t₃, rfl, ht₃⟩ := split_skipWs heq₃ ht₂
          obtain ⟨t', rfl, ht'⟩ := split_skipWs (t := [',']) heq₂ (closed_of_plain (forall_char_of_all rfl))
          exact ⟨'"' :: tk ++ (tc ++ tv') ++ (t' ++ t₃), by simp, hfront.append (ht'.append ht₃)⟩
        · cases h₂
      · cases h₁
    · cases h

end

/-- A text that is read is closed. -/
theorem loads_closed (h : loads s = some v) : Closed s := by
  rw [loads] at h
  obtain ⟨⟨v', r⟩, hs, h'⟩ := bind_eq_some_iff.mp h
  obtain ⟨t, heq, ht⟩ := scanOnce_split _ hs
  obtain ⟨t', rfl, ht'⟩ := split_skipWs heq ht
  dsimp only at h'
  split at h'
  · rename_i hr
    obtain ⟨w, hw, hcw⟩ := closed_skipWs r
    rw [hr, append_nil] at hw
    rw [hw]
    exact ht'.append hcw
  · cases h'

/-! ### What is written stays inside its brackets -/

theorem prefix_append_cases (h : p <+: s ++ t) : p <+: s ∨ ∃ r, p = s ++ r ∧ r <+: t := by
  obtain ⟨r, hr⟩ := h
  rcases append_eq_append_iff.mp hr with ⟨a, hs, -⟩ | ⟨a, hp, ht⟩
  · exact .inl ⟨a, hs.symm⟩
  · exact .inr ⟨a, hp, r, ht.symm⟩

/-- A text that is closed and never gets below the depth it was entered with. -/
def Within (s : List Char) : Prop :=
  Closed s ∧ ∀ d, ∀ p, p <+: s → ∃ m d', steps (.out, d) p = some (m, d') ∧ d ≤ d'

theorem Within.append (hs : Within s) (ht : Within t) : Within (s ++ t) := by
  refine ⟨hs.1.append ht.1, ?_⟩
  intro d p hp
  rcases prefix_append_cases hp with hp | ⟨r, rfl, hr⟩
  · exact hs.2 d p hp
  · rw [steps_append, hs.1 d]
    exact ht.2 d r hr

theorem within_plain (h : ∀ c ∈ s, Plain c) : Within s := by
  refine ⟨closed_of_plain h, ?_⟩
  intro d p hp
  exact ⟨.out, d, closed_of_plain (fun c hc => h c (hp.subset hc)) d, Int.le_refl d⟩

/-- A text inside a string, to any point of it. -/
def Inside (s : List Char) : Prop :=
  ∀ d, steps (.str, d) s = some (.str, d) ∧ ∀ p, p <+: s → ∃ m, steps (.str, d) p = some (m, d)

theorem Inside.append (hs : Inside s) (ht : Inside t) : Inside (s ++ t) := by
  intro d
  refine ⟨?_, ?_⟩
  · rw [steps_append, (hs d).1]
    exact (ht d).1
  · intro p hp
    rcases prefix_append_cases hp with hp | ⟨r, rfl, hr⟩
    · exact (hs d).2 p hp
    · rw [steps_append, (hs d).1]
      exact (ht d).2 r hr

theorem inside_chars (h : ∀ c ∈ s, c ≠ '"' ∧ c ≠ '\\') : Inside s := by
  intro d
  refine ⟨steps_str h d, ?_⟩
  intro p hp
  exact ⟨.str, steps_str (fun c hc => h c (hp.subset hc)) d⟩

theorem inside_escaped (e : Char) : Inside ['\\', e] := by
  intro d
  refine ⟨rfl, ?_⟩
  intro p hp
  rcases prefix_cons_iff.mp hp with rfl | ⟨r, rfl, hr⟩
  · exact ⟨_, rfl⟩
  rcases prefix_cons_iff.mp hr with rfl | ⟨r', rfl, hr'⟩
  · exact ⟨.esc, rfl⟩
  · rw [prefix_nil.mp hr']
    exact ⟨.str, rfl⟩

theorem inside_escapeChar (c : Char) : Inside (escapeChar c) := by
  rw [escapeChar]
  split
  · exact inside_escaped _
  · rename_i hc
    split
    · rename_i hlt
      refine (inside_escaped 'u').append (inside_chars ?_)
      intro x hx
      simp only [mem_cons, not_mem_nil, or_false] at hx
      rcases hx with rfl | rfl | rfl | rfl
      · decide
      · decide
      · exact hexValue_ne (hexValue_digitChar _ (by omega))
      · exact hexValue_ne (hexValue_digitChar _ (by omega))
    · refine inside_chars ?_
      intro x hx
      rw [mem_singleton] at hx
      refine ⟨?_, ?_⟩
      · intro he
        rw [← hx, he] at hc
        cases hc
      · intro he
        rw [← hx, he] at hc
        cases hc

theorem inside_escape (cs : List Char) : Inside (cs.flatMap escapeChar) := by
  induction cs with
  | nil =>
    intro d
    refine ⟨rfl, ?_⟩
    intro p hp
    rw [flatMap_nil, prefix_nil] at hp
    rw [hp]
    exact ⟨_, rfl⟩
  | cons c cs ih => exact (inside_escapeChar c).append ih

theorem within_dumpsString (k : String) : Within (dumpsString k) := by
  have hi := inside_escape k.toList
  refine ⟨fun d => ?_, ?_⟩
  · rw [dumpsString, steps_cons, step, if_pos rfl, bind_some, steps_append, (hi d).1]
    rfl
  · intro d p hp
    rcases prefix_cons_iff.mp hp with rfl | ⟨r, rfl, hr⟩
    · exact ⟨_, d, rfl, Int.le_refl d⟩
    · rw [steps_cons, step, if_pos rfl, bind_some]
      rcases prefix_append_cases hr with hr | ⟨r', rfl, hr'⟩
      · obtain ⟨m, hm⟩ := (hi d).2 r hr
        exact ⟨m, d, hm, Int.le_refl d⟩
      · rw [steps_append, (hi d).1]
        rcases prefix_cons_iff.mp hr' with rfl | ⟨r'', rfl, hr''⟩
        · exact ⟨_, d, rfl, Int.le_refl d⟩
        · rw [prefix_nil.mp hr'']
          exact ⟨_, d, rfl, Int.le_refl d⟩

/-- Between a bracket and the one that closes it the depth is at least one more. -/
theorem steps_bracket {b b' : Char} (hb : b = '{' ∨ b = '[') (ht : Within t) (d : Int)
    (hp : p <+: b :: (t ++ [b'])) (hne : p ≠ []) (hlen : p ≠ b :: (t ++ [b'])) :
    ∃ m d', steps (.out, d) p = some (m, d') ∧ d + 1 ≤ d' := by
  have hstep : step (.out, d) b = some (.out, d + 1) := by
    rcases hb with rfl | rfl <;> rfl
  rcases List.prefix_cons_iff.mp hp with rfl | ⟨r, rfl, hr⟩
  · exact absurd rfl hne
  · rw [steps_cons, hstep, Option.bind_some]
    rcases List.prefix_concat_iff.mp hr with rfl | hr
    · exact absurd rfl hlen
    · exact ht.2 (d + 1) r hr

theorem within_bracket {b b' : Char} (hb : b = '{' ∧ b' = '}' ∨ b = '[' ∧ b' = ']')
    (ht : Within t) : Within (b :: (t ++ [b'])) := by
  have hc : Closed (b :: (t ++ [b'])) := by
    rcases hb with ⟨rfl, rfl⟩ | ⟨rfl, rfl⟩
    · exact (closed_bracket ht.1).1
    · exact (closed_bracket ht.1).2
  refine ⟨hc, ?_⟩
  intro d p hp
  by_cases hne : p = []
  · rw [hne]
    exact ⟨_, d, rfl, Int.le_refl d⟩
  by_cases hlen : p = b :: (t ++ [b'])
  · rw [hlen, hc d]
    exact ⟨_, d, rfl, Int.le_refl d⟩
  · obtain ⟨m, d', hm, hd⟩ := steps_bracket (hb.imp And.left And.left) ht d hp hne hlen
    exact ⟨m, d', hm, by omega⟩

theorem within_number (h : scanNumber s = some (v, [])) : Within s := by
  obtain ⟨t, rfl, ht⟩ := scanNumber_split h
  rw [append_nil]
  exact within_plain fun c hc => (ht c hc).plain

mutual

/-- **What is written stays inside its brackets.** -/
theorem within_dumps : ∀ {v : Json}, Canonical v → Within (dumps v)
  | null, _ => within_plain (forall_char_of_all rfl)
  | bool true, _ => within_plain (forall_char_of_all rfl)
  | bool false, _ => within_plain (forall_char_of_all rfl)
  | int n, _ => within_number (scanNumber_dumpsInt n)
  | float repr, h => by
    rcases h with rfl | rfl | rfl | h
    · exact within_plain (forall_char_of_all rfl)
    · exact within_plain (forall_char_of_all rfl)
    · exact within_plain (forall_char_of_all rfl)
    · exact within_number h
  | str s, _ => within_dumpsString s
  | arr xs, h => within_bracket (.inr ⟨rfl, rfl⟩) (within_dumpsItems h)
  | obj fs, h => within_bracket (.inl ⟨rfl, rfl⟩) (within_dumpsFields h.2)

theorem within_dumpsItems : ∀ {xs : List Json}, CanonicalItems xs → Within (dumpsItems xs)
  | [], _ => within_plain (by simp [dumpsItems])
  | [x], h => within_dumps h.1
  | x :: y :: xs, h =>
    (within_dumps h.1).append ((within_plain (s := [',']) (forall_char_of_all rfl)).append
      (within_dumpsItems h.2))

theorem within_dumpsFields : ∀ {fs : Dict}, CanonicalFields fs → Within (dumpsFields fs)
  | [], _ => within_plain (by simp [dumpsFields])
  | [(k, v)], h =>
    (within_dumpsString k).append ((within_plain (s := [':']) (forall_char_of_all rfl)).append
      (within_dumps h.1))
  | (k, v) :: f :: fs, h =>
    (within_dumpsString k).append ((within_plain (s := [':']) (forall_char_of_all rfl)).append
      ((within_dumps h.1).append ((within_plain (s := [',']) (forall_char_of_all rfl)).append
        (within_dumpsFields h.2))))

end

/-! ### Two readers, one inside a string and one outside -/

/-- Exactly one of the two is inside a string. -/
def Opposite (q q' : Mode × Int) : Prop :=
  q.1 = .out ∧ q'.1 = .str ∨ q.1 = .str ∧ q'.1 = .out

theorem Opposite.symm {q q' : Mode × Int} (h : Opposite q q') : Opposite q' q := by
  rcases h with ⟨h, h'⟩ | ⟨h, h'⟩
  · exact .inr ⟨h', h⟩
  · exact .inl ⟨h', h⟩

/-- A quote exchanges the two; a backslash is refused by the one outside. -/
theorem opposite_step_out {d d' : Int} {r r' : Mode × Int} (hr : step (.out, d) c = some r)
    (hr' : step (.str, d') c = some r') : Opposite r r' := by
  simp only [step] at hr hr'
  split at hr
  · rename_i hq
    rw [if_pos hq] at hr'
    cases hr
    cases hr'
    exact .inr ⟨rfl, rfl⟩
  · rename_i hq
    rw [if_neg hq] at hr'
    split at hr
    · cases hr
    · rename_i hb
      rw [if_neg hb] at hr'
      cases hr'
      refine .inl ⟨?_, rfl⟩
      split at hr
      · cases hr
        rfl
      split at hr
      all_goals
        cases hr
        rfl

theorem opposite_step {q q' r r' : Mode × Int} (h : Opposite q q') (hr : step q c = some r)
    (hr' : step q' c = some r') : Opposite r r' := by
  obtain ⟨m, d⟩ := q
  obtain ⟨m', d'⟩ := q'
  rcases h with ⟨hm, hm'⟩ | ⟨hm, hm'⟩
  · cases hm
    cases hm'
    exact opposite_step_out hr hr'
  · cases hm
    cases hm'
    exact (opposite_step_out hr' hr).symm

theorem opposite_steps : ∀ {q q' r r' : Mode × Int}, Opposite q q' →
    steps q s = some r → steps q' s = some r' → Opposite r r' := by
  induction s with
  | nil =>
    intro q q' r r' h hr hr'
    cases hr
    cases hr'
    exact h
  | cons c s ih =>
    intro q q' r r' h hr hr'
    rw [steps_cons] at hr hr'
    obtain ⟨q₁, hq₁, hr⟩ := bind_eq_some_iff.mp hr
    obtain ⟨q₂, hq₂, hr'⟩ := bind_eq_some_iff.mp hr'
    exact ih (opposite_step h hq₁ hq₂) hr hr'

/-- From two depths in one mode the same text leads to the same difference of depths. -/
theorem depth_eq_of_steps {m : Mode} {d e d' : Int} {r : Mode} (h : steps (m, e) s = some (r, d'))
    (h' : steps (m, d) s = some (r, d')) : d = e := by
  have hs := steps_shift (d - e) s m e
  rw [show e + (d - e) = d by omega, h', h] at hs
  have := congrArg Prod.snd (Option.some.inj hs)
  dsimp only at this
  omega

/-- A text that starts a reader in the middle, deeper than it ends, is not closed. -/
theorem not_closed_of_deeper {m : Mode} {d : Int} (hs : s ≠ []) (hd : 1 ≤ d)
    (h : steps (m, d) s = some (.out, 0)) : ¬ Closed s := by
  intro hc
  have h0 := hc 0
  cases m with
  | out =>
    have := depth_eq_of_steps h0 h
    omega
  | str =>
    rcases opposite_steps (.inl ⟨rfl, rfl⟩) h0 h with ⟨-, h⟩ | ⟨h, -⟩ <;> cases h
  | esc =>
    cases s with
    | nil => exact hs rfl
    | cons c s =>
      rw [steps_cons] at h h0
      rw [step, bind_some] at h
      obtain ⟨q, hq, h0⟩ := bind_eq_some_iff.mp h0
      rw [step] at hq
      split at hq
      · cases hq
        have := depth_eq_of_steps h0 h
        omega
      split at hq
      · cases hq
      · have ho : Opposite q (.str, d) := by
          split at hq
          · cases hq
            exact .inl ⟨rfl, rfl⟩
          split at hq
          all_goals
            cases hq
            exact .inl ⟨rfl, rfl⟩
        rcases opposite_steps ho h0 h with ⟨-, h⟩ | ⟨h, -⟩ <;> cases h

/-- **No proper suffix of the text of an object is a JSON text.** -/
theorem loads_suffix_eq_none {fs : Dict} (hv : Canonical (.obj fs)) (h : dumps (.obj fs) = p ++ s)
    (hp : p ≠ []) : loads s = none := by
  by_cases hs : s = []
  · rw [hs]
    rfl
  cases hl : loads s with
  | none => rfl
  | some v =>
    exfalso
    have hw := within_dumps hv
    have hb : dumps (.obj fs) = '{' :: (dumpsFields fs ++ ['}']) := rfl
    have hprefix : p <+: '{' :: (dumpsFields fs ++ ['}']) := ⟨s, by rw [← hb, h]⟩
    have hproper : p ≠ '{' :: (dumpsFields fs ++ ['}']) := by
      intro he
      rw [hb, ← he] at h
      exact hs (self_eq_append_right.mp h)
    obtain ⟨m, d, hm, hd⟩ :=
      steps_bracket (.inl rfl) (within_dumpsFields hv.2) 0 hprefix hp hproper
    have hend := hw.1 0
    rw [h, steps_append, hm, bind_some] at hend
    exact not_closed_of_deeper hs (by omega) hend (loads_closed hl)

end KolegaCode.Json
