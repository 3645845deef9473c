import KolegaCode.Lib.JsonRoundTrip

/-!
# Lib — reading JSON with hooks

`json.loads` with an `object_pairs_hook`, called with the pairs of every object when it closes,
repeated keys and all, and a `parse_constant`, called with `NaN` and the infinities.  What a hook
raises ends the reading.

`Reads` says what value a text is read as, whatever writer has written it; the reader without hooks
is the one whose hooks change nothing (`loads_eq`).
-/

namespace KolegaCode.Json

open List Option

/-- What ends the reading: the text itself, or a hook. -/
inductive LoadError (ε : Type) where
  | syntaxError
  | hook (e : ε)
deriving DecidableEq, Repr

structure Hooks (ε : Type) where
  objectPairs : Dict → Except ε Json
  constant : String → Except ε Json

def orSyntaxError {ε α : Type} : Option α → Except (LoadError ε) α
  | some a => .ok a
  | none => .error .syntaxError

def ofHook {ε α : Type} : Except ε α → Except (LoadError ε) α
  | .ok a => .ok a
  | .error e => .error (.hook e)

variable {ε : Type} (hooks : Hooks ε)

mutual

/-- A value at the front of the text, and the rest. -/
def scanOnceWith : (fuel : Nat) → List Char → Except (LoadError ε) (Json × List Char)
  | 0, _ => .error .syntaxError
  | fuel + 1, s =>
    match s with
    | '"' :: s => do
      let (cs, s) ← orSyntaxError (scanString (s.length + 1) s)
      .ok (.str (String.ofList cs), s)
    | '{' :: s =>
      match skipWs s with
      | '}' :: s => do
        let value ← ofHook (hooks.objectPairs [])
        .ok (value, s)
      | s => do
        let (pairs, s) ← scanPairsWith fuel s
        let value ← ofHook (hooks.objectPairs pairs)
        .ok (value, s)
    | '[' :: s =>
      match skipWs s with
      | ']' :: s => .ok (.arr [], s)
      | s => do
        let (xs, s) ← scanItemsWith fuel s
        .ok (.arr xs, s)
    | 'n' :: 'u' :: 'l' :: 'l' :: s => .ok (.null, s)
    | 't' :: 'r' :: 'u' :: 'e' :: s => .ok (.bool true, s)
    | 'f' :: 'a' :: 'l' :: 's' :: 'e' :: s => .ok (.bool false, s)
    | 'N' :: 'a' :: 'N' :: s => do
      let value ← ofHook (hooks.constant "NaN")
      .ok (value, s)
    | 'I' :: 'n' :: 'f' :: 'i' :: 'n' :: 'i' :: 't' :: 'y' :: s => do
      let value ← ofHook (hooks.constant "Infinity")
      .ok (value, s)
    | '-' :: 'I' :: 'n' :: 'f' :: 'i' :: 'n' :: 'i' :: 't' :: 'y' :: s => do
      let value ← ofHook (hooks.constant "-Infinity")
      .ok (value, s)
    | s => orSyntaxError (scanNumber s)

/-- The items of a list up to its end. -/
def scanItemsWith : (fuel : Nat) → List Char → Except (LoadError ε) (List Json × List Char)
  | 0, _ => .error .syntaxError
  | fuel + 1, s => do
    let (x, s) ← scanOnceWith fuel s
    match skipWs s with
    | ']' :: s => .ok ([x], s)
    | ',' :: s => do
      let (xs, s) ← scanItemsWith fuel (skipWs s)
      .ok (x :: xs, s)
    | _ => .error .syntaxError

/-- The items of a dictionary up to its end, starting at the quote of a key. -/
def scanPairsWith : (fuel : Nat) → List Char → Except (LoadError ε) (Dict × List Char)
  | 0, _ => .error .syntaxError
  | fuel + 1, s =>
    match s with
    | '"' :: s => do
      let (key, s) ← orSyntaxError (scanString (s.length + 1) s)
      match skipWs s with
      | ':' :: s => do
        let (value, s) ← scanOnceWith fuel (skipWs s)
        match skipWs s with
        | '}' :: s => .ok ([(String.ofList key, value)], s)
        | ',' :: s => do
          let (pairs, s) ← scanPairsWith fuel (skipWs s)
          .ok ((String.ofList key, value) :: pairs, s)
        | _ => .error .syntaxError
      | _ => .error .syntaxError
    | _ => .error .syntaxError

end

/-- `json.loads(text, object_pairs_hook=…, parse_constant=…)`. -/
def loadsWith (text : List Char) : Except (LoadError ε) Json := do
  let (value, s) ← scanOnceWith hooks (text.length + 1) (skipWs text)
  if skipWs s = [] then .ok value else .error .syntaxError

/-! ### Strict hooks -/

/-- The dictionary of pairs without a repeated key. -/
def rejectDuplicateKeys {ε : Type} (duplicate : ε) (pairs : Dict) : Except ε Json := do
  let result ← pairs.foldlM
    (fun result p =>
      if p.1 ∈ result.map Prod.fst then .error duplicate else .ok (set result p.1 p.2))
    ([] : Dict)
  return .obj result

/-- No repeated key, and no `NaN` or infinity. -/
def Hooks.strict {ε : Type} (duplicate nonFinite : ε) : Hooks ε where
  objectPairs := rejectDuplicateKeys duplicate
  constant _ := .error nonFinite

/-! ### Values without `NaN` and infinities -/

mutual

/-- What `json.dumps` writes with `allow_nan=False`. -/
def finite : Json → Bool
  | float s => decide (s ≠ "NaN" ∧ s ≠ "Infinity" ∧ s ≠ "-Infinity")
  | arr xs => finiteItems xs
  | obj fs => finiteFields fs
  | _ => true

def finiteItems : List Json → Bool
  | [] => true
  | x :: xs => finite x && finiteItems xs

def finiteFields : Dict → Bool
  | [] => true
  | (_, v) :: fs => finite v && finiteFields fs

end

/-! ### Hooks that change nothing -/

/-- The hook takes pairs whose keys are distinct for the dictionary they are. -/
def Hooks.Plain : Prop :=
  ∀ fs : Dict, (fs.map Prod.fst).Nodup → hooks.objectPairs fs = .ok (.obj fs)

theorem Hooks.plain_strict {ε : Type} (duplicate nonFinite : ε) :
    (Hooks.strict duplicate nonFinite).Plain := by
  have hfold : ∀ (fs d : Dict), ((d ++ fs).map Prod.fst).Nodup →
      fs.foldlM (fun result p =>
        if p.1 ∈ result.map Prod.fst then .error duplicate else .ok (set result p.1 p.2)) d =
          (.ok (d ++ fs) : Except ε Dict) := by
    intro fs
    induction fs with
    | nil =>
      intro d _
      rw [append_nil]
      rfl
    | cons p fs ih =>
      intro d hd
      obtain ⟨k, v⟩ := p
      have hk : k ∉ d.map Prod.fst := by
        rw [map_append, nodup_append'] at hd
        exact fun hm => hd.2.2 hm (by simp)
      rw [append_cons d (k, v) fs] at hd ⊢
      rw [foldlM_cons, if_neg hk, set_of_not_mem v hk]
      exact ih (d ++ [(k, v)]) hd
  intro fs hfs
  show (fs.foldlM _ [] >>= fun result => pure (Json.obj result)) = _
  rw [hfold fs [] hfs]
  rfl

variable {hooks}

theorem scanOnceWith_number {s : List Char} {p : Json × List Char} (fuel : Nat)
    (h : scanNumber s = some p) : scanOnceWith hooks (fuel + 1) s = .ok p := by
  obtain ⟨c, t, rfl, hc⟩ := scanNumber_head h
  rw [scanOnceWith.eq_def]
  dsimp only
  split <;> rename_i heq
  case h_9 =>
    cases heq
    rcases hc with hc | ⟨-, d, u, hdu, hd⟩
    · cases hc
    · cases hdu
      cases hd
  case h_10 => rw [h, orSyntaxError]
  all_goals
    cases heq
    rcases hc with hc | ⟨hc, -⟩ <;> cases hc

/-! ### What a text reads as -/

theorem skipWs_append {w : List Char} (hw : ∀ c ∈ w, isWs c = true) {c : Char}
    (hc : isWs c = false) (s : List Char) : skipWs (w ++ c :: s) = c :: s := by
  rw [skipWs, dropWhile_append_of_pos hw]
  exact skipWs_cons hc

/-- A text between quotes reads as a string. -/
def ReadsString (q : List Char) (k : String) : Prop :=
  ∃ body, q = '"' :: body ∧
    ∀ r, scanString ((body ++ r).length + 1) (body ++ r) = some (k.toList, r)

variable (hooks)

mutual

/-- The text of a value, with white space where it may stand after a comma or a colon. -/
inductive Reads : List Char → Json → Prop where
  | word {c : Char} {t : List Char} {v : Json} : isWs c = false → c ≠ ']' →
    (∀ fuel r, Delimited r → scanOnceWith hooks (fuel + 1) (c :: (t ++ r)) = .ok (v, r)) →
    Reads (c :: t) v
  | arr {t : List Char} {xs : List Json} : ReadsItems t xs → Reads ('[' :: t) (.arr xs)
  | obj {t : List Char} {fs : Dict} {v : Json} : ReadsFields t fs →
    hooks.objectPairs fs = .ok v → Reads ('{' :: t) v

/-- The items of a list up to its end. -/
inductive ReadsItems : List Char → List Json → Prop where
  | last {t : List Char} {x : Json} : Reads t x → ReadsItems (t ++ [']']) [x]
  | cons {t w s : List Char} {x : Json} {xs : List Json} : Reads t x →
    (∀ c ∈ w, isWs c = true) → ReadsItems s xs → ReadsItems (t ++ ',' :: (w ++ s)) (x :: xs)

/-- The items of a dictionary up to its end. -/
inductive ReadsFields : List Char → Dict → Prop where
  | last {q w t : List Char} {k : String} {v : Json} : ReadsString q k →
    (∀ c ∈ w, isWs c = true) → Reads t v →
    ReadsFields (q ++ ':' :: (w ++ (t ++ ['}']))) [(k, v)]
  | cons {q w t s : List Char} {k : String} {v : Json} {fs : Dict} : ReadsString q k →
    (∀ c ∈ w, isWs c = true) → Reads t v → ReadsFields s fs →
    ReadsFields (q ++ ':' :: (w ++ (t ++ ',' :: (w ++ s)))) ((k, v) :: fs)

end

variable {hooks}

variable {t : List Char} {v : Json} {fs : Dict}

theorem Reads.of_scan (hhead : ∃ c s, t = c :: s ∧ isWs c = false ∧ c ≠ ']')
    (h : ∀ fuel r, Delimited r → scanOnceWith hooks (fuel + 1) (t ++ r) = .ok (v, r)) :
    Reads hooks t v := by
  obtain ⟨c, s, rfl, hc, hne⟩ := hhead
  exact .word hc hne h

theorem Reads.head (h : Reads hooks t v) : ∃ c s, t = c :: s ∧ isWs c = false ∧ c ≠ ']' := by
  cases h with
  | word hc hne => exact ⟨_, _, rfl, hc, hne⟩
  | arr | obj => exact ⟨_, _, rfl, by decide, by decide⟩

theorem ReadsItems.head {xs : List Json} (h : ReadsItems hooks t xs) :
    ∃ c s, t = c :: s ∧ isWs c = false ∧ c ≠ ']' := by
  cases h with
  | last hx | cons hx =>
    obtain ⟨c, s, rfl, hc⟩ := hx.head
    exact ⟨c, _, rfl, hc⟩

theorem ReadsFields.head (h : ReadsFields hooks t fs) : ∃ s, t = '"' :: s := by
  cases h with
  | last hq | cons hq =>
    obtain ⟨body, rfl, -⟩ := hq
    exact ⟨_, rfl⟩

/-- An object is read when its items are, whatever comes after it. -/
theorem ReadsFields.scanOnceWith {r : List Char} {fuel : Nat} (h : ReadsFields hooks t fs)
    (hv : hooks.objectPairs fs = .ok v) (hpairs : scanPairsWith hooks fuel (t ++ r) = .ok (fs, r)) :
    scanOnceWith hooks (fuel + 1) ('{' :: (t ++ r)) = .ok (v, r) := by
  obtain ⟨s, rfl⟩ := h.head
  rw [List.cons_append] at hpairs ⊢
  rw [Json.scanOnceWith, skipWs_cons (by decide)]
  split
  next heq => exact absurd (List.cons.inj heq).1 (by decide)
  · simp only [hpairs, bind, Except.bind, hv, ofHook]

mutual

/-- **The text is read** in front of a delimiter. -/
theorem Reads.scan : ∀ {t : List Char} {v : Json}, Reads hooks t v → ∀ (fuel : Nat) (r : List Char),
    Delimited r → t.length ≤ fuel → scanOnceWith hooks fuel (t ++ r) = .ok (v, r)
  | _, _, .word _ _ h, fuel + 1, r, hr, _ => h fuel r hr
  | _, _, .arr h, fuel + 1, r, _, hf => by
    have hitems := h.scan fuel r (Nat.le_of_succ_le_succ hf)
    obtain ⟨c, s, rfl, hc, hne⟩ := h.head
    rw [cons_append] at hitems ⊢
    rw [cons_append, scanOnceWith, skipWs_cons hc]
    split
    · next heq => exact absurd (List.cons.inj heq).1 hne
    · rw [hitems]
      rfl
  | _, _, .obj h hv, fuel + 1, r, _, hf =>
    h.scanOnceWith hv (h.scan fuel r (Nat.le_of_succ_le_succ hf))

theorem ReadsItems.scan : ∀ {t : List Char} {xs : List Json}, ReadsItems hooks t xs →
    ∀ (fuel : Nat) (r : List Char), t.length ≤ fuel →
    scanItemsWith hooks fuel (t ++ r) = .ok (xs, r)
  | _, _, .last h, 0, _, hf => absurd hf (by simp)
  | _, _, .last h, fuel + 1, r, hf => by
    have hx := h.scan fuel (']' :: r) (delimited_cons (by simp)) (by
      rw [length_append] at hf
      exact Nat.le_of_succ_le_succ hf)
    rw [append_assoc, singleton_append, scanItemsWith, hx]
    rfl
  | _, _, .cons (w := w) (s := s) h hw hs, 0, _, hf => absurd hf (by simp)
  | _, _, .cons (w := w) (s := s) h hw hs, fuel + 1, r, hf => by
    simp only [length_append, length_cons] at hf
    have hx := h.scan fuel (',' :: (w ++ (s ++ r))) (delimited_cons (by simp)) (by omega)
    have hxs := hs.scan fuel r (by omega)
    obtain ⟨c, s', rfl, hc, -⟩ := hs.head
    rw [append_assoc, cons_append, append_assoc, scanItemsWith, hx]
    rw [cons_append] at hxs ⊢
    simp only [bind, Except.bind, skipWs_cons (show isWs ',' = false from rfl),
      skipWs_append hw hc, hxs]

theorem ReadsFields.scan : ∀ {t : List Char} {fs : Dict}, ReadsFields hooks t fs →
    ∀ (fuel : Nat) (r : List Char), t.length ≤ fuel →
    scanPairsWith hooks fuel (t ++ r) = .ok (fs, r)
  | _, _, .last (t := t) hq hw h, 0, _, hf => absurd hf (by simp)
  | _, _, .last hq hw h, fuel + 1, r, hf => by
    simp only [length_append, length_cons] at hf
    have hx := h.scan fuel ('}' :: r) (delimited_cons (by simp)) (by omega)
    obtain ⟨body, rfl, hbody⟩ := hq
    obtain ⟨c, s', rfl, hc, -⟩ := h.head
    simp only [append_assoc, cons_append, nil_append] at hx ⊢
    rw [scanPairsWith, hbody]
    simp only [orSyntaxError, bind, Except.bind, skipWs_cons (show isWs ':' = false from rfl),
      skipWs_append hw hc, hx, skipWs_cons (show isWs '}' = false from rfl), String.ofList_toList]
  | _, _, .cons hq hw h hs, 0, _, hf => absurd hf (by simp)
  | _, _, .cons (w := w) (s := s) hq hw h hs, fuel + 1, r, hf => by
    simp only [length_append, length_cons] at hf
    have hx := h.scan fuel (',' :: (w ++ (s ++ r))) (delimited_cons (by simp)) (by omega)
    have hxs := hs.scan fuel r (by omega)
    obtain ⟨body, rfl, hbody⟩ := hq
    obtain ⟨c, t', rfl, hc, -⟩ := h.head
    obtain ⟨s', rfl⟩ := hs.head
    simp only [append_assoc, cons_append] at hx hxs ⊢
    rw [scanPairsWith, hbody]
    simp only [orSyntaxError, bind, Except.bind, skipWs_cons (show isWs ':' = false from rfl),
      skipWs_append hw hc, hx, skipWs_cons (show isWs ',' = false from rfl),
      skipWs_append hw (show isWs '"' = false by decide), hxs, String.ofList_toList]

end

/-! ### What is written -/

theorem readsString_dumpsString (k : String) : ReadsString (dumpsString k) k :=
  ⟨k.toList.flatMap escapeChar ++ ['"'], by simp [dumpsString], fun r => by
    simpa using scanString_dumpsString k r⟩

theorem reads_string {q : List Char} {k : String} (h : ReadsString q k) :
    Reads hooks q (.str k) := by
  obtain ⟨body, rfl, hbody⟩ := h
  refine .word (by decide) (by decide) fun fuel r _ => ?_
  rw [scanOnceWith, hbody]
  simp [orSyntaxError, bind, Except.bind]

theorem reads_number (h : scanNumber t = some (v, [])) : Reads hooks t v := by
  have hscan : ∀ fuel r, Delimited r → scanOnceWith hooks (fuel + 1) (t ++ r) = .ok (v, r) :=
    fun fuel r hr => scanOnceWith_number fuel (scanNumber_append hr h)
  have hdigit : ∀ c : Char, c.isDigit = true → isWs c = false ∧ c ≠ ']' := by
    intro c hc
    refine ⟨?_, fun h => by rw [h] at hc; cases hc⟩
    rw [← Bool.not_eq_true]
    intro hw
    simp only [isWs, Bool.or_eq_true, decide_eq_true_eq] at hw
    rcases hw with ((hw | hw) | hw) | hw <;> rw [hw] at hc <;> cases hc
  obtain ⟨c, s, rfl, hc | ⟨rfl, -⟩⟩ := scanNumber_head h
  · exact .word (hdigit c hc).1 (hdigit c hc).2 hscan
  · exact .word (by decide) (by decide) hscan

/-- A hook that takes `NaN` and the infinities for the floats they are. -/
def Hooks.Lenient (hooks : Hooks ε) : Prop := ∀ s, hooks.constant s = .ok (.float s)

theorem scanOnceWith_constant {s : String} (hs : s = "NaN" ∨ s = "Infinity" ∨ s = "-Infinity")
    (fuel : Nat) (r : List Char) : scanOnceWith hooks (fuel + 1) (s.toList ++ r) =
      (ofHook (hooks.constant s)).map fun value => (value, r) := by
  have hmap : ∀ x : Except (LoadError ε) Json, (do let value ← x; .ok (value, r)) =
      x.map fun value => (value, r) := fun x => by cases x <;> rfl
  rcases hs with rfl | rfl | rfl
  · exact (scanOnceWith.eq_8 ..).trans (hmap _)
  · exact (scanOnceWith.eq_9 ..).trans (hmap _)
  · exact (scanOnceWith.eq_10 ..).trans (hmap _)

theorem reads_float {s : String} (hv : Canonical (.float s))
    (h : finite (.float s) = true ∨ hooks.Lenient) : Reads hooks s.toList (.float s) := by
  have hconst : s = "NaN" ∨ s = "Infinity" ∨ s = "-Infinity" → ∀ fuel r, Delimited r →
      scanOnceWith hooks (fuel + 1) (s.toList ++ r) = .ok (.float s, r) := by
    intro hs fuel r _
    rw [scanOnceWith_constant hs, h.resolve_left fun hfinite => ?_]
    · rfl
    · obtain ⟨hnan, hinf, hneg⟩ := of_decide_eq_true hfinite
      exact hs.elim hnan (·.elim hinf hneg)
  rcases hv with hs | hs | hs | hv
  · exact .of_scan (by rw [hs]; exact ⟨'N', _, rfl, by decide, by decide⟩) (hconst (.inl hs))
  · exact .of_scan (by rw [hs]; exact ⟨'I', _, rfl, by decide, by decide⟩) (hconst (.inr (.inl hs)))
  · exact .of_scan (by rw [hs]; exact ⟨'-', _, rfl, by decide, by decide⟩) (hconst (.inr (.inr hs)))
  · exact reads_number hv

mutual

/-- The text of a value reads as the value. -/
theorem reads_dumps (hplain : hooks.Plain) : ∀ (v : Json), Canonical v →
    (finite v = true ∨ hooks.Lenient) → Reads hooks (dumps v) v
  | null, _, _ => .word (by decide) (by decide) fun _ _ _ => rfl
  | bool true, _, _ => .word (by decide) (by decide) fun _ _ _ => rfl
  | bool false, _, _ => .word (by decide) (by decide) fun _ _ _ => rfl
  | int n, _, _ => reads_number (scanNumber_dumpsInt n)
  | float s, hv, h => reads_float hv h
  | str s, _, _ => reads_string (readsString_dumpsString s)
  | arr [], _, _ => .word (by decide) (by decide) fun _ _ _ => rfl
  | arr (x :: xs), hv, h => .arr (readsItems_dumps hplain (x :: xs) (by simp) hv h)
  | obj [], _, _ => .word (by decide) (by decide) fun _ _ _ => by
    simp [dumpsFields, scanOnceWith, skipWs, isWs, hplain [] nodup_nil, ofHook, bind, Except.bind]
  | obj (p :: fs), hv, h =>
    .obj (readsFields_dumps hplain (p :: fs) (by simp) hv.2 h) (hplain _ hv.1)

theorem readsItems_dumps (hplain : hooks.Plain) : ∀ (xs : List Json), xs ≠ [] →
    CanonicalItems xs → (finiteItems xs = true ∨ hooks.Lenient) →
    ReadsItems hooks (dumpsItems xs ++ [']']) xs
  | [], h, _, _ => absurd rfl h
  | [x], _, hv, h =>
    .last (reads_dumps hplain x hv.1 (h.imp_left fun h => (Bool.and_eq_true_iff.mp h).1))
  | x :: y :: ys, _, hv, h => by
    rw [dumpsItems, List.append_assoc]
    · exact .cons (w := []) (reads_dumps hplain x hv.1
        (h.imp_left fun h => (Bool.and_eq_true_iff.mp h).1)) (by simp)
        (readsItems_dumps hplain (y :: ys) (by simp) hv.2
          (h.imp_left fun h => (Bool.and_eq_true_iff.mp h).2))
    · simp

theorem readsFields_dumps (hplain : hooks.Plain) : ∀ (fs : Dict), fs ≠ [] →
    CanonicalFields fs → (finiteFields fs = true ∨ hooks.Lenient) →
    ReadsFields hooks (dumpsFields fs ++ ['}']) fs
  | [], h, _, _ => absurd rfl h
  | [(k, v)], _, hv, h => by
    rw [dumpsFields, List.append_assoc]
    exact .last (w := []) (readsString_dumpsString k) (by simp)
      (reads_dumps hplain v hv.1 (h.imp_left fun h => (Bool.and_eq_true_iff.mp h).1))
  | (k, v) :: p :: fs, _, hv, h => by
    rw [dumpsFields]
    · simp only [append_assoc, cons_append]
      exact .cons (w := []) (readsString_dumpsString k) (by simp)
        (reads_dumps hplain v hv.1 (h.imp_left fun h => (Bool.and_eq_true_iff.mp h).1))
        (readsFields_dumps hplain (p :: fs) (by simp) hv.2
          (h.imp_left fun h => (Bool.and_eq_true_iff.mp h).2))
    · simp

end

/-! ### The round trip -/

theorem Reads.skipWs_append (h : Reads hooks t v) (r : List Char) : skipWs (t ++ r) = t ++ r := by
  obtain ⟨c, s, rfl, hc, -⟩ := h.head
  rw [cons_append, skipWs_cons hc]

theorem Reads.loadsWith (h : Reads hooks t v) : loadsWith hooks t = .ok v := by
  have hscan := h.scan (t.length + 1) [] delimited_nil (by omega)
  have hws := h.skipWs_append []
  rw [append_nil] at hscan hws
  rw [Json.loadsWith, hws, hscan]
  rfl

/-- **The round trip** through hooks that take distinct keys as they are. -/
theorem loadsWith_dumps (hplain : hooks.Plain) (hv : Canonical v) (hfinite : finite v = true) :
    loadsWith hooks (dumps v) = .ok v :=
  (reads_dumps hplain v hv (.inl hfinite)).loadsWith

/-- `json.loads` without hooks. -/
def Hooks.none : Hooks Unit where
  objectPairs fs := .ok (.obj (dictOf fs))
  constant s := .ok (.float s)

theorem Hooks.plain_none : Hooks.none.Plain := fun _ h =>
  congrArg (fun d => Except.ok (obj d)) (dictOf_eq_self h)

mutual

theorem scanOnce_eq : ∀ (fuel : Nat) (s : List Char),
    scanOnce fuel s = (scanOnceWith Hooks.none fuel s).toOption
  | 0, _ => rfl
  | fuel + 1, s => by
    rw [scanOnceWith.eq_def]
    dsimp only
    split
    case h_1 s => rw [scanOnce]; cases scanString (s.length + 1) s <;> rfl
    case h_2 s =>
      rw [scanOnce]
      -- one split when the two functions share their match, one for each otherwise
      split
      next heq => (try rw [heq]); rfl
      next hne =>
        try (split; next heq => exact absurd heq (hne _))
        rw [scanPairs_eq fuel]
        cases scanPairsWith Hooks.none fuel (skipWs s) <;> rfl
    case h_3 s =>
      rw [scanOnce]
      split
      next heq => (try rw [heq]); rfl
      next hne =>
        try (split; next heq => exact absurd heq (hne _))
        rw [scanItems_eq fuel]
        cases scanItemsWith Hooks.none fuel (skipWs s) <;> rfl
    case h_10 =>
      rw [scanOnce.eq_11 _ _ ‹_› ‹_› ‹_› ‹_› ‹_› ‹_› ‹_› ‹_› ‹_›]
      cases scanNumber _ <;> rfl
    all_goals rw [scanOnce]; rfl

theorem scanItems_eq : ∀ (fuel : Nat) (s : List Char),
    scanItems fuel s = (scanItemsWith Hooks.none fuel s).toOption
  | 0, _ => rfl
  | fuel + 1, s => by
    rw [scanItems, scanItemsWith, scanOnce_eq fuel s]
    cases scanOnceWith Hooks.none fuel s with
    | error e => rfl
    | ok p =>
      simp only [Except.toOption, bind_some, bind, Except.bind]
      split
      next heq => simp only [heq]
      next s' heq =>
        simp only [heq, scanItems_eq fuel]
        cases scanItemsWith Hooks.none fuel (skipWs s') <;> rfl
      next hend hnext =>
        split
        next heq => first | cases heq | (split at heq <;> simp_all)
        next => rfl

theorem scanPairs_eq : ∀ (fuel : Nat) (s : List Char),
    scanPairs fuel s = (scanPairsWith Hooks.none fuel s).toOption
  | 0, _ => rfl
  | fuel + 1, s => by
    rw [scanPairsWith.eq_def]
    dsimp only
    split
    next s =>
      rw [scanPairs]
      cases scanString (s.length + 1) s with
      | none => rfl
      | some p =>
        simp only [orSyntaxError, bind_some, bind, Except.bind]
        split
        next s' heq =>
          simp only [heq, scanOnce_eq]
          cases scanOnceWith Hooks.none fuel (skipWs s') with
          | error e => rfl
          | ok q =>
            simp only [Except.toOption, bind_some]
            split
            next heq => simp only [heq]
            next s' heq =>
              simp only [heq, scanPairs_eq fuel]
              cases scanPairsWith Hooks.none fuel (skipWs s') <;> rfl
            next hend hnext =>
              split
              next heq => first | cases heq | (split at heq <;> simp_all)
              next => rfl
        next hne =>
          try (split; next heq => exact absurd heq (hne _))
          rfl
    next hne => exact scanPairs.eq_3 _ _ hne

end

theorem loads_eq (t : List Char) : loads t = (loadsWith Hooks.none t).toOption := by
  rw [loads, loadsWith, scanOnce_eq]
  cases scanOnceWith Hooks.none (t.length + 1) (skipWs t) with
  | error e => rfl
  | ok p =>
    simp only [Except.toOption, bind_some, bind, Except.bind]
    split <;> rfl

/-- **The round trip**: a canonical value is read back from its text. -/
theorem loads_dumps (hv : Canonical v) : loads (dumps v) = some v := by
  rw [loads_eq, (reads_dumps Hooks.plain_none v hv (.inr fun _ => rfl)).loadsWith]
  rfl

theorem loads_dumps_append {k : String} {r : List Char} (hv : Canonical (.obj ((k, v) :: fs)))
    (hr : skipWs r = []) :
    loads (dumps (.obj ((k, v) :: fs)) ++ r) = some (.obj ((k, v) :: fs)) := by
  have h := readsFields_dumps Hooks.plain_none ((k, v) :: fs) (by simp) hv.2 (.inr fun _ => rfl)
  have hscan := h.scanOnceWith (r := r) (Hooks.plain_none _ hv.1)
    (h.scan (dumpsFields ((k, v) :: fs) ++ ['}'] ++ r).length.succ r
      (by simp only [length_append]; omega))
  rw [loads_eq, dumps, cons_append, loadsWith, skipWs_cons (by decide), length_cons, hscan]
  simp only [bind, Except.bind, hr, if_true]
  rfl

end KolegaCode.Json
