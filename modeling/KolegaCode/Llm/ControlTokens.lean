import KolegaCode.Llm.Arguments
import KolegaCode.Llm.Responses

/-!
# Llm — control tokens

What the escaping does to a text.  No spelling is left (`escape_clear`): what is put in for one
starts with a `<` that no bar follows, so no new one comes about.

In a document of `json.dumps` a spelling stands between quotes only, and as it is in the string:
the escaped document is the document of the escaped strings (`escape_dumps`).
-/

namespace KolegaCode.Responses

open List Option
open Text (rewrite Finder rewrite_append rewrite_cons rewrite_induction rewrite_append_of_clear
  prefix_of_rewrite infix_of_infix_append)
open OpenAi (escapeAscii dumpsAscii Readable ReadableItems ReadableFields merged)

/-- A control token is spelled in the text. -/
def Spells (l : List Char) : Prop := ∃ name ∈ CONTROL_TOKENS, spelling name <:+: l

instance (l : List Char) : Decidable (Spells l) :=
  inferInstanceAs (Decidable (∃ name ∈ CONTROL_TOKENS, spelling name <:+: l))

/-! ### Finding a token -/

section

variable {inert : List Char → List Char} {name l : List Char}

theorem findToken_spelling (hname : name ∈ CONTROL_TOKENS) (l : List Char) :
    findToken inert (spelling name ++ l) = some (spelling name, inert name) := by
  simp only [CONTROL_TOKENS, mem_cons, not_mem_nil, or_false] at hname
  rcases hname with rfl | rfl | rfl | rfl | rfl | rfl | rfl <;>
    simp [findToken, CONTROL_TOKENS, spelling]

theorem findToken_some {found new : List Char} (h : findToken inert l = some (found, new)) :
    ∃ name ∈ CONTROL_TOKENS, found = spelling name ∧ new = inert name ∧ found <+: l := by
  rw [findToken, map_eq_some_iff] at h
  obtain ⟨name, hfind, hpair⟩ := h
  cases hpair
  exact ⟨name, mem_of_find?_eq_some hfind, rfl, rfl, by simpa using find?_some hfind⟩

theorem findToken_eq_none :
    findToken inert l = none ↔ ∀ name ∈ CONTROL_TOKENS, ¬ spelling name <+: l := by
  simp [findToken]

theorem findToken_sound (inert : List Char → List Char) : (findToken inert).Sound := by
  intro l found new h
  obtain ⟨name, -, rfl, -, hprefix⟩ := findToken_some h
  exact ⟨cons_ne_nil _ _, hprefix⟩

theorem findToken_of_ne {c : Char} (hc : c ≠ '<') (l : List Char) :
    findToken inert (c :: l) = none :=
  findToken_eq_none.mpr fun _ _ h => hc (cons_prefix_cons.mp h).1.symm

theorem rewrite_append_of_not_mem (front : List Char) (h : '<' ∉ front) (l : List Char) :
    rewrite (findToken inert) (front ++ l) = front ++ rewrite (findToken inert) l := by
  refine rewrite_append_of_clear l fun q hq hs => ?_
  obtain ⟨c, q, rfl⟩ := exists_cons_of_ne_nil hq
  exact findToken_of_ne (fun hc => h (hc ▸ hs.subset mem_cons_self)) _

/-- A text in which no token is spelled stays as it is. -/
theorem rewrite_of_clear (h : ¬ Spells l) : rewrite (findToken inert) l = l := by
  have hclear : rewrite (findToken inert) (l ++ []) = l ++ rewrite (findToken inert) [] := by
    refine rewrite_append_of_clear [] fun q _ hs => ?_
    rw [append_nil]
    exact findToken_eq_none.mpr fun name hname hp => h ⟨name, hname, hp.isInfix.trans hs.isInfix⟩
  rwa [append_nil, Text.rewrite_nil, append_nil] at hclear

end

/-! ### What is put in for a token -/

/-- `<`, and something that is no bar and has no `<`. -/
def Inert (inert : List Char → List Char) : Prop :=
  ∀ name ∈ CONTROL_TOKENS, ∃ c more, inert name = '<' :: c :: more ∧ c ≠ '|' ∧ '<' ∉ c :: more

theorem inertText_inert : Inert inertText := by
  intro name hname
  refine ⟨'\\', _, rfl, by decide, ?_⟩
  revert name
  decide

theorem inertJson_inert : Inert inertJson := by
  intro name hname
  refine ⟨'\\', _, rfl, by decide, ?_⟩
  revert name
  decide

theorem not_mem_spelling : ∀ name ∈ CONTROL_TOKENS, '<' ∉ '|' :: (name ++ ['|', '>']) := by decide

/-- **No spelling is left.** -/
theorem rewrite_clear {inert : List Char → List Char} (hinert : Inert inert) (l : List Char) :
    ¬ Spells (rewrite (findToken inert) l) := by
  rintro ⟨name, hname, hinfix⟩
  induction l using rewrite_induction (findToken_sound inert) with
  | nil => exact cons_ne_nil _ _ (infix_nil.mp hinfix)
  | found found new l hne hfind ih =>
    rw [rewrite_append hne hfind] at hinfix
    obtain ⟨name', hname', -, rfl, -⟩ := findToken_some hfind
    obtain ⟨c, more, hnew, hc, hmore⟩ := hinert name' hname'
    refine ih (infix_of_infix_append (fun q hq hs hp => ?_) hinfix)
    -- an occurrence starts with `<`, which is the first of what was put in only
    rw [hnew] at hs
    rcases suffix_cons_iff.mp hs with rfl | hs
    · exact hc (cons_prefix_cons.mp (cons_prefix_cons.mp hp).2).1.symm
    · obtain ⟨c', q, rfl⟩ := exists_cons_of_ne_nil hq
      exact hmore ((cons_prefix_cons.mp hp).1 ▸ hs.subset mem_cons_self)
  | other c l hno ih =>
    rw [rewrite_cons hno] at hinfix
    rcases infix_cons_iff.mp hinfix with hp | hi
    · -- what comes behind the `<` has none, and so was there before
      obtain ⟨rfl, hrest⟩ := cons_prefix_cons.mp hp
      have hnew : ∀ l found new, findToken inert l = some (found, new) →
          ∃ more, new = '<' :: more := by
        intro l found new hfind
        obtain ⟨name', hname', -, rfl, -⟩ := findToken_some hfind
        obtain ⟨c, more, hnew, -⟩ := hinert name' hname'
        exact ⟨_, hnew⟩
      have hbefore := prefix_of_rewrite (findToken_sound inert) hnew (not_mem_spelling name hname)
        hrest
      exact findToken_eq_none.mp hno name hname (cons_prefix_cons.mpr ⟨rfl, hbefore⟩)
    · exact ih hi

theorem escape_clear (text : String) : ¬ Spells (escapeHarmonyControlTokens text).toList := by
  rw [escapeHarmonyControlTokens, String.toList_ofList]
  exact rewrite_clear inertText_inert _

theorem escapeInJson_clear (text : String) :
    ¬ Spells (escapeHarmonyControlTokensInJson text).toList := by
  rw [escapeHarmonyControlTokensInJson, String.toList_ofList]
  exact rewrite_clear inertJson_inert _

theorem escape_of_clear {text : String} (h : ¬ Spells text.toList) :
    escapeHarmonyControlTokens text = text := by
  rw [escapeHarmonyControlTokens, rewrite_of_clear h, String.ofList_toList]

theorem escape_of_not_mem {text : String} (h : '|' ∉ text.toList) :
    escapeHarmonyControlTokens text = text := by
  refine escape_of_clear fun ⟨name, _, hspelled⟩ => h (hspelled.subset ?_)
  exact mem_cons_of_mem _ mem_cons_self

theorem rewrite_eq_nil {inert : List Char → List Char} (hinert : Inert inert) {l : List Char}
    (h : rewrite (findToken inert) l = []) : l = [] := by
  induction l using rewrite_induction (findToken_sound inert) with
  | nil => rfl
  | found found new l hne hfind _ =>
    obtain ⟨name, hname, -, rfl, -⟩ := findToken_some hfind
    obtain ⟨c, more, hnew, -⟩ := hinert name hname
    rw [rewrite_append hne hfind, hnew] at h
    cases h
  | other c l hno _ =>
    rw [rewrite_cons hno] at h
    cases h

theorem escape_eq_empty_iff {text : String} : escapeHarmonyControlTokens text = "" ↔ text = "" := by
  refine ⟨fun h => ?_, fun h => by rw [h]; rfl⟩
  rw [escapeHarmonyControlTokens, String.ofList_eq_empty_iff] at h
  exact String.toList_eq_nil_iff.mp (rewrite_eq_nil inertText_inert h)

/-! ### Documents -/

mutual

/-- The value with every string of it, keys included, taken through `f`. -/
def mapStrings (f : String → String) : Json → Json
  | .str s => .str (f s)
  | .arr xs => .arr (mapStringsItems f xs)
  | .obj fs => .obj (mapStringsFields f fs)
  | v => v

def mapStringsItems (f : String → String) : List Json → List Json
  | [] => []
  | x :: xs => mapStrings f x :: mapStringsItems f xs

def mapStringsFields (f : String → String) : Json.Dict → Json.Dict
  | [] => []
  | (k, v) :: fs => (f k, mapStrings f v) :: mapStringsFields f fs

end

/-- The value with the replacement made in every string.  Two keys may come to be the same. -/
def inertValue (v : Json) : Json := merged (mapStrings escapeHarmonyControlTokens v)

mutual

theorem Readable.mapStrings (f : String → String) : ∀ {v : Json}, Readable v →
    Readable (mapStrings f v)
  | .null, _ => trivial
  | .bool _, _ => trivial
  | .int _, _ => trivial
  | .float _, h => h
  | .str _, _ => trivial
  | .arr _, h => ReadableItems.mapStrings f h
  | .obj _, h => ReadableFields.mapStrings f h

theorem ReadableItems.mapStrings (f : String → String) : ∀ {xs : List Json}, ReadableItems xs →
    ReadableItems (mapStringsItems f xs)
  | [], _ => trivial
  | _ :: _, h => ⟨Readable.mapStrings f h.1, ReadableItems.mapStrings f h.2⟩

theorem ReadableFields.mapStrings (f : String → String) : ∀ {fs : Json.Dict}, ReadableFields fs →
    ReadableFields (mapStringsFields f fs)
  | [], _ => trivial
  | (_, _) :: _, h => ⟨Readable.mapStrings f h.1, ReadableFields.mapStrings f h.2⟩

end

theorem digitChar_ne_lt : ∀ n, Nat.digitChar n ≠ '<'
  | 0 | 1 | 2 | 3 | 4 | 5 | 6 | 7 | 8 | 9 | 10 | 11 | 12 | 13 | 14 | 15 => by decide
  | n + 16 => by simp [Nat.digitChar]

theorem not_mem_escapeUnit (n : Nat) : '<' ∉ OpenAi.escapeUnit n := by
  simp [OpenAi.escapeUnit, (digitChar_ne_lt _).symm]

theorem escapeAscii_cases (c : Char) :
    escapeAscii c = [c] ∧ c ≠ '"' ∨ ∃ more, escapeAscii c = '\\' :: more ∧ '<' ∉ '\\' :: more := by
  rw [escapeAscii]
  split
  · refine .inr ⟨_, rfl, ?_⟩
    simp [not_mem_escapeUnit]
  · split
    · exact .inr ⟨_, rfl, not_mem_escapeUnit _⟩
    · rw [Json.escapeChar]
      split
      · next e he =>
        refine .inr ⟨_, rfl, ?_⟩
        rw [Json.shortEscape.eq_def] at he
        split at he <;> cases he <;> decide
      · next he =>
        split
        · exact .inr ⟨_, rfl, by simp [(digitChar_ne_lt _).symm]⟩
        · refine .inl ⟨rfl, fun hc => ?_⟩
          rw [hc] at he
          cases he

theorem escapeAscii_spelling : ∀ name ∈ CONTROL_TOKENS,
    (spelling name).flatMap escapeAscii = spelling name := by decide

theorem escapeAscii_inertText : ∀ name ∈ CONTROL_TOKENS,
    (inertText name).flatMap escapeAscii = inertJson name := by decide

theorem plain_spelling : ∀ name ∈ CONTROL_TOKENS, ∀ c ∈ spelling name, c ≠ '"' ∧ c ≠ '\\' := by
  have hall : (CONTROL_TOKENS.all fun name =>
      (spelling name).all fun c => c != '"' && c != '\\') = true := by decide
  intro name hname c hc
  have hplain := all_eq_true.mp (all_eq_true.mp hall name hname) c hc
  simpa using hplain

/-- What needs no escape and is found in the text between the quotes is in the string. -/
theorem prefix_of_escapeAscii {word cs r : List Char} (hword : ∀ c ∈ word, c ≠ '"' ∧ c ≠ '\\')
    (h : word <+: cs.flatMap escapeAscii ++ '"' :: r) : word <+: cs := by
  induction cs generalizing word with
  | nil =>
    cases word with
    | nil => exact nil_prefix
    | cons c word => exact absurd (cons_prefix_cons.mp h).1 (hword c mem_cons_self).1
  | cons c cs ih =>
    cases word with
    | nil => exact nil_prefix
    | cons c' word =>
      rw [flatMap_cons, append_assoc] at h
      rcases escapeAscii_cases c with ⟨hc, -⟩ | ⟨more, hc, -⟩
      · rw [hc, singleton_append] at h
        obtain ⟨rfl, hrest⟩ := cons_prefix_cons.mp h
        exact cons_prefix_cons.mpr
          ⟨rfl, ih (fun x hx => hword x (mem_cons_of_mem _ hx)) hrest⟩
      · rw [hc, cons_append] at h
        exact absurd (cons_prefix_cons.mp h).1 (hword c' mem_cons_self).2

theorem rewrite_escapeAscii (cs r : List Char) :
    rewrite (findToken inertJson) (cs.flatMap escapeAscii ++ '"' :: r) =
      (rewrite (findToken inertText) cs).flatMap escapeAscii ++
        rewrite (findToken inertJson) ('"' :: r) := by
  induction cs using rewrite_induction (findToken_sound inertText) with
  | nil => rfl
  | found found new l hne hfind ih =>
    obtain ⟨name, hname, rfl, rfl, -⟩ := findToken_some hfind
    rw [rewrite_append hne hfind, flatMap_append, flatMap_append,
      escapeAscii_spelling name hname, escapeAscii_inertText name hname, append_assoc,
      rewrite_append hne (findToken_spelling hname _), ih, append_assoc]
  | other c l hno ih =>
    rw [rewrite_cons hno, flatMap_cons, flatMap_cons, append_assoc, append_assoc, ← ih]
    rcases escapeAscii_cases c with ⟨hc, -⟩ | ⟨more, hc, hmore⟩
    · rw [hc, singleton_append, singleton_append, rewrite_cons]
      refine findToken_eq_none.mpr fun name hname hp => findToken_eq_none.mp hno name hname ?_
      have hplain := plain_spelling name hname
      refine prefix_of_escapeAscii (r := r) hplain ?_
      rwa [flatMap_cons, hc, append_assoc, singleton_append]
    · rw [hc, rewrite_append_of_not_mem _ hmore]

theorem rewrite_dumpsAscii (k : String) (r : List Char) :
    rewrite (findToken inertJson) (dumpsAscii k ++ r) =
      dumpsAscii (escapeHarmonyControlTokens k) ++ rewrite (findToken inertJson) r := by
  have hquote : ∀ l : List Char, rewrite (findToken inertJson) ('"' :: l) =
      '"' :: rewrite (findToken inertJson) l :=
    fun l => rewrite_cons (findToken_of_ne (by decide) l)
  rw [OpenAi.dumpsAscii_append, OpenAi.dumpsAscii_append, hquote, rewrite_escapeAscii, hquote,
    escapeHarmonyControlTokens, String.toList_ofList]

/-! ### Numbers -/

section

variable {l : List Char}

theorem mem_scanDigits (h : '<' ∈ l) : '<' ∈ (Json.scanDigits l).2 := by
  rw [← takeWhile_append_dropWhile (p := Char.isDigit) (l := l), mem_append] at h
  rcases h with h | h
  · exact absurd (mem_takeWhile_imp h) (by decide)
  · exact h

theorem mem_scanSign {signs : List Char} (hsigns : '<' ∉ signs) (h : '<' ∈ l) :
    '<' ∈ (Json.scanSign signs l).2 := by
  cases l with
  | nil => cases h
  | cons c l =>
    rw [Json.scanSign]
    split
    · next hc =>
      rcases mem_cons.mp h with rfl | h
      · exact absurd hc hsigns
      · exact h
    · exact h

theorem mem_scanWhole {w t : List Char} (h : '<' ∈ l) (hscan : Json.scanWhole l = some (w, t)) :
    '<' ∈ t := by
  cases l with
  | nil => cases h
  | cons c l =>
    rw [Json.scanWhole] at hscan
    split at hscan
    · next hc =>
      cases hscan
      exact (mem_cons.mp h).resolve_left (by rw [hc]; decide)
    · split at hscan
      · have ht : (Json.scanDigits (c :: l)).2 = t := congrArg Prod.snd (Option.some.inj hscan)
        exact ht ▸ mem_scanDigits h
      · cases hscan

theorem mem_scanFraction (h : '<' ∈ l) : '<' ∈ (Json.scanFraction l).2 := by
  cases l with
  | nil => cases h
  | cons c l =>
    rw [Json.scanFraction]
    split
    · next hc => exact mem_scanDigits ((mem_cons.mp h).resolve_left (by rw [hc.1]; decide))
    · exact h

theorem mem_scanExponent (h : '<' ∈ l) : '<' ∈ (Json.scanExponent l).2 := by
  cases l with
  | nil => cases h
  | cons c l =>
    rw [Json.scanExponent]
    split
    · next hc =>
      refine mem_scanDigits (mem_scanSign (by decide) ((mem_cons.mp h).resolve_left ?_))
      rcases hc.1 with rfl | rfl <;> decide
    · exact h

theorem not_mem_number {v : Json} (hscan : Json.scanNumber l = some (v, [])) : '<' ∉ l := by
  intro h
  rw [Json.scanNumber] at hscan
  dsimp only at hscan
  cases hwhole : Json.scanWhole (Json.scanSign ['-'] l).2 with
  | none =>
    rw [hwhole] at hscan
    cases hscan
  | some p =>
    have hleft := mem_scanExponent (mem_scanFraction (mem_scanWhole (mem_scanSign (by decide) h)
      (hwhole.trans rfl)))
    rw [hwhole] at hscan
    simp only [bind_eq_bind, bind_some] at hscan
    split at hscan <;>
    · rw [(Prod.mk.inj (Option.some.inj hscan)).2] at hleft
      cases hleft

end

/-! ### The escaped document -/

mutual

/-- **The escaped document is the document of the escaped strings.** -/
theorem rewrite_dumps : ∀ {v : Json} (r : List Char), Readable v →
    rewrite (findToken inertJson) (OpenAi.dumps v ++ r) =
      OpenAi.dumps (mapStrings escapeHarmonyControlTokens v) ++ rewrite (findToken inertJson) r
  | .null, r, _ => rewrite_append_of_not_mem _ (by decide) r
  | .bool true, r, _ => rewrite_append_of_not_mem _ (by decide) r
  | .bool false, r, _ => rewrite_append_of_not_mem _ (by decide) r
  | .int n, r, _ => rewrite_append_of_not_mem _ (not_mem_number (Json.scanNumber_dumpsInt n)) r
  | .float s, r, h => by
    refine rewrite_append_of_not_mem _ ?_ r
    rcases h with rfl | rfl | rfl | h
    · decide
    · decide
    · decide
    · exact not_mem_number h
  | .str s, r, _ => rewrite_dumpsAscii s r
  | .arr xs, r, h => by
    have hclose := @rewrite_append_of_not_mem inertJson [']'] (by decide) r
    rw [OpenAi.dumps, cons_append, append_assoc,
      rewrite_cons (findToken_of_ne (by decide) _), rewrite_dumpsItems _ h, hclose]
    simp [mapStrings, OpenAi.dumps]
  | .obj fs, r, h => by
    have hclose := @rewrite_append_of_not_mem inertJson ['}'] (by decide) r
    rw [OpenAi.dumps, cons_append, append_assoc,
      rewrite_cons (findToken_of_ne (by decide) _), rewrite_dumpsFields _ h, hclose]
    simp [mapStrings, OpenAi.dumps]

theorem rewrite_dumpsItems : ∀ {xs : List Json} (r : List Char), ReadableItems xs →
    rewrite (findToken inertJson) (OpenAi.dumpsItems xs ++ r) =
      OpenAi.dumpsItems (mapStringsItems escapeHarmonyControlTokens xs) ++
        rewrite (findToken inertJson) r
  | [], _, _ => rfl
  | [x], r, h => rewrite_dumps r h.1
  | x :: y :: ys, r, h => by
    have hys := rewrite_dumpsItems r h.2
    have hcomma := @rewrite_append_of_not_mem inertJson [',', ' '] (by decide)
    rw [OpenAi.dumpsItems, append_assoc, append_assoc, rewrite_dumps _ h.1, hcomma, hys]
    · simp [mapStringsItems, OpenAi.dumpsItems]
    · simp

theorem rewrite_dumpsFields : ∀ {fs : Json.Dict} (r : List Char), ReadableFields fs →
    rewrite (findToken inertJson) (OpenAi.dumpsFields fs ++ r) =
      OpenAi.dumpsFields (mapStringsFields escapeHarmonyControlTokens fs) ++
        rewrite (findToken inertJson) r
  | [], _, _ => rfl
  | [(k, v)], r, h => by
    have hcolon := @rewrite_append_of_not_mem inertJson [':', ' '] (by decide)
    rw [OpenAi.dumpsFields, append_assoc, append_assoc, rewrite_dumpsAscii, hcolon,
      rewrite_dumps _ h.1]
    simp [mapStringsFields, OpenAi.dumpsFields]
  | (k, v) :: (k', v') :: fs, r, h => by
    have hfs := rewrite_dumpsFields r h.2
    have hcolon := @rewrite_append_of_not_mem inertJson [':', ' '] (by decide)
    have hcomma := @rewrite_append_of_not_mem inertJson [',', ' '] (by decide)
    rw [OpenAi.dumpsFields, append_assoc, append_assoc, append_assoc,
      append_assoc, rewrite_dumpsAscii, hcolon, rewrite_dumps _ h.1, hcomma, hfs]
    · simp [mapStringsFields, OpenAi.dumpsFields]
    · simp

end

/-- **Decoding the escaped document gives the value with the replacement made in every string.** -/
theorem loads_escapeInJson {v : Json} (h : Json.Canonical v) :
    Json.loads (escapeHarmonyControlTokensInJson (String.ofList (OpenAi.dumps v))).toList =
      some (inertValue v) := by
  have hv := (Readable.of_canonical h).1
  have hdumps := rewrite_dumps [] hv
  rw [append_nil, Text.rewrite_nil, append_nil] at hdumps
  rw [escapeHarmonyControlTokensInJson, String.toList_ofList, String.toList_ofList, hdumps]
  exact OpenAi.loads_dumps (Readable.mapStrings _ hv)

end KolegaCode.Responses
