import Mathlib.Data.List.Sort
import KolegaCode.Hashline.Hash
import KolegaCode.Lib.Json
import KolegaCode.Lib.Occurrences
import KolegaCode.Lib.Regex
import KolegaCode.Lib.Replace

/-!
# Security — probable secrets

`detect_secrets` collects what the patterns find and where the supplied values occur, sorts these
findings and cuts off what overlaps an earlier one; `redact_secrets` replaces what is left.
-/

namespace KolegaCode.Security

open List
open Re
open Hashline (isSpace)
open Text (fill Clear occurrences)

abbrev Text := List Char

def SECRET_PLACEHOLDER : Text := "‹secret›".toList

structure SecretFinding where
  category : String
  start : Nat
  stop : Nat
deriving DecidableEq

/-! ### Patterns -/

structure Pattern where
  category : String
  regex : Regex
  /-- The group that is the finding, if it is not the whole match. -/
  group : Option Nat

def isUpper (c : Char) : Bool := 'A' ≤ c && c ≤ 'Z'
def isLower (c : Char) : Bool := 'a' ≤ c && c ≤ 'z'
def isDigit (c : Char) : Bool := '0' ≤ c && c ≤ '9'
def isAlnum (c : Char) : Bool := isUpper c || isLower c || isDigit c

def sequence (rs : List Regex) : Regex := rs.foldr .seq .empty

def choice : List Regex → Regex
  | [] => .empty
  | [r] => r
  | r :: rs => .alt r (choice rs)

def word (text : String) : Regex := Regex.lit text.toList

def caselessWord (text : String) : Regex := Regex.litCaseless text.toList

/-- One of the characters. -/
def among (cs : List Char) : Regex := .chr cs.contains

def spaces : Regex := .many 0 none isSpace

def keyMarker (kind : String) : Regex :=
  sequence [word ("-----" ++ kind ++ " "),
    .opt (sequence [.many 1 none fun c => isUpper c || isDigit c || c = ' ', among [' ']]),
    word "PRIVATE KEY-----"]

/-- `(?i)[A-Za-z0-9_]*`. -/
def nameChars : Regex := .many 0 none fun c => caselessLetter c || isDigit c || c = '_'

/-- `_PATTERNS`; `\b` is between a letter, digit or underscore and anything else. -/
def PATTERNS (wordChar : Char → Bool) : List Pattern :=
  [⟨"private-key",
      sequence [keyMarker "BEGIN", .few 0 fun _ => true, keyMarker "END"], none⟩,
   ⟨"anthropic-token",
      sequence [.boundary wordChar, word "sk-ant-",
        .many 8 none fun c => isAlnum c || c = '_' || c = '-'], none⟩,
   ⟨"api-token",
      sequence [.boundary wordChar, choice [word "sk", word "xai"], word "-",
        .many 8 none fun c => isAlnum c || c = '_' || c = '-'], none⟩,
   ⟨"google-api-key",
      sequence [.boundary wordChar, word "AIza",
        .many 10 none fun c => isAlnum c || c = '_' || c = '-'], none⟩,
   ⟨"github-token",
      sequence [.boundary wordChar, word "gh", among ['p', 'o', 'u', 's', 'r'], word "_",
        .many 20 none isAlnum], none⟩,
   ⟨"aws-access-key",
      sequence [.boundary wordChar, choice [word "AKIA", word "ASIA"],
        .many 16 (some 16) fun c => isUpper c || isDigit c, .boundary wordChar], none⟩,
   ⟨"slack-token",
      sequence [.boundary wordChar, word "xox", among ['b', 'a', 'p', 'r', 's'], word "-",
        .many 10 none fun c => isAlnum c || c = '-'], none⟩,
   ⟨"npm-token",
      sequence [.boundary wordChar, word "npm_", .many 20 none isAlnum], none⟩,
   ⟨"cloudflare-token",
      sequence [.boundary wordChar, word "cf", choice [word "ut", word "at", word "k"], word "_",
        .many 40 none isAlnum], none⟩,
   ⟨"authorization",
      sequence [caselessWord "authorization", spaces, word ":", spaces,
        choice [caselessWord "bearer", caselessWord "basic"], .many 1 none isSpace,
        .group 1 (.many 1 none fun c => !isSpace c)], some 1⟩,
   ⟨"api-key-header",
      sequence [caselessWord "x-api-key", spaces, among [':', '='], spaces,
        .group 1 (.many 1 none fun c => !isSpace c)], some 1⟩,
   ⟨"credential-assignment",
      sequence [.boundary wordChar, nameChars,
        choice [sequence [caselessWord "API", .opt (word "_"), caselessWord "KEY"],
          sequence [caselessWord "ACCESS", .opt (word "_"), caselessWord "KEY"],
          caselessWord "TOKEN", caselessWord "SECRET", caselessWord "PASSWORD",
          caselessWord "PASSWD",
          sequence [caselessWord "PRIVATE", .opt (word "_"), caselessWord "KEY"],
          sequence [caselessWord "CLIENT", .opt (word "_"), caselessWord "SECRET"]],
        nameChars, spaces, among ['=', ':'], spaces,
        .group 1 (choice
          [.many 1 none fun c => !(isSpace c || ['"', '\'', '\\'].contains c),
           sequence [word "\"", .many 1 none (· ≠ '"'), word "\""],
           sequence [word "'", .many 1 none (· ≠ '\''), word "'"]])], some 1⟩,
   ⟨"credential-url",
      sequence [.boundary wordChar, .chr caselessLetter,
        .many 0 none fun c => caselessLetter c || isDigit c || ['+', '.', '-'].contains c,
        word "://", .many 1 none fun c => !(isSpace c || ['/', ':', '@'].contains c), word ":",
        .group 1 (.many 1 none fun c => !(isSpace c || ['@', '/'].contains c)), word "@"],
      some 1⟩]

/-! ### Findings -/

/-- Where a match has its finding. -/
def Pattern.span (p : Pattern) (m : Match) : Option (Nat × Nat) :=
  match p.group with
  | some name => (m.group name).map fun c => (c.start.pos, c.stop.pos)
  | none => some (m.start.pos, m.stop.pos)

def Pattern.findings (p : Pattern) (text : Text) : List SecretFinding :=
  (finditer p.regex text).filterMap fun m =>
    (p.span m).bind fun span =>
      if span.1 < span.2 then some ⟨p.category, span.1, span.2⟩ else none

def MIN_VALUE_LENGTH : Nat := 8

def valueFindings (text value : Text) : List SecretFinding :=
  if value.length < MIN_VALUE_LENGTH then []
  else (occurrences value text).map fun i => ⟨"configured-secret", i, i + value.length⟩

/-- Everything that is found, before it is sorted. -/
def rawFindings (wordChar : Char → Bool) (text : Text) (values : List Text) : List SecretFinding :=
  (PATTERNS wordChar).flatMap (·.findings text) ++ values.flatMap (valueFindings text)

/-- `(start, -(end - start), category)`. -/
def SecretFinding.before (f g : SecretFinding) : Bool :=
  f.start < g.start || f.start = g.start &&
    (g.stop - g.start < f.stop - f.start || g.stop - g.start = f.stop - f.start &&
      decide (f.category ≤ g.category))

/-- Where the last finding ends. -/
def lastStop (result : List SecretFinding) : Nat := (result.getLast?.map (·.stop)).getD 0

/-- What of a finding no earlier one covers is added. -/
def merge (result : List SecretFinding) (finding : SecretFinding) : List SecretFinding :=
  if finding.start < lastStop result then
    if finding.stop ≤ lastStop result then result
    else result ++ [{ finding with start := lastStop result }]
  else result ++ [finding]

def ENVIRONMENT_MARKERS : List Text :=
  ["API_KEY", "APIKEY", "TOKEN", "SECRET", "PASSWORD", "PASSWD"].map String.toList

/-- The variables of the environment, with `str.upper`. -/
structure Environment where
  upper : Text → Text
  items : List (Text × Text)

/-- `_environment_values`. -/
def Environment.values (environment : Environment) : List Text :=
  (environment.items.filter fun p => MIN_VALUE_LENGTH ≤ p.2.length &&
    ENVIRONMENT_MARKERS.any fun marker =>
      decide (marker <:+: environment.upper p.1)).map Prod.snd

/-- `list(extra_values or [])`, with the values of the environment if they are included. -/
def allValues (extraValues : List Text) (environment : Option Environment) : List Text :=
  extraValues ++ (environment.map Environment.values).getD []

def detectSecrets (wordChar : Char → Bool) (text : Text) (extraValues : List Text)
    (environment : Option Environment) : List SecretFinding :=
  ((rawFindings wordChar text (allValues extraValues environment)).insertionSort
    fun f g => f.before g).foldl merge []

def redactSecrets (wordChar : Char → Bool) (text : Text) (extraValues : List Text)
    (environment : Option Environment) : Text :=
  (detectSecrets wordChar text extraValues environment).foldr
    (fun f text => text.take f.start ++ SECRET_PLACEHOLDER ++ text.drop f.stop) text

section
variable (wordChar : Char → Bool) (extraValues : List Text) (environment : Option Environment)

mutual

/-- `redact_secrets_in_obj`: every string that is not a key is redacted. -/
def redactSecretsInObj : Json → Json
  | .str s => .str (String.ofList (redactSecrets wordChar s.toList extraValues environment))
  | .arr xs => .arr (redactItems xs)
  | .obj fs => .obj (redactFields fs)
  | value => value

def redactItems : List Json → List Json
  | [] => []
  | x :: xs => redactSecretsInObj x :: redactItems xs

def redactFields : Json.Dict → Json.Dict
  | [] => []
  | (key, value) :: fs => (key, redactSecretsInObj value) :: redactFields fs

end

end

/-! ### What is found -/

/-- Some finding has the place in it. -/
def Covered (findings : List SecretFinding) (pos : Nat) : Prop :=
  ∃ f ∈ findings, f.start ≤ pos ∧ pos < f.stop

variable {wordChar : Char → Bool} {text value : Text} {values : List Text}

variable {f : SecretFinding} {findings : List SecretFinding} {word : Text}

/-- A raw finding is a part of the text, and not empty. -/
theorem proper_of_mem_rawFindings (h : f ∈ rawFindings wordChar text values) :
    f.start < f.stop ∧ f.stop ≤ text.length := by
  rcases mem_append.mp h with h | h
  · obtain ⟨p, -, h⟩ := mem_flatMap.mp h
    obtain ⟨m, hm, h⟩ := mem_filterMap.mp h
    obtain ⟨span, hspan, h⟩ := Option.bind_eq_some_iff.mp h
    split at h
    · next hlt =>
      cases h
      refine ⟨hlt, ?_⟩
      obtain ⟨hstop, hgroup⟩ := stop_le_length hm
      rw [Pattern.span] at hspan
      split at hspan
      · obtain ⟨c, hc, rfl⟩ := Option.map_eq_some_iff.mp hspan
        exact hgroup _ c hc
      · cases hspan
        exact hstop
    · cases h
  · obtain ⟨v, -, h⟩ := mem_flatMap.mp h
    rw [valueFindings] at h
    split at h
    · exact absurd h not_mem_nil
    · obtain ⟨i, hi, rfl⟩ := mem_map.mp h
      obtain ⟨hne, -, -⟩ := Text.mem_occurrences hi
      exact ⟨Nat.lt_add_of_pos_right (length_pos_of_ne_nil hne), Text.add_length_le hi⟩

/-! ### Sorting -/

theorem SecretFinding.start_le {g : SecretFinding} (h : f.before g = true) : f.start ≤ g.start := by
  simp only [before, Bool.or_eq_true, Bool.and_eq_true, decide_eq_true_eq] at h
  rcases h with h | h
  · exact Nat.le_of_lt h
  · exact Nat.le_of_eq h.1

instance : Std.Total fun f g : SecretFinding => f.before g = true where
  total := by
    intro f g
    simp only [SecretFinding.before, Bool.or_eq_true, Bool.and_eq_true, decide_eq_true_eq]
    rcases Nat.lt_trichotomy f.start g.start with h | h | h
    · exact .inl (.inl h)
    · rcases Nat.lt_trichotomy (g.stop - g.start) (f.stop - f.start) with h' | h' | h'
      · exact .inl (.inr ⟨h, .inl h'⟩)
      · rcases String.le_total f.category g.category with hc | hc
        · exact .inl (.inr ⟨h, .inr ⟨h', hc⟩⟩)
        · exact .inr (.inr ⟨h.symm, .inr ⟨h'.symm, hc⟩⟩)
      · exact .inr (.inr ⟨h.symm, .inl h'⟩)
    · exact .inr (.inl h)

instance : IsTrans SecretFinding fun f g => f.before g = true where
  trans := by
    intro f g k hfg hgk
    simp only [SecretFinding.before, Bool.or_eq_true, Bool.and_eq_true, decide_eq_true_eq]
      at hfg hgk ⊢
    rcases hfg with hfg | ⟨hfg, hlength⟩
    · rcases hgk with hgk | ⟨hgk, -⟩
      · exact .inl (hfg.trans hgk)
      · exact .inl (hgk ▸ hfg)
    · rcases hgk with hgk | ⟨hgk, hlength'⟩
      · exact .inl (hfg ▸ hgk)
      · refine .inr ⟨hfg.trans hgk, ?_⟩
        rcases hlength with hlength | ⟨hlength, hc⟩
        · rcases hlength' with hlength' | ⟨hlength', -⟩
          · exact .inl (hlength'.trans hlength)
          · exact .inl (hlength' ▸ hlength)
        · rcases hlength' with hlength' | ⟨hlength', hc'⟩
          · exact .inl (hlength ▸ hlength')
          · exact .inr ⟨hlength'.trans hlength, String.le_trans hc hc'⟩

/-! ### Merging -/

/-- What is merged so far, when the findings have come to the place `first`. -/
structure Merged (result : List SecretFinding) (first : Nat) : Prop where
  proper : ∀ f ∈ result, f.start < f.stop
  apart : result.Pairwise fun f g => f.stop ≤ g.start
  last : ∀ f ∈ result, f.stop ≤ lastStop result
  full : ∀ pos, first ≤ pos → pos < lastStop result → Covered result pos

theorem lastStop_concat (result : List SecretFinding) (f : SecretFinding) :
    lastStop (result ++ [f]) = f.stop := by
  rw [lastStop, getLast?_concat]
  rfl

theorem covered_concat {result : List SecretFinding} {pos : Nat} :
    Covered (result ++ [f]) pos ↔ Covered result pos ∨ f.start ≤ pos ∧ pos < f.stop := by
  constructor
  · rintro ⟨g, hg, hpos⟩
    rcases mem_append.mp hg with hg | hg
    · exact .inl ⟨g, hg, hpos⟩
    · rw [mem_singleton.mp hg] at hpos
      exact .inr hpos
  · rintro (⟨g, hg, hpos⟩ | hpos)
    · exact ⟨g, mem_append_left _ hg, hpos⟩
    · exact ⟨f, mem_append_right _ mem_cons_self, hpos⟩

variable {result : List SecretFinding} {finding : SecretFinding} {first : Nat}

theorem Merged.concat (h : Merged result first) (hproper : f.start < f.stop)
    (hstart : lastStop result ≤ f.start)
    (hnext : ∀ pos, first ≤ pos → pos < f.start →
      Covered result pos) : Merged (result ++ [f]) first where
  proper := by
    intro g hg
    rcases mem_append.mp hg with hg | hg
    · exact h.proper g hg
    · rwa [mem_singleton.mp hg]
  apart := by
    refine pairwise_append.mpr ⟨h.apart, pairwise_singleton _ _, fun g hg k hk => ?_⟩
    rw [mem_singleton.mp hk]
    exact (h.last g hg).trans hstart
  last := by
    intro g hg
    rw [lastStop_concat]
    rcases mem_append.mp hg with hg | hg
    · exact ((h.last g hg).trans hstart).trans (Nat.le_of_lt hproper)
    · rw [mem_singleton.mp hg]
  full := by
    intro pos hfirst hpos
    rw [lastStop_concat] at hpos
    rcases Nat.lt_or_ge pos f.start with hlt | hge
    · exact covered_concat.mpr (.inl (hnext pos hfirst hlt))
    · exact covered_concat.mpr (.inr ⟨hge, hpos⟩)

theorem Merged.later (h : Merged result first) {first' : Nat} (hle : first ≤ first') :
    Merged result first' :=
  ⟨h.proper, h.apart, h.last, fun pos hpos => h.full pos (hle.trans hpos)⟩

/-- **One finding.** -/
theorem merged_merge (h : Merged result first) (hfirst : first ≤ finding.start)
    (hproper : finding.start < finding.stop) :
    Merged (merge result finding) finding.start ∧ ∀ pos, Covered (merge result finding) pos ↔
      Covered result pos ∨ finding.start ≤ pos ∧ pos < finding.stop := by
  have hlater := h.later hfirst
  rw [merge]
  split
  · next hstart =>
    split
    · next hstop =>
      -- it lies within what is covered
      refine ⟨hlater, fun pos => ⟨.inl, ?_⟩⟩
      rintro (hpos | ⟨hle, hlt⟩)
      · exact hpos
      · exact hlater.full pos hle (Nat.lt_of_lt_of_le hlt hstop)
    · next hstop =>
      refine ⟨hlater.concat (Nat.lt_of_not_le hstop) (Nat.le_refl _) fun pos => hlater.full pos,
        fun pos => ?_⟩
      rw [covered_concat]
      constructor
      · rintro (hpos | ⟨hle, hlt⟩)
        · exact .inl hpos
        · exact .inr ⟨(Nat.le_of_lt hstart).trans hle, hlt⟩
      · rintro (hpos | ⟨hle, hlt⟩)
        · exact .inl hpos
        · rcases Nat.lt_or_ge pos (lastStop result) with hin | hout
          · exact .inl (hlater.full pos hle hin)
          · exact .inr ⟨hout, hlt⟩
  · next hstart =>
    refine ⟨hlater.concat hproper (Nat.le_of_not_lt hstart) fun pos hle hlt => ?_,
      fun pos => covered_concat⟩
    exact absurd hle (Nat.not_le_of_lt hlt)

/-- **All findings**, in the order of their starts. -/
theorem merged_foldl (hsorted : findings.Pairwise fun f g => f.start ≤ g.start)
    (hproper : ∀ f ∈ findings, f.start < f.stop) (h : Merged result first)
    (hfirst : ∀ f ∈ findings, first ≤ f.start) :
    (∃ first, Merged (findings.foldl merge result) first) ∧
      ∀ pos, Covered (findings.foldl merge result) pos ↔
        Covered result pos ∨ Covered findings pos := by
  induction findings generalizing result first with
  | nil =>
    refine ⟨⟨first, h⟩, fun pos => ⟨.inl, ?_⟩⟩
    rintro (hpos | ⟨f, hf, -⟩)
    · exact hpos
    · exact absurd hf not_mem_nil
  | cons finding findings ih =>
    obtain ⟨hbefore, hsorted⟩ := pairwise_cons.mp hsorted
    obtain ⟨hmerged, hcovered⟩ := merged_merge h (hfirst finding mem_cons_self)
      (hproper finding mem_cons_self)
    obtain ⟨hdone, hall⟩ := ih hsorted (fun f hf => hproper f (mem_cons_of_mem _ hf)) hmerged
      hbefore
    refine ⟨hdone, fun pos => ?_⟩
    rw [foldl_cons, hall, hcovered]
    constructor
    · rintro ((hpos | hpos) | ⟨f, hf, hpos⟩)
      · exact .inl hpos
      · exact .inr ⟨finding, mem_cons_self, hpos⟩
      · exact .inr ⟨f, mem_cons_of_mem _ hf, hpos⟩
    · rintro (hpos | ⟨f, hf, hpos⟩)
      · exact .inl (.inl hpos)
      · rcases mem_cons.mp hf with rfl | hf
        · exact .inl (.inr hpos)
        · exact .inr ⟨f, hf, hpos⟩

theorem mem_merge (h : f ∈ merge result finding) : f ∈ result ∨ f.stop = finding.stop := by
  rw [merge] at h
  split at h
  · split at h
    · exact .inl h
    · rcases mem_append.mp h with h | h
      · exact .inl h
      · exact .inr (by rw [mem_singleton.mp h])
  · rcases mem_append.mp h with h | h
    · exact .inl h
    · exact .inr (by rw [mem_singleton.mp h])

theorem stop_of_mem_foldl (h : f ∈ findings.foldl merge result) :
    f ∈ result ∨ ∃ g ∈ findings, f.stop = g.stop := by
  induction findings generalizing result with
  | nil => exact .inl h
  | cons finding findings ih =>
    rcases ih h with h | ⟨g, hg, hstop⟩
    · rcases mem_merge h with h | h
      · exact .inl h
      · exact .inr ⟨finding, mem_cons_self, h⟩
    · exact .inr ⟨g, mem_cons_of_mem _ hg, hstop⟩

variable {extraValues : List Text} {environment : Option Environment}

/-- **What is detected** is within the text, in order and apart, and covers what was found. -/
theorem detected (wordChar : Char → Bool) (text : Text) (extraValues : List Text)
    (environment : Option Environment) :
    (∀ f ∈ detectSecrets wordChar text extraValues environment,
      f.start < f.stop ∧ f.stop ≤ text.length) ∧
    (detectSecrets wordChar text extraValues environment).Pairwise (fun f g => f.stop ≤ g.start) ∧
    ∀ pos, Covered (detectSecrets wordChar text extraValues environment) pos ↔
      Covered (rawFindings wordChar text (allValues extraValues environment)) pos := by
  let raw := rawFindings wordChar text (allValues extraValues environment)
  let sorted := raw.insertionSort fun f g => f.before g
  have hperm : sorted.Perm raw := perm_insertionSort _ raw
  have hproper : ∀ f ∈ sorted, f.start < f.stop ∧ f.stop ≤ text.length :=
    fun f hf => proper_of_mem_rawFindings (hperm.mem_iff.mp hf)
  have hsorted : sorted.Pairwise fun f g => f.start ≤ g.start :=
    (pairwise_insertionSort _ raw).imp SecretFinding.start_le
  have hempty : Merged [] 0 :=
    ⟨fun f hf => absurd hf not_mem_nil, List.Pairwise.nil,
      fun f hf => absurd hf not_mem_nil, fun pos _ hpos => absurd hpos (Nat.not_lt_zero pos)⟩
  obtain ⟨⟨first, hmerged⟩, hcovered⟩ := merged_foldl hsorted (fun f hf => (hproper f hf).1) hempty
    fun f _ => Nat.zero_le f.start
  refine ⟨fun f hf => ⟨hmerged.proper f hf, ?_⟩, hmerged.apart, fun pos => ?_⟩
  · rcases stop_of_mem_foldl hf with hf | ⟨g, hg, hstop⟩
    · exact absurd hf not_mem_nil
    · rw [hstop]
      exact (hproper g hg).2
  · refine (hcovered pos).trans ⟨?_, ?_⟩
    · rintro (⟨f, hf, -⟩ | ⟨f, hf, hpos⟩)
      · exact absurd hf not_mem_nil
      · exact ⟨f, hperm.mem_iff.mp hf, hpos⟩
    · rintro ⟨f, hf, hpos⟩
      exact .inr ⟨f, hperm.mem_iff.mpr hf, hpos⟩

/-! ### What is redacted -/

/-- What is left of the text from the place on, with a gap for every finding. -/
def pieces (text : Text) : (first : Nat) → List SecretFinding → List (Option Char)
  | first, [] => (text.drop first).map some
  | first, f :: fs =>
    ((text.drop first).take (f.start - first)).map some ++ none :: pieces text f.stop fs

theorem redact_eq_fill {findings : List SecretFinding}
    (hproper : ∀ f ∈ findings, f.start < f.stop ∧ f.stop ≤ text.length)
    (hapart : findings.Pairwise fun f g => f.stop ≤ g.start) {first : Nat}
    (hfirst : ∀ f ∈ findings, first ≤ f.start) :
    findings.foldr
        (fun f text => text.take f.start ++ SECRET_PLACEHOLDER ++ text.drop f.stop) text =
      text.take first ++ fill SECRET_PLACEHOLDER (pieces text first findings) := by
  induction findings generalizing first with
  | nil =>
    rw [foldr_nil, pieces, Text.fill_map_some, take_append_drop]
  | cons f findings ih =>
    obtain ⟨hbefore, hapart⟩ := pairwise_cons.mp hapart
    obtain ⟨hlt, hle⟩ := hproper f mem_cons_self
    have hf := hfirst f mem_cons_self
    have hlength : (text.take f.stop).length = f.stop := by rw [length_take]; omega
    have htake : text.take f.start =
        text.take first ++ (text.drop first).take (f.start - first) := by
      rw [← take_add, Nat.add_sub_cancel' hf]
    rw [foldr_cons, ih (fun g hg => hproper g (mem_cons_of_mem _ hg)) hapart hbefore,
      take_append_of_le_length (by omega), take_take, Nat.min_eq_left (by omega),
      drop_append_of_le_length (by omega), drop_of_length_le (by omega),
      nil_append, pieces, Text.fill_append, Text.fill_map_some, Text.fill_none, htake]
    simp only [append_assoc]

theorem infix_of_append_none {word : Text} (hword : word ≠ []) {a b : List (Option Char)}
    (h : word.map some <:+: a ++ none :: b) : word.map some <:+: a ∨ word.map some <:+: b := by
  have hnone : none ∉ word.map some := by simp
  induction a with
  | nil =>
    rcases infix_cons_iff.mp h with h | h
    · obtain ⟨c, word, rfl⟩ := exists_cons_of_ne_nil hword
      cases (cons_prefix_cons.mp h).1
    · exact .inr h
  | cons x a ih =>
    rcases infix_cons_iff.mp h with h | h
    · exact .inl (@Text.prefix_of_not_mem _ _ _ (x :: a) _ hnone h).isInfix
    · exact (ih h).imp_left fun h => h.trans (suffix_cons x a).isInfix

theorem infix_of_map_some {l : Text} (h : word.map some <:+: l.map some) : word <:+: l := by
  obtain ⟨a, b, h⟩ := h
  have hinjective := Option.some_injective Char
  obtain ⟨l₁, l₂, rfl, h₁, rfl⟩ := map_eq_append_iff.mp h.symm
  obtain ⟨l₃, l₄, rfl, rfl, h₄⟩ := map_eq_append_iff.mp h₁
  rw [map_injective_iff.mpr hinjective h₄]
  exact ⟨l₃, l₂, rfl⟩

theorem exists_drop_of_infix {l : Text} (h : word <:+: l) : ∃ k, word <+: l.drop k := by
  obtain ⟨a, b, rfl⟩ := h
  exact ⟨a.length, b, by simp⟩

/-- A word that is left stands in the text where nothing was found. -/
theorem exists_of_infix_pieces (hword : word ≠ [])
    (hapart : findings.Pairwise fun f g => f.stop ≤ g.start)
    (hproper : ∀ f ∈ findings, f.start < f.stop) {first : Nat}
    (hfirst : ∀ f ∈ findings, first ≤ f.start) (h : word.map some <:+: pieces text first findings) :
    ∃ j, first ≤ j ∧ word <+: text.drop j ∧
      ∀ pos, j ≤ pos → pos < j + word.length → ¬ Covered findings pos := by
  induction findings generalizing first with
  | nil =>
    obtain ⟨k, hk⟩ := exists_drop_of_infix (infix_of_map_some h)
    rw [drop_drop] at hk
    exact ⟨first + k, Nat.le_add_right _ _, hk, fun pos _ _ ⟨f, hf, _⟩ =>
      absurd hf not_mem_nil⟩
  | cons f findings ih =>
    obtain ⟨hbefore, hapart⟩ := pairwise_cons.mp hapart
    have hf := hproper f mem_cons_self
    rcases infix_of_append_none hword h with h | h
    · obtain ⟨k, hk⟩ := exists_drop_of_infix (infix_of_map_some h)
      have hlength := hk.length_le
      have hpos := length_pos_of_ne_nil hword
      rw [length_drop, length_take] at hlength
      rw [drop_take, drop_drop] at hk
      refine ⟨first + k, Nat.le_add_right _ _, hk.trans ( take_prefix _ _), ?_⟩
      rintro pos hle hlt ⟨g, hg, hstart, -⟩
      rcases mem_cons.mp hg with rfl | hg
      · omega
      · have := hbefore g hg
        omega
    · obtain ⟨j, hj, hprefix, hfree⟩ := ih hapart
        (fun g hg => hproper g (mem_cons_of_mem _ hg)) hbefore h
      have hstart := hfirst f mem_cons_self
      refine ⟨j, by omega, hprefix, ?_⟩
      rintro pos hle hlt ⟨g, hg, hcovered⟩
      rcases mem_cons.mp hg with rfl | hg
      · omega
      · exact hfree pos hle hlt ⟨g, hg, hcovered⟩

/-- A value that can be told from the placeholder. -/
structure Proper (value : Text) : Prop where
  long : MIN_VALUE_LENGTH ≤ value.length
  opening : '‹' ∉ value
  closing : '›' ∉ value

theorem Proper.clear (h : Proper value) : Clear value SECRET_PLACEHOLDER where
  ne_nil := by
    rintro rfl
    exact absurd h.long (by decide)
  bounds := by
    refine ⟨'‹', "secret".toList, '›', rfl, h.opening, h.closing, fun hi => ?_⟩
    exact absurd (h.long.trans hi.length_le) (by decide)

/-- **No supplied value is left in a text.** -/
theorem not_infix_redactSecrets (hmem : value ∈ allValues extraValues environment)
    (h : Proper value) : ¬ value <:+: redactSecrets wordChar text extraValues environment := by
  obtain ⟨hproper, hapart, hcovered⟩ := detected wordChar text extraValues environment
  have hne := h.clear.ne_nil
  rw [redactSecrets, @redact_eq_fill _ _ hproper hapart 0 fun f _ => Nat.zero_le f.start,
    take_zero, nil_append, Text.infix_fill h.clear]
  intro hleft
  obtain ⟨j, -, hprefix, hfree⟩ := exists_of_infix_pieces hne hapart
    (fun f hf => (hproper f hf).1) (fun f _ => Nat.zero_le f.start) hleft
  -- an occurrence starts within one that was found
  obtain ⟨i, hi, hle, hlt⟩ := Text.covers_occurrences hne hprefix
  refine hfree j (Nat.le_refl j) (Nat.lt_add_of_pos_right (length_pos_of_ne_nil hne)) ?_
  refine (hcovered j).mpr ⟨⟨"configured-secret", i, i + value.length⟩, ?_, hle, hlt⟩
  refine mem_append_right _ (mem_flatMap.mpr ⟨value, hmem, ?_⟩)
  rw [valueFindings, if_neg (Nat.not_lt.mpr h.long)]
  exact mem_map.mpr ⟨i, hi, rfl⟩

/-! ### Objects -/

mutual

/-- The strings of a value that are no keys. -/
def leaves : Json → List Text
  | .str s => [s.toList]
  | .arr xs => itemLeaves xs
  | .obj fs => fieldLeaves fs
  | _ => []

def itemLeaves : List Json → List Text
  | [] => []
  | x :: xs => leaves x ++ itemLeaves xs

def fieldLeaves : Json.Dict → List Text
  | [] => []
  | (_, value) :: fs => leaves value ++ fieldLeaves fs

end

mutual

/-- The value with all strings but the keys emptied. -/
def shape : Json → Json
  | .str _ => .str ""
  | .arr xs => .arr (itemShapes xs)
  | .obj fs => .obj (fieldShapes fs)
  | value => value

def itemShapes : List Json → List Json
  | [] => []
  | x :: xs => shape x :: itemShapes xs

def fieldShapes : Json.Dict → Json.Dict
  | [] => []
  | (key, value) :: fs => (key, shape value) :: fieldShapes fs

end

section
variable (wordChar : Char → Bool) (extraValues : List Text) (environment : Option Environment)

mutual

theorem shape_redact : (v : Json) →
    shape (redactSecretsInObj wordChar extraValues environment v) = shape v
  | .null => rfl
  | .bool _ => rfl
  | .int _ => rfl
  | .float _ => rfl
  | .str _ => rfl
  | .arr xs => congrArg Json.arr (itemShapes_redact xs)
  | .obj fs => congrArg Json.obj (fieldShapes_redact fs)

theorem itemShapes_redact : (xs : List Json) →
    itemShapes (redactItems wordChar extraValues environment xs) = itemShapes xs
  | [] => rfl
  | x :: xs => congrArg₂ List.cons (shape_redact x) (itemShapes_redact xs)

theorem fieldShapes_redact : (fs : Json.Dict) →
    fieldShapes (redactFields wordChar extraValues environment fs) = fieldShapes fs
  | [] => rfl
  | (key, value) :: fs =>
    congrArg₂ List.cons (congrArg (Prod.mk key) (shape_redact value)) (fieldShapes_redact fs)

end

mutual

theorem leaves_redact : (v : Json) →
    leaves (redactSecretsInObj wordChar extraValues environment v) =
      (leaves v).map fun s => redactSecrets wordChar s extraValues environment
  | .null => rfl
  | .bool _ => rfl
  | .int _ => rfl
  | .float _ => rfl
  | .str _ => congrArg (fun s => [s]) String.toList_ofList
  | .arr xs => itemLeaves_redact xs
  | .obj fs => fieldLeaves_redact fs

theorem itemLeaves_redact : (xs : List Json) →
    itemLeaves (redactItems wordChar extraValues environment xs) =
      (itemLeaves xs).map fun s => redactSecrets wordChar s extraValues environment
  | [] => rfl
  | x :: xs => by
    rw [redactItems, itemLeaves, itemLeaves, map_append, leaves_redact x, itemLeaves_redact xs]

theorem fieldLeaves_redact : (fs : Json.Dict) →
    fieldLeaves (redactFields wordChar extraValues environment fs) =
      (fieldLeaves fs).map fun s => redactSecrets wordChar s extraValues environment
  | [] => rfl
  | (key, value) :: fs => by
    rw [redactFields, fieldLeaves, fieldLeaves, map_append, leaves_redact value,
      fieldLeaves_redact fs]

end

end

/-- **Detection and redaction.** -/
theorem detected_redacted (wordChar : Char → Bool) (environment : Option Environment) :
    (∀ (text : Text) (extraValues : List Text),
      (∀ f ∈ detectSecrets wordChar text extraValues environment,
        f.start < f.stop ∧ f.stop ≤ text.length) ∧
      (detectSecrets wordChar text extraValues environment).Pairwise
        (fun f g => f.stop ≤ g.start) ∧
      ∀ pos, Covered (detectSecrets wordChar text extraValues environment) pos ↔
        Covered (rawFindings wordChar text (allValues extraValues environment)) pos) ∧
    ∀ (obj : Json) (extraValues : List Text),
      shape (redactSecretsInObj wordChar extraValues environment obj) = shape obj ∧
      ∀ value ∈ extraValues, Proper value →
        ∀ leaf ∈ leaves (redactSecretsInObj wordChar extraValues environment obj),
          ¬ value <:+: leaf := by
  refine ⟨fun text extraValues => detected wordChar text extraValues environment,
    fun obj extraValues => ⟨shape_redact _ _ _ obj, fun value hmem hproper leaf hleaf => ?_⟩⟩
  rw [leaves_redact] at hleaf
  obtain ⟨s, -, rfl⟩ := mem_map.mp hleaf
  exact not_infix_redactSecrets (mem_append_left _ hmem) hproper

theorem detected_redacted_overlapping :
    ¬ "abcabcab".toList <:+: redactSecrets (fun _ => false) "abcabcabcab".toList
      ["abcabcab".toList] none := by
  refine ((detected_redacted (fun _ => false) none).2 (.str "abcabcabcab")
    ["abcabcab".toList]).2 "abcabcab".toList mem_cons_self
    ⟨by decide, by decide, by decide⟩ _ ?_
  rw [leaves_redact]
  exact mem_cons_self

end KolegaCode.Security
