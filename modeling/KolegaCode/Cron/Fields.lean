import Mathlib.Data.Finset.Basic
import Mathlib.Data.Finset.Image
import Mathlib.Data.Finset.Lattice.Fold
import KolegaCode.Hashline.Hash
import KolegaCode.Lib.Except
import KolegaCode.Lib.Lines

/-!
# Cron — the fields of an expression

A field is a comma-separated list of items, each a star, a value or a range, and each with a step
or without.  `Item` is that grammar and `Item.Denotes` what an item stands for.

A step behind a single value means "from here to the field's maximum", and whether there is a step
is told from its size: `v/1` is read as `v` alone (`Item.bareOne`).
-/

namespace KolegaCode.Cron

open List
open Hashline (isSpace)
open Text (strip)

/-! ### The parser -/

structure FieldSpec where
  name : String
  low : Nat
  high : Nat

def MINUTE : FieldSpec := ⟨"minute", 0, 59⟩
def HOUR : FieldSpec := ⟨"hour", 0, 23⟩
def DOM : FieldSpec := ⟨"day-of-month", 1, 31⟩
def MONTH : FieldSpec := ⟨"month", 1, 12⟩
/-- Takes 0–7; 7 becomes 0, both are Sunday. -/
def DOW : FieldSpec := ⟨"day-of-week", 0, 7⟩

/-- What a schedule's functions raise: a `CronError` with what its message tells, the `ValueError`
of `int` or of a time, and the `OverflowError` of a date. -/
inductive Raised where
  | emptyField (name : String)
  | unsupportedField (name : String) (text : List Char)
  | emptyListItem (name : String) (text : List Char)
  | nestedStep (name : String) (text : List Char)
  | stepNotPositive (name : String) (text : List Char)
  | invertedRange (body : List Char) (name : String)
  | unsupportedValue (body : List Char) (name : String)
  | outOfRange (value : Nat) (name : String) (low high : Nat)
  | emptyExpression
  | macroNotSupported (word : List Char)
  | fieldCount (got : Nat)
  | noMatchingTime (expression : List Char)
  | digitLimit
  | notATime
  | overflow
  deriving DecidableEq, Repr

/-- `_ALLOWED_FIELD_CHARS`. -/
def isFieldChar (c : Char) : Bool := c.isDigit || c == '*' || c == '/' || c == ',' || c == '-'

/-- `text.isdigit()`, for a text of field characters. -/
def isdigit (cs : List Char) : Bool := !cs.isEmpty && cs.all Char.isDigit

/-- Python reads no integer with more digits, leading zeros included. -/
def intMaxStrDigits : Nat := 4300

/-- The number some digits write. -/
def numeral (cs : List Char) : Nat := Nat.ofDigitChars 10 cs 0

/-- `int(text)`, for a text of digits. -/
def int (cs : List Char) : Except Raised Nat :=
  if intMaxStrDigits < cs.length then .error .digitLimit else .ok (numeral cs)

/-- `text.partition(c)`, without the separator. -/
def partition (c : Char) (cs : List Char) : List Char × List Char :=
  (cs.takeWhile (· ≠ c), (cs.dropWhile (· ≠ c)).tail)

/-- `range(start, stop, step)`. -/
def range (start stop step : Nat) : List Nat :=
  List.range' start ((stop - start + step - 1) / step) step

section

variable (spec : FieldSpec) (fieldText : List Char)

/-- `_parse_value`. -/
def parseValue (text : List Char) : Except Raised Nat := do
  let body := strip isSpace text
  if isdigit body = false then throw (.unsupportedValue body spec.name)
  let value ← int body
  if ¬ (spec.low ≤ value ∧ value ≤ spec.high) then
    throw (.outOfRange value spec.name spec.low spec.high)
  pure value

/-- `_parse_field_item`: what is before the step, and the step. -/
def parseStep (item : List Char) : Except Raised (List Char × Nat) := do
  if '/' ∈ item then
    let (body, stepText) := partition '/' item
    if '/' ∈ stepText then throw (.nestedStep spec.name fieldText)
    if isdigit stepText = false then throw (.stepNotPositive spec.name fieldText)
    let step ← int stepText
    if step < 1 then throw (.stepNotPositive spec.name fieldText)
    pure (strip isSpace body, step)
  else pure (item, 1)

/-- `_parse_field_item`: the first and the last value. -/
def parseBounds (body : List Char) (step : Nat) : Except Raised (Nat × Nat) := do
  if body = ['*'] then pure (spec.low, spec.high)
  else if '-' ∈ body then
    let (startText, endText) := partition '-' body
    let low ← parseValue spec startText
    let high ← parseValue spec endText
    if low > high then throw (.invertedRange body spec.name)
    pure (low, high)
  else
    let low ← parseValue spec body
    -- a bare value with a step means "from here to the field maximum"
    pure (low, if step > 1 then spec.high else low)

/-- `_parse_field_item`. -/
def parseFieldItem (item : List Char) : Except Raised (Finset Nat) := do
  let (body, step) ← parseStep spec fieldText item
  let (low, high) ← parseBounds spec body step
  pure (range low (high + 1) step).toFinset

/-- The loop of `_parse_field`. -/
def parseItems (values : Finset Nat) : List (List Char) → Except Raised (Finset Nat)
  | [] => pure values
  | part :: parts => do
    let item := strip isSpace part
    if item.isEmpty then throw (.emptyListItem spec.name fieldText)
    let more ← parseFieldItem spec fieldText item
    parseItems (values ∪ more) parts

end

/-- `_parse_field`. -/
def parseField (text : List Char) (spec : FieldSpec) : Except Raised (Finset Nat) := do
  let raw := strip isSpace text
  if raw.isEmpty then throw (.emptyField spec.name)
  if raw.all isFieldChar = false then throw (.unsupportedField spec.name text)
  parseItems spec text ∅ (raw.splitOn ',')

/-! ### The grammar -/

/-- What an item counts over; the numerals are digits. -/
inductive Body where
  | star
  | value (v : List Char)
  | range (a b : List Char)

/-- An item of a field. -/
structure Item where
  body : Body
  step : Option (List Char)

def Body.text : Body → List Char
  | .star => ['*']
  | .value v => v
  | .range a b => a ++ '-' :: b

def stepText : Option (List Char) → List Char
  | none => []
  | some n => '/' :: n

def Item.text (i : Item) : List Char := i.body.text ++ stepText i.step

/-- Digits that write a value of the field. -/
def IsValue (spec : FieldSpec) (v : List Char) : Prop :=
  isdigit v = true ∧ spec.low ≤ numeral v ∧ numeral v ≤ spec.high

def Body.WellFormed (spec : FieldSpec) : Body → Prop
  | .star => True
  | .value v => IsValue spec v
  | .range a b => IsValue spec a ∧ IsValue spec b ∧ numeral a ≤ numeral b

structure Item.WellFormed (spec : FieldSpec) (i : Item) : Prop where
  body : i.body.WellFormed spec
  step : ∀ n ∈ i.step, isdigit n = true ∧ 1 ≤ numeral n

/-- The distance between the values of an item. -/
def Item.stride (i : Item) : Nat := (i.step.map numeral).getD 1

def Item.first (spec : FieldSpec) (i : Item) : Nat :=
  match i.body with
  | .star => spec.low
  | .value v => numeral v
  | .range a _ => numeral a

/-- A single value with a step counts up to the field's maximum. -/
def Item.last (spec : FieldSpec) (i : Item) : Nat :=
  match i.body with
  | .star => spec.high
  | .value v => if i.step.isSome then spec.high else numeral v
  | .range _ b => numeral b

/-- What an item denotes: its progression. -/
def Item.Denotes (spec : FieldSpec) (i : Item) (w : Nat) : Prop :=
  ∃ k, w = i.first spec + i.stride * k ∧ w ≤ i.last spec

/-- The text is a field of these items. -/
structure IsField (spec : FieldSpec) (text : List Char) (items : List Item) : Prop where
  ne_nil : items ≠ []
  text_eq : strip isSpace text = [','].intercalate (items.map Item.text)
  wellFormed : ∀ i ∈ items, i.WellFormed spec

/-! ### Characters and separators -/

variable {c : Char} {cs text : List Char} {step w : Nat} {i : Item} {s values : Finset Nat}
  {items : List Item}

theorem isSpace_of_isFieldChar (h : isFieldChar c = true) : isSpace c = false := by
  simp only [isFieldChar, Bool.or_eq_true, beq_iff_eq] at h
  rcases h with (((h | rfl) | rfl) | rfl) | rfl
  · simp only [Char.isDigit, Bool.and_eq_true, decide_eq_true_eq] at h
    have hlow : 48 ≤ c.toNat := h.1
    have hhigh : c.toNat ≤ 57 := h.2
    simp only [isSpace, Bool.or_eq_false_iff, Bool.and_eq_false_iff, decide_eq_false_iff_not]
    omega
  all_goals decide

theorem strip_field (h : ∀ c ∈ cs, isFieldChar c = true) : strip isSpace cs = cs :=
  Text.strip_eq_self isSpace fun c hc => isSpace_of_isFieldChar (h c hc)

theorem isdigit_iff : isdigit cs = true ↔ cs ≠ [] ∧ ∀ c ∈ cs, c.isDigit = true := by
  simp [isdigit]

theorem isFieldChar_of_isdigit (h : isdigit cs = true) :
    ∀ c ∈ cs, isFieldChar c = true := fun c hc => by
  simp [isFieldChar, (isdigit_iff.mp h).2 c hc]

theorem not_mem_of_isdigit (h : isdigit cs = true) (hc : c.isDigit = false) :
    c ∉ cs := fun hmem => by
  rw [(isdigit_iff.mp h).2 c hmem] at hc
  cases hc

theorem partition_append {a : List Char} (h : c ∉ a) (b : List Char) :
    partition c (a ++ c :: b) = (a, b) := by
  have hne : ∀ x ∈ a, decide (x ≠ c) = true := fun x hx => decide_eq_true fun hxc => h (hxc ▸ hx)
  rw [partition, takeWhile_append_of_pos hne, dropWhile_append_of_pos hne]
  simp

theorem partition_eq (h : c ∈ cs) :
    cs = (partition c cs).1 ++ c :: (partition c cs).2 ∧ c ∉ (partition c cs).1 := by
  obtain ⟨a, b, rfl, ha⟩ := eq_append_cons_of_mem h
  rw [partition_append ha]
  exact ⟨rfl, ha⟩

theorem mem_range {start stop : Nat} (h : 0 < step) :
    w ∈ range start stop step ↔ ∃ k, w = start + step * k ∧ w < stop := by
  rw [range, mem_range']
  refine exists_congr fun k => ?_
  rw [and_comm, Nat.lt_div_iff_mul_lt h, Nat.mul_comm k]
  refine and_congr_right fun hw => ?_
  omega

/-! ### What the code reads -/

/-- `int` reads the text. -/
def Short (cs : List Char) : Prop := cs.length ≤ intMaxStrDigits

def Body.Short : Body → Prop
  | .star => True
  | .value v => Cron.Short v
  | .range a b => Cron.Short a ∧ Cron.Short b

structure Item.Short (i : Item) : Prop where
  body : i.body.Short
  step : ∀ n ∈ i.step, Cron.Short n

/-- The bounds the code counts between. -/
def Body.bounds (spec : FieldSpec) (step : Nat) : Body → Nat × Nat
  | .star => (spec.low, spec.high)
  | .value v => (numeral v, if step > 1 then spec.high else numeral v)
  | .range a b => (numeral a, numeral b)

/-- The values the code reads off an item. -/
def Item.read (spec : FieldSpec) (i : Item) : Finset Nat :=
  let (low, high) := i.body.bounds spec i.stride
  (range low (high + 1) i.stride).toFinset

theorem int_iff {n : Nat} : int cs = .ok n ↔ Short cs ∧ n = numeral cs := by
  unfold int Short
  split
  · next h => exact ⟨nofun, fun hs => absurd hs.1 (Nat.not_le.mpr h)⟩
  · next h =>
    rw [Except.ok.injEq, eq_comm]
    exact ⟨fun hn => ⟨Nat.le_of_not_lt h, hn⟩, And.right⟩

variable {spec : FieldSpec} {fieldText : List Char}

theorem parseValue_iff {v : List Char} {n : Nat} (h : ∀ c ∈ v, isFieldChar c = true) :
    parseValue spec v = .ok n ↔ IsValue spec v ∧ Short v ∧ n = numeral v := by
  rw [parseValue, strip_field h]
  cases hdigit : isdigit v with
  | false =>
    refine ⟨nofun, fun hv => ?_⟩
    rw [hv.1.1] at hdigit
    cases hdigit
  | true =>
    simp only [Bool.true_eq_false, if_false, bind_eq_ok, int_iff]
    constructor
    · rintro ⟨m, ⟨hshort, rfl⟩, hm⟩
      split at hm
      · cases hm
      · next hrange =>
        cases hm
        exact ⟨⟨hdigit, Decidable.not_not.mp hrange⟩, hshort, rfl⟩
    · rintro ⟨⟨-, hrange⟩, hshort, rfl⟩
      exact ⟨_, ⟨hshort, rfl⟩, by rw [if_neg (not_not.mpr hrange)]; rfl⟩

theorem parseStep_iff {item body : List Char} (h : ∀ c ∈ item, isFieldChar c = true) :
    parseStep spec fieldText item = .ok (body, step) ↔
      ∃ st, item = body ++ stepText st ∧ '/' ∉ body ∧
        (∀ n ∈ st, (isdigit n = true ∧ 1 ≤ numeral n) ∧ Short n) ∧
        step = (st.map numeral).getD 1 := by
  unfold parseStep
  split
  · next hslash =>
    obtain ⟨hitem, hbody⟩ := partition_eq hslash
    rcases hp : partition '/' item with ⟨before, after⟩
    rw [hp] at hitem hbody
    have hbefore : strip isSpace before = before :=
      strip_field fun c hc => h c (by rw [hitem]; exact mem_append_left _ hc)
    simp only [hbefore]
    constructor
    · intro hok
      split at hok
      · cases hok
      · split at hok
        · cases hok
        · next hdigit =>
          obtain ⟨n, hint, hok⟩ := bind_eq_ok.mp hok
          obtain ⟨hshort, rfl⟩ := int_iff.mp hint
          split at hok
          · cases hok
          · next hpos =>
            cases hok
            refine ⟨some after, hitem, hbody, ?_, rfl⟩
            rintro n ⟨⟩
            exact ⟨⟨Bool.not_eq_false _ ▸ hdigit, Nat.not_lt.mp hpos⟩, hshort⟩
    · rintro ⟨st, hst, hfree, hwf, rfl⟩
      cases st with
      | none =>
        refine absurd hslash ?_
        rwa [hst, stepText, append_nil]
      | some n =>
        obtain ⟨⟨hdigit, hpos⟩, hshort⟩ := hwf n rfl
        rw [hst, stepText, partition_append hfree] at hp
        cases hp
        rw [if_neg (not_mem_of_isdigit hdigit rfl), hdigit]
        simp [int_iff.mpr ⟨hshort, rfl⟩, Nat.not_lt.mpr hpos, bind, Except.bind, pure, Except.pure]
  · next hslash =>
    constructor
    · intro hok
      cases hok
      exact ⟨none, (append_nil _).symm, hslash, nofun, rfl⟩
    · rintro ⟨st, rfl, -, -, rfl⟩
      cases st with
      | none => simp [stepText, pure, Except.pure]
      | some n => exact absurd (by simp [stepText]) hslash

theorem Body.text_chars {b : Body} (h : b.WellFormed spec) :
    (∀ c ∈ b.text, isFieldChar c = true) ∧ '/' ∉ b.text ∧ ',' ∉ b.text := by
  cases b with
  | star => exact ⟨by simp [Body.text, isFieldChar], by simp [Body.text], by simp [Body.text]⟩
  | value v =>
    exact ⟨isFieldChar_of_isdigit h.1, not_mem_of_isdigit h.1 rfl, not_mem_of_isdigit h.1 rfl⟩
  | range a b =>
    have ha := h.1.1
    have hb := h.2.1.1
    refine ⟨fun c hc => ?_, ?_, ?_⟩
    · rcases mem_append.mp hc with hc | hc
      · exact isFieldChar_of_isdigit ha c hc
      · rcases mem_cons.mp hc with rfl | hc
        · rfl
        · exact isFieldChar_of_isdigit hb c hc
    all_goals
      simp [Body.text, not_mem_of_isdigit ha, not_mem_of_isdigit hb]

theorem parseBounds_iff {body : List Char} {r : Nat × Nat} (h : ∀ c ∈ body, isFieldChar c = true) :
    parseBounds spec body step = .ok r ↔
      ∃ b : Body, body = b.text ∧ b.WellFormed spec ∧ b.Short ∧ r = b.bounds spec step := by
  unfold parseBounds
  split
  · next hstar =>
    constructor
    · intro hok
      cases hok
      exact ⟨.star, hstar, trivial, trivial, rfl⟩
    · rintro ⟨b, hb, hwf, -, rfl⟩
      rw [hstar] at hb
      cases b with
      | star => rfl
      | value v =>
        have hv := hwf.1
        rw [← show ['*'] = v from hb] at hv
        cases hv
      | range a b =>
        have hdash : '-' ∈ ['*'] := by rw [hb]; simp [Body.text]
        cases mem_singleton.mp hdash
  · next hstar =>
    split
    · next hdash =>
      obtain ⟨hbody, hfree⟩ := partition_eq hdash
      rcases hp : partition '-' body with ⟨before, after⟩
      rw [hp] at hbody hfree
      have hbefore : ∀ c ∈ before, isFieldChar c = true := fun c hc =>
        h c (by rw [hbody]; exact mem_append_left _ hc)
      have hafter : ∀ c ∈ after, isFieldChar c = true := fun c hc =>
        h c (by rw [hbody]; exact mem_append_right _ (mem_cons_of_mem _ hc))
      simp only [bind_eq_ok, parseValue_iff hbefore, parseValue_iff hafter]
      constructor
      · rintro ⟨low, ⟨hlow, hslow, rfl⟩, high, ⟨hhigh, hshigh, rfl⟩, hok⟩
        split at hok
        · cases hok
        · next hle =>
          cases hok
          exact ⟨.range before after, hbody, ⟨hlow, hhigh, Nat.not_lt.mp hle⟩, ⟨hslow, hshigh⟩, rfl⟩
      · rintro ⟨b, rfl, hwf, hshort, rfl⟩
        cases b with
        | star => exact absurd rfl hstar
        | value v => exact absurd hdash (not_mem_of_isdigit hwf.1 rfl)
        | range a b =>
          rw [Body.text, partition_append (not_mem_of_isdigit hwf.1.1 rfl)] at hp
          cases hp
          refine ⟨_, ⟨hwf.1, hshort.1, rfl⟩, _, ⟨hwf.2.1, hshort.2, rfl⟩, ?_⟩
          rw [if_neg (Nat.not_lt.mpr hwf.2.2)]
          rfl
    · next hdash =>
      simp only [bind_eq_ok, parseValue_iff h]
      constructor
      · rintro ⟨low, ⟨hlow, hshort, rfl⟩, hok⟩
        cases hok
        exact ⟨.value body, rfl, hlow, hshort, rfl⟩
      · rintro ⟨b, rfl, hwf, hshort, rfl⟩
        cases b with
        | star => exact absurd rfl hstar
        | value v => exact ⟨_, ⟨hwf, hshort, rfl⟩, rfl⟩
        | range a b => exact absurd (by simp [Body.text]) hdash

theorem Item.text_chars (h : i.WellFormed spec) :
    (∀ c ∈ i.text, isFieldChar c = true) ∧ ',' ∉ i.text := by
  obtain ⟨hbody, -, hcomma⟩ := Body.text_chars h.body
  rcases hst : i.step with - | n
  · simpa [Item.text, hst, stepText] using ⟨hbody, hcomma⟩
  · have hdigit := (h.step n hst).1
    rw [Item.text, hst, stepText]
    refine ⟨fun c hc => ?_, ?_⟩
    · rcases mem_append.mp hc with hc | hc
      · exact hbody c hc
      · rcases mem_cons.mp hc with rfl | hc
        · rfl
        · exact isFieldChar_of_isdigit hdigit c hc
    · simp [hcomma, not_mem_of_isdigit hdigit]

theorem Item.text_ne_nil (h : i.WellFormed spec) : i.text ≠ [] := by
  have hbody : i.body.text ≠ [] := by
    rcases hb : i.body with - | v | ⟨a, b⟩
    · simp [Body.text]
    · have hwf := h.body
      rw [hb] at hwf
      exact (isdigit_iff.mp hwf.1).1
    · simp [Body.text]
  simp [Item.text, hbody]

/-- The code reads the items of the grammar. -/
theorem parseFieldItem_iff {item : List Char} (h : ∀ c ∈ item, isFieldChar c = true) :
    parseFieldItem spec fieldText item = .ok s ↔
      ∃ i : Item, item = i.text ∧ i.WellFormed spec ∧ i.Short ∧ s = i.read spec := by
  simp only [parseFieldItem, bind_eq_ok, Prod.exists, parseStep_iff h]
  constructor
  · rintro ⟨body, step, ⟨st, rfl, -, hst, rfl⟩, low, high, hbounds, hok⟩
    obtain ⟨b, rfl, hwf, hshort, hr⟩ :=
      (parseBounds_iff fun c hc => h c (mem_append_left _ hc)).mp hbounds
    cases hok
    refine ⟨⟨b, st⟩, rfl, ⟨hwf, fun n hn => (hst n hn).1⟩, ⟨hshort, fun n hn => (hst n hn).2⟩, ?_⟩
    rw [Item.read, Item.stride, ← hr]
  · rintro ⟨i, rfl, hwf, hshort, rfl⟩
    refine ⟨i.body.text, i.stride, ⟨i.step, rfl, (Body.text_chars hwf.body).2.1,
      fun n hn => ⟨hwf.step n hn, hshort.step n hn⟩, rfl⟩, _, _,
      (parseBounds_iff (Body.text_chars hwf.body).1).mpr
        ⟨i.body, rfl, hwf.body, hshort.body, rfl⟩, rfl⟩

theorem parseItems_iff {parts : List (List Char)}
    (h : ∀ part ∈ parts, ∀ c ∈ part, isFieldChar c = true) :
    parseItems spec fieldText values parts = .ok s ↔
      ∃ items : List Item, parts = items.map Item.text ∧
        (∀ i ∈ items, i.WellFormed spec ∧ i.Short) ∧
        s = items.foldl (fun vs i => vs ∪ i.read spec) values := by
  induction parts generalizing values with
  | nil =>
    constructor
    · intro hok
      cases hok
      exact ⟨[], rfl, nofun, rfl⟩
    · rintro ⟨items, hitems, -, rfl⟩
      rw [map_eq_nil_iff.mp hitems.symm]
      rfl
  | cons part parts ih =>
    have hpart := h part mem_cons_self
    have hparts := fun p hp => h p (mem_cons_of_mem part hp)
    simp only [parseItems, strip_field hpart, List.isEmpty_iff]
    constructor
    · intro hok
      split at hok
      · cases hok
      · obtain ⟨more, hmore, hok⟩ := bind_eq_ok.mp hok
        obtain ⟨i, rfl, hwf, hshort, rfl⟩ := (parseFieldItem_iff hpart).mp hmore
        obtain ⟨items, rfl, hall, rfl⟩ := (ih hparts).mp hok
        exact ⟨i :: items, rfl, forall_mem_cons.mpr ⟨⟨hwf, hshort⟩, hall⟩, rfl⟩
    · rintro ⟨items, hitems, hall, rfl⟩
      obtain ⟨i, items, rfl, rfl, rfl⟩ := map_eq_cons_iff.mp hitems.symm
      obtain ⟨⟨hwf, hshort⟩, hall⟩ := forall_mem_cons.mp hall
      rw [if_neg (Item.text_ne_nil hwf)]
      exact bind_eq_ok.mpr ⟨_, (parseFieldItem_iff hpart).mpr ⟨i, rfl, hwf, hshort, rfl⟩,
        (ih hparts).mpr ⟨items, rfl, hall, rfl⟩⟩

theorem isFieldChar_intercalate (h : ∀ i ∈ items, ∀ c ∈ i.text, isFieldChar c = true) :
    ∀ c ∈ [','].intercalate (items.map Item.text), isFieldChar c = true := by
  intro c hc
  induction items with
  | nil => cases hc
  | cons i items ih =>
    obtain ⟨hi, hitems⟩ := forall_mem_cons.mp h
    cases items with
    | nil => exact hi c (by simpa using hc)
    | cons j items =>
      rw [map_cons, map_cons, intercalate_cons_cons] at hc
      rcases mem_append.mp hc with hc | hc
      · rcases mem_append.mp hc with hc | hc
        · exact hi c hc
        · rw [mem_singleton.mp hc]
          rfl
      · exact ih hitems hc

theorem mem_foldl_read :
    w ∈ items.foldl (fun vs i => vs ∪ i.read spec) values ↔
      w ∈ values ∨ ∃ i ∈ items, w ∈ i.read spec := by
  induction items generalizing values with
  | nil => simp
  | cons i items ih => simp [ih, or_assoc]

theorem IsField.splitOn (h : IsField spec text items) :
    (strip isSpace text).splitOn ',' = items.map Item.text := by
  rw [h.text_eq, splitOn_intercalate]
  · simpa using fun i hi => (Item.text_chars (h.wellFormed i hi)).2
  · simpa using h.ne_nil

/-- **What the code accepts and reads**: the texts of the grammar, where `int` reads every
numeral, and what `Item.read` says of each item. -/
theorem parseField_iff :
    parseField text spec = .ok s ↔
      ∃ items, IsField spec text items ∧ (∀ i ∈ items, i.Short) ∧
        ∀ w, w ∈ s ↔ ∃ i ∈ items, w ∈ i.read spec := by
  simp only [parseField, List.isEmpty_iff]
  constructor
  · intro hok
    split at hok
    · cases hok
    · split at hok
      · cases hok
      · next hchars =>
        rw [Bool.not_eq_false, all_eq_true] at hchars
        obtain ⟨items, hparts, hall, rfl⟩ := (parseItems_iff fun part hpart c hc =>
          hchars c ((Text.mem_splitOn hpart).2 c hc)).mp hok
        refine ⟨items, ⟨?_, ?_, fun i hi => (hall i hi).1⟩, fun i hi => (hall i hi).2, ?_⟩
        · rintro rfl
          exact splitOn_ne_nil ',' _ hparts
        · rw [← hparts, intercalate_splitOn]
        · exact fun w => by simp [mem_foldl_read]
  · rintro ⟨items, hfield, hshort, hs⟩
    have hparts := hfield.splitOn
    have hchars : ∀ c ∈ strip isSpace text, isFieldChar c = true := by
      rw [hfield.text_eq]
      exact isFieldChar_intercalate fun i hi => (Item.text_chars (hfield.wellFormed i hi)).1
    have hne : strip isSpace text ≠ [] := by
      intro hnil
      rw [hnil, splitOn_nil] at hparts
      obtain ⟨i, items, rfl, hi, -⟩ := map_eq_cons_iff.mp hparts.symm
      exact Item.text_ne_nil (hfield.wellFormed i mem_cons_self) hi
    rw [if_neg hne, all_eq_true.mpr hchars, hparts]
    refine (parseItems_iff fun part hpart => ?_).mpr
      ⟨items, rfl, fun i hi => ⟨hfield.wellFormed i hi, hshort i hi⟩, ?_⟩
    · obtain ⟨i, hi, rfl⟩ := mem_map.mp hpart
      exact (Item.text_chars (hfield.wellFormed i hi)).1
    · ext w
      simp [hs, mem_foldl_read]

/-! ### The grammar is unambiguous -/

theorem Body.text_inj {b b' : Body} (h : b.WellFormed spec) (h' : b'.WellFormed spec)
    (heq : b.text = b'.text) : b = b' := by
  have hstar : ∀ v, IsValue spec v → v ≠ ['*'] := by
    rintro v hv rfl
    cases hv.1
  have hdash : ∀ v a c, IsValue spec v → v ≠ a ++ '-' :: c := by
    rintro v a c hv rfl
    exact not_mem_of_isdigit hv.1 (c := '-') rfl (by simp)
  cases b <;> cases b'
  case star.star => rfl
  case star.value v => exact absurd heq.symm (hstar v h')
  case star.range a c =>
    have hmem : '-' ∈ ['*'] := by
      rw [show ['*'] = a ++ '-' :: c from heq]
      simp
    cases mem_singleton.mp hmem
  case value.star v => exact absurd heq (hstar v h)
  case value.value v v' => exact congrArg Body.value heq
  case value.range v a c => exact absurd heq (hdash v a c h)
  case range.star a c =>
    have hmem : '-' ∈ ['*'] := by
      rw [show ['*'] = a ++ '-' :: c from heq.symm]
      simp
    cases mem_singleton.mp hmem
  case range.value a c v => exact absurd heq.symm (hdash v a c h')
  case range.range a c a' c' =>
    have hp := congrArg (partition '-') heq
    rw [Body.text, Body.text, partition_append (not_mem_of_isdigit h.1.1 rfl),
      partition_append (not_mem_of_isdigit h'.1.1 rfl)] at hp
    cases hp
    rfl

theorem Item.text_inj {i' : Item} (h : i.WellFormed spec) (h' : i'.WellFormed spec)
    (heq : i.text = i'.text) : i = i' := by
  obtain ⟨-, hfree, -⟩ := Body.text_chars h.body
  obtain ⟨-, hfree', -⟩ := Body.text_chars h'.body
  have hnone : ∀ {b b' : Body} {n}, '/' ∉ b.text → b.text ≠ b'.text ++ '/' :: n := by
    rintro b b' n hb hbn
    exact hb (by rw [hbn]; simp)
  rcases i with ⟨b, - | n⟩ <;> rcases i' with ⟨b', - | n'⟩
  · rw [Item.text, Item.text, stepText, append_nil, append_nil] at heq
    exact congrArg (Item.mk · none) (Body.text_inj h.body h'.body heq)
  · rw [Item.text, Item.text, stepText, append_nil] at heq
    exact absurd heq (hnone hfree)
  · rw [Item.text, Item.text, stepText, stepText, append_nil] at heq
    exact absurd heq.symm (hnone hfree')
  · have hp := congrArg (partition '/') heq
    rw [Item.text, Item.text, stepText, stepText, partition_append hfree,
      partition_append hfree', Prod.mk.injEq] at hp
    exact congrArg₂ (fun b n => Item.mk b (some n)) (Body.text_inj h.body h'.body hp.1) hp.2

/-- A text is the field of one list of items. -/
theorem IsField.unique {items' : List Item} (h : IsField spec text items)
    (h' : IsField spec text items') : items = items' := by
  have hmap : items.map Item.text = items'.map Item.text := h.splitOn.symm.trans h'.splitOn
  have hwf := h.wellFormed
  have hwf' := h'.wellFormed
  clear h h'
  induction items generalizing items' with
  | nil => exact (map_eq_nil_iff.mp hmap.symm).symm
  | cons i items ih =>
    obtain ⟨i', items', rfl, htext, hrest⟩ := map_eq_cons_iff.mp hmap.symm
    obtain ⟨hi, hitems⟩ := forall_mem_cons.mp hwf
    obtain ⟨hi', hitems'⟩ := forall_mem_cons.mp hwf'
    rw [Item.text_inj hi hi' htext.symm, ih hrest.symm hitems hitems']

/-! ### Steps of one -/

/-- The value `v` of an item `v/1`. -/
def Item.bareOne (i : Item) : Option Nat :=
  match i.body, i.step with
  | .value v, some n => if numeral n = 1 then some (numeral v) else none
  | _, _ => none

/-- An item `v/1` is read as `v`; every other item as what it denotes. -/
theorem Item.mem_read (h : i.WellFormed spec) :
    w ∈ i.read spec ↔ i.bareOne = some w ∨ i.bareOne = none ∧ i.Denotes spec w := by
  have hstride : 0 < i.stride := by
    rcases hst : i.step with - | n
    · rw [Item.stride, hst]
      exact Nat.one_pos
    · rw [Item.stride, hst]
      exact (h.step n hst).2
  have hread : w ∈ i.read spec ↔ ∃ k, w = (i.body.bounds spec i.stride).1 + i.stride * k ∧
      w ≤ (i.body.bounds spec i.stride).2 := by
    simp only [Item.read, mem_toFinset, mem_range hstride, Nat.lt_succ_iff]
  rw [hread]
  rcases i with ⟨- | v | ⟨a, b⟩, - | n⟩
  all_goals try simp [Item.bareOne, Item.Denotes, Item.first, Item.last, Body.bounds, Item.stride]
  -- a value with a step
  have hn : 1 ≤ numeral n := (h.step n rfl).2
  have hv : numeral v ≤ spec.high := h.body.2.2
  by_cases hone : numeral n = 1
  · have hlt : ¬ 1 < numeral n := by omega
    simp only [hone, Nat.lt_irrefl, if_false, not_true, false_and, or_false, true_and]
    refine ⟨fun hw => by omega, fun hw => ⟨⟨0, by omega⟩, by omega⟩⟩
  · rw [if_pos (by omega)]
    simp [hone]

/-- A value the code finds in the items. -/
def Covered (spec : FieldSpec) (items : List Item) (w : Nat) : Prop :=
  ∃ i ∈ items, i.bareOne = some w ∨ i.bareOne = none ∧ i.Denotes spec w

/-- `int` reads every numeral, and behind each `v/1` the other items have the rest. -/
structure PlainlyStepped (spec : FieldSpec) (items : List Item) : Prop where
  short : ∀ i ∈ items, i.Short
  covered : ∀ i ∈ items, ∀ v ∈ i.bareOne, ∀ w, v < w → w ≤ spec.high → Covered spec items w

/-- The text is accepted when it is a field, and then stands for what its items denote. -/
structure FieldRight (spec : FieldSpec) (text : List Char) : Prop where
  accepts : (∃ s, parseField text spec = .ok s) ↔ ∃ items, IsField spec text items
  denotes : ∀ items s, IsField spec text items → parseField text spec = .ok s →
    ∀ w, w ∈ s ↔ ∃ i ∈ items, i.Denotes spec w

theorem Item.denotes_of_bareOne {v : Nat} (hv : i.bareOne = some v) :
    i.Denotes spec w ↔ v ≤ w ∧ w ≤ spec.high := by
  obtain ⟨u, n, hbody, hstep, hone, rfl⟩ : ∃ u n, i.body = .value u ∧ i.step = some n ∧
      numeral n = 1 ∧ numeral u = v := by
    rcases i with ⟨- | u | ⟨a, b⟩, - | n⟩
    all_goals simp_all [Item.bareOne]
  simp only [Item.Denotes, Item.first, Item.last, Item.stride, hbody, hstep, Option.map_some,
    Option.getD_some, hone, Option.isSome_some, if_true]
  refine ⟨?_, fun hw => ⟨w - numeral u, by omega, hw.2⟩⟩
  rintro ⟨k, rfl, hle⟩
  omega

theorem Item.bareOne_le (h : i.WellFormed spec) {v : Nat} (hv : i.bareOne = some v) :
    v ≤ spec.high := by
  rcases i with ⟨- | u | ⟨a, b⟩, - | n⟩
  all_goals simp [Item.bareOne] at hv
  rw [← hv.2]
  exact h.body.2.2

theorem Item.last_le (h : i.WellFormed spec) : i.last spec ≤ spec.high := by
  rcases i with ⟨- | u | ⟨a, b⟩, st⟩
  · exact Nat.le_refl _
  · cases st with
    | none => exact h.body.2.2
    | some n => exact Nat.le_refl _
  · exact h.body.2.1.2.2

theorem mem_of_parseField (hfield : IsField spec text items) (hok : parseField text spec = .ok s)
    (w : Nat) : w ∈ s ↔ Covered spec items w := by
  obtain ⟨items', hfield', -, hs⟩ := parseField_iff.mp hok
  cases hfield.unique hfield'
  exact (hs w).trans (exists_congr fun i => and_congr_right fun hi =>
    Item.mem_read (hfield.wellFormed i hi))

/-- **When a text is read as it is written**: its numerals are not longer than `int` takes, and
what follows `v` is in the field anyway wherever an item is `v/1`. -/
theorem fieldRight_iff (text : List Char) :
    FieldRight spec text ↔ ∀ items, IsField spec text items → PlainlyStepped spec items := by
  constructor
  · intro hright items hfield
    obtain ⟨s, hok⟩ := hright.accepts.mpr ⟨items, hfield⟩
    obtain ⟨items', hfield', hshort, -⟩ := parseField_iff.mp hok
    cases hfield.unique hfield'
    refine ⟨hshort, fun i hi v hv w hlt hle => ?_⟩
    rw [← mem_of_parseField hfield hok, hright.denotes items s hfield hok]
    exact ⟨i, hi, (Item.denotes_of_bareOne hv).mpr ⟨hlt.le, hle⟩⟩
  · intro hplain
    refine ⟨⟨?_, ?_⟩, fun items s hfield hok w => ?_⟩
    · rintro ⟨s, hok⟩
      obtain ⟨items, hfield, -⟩ := parseField_iff.mp hok
      exact ⟨items, hfield⟩
    · rintro ⟨items, hfield⟩
      let s := items.foldl (fun vs i => vs ∪ i.read spec) ∅
      exact ⟨s, parseField_iff.mpr ⟨items, hfield, (hplain items hfield).short, fun w => by
        simp [s, mem_foldl_read]⟩⟩
    · rw [mem_of_parseField hfield hok]
      constructor
      · rintro ⟨i, hi, hv | ⟨-, hw⟩⟩
        · exact ⟨i, hi, (Item.denotes_of_bareOne hv).mpr
            ⟨Nat.le_refl w, Item.bareOne_le (hfield.wellFormed i hi) hv⟩⟩
        · exact ⟨i, hi, hw⟩
      · rintro ⟨i, hi, hw⟩
        cases hv : i.bareOne with
        | none => exact ⟨i, hi, .inr ⟨hv, hw⟩⟩
        | some v =>
          obtain ⟨hle, hhigh⟩ := (Item.denotes_of_bareOne hv).mp hw
          rcases hle.eq_or_lt with rfl | hlt
          · exact ⟨i, hi, .inl hv⟩
          · exact (hplain items hfield).covered i hi v hv w hlt hhigh

end KolegaCode.Cron
