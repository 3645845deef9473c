import Mathlib.Data.Finset.Sort
import KolegaCode.Cron.Fields
import KolegaCode.Lib.Calendar

/-!
# Cron — schedules and the next fire

A schedule fires at the minutes that match all of its five fields.  The next fire is searched day
by day, up to a horizon, and on a day that matches hour by hour; on the first day the search starts
inside the day.

`nextFireAfter_least` holds wherever the horizon itself is a date; near the end of the calendar it
is not, and the search raises before it starts.
-/

namespace KolegaCode.Cron

open Hashline (isSpace)
open Text (strip)

/-! ### Schedules -/

structure CronSchedule where
  expression : List Char
  minutes : Finset Nat
  hours : Finset Nat
  daysOfMonth : Finset Nat
  months : Finset Nat
  /-- Sunday is 0. -/
  daysOfWeek : Finset Nat
  /-- The day-of-month field is not a bare star. -/
  domRestricted : Bool
  dowRestricted : Bool

/-- `text.split()`. -/
def words (cs : List Char) : List (List Char) := (cs.splitOnP isSpace).filter (!·.isEmpty)

/-- `CronSchedule.parse`. -/
def parse (expression : List Char) : Except Raised CronSchedule := do
  let raw := [' '].intercalate (words expression)
  if raw.isEmpty then throw .emptyExpression
  if raw.head? = some '@' then throw (.macroNotSupported ((words raw).headD []))
  match raw.splitOn ' ' with
  | [minuteText, hourText, domText, monthText, dowText] => do
    let dowValues ← parseField dowText DOW
    let minutes ← parseField minuteText MINUTE
    let hours ← parseField hourText HOUR
    let daysOfMonth ← parseField domText DOM
    let months ← parseField monthText MONTH
    pure ⟨raw, minutes, hours, daysOfMonth, months, dowValues.image (· % 7),
      strip isSpace domText != ['*'], strip isSpace dowText != ['*']⟩
  | fields => throw (.fieldCount fields.length)

theorem parse_ok {expression : List Char} {s : CronSchedule} (h : parse expression = .ok s) :
    ∃ minuteText hourText domText monthText dowText dowValues,
      s.expression.splitOn ' ' = [minuteText, hourText, domText, monthText, dowText] ∧
      parseField minuteText MINUTE = .ok s.minutes ∧ parseField hourText HOUR = .ok s.hours ∧
      parseField domText DOM = .ok s.daysOfMonth ∧ parseField monthText MONTH = .ok s.months ∧
      parseField dowText DOW = .ok dowValues ∧ s.daysOfWeek = dowValues.image (· % 7) := by
  unfold parse at h
  simp only at h
  split at h
  · cases h
  · split at h
    · cases h
    · split at h
      · next minuteText hourText domText monthText dowText hfields =>
        obtain ⟨dowValues, hdow, h⟩ := bind_eq_ok.mp h
        obtain ⟨minutes, hminutes, h⟩ := bind_eq_ok.mp h
        obtain ⟨hours, hhours, h⟩ := bind_eq_ok.mp h
        obtain ⟨daysOfMonth, hdom, h⟩ := bind_eq_ok.mp h
        obtain ⟨months, hmonths, h⟩ := bind_eq_ok.mp h
        cases h
        exact ⟨minuteText, hourText, domText, monthText, dowText, dowValues, hfields, hminutes,
          hhours, hdom, hmonths, hdow, rfl⟩
      · cases h

/-- **The fields of an expression**: a field stands for what its items denote exactly when its
numerals are not too long and what follows `v` is in the field anyway wherever an item is `v/1`;
the days of the week are the field's values modulo 7. -/
theorem parse_fields_iff (spec : FieldSpec) (text expression : List Char) :
    (FieldRight spec text ↔ ∀ items, IsField spec text items → PlainlyStepped spec items) ∧
      ∀ s, parse expression = .ok s → ∃ dowText dowValues,
        (s.expression.splitOn ' ')[4]? = some dowText ∧ parseField dowText DOW = .ok dowValues ∧
          s.daysOfWeek = dowValues.image (· % 7) := by
  refine ⟨fieldRight_iff text, fun s h => ?_⟩
  obtain ⟨_, _, _, _, dowText, dowValues, hfields, -, -, -, -, hdow, hseven⟩ := parse_ok h
  exact ⟨dowText, dowValues, by rw [hfields]; rfl, hdow, hseven⟩

/-- `5/1` is read as 5. -/
theorem parseField_step_one : ¬ FieldRight MINUTE "5/1".toList := by
  intro h
  have hfield : IsField MINUTE "5/1".toList [⟨.value ['5'], some ['1']⟩] := by
    refine ⟨by decide, by decide, ?_⟩
    rintro i ⟨⟩
    · exact ⟨by simp [Body.WellFormed, IsValue]; decide, by rintro n ⟨⟩; decide⟩
    · contradiction
  have hsix : 6 ∈ ({5} : Finset Nat) :=
    (h.denotes _ {5} hfield rfl 6).mpr ⟨_, List.mem_singleton_self _, 1, by decide, by decide⟩
  exact absurd hsix (by decide)

/-! ### Matching -/

namespace CronSchedule

/-- `_matches_date`. -/
def matchesDate (s : CronSchedule) (day : Date) : Bool :=
  if day.month ∉ s.months then false
  else
    let domOk : Bool := day.day ∈ s.daysOfMonth
    -- Python counts from Monday, cron from Sunday
    let dowOk : Bool := (day.weekday + 1) % 7 ∈ s.daysOfWeek
    if s.domRestricted && s.dowRestricted then domOk || dowOk else domOk && dowOk

/-- `matches`. -/
def «matches» (s : CronSchedule) (moment : DateTime) : Bool :=
  if moment.minute ∉ s.minutes ∨ moment.hour ∉ s.hours then false
  else s.matchesDate moment.date

variable {m t : DateTime}

theorem matches_iff {s : CronSchedule} :
    s.matches m = true ↔ m.minute ∈ s.minutes ∧ m.hour ∈ s.hours ∧ s.matchesDate m.date = true := by
  unfold «matches»
  split
  · next h => exact ⟨nofun, fun hm => by simp [hm.1, hm.2.1] at h⟩
  · next h =>
    rw [not_or, not_not, not_not] at h
    exact ⟨fun hm => ⟨h.1, h.2, hm⟩, fun hm => hm.2.2⟩

/-! ### The search -/

def SEARCH_HORIZON_DAYS : Nat := 366 * 4

/-- The loops over the hours and the minutes of a day. -/
def firstTime (start : DateTime) (sortedHours sortedMinutes : List Nat) (firstDay : Bool) :
    Option (Nat × Nat) :=
  sortedHours.findSome? fun hour =>
    if firstDay = true ∧ hour < start.hour then none
    else
      (sortedMinutes.find? fun minute =>
        !(firstDay && hour == start.hour && decide (minute < start.minute))).map (hour, ·)

/-- The loop over the days. -/
def search (s : CronSchedule) (start : DateTime) (lastDay day : Date) (firstDay : Bool) :
    Except Raised DateTime :=
  if day.ordinal ≤ lastDay.ordinal then
    match if s.matchesDate day then firstTime start s.hours.sort s.minutes.sort firstDay
        else none with
    | some (hour, minute) =>
      match DateTime.ofMinute? day hour minute with
      | some t => .ok t
      | none => .error .notATime
    | none =>
      match hnext : day.next? with
      | some day' => s.search start lastDay day' false
      | none => .error .overflow
  else .error (.noMatchingTime s.expression)
termination_by lastDay.ordinal + 1 - day.ordinal
decreasing_by
  have := Date.next?_eq_some hnext
  omega

/-- `next_fire_after`, from where the search starts and where it ends; either may not be a date. -/
def fireFrom (s : CronSchedule) : Option DateTime → Option DateTime → Except Raised DateTime
  | some start, some last => s.search start last.date start.date true
  | _, _ => .error .overflow

/-- `next_fire_after`. -/
def nextFireAfter (s : CronSchedule) (after : DateTime) : Except Raised DateTime :=
  s.fireFrom (after.wholeMinute.add? DateTime.microsPerMinute)
    (after.add? (SEARCH_HORIZON_DAYS * DateTime.microsPerDay))

/-! ### What the search finds -/

/-- A time of day the search may return. -/
def Open (start : DateTime) (firstDay : Bool) (hour minute : Nat) : Prop :=
  firstDay = true → start.hour * 60 + start.minute ≤ hour * 60 + minute

section

variable {start : DateTime} {hours minutes : Finset Nat} {firstDay : Bool}

variable {hour minute : Nat}

theorem firstTime_open (hm : ∀ m ∈ minutes, m < 60) (h : minute ∈ minutes) :
    Open start firstDay hour minute ↔ ¬ (firstDay = true ∧ hour < start.hour) ∧
      (!(firstDay && hour == start.hour && decide (minute < start.minute))) = true := by
  have hlt := hm minute h
  have hstart := start.minute_lt
  cases firstDay with
  | false => simp [Open]
  | true =>
    simp [Open]
    omega

theorem find?_least {l : List Nat} (hl : l.Pairwise (· ≤ ·)) {p : Nat → Bool} {m : Nat}
    (h : l.find? p = some m) {m' : Nat} (hm' : m' ∈ l) (hp : p m' = true) : m ≤ m' := by
  obtain ⟨-, l₁, l₂, rfl, hl₁⟩ := List.find?_eq_some_iff_append.mp h
  rcases List.mem_append.mp hm' with hmem | hmem
  · have hnp := hl₁ m' hmem
    rw [hp] at hnp
    cases hnp
  · rcases List.mem_cons.mp hmem with rfl | hmem
    · exact Nat.le_refl _
    · exact List.rel_of_pairwise_cons (List.pairwise_append.mp hl).2.1 hmem

theorem firstTime_eq_some (hm : ∀ m ∈ minutes, m < 60)
    (h : firstTime start hours.sort minutes.sort firstDay = some (hour, minute)) :
    hour ∈ hours ∧ minute ∈ minutes ∧ Open start firstDay hour minute ∧
      ∀ hour' ∈ hours, ∀ minute' ∈ minutes, Open start firstDay hour' minute' →
        hour * 60 + minute ≤ hour' * 60 + minute' := by
  obtain ⟨l₁, a, l₂, hl, ha, hl₁⟩ := List.findSome?_eq_some_iff.mp h
  split at ha
  · cases ha
  · next hclosed =>
    obtain ⟨m, hfind, hpair⟩ := Option.map_eq_some_iff.mp ha
    cases hpair
    have hhour : hour ∈ hours := by
      rw [← Finset.mem_sort (· ≤ ·), hl]
      simp
    have hminute : minute ∈ minutes := (Finset.mem_sort _).mp (List.mem_of_find?_eq_some hfind)
    have htest := List.find?_some hfind
    refine ⟨hhour, hminute, (firstTime_open hm hminute).mpr ⟨hclosed, htest⟩, ?_⟩
    intro hour' hhour' minute' hminute' hopen
    have hmem := (Finset.mem_sort (· ≤ ·)).mpr hhour'
    obtain ⟨hclosed', htest'⟩ := (firstTime_open hm hminute').mp hopen
    have hminute'' := (Finset.mem_sort (· ≤ ·)).mpr hminute'
    rw [hl] at hmem
    rcases List.mem_append.mp hmem with hmem | hmem
    · -- an earlier hour has no minute left
      have hnone := hl₁ hour' hmem
      rw [if_neg hclosed', Option.map_eq_none_iff, List.find?_eq_none] at hnone
      exact absurd htest' (hnone minute' hminute'')
    · rcases List.mem_cons.mp hmem with rfl | hmem
      · have := find?_least (Finset.pairwise_sort minutes (· ≤ ·)) hfind hminute'' htest'
        omega
      · have hsorted : hours.sort.Pairwise (· < ·) := hours.sortedLT_sort.pairwise
        rw [hl] at hsorted
        have hlt := List.rel_of_pairwise_cons (List.pairwise_append.mp hsorted).2.1 hmem
        have := hm minute hminute
        omega

theorem firstTime_eq_none (hm : ∀ m ∈ minutes, m < 60)
    (h : firstTime start hours.sort minutes.sort firstDay = none) (hhour : hour ∈ hours)
    (hminute : minute ∈ minutes) : ¬ Open start firstDay hour minute := by
  intro hopen
  obtain ⟨hclosed, htest⟩ := (firstTime_open hm hminute).mp hopen
  have hnone := List.findSome?_eq_none_iff.mp h hour ((Finset.mem_sort _).mpr hhour)
  rw [if_neg hclosed, Option.map_eq_none_iff, List.find?_eq_none] at hnone
  exact hnone minute ((Finset.mem_sort _).mpr hminute) htest

end

/-- A minute the search has not passed when it comes to a day. -/
def Ahead (start : DateTime) (day : Date) (firstDay : Bool) (m : DateTime) : Prop :=
  day.ordinal ≤ m.date.ordinal ∧
    (m.date.ordinal = day.ordinal → Open start firstDay m.hour m.minute)

/-- The least matching minute that is ahead. -/
structure Least (s : CronSchedule) (P : DateTime → Prop) (t : DateTime) : Prop where
  isMinute : t.IsMinute
  ahead : P t
  matches_self : s.matches t = true
  le : ∀ m : DateTime, m.IsMinute → P m → s.matches m = true → t.minutes ≤ m.minutes

section

variable {s : CronSchedule} {start : DateTime} {lastDay day : Date} {firstDay : Bool}

/-- On a day without a time the next one is still to come. -/
theorem Ahead.next {day' : Date} (hnext : day.next? = some day')
    (hday : ∀ m : DateTime, m.date.ordinal = day.ordinal → Open start firstDay m.hour m.minute →
      s.matches m = false) (h : Ahead start day firstDay m) (hm : s.matches m = true) :
    Ahead start day' false m := by
  have hord := Date.next?_eq_some hnext
  refine ⟨?_, fun _ => nofun⟩
  rcases h.1.eq_or_lt with heq | hlt
  · have hfalse := hday m heq.symm (h.2 heq.symm)
    rw [hm] at hfalse
    cases hfalse
  · omega

theorem Date_ext {d d' : Date} (h : d.ordinal = d'.ordinal) : d = d' := by
  cases d
  cases d'
  cases h
  rfl

/-- A day on which the loops end without a time has no match left. -/
theorem no_match_of_none (hm : ∀ m ∈ s.minutes, m < 60)
    (h : (if s.matchesDate day then firstTime start s.hours.sort s.minutes.sort firstDay
      else none) = none) (hday : m.date.ordinal = day.ordinal)
    (hopen : Open start firstDay m.hour m.minute) : s.matches m = false := by
  rw [← Bool.not_eq_true, matches_iff, Date_ext hday]
  rintro ⟨hminute, hhour, hdate⟩
  rw [if_pos hdate] at h
  exact firstTime_eq_none hm h hhour hminute hopen

/-- **The search**: from any day it finds the least match ahead, or there is none up to the last
day. -/
theorem search_least (hh : ∀ h ∈ s.hours, h < 24) (hm : ∀ m ∈ s.minutes, m < 60) :
    match s.search start lastDay day firstDay with
    | .ok t => Least s (Ahead start day firstDay) t ∧ t.date.ordinal ≤ lastDay.ordinal
    | .error _ => ∀ m : DateTime, m.IsMinute → Ahead start day firstDay m →
        m.date.ordinal ≤ lastDay.ordinal → s.matches m = false := by
  fun_induction CronSchedule.search s start lastDay day firstDay with
  | case1 day firstDay hle hour minute htime t ht =>
    split at htime
    · next hdate =>
      obtain ⟨hhour, hminute, hopen, hleast⟩ := firstTime_eq_some hm htime
      rw [DateTime.ofMinute?, dif_pos ⟨hh hour hhour, hm minute hminute⟩] at ht
      cases ht
      refine ⟨⟨⟨rfl, rfl⟩, ⟨Nat.le_refl _, fun _ => hopen⟩, matches_iff.mpr ⟨hminute, hhour, hdate⟩,
        fun m _ hahead hmatch => ?_⟩, hle⟩
      obtain ⟨hminute', hhour', -⟩ := matches_iff.mp hmatch
      simp only [DateTime.minutes]
      rcases hahead.1.eq_or_lt with heq | hlt
      · have := hleast m.hour hhour' m.minute hminute' (hahead.2 heq.symm)
        omega
      · have := hh hour hhour
        have := hm minute hminute
        omega
    · cases htime
  | case2 day firstDay hle hour minute htime ht =>
    split at htime
    · obtain ⟨hhour, hminute, -⟩ := firstTime_eq_some hm htime
      rw [DateTime.ofMinute?, dif_pos ⟨hh hour hhour, hm minute hminute⟩] at ht
      cases ht
    · cases htime
  | case3 day firstDay hle htime day' hnext ih =>
    have hord := Date.next?_eq_some hnext
    have hday := fun m : DateTime => no_match_of_none hm htime (m := m)
    split at ih
    · obtain ⟨⟨hmin, hahead, hself, hleast⟩, hlast⟩ := ih
      have hlate := hahead.1
      refine ⟨⟨hmin, ⟨by omega, fun _ => by omega⟩, hself, fun m hm' hahead' hmatch => ?_⟩, hlast⟩
      exact hleast m hm' (hahead'.next hnext hday hmatch) hmatch
    · intro m hm' hahead hlast
      by_contra hmatch
      rw [Bool.not_eq_false] at hmatch
      have hfalse := ih m hm' (hahead.next hnext hday hmatch) hlast
      rw [hmatch] at hfalse
      cases hfalse
  | case4 day firstDay hle htime hnext =>
    intro m _ hahead _
    have hmax := Date.next?_eq_none.mp hnext
    have hlate := hahead.1
    have hm' := m.date.le
    exact no_match_of_none hm htime (by omega) (hahead.2 (by omega))
  | case5 day firstDay hlate =>
    intro m _ hahead hlast
    have := hahead.1
    omega

end

/-! ### The next fire -/

theorem le_high_of_parseField {spec : FieldSpec} {text : List Char} {values : Finset Nat}
    (h : parseField text spec = .ok values) {v : Nat} (hv : v ∈ values) : v ≤ spec.high := by
  obtain ⟨items, hfield, -⟩ := parseField_iff.mp h
  obtain ⟨i, hi, hone | ⟨-, k, -, hle⟩⟩ := (mem_of_parseField hfield h v).mp hv
  · exact Item.bareOne_le (hfield.wellFormed i hi) hone
  · exact hle.trans (Item.last_le (hfield.wellFormed i hi))

/-- What is ahead on the first day is what comes after the moment. -/
theorem ahead_iff {after start m : DateTime} (hm : m.IsMinute)
    (hstart : start.minutes = after.minutes + 1) : Ahead start start.date true m ↔ after < m := by
  rw [DateTime.lt_minute_iff hm, ← hstart, Ahead]
  have := start.hour_lt
  have := start.minute_lt
  have := m.hour_lt
  have := m.minute_lt
  simp only [Open, DateTime.minutes, true_implies]
  omega

/-- The horizon of a search is not a date. -/
def PastCalendar (after : DateTime) : Prop :=
  maxOrdinal < after.date.ordinal + SEARCH_HORIZON_DAYS

theorem day_of_add? {u : DateTime} {days : Nat}
    (h : t.add? (days * DateTime.microsPerDay) = some u) :
    u.date.ordinal = t.date.ordinal + days := by
  have hmicros := DateTime.micros_add? h
  have := t.hour_lt
  have := t.minute_lt
  have := t.second_lt
  have := t.microsecond_lt
  have := u.hour_lt
  have := u.minute_lt
  have := u.second_lt
  have := u.microsecond_lt
  simp only [DateTime.micros, DateTime.minutes, DateTime.microsPerDay] at hmicros
  omega

theorem add?_days_eq_none {days : Nat} :
    t.add? (days * DateTime.microsPerDay) = none ↔ maxOrdinal < t.date.ordinal + days := by
  have := t.hour_lt
  have := t.minute_lt
  have := t.second_lt
  have := t.microsecond_lt
  rw [DateTime.add?_eq_none]
  simp only [DateTime.micros, DateTime.minutes, DateTime.microsPerDay]
  omega

theorem nextMinute {u : DateTime} (h : t.wholeMinute.add? DateTime.microsPerMinute = some u) :
    u.minutes = t.minutes + 1 := by
  have hmicros := DateTime.micros_add? h
  have := u.second_lt
  have := u.microsecond_lt
  rw [DateTime.micros_wholeMinute] at hmicros
  simp only [DateTime.micros, DateTime.microsPerMinute] at hmicros
  omega

/-- Only in the last minute of the calendar there is no next one. -/
theorem pastCalendar_of_nextMinute (h : t.wholeMinute.add? DateTime.microsPerMinute = none) :
    PastCalendar t := by
  rw [DateTime.add?_eq_none, DateTime.micros_wholeMinute] at h
  have := t.hour_lt
  have := t.minute_lt
  simp only [DateTime.minutes, DateTime.microsPerMinute, DateTime.microsPerDay] at h
  simp only [PastCalendar, SEARCH_HORIZON_DAYS]
  omega

/-- What `next_fire_after` promises of a result. -/
structure NextFire (s : CronSchedule) (after : DateTime) (r : Except Raised DateTime) : Prop where
  least : ∀ t, r = .ok t → t.IsMinute ∧ after < t ∧ s.matches t = true ∧
    ∀ m : DateTime, m.IsMinute → after < m → m < t → s.matches m = false
  raises : (∃ e, r = .error e) ↔ PastCalendar after ∨
    ∀ m : DateTime, m.IsMinute → after < m →
      m.date.ordinal ≤ after.date.ordinal + SEARCH_HORIZON_DAYS → s.matches m = false

theorem pastCalendar_last {after : DateTime} (h : after.date.ordinal = maxOrdinal) :
    PastCalendar after := by
  simp only [PastCalendar, SEARCH_HORIZON_DAYS]
  omega

theorem nextFireAfter_overflow {s : CronSchedule} {after : DateTime} (h : PastCalendar after) :
    s.nextFireAfter after = .error .overflow := by
  rw [nextFireAfter, add?_days_eq_none.mpr h]
  cases after.wholeMinute.add? DateTime.microsPerMinute <;> rfl

theorem fireFrom_least {s : CronSchedule} (hh : ∀ h ∈ s.hours, h < 24)
    (hm : ∀ m ∈ s.minutes, m < 60) {after : DateTime} {start? last? : Option DateTime}
    (hstart : after.wholeMinute.add? DateTime.microsPerMinute = start?)
    (hlast : after.add? (SEARCH_HORIZON_DAYS * DateTime.microsPerDay) = last?) :
    NextFire s after (s.fireFrom start? last?) := by
  have hpast : (∃ e, s.fireFrom start? last? = .error e) → PastCalendar after → NextFire s after
      (s.fireFrom start? last?) := by
    rintro ⟨e, he⟩ hpast
    rw [he]
    refine ⟨fun t ht => ?_, fun _ => .inl hpast, fun _ => ⟨e, rfl⟩⟩
    cases ht
  cases last? with
  | none => exact hpast ⟨.overflow, by cases start? <;> rfl⟩ (add?_days_eq_none.mp hlast)
  | some last =>
    cases start? with
    | none => exact hpast ⟨.overflow, rfl⟩ (pastCalendar_of_nextMinute hstart)
    | some start =>
      have hnear : ¬ PastCalendar after := fun hpast => by
        rw [add?_days_eq_none.mpr hpast] at hlast
        cases hlast
      have hday := day_of_add? hlast
      have hahead := fun m hm => @ahead_iff after start m hm (nextMinute hstart)
      have hsearch := @search_least s start last.date start.date true hh hm
      rw [fireFrom]
      split at hsearch
      · next t ht =>
        obtain ⟨⟨hmin, hfirst, hself, hleast⟩, hle⟩ := hsearch
        rw [ht]
        refine ⟨fun t' ht' => ?_, fun he => ?_, ?_⟩
        · cases ht'
          refine ⟨hmin, (hahead t hmin).mp hfirst, hself, fun m hm hafter hlt => ?_⟩
          by_contra hmatch
          have := hleast m hm ((hahead m hm).mpr hafter) (Bool.not_eq_false _ ▸ hmatch)
          have := (DateTime.lt_minute_iff hmin).mp hlt
          omega
        · obtain ⟨e, he⟩ := he
          cases he
        · rintro (hpast | hnone)
          · exact absurd hpast hnear
          · rw [hnone t hmin ((hahead t hmin).mp hfirst) (hday ▸ hle)] at hself
            cases hself
      · next e he =>
        rw [he]
        refine ⟨fun t ht => ?_, fun _ => .inr fun m hm hafter hle => ?_, fun _ => ⟨e, rfl⟩⟩
        · cases ht
        · exact hsearch m hm ((hahead m hm).mpr hafter) (hday ▸ hle)

/-- **The next fire is the least match** after the moment; and the search raises exactly when its
horizon is past the calendar or no minute up to the end of the last day matches. -/
theorem nextFireAfter_least {expression : List Char} {s : CronSchedule}
    (h : parse expression = .ok s) (after : DateTime) :
    NextFire s after (s.nextFireAfter after) := by
  obtain ⟨_, _, _, _, _, _, -, hminutes, hhours, -⟩ := parse_ok h
  exact fireFrom_least (fun h hh => Nat.lt_succ_of_le (le_high_of_parseField hhours hh))
    (fun m hm => Nat.lt_succ_of_le (le_high_of_parseField hminutes hm)) rfl rfl

/-- Leap days, sought from the end of 2023. -/
theorem nextFireAfter_least_leapDay :
    ∃ s, parse "0 0 29 2 *".toList = .ok s ∧ ∃ after : DateTime, after.date.ordinal = 738885 ∧
      NextFire s after (s.nextFireAfter after) :=
  ⟨_, rfl, ⟨⟨738885, by decide, by decide⟩, 23, 59, 30, 0, by decide, by decide, by decide,
    by decide⟩, rfl,
    @nextFireAfter_least "0 0 29 2 *".toList _ rfl _⟩

/-- A minute of the last day of the calendar. -/
def lastDayAt (minute : Nat) (h : minute < 60) : DateTime :=
  ⟨⟨maxOrdinal, by decide, Nat.le_refl _⟩, 0, minute, 0, 0, by decide, h, by decide, by decide⟩

/-- In the last days of the calendar the search raises, with a match in the next minute. -/
theorem nextFireAfter_past_calendar :
    ∃ s, parse "* * * * *".toList = .ok s ∧
      s.nextFireAfter (lastDayAt 0 (by decide)) = .error .overflow ∧
      lastDayAt 0 (by decide) < lastDayAt 1 (by decide) ∧
      s.matches (lastDayAt 1 (by decide)) = true := by
  refine ⟨_, rfl, nextFireAfter_overflow (pastCalendar_last rfl),
    (DateTime.lt_minute_iff ⟨rfl, rfl⟩).mpr (Nat.le_refl _), matches_iff.mpr ⟨?_, ?_, ?_⟩⟩
  · decide
  · decide
  · rw [matchesDate, if_neg]
    · decide
    · decide

end CronSchedule

end KolegaCode.Cron
