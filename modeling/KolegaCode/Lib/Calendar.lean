import Mathlib.Data.List.Basic

/-!
# Lib — dates and times of day

Python's naive `datetime`.  A date is its ordinal in the proleptic Gregorian calendar; a time is a
number of microseconds, and a sum past the last day raises.
-/

namespace KolegaCode

/-- 31 December 9999. -/
def maxOrdinal : Nat := 3652059

/-- `datetime.date`: day 1 is 1 January of the year 1. -/
structure Date where
  ordinal : Nat
  pos : 1 ≤ ordinal
  le : ordinal ≤ maxOrdinal
  deriving DecidableEq

namespace Date

def isLeap (year : Nat) : Bool := year % 4 = 0 && (year % 100 ≠ 0 || year % 400 = 0)

def daysInMonth (leap : Bool) : List Nat :=
  [31, if leap then 29 else 28, 31, 30, 31, 30, 31, 31, 30, 31, 30, 31]

/-- Month and day of the day with index `n` in its year, from month `m` on. -/
def monthDay (m n : Nat) : List Nat → Nat × Nat
  | [] => (m, n + 1)
  | d :: ds => if n < d then (m, n + 1) else monthDay (m + 1) (n - d) ds

/-- Year, month and day of an ordinal. -/
def ymd (ordinal : Nat) : Nat × Nat × Nat :=
  let n := ordinal - 1
  -- whole cycles of 400, 100, 4 and 1 years; the last day of a cycle belongs to its last year
  let n400 := n / 146097
  let n100 := min 3 (n % 146097 / 36524)
  let r100 := n % 146097 - n100 * 36524
  let n4 := r100 / 1461
  let n1 := min 3 (r100 % 1461 / 365)
  let year := n400 * 400 + n100 * 100 + n4 * 4 + n1 + 1
  (year, monthDay 1 (r100 % 1461 - n1 * 365) (daysInMonth (isLeap year)))

example : (ymd 738945, ymd 737790) = ((2024, 2, 29), (2020, 12, 31)) := by decide

def month (d : Date) : Nat := (ymd d.ordinal).2.1

def day (d : Date) : Nat := (ymd d.ordinal).2.2

/-- `date.weekday()`: Monday is 0. -/
def weekday (d : Date) : Nat := (d.ordinal + 6) % 7

/-- `d + timedelta(days=1)`. -/
def next? (d : Date) : Option Date :=
  if h : d.ordinal + 1 ≤ maxOrdinal then some ⟨d.ordinal + 1, Nat.le_add_left 1 _, h⟩ else none

theorem next?_eq_some {d d' : Date} (h : d.next? = some d') : d'.ordinal = d.ordinal + 1 := by
  unfold next? at h
  split at h
  · cases h
    rfl
  · cases h

theorem next?_eq_none {d : Date} : d.next? = none ↔ d.ordinal = maxOrdinal := by
  have hle := d.le
  unfold next?
  split
  · next h => exact ⟨nofun, fun heq => absurd h (by omega)⟩
  · next h => exact ⟨fun _ => by omega, fun _ => rfl⟩

end Date

/-- `datetime.datetime`, without a time zone. -/
structure DateTime where
  date : Date
  hour : Nat
  minute : Nat
  second : Nat
  microsecond : Nat
  hour_lt : hour < 24
  minute_lt : minute < 60
  second_lt : second < 60
  microsecond_lt : microsecond < 1000000
  deriving DecidableEq

namespace DateTime

def microsPerMinute : Nat := 60000000
def microsPerDay : Nat := 86400000000

/-- How many minutes there are before the minute of a time. -/
def minutes (t : DateTime) : Nat := (t.date.ordinal * 24 + t.hour) * 60 + t.minute

/-- How many microseconds there are before a time; times are compared by it. -/
def micros (t : DateTime) : Nat := (t.minutes * 60 + t.second) * 1000000 + t.microsecond

instance : LT DateTime := ⟨fun t u => t.micros < u.micros⟩

theorem lt_iff {t u : DateTime} : t < u ↔ t.micros < u.micros := Iff.rfl

/-- A whole minute. -/
def IsMinute (t : DateTime) : Prop := t.second = 0 ∧ t.microsecond = 0

/-- `t.replace(second=0, microsecond=0)`. -/
def wholeMinute (t : DateTime) : DateTime :=
  ⟨t.date, t.hour, t.minute, 0, 0, t.hour_lt, t.minute_lt, Nat.zero_lt_succ _, Nat.zero_lt_succ _⟩

/-- `datetime(d.year, d.month, d.day, hour, minute)`. -/
def ofMinute? (d : Date) (hour minute : Nat) : Option DateTime :=
  if h : hour < 24 ∧ minute < 60 then
    some ⟨d, hour, minute, 0, 0, h.1, h.2, Nat.zero_lt_succ _, Nat.zero_lt_succ _⟩
  else none

def ofMicros? (n : Nat) : Option DateTime :=
  if h : 1 ≤ n / microsPerDay ∧ n / microsPerDay ≤ maxOrdinal then
    some ⟨⟨n / microsPerDay, h.1, h.2⟩, n / 3600000000 % 24, n / microsPerMinute % 60,
      n / 1000000 % 60, n % 1000000, Nat.mod_lt _ (Nat.zero_lt_succ _),
      Nat.mod_lt _ (Nat.zero_lt_succ _), Nat.mod_lt _ (Nat.zero_lt_succ _),
      Nat.mod_lt _ (Nat.zero_lt_succ _)⟩
  else none

/-- `t + delta`, which may raise an `OverflowError`. -/
def add? (t : DateTime) (delta : Nat) : Option DateTime := ofMicros? (t.micros + delta)

theorem micros_add? {t u : DateTime} {delta : Nat} (h : t.add? delta = some u) :
    u.micros = t.micros + delta := by
  unfold add? ofMicros? at h
  split at h
  · cases h
    simp only [micros, minutes, microsPerDay, microsPerMinute]
    omega
  · cases h

theorem add?_eq_none {t : DateTime} {delta : Nat} :
    t.add? delta = none ↔ (maxOrdinal + 1) * microsPerDay ≤ t.micros + delta := by
  have hpos := t.date.pos
  have hfirst : 1 ≤ (t.micros + delta) / microsPerDay := by
    rw [Nat.le_div_iff_mul_le (by decide)]
    simp only [micros, minutes, microsPerDay]
    omega
  have hlast : (t.micros + delta) / microsPerDay ≤ maxOrdinal ↔
      ¬ (maxOrdinal + 1) * microsPerDay ≤ t.micros + delta := by
    rw [Nat.not_le, ← Nat.lt_succ_iff, Nat.div_lt_iff_lt_mul (by decide)]
  unfold add? ofMicros?
  split
  · next h => exact ⟨nofun, fun hle => absurd hle (hlast.mp h.2)⟩
  · next h =>
    exact ⟨fun _ => Decidable.not_not.mp fun hle => h ⟨hfirst, hlast.mpr hle⟩, fun _ => rfl⟩

theorem micros_wholeMinute (t : DateTime) : t.wholeMinute.micros = t.minutes * microsPerMinute := by
  simp only [micros, wholeMinute, minutes, microsPerMinute]
  omega

/-- A whole minute is after a time when it is one of those from the next minute on. -/
theorem lt_minute_iff {t m : DateTime} (hm : m.IsMinute) : t < m ↔ t.minutes + 1 ≤ m.minutes := by
  have hs := t.second_lt
  have hmic := t.microsecond_lt
  rw [lt_iff, micros, micros, hm.1, hm.2]
  omega

end DateTime

end KolegaCode
