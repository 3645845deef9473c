import Mathlib.Algebra.Order.Field.Basic
import Mathlib.Algebra.Order.Field.Power
import Mathlib.Algebra.Order.Field.Rat
import Mathlib.Data.Nat.Log
import Mathlib.Tactic.Positivity
import Mathlib.Tactic.Linarith
import Mathlib.Tactic.FieldSimp
import Mathlib.Tactic.Ring
import KolegaCode.Lib.Text

/-!
# Lib — decimal numbers

Python's `decimal.Decimal`, as far as finite numbers that are not negative go: a coefficient and a
power of ten.  Sums are exact up to the precision of the context; beyond it they are rounded to the
nearest representable number, ties to even, and a sum past the largest exponent raises.
-/

namespace KolegaCode

structure Decimal where
  coefficient : Nat
  exponent : Int
  deriving DecidableEq, Repr

namespace Decimal

def zero : Decimal := ⟨0, 0⟩

/-- The number itself. -/
def value (d : Decimal) : ℚ := d.coefficient * 10 ^ d.exponent

/-- `decimal.Context`, rounding to half even. -/
structure Context where
  prec : Nat
  emin : Int
  emax : Int

namespace Context

/-- The context Python computes in unless told otherwise. -/
def default : Context := ⟨28, -999999, 999999⟩

/-- The smallest exponent of a representable number. -/
def etiny (c : Context) : Int := c.emin - c.prec + 1

/-- The largest exponent of a number with all its digits. -/
def etop (c : Context) : Int := c.emax - c.prec + 1

end Context

/-- How many digits the coefficient is written with. -/
def digits (n : Nat) : Nat := Nat.log 10 n + 1

/-- `n / d`, rounded to the nearest integer, ties to even. -/
def roundHalfEven (n d : Nat) : Nat :=
  let q := n / d
  let r := n % d
  if d < 2 * r ∨ (2 * r = d ∧ q % 2 = 1) then q + 1 else q

/-- `Decimal._fix`: the representable number next to `x`; `none` is a `decimal.Overflow`. -/
def fix (c : Context) (x : Decimal) : Option Decimal :=
  if x.coefficient = 0 then some ⟨0, min (max x.exponent c.etiny) c.emax⟩
  else
    let expMin := digits x.coefficient + x.exponent - c.prec
    if c.etop < expMin then none
    else
      let expMin := max expMin c.etiny
      if x.exponent < expMin then
        let coeff := roundHalfEven x.coefficient (10 ^ (expMin - x.exponent).toNat)
        if coeff < 10 ^ c.prec then some ⟨coeff, expMin⟩
        -- all digits were nines
        else if c.etop < expMin + 1 then none
        else some ⟨coeff / 10, expMin + 1⟩
      else some x

/-- The sum, before it is rounded. -/
def exactSum (x y : Decimal) : Decimal :=
  let e := min x.exponent y.exponent
  ⟨x.coefficient * 10 ^ (x.exponent - e).toNat + y.coefficient * 10 ^ (y.exponent - e).toNat, e⟩

/-- `x + y`. -/
def add (c : Context) (x y : Decimal) : Option Decimal := fix c (exactSum x y)

@[simp] theorem value_zero : zero.value = 0 := by simp [value, zero]

theorem value_nonneg (d : Decimal) : 0 ≤ d.value := by
  unfold value
  positivity

/-! ### Numerals -/

/-- The context in which a numeral is read: nothing is rounded, and a numeral out of its range is a
`decimal.InvalidOperation`. -/
def Context.reading : Context := ⟨999999999999999999, -999999999999999999, 999999999999999999⟩

/-- The number is within the range in which numerals are read. -/
def Readable (d : Decimal) : Prop :=
  Context.reading.etiny ≤ d.exponent ∧
    d.exponent + (digits d.coefficient - 1 : Nat) ≤ Context.reading.emax

instance (d : Decimal) : Decidable d.Readable := inferInstanceAs (Decidable (_ ∧ _))

/-- The value of a digit of any script. -/
def digitVal (c : Char) : Nat :=
  ((Text.decimalZeros.find? fun z => z ≤ c.toNat && c.toNat ≤ z + 9).map (c.toNat - ·)).getD 0

def ofDigits (cs : List Char) : Nat := cs.foldl (fun n c => 10 * n + digitVal c) 0

/-- A sign at the front: whether it is a minus, and the rest. -/
def scanSign : List Char → Bool × List Char
  | '-' :: cs => (true, cs)
  | '+' :: cs => (false, cs)
  | cs => (false, cs)

/-- The exponent of a numeral, to its end. -/
def scanExponent : List Char → Option Int
  | [] => some 0
  | e :: cs =>
    let (negative, ds) := scanSign cs
    if (e = 'e' ∨ e = 'E') ∧ ds ≠ [] ∧ ds.all Text.isDecimal then
      some (if negative then -(ofDigits ds : Int) else ofDigits ds)
    else none

/-- `[+-]?(?:\d+(?:\.\d*)?|\.\d+)(?:[eE][+-]?\d+)?`, with the number the numeral stands for and
whether it has a minus. -/
def scanNumeral (cs : List Char) : Option (Bool × Decimal) :=
  let (negative, cs) := scanSign cs
  let whole := cs.takeWhile Text.isDecimal
  let rest := cs.dropWhile Text.isDecimal
  let (fraction, rest) :=
    match rest with
    | '.' :: cs => (cs.takeWhile Text.isDecimal, cs.dropWhile Text.isDecimal)
    | rest => ([], rest)
  if whole = [] ∧ fraction = [] then none
  else
    (scanExponent rest).map fun e =>
      (negative, ⟨ofDigits (whole ++ fraction), e - fraction.length⟩)

/-- `Decimal(numeral)` where it is a finite number of zero or more. -/
def ofNumeral (cs : List Char) : Option Decimal :=
  match scanNumeral cs with
  | some (negative, d) =>
    if d.Readable ∧ (negative = true → d.coefficient = 0) then some d else none
  | none => none

/-! ### Exact sums -/

private theorem scale (n : Nat) {e m : Int} (h : m ≤ e) :
    ((n * 10 ^ (e - m).toNat : Nat) : ℚ) * 10 ^ m = n * 10 ^ e := by
  have hz : ((10 : ℚ) ^ (e - m).toNat) * 10 ^ m = 10 ^ e := by
    rw [← zpow_natCast, ← zpow_add₀ (by norm_num), Int.toNat_of_nonneg (by omega), sub_add_cancel]
  rw [Nat.cast_mul, Nat.cast_pow, Nat.cast_ofNat, mul_assoc, hz]

@[simp] theorem value_exactSum (x y : Decimal) : (exactSum x y).value = x.value + y.value := by
  simp only [exactSum, value]
  rw [Nat.cast_add, add_mul, scale _ (min_le_left _ _), scale _ (min_le_right _ _)]

theorem roundHalfEven_of_dvd {n d : Nat} (hd : 0 < d) (h : d ∣ n) : roundHalfEven n d = n / d := by
  have hr : n % d = 0 := Nat.mod_eq_zero_of_dvd h
  have h₁ : ¬ d < 2 * 0 := by simp
  have h₂ : ¬ (2 * 0 = d ∧ n / d % 2 = 1) := by omega
  simp only [roundHalfEven, hr, h₁, h₂, or_self, if_false]

theorem pow_digits_le {n : Nat} (h : n ≠ 0) : 10 ^ (digits n - 1) ≤ n := by
  simpa [digits] using Nat.pow_log_le_self 10 h

theorem lt_pow_digits (n : Nat) : n < 10 ^ digits n :=
  Nat.lt_pow_succ_log_self (by norm_num) n

private theorem digits_le {c n p : Nat} {m e : Int} (hc : c ≠ 0)
    (h : (c : ℚ) * 10 ^ m = n * 10 ^ e) (hn : n < 10 ^ p) : digits c + m ≤ p + e := by
  have hlow : (10 : ℚ) ^ ((digits c : Int) - 1 + m) ≤ c * 10 ^ m := by
    have hd : ((digits c : Int) - 1) = ((digits c - 1 : Nat) : Int) := by simp [digits]
    have hp : ((10 : ℚ)) ^ (digits c - 1) ≤ c := by exact_mod_cast pow_digits_le hc
    rw [zpow_add₀ (by norm_num), hd, zpow_natCast]
    exact mul_le_mul_of_nonneg_right hp (by positivity)
  have hhigh : (n : ℚ) * 10 ^ e < 10 ^ ((p : Int) + e) := by
    have hp : (n : ℚ) < 10 ^ p := by exact_mod_cast hn
    rw [zpow_add₀ (by norm_num), zpow_natCast]
    exact mul_lt_mul_of_pos_right hp (by positivity)
  have hlt : (10 : ℚ) ^ ((digits c : Int) - 1 + m) < 10 ^ ((p : Int) + e) := by
    rw [h] at hlow
    exact hlow.trans_lt hhigh
  have := (zpow_lt_zpow_iff_right₀ (by norm_num : (1 : ℚ) < 10)).mp hlt
  omega

theorem fix_value {c : Context} {x : Decimal} {e : Int} {n : Nat} (hx : x.value = n * 10 ^ e)
    (hn : n < 10 ^ c.prec) (htiny : c.etiny ≤ e) (htop : e ≤ c.etop) :
    ∃ z, fix c x = some z ∧ z.value = x.value := by
  obtain ⟨k, m⟩ := x
  by_cases hk : k = 0
  · exact ⟨_, by rw [fix, if_pos hk], by simp [value, hk]⟩
  · have hmin : (digits k : Int) + m - c.prec ≤ e := by
      have hx' : (k : ℚ) * 10 ^ m = n * 10 ^ e := hx
      have := digits_le hk hx' hn
      omega
    have hle : max ((digits k : Int) + m - c.prec) c.etiny ≤ e := max_le hmin htiny
    rw [fix, if_neg hk]
    simp only
    rw [if_neg (by omega)]
    generalize hE : max ((digits k : Int) + m - c.prec) c.etiny = E at hle ⊢
    by_cases hm : m < E
    · -- the digits that are rounded away are zeros
      have hk' : k = n * 10 ^ (e - m).toNat := by
        have hs := scale n (show m ≤ e by omega)
        have h0 : (10 : ℚ) ^ m ≠ 0 := by positivity
        have heq : (k : ℚ) = (n * 10 ^ (e - m).toNat : Nat) :=
          mul_right_cancel₀ h0 (hs ▸ hx)
        exact_mod_cast heq
      have hdvd : 10 ^ (E - m).toNat ∣ k :=
        hk' ▸ Dvd.dvd.mul_left (pow_dvd_pow 10 (by omega)) n
      have hpos : 0 < 10 ^ (E - m).toNat := by positivity
      have hcoeff : k / 10 ^ (E - m).toNat < 10 ^ c.prec := by
        rw [Nat.div_lt_iff_lt_mul hpos, ← pow_add]
        refine (lt_pow_digits k).trans_le (Nat.pow_le_pow_right (by norm_num) ?_)
        have hE' : (digits k : Int) + m - c.prec ≤ E := hE ▸ le_max_left _ _
        omega
      rw [if_pos hm, roundHalfEven_of_dvd hpos hdvd, if_pos hcoeff]
      refine ⟨_, rfl, ?_⟩
      have hs := scale (k / 10 ^ (E - m).toNat) (le_of_lt hm)
      rw [Nat.div_mul_cancel hdvd] at hs
      exact hs.symm
    · rw [if_neg hm]
      exact ⟨_, rfl, rfl⟩

/-- **When a sum is exact.**  Two multiples of one power of ten whose sum has no more digits above
it than the precision. -/
theorem add_value {c : Context} {x y : Decimal} {e : Int} {a b : Nat} (hx : x.value = a * 10 ^ e)
    (hy : y.value = b * 10 ^ e) (hab : a + b < 10 ^ c.prec) (htiny : c.etiny ≤ e)
    (htop : e ≤ c.etop) : ∃ z, add c x y = some z ∧ z.value = x.value + y.value := by
  have hsum : (exactSum x y).value = ((a + b : Nat) : ℚ) * 10 ^ e := by
    rw [value_exactSum, hx, hy, Nat.cast_add, add_mul]
  obtain ⟨z, hz, hv⟩ := fix_value hsum hab htiny htop
  exact ⟨z, hz, hv.trans (value_exactSum x y)⟩

end Decimal

end KolegaCode
