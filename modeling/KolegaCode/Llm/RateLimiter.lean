import Mathlib.Algebra.Order.Field.Rat
import Mathlib.Data.Rat.Init
import Mathlib.Tactic.Linarith

/-!
# Llm — the rate limiter

`acquire` waits until the oldest request that is remembered is a minute old, and remembers the time
it was called at, not the time it returned at, so the calls behind one that has waited are let
through too early.

Times are in seconds and exact; the calls of a `Run` hold the lock one after another.
-/

namespace KolegaCode.Llm

open List

structure RateLimiter where
  requestsPerMinute : Option Int
  tokensPerMinute : Option Int
  requestTimestamps : List ℚ := []
  tokenTimestamps : List ℚ := []

/-- The times that are less than a minute old. -/
def fresh (timestamps : List ℚ) (currentTime : ℚ) : List ℚ :=
  timestamps.filter (currentTime - · < 60)

/-- How long one limit makes a call sleep.  Without a timestamp the first one is an `IndexError`,
which only a negative limit asks for. -/
def waitTime (limit : Option Int) (timestamps : List ℚ) (currentTime : ℚ) : Option ℚ :=
  match limit with
  | none => some 0
  | some n =>
    if n = 0 ∨ timestamps.length < n then some 0
    else timestamps.head?.map fun oldest => max 0 (60 - (currentTime - oldest))

/-- `if tokens`. -/
def truthy (tokens : Option Int) : Bool := tokens.getD 0 ≠ 0

/-- `acquire` from the time it holds the lock, and when it returns (`.ok`) or raises. -/
def acquire (l : RateLimiter) (currentTime : ℚ) (tokens : Option Int) : RateLimiter × Except ℚ ℚ :=
  let l := { l with
    requestTimestamps := fresh l.requestTimestamps currentTime
    tokenTimestamps := fresh l.tokenTimestamps currentTime }
  match waitTime l.requestsPerMinute l.requestTimestamps currentTime with
  | none => (l, .error currentTime)
  | some wait =>
    match if truthy tokens then waitTime l.tokensPerMinute l.tokenTimestamps currentTime
      else some 0 with
    | none => (l, .error (currentTime + wait))
    | some wait' =>
      ({ l with
          requestTimestamps := l.requestTimestamps ++ [currentTime]
          tokenTimestamps :=
            l.tokenTimestamps ++ List.replicate (tokens.getD 0).toNat currentTime },
        .ok (currentTime + wait + wait'))

/-- The moment the lock is released. -/
def released : Except ℚ ℚ → ℚ
  | .ok moment => moment
  | .error moment => moment

/-- The runs of a new limiter whose calls are all allowed: the time, and the moments at which
`acquire` has returned. -/
inductive Run (requestsPerMinute tokensPerMinute : Option Int)
    (Allowed : RateLimiter → ℚ → Option Int → Prop) : RateLimiter → ℚ → List ℚ → Prop
  | start (clock : ℚ) : Run requestsPerMinute tokensPerMinute Allowed
      { requestsPerMinute, tokensPerMinute } clock []
  | call {l : RateLimiter} {clock : ℚ} {moments : List ℚ} (t : ℚ) (tokens : Option Int)
      (h : Run requestsPerMinute tokensPerMinute Allowed l clock moments) (ht : clock ≤ t)
      (hallowed : Allowed l t tokens) :
      Run requestsPerMinute tokensPerMinute Allowed (acquire l t tokens).1
        (released (acquire l t tokens).2) (moments ++ (acquire l t tokens).2.toOption.toList)

/-- At most `n` of the moments are in each window of a minute. -/
def Bounded (n : Int) (moments : List ℚ) : Prop :=
  ∀ start : ℚ, (moments.countP (fun r => start ≤ r ∧ r < start + 60) : Int) ≤ n

/-- The limit has room at this time, or raises. -/
def HasRoom (limit : Option Int) (timestamps : List ℚ) (t : ℚ) : Prop :=
  ∀ n ∈ limit, n = 0 ∨ (fresh timestamps t).length < n ∨ fresh timestamps t = []

/-- No limit makes the call sleep. -/
def Unhindered (l : RateLimiter) (t : ℚ) (tokens : Option Int) : Prop :=
  HasRoom l.requestsPerMinute l.requestTimestamps t ∧
    (truthy tokens → HasRoom l.tokensPerMinute l.tokenTimestamps t)

/-! ### One call -/

theorem waitTime_of_hasRoom {limit : Option Int} {timestamps : List ℚ} {t : ℚ}
    (h : HasRoom limit timestamps t) {wait : ℚ}
    (hwait : waitTime limit (fresh timestamps t) t = some wait) : wait = 0 := by
  cases limit with
  | none => exact (Option.some.inj hwait).symm
  | some n =>
    rw [waitTime] at hwait
    split at hwait
    · exact (Option.some.inj hwait).symm
    · next hfull =>
      rw [not_or] at hfull
      rcases h n rfl with hzero | hlt | hnil
      · exact absurd hzero hfull.1
      · exact absurd hlt hfull.2
      · rw [hnil] at hwait
        cases hwait

theorem acquire_cases {l : RateLimiter} {t : ℚ} {tokens : Option Int} (h : Unhindered l t tokens) :
    (acquire l t tokens).1.requestsPerMinute = l.requestsPerMinute ∧
      released (acquire l t tokens).2 = t ∧
      ((acquire l t tokens).2 = .error t ∧
          (acquire l t tokens).1.requestTimestamps = fresh l.requestTimestamps t ∨
        (acquire l t tokens).2 = .ok t ∧
          (acquire l t tokens).1.requestTimestamps = fresh l.requestTimestamps t ++ [t]) := by
  rw [acquire]
  cases hrequest : waitTime l.requestsPerMinute (fresh l.requestTimestamps t) t with
  | none => exact ⟨rfl, rfl, .inl ⟨rfl, rfl⟩⟩
  | some wait =>
    obtain rfl := waitTime_of_hasRoom h.1 hrequest
    cases htoken : if truthy tokens then waitTime l.tokensPerMinute (fresh l.tokenTimestamps t) t
      else some 0 with
    | none => simp [released]
    | some wait' =>
      have hzero : wait' = 0 := by
        split at htoken
        · next htruthy => exact waitTime_of_hasRoom (h.2 htruthy) htoken
        · exact (Option.some.inj htoken).symm
      simp [released, hzero]

/-- A time that counts later counts now. -/
theorem fresh_fresh (timestamps : List ℚ) {t t' : ℚ} (h : t ≤ t') :
    fresh (fresh timestamps t) t' = fresh timestamps t' := by
  rw [fresh, fresh, fresh, filter_filter]
  refine filter_congr fun ts _ => ?_
  rw [← Bool.decide_and, decide_eq_decide]
  exact and_iff_left_of_imp fun hlt => by linarith

/-! ### Runs -/

/-- What is remembered is when the calls have returned, and no window has too many of them. -/
structure Remembers (n : Int) (l : RateLimiter) (clock : ℚ) (moments : List ℚ) : Prop where
  limit : l.requestsPerMinute = some n
  fresh : ∀ t, clock ≤ t → fresh l.requestTimestamps t = fresh moments t
  bounded : Bounded n moments

theorem Bounded.append {n : Int} {moments : List ℚ} {t : ℚ} (h : Bounded n moments)
    (hroom : (fresh moments t).length < n) : Bounded n (moments ++ [t]) := by
  intro start
  have hbefore := h start
  rw [countP_append, countP_singleton]
  split
  · next hin =>
    rw [decide_eq_true_eq] at hin
    have hle : moments.countP (fun r => start ≤ r ∧ r < start + 60) ≤ (fresh moments t).length := by
      rw [fresh, ← countP_eq_length_filter]
      refine countP_mono_left fun r _ hr => ?_
      rw [decide_eq_true_eq] at hr ⊢
      linarith
    omega
  · simpa using hbefore

theorem Remembers.call {n : Int} {l : RateLimiter} {clock t : ℚ} {moments : List ℚ}
    {tokens : Option Int} (hpos : 0 < n) (h : Remembers n l clock moments) (ht : clock ≤ t)
    (hfree : Unhindered l t tokens) :
    Remembers n (acquire l t tokens).1 (released (acquire l t tokens).2)
      (moments ++ (acquire l t tokens).2.toOption.toList) := by
  obtain ⟨hlimit, hreleased, hcase⟩ := acquire_cases hfree
  rw [hreleased]
  refine ⟨hlimit.trans h.limit, fun t' ht' => ?_, ?_⟩ <;>
    rcases hcase with ⟨hended, htimes⟩ | ⟨hended, htimes⟩ <;> rw [hended]
  · rw [htimes, fresh_fresh _ ht', h.fresh t' (ht.trans ht')]
    exact congrArg (Llm.fresh · t') (append_nil _).symm
  · rw [htimes, Llm.fresh, filter_append, ← Llm.fresh, fresh_fresh _ ht', h.fresh t' (ht.trans ht')]
    exact (filter_append ..).symm
  · exact (append_nil moments).symm ▸ h.bounded
  · refine h.bounded.append ?_
    rw [← h.fresh t ht]
    rcases hfree.1 n h.limit with hzero | hlt | hnil
    · exact absurd hzero hpos.ne'
    · exact hlt
    · rw [hnil]
      exact hpos

end KolegaCode.Llm
