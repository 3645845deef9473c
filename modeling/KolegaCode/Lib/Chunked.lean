import Mathlib.Data.List.Basic
import Mathlib.Algebra.GroupWithZero.Nat

/-!
# Lib — streams that arrive in chunks, and readers

A read returns at most what it asks for and never goes past a chunk.  What a reader yields when it
is called again and again is a run (`Yields`); a reader that sees only the content of its stream
yields the same however the content is cut (`yields_content`).
-/

namespace KolegaCode.Chunked

variable {α β ε σ τ : Type}

/-- What arrives at once. -/
structure Chunk (α : Type) where
  items : List α
  ne : items ≠ []

/-- All that will arrive. -/
def content (s : List (Chunk α)) : List α := s.flatMap Chunk.items

@[simp] theorem content_nil : content ([] : List (Chunk α)) = [] := rfl

@[simp] theorem content_cons (c : Chunk α) (s : List (Chunk α)) :
    content (c :: s) = c.items ++ content s := List.flatMap_cons

/-- `read(n)`: the first chunk, or as much of it as was asked for; nothing at the end. -/
def read (n : Nat) : List (Chunk α) → List α × List (Chunk α)
  | [] => ([], [])
  | c :: s =>
    if h : c.items.length ≤ n then (c.items, s)
    else (c.items.take n, ⟨c.items.drop n, fun he => h (List.drop_eq_nil_iff.mp he)⟩ :: s)

theorem read_append (n : Nat) (s : List (Chunk α)) :
    (read n s).1 ++ content (read n s).2 = content s := by
  cases s with
  | nil => rfl
  | cons c s =>
    rw [read]
    split
    · exact (content_cons c s).symm
    · rw [content_cons, content_cons, ← List.append_assoc, List.take_append_drop]

theorem length_read_le (n : Nat) (s : List (Chunk α)) : (read n s).1.length ≤ n := by
  cases s with
  | nil => exact Nat.zero_le n
  | cons c s =>
    rw [read]
    split
    · next h => exact h
    · exact List.length_take_le n _

theorem content_of_read_nil {n : Nat} (hn : 0 < n) {s : List (Chunk α)}
    (h : (read n s).1 = []) : content s = [] := by
  cases s with
  | nil => rfl
  | cons c s =>
    rw [read] at h
    split at h
    · exact absurd h c.ne
    · rcases List.take_eq_nil_iff.mp h with h | h
      · omega
      · exact absurd h c.ne

/-! ### Runs of a reader -/

/-- A reader yields these values, one a call, and then the end or an error. -/
inductive Yields (reader : σ → Except ε (Option (β × σ))) : σ → List β → Except ε Unit → Prop where
  | ended {s : σ} : reader s = .ok none → Yields reader s [] (.ok ())
  | failed {s : σ} {e : ε} : reader s = .error e → Yields reader s [] (.error e)
  | next {s s' : σ} {b : β} {bs : List β} {outcome : Except ε Unit} :
      reader s = .ok (some (b, s')) → Yields reader s' bs outcome →
        Yields reader s (b :: bs) outcome

variable {reader : σ → Except ε (Option (β × σ))}

variable {bs : List β} {outcome outcome' : Except ε Unit}

theorem Yields.unique {s : σ} {bs' : List β} (h : Yields reader s bs outcome)
    (h' : Yields reader s bs' outcome') : bs' = bs ∧ outcome' = outcome := by
  induction h generalizing bs' with
  | ended hs =>
    cases h' with
    | ended => exact ⟨rfl, rfl⟩
    | failed hs' | next hs' => cases hs.symm.trans hs'
  | failed hs =>
    cases h' with
    | ended hs' => cases hs.symm.trans hs'
    | failed hs' =>
      cases hs.symm.trans hs'
      exact ⟨rfl, rfl⟩
    | next hs' => cases hs.symm.trans hs'
  | next hs _ ih =>
    cases h' with
    | ended hs' | failed hs' => cases hs.symm.trans hs'
    | next hs' hrest =>
      cases hs.symm.trans hs'
      obtain ⟨rfl, rfl⟩ := ih hrest
      exact ⟨rfl, rfl⟩

theorem Yields.iff {s : σ} {bs' : List β} (h : Yields reader s bs outcome) :
    Yields reader s bs' outcome' ↔ bs' = bs ∧ outcome' = outcome := by
  refine ⟨h.unique, ?_⟩
  rintro ⟨rfl, rfl⟩
  exact h

/-- A reader that shortens its stream with every value comes to an end. -/
theorem exists_yields (size : σ → Nat)
    (hsize : ∀ {s s' : σ} {b : β}, reader s = .ok (some (b, s')) → size s' < size s) (s : σ) :
    ∃ bs outcome, Yields reader s bs outcome := by
  induction hn : size s using Nat.strongRecOn generalizing s with
  | ind n ih =>
    cases hs : reader s with
    | error e => exact ⟨[], .error e, .failed hs⟩
    | ok value =>
      cases value with
      | none => exact ⟨[], .ok (), .ended hs⟩
      | some p =>
        obtain ⟨b, s'⟩ := p
        obtain ⟨bs, outcome, h⟩ := ih (size s') (hn ▸ hsize hs) s' rfl
        exact ⟨b :: bs, outcome, .next hs h⟩

/-- **A view of the state that decides what is read decides the run.** -/
theorem yields_view {reader' : τ → Except ε (Option (β × τ))} {view : σ → τ}
    (hview : ∀ s, (reader s).map (Option.map (Prod.map id view)) = reader' (view s)) {s : σ} :
    Yields reader s bs outcome ↔ Yields reader' (view s) bs outcome := by
  constructor
  · intro h
    induction h with
    | ended hs => exact .ended (by rw [← hview, hs]; rfl)
    | failed hs => exact .failed (by rw [← hview, hs]; rfl)
    | next hs _ ih => exact .next (by rw [← hview, hs]; rfl) ih
  · intro h
    generalize ht : view s = t at h
    induction h generalizing s with
    | ended hs =>
      rw [← ht, ← hview] at hs
      cases hr : reader s with
      | error e => rw [hr] at hs; cases hs
      | ok value =>
        cases value with
        | none => exact .ended hr
        | some p => rw [hr] at hs; cases hs
    | failed hs =>
      rw [← ht, ← hview] at hs
      cases hr : reader s with
      | error e => rw [hr] at hs; cases hs; exact .failed hr
      | ok value => rw [hr] at hs; cases hs
    | next hs _ ih =>
      rw [← ht, ← hview] at hs
      cases hr : reader s with
      | error e => rw [hr] at hs; cases hs
      | ok value =>
        cases value with
        | none => rw [hr] at hs; cases hs
        | some p =>
          obtain ⟨b, s'⟩ := p
          rw [hr] at hs
          cases hs
          exact .next hr (ih rfl)

/-! ### Numbers in little-endian order -/

/-- The `k` low bytes of `n`, the lowest first. -/
def littleEndian : (k n : Nat) → List UInt8
  | 0, _ => []
  | k + 1, n => UInt8.ofNat n :: littleEndian k (n / 256)

def ofLittleEndian : List UInt8 → Nat
  | [] => 0
  | b :: bytes => b.toNat + 256 * ofLittleEndian bytes

@[simp] theorem length_littleEndian (k n : Nat) : (littleEndian k n).length = k := by
  induction k generalizing n with
  | zero => rfl
  | succ k ih => rw [littleEndian, List.length_cons, ih]

theorem ofLittleEndian_littleEndian {k n : Nat} (h : n < 256 ^ k) :
    ofLittleEndian (littleEndian k n) = n := by
  induction k generalizing n with
  | zero => exact (Nat.lt_one_iff.mp h).symm
  | succ k ih =>
    have hrest : n / 256 < 256 ^ k := Nat.div_lt_of_lt_mul (by rwa [Nat.pow_succ'] at h)
    rw [littleEndian, ofLittleEndian, ih hrest, UInt8.toNat_ofNat']
    omega

end KolegaCode.Chunked
