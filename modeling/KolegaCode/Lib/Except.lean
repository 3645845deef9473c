import Mathlib.Data.List.Basic

/-!
# Lib — computations that may fail

Inversion of a successful `Except` computation: of a bind, and of a monadic fold.  What the
operations on the state of an `EStateM` computation give.
-/

namespace KolegaCode

open List

variable {ε α β : Type}

theorem bind_eq_ok {x : Except ε α} {f : α → Except ε β} {b : β} :
    (x >>= f) = .ok b ↔ ∃ a, x = .ok a ∧ f a = .ok b := by
  cases x with
  | error e =>
    refine ⟨?_, ?_⟩
    · intro h
      cases h
    · intro h
      obtain ⟨a, h, -⟩ := h
      cases h
  | ok a =>
    refine ⟨fun h => ⟨a, rfl, h⟩, ?_⟩
    intro h
    obtain ⟨a', ha, h⟩ := h
    cases ha
    exact h

theorem foldlM_eq_ok {f : β → α → Except ε β} :
    ∀ {xs : List α} {b b' : β}, xs.foldlM f b = .ok b' → ∀ x ∈ xs, ∃ s s', f s x = .ok s' := by
  intro xs
  induction xs with
  | nil =>
    intro b b' _ x hx
    cases hx
  | cons y xs ih =>
    intro b b' h x hx
    rw [foldlM_cons] at h
    obtain ⟨s, hs, h⟩ := bind_eq_ok.mp h
    rcases mem_cons.mp hx with rfl | hx
    · exact ⟨b, s, hs⟩
    · exact ih h x hx

theorem mem_of_mapM_eq_ok {f : α → Except ε β} {xs : List α} {ys : List β}
    (h : xs.mapM f = .ok ys) {y : β} (hy : y ∈ ys) : ∃ x ∈ xs, f x = .ok y := by
  induction xs generalizing ys with
  | nil =>
    rw [mapM_nil] at h
    cases h
    cases hy
  | cons x xs ih =>
    rw [mapM_cons] at h
    obtain ⟨z, hz, h⟩ := bind_eq_ok.mp h
    obtain ⟨zs, hzs, h⟩ := bind_eq_ok.mp h
    cases h
    rcases mem_cons.mp hy with rfl | hy
    · exact ⟨x, mem_cons_self, hz⟩
    · obtain ⟨x', hx', hf⟩ := ih hzs hy
      exact ⟨x', mem_cons_of_mem _ hx', hf⟩

theorem foldlM_concat_eq_ok {f : β → α → Except ε β} {xs : List α} {x : α} {b b' : β} :
    (xs ++ [x]).foldlM f b = .ok b' ↔ ∃ s, xs.foldlM f b = .ok s ∧ f s x = .ok b' := by
  simp only [foldlM_append, foldlM_cons, foldlM_nil, bind_pure, bind_eq_ok]

/-! ### Computations on a state -/

variable {σ : Type} (s : σ)

theorem estate_get : (get : EStateM ε σ σ) s = .ok s s := rfl

theorem estate_set (s' : σ) : (set s' : EStateM ε σ PUnit) s = .ok ⟨⟩ s' := rfl

theorem estate_modify (f : σ → σ) : (modify f : EStateM ε σ PUnit) s = .ok ⟨⟩ (f s) := rfl

end KolegaCode
