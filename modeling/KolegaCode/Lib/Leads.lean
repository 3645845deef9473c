import Mathlib.Data.List.Basic

/-!
# Lib — what a computation leads to

`Leads x s ok raised` says of a computation with a state that may raise, started in `s`, that it
returns a value and a state that `ok` holds of, or raises in a state that `raised` holds of.  The
rules follow the ways computations are put together.
-/

namespace KolegaCode

variable {ε σ α β : Type}

def Leads (x : EStateM ε σ α) (s : σ) (ok : α → σ → Prop) (raised : σ → Prop) : Prop :=
  match x s with
  | .ok a s' => ok a s'
  | .error _ s' => raised s'

/-- The state a computation ends in, whether it returns or raises. -/
def endState : EStateM.Result ε σ α → σ
  | .ok _ s => s
  | .error _ s => s

variable {s : σ} {ok : α → σ → Prop} {ok' : β → σ → Prop} {raised : σ → Prop}

theorem leads_pure {a : α} (h : ok a s) : Leads (pure a : EStateM ε σ α) s ok raised := h

theorem leads_throw {e : ε} (h : raised s) : Leads (throw e : EStateM ε σ α) s ok raised := h

theorem leads_get {ok : σ → σ → Prop} (h : ok s s) : Leads (get : EStateM ε σ σ) s ok raised := h

theorem leads_set {t : σ} {ok : PUnit → σ → Prop} (h : ok ⟨⟩ t) :
    Leads (set t : EStateM ε σ PUnit) s ok raised := h

theorem leads_modify {f : σ → σ} {ok : PUnit → σ → Prop} (h : ok ⟨⟩ (f s)) :
    Leads (modify f : EStateM ε σ PUnit) s ok raised := h

variable {x : EStateM ε σ α}

theorem leads_bind {f : α → EStateM ε σ β}
    (h : Leads x s (fun a s' => Leads (f a) s' ok' raised) raised) :
    Leads (x >>= f) s ok' raised := by
  simp only [Leads, bind, EStateM.bind] at h ⊢
  cases hx : x s with
  | ok a s' | error e s' =>
    rw [hx] at h
    exact h

theorem leads_ite {c : Prop} [Decidable c] {y : EStateM ε σ α} (hx : c → Leads x s ok raised)
    (hy : ¬ c → Leads y s ok raised) : Leads (if c then x else y) s ok raised := by
  split
  · next hc => exact hx hc
  · next hc => exact hy hc

theorem Leads.mono {ok₂ : α → σ → Prop} {raised₂ : σ → Prop} (h : Leads x s ok raised)
    (hok : ∀ a s', ok a s' → ok₂ a s') (hraised : ∀ s', raised s' → raised₂ s') :
    Leads x s ok₂ raised₂ := by
  simp only [Leads] at h ⊢
  cases hx : x s with
  | ok a s' =>
    rw [hx] at h
    exact hok a s' h
  | error e s' =>
    rw [hx] at h
    exact hraised s' h

/-- The rule for a loop: `Inv` speaks of the part of the list that has been gone through. -/
theorem leads_forM {f : α → EStateM ε σ PUnit} (Inv : List α → σ → Prop) {xs : List α}
    (h : ∀ done x rest, xs = done ++ x :: rest → ∀ s, Inv done s →
      Leads (f x) s (fun _ => Inv (done ++ [x])) raised)
    (h₀ : Inv [] s) : Leads (xs.forM f) s (fun _ => Inv xs) raised := by
  have hloop : ∀ rest done s, xs = done ++ rest → Inv done s →
      Leads (rest.forM f) s (fun _ => Inv xs) raised := by
    intro rest
    induction rest with
    | nil =>
      intro done s he hs
      rw [List.append_nil] at he
      subst he
      exact leads_pure hs
    | cons x rest ih =>
      intro done s he hs
      refine leads_bind ((h done x rest he s hs).mono (fun _ s' hs' => ?_) fun _ hr => hr)
      exact ih (done ++ [x]) s' (by rw [he, List.append_assoc]; rfl) hs'
  exact hloop xs [] s rfl h₀

/-- What holds either way holds in the end. -/
theorem Leads.endState {q : σ → Prop} (h : Leads x s (fun _ => q) q) : q (endState (x s)) := by
  simp only [Leads] at h
  cases hx : x s with
  | ok a s' | error e s' =>
    rw [hx] at h
    exact h

theorem Leads.of_ok {a : α} {s' : σ} (h : Leads x s ok raised) (hx : x s = .ok a s') : ok a s' := by
  rw [Leads, hx] at h
  exact h

theorem Leads.of_error {e : ε} {s' : σ} (h : Leads x s ok raised) (hx : x s = .error e s') :
    raised s' := by
  rw [Leads, hx] at h
  exact h

/-- What cannot raise returns. -/
theorem Leads.returns (h : Leads x s ok raised) (hn : ∀ s', ¬ raised s') :
    ∃ a s', x s = .ok a s' ∧ ok a s' := by
  cases hx : x s with
  | ok a s' => exact ⟨a, s', rfl, h.of_ok hx⟩
  | error e s' => exact absurd (h.of_error hx) (hn s')

end KolegaCode
