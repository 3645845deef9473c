import Mathlib.Data.List.Nodup
import Mathlib.Data.List.Duplicate
import Mathlib.Data.List.NodupEquivFin

/-!
# Lib — Fresh names

Names made unique by renaming the ones that clash.  The search for a free name tries a numbered
candidate after the other (`firstFree`); `reassign` goes over a list of indices and gives each of
them a new name, which is taken from then on.
-/

namespace KolegaCode.Fresh

open List

variable {α : Type} [DecidableEq α]

/-! ### Searching -/

/-- The first of `f n`, `f (n + 1)`, … that is not taken, within `fuel` further candidates. -/
def firstFree (taken : List α) (f : Nat → α) : (fuel n : Nat) → α
  | 0, n => f n
  | fuel + 1, n => if f n ∈ taken then firstFree taken f fuel (n + 1) else f n

theorem exists_firstFree_eq (taken : List α) (f : Nat → α) (fuel : Nat) :
    ∀ n, ∃ k, n ≤ k ∧ k ≤ n + fuel ∧ firstFree taken f fuel n = f k ∧
      (f k ∈ taken → k = n + fuel ∧ ∀ j, n ≤ j → j ≤ k → f j ∈ taken) := by
  induction fuel with
  | zero =>
    intro n
    refine ⟨n, le_refl n, le_refl n, rfl, fun hn => ⟨rfl, fun j hj hj' => ?_⟩⟩
    rw [le_antisymm hj' hj]
    exact hn
  | succ fuel ih =>
    intro n
    rw [firstFree]
    by_cases hn : f n ∈ taken
    · rw [if_pos hn]
      obtain ⟨k, hk, hk', heq, hall⟩ := ih (n + 1)
      refine ⟨k, by omega, by omega, heq, fun htaken => ⟨by have := (hall htaken).1; omega, ?_⟩⟩
      intro j hj hj'
      rcases Nat.lt_or_eq_of_le hj with hlt | rfl
      · exact (hall htaken).2 j hlt hj'
      · exact hn
    · rw [if_neg hn]
      exact ⟨n, le_refl n, Nat.le_add_right n _, rfl, fun h => absurd h hn⟩

/-- Distinct candidates cannot all be taken, so the search ends on one that is free. -/
theorem firstFree_spec {taken : List α} {f : Nat → α} (hf : Function.Injective f) (n : Nat) :
    firstFree taken f taken.length n ∉ taken ∧
      ∃ k, k ≤ n + taken.length ∧ firstFree taken f taken.length n = f k := by
  obtain ⟨k, -, hk, heq, hall⟩ := exists_firstFree_eq taken f taken.length n
  refine ⟨fun htaken => ?_, k, hk, heq⟩
  rw [heq] at htaken
  obtain ⟨rfl, hall⟩ := hall htaken
  -- the candidates tried are one more than the names taken
  have hsub : (List.range' n (taken.length + 1)).map f ⊆ taken := by
    intro a ha
    obtain ⟨j, hj, rfl⟩ := mem_map.mp ha
    rw [mem_range'_1] at hj
    exact hall j hj.1 (by omega)
  have hnodup : ((List.range' n (taken.length + 1)).map f).Nodup :=
    (nodup_range').map hf
  have hle := (subperm_of_subset hnodup hsub).length_le
  rw [length_map, length_range'] at hle
  omega

/-! ### Placing -/

section

variable {indices : List Nat} {values : List α} {i k : Nat}

/-- The values are written to their indices. -/
def place (names : List α) (indices : List Nat) (values : List α) : List α :=
  (indices.zip values).foldl (fun names p => names.set p.1 p.2) names

omit [DecidableEq α] in
theorem place_cons (names : List α) (j : Nat) (indices : List Nat) (value : α) (values : List α) :
    place names (j :: indices) (value :: values) = place (names.set j value) indices values := rfl

omit [DecidableEq α] in
@[simp] theorem length_place :
    ∀ names : List α, (place names indices values).length = names.length := by
  induction indices generalizing values with
  | nil => exact fun _ => rfl
  | cons j indices ih =>
    cases values with
    | nil => exact fun _ => rfl
    | cons value values =>
      intro names
      rw [place_cons, ih, length_set]

omit [DecidableEq α] in
theorem getElem?_place_of_notMem (h : i ∉ indices) :
    ∀ names : List α, (place names indices values)[i]? = names[i]? := by
  induction indices generalizing values with
  | nil => exact fun _ => rfl
  | cons j indices ih =>
    cases values with
    | nil => exact fun _ => rfl
    | cons value values =>
      intro names
      rw [mem_cons, not_or] at h
      rw [place_cons, ih h.2, getElem?_set_ne (Ne.symm h.1)]

omit [DecidableEq α] in
theorem getElem?_place (hnodup : indices.Nodup) (hlength : values.length = indices.length)
    (hk : indices[k]? = some i) :
    ∀ {names : List α}, i < names.length → (place names indices values)[i]? = values[k]? := by
  induction indices generalizing values k with
  | nil => cases hk
  | cons j indices ih =>
    cases values with
    | nil => cases hlength
    | cons value values =>
      intro names hi
      obtain ⟨hj, hnodup⟩ := nodup_cons.mp hnodup
      rw [length_cons, length_cons, Nat.add_right_cancel_iff] at hlength
      rw [place_cons]
      cases k with
      | zero =>
        cases hk
        rw [getElem?_place_of_notMem hj, getElem?_set_self hi]
        rfl
      | succ k => exact ih hnodup hlength hk (by rw [length_set]; exact hi)

end

/-! ### Renaming -/

/-- The names at the indices are replaced one after the other; `choose` sees the index, the name
there and the names taken by then. -/
def reassign (choose : Nat → α → List α → α) : List Nat → List α → List α → List α
  | [], names, _ => names
  | i :: rest, names, taken =>
    match names[i]? with
    | none => reassign choose rest names taken
    | some name =>
      let new := choose i name taken
      reassign choose rest (names.set i new) (new :: taken)

section

variable {choose : Nat → α → List α → α}

omit [DecidableEq α] in
@[simp] theorem length_reassign (indices : List Nat) :
    ∀ names taken, (reassign choose indices names taken).length = names.length := by
  induction indices with
  | nil => exact fun _ _ => rfl
  | cons i rest ih =>
    intro names taken
    rw [reassign]
    split
    · exact ih names taken
    · rw [ih, length_set]

omit [DecidableEq α] in
theorem getElem?_reassign_of_notMem {j : Nat} {indices : List Nat} :
    ∀ {names taken}, j ∉ indices → (reassign choose indices names taken)[j]? = names[j]? := by
  induction indices with
  | nil => exact fun _ => rfl
  | cons i rest ih =>
    intro names taken hj
    rw [mem_cons, not_or] at hj
    rw [reassign]
    split
    · exact ih hj.2
    · rw [ih hj.2, getElem?_set_ne (Ne.symm hj.1)]

/-- What `choose` makes of a name that is as `P` says, while no more than `bound` names are taken:
a name that is free, and as `Q` says. -/
def Chooses (choose : Nat → α → List α → α) (P Q : Nat → α → Prop) (bound : Nat) : Prop :=
  ∀ j name taken, P j name → taken.length < bound →
    choose j name taken ∉ taken ∧ Q j (choose j name taken)

variable {P Q : Nat → α → Prop} {bound : Nat}

omit [DecidableEq α] in
theorem set_of_notMem {i : Nat} {new : α} {names : List α} {rest : List Nat}
    (hi : i ∉ rest) (hP : ∀ j ∈ i :: rest, ∀ name, names[j]? = some name → P j name) :
    ∀ j ∈ rest, ∀ name, (names.set i new)[j]? = some name → P j name := by
  intro j hj name hname
  have hne : i ≠ j := fun e => hi (e ▸ hj)
  rw [getElem?_set_ne hne] at hname
  exact hP j (mem_cons_of_mem _ hj) name hname

omit [DecidableEq α] in
/-- Each of the indices gets a name that was free. -/
theorem exists_reassign_eq (hchoose : Chooses choose P Q bound) {j : Nat} {indices : List Nat} :
    ∀ {names taken}, indices.Nodup → j ∈ indices → j < names.length →
      (∀ j ∈ indices, ∀ name, names[j]? = some name → P j name) →
      taken.length + indices.length ≤ bound →
      ∃ new, (reassign choose indices names taken)[j]? = some new ∧ new ∉ taken ∧ Q j new := by
  induction indices with
  | nil => exact fun _ hj => absurd hj not_mem_nil
  | cons i rest ih =>
    intro names taken hnodup hj hlt hP hbound
    obtain ⟨hi, hnodup⟩ := nodup_cons.mp hnodup
    rw [length_cons] at hbound
    rw [reassign]
    split
    · next hnone =>
      have hij : j ≠ i := by
        rintro rfl
        rw [List.getElem?_eq_none_iff] at hnone
        omega
      have hj' := mem_of_ne_of_mem hij hj
      exact ih hnodup hj' hlt (fun j hj => hP j (mem_cons_of_mem _ hj)) (by omega)
    · next name hname =>
      have hnew := hchoose i name taken (hP i mem_cons_self name hname) (by omega)
      by_cases hij : j = i
      · subst hij
        refine ⟨choose j name taken, ?_, hnew⟩
        rw [getElem?_reassign_of_notMem hi, getElem?_set_self hlt]
      · have hj' := mem_of_ne_of_mem hij hj
        have hlt' : j < (names.set i (choose i name taken)).length := by
          rw [length_set]
          exact hlt
        have hbound' : (choose i name taken :: taken).length + rest.length ≤ bound := by
          rw [length_cons]
          omega
        obtain ⟨new, heq, hfree, hQ⟩ := ih hnodup hj' hlt' (set_of_notMem hi hP) hbound'
        exact ⟨new, heq, fun h => hfree (mem_cons_of_mem _ h), hQ⟩

omit [DecidableEq α] in
/-- No two of the indices get the same name. -/
theorem reassign_ne (hchoose : Chooses choose P Q bound) {j k : Nat} (hjk : j ≠ k)
    {indices : List Nat} :
    ∀ {names taken}, indices.Nodup → j ∈ indices → k ∈ indices → j < names.length →
      k < names.length → (∀ j ∈ indices, ∀ name, names[j]? = some name → P j name) →
      taken.length + indices.length ≤ bound →
      (reassign choose indices names taken)[j]? ≠ (reassign choose indices names taken)[k]? := by
  induction indices with
  | nil => exact fun _ hj => absurd hj not_mem_nil
  | cons i rest ih =>
    intro names taken hnodup hj hk hjlt hklt hP hbound
    obtain ⟨hi, hnodup⟩ := nodup_cons.mp hnodup
    rw [length_cons] at hbound
    rw [reassign]
    split
    · next hnone =>
      rw [List.getElem?_eq_none_iff] at hnone
      have hji : j ≠ i := by omega
      have hki : k ≠ i := by omega
      exact ih hnodup (mem_of_ne_of_mem hji hj) (mem_of_ne_of_mem hki hk) hjlt hklt
        (fun j hj => hP j (mem_cons_of_mem _ hj)) (by omega)
    · next name hname =>
      have hset : (names.set i (choose i name taken)).length = names.length := length_set
      have hP' : ∀ j ∈ rest, ∀ name', (names.set i (choose i name taken))[j]? = some name' →
          P j name' := set_of_notMem hi hP
      have hbound' : (choose i name taken :: taken).length + rest.length ≤ bound := by
        rw [length_cons]
        omega
      -- the name of the head is taken when the others are chosen
      have hhead : ∀ {l}, l ≠ i → l ∈ i :: rest → l < names.length →
          (reassign choose rest (names.set i (choose i name taken))
            (choose i name taken :: taken))[i]? ≠
          (reassign choose rest (names.set i (choose i name taken))
            (choose i name taken :: taken))[l]? := by
        intro l hli hl hllt heq
        have hilt : i < names.length := by
          rw [List.getElem?_eq_some_iff] at hname
          exact hname.1
        obtain ⟨new, hnew, hfree, -⟩ := exists_reassign_eq hchoose hnodup
          (mem_of_ne_of_mem hli hl) (by rw [hset]; exact hllt) hP' hbound'
        rw [hnew, getElem?_reassign_of_notMem hi, getElem?_set_self hilt] at heq
        cases heq
        exact hfree mem_cons_self
      by_cases hji : j = i
      · subst hji
        exact hhead (Ne.symm hjk) hk hklt
      · by_cases hki : k = i
        · subst hki
          exact (hhead hjk hj hjlt).symm
        · exact ih hnodup (mem_of_ne_of_mem hji hj) (mem_of_ne_of_mem hki hk)
            (by rw [hset]; exact hjlt) (by rw [hset]; exact hklt) hP' hbound'

/-- The indices of the names that occur more than once. -/
def clashing (names : List α) : List Nat :=
  (List.range names.length).filter fun i => (names[i]?).any fun name => 1 < names.count name

theorem mem_clashing {names : List α} {i : Nat} :
    i ∈ clashing names ↔ ∃ name, names[i]? = some name ∧ 1 < names.count name := by
  rw [clashing, mem_filter, List.mem_range, Option.any_eq_true]
  constructor
  · rintro ⟨-, name, hname, hcount⟩
    exact ⟨name, hname, of_decide_eq_true hcount⟩
  · rintro ⟨name, hname, hcount⟩
    exact ⟨(List.getElem?_eq_some_iff.mp hname).1, name, hname, decide_eq_true hcount⟩

theorem nodup_clashing (names : List α) : (clashing names).Nodup := nodup_range.filter _

theorem clashing_eq_nil {names : List α} (h : names.Nodup) : clashing names = [] := by
  rw [eq_nil_iff_forall_not_mem]
  intro i hi
  obtain ⟨name, -, hcount⟩ := mem_clashing.mp hi
  exact absurd hcount (not_lt.mpr (nodup_iff_count_le_one.mp h name))

theorem one_lt_count {names : List α} {j k : Nat} {name : α} (hjk : j < k)
    (hj : names[j]? = some name) (hk : names[k]? = some name) : 1 < names.count name := by
  have hdup : List.Duplicate name names := by
    rw [duplicate_iff_exists_distinct_get]
    obtain ⟨hjlt, hj⟩ := List.getElem?_eq_some_iff.mp hj
    obtain ⟨hklt, hk⟩ := List.getElem?_eq_some_iff.mp hk
    exact ⟨⟨j, hjlt⟩, ⟨k, hklt⟩, hjk, hj.symm, hk.symm⟩
  exact duplicate_iff_two_le_count.mp hdup

/-- **Renaming makes names distinct**: the names that occur once stay, and the others get names
that are neither among the old ones nor given twice. -/
theorem reassign_nodup (hchoose : Chooses choose P Q bound) {names : List α} {indices : List Nat}
    (hperm : indices.Perm (clashing names))
    (hP : ∀ j ∈ indices, ∀ name, names[j]? = some name → P j name)
    (hbound : names.length + indices.length ≤ bound) :
    (reassign choose indices names names).Nodup := by
  have hnodup : indices.Nodup := hperm.nodup_iff.mpr (nodup_clashing names)
  -- a new name is not an old one that has stayed
  have hmixed : ∀ {j k}, j ∈ indices → k ∉ indices → j < names.length →
      (reassign choose indices names names)[j]? ≠ (reassign choose indices names names)[k]? := by
    intro j k hj hk hjlt heq
    obtain ⟨new, hnew, hfree, -⟩ := exists_reassign_eq hchoose hnodup hj hjlt hP hbound
    rw [hnew, getElem?_reassign_of_notMem hk] at heq
    exact hfree (mem_of_getElem? heq.symm)
  rw [nodup_iff_getElem?_ne_getElem?]
  intro j k hjk hklt
  rw [length_reassign] at hklt
  have hjlt : j < names.length := hjk.trans hklt
  by_cases hj : j ∈ indices
  · by_cases hk : k ∈ indices
    · exact reassign_ne hchoose hjk.ne hnodup hj hk hjlt hklt hP hbound
    · exact hmixed hj hk hjlt
  · by_cases hk : k ∈ indices
    · exact (hmixed hk hj hklt).symm
    · rw [getElem?_reassign_of_notMem hj, getElem?_reassign_of_notMem hk]
      intro heq
      rw [getElem?_eq_getElem hklt] at heq
      refine hj (hperm.mem_iff.mpr (mem_clashing.mpr ⟨_, heq, ?_⟩))
      exact one_lt_count hjk heq (getElem?_eq_getElem hklt)

end

end KolegaCode.Fresh
