import Mathlib.Data.List.Induction
import KolegaCode.Lib.Assoc
import KolegaCode.Lib.JsonRoundTrip

/-!
# Lib — dictionaries of JSON values

A dictionary of a JSON value is an association list, and its operations are those of `Assoc`; so
what is known of these holds of it.
-/

namespace KolegaCode.Json

open List Option

variable (d : Dict)

theorem get?_eq (key : String) : get? d key = Assoc.get? d key := by
  induction d with
  | nil => rfl
  | cons p d ih => rw [get?_cons, Assoc.get?_cons, ih]

theorem set_eq (key : String) (value : Json) : set d key value = Assoc.set d key value := by
  induction d with
  | nil => rfl
  | cons p d ih => rw [set, Assoc.set_cons, ih]

theorem get?_set (key key' : String) (value : Json) :
    get? (set d key value) key' = if key' = key then some value else get? d key' := by
  rw [get?_eq, get?_eq, set_eq, Assoc.get?_set]

variable {d pairs : Dict} {key : String} {value : Json}

theorem mem_of_get? (h : get? d key = some value) : (key, value) ∈ d :=
  Assoc.mem_of_get? ((get?_eq d key).symm.trans h)

theorem get?_of_mem (hd : (d.map Prod.fst).Nodup) (h : (key, value) ∈ d) :
    get? d key = some value :=
  (get?_eq d key).trans (Assoc.get?_of_mem hd h)

theorem get?_eq_none_iff : get? d key = none ↔ key ∉ d.map Prod.fst := by
  rw [get?_eq, Assoc.get?_eq_none_iff]
  rfl

theorem keys_set_of_mem (h : key ∈ d.map Prod.fst) :
    (set d key value).map Prod.fst = d.map Prod.fst := by
  have hmem : key ∈ Assoc.keys d := h
  have hkeys := Assoc.keys_set d key value
  rw [if_pos hmem] at hkeys
  rw [set_eq]
  exact hkeys

theorem get?_foldl_set (hmem : (key, value) ∈ pairs)
    (hunique : ∀ value', (key, value') ∈ pairs → value' = value) (d : Dict) :
    get? (pairs.foldl (fun d p => set d p.1 p.2) d) key = some value := by
  induction pairs using List.reverseRecOn with
  | nil => cases hmem
  | append_singleton pairs p ih =>
    rw [foldl_append, foldl_cons, foldl_nil, get?_set]
    by_cases hkey : key = p.1
    · have hp : (key, p.2) ∈ pairs ++ [p] := by
        rw [hkey]
        exact mem_append_right _ mem_cons_self
      rw [if_pos hkey, hunique p.2 hp]
    · rw [if_neg hkey]
      rcases mem_append.mp hmem with hmem | hmem
      · exact ih hmem fun value' h => hunique value' (mem_append_left _ h)
      · rw [mem_singleton] at hmem
        exact absurd (congrArg Prod.fst hmem) hkey

theorem get?_dictOf (hmem : (key, value) ∈ pairs)
    (hunique : ∀ value', (key, value') ∈ pairs → value' = value) :
    get? (dictOf pairs) key = some value := get?_foldl_set hmem hunique []

theorem mem_of_get?_dictOf (h : get? (dictOf pairs) key = some value) : (key, value) ∈ pairs := by
  have hrun : ∀ (pairs d : Dict), get? (pairs.foldl (fun d p => set d p.1 p.2) d) key =
      some value → (key, value) ∈ pairs ∨ get? d key = some value := by
    intro pairs
    induction pairs with
    | nil => exact fun d h => .inr h
    | cons p pairs ih =>
      intro d h
      rcases ih _ h with h | h
      · exact .inl (mem_cons_of_mem _ h)
      · rw [get?_set] at h
        split at h
        · next hkey =>
          cases h
          exact .inl (by rw [hkey]; exact mem_cons_self)
        · exact .inr h
  exact (hrun pairs [] h).resolve_right nofun

/-- `d.update(patch)`. -/
def update (d patch : Dict) : Dict := patch.foldl (fun d p => set d p.1 p.2) d

theorem update_append (d patch : Dict) (key : String) (value : Json) :
    update d (patch ++ [(key, value)]) = set (update d patch) key value := by
  rw [update, foldl_append]
  rfl

theorem get?_update (d patch : Dict) (key : String) :
    get? (update d patch) key = (get? (dictOf patch) key).or (get? d key) := by
  induction patch using List.reverseRecOn with
  | nil => rfl
  | append_singleton patch p ih =>
    have hdict : dictOf (patch ++ [p]) = set (dictOf patch) p.1 p.2 := update_append [] patch p.1 p.2
    rw [update_append, hdict, get?_set, get?_set]
    split
    · rfl
    · exact ih

theorem get?_dictOf_eq_none_iff : get? (dictOf pairs) key = none ↔ key ∉ pairs.map Prod.fst := by
  induction pairs using List.reverseRecOn with
  | nil => simp [dictOf]
  | append_singleton pairs p ih =>
    have hdict : dictOf (pairs ++ [p]) = set (dictOf pairs) p.1 p.2 := update_append [] pairs p.1 p.2
    rw [hdict, get?_set, map_append, mem_append, not_or, map_singleton, mem_singleton]
    split
    · next hkey => simp [hkey]
    · next hkey => simp [hkey, ih]

theorem update_cons (p : String × Json) (patch : Dict) :
    update d (p :: patch) = update (set d p.1 p.2) patch := rfl

theorem set_of_get? (h : get? d key = some value) : set d key value = d := by
  induction d with
  | nil => cases h
  | cons p d ih =>
    rw [get?_cons] at h
    rw [set]
    split at h
    · next hkey =>
      cases h
      rw [if_pos hkey]
    · next hkey => rw [if_neg hkey, ih h]

theorem set_set (key : String) (value value' : Json) :
    set (set d key value) key value' = set d key value' := by
  induction d with
  | nil => simp [set]
  | cons p d ih =>
    rw [set, set]
    split
    · next hkey => rw [set, if_pos hkey]
    · next hkey => rw [set, if_neg hkey, ih]

/-- Two writes can change places, when one of them replaces a value. -/
theorem set_comm_of_mem {key' : String} (hne : key ≠ key') (hmem : key ∈ d.map Prod.fst)
    (value value' : Json) :
    set (set d key value) key' value' = set (set d key' value') key value := by
  induction d with
  | nil => cases hmem
  | cons p d ih =>
    obtain ⟨k, v⟩ := p
    by_cases hk : k = key
    · have hk' : k ≠ key' := fun h => hne (hk.symm.trans h)
      simp only [set, if_pos hk, if_neg hk']
    · have hmem : key ∈ d.map Prod.fst := (mem_cons.mp hmem).resolve_left (Ne.symm hk)
      by_cases hk' : k = key'
      · simp only [set, if_neg hk, if_pos hk']
      · simp only [set, if_neg hk, if_neg hk', ih hmem]

/-- What a patch writes anyway need not be written before it. -/
theorem update_set_of_mem {patch : Dict} (hpatch : key ∈ patch.map Prod.fst)
    (hmem : key ∈ d.map Prod.fst) (value : Json) :
    update (set d key value) patch = update d patch := by
  induction patch generalizing d with
  | nil => cases hpatch
  | cons p patch ih =>
    rw [update_cons, update_cons]
    by_cases hkey : key = p.1
    · rw [hkey, set_set]
    · have hpatch := (mem_cons.mp hpatch).resolve_left hkey
      rw [set_comm_of_mem hkey hmem]
      refine ih hpatch ?_
      rw [← not_not (a := key ∈ _), ← get?_eq_none_iff, get?_set, if_neg hkey, get?_eq_none_iff]
      exact not_not.mpr hmem

/-- A patch that says what is already there changes nothing. -/
theorem update_eq_self {patch : Dict}
    (h : ∀ key ∈ patch.map Prod.fst, get? d key = get? (dictOf patch) key) :
    update d patch = d := by
  induction patch with
  | nil => rfl
  | cons p patch ih =>
    have hdict : ∀ key, get? (dictOf (p :: patch)) key =
        (get? (dictOf patch) key).or (get? [p] key) := fun key => get?_update [p] patch key
    have hhead := h p.1 mem_cons_self
    have hpatch : ∀ key ∈ patch.map Prod.fst, get? d key = get? (dictOf patch) key := by
      intro key hkey
      obtain ⟨value, hvalue⟩ := ne_none_iff_exists'.mp (mt get?_dictOf_eq_none_iff.mp (not_not.mpr hkey))
      rw [h key (mem_cons_of_mem _ hkey), hdict, hvalue, some_or]
    rw [update_cons]
    by_cases hmem : p.1 ∈ patch.map Prod.fst
    · have hd : p.1 ∈ d.map Prod.fst := by
        by_contra hnone
        rw [← get?_eq_none_iff, hpatch p.1 hmem] at hnone
        exact get?_dictOf_eq_none_iff.mp hnone hmem
      rw [update_set_of_mem hmem hd]
      exact ih hpatch
    · have hnone : get? (dictOf patch) p.1 = none := get?_dictOf_eq_none_iff.mpr hmem
      rw [hdict, hnone, none_or, get?_cons, if_pos rfl] at hhead
      rw [set_of_get? hhead]
      exact ih hpatch

/-- **The same patch twice.** -/
theorem update_update (d patch : Dict) : update (update d patch) patch = update d patch := by
  refine update_eq_self fun key hkey => ?_
  obtain ⟨value, hvalue⟩ := ne_none_iff_exists'.mp (mt get?_dictOf_eq_none_iff.mp (not_not.mpr hkey))
  rw [get?_update, hvalue, some_or]

theorem get?_filter (keep : String → Json → Bool) (d : Dict) (hd : (d.map Prod.fst).Nodup)
    (key : String) :
    get? (d.filter fun p => keep p.1 p.2) key = (get? d key).filter (keep key) := by
  induction d with
  | nil => rfl
  | cons p d ih =>
    obtain ⟨k, v⟩ := p
    rw [map_cons, nodup_cons] at hd
    rw [filter_cons, get?_cons]
    by_cases hkey : k = key
    · rw [if_pos hkey]
      split
      · next hkeep =>
        rw [get?_cons, if_pos hkey, filter_some, if_pos (hkey ▸ hkeep)]
      · next hkeep =>
        rw [ih hd.2, get?_eq_none_iff.mpr (hkey ▸ hd.1), filter_some, if_neg (hkey ▸ hkeep)]
        rfl
    · rw [if_neg hkey]
      split
      · rw [get?_cons, if_neg hkey, ih hd.2]
      · exact ih hd.2

end KolegaCode.Json
