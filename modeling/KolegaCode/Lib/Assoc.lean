import Mathlib.Algebra.BigOperators.Group.List.Basic
import Mathlib.Data.List.Induction

/-!
# Lib — dictionaries

Python's dictionaries over keys and values of any type: the list of the items in insertion order.
`set` replaces the value of a key where it stands and appends a new key.

`sum_set` is the accounting rule: what a sum over the values gains when one value is replaced.
-/

namespace KolegaCode

open List

/-- The items of a dictionary, in insertion order. -/
abbrev Assoc (K V : Type) := List (K × V)

namespace Assoc

variable {K V : Type} [DecidableEq K]

/-- `d.get(key)`. -/
def get? : Assoc K V → K → Option V
  | [], _ => none
  | (k, v) :: d, key => if k = key then some v else get? d key

/-- `d[key] = value`. -/
def set : Assoc K V → K → V → Assoc K V
  | [], key, value => [(key, value)]
  | (k, v) :: d, key, value => if k = key then (k, value) :: d else (k, v) :: set d key value

omit [DecidableEq K] in
/-- The keys, in insertion order. -/
def keys (d : Assoc K V) : List K := d.map Prod.fst

@[simp] theorem get?_nil (key : K) : get? ([] : Assoc K V) key = none := rfl

theorem get?_cons (k : K) (v : V) (d : Assoc K V) (key : K) :
    get? ((k, v) :: d) key = if k = key then some v else get? d key := rfl

theorem set_cons (k : K) (v : V) (d : Assoc K V) (key : K) (value : V) :
    set ((k, v) :: d) key value =
      if k = key then (k, value) :: d else (k, v) :: set d key value := rfl

@[simp] theorem get?_set_self (d : Assoc K V) (key : K) (value : V) :
    get? (set d key value) key = some value := by
  induction d with
  | nil => simp [set, get?]
  | cons p d ih =>
    obtain ⟨k, v⟩ := p
    by_cases h : k = key
    · simp [set_cons, h, get?_cons]
    · simp [set_cons, h, get?_cons, ih]

variable {d : Assoc K V} {key : K} {v : V} {M : Type}

theorem get?_set_of_ne {key' : K} {value : V} (h : key' ≠ key) :
    get? (set d key value) key' = get? d key' := by
  induction d with
  | nil => simp [set, get?, h.symm]
  | cons p d ih =>
    obtain ⟨k, v⟩ := p
    by_cases hk : k = key
    · have hk' : k ≠ key' := fun e => h (e.symm.trans hk)
      simp [set_cons, hk, get?_cons, h.symm]
    · simp [set_cons, hk, get?_cons, ih]

theorem get?_set (d : Assoc K V) (key key' : K) (value : V) :
    get? (set d key value) key' = if key' = key then some value else get? d key' := by
  by_cases h : key' = key
  · subst h
    simp
  · simp [h, get?_set_of_ne h]

theorem mem_keys_of_get? (h : get? d key = some v) : key ∈ keys d := by
  induction d with
  | nil => cases h
  | cons p d ih =>
    obtain ⟨k, w⟩ := p
    rw [get?_cons] at h
    split at h
    · next hk => simp [keys, hk]
    · exact mem_cons_of_mem _ (ih h)

theorem get?_eq_none_iff : get? d key = none ↔ key ∉ keys d := by
  induction d with
  | nil => simp [keys]
  | cons p d ih =>
    obtain ⟨k, w⟩ := p
    by_cases hk : k = key
    · simp [get?_cons, hk, keys]
    · have hk' : ¬ key = k := fun e => hk e.symm
      simp only [get?_cons, hk, if_false, ih, keys, map_cons, mem_cons, hk', false_or]

theorem mem_of_get? (h : get? d key = some v) : (key, v) ∈ d := by
  induction d with
  | nil => cases h
  | cons p d ih =>
    obtain ⟨k, w⟩ := p
    rw [get?_cons] at h
    split at h
    · next hk =>
      cases h
      simp [hk]
    · exact mem_cons_of_mem _ (ih h)

theorem get?_of_mem (hd : (keys d).Nodup) (h : (key, v) ∈ d) : get? d key = some v := by
  induction d with
  | nil => cases h
  | cons p d ih =>
    obtain ⟨k, w⟩ := p
    obtain ⟨hk, hd⟩ := nodup_cons.mp (show (k :: keys d).Nodup from hd)
    rcases mem_cons.mp h with h | h
    · cases h
      simp [get?_cons]
    · have hne : k ≠ key := by
        rintro rfl
        exact hk (mem_map.mpr ⟨_, h, rfl⟩)
      simp [get?_cons, hne, ih hd h]

/-- The order of the items does not matter where the keys are distinct. -/
theorem get?_perm {d' : Assoc K V} (hd : (keys d).Nodup) (h : d.Perm d') (key : K) :
    get? d key = get? d' key := by
  have hd' : (keys d').Nodup := (h.map Prod.fst).nodup_iff.mp hd
  cases hv : get? d key with
  | some v => exact (get?_of_mem hd' (h.mem_iff.mp (mem_of_get? hv))).symm
  | none =>
    refine (get?_eq_none_iff.mpr fun hk => ?_).symm
    exact get?_eq_none_iff.mp hv ((h.map Prod.fst).mem_iff.mpr hk)

theorem get?_filter (keep : K → Bool) (d : Assoc K V) (key : K) :
    get? (d.filter fun p => keep p.1) key = if keep key then get? d key else none := by
  induction d with
  | nil => simp
  | cons p d ih =>
    obtain ⟨k, v⟩ := p
    by_cases hk : k = key
    · subst hk
      cases hkeep : keep k <;> simp_all [get?_cons]
    · cases hkeep : keep k <;> simp [get?_cons, hk, hkeep, ih]

theorem get?_mapVal {W : Type} (F : K → V → W) (d : Assoc K V) (key : K) :
    get? (d.map fun p => (p.1, F p.1 p.2) : Assoc K W) key = (get? d key).map (F key) := by
  induction d with
  | nil => rfl
  | cons p d ih =>
    obtain ⟨k, v⟩ := p
    rw [map_cons, get?_cons, get?_cons]
    split
    · next hk => rw [hk, Option.map_some]
    · exact ih

theorem set_of_get? (h : get? d key = some v) : set d key v = d := by
  induction d with
  | nil => cases h
  | cons p d ih =>
    obtain ⟨k, w⟩ := p
    rw [get?_cons] at h
    rw [set_cons]
    split at h
    · next hk => rw [if_pos hk, Option.some.inj h]
    · next hk => rw [if_neg hk, ih h]

/-- A known key keeps its place; a new one goes last. -/
theorem keys_set (d : Assoc K V) (key : K) (value : V) :
    keys (set d key value) = if key ∈ keys d then keys d else keys d ++ [key] := by
  induction d with
  | nil => simp [set, keys]
  | cons p d ih =>
    obtain ⟨k, v⟩ := p
    by_cases hk : k = key
    · simp [set_cons, hk, keys]
    · have hk' : ¬ key = k := fun e => hk e.symm
      have hm : key ∈ k :: keys d ↔ key ∈ keys d := by simp [hk']
      rw [set_cons, if_neg hk]
      change k :: keys (set d key value) = if key ∈ k :: keys d then k :: keys d else _
      rw [ih]
      split
      · next h => rw [if_pos (hm.mpr h)]
      · next h =>
        rw [if_neg (fun h' => h (hm.mp h'))]
        rfl

theorem nodup_keys_set (h : (keys d).Nodup) (key : K) (value : V) :
    (keys (set d key value)).Nodup := by
  rw [keys_set]
  split
  · exact h
  · next hk =>
    refine nodup_append.mpr ⟨h, by simp, ?_⟩
    intro a ha b hb hab
    rw [mem_singleton] at hb
    exact hk (hb ▸ hab ▸ ha)

/-- **The accounting rule.**  The old value of the key leaves the sum and the new one enters. -/
theorem sum_set [AddCommMonoid M] (g : V → M) (d : Assoc K V) (key : K) (value : V) :
    ((set d key value).map fun p => g p.2).sum + ((get? d key).map g).getD 0 =
      (d.map fun p => g p.2).sum + g value := by
  induction d with
  | nil => simp [set]
  | cons p d ih =>
    obtain ⟨k, v⟩ := p
    by_cases hk : k = key
    · simp only [set_cons, hk, if_true, get?_cons, map_cons, sum_cons, Option.map_some,
        Option.getD_some]
      exact add_right_comm _ _ _ |>.trans (by rw [add_comm (g value), add_right_comm])
    · simp only [set_cons, hk, if_false, get?_cons, map_cons, sum_cons]
      rw [add_assoc, ih, add_assoc]

/-- A property of the values that a replacement keeps. -/
theorem forall_set {P : V → Prop} (h : ∀ p ∈ d, P p.2) {value : V} (hv : P value) :
    ∀ p ∈ set d key value, P p.2 := by
  induction d with
  | nil =>
    intro p hp
    rw [set, mem_singleton] at hp
    rw [hp]
    exact hv
  | cons q d ih =>
    obtain ⟨k, v⟩ := q
    intro p hp
    rw [set_cons] at hp
    split at hp
    · rcases mem_cons.mp hp with rfl | hp
      · exact hv
      · exact h p (mem_cons_of_mem _ hp)
    · rcases mem_cons.mp hp with rfl | hp
      · exact h _ mem_cons_self
      · exact ih (fun q hq => h q (mem_cons_of_mem _ hq)) p hp

/-- A value that fails the test is replaced. -/
theorem any_set {f : V → Bool} (h : get? d key = some v) (hf : f v = false) (value : V) :
    (set d key value).any (fun p => f p.2) = (d.any (fun p => f p.2) || f value) := by
  induction d with
  | nil => cases h
  | cons p d ih =>
    obtain ⟨k, w⟩ := p
    rw [get?_cons] at h
    rw [set_cons]
    split at h
    · next hk =>
      cases h
      simp [hk, hf, Bool.or_comm]
    · next hk => simp [hk, ih h, Bool.or_assoc]

/-! ### Removing a key -/

/-- `del d[key]`. -/
def erase (d : Assoc K V) (key : K) : Assoc K V := d.filter fun p => p.1 ≠ key

theorem get?_erase (d : Assoc K V) (key key' : K) :
    get? (erase d key) key' = if key' = key then none else get? d key' := by
  rw [erase, get?_filter (fun k => decide (k ≠ key))]
  by_cases h : key' = key <;> simp [h]

theorem nodup_keys_erase (h : (keys d).Nodup) (key : K) : (keys (erase d key)).Nodup :=
  h.sublist (filter_sublist.map _)

theorem erase_of_not_mem (h : key ∉ keys d) : erase d key = d := by
  refine filter_eq_self.mpr fun p hp => decide_eq_true ?_
  rintro rfl
  exact h (mem_map_of_mem hp)

/-- The value of the key leaves the sum. -/
theorem sum_erase [AddCommMonoid M] (g : V → M) (hd : (keys d).Nodup) (key : K) :
    ((erase d key).map fun p => g p.2).sum + ((get? d key).map g).getD 0 =
      (d.map fun p => g p.2).sum := by
  induction d with
  | nil => simp [erase]
  | cons p d ih =>
    obtain ⟨k, v⟩ := p
    obtain ⟨hk, hd⟩ := nodup_cons.mp (show (k :: keys d).Nodup from hd)
    by_cases h : k = key
    · subst h
      have herase : erase ((k, v) :: d) k = d := by
        rw [erase, filter_cons_of_neg (by simp)]
        exact erase_of_not_mem hk
      simp [herase, get?_cons, add_comm]
    · have herase : erase ((k, v) :: d) key = (k, v) :: erase d key :=
        filter_cons_of_pos (by simpa using h)
      simp only [herase, get?_cons, if_neg h, map_cons, sum_cons]
      rw [add_assoc, ih hd]

/-! ### Dictionaries of pairs -/

/-- `{key: value for key, value in pairs}`. -/
def ofPairs (pairs : List (K × V)) : Assoc K V := pairs.foldl (fun d p => set d p.1 p.2) []

theorem set_of_not_mem (h : key ∉ keys d) (value : V) : set d key value = d ++ [(key, value)] := by
  induction d with
  | nil => rfl
  | cons p d ih =>
    obtain ⟨k, v⟩ := p
    have hk : k ≠ key := fun e => h (e ▸ mem_cons_self)
    rw [set_cons, if_neg hk, ih fun hm => h (mem_cons_of_mem _ hm)]
    rfl

theorem ofPairs_of_nodup {pairs : List (K × V)} (h : (pairs.map Prod.fst).Nodup) :
    ofPairs pairs = pairs := by
  have hfold : ∀ {ps : List (K × V)} {d : Assoc K V}, ((d ++ ps).map Prod.fst).Nodup →
      ps.foldl (fun d p => set d p.1 p.2) d = d ++ ps := by
    intro ps
    induction ps with
    | nil =>
      intro d _
      exact (append_nil d).symm
    | cons p ps ih =>
      intro d hd
      have hnew : p.1 ∉ keys d := by
        rw [map_append, map_cons] at hd
        exact fun hm => (nodup_append.mp hd).2.2 _ hm _ mem_cons_self rfl
      have hcons : d ++ p :: ps = (d ++ [p]) ++ ps := by simp
      rw [foldl_cons, set_of_not_mem hnew, hcons]
      rw [hcons] at hd
      exact ih hd
  exact hfold (d := []) h

/-- Looked up under distinct keys, all of its own among them, the values have the same sum. -/
theorem sum_get? [AddCommGroup M] (g : V → M) (hd : (keys d).Nodup) {ks : List K} (hks : ks.Nodup)
    (hsub : ∀ k ∈ keys d, k ∈ ks) :
    (ks.map fun k => ((get? d k).map g).getD 0).sum = (d.map fun p => g p.2).sum := by
  induction d with
  | nil => simp
  | cons p d ih =>
    obtain ⟨k, v⟩ := p
    obtain ⟨hk, hd⟩ := nodup_cons.mp (show (k :: keys d).Nodup from hd)
    have hnone : get? d k = none := get?_eq_none_iff.mpr hk
    have hsplit : ∀ key, ((get? ((k, v) :: d) key).map g).getD 0 =
        (if key = k then g v else 0) + ((get? d key).map g).getD 0 := by
      intro key
      by_cases he : key = k
      · subst he
        simp [get?_cons, hnone]
      · have he' : ¬ k = key := fun e => he e.symm
        simp [get?_cons, he, he']
    have hone : (ks.map fun key => if key = k then g v else 0).sum = g v := by
      have hmem : k ∈ ks := hsub k mem_cons_self
      rw [sum_map_ite_eq ks (fun _ => g v) (fun _ => 0), hks.count, if_pos hmem]
      rw [one_nsmul, sub_zero, map_const', sum_replicate, nsmul_zero, add_zero]
    simp only [hsplit, sum_map_add, map_cons, sum_cons, hone]
    rw [ih hd fun key hkey => hsub key (mem_cons_of_mem _ hkey)]

/-! ### Updates -/

/-- `d[key] = change(d.get(key))`. -/
def update (d : Assoc K V) (u : K × (Option V → V)) : Assoc K V := set d u.1 (u.2 (get? d u.1))

theorem keys_update (us : List (K × (Option V → V))) :
    keys (us.foldl update []) = (us.map Prod.fst).eraseDups := by
  induction us using List.reverseRecOn with
  | nil => rfl
  | append_singleton us u ih =>
    rw [foldl_concat, update, keys_set, ih, map_append, eraseDups_append, removeAll, map_singleton]
    by_cases h : u.1 ∈ us.map Prod.fst
    · rw [if_pos (mem_eraseDups.mpr h), filter_singleton]
      simp [h]
    · rw [if_neg (mt mem_eraseDups.mp h), filter_singleton]
      simp [h, eraseDups_cons]

/-- What is under a key comes from its own updates. -/
theorem get?_update (us : List (K × (Option V → V))) (key : K) :
    get? (us.foldl update []) key =
      (us.filter (·.1 = key)).foldl (fun v u => some (u.2 v)) none := by
  induction us using List.reverseRecOn with
  | nil => rfl
  | append_singleton us u ih =>
    rw [foldl_concat, update, get?_set, filter_append]
    by_cases h : u.1 = key
    · simp [h, ih]
    · simp [h, Ne.symm h, ih]

theorem filterMap_keys (hd : (keys d).Nodup) :
    ((keys d).filterMap fun key => (get? d key).map (key, ·)) = d := by
  rw [keys, filterMap_map]
  refine (filterMap_congr fun p hp => ?_).trans filterMap_some
  rw [Function.comp, get?_of_mem hd hp]
  rfl
/-- A dictionary that is only updated: the keys in the order of their first updates, each with what
its own updates made. -/
theorem foldl_update (us : List (K × (Option V → V))) :
    us.foldl update [] = (us.map Prod.fst).eraseDups.filterMap fun key =>
      ((us.filter (·.1 = key)).foldl (fun v u => some (u.2 v)) none).map (key, ·) := by
  have hd : (keys (us.foldl update [])).Nodup := by
    induction us using List.reverseRecOn with
    | nil => exact nodup_nil
    | append_singleton us u ih =>
      rw [foldl_concat]
      exact nodup_keys_set ih _ _
  refine (filterMap_keys hd).symm.trans ?_
  simp only [keys_update, get?_update]

end Assoc

end KolegaCode
