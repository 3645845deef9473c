import KolegaCode.Lib.Assoc
import Mathlib.Data.List.Nodup

/-!
# Lib — tables of open registrations

Registrations are numbered in the order in which they come; a table has the open ones by a key.  A
key may be used again once its registration has been taken out, so an entry found under it need not
be the registration one has in mind: `IsOpen` asks for the number.
-/

namespace KolegaCode

variable {K V : Type} [DecidableEq K]

/-- What has been registered, by number, and the table of what is open. -/
structure Pending (key : V → K) where
  issued : List V
  table : Assoc K Nat
  nodup : table.keys.Nodup
  sound : ∀ k n, table.get? k = some n → (issued[n]?).map key = some k

namespace Pending

variable {key : V → K}

def empty (key : V → K) : Pending key where
  issued := []
  table := []
  nodup := List.nodup_nil
  sound := nofun

/-- The entry under a key. -/
def get? (p : Pending key) (k : K) : Option Nat := p.table.get? k

def size (p : Pending key) : Nat := p.table.length

/-- A registration more, under its key. -/
def register (p : Pending key) (v : V) : Pending key where
  issued := p.issued ++ [v]
  table := p.table.set (key v) p.issued.length
  nodup := Assoc.nodup_keys_set p.nodup _ _
  sound := by
    intro k n h
    rw [Assoc.get?_set] at h
    split at h
    · next heq =>
      rw [← Option.some.inj h, heq, List.getElem?_concat_length]
      rfl
    · have hold := p.sound k n h
      have hlt : n < p.issued.length := by
        rw [Option.map_eq_some_iff] at hold
        obtain ⟨v', hv', -⟩ := hold
        exact (List.getElem?_eq_some_iff.mp hv').1
      rw [List.getElem?_append_left hlt, hold]

/-- The table without the entry of a key. -/
def drop (p : Pending key) (k : K) : Pending key where
  issued := p.issued
  table := p.table.erase k
  nodup := Assoc.nodup_keys_erase p.nodup k
  sound := by
    intro k' n h
    rw [Assoc.get?_erase] at h
    split at h
    · cases h
    · exact p.sound k' n h

/-- The numbers of the registrations that are open. -/
def numbers (p : Pending key) : List Nat := p.table.map Prod.snd

def clear (p : Pending key) : Pending key where
  issued := p.issued
  table := []
  nodup := List.nodup_nil
  sound := nofun

/-- The registration of a number is in the table. -/
def IsOpen (p : Pending key) (n : Nat) : Prop :=
  (p.issued[n]?).bind (fun v => p.get? (key v)) = some n

instance (p : Pending key) (n : Nat) : Decidable (p.IsOpen n) :=
  inferInstanceAs (Decidable (_ = _))

/-! ### What is open -/

variable {p : Pending key} {n : Nat} {v : V}

theorem isOpen_iff : p.IsOpen n ↔ ∃ k, p.get? k = some n := by
  constructor
  · intro h
    obtain ⟨v, -, hv⟩ := Option.bind_eq_some_iff.mp h
    exact ⟨key v, hv⟩
  · rintro ⟨k, hk⟩
    obtain ⟨v, hv, rfl⟩ := Option.map_eq_some_iff.mp (p.sound k n hk)
    exact Option.bind_eq_some_iff.mpr ⟨v, hv, hk⟩

theorem isOpen_iff_of_issued (h : p.issued[n]? = some v) :
    p.IsOpen n ↔ p.get? (key v) = some n := by
  rw [IsOpen, h]
  rfl

theorem IsOpen.lt (h : p.IsOpen n) : n < p.issued.length := by
  obtain ⟨v, hv, -⟩ := Option.bind_eq_some_iff.mp h
  exact (List.getElem?_eq_some_iff.mp hv).1

/-- Under the key of one registration stands no other. -/
theorem key_eq {k : K} (h : p.get? k = some n) (hv : p.issued[n]? = some v) : key v = k := by
  have hsound := p.sound k n h
  rw [hv] at hsound
  exact Option.some.inj hsound

theorem exists_issued {k : K} (h : p.get? k = some n) : ∃ v, p.issued[n]? = some v ∧ key v = k := by
  obtain ⟨v, hv, hkey⟩ := Option.map_eq_some_iff.mp (p.sound k n h)
  exact ⟨v, hv, hkey⟩

theorem mem_numbers : n ∈ p.numbers ↔ p.IsOpen n := by
  rw [isOpen_iff, numbers, List.mem_map]
  constructor
  · rintro ⟨⟨k, m⟩, hmem, rfl⟩
    exact ⟨k, Assoc.get?_of_mem p.nodup hmem⟩
  · rintro ⟨k, hk⟩
    exact ⟨(k, n), Assoc.mem_of_get? hk, rfl⟩

/-- No registration stands under two keys. -/
theorem nodup_numbers (p : Pending key) : p.numbers.Nodup := by
  refine List.Nodup.map_on (fun a ha b hb heq => ?_) (List.Nodup.of_map Prod.fst p.nodup)
  obtain ⟨v, hv, hkey⟩ := exists_issued (p := p) (Assoc.get?_of_mem p.nodup ha)
  have hkey' := key_eq (p := p) (Assoc.get?_of_mem p.nodup hb) (heq ▸ hv)
  exact Prod.ext (hkey.symm.trans hkey') heq

/-! ### What the operations do to it -/

theorem isOpen_register (h : p.get? (key v) = none) :
    (p.register v).IsOpen n ↔ p.IsOpen n ∨ n = p.issued.length := by
  have hget : ∀ k, (p.register v).get? k =
      if k = key v then some p.issued.length else p.get? k := fun k => Assoc.get?_set _ _ _ _
  rw [isOpen_iff, isOpen_iff]
  constructor
  · rintro ⟨k, hk⟩
    rw [hget] at hk
    split at hk
    · exact .inr (Option.some.inj hk).symm
    · exact .inl ⟨k, hk⟩
  · rintro (⟨k, hk⟩ | rfl)
    · refine ⟨k, ?_⟩
      rw [hget, if_neg, hk]
      rintro rfl
      rw [h] at hk
      cases hk
    · exact ⟨key v, by rw [hget, if_pos rfl]⟩

theorem isOpen_drop {k : K} {m : Nat} (h : p.get? k = some m) :
    (p.drop k).IsOpen n ↔ p.IsOpen n ∧ n ≠ m := by
  have hget : ∀ k', (p.drop k).get? k' = if k' = k then none else p.get? k' :=
    fun k' => Assoc.get?_erase _ _ _
  rw [isOpen_iff, isOpen_iff]
  constructor
  · rintro ⟨k', hk'⟩
    rw [hget] at hk'
    split at hk'
    · cases hk'
    · next hne =>
      refine ⟨⟨k', hk'⟩, ?_⟩
      rintro rfl
      obtain ⟨v, hv, hkey⟩ := exists_issued h
      exact hne ((key_eq hk' hv).symm.trans hkey)
  · rintro ⟨⟨k', hk'⟩, hne⟩
    refine ⟨k', ?_⟩
    rw [hget, if_neg, hk']
    rintro rfl
    exact hne (Option.some.inj (hk'.symm.trans h))

theorem not_isOpen_clear (p : Pending key) (n : Nat) : ¬ p.clear.IsOpen n := by
  rw [isOpen_iff]
  rintro ⟨k, hk⟩
  cases hk

theorem size_register (h : p.get? (key v) = none) : (p.register v).size = p.size + 1 := by
  have hset := Assoc.set_of_not_mem (Assoc.get?_eq_none_iff.mp h) p.issued.length
  calc (p.register v).size = (p.table ++ [(key v, p.issued.length)]).length := congrArg _ hset
    _ = p.size + 1 := List.length_append

theorem size_drop_le (p : Pending key) (k : K) : (p.drop k).size ≤ p.size := List.length_filter_le _ _

end Pending

end KolegaCode
