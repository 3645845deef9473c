import Mathlib.Data.List.Perm.Basic
import Mathlib.Algebra.Order.Ring.Int

/-!
# Lib — a pass that remembers one value

Ranked values are read one after the other, and one value is remembered with its rank.  A value of
another rank replaces it or not by its rank, an equal value always replaces it and brings its own
rank, and two different values of one rank make the pass ambiguous for good.
-/

namespace KolegaCode.Remembered

open List Option

variable {ρ : Type} [DecidableEq ρ]

/-- What is remembered, and whether two values were in conflict. -/
structure Memory (ρ : Type) where
  kept : Option (ρ × Int) := none
  ambiguous : Bool := false

def step (s : Memory ρ) (e : ρ × Int) : Memory ρ :=
  match s.kept with
  | none => ⟨some e, s.ambiguous⟩
  | some k =>
    if k.1 = e.1 then ⟨some e, s.ambiguous⟩
    else if e.2 = k.2 then ⟨some e, true⟩
    else if e.2 < k.2 then s
    else ⟨some e, s.ambiguous⟩

def runFrom (s : Memory ρ) (l : List (ρ × Int)) : Memory ρ := l.foldl step s

def run (l : List (ρ × Int)) : Memory ρ := runFrom {} l

/-- The value that is left. -/
def Memory.value (s : Memory ρ) : Option ρ := s.kept.map Prod.fst

/-! ### Highest ranks -/

variable {l : List (ρ × Int)}

/-- An entry of the highest rank. -/
def Top (l : List (ρ × Int)) (x : ρ × Int) : Prop := x ∈ l ∧ ∀ y ∈ l, y.2 ≤ x.2

/-- Two entries of the highest rank have different values. -/
def Conflict (l : List (ρ × Int)) : Prop := ∃ x y, Top l x ∧ Top l y ∧ x.1 ≠ y.1

/-- The pass finds what the highest rank says, and the order of the entries does not matter. -/
structure OrderFree (l : List (ρ × Int)) : Prop where
  ambiguous_iff : (run l).ambiguous = true ↔ Conflict l
  value_eq : ¬ Conflict l → ∀ x, Top l x → (run l).value = some x.1
  perm : ∀ l', l'.Perm l →
    (run l').value = (run l).value ∧ (run l').ambiguous = (run l).ambiguous

/-- One rank has one value, and the value of the highest rank outranks the others wherever it
stands. -/
structure Ranked (l : List (ρ × Int)) : Prop where
  same : ∀ x ∈ l, ∀ y ∈ l, x.2 = y.2 → x.1 = y.1
  outranks : ∀ x, Top l x → ∀ y ∈ l, y.1 = x.1 → ∀ z ∈ l, z.1 ≠ x.1 → z.2 < y.2

omit [DecidableEq ρ] in
theorem Ranked.no_conflict (h : Ranked l) : ¬ Conflict l := by
  rintro ⟨x, y, hx, hy, hne⟩
  exact hne (h.same x hx.1 y hy.1 (le_antisymm (hy.2 x hx.1) (hx.2 y hy.1)))

omit [DecidableEq ρ] in
theorem Top.perm {l' : List (ρ × Int)} (hperm : l'.Perm l) {x : ρ × Int} (h : Top l x) : Top l' x :=
  ⟨hperm.mem_iff.mpr h.1, fun y hy => h.2 y (hperm.mem_iff.mp hy)⟩

omit [DecidableEq ρ] in
theorem Ranked.perm {l' : List (ρ × Int)} (hperm : l'.Perm l) (h : Ranked l) : Ranked l' :=
  ⟨fun x hx y hy => h.same x (hperm.mem_iff.mp hx) y (hperm.mem_iff.mp hy),
    fun x hx y hy hyx z hz =>
      h.outranks x (hx.perm hperm.symm) y (hperm.mem_iff.mp hy) hyx z (hperm.mem_iff.mp hz)⟩

/-! ### Single steps -/

/-- An entry that nothing outranks is kept. -/
theorem step_kept {s : Memory ρ} {e : ρ × Int} (h : ∀ k ∈ s.kept, k.1 ≠ e.1 → k.2 ≤ e.2) :
    (step s e).kept = some e := by
  unfold step
  split
  · rfl
  · next k hk =>
    split
    · rfl
    · next hne =>
      have hle := h k hk hne
      split
      · rfl
      · rw [if_neg (not_lt.mpr hle)]

theorem step_ambiguous {s : Memory ρ} {e : ρ × Int} (h : s.ambiguous = true) :
    (step s e).ambiguous = true := by
  unfold step
  split
  · exact h
  · split_ifs <;> first | exact h | rfl

theorem step_clear {s : Memory ρ} {e : ρ × Int} (h : ∀ k ∈ s.kept, e.2 = k.2 → k.1 = e.1) :
    (step s e).ambiguous = s.ambiguous := by
  unfold step
  split
  · rfl
  · next k hk =>
    split
    · rfl
    · next hne =>
      split
      · next heq => exact absurd (h k hk heq) hne
      · split <;> rfl

theorem runFrom_ambiguous {s : Memory ρ} (h : s.ambiguous = true) :
    (runFrom s l).ambiguous = true := by
  induction l generalizing s with
  | nil => exact h
  | cons e l ih => exact ih (step_ambiguous h)

theorem runFrom_append (s : Memory ρ) (l l' : List (ρ × Int)) :
    runFrom s (l ++ l') = runFrom (runFrom s l) l' := foldl_append

/-- What is remembered is an entry, or was remembered before. -/
theorem step_mem {s : Memory ρ} {e k : ρ × Int} (h : k ∈ (step s e).kept) : k = e ∨ k ∈ s.kept := by
  unfold step at h
  split at h
  · exact .inl (Option.some.inj h).symm
  · split_ifs at h
    · exact .inl (Option.some.inj h).symm
    · exact .inl (Option.some.inj h).symm
    · exact .inr h
    · exact .inl (Option.some.inj h).symm

theorem isSome_runFrom {s : Memory ρ} (h : s.kept.isSome = true) :
    (runFrom s l).kept.isSome = true := by
  induction l generalizing s with
  | nil => exact h
  | cons e l ih =>
    refine ih ?_
    unfold step
    split
    · rfl
    · split_ifs <;> first | exact h | rfl

theorem exists_value {x : ρ × Int} (h : x ∈ l) : ∃ r, (run l).value = some r := by
  obtain ⟨e, es, rfl⟩ := exists_cons_of_ne_nil (ne_nil_of_mem h)
  obtain ⟨k, hk⟩ := isSome_iff_exists.mp
    (isSome_runFrom (l := es) (s := step {} e) (isSome_some))
  exact ⟨k.1, congrArg (Option.map Prod.fst) hk⟩

/-! ### Enough -/

/-- Over entries of a ranked list nothing is ambiguous, and the value of the highest rank stays
once it was read. -/
theorem Ranked.runFrom (h : Ranked l) {x : ρ × Int} (hx : Top l x) {m : List (ρ × Int)}
    (hm : ∀ e ∈ m, e ∈ l) {s : Memory ρ} (hs : ∀ k ∈ s.kept, k ∈ l) :
    (runFrom s m).ambiguous = s.ambiguous ∧
      ((∃ k ∈ s.kept, k.1 = x.1) ∨ x ∈ m → (runFrom s m).value = some x.1) := by
  induction m generalizing s with
  | nil =>
    refine ⟨rfl, fun hk => ?_⟩
    obtain ⟨k, hk, hkx⟩ := hk.resolve_right not_mem_nil
    rw [Memory.value, Remembered.runFrom, foldl_nil, mem_def.mp hk, ← hkx]
    rfl
  | cons e m ih =>
    obtain ⟨he, hm⟩ := forall_mem_cons.mp hm
    have hs' : ∀ k ∈ (step s e).kept, k ∈ l := fun k hk =>
      (step_mem hk).elim (fun hke => hke ▸ he) (hs k)
    obtain ⟨hamb, hval⟩ := ih hm hs'
    refine ⟨hamb.trans (step_clear fun k hk heq => h.same k (hs k hk) e he heq.symm), fun hk => ?_⟩
    refine hval ?_
    rcases hk with ⟨k, hk, hkx⟩ | hk
    · by_cases hex : e.1 = x.1
      · refine .inl ⟨e, step_kept fun k' hk' hne => ?_, hex⟩
        rw [Option.mem_unique hk' hk, hkx, hex] at hne
        exact absurd rfl hne
      · -- another value is outranked by what is remembered
        have hlt := h.outranks x hx k (hs k hk) hkx e he hex
        refine .inl ⟨k, ?_, hkx⟩
        unfold step
        rw [mem_def.mp hk]
        simp [hkx, Ne.symm hex, hlt.ne, hlt, mem_def.mp hk]
    · rcases mem_cons.mp hk with rfl | hk
      · exact .inl ⟨x, step_kept fun k hk _ => hx.2 k (hs k hk), rfl⟩
      · exact .inr hk

theorem Ranked.run (h : Ranked l) {x : ρ × Int} (hx : Top l x) :
    (run l).ambiguous = false ∧ (run l).value = some x.1 := by
  obtain ⟨hamb, hval⟩ := h.runFrom hx (fun _ he => he) (s := {}) nofun
  exact ⟨hamb, hval (.inr hx.1)⟩

omit [DecidableEq ρ] in
theorem exists_top (h : l ≠ []) : ∃ x, Top l x := by
  induction l with
  | nil => exact absurd rfl h
  | cons e l ih =>
    rcases eq_or_ne l [] with rfl | hl
    · exact ⟨e, mem_singleton_self e, fun y hy => by rw [mem_singleton.mp hy]⟩
    · obtain ⟨x, hx, hmax⟩ := ih hl
      rcases le_total x.2 e.2 with hle | hle
      · exact ⟨e, mem_cons_self, forall_mem_cons.mpr ⟨le_rfl, fun y hy => (hmax y hy).trans hle⟩⟩
      · exact ⟨x, mem_cons_of_mem e hx, forall_mem_cons.mpr ⟨hle, hmax⟩⟩

/-! ### Necessary -/

/-- The last entry is kept when nothing outranks it. -/
theorem run_last {m : List (ρ × Int)} {x : ρ × Int} (h : ∀ y ∈ m, y.2 ≤ x.2) :
    (run (m ++ [x])).kept = some x := by
  have hmem : ∀ {m : List (ρ × Int)} {s : Memory ρ} {k}, k ∈ (runFrom s m).kept →
      k ∈ m ∨ k ∈ s.kept := by
    intro m
    induction m with
    | nil => exact fun hk => .inr hk
    | cons e m ih =>
      intro s k hk
      rcases ih hk with hk | hk
      · exact .inl (mem_cons_of_mem e hk)
      · rcases step_mem hk with rfl | hk
        · exact .inl mem_cons_self
        · exact .inr hk
  rw [run, runFrom_append]
  exact step_kept fun k hk _ => h k ((hmem hk).resolve_right nofun)

theorem OrderFree.no_conflict (h : OrderFree l) : ¬ Conflict l := by
  rintro ⟨x, y, hx, hy, hne⟩
  have hlast : ∀ {x}, Top l x → (run l).value = some x.1 := by
    intro x hx
    obtain ⟨a, b, rfl⟩ := append_of_mem hx.1
    have hperm : (a ++ b ++ [x]).Perm (a ++ x :: b) :=
      (perm_append_singleton x (a ++ b)).trans perm_middle.symm
    rw [← (h.perm _ hperm).1, Memory.value, run_last fun y hy => hx.2 y (by simp_all; tauto)]
    rfl
  exact hne (Option.some.inj ((hlast hx).symm.trans (hlast hy)))

/-- **When the order does not matter**: exactly when one rank has one value, and the value of the
highest rank outranks every other wherever it stands. -/
theorem orderFree_iff (l : List (ρ × Int)) : OrderFree l ↔ Ranked l := by
  constructor
  · intro h
    have hclear : ∀ l', l'.Perm l → (run l').ambiguous = false := fun l' hperm => by
      rw [(h.perm l' hperm).2, ← Bool.not_eq_true, h.ambiguous_iff]
      exact h.no_conflict
    have hsame : ∀ x ∈ l, ∀ y ∈ l, x.2 = y.2 → x.1 = y.1 := by
      intro x hx y hy heq
      by_contra hne
      have hyx : y ∈ l.erase x :=
        (mem_erase_of_ne (Ne.symm (ne_of_apply_ne Prod.fst hne))).mpr hy
      have hperm : (x :: y :: (l.erase x).erase y).Perm l :=
        ((perm_cons_erase hyx).symm.cons x).trans (perm_cons_erase hx).symm
      have hfalse := hclear _ hperm
      rw [run, runFrom, foldl_cons, foldl_cons, ← runFrom, runFrom_ambiguous] at hfalse
      · cases hfalse
      · simp [step, hne, heq.symm]
    refine ⟨hsame, fun x hx y hy hyx z hz hzx => ?_⟩
    by_contra hlt
    have hyz : y.2 < z.2 := lt_of_le_of_ne (not_lt.mp hlt) fun heq =>
      hzx ((hsame y hy z hz heq).symm.trans hyx)
    -- `x`, then `y`, which forgets the rank of `x`, then `z`
    have hxy : y ≠ x := fun hxy => absurd (hx.2 z hz) (not_le.mpr (hxy ▸ hyz))
    have hzy : z ≠ y := fun hzy => hzx (hzy ▸ hyx)
    have hzx' : z ≠ x := fun h => hzx (h ▸ rfl)
    have hy' : y ∈ l.erase x := (mem_erase_of_ne hxy).mpr hy
    have hz' : z ∈ (l.erase x).erase y :=
      (mem_erase_of_ne hzy).mpr ((mem_erase_of_ne hzx').mpr hz)
    have hperm : ((((l.erase x).erase y).erase z ++ [x]) ++ [y, z]).Perm l := by
      refine List.Perm.trans ?_ (((perm_cons_erase hz').symm.cons y).cons x |>.trans
        (((perm_cons_erase hy').symm.cons x).trans (perm_cons_erase hx.1).symm))
      rw [append_assoc]
      exact perm_append_comm
    have hkept := run_last (m := ((l.erase x).erase y).erase z) (x := x) fun w hw =>
      hx.2 w (mem_of_mem_erase (mem_of_mem_erase (mem_of_mem_erase hw)))
    have hval := (h.perm _ hperm).1
    rw [h.value_eq h.no_conflict x hx, run, runFrom_append, ← run] at hval
    simp [runFrom, step, hkept, hyx, Memory.value, Ne.symm hzx, hyz.ne', not_lt.mpr hyz.le,
      hzx] at hval
  · intro h
    refine ⟨⟨fun hamb => ?_, fun hc => absurd hc h.no_conflict⟩, fun _ x hx => (h.run hx).2,
      fun l' hperm => ?_⟩
    · rcases eq_or_ne l [] with rfl | hne
      · cases hamb
      · obtain ⟨x, hx⟩ := exists_top hne
        rw [(h.run hx).1] at hamb
        cases hamb
    · rcases eq_or_ne l [] with rfl | hne
      · rw [hperm.eq_nil]
        exact ⟨rfl, rfl⟩
      · obtain ⟨x, hx⟩ := exists_top hne
        obtain ⟨hamb, hval⟩ := h.run hx
        obtain ⟨hamb', hval'⟩ := (h.perm hperm).run (hx.perm hperm)
        exact ⟨hval'.trans hval.symm, hamb'.trans hamb.symm⟩

end KolegaCode.Remembered
