import KolegaCode.Lib.Patch

/-!
# Lib — following a line through patches

`trackAll i ps` follows the line at position `i` through the patches `ps` by line counts alone: a
patch in front of it moves it by the number of lines it adds or removes, a patch behind it leaves
it, and a range that reaches over it removes it.  Ranges may overlap.
-/

namespace KolegaCode

open List

variable {α : Type}

/-- The position of line `i` after a splice of `m` lines at `lo:hi`, unless the splice removes
it. -/
def shift (lo hi m i : Nat) : Option Nat :=
  if i < lo then some i else if max lo hi ≤ i then some (i - (max lo hi - lo) + m) else none

/-- The length of a list of `n` lines after a splice of `m` lines at `lo:hi`. -/
def spliceLength (lo hi m n : Nat) : Nat := min lo n + m + (n - max lo hi)

theorem length_splice (xs : List α) (lo hi : Nat) (c : List α) :
    (splice xs lo hi c).length = spliceLength lo hi c.length xs.length := by
  rw [splice, spliceLength, length_append, length_append, length_take, length_drop]

/-- A line that a splice does not remove stands where `shift` says. -/
theorem splice_of_shift_some {l r c : List α} {x : α} {lo hi i : Nat}
    (h : shift lo hi c.length l.length = some i) :
    ∃ l' r', splice (l ++ x :: r) lo hi c = l' ++ x :: r' ∧ l'.length = i ∧
      (∀ y ∈ l', y ∈ l ∨ y ∈ c) ∧ ∀ y ∈ r', y ∈ r ∨ y ∈ c := by
  rw [shift] at h
  split at h
  · rename_i hlt
    cases h
    refine ⟨l, r.take (lo - l.length - 1) ++ c ++ r.drop (max lo hi - l.length - 1), ?_, rfl,
      fun y hy => .inl hy, fun y hy => ?_⟩
    · have hlo : lo - l.length = lo - l.length - 1 + 1 := by omega
      have hhi : max lo hi - l.length = max lo hi - l.length - 1 + 1 := by omega
      rw [splice, take_append, take_of_length_le hlt.le, hlo, take_succ_cons,
        drop_append, drop_eq_nil_of_le (by omega), hhi, drop_succ_cons]
      simp
    · rw [mem_append, mem_append] at hy
      rcases hy with (hy | hy) | hy
      · exact .inl (mem_of_mem_take hy)
      · exact .inr hy
      · exact .inl (mem_of_mem_drop hy)
  · split at h
    · rename_i hlo hhi
      cases h
      refine ⟨splice l lo hi c, r, ?_, ?_, fun y hy => ?_, fun y hy => .inl hy⟩
      · rw [splice, splice, take_append_of_le_length (by omega),
          drop_append_of_le_length hhi, append_assoc, append_assoc, append_assoc]
      · rw [length_splice, spliceLength]
        omega
      · simpa using (splice_subperm _ _ _ _).subset hy
    · cases h

/-- A line that a splice removes is gone. -/
theorem splice_of_shift_none {l r c : List α} {x : α} {lo hi : Nat}
    (h : shift lo hi c.length l.length = none) :
    ∀ y ∈ splice (l ++ x :: r) lo hi c, y ∈ l ∨ y ∈ r ∨ y ∈ c := by
  rw [shift] at h
  split at h
  · cases h
  · split at h
    · cases h
    · rename_i hlo hhi
      intro y hy
      rw [splice, take_append_of_le_length (by omega), drop_append, drop_eq_nil_of_le (by omega),
        show max lo hi - l.length = max lo hi - l.length - 1 + 1 by omega,
        drop_succ_cons] at hy
      rw [nil_append, mem_append, mem_append] at hy
      rcases hy with (hy | hy) | hy
      · exact .inl (mem_of_mem_take hy)
      · exact .inr (.inr hy)
      · exact .inr (.inl (mem_of_mem_drop hy))

namespace Patch

/-- The position of line `i` after a patch, unless the patch removes it. -/
def track (i : Nat) : Patch α → Option Nat
  | range a b c => shift (a - 1) b c.length i
  | after k c => shift k k c.length i
  | before k c => shift (k - 1) (k - 1) c.length i
  | atEnd _ => some i

/-- The position of line `i` after all patches, unless one removes it. -/
def trackAll (i : Nat) : List (Patch α) → Option Nat
  | [] => some i
  | p :: ps => (p.track i).bind fun i => trackAll i ps

/-- The number of lines after a patch of `n` lines. -/
def count (n : Nat) : Patch α → Nat
  | range a b c => spliceLength (a - 1) b c.length n
  | after k c => spliceLength k k c.length n
  | before k c => spliceLength (k - 1) (k - 1) c.length n
  | atEnd c => n + c.length

/-- The number of lines after all patches. -/
def countAll (n : Nat) (ps : List (Patch α)) : Nat := ps.foldl count n

theorem length_run (xs : List α) (p : Patch α) : (p.run xs).length = p.count xs.length := by
  cases p with
  | range a b c | after k c | before k c => exact length_splice _ _ _ _
  | atEnd c => exact length_append

theorem length_runAll (ps : List (Patch α)) :
    ∀ xs : List α, (runAll xs ps).length = countAll xs.length ps := by
  induction ps with
  | nil =>
    intro xs
    rfl
  | cons p ps ih =>
    intro xs
    rw [runAll_cons, ih, length_run]
    rfl

variable {x : α} {p : Patch α} {xs : List α} {ps : List (Patch α)}

theorem run_of_track_some {l r : List α} {i : Nat} (h : p.track l.length = some i) :
    ∃ l' r', p.run (l ++ x :: r) = l' ++ x :: r' ∧ l'.length = i ∧
      (∀ y ∈ l', y ∈ l ∨ y ∈ p.content) ∧ ∀ y ∈ r', y ∈ r ∨ y ∈ p.content := by
  cases p with
  | range a b c | after k c | before k c => exact splice_of_shift_some h
  | atEnd c =>
    cases h
    exact ⟨l, r ++ c, by simp [run], rfl, fun y hy => .inl hy, fun y hy => mem_append.mp hy⟩

theorem run_of_track_none {l r : List α} (h : p.track l.length = none) :
    ∀ y ∈ p.run (l ++ x :: r), y ∈ l ∨ y ∈ r ∨ y ∈ p.content := by
  cases p with
  | range a b c | after k c | before k c => exact splice_of_shift_none h
  | atEnd c => cases h

theorem run_subset (h : x ∈ p.run xs) : x ∈ xs ++ p.content := by
  cases p with
  | range a b c | after k c | before k c => exact (splice_subperm _ _ _ _).subset h
  | atEnd c => exact h

theorem not_mem_runAll : ∀ {xs : List α}, x ∉ xs → x ∉ ps.flatMap content → x ∉ runAll xs ps := by
  induction ps with
  | nil =>
    intro xs hx _
    exact hx
  | cons p ps ih =>
    intro xs hx hc
    rw [flatMap_cons, mem_append, not_or] at hc
    refine ih (fun hm => ?_) hc.2
    rcases mem_append.mp (run_subset hm) with hm | hm
    · exact hx hm
    · exact hc.1 hm

theorem mem_runAll_iff :
    ∀ {l r : List α}, x ∉ l → x ∉ r → x ∉ ps.flatMap content →
      (x ∈ runAll (l ++ x :: r) ps ↔ (trackAll l.length ps).isSome = true) := by
  induction ps with
  | nil =>
    intro l r _ _ _
    simp [trackAll]
  | cons p ps ih =>
    intro l r hl hr hc
    rw [flatMap_cons, mem_append, not_or] at hc
    rw [runAll_cons, trackAll]
    cases ht : p.track l.length with
    | none =>
      refine iff_of_false (not_mem_runAll (fun hm => ?_) hc.2) (by simp)
      rcases run_of_track_none ht x hm with hm | hm | hm
      · exact hl hm
      · exact hr hm
      · exact hc.1 hm
    | some i =>
      obtain ⟨l', r', hrun, rfl, hl', hr'⟩ := run_of_track_some (r := r) (x := x) ht
      rw [hrun]
      refine ih (fun hm => ?_) (fun hm => ?_) hc.2
      · exact (hl' x hm).elim hl hc.1
      · exact (hr' x hm).elim hr hc.1

section Filter

variable {keep : α → Bool}

theorem filter_splice_sublist {c : List α} (lo hi : Nat) (hc : ∀ x ∈ c, keep x = false) :
    ((splice xs lo hi c).filter keep).Sublist (xs.filter keep) := by
  have hc' : c.filter keep = [] := filter_eq_nil_iff.mpr (by simpa using hc)
  have hs : (xs.take lo ++ xs.drop (max lo hi)).Sublist xs := by
    conv_rhs => rw [← take_append_drop lo xs]
    exact (List.Sublist.refl _).append (drop_sublist_drop_left xs (Nat.le_max_left lo hi))
  rw [splice, filter_append, filter_append, hc', append_nil, ← filter_append]
  exact hs.filter keep

theorem filter_run_sublist (hc : ∀ x ∈ p.content, keep x = false) :
    ((p.run xs).filter keep).Sublist (xs.filter keep) := by
  cases p with
  | range a b c | after k c | before k c => exact filter_splice_sublist _ _ hc
  | atEnd c =>
    rw [run, filter_append_of_dropped (c := c) hc]

theorem filter_runAll_sublist :
    ∀ {xs : List α}, (∀ x ∈ ps.flatMap content, keep x = false) →
      ((runAll xs ps).filter keep).Sublist (xs.filter keep) := by
  induction ps with
  | nil =>
    intro xs _
    exact List.Sublist.refl _
  | cons p ps ih =>
    intro xs hc
    rw [flatMap_cons, forall_mem_append] at hc
    exact (ih hc.2).trans (filter_run_sublist hc.1)

/-- **A run keeps the chosen lines**, once each and in order, exactly when it can follow all of
them. -/
theorem filter_runAll_eq_iff (hd : xs.Nodup) (hc : ∀ x ∈ ps.flatMap content, keep x = false) :
    (runAll xs ps).filter keep = xs.filter keep ↔
      ∀ i x, xs[i]? = some x → keep x = true → (trackAll i ps).isSome = true := by
  have hmem : ∀ i x, xs[i]? = some x → keep x = true →
      (x ∈ runAll xs ps ↔ (trackAll i ps).isSome = true) := by
    intro i x hx hk
    obtain ⟨hi, rfl⟩ := List.getElem?_eq_some_iff.mp hx
    have hsplit : xs = xs.take i ++ xs[i] :: xs.drop (i + 1) := by simp
    have hlen : (xs.take i).length = i := by
      rw [length_take, Nat.min_eq_left hi.le]
    have hd' := hd
    rw [hsplit, nodup_append'] at hd'
    have hm : xs[i] ∈ runAll (xs.take i ++ xs[i] :: xs.drop (i + 1)) ps ↔
        (trackAll (xs.take i).length ps).isSome = true := mem_runAll_iff
      (fun hm => hd'.2.2 hm mem_cons_self) (nodup_cons.mp hd'.2.1).1
      (fun hm => by rw [hc _ hm] at hk; cases hk)
    rwa [← hsplit, hlen] at hm
  refine ⟨fun heq i x hx hk => ?_, fun h => ?_⟩
  · rw [← hmem i x hx hk]
    have hm : x ∈ xs.filter keep := mem_filter.mpr ⟨mem_of_getElem? hx, hk⟩
    rw [← heq] at hm
    exact (mem_filter.mp hm).1
  · refine (filter_runAll_sublist hc).eq_of_length_le ?_
    refine List.Subperm.length_le ((hd.filter keep).subperm fun x hx => ?_)
    obtain ⟨hx, hk⟩ := mem_filter.mp hx
    obtain ⟨i, hi⟩ := getElem?_of_mem hx
    exact mem_filter.mpr ⟨(hmem i x hi hk).mpr (h i x hi hk), hk⟩

end Filter

end Patch

end KolegaCode
