import KolegaCode.Lib.FileTree
import Mathlib.Data.List.Nodup
import Mathlib.Data.List.Perm.Basic
import Mathlib.Order.Nat
import Mathlib.Algebra.GroupWithZero.Nat

/-!
# Lib — walking a file tree

`walk` lists what is below a directory in the order of a scan that goes into every directory where
it meets it.  Such a scan meets every entry once (`walk_perm`), so what it counts is a `tally` over
the tree, which the operations on the tree change as they should.
-/

namespace KolegaCode.FileTree

open List

variable {N C : Type} [DecidableEq N] {fs : FileTree N C}

/-! ### Tallies -/

/-- Something added up over all entries. -/
def tally (fs : FileTree N C) (g : Entry C → Nat) : Nat := (fs.entries.map fun e => g e.2).sum

/-- Nothing is kept for the root itself. -/
def Rooted (fs : FileTree N C) : Prop := fs.entries.get? [] = none

theorem rooted_empty : (empty : FileTree N C).Rooted := rfl

variable {p : List N} {e : Entry C} {fs' : FileTree N C} {data : C} {fuel : Nat}

theorem tally_put (h : fs.Puts p e) (g : Entry C → Nat) :
    (fs.put p e h).tally g + ((fs.get p).map g).getD 0 = fs.tally g + g e := by
  rw [get_of_ne h.1]
  exact Assoc.sum_set g fs.entries p e

theorem Rooted.put (hfs : fs.Rooted) (h : fs.Puts p e) : (fs.put p e h).Rooted := by
  rw [Rooted, FileTree.put, Assoc.get?_set_of_ne h.1.symm]
  exact hfs

theorem tally_writeBytes (h : fs.writeBytes p data = .ok fs') (g : Entry C → Nat) :
    fs'.tally g + ((fs.get p).map g).getD 0 = fs.tally g + g (.file data) := by
  unfold writeBytes at h
  split at h
  · cases h
  · split at h
    · cases h
      exact tally_put _ g
    · cases h

theorem Rooted.writeBytes (hfs : fs.Rooted) (h : fs.writeBytes p data = .ok fs') : fs'.Rooted := by
  unfold FileTree.writeBytes at h
  split at h
  · cases h
  · split at h
    · cases h
      exact hfs.put _
    · cases h

theorem removeTree_file (hp : p ≠ []) (h : fs.get p = some (.file data)) :
    (fs.removeTree p).entries = Assoc.erase fs.entries p := by
  refine filter_congr fun e he => decide_eq_decide.mpr (not_congr ?_)
  refine ⟨fun habove => ?_, fun heq => heq ▸ prefix_refl p⟩
  by_contra hne
  have hget : fs.entries.get? e.1 = some e.2 := Assoc.get?_of_mem fs.nodup he
  have hbelow : fs.get e.1 = none :=
    get_below habove (Ne.symm hne) (by rw [h]; exact nofun)
  have hnil : e.1 ≠ [] := fun hnil => hp (prefix_nil.mp (hnil ▸ habove))
  rw [get_of_ne hnil, hget] at hbelow
  cases hbelow

theorem tally_removeTree (hp : p ≠ []) (h : fs.get p = some (.file data)) (g : Entry C → Nat) :
    (fs.removeTree p).tally g + g (.file data) = fs.tally g := by
  have hsum := Assoc.sum_erase g fs.nodup p
  rw [← get_of_ne hp, h] at hsum
  rw [tally, removeTree_file hp h]
  exact hsum

theorem Rooted.removeTree (hfs : fs.Rooted) (p : List N) : (fs.removeTree p).Rooted := by
  rw [Rooted, Assoc.get?_eq_none_iff] at hfs ⊢
  exact fun h => hfs ((filter_sublist.map Prod.fst).subset h)

/-- A tree is no higher than its entries are deep. -/
theorem height_le {n : Nat}
    (h : ∀ p name, fs.get (p ++ [name]) ≠ none → (p ++ [name]).length ≤ n) : fs.height ≤ n := by
  refine max_le_of_forall_le (fs.entries.keys.map List.length) n fun m hm => ?_
  obtain ⟨p, hp, rfl⟩ := mem_map.mp hm
  by_cases hnil : p = []
  · rw [hnil]
    exact Nat.zero_le n
  · have hthere : fs.get p ≠ none := by
      rw [get_of_ne hnil]
      exact fun hnone => Assoc.get?_eq_none_iff.mp hnone hp
    rw [← dropLast_append_getLast hnil] at hthere ⊢
    exact h _ _ hthere

/-! ### The walk -/

/-- What is below a directory, down to a depth. -/
def walk (fs : FileTree N C) : (fuel : Nat) → List N → List (List N × Entry C)
  | 0, _ => []
  | fuel + 1, p =>
    (fs.listdir p).flatMap fun n =>
      match fs.get (p ++ [n]) with
      | some .dir => (p ++ [n], .dir) :: walk fs fuel (p ++ [n])
      | some (.file data) => [(p ++ [n], .file data)]
      | none => []

theorem nodup_listdir (fs : FileTree N C) (p : List N) : (fs.listdir p).Nodup := by
  refine List.Nodup.filterMap (fun q q' n hq hq' => ?_) fs.nodup
  have hname : ∀ {r : List N}, n ∈ (if r.dropLast = p then r.getLast? else none) → r = p ++ [n] := by
    intro r hr
    split at hr
    · next hdrop =>
      have hne : r ≠ [] := by
        rintro rfl
        cases hr
      rw [getLast?_eq_some_getLast hne] at hr
      rw [← hdrop, ← Option.some.inj hr, dropLast_append_getLast hne]
    · cases hr
  rw [hname hq, hname hq']

/-- What is below a directory is one of its entries, or below one that is a directory. -/
theorem mem_walk {q : List N} :
    (q, e) ∈ fs.walk fuel p ↔
      fs.get q = some e ∧ p <+: q ∧ q ≠ p ∧ q.length ≤ p.length + fuel := by
  induction fuel generalizing p q e with
  | zero =>
    refine ⟨nofun, fun ⟨_, habove, hne, hlen⟩ => absurd ?_ hne⟩
    exact (habove.eq_of_length_le hlen).symm
  | succ fuel ih =>
    have hlength : ∀ n : N, (p ++ [n]).length = p.length + 1 := fun n => length_append
    rw [walk, mem_flatMap]
    constructor
    · rintro ⟨n, -, hmem⟩
      have hbelow : ∀ {r : List N}, p ++ [n] <+: r → r.length ≤ p.length + (fuel + 1) →
          p <+: r ∧ r ≠ p ∧ r.length ≤ p.length + (fuel + 1) := by
        intro r habove hlen
        refine ⟨(prefix_append p [n]).trans habove, ?_, hlen⟩
        rintro rfl
        have := habove.length_le
        rw [hlength] at this
        omega
      split at hmem
      · next hdir =>
        rcases mem_cons.mp hmem with heq | hmem
        · cases heq
          exact ⟨hdir, hbelow (prefix_refl _) (by rw [hlength]; omega)⟩
        · obtain ⟨hget, habove, -, hlen⟩ := ih.mp hmem
          rw [hlength] at hlen
          exact ⟨hget, hbelow habove (by omega)⟩
      · next hfile =>
        cases mem_singleton.mp hmem
        exact ⟨hfile, hbelow (prefix_refl _) (by rw [hlength]; omega)⟩
      · cases hmem
    · rintro ⟨hget, ⟨rest, rfl⟩, hne, hlen⟩
      cases rest with
      | nil => exact absurd (append_nil p) hne
      | cons n rest =>
        rw [append_cons p n rest] at hget hlen ⊢
        have hthere : fs.get (p ++ [n]) ≠ none :=
          get_ne_none_above (prefix_append _ rest) (by rw [hget]; nofun)
        refine ⟨n, mem_listdir.mpr hthere, ?_⟩
        by_cases hrest : rest = []
        · rw [hrest, append_nil] at hget ⊢
          cases e with
          | file data | dir =>
            rw [hget]
            exact mem_cons_self
        · have hbelow : p ++ [n] ++ rest ≠ p ++ [n] := by simpa using hrest
          have hdir : fs.get (p ++ [n]) = some .dir :=
            get_above (prefix_append _ rest) hbelow.symm (by rw [hget]; nofun)
          rw [hdir]
          refine mem_cons_of_mem _ (ih.mpr ?_)
          refine ⟨hget, prefix_append _ rest, hbelow, ?_⟩
          rw [hlength]
          omega

theorem nodup_walk (fuel : Nat) (p : List N) : ((fs.walk fuel p).map Prod.fst).Nodup := by
  induction fuel generalizing p with
  | zero => exact nodup_nil
  | succ fuel ih =>
    rw [walk, map_flatMap, nodup_flatMap]
    refine ⟨fun n _ => ?_, (fs.nodup_listdir p).imp fun {n n'} hne => ?_⟩
    · split
      · rw [map_cons, nodup_cons]
        refine ⟨fun hself => ?_, ih _⟩
        obtain ⟨⟨q, e⟩, hmem, heq⟩ := mem_map.mp hself
        exact (mem_walk.mp hmem).2.2.1 heq
      · exact nodup_singleton _
      · exact nodup_nil
    · have habove : ∀ {n : N} {q : List N}, q ∈ (match fs.get (p ++ [n]) with
            | some .dir => (p ++ [n], Entry.dir) :: fs.walk fuel (p ++ [n])
            | some (.file data) => [(p ++ [n], Entry.file data)]
            | none => []).map Prod.fst → p ++ [n] <+: q := by
        intro n q hq
        obtain ⟨⟨q, e⟩, hmem, rfl⟩ := mem_map.mp hq
        split at hmem
        · rcases mem_cons.mp hmem with heq | hmem
          · cases heq
            exact prefix_refl _
          · exact (mem_walk.mp hmem).2.1
        · cases mem_singleton.mp hmem
          exact prefix_refl _
        · cases hmem
      intro q hq hq'
      have heq := prefix_of_prefix_length_le (habove hq) (habove hq') (by simp)
      exact hne (by simpa using heq.eq_of_length (by simp))

/-- **A walk from the root meets every entry once.** -/
theorem walk_perm (hfs : fs.Rooted) (hfuel : fs.height ≤ fuel) :
    (fs.walk fuel []).Perm fs.entries := by
  refine (perm_ext_iff_of_nodup (nodup_walk fuel []).of_map fs.nodup.of_map).mpr ?_
  rintro ⟨q, e⟩
  rw [mem_walk]
  constructor
  · rintro ⟨hget, -, hne, -⟩
    rw [get_of_ne hne] at hget
    exact Assoc.mem_of_get? hget
  · intro hmem
    have hget : fs.entries.get? q = some e := Assoc.get?_of_mem fs.nodup hmem
    have hne : q ≠ [] := by
      rintro rfl
      rw [hfs] at hget
      cases hget
    rw [← get_of_ne hne] at hget
    refine ⟨hget, nil_prefix, hne, ?_⟩
    have hheight := @length_le_height _ _ _ fs q (by rw [hget]; nofun)
    rw [length_nil, Nat.zero_add]
    exact hheight.trans hfuel

/-- What a walk adds up is the tally. -/
theorem sum_walk (hfs : fs.Rooted) (hfuel : fs.height ≤ fuel) (g : Entry C → Nat) :
    ((fs.walk fuel []).map fun e => g e.2).sum = fs.tally g :=
  ((walk_perm hfs hfuel).map _).sum_eq

end KolegaCode.FileTree
