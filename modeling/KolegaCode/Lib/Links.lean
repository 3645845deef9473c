import KolegaCode.Lib.Except
import KolegaCode.Lib.FileTree

/-!
# Lib — file systems with links

A file tree whose files are reached through names: what stands at a path is a directory, a name of
some data, or a symbolic link.  `namei` walks a path as an operating system does, link by link;
`namei_mono`, `namei_without` and `namei_made` say how a walk comes out on a tree with more in it,
without one of the entries, and where directories that were missing are made.
-/

namespace KolegaCode

/-- One step of a path: a name, `.` or `..`. -/
inductive Step (N : Type) where
  | down (name : N)
  | stay
  | up
deriving DecidableEq, Repr

/-- What stands at a path and is no directory. -/
inductive Leaf (N : Type) where
  /-- a name of the data with this number -/
  | data (inode : Nat)
  | link (absolute : Bool) (steps : List (Step N))
deriving DecidableEq, Repr

/-- Why an operation on a path fails. -/
inductive PathError where
  | notFound
  | notADirectory
  | isADirectory
  | fileExists
  | tooManyLinks
deriving DecidableEq, Repr

structure Linked (N C : Type) [DecidableEq N] where
  tree : FileTree N (Leaf N)
  contents : Nat → C
  /-- the number of the next data -/
  next : Nat
  used : ∀ p i, tree.get p = some (.file (.data i)) → i < next

/-- Where a walk ends, and the links that it followed. -/
structure Found (N : Type) where
  path : List N
  links : List (List N)
deriving DecidableEq, Repr

def Found.after (f : Found N) (link : List N) : Found N := { f with links := link :: f.links }

/-- The entries that a walk came by: the links, and the last. -/
def Found.passed (f : Found N) : List (List N) := f.links ++ [f.path]

theorem Found.path_mem_passed (f : Found N) : f.path ∈ f.passed :=
  List.mem_append_right _ (List.mem_singleton.mpr rfl)

/-- How a walk takes its last link, and names that are missing. -/
structure Walking where
  /-- a link at the end is followed -/
  follow : Bool
  /-- a directory that is missing is walked through -/
  made : Bool

namespace Linked

variable {N C : Type} [DecidableEq N]

/-! ### Walking a path -/

/-- The walk up to the first link; `restart` goes on from there. -/
def walk (w : Walking) (tree : FileTree N (Leaf N))
    (restart : List N → List (Step N) → Except PathError (Found N)) :
    List N → List (Step N) → Except PathError (Found N)
  | base, [] => .ok ⟨base, []⟩
  | base, .stay :: rest => walk w tree restart base rest
  | base, .up :: rest => walk w tree restart base.dropLast rest
  | base, .down name :: rest =>
    match tree.get (base ++ [name]) with
    | some .dir => walk w tree restart (base ++ [name]) rest
    | some (.file (.data _)) =>
      if rest = [] then .ok ⟨base ++ [name], []⟩ else .error .notADirectory
    | some (.file (.link absolute steps)) =>
      if rest = [] ∧ ¬ w.follow then .ok ⟨base ++ [name], []⟩
      else (restart (if absolute then [] else base) (steps ++ rest)).map (·.after (base ++ [name]))
    | none =>
      if rest = [] then .ok ⟨base ++ [name], []⟩
      else if w.made then walk w tree restart (base ++ [name]) rest
      else .error .notFound

/-- The walk with at most so many links. -/
def nameiFrom (w : Walking) (tree : FileTree N (Leaf N)) :
    (fuel : Nat) → List N → List (Step N) → Except PathError (Found N)
  | 0 => walk w tree fun _ _ => .error .tooManyLinks
  | fuel + 1 => walk w tree (nameiFrom w tree fuel)

/-- How many links a walk may follow. -/
def maxLinks : Nat := 40

/-- Where a path from the root leads. -/
def namei (w : Walking) (tree : FileTree N (Leaf N)) (steps : List (Step N)) :
    Except PathError (Found N) :=
  nameiFrom w tree maxLinks [] steps

/-- The end of a path, its last link followed. -/
abbrev toEnd : Walking := ⟨true, false⟩

/-- The entry that a path names. -/
abbrev toEntry : Walking := ⟨false, false⟩

/-- The end of a path once its directories are made. -/
abbrev toMade : Walking := ⟨true, true⟩

/-! ### The same walk on another tree -/

section Walks

variable {w : Walking} {t t' : FileTree N (Leaf N)} {fuel : Nat} {base end_ : List N}
  {restart restart' : List N → List (Step N) → Except PathError (Found N)}
  {steps : List (Step N)} {f : Found N}

omit [DecidableEq N] in
theorem map_after_ok {x : Except PathError (Found N)} {link : List N}
    (h : x.map (·.after link) = .ok f) : ∃ g, x = .ok g ∧ g.path = f.path ∧ f = g.after link := by
  cases x with
  | error e => cases h
  | ok g =>
    cases h
    exact ⟨g, rfl, rfl, rfl⟩

/-- A walk to something that is there comes out the same where there is more. -/
theorem walk_mono (hw : w.made = false) (hmore : ∀ p e, t.get p = some e → t'.get p = some e)
    (hend : t.get end_ ≠ none ∨ ∃ i, t'.get end_ = some (.file (.data i)))
    (hrestart : ∀ base steps g, restart base steps = .ok g → g.path = end_ →
      restart' base steps = .ok g) (h : walk w t restart base steps = .ok f) (hf : f.path = end_) :
    walk w t' restart' base steps = .ok f := by
  induction steps generalizing base with
  | nil => exact h
  | cons step rest ih =>
    cases step with
    | stay => exact ih h
    | up => exact ih h
    | down name =>
      unfold walk at h ⊢
      split at h
      · next hget =>
        rw [hmore _ _ hget]
        exact ih h
      · next hget =>
        rw [hmore _ _ hget]
        exact h
      · next absolute target hget =>
        rw [hmore _ _ hget]
        dsimp only
        split at h
        · next hlast =>
          rw [if_pos hlast]
          exact h
        · next hlast =>
          obtain ⟨g, hg, hpath, rfl⟩ := map_after_ok h
          rw [if_neg hlast, hrestart _ _ g hg (hpath.trans hf)]
          rfl
      · next hget =>
        split at h
        · next hlast =>
          have hpath : base ++ [name] = end_ := by
            rw [← hf, ← Except.ok.inj h]
          rw [hpath] at hget h ⊢
          obtain ⟨i, hi⟩ := hend.resolve_left (not_not.mpr hget)
          rw [hi]
          rw [if_pos hlast]
          exact h
        · rw [hw] at h
          cases h

theorem nameiFrom_mono (hw : w.made = false) (hmore : ∀ p e, t.get p = some e → t'.get p = some e)
    (hend : t.get end_ ≠ none ∨ ∃ i, t'.get end_ = some (.file (.data i)))
    (h : nameiFrom w t fuel base steps = .ok f) (hf : f.path = end_) :
    nameiFrom w t' fuel base steps = .ok f := by
  induction fuel generalizing base steps f with
  | zero => exact walk_mono hw hmore hend (fun _ _ _ hg _ => hg) h hf
  | succ fuel ih => exact walk_mono hw hmore hend (fun _ _ _ hg hpath => ih hg hpath) h hf

/-- **More in the tree.**  A walk to something that is there, or that is written, ends there
again. -/
theorem namei_mono (hw : w.made = false) (hmore : ∀ p e, t.get p = some e → t'.get p = some e)
    (h : namei w t steps = .ok f)
    (hend : t.get f.path ≠ none ∨ ∃ i, t'.get f.path = some (.file (.data i))) :
    namei w t' steps = .ok f :=
  nameiFrom_mono hw hmore hend h rfl

/-- The walk found nothing. -/
def Misses (t : FileTree N (Leaf N)) (x : Except PathError (Found N)) : Prop :=
  ∀ f, x = .ok f → t.get f.path = none

theorem Misses.map_after {x : Except PathError (Found N)} (h : Misses t x) (link : List N) :
    Misses t (x.map (·.after link)) := by
  intro f hf
  obtain ⟨g, hg, hpath, -⟩ := map_after_ok hf
  rw [← hpath]
  exact h g hg

/-- An entry that is no directory is gone. -/
structure Without (t t' : FileTree N (Leaf N)) (gone : List N) : Prop where
  leaf : ∃ leaf, t.get gone = some (.file leaf)
  none : t'.get gone = none
  rest : ∀ p, p ≠ gone → t'.get p = t.get p

theorem Without.get_dir {gone : List N} (h : Without t t' gone) {p : List N}
    (hp : t.get p = some .dir) : p ≠ gone := by
  rintro rfl
  obtain ⟨leaf, hleaf⟩ := h.leaf
  rw [hp] at hleaf
  cases hleaf

theorem walk_without {gone : List N} (hw : w.made = false) (hgone : Without t t' gone)
    (hrestart : ∀ base steps g, t.get base = some .dir → restart base steps = .ok g →
      if gone ∈ g.passed then Misses t' (restart' base steps) else restart' base steps = .ok g)
    (hbase : t.get base = some .dir) (h : walk w t restart base steps = .ok f) :
    if gone ∈ f.passed then Misses t' (walk w t' restart' base steps)
    else walk w t' restart' base steps = .ok f := by
  induction steps generalizing base with
  | nil =>
    cases h
    have hne := hgone.get_dir hbase
    rw [if_neg (by simpa [Found.passed] using fun h => hne h.symm)]
    rfl
  | cons step rest ih =>
    cases step with
    | stay => exact ih hbase h
    | up => exact ih (FileTree.get_dir_above (List.dropLast_prefix base) hbase) h
    | down name =>
      by_cases hhere : base ++ [name] = gone
      · -- the walk comes by the entry, and ends there without it
        obtain ⟨leaf, hleaf⟩ := hgone.leaf
        have hpass : gone ∈ f.passed := by
          unfold walk at h
          rw [hhere, hleaf] at h
          cases leaf with
          | data i =>
            dsimp only at h
            split at h
            · cases h
              exact List.mem_singleton.mpr rfl
            · cases h
          | link absolute target =>
            dsimp only at h
            split at h
            · cases h
              exact List.mem_singleton.mpr rfl
            · obtain ⟨g, -, -, rfl⟩ := map_after_ok h
              exact List.mem_cons_self
        rw [if_pos hpass, walk, hhere, hgone.none]
        dsimp only
        intro g hg
        split at hg
        · cases hg
          exact hgone.none
        · rw [hw] at hg
          cases hg
      · have hsame := hgone.rest _ hhere
        unfold walk at h ⊢
        rw [hsame]
        split at h
        · next hget => exact ih hget h
        · next hget =>
          split at h
          · next hlast =>
            cases h
            rw [if_neg (by simpa [Found.passed] using fun h => hhere h.symm), if_pos hlast]
          · cases h
        · next absolute target hget =>
          split at h
          · next hlast =>
            cases h
            rw [if_neg (by simpa [Found.passed] using fun h => hhere h.symm), if_pos hlast]
          · next hlast =>
            obtain ⟨g, hg, -, rfl⟩ := map_after_ok h
            have hpass : gone ∈ (g.after (base ++ [name])).passed ↔ gone ∈ g.passed := by
              rw [Found.passed, Found.after, List.cons_append, List.mem_cons,
                or_iff_right fun h => hhere h.symm]
              rfl
            have hdir : t.get (if absolute then [] else base) = some .dir := by
              split
              · exact FileTree.get_nil t
              · exact hbase
            have hnext := hrestart _ _ g hdir hg
            rw [if_neg hlast]
            by_cases hg' : gone ∈ g.passed
            · rw [if_pos hg'] at hnext
              rw [if_pos (hpass.mpr hg')]
              exact hnext.map_after _
            · rw [if_neg hg'] at hnext
              rw [if_neg fun h => hg' (hpass.mp h), hnext]
              rfl
        · next hget =>
          split at h
          · next hlast =>
            cases h
            rw [if_neg (by simpa [Found.passed] using fun h => hhere h.symm), if_pos hlast]
          · rw [hw] at h
            cases h

theorem nameiFrom_without {gone : List N} (hw : w.made = false) (hgone : Without t t' gone)
    (hbase : t.get base = some .dir) (h : nameiFrom w t fuel base steps = .ok f) :
    if gone ∈ f.passed then Misses t' (nameiFrom w t' fuel base steps)
    else nameiFrom w t' fuel base steps = .ok f := by
  induction fuel generalizing base steps f with
  | zero => exact walk_without hw hgone (fun _ _ _ _ hg => by cases hg) hbase h
  | succ fuel ih => exact walk_without hw hgone (fun _ _ _ hdir hg => ih hdir hg) hbase h

/-- **An entry less.**  A walk that came by the entry finds nothing; any other ends where it did. -/
theorem namei_without {gone : List N} (hw : w.made = false) (hgone : Without t t' gone)
    (h : namei w t steps = .ok f) :
    if gone ∈ f.passed then Misses t' (namei w t' steps) else namei w t' steps = .ok f :=
  nameiFrom_without hw hgone (FileTree.get_nil t) h

/-- Directories are made where nothing was. -/
def Makes (t t' : FileTree N (Leaf N)) : Prop :=
  ∀ p, t'.get p = t.get p ∨ t.get p = none ∧ t'.get p = some .dir

theorem Makes.refl (t : FileTree N (Leaf N)) : Makes t t := fun _ => .inl rfl

theorem Makes.trans {t'' : FileTree N (Leaf N)} (h : Makes t t') (h' : Makes t' t'') :
    Makes t t'' := by
  intro p
  rcases h p with hp | ⟨hnone, hdir⟩
  · rcases h' p with hp' | ⟨hnone', hdir'⟩
    · exact .inl (hp'.trans hp)
    · exact .inr ⟨hp ▸ hnone', hdir'⟩
  · rcases h' p with hp' | ⟨hnone', hdir'⟩
    · exact .inr ⟨hnone, hp'.trans hdir⟩
    · rw [hdir] at hnone'
      cases hnone'

theorem Makes.more (h : Makes t t') {p : List N} {e : Entry (Leaf N)} (hp : t.get p = some e) :
    t'.get p = some e := by
  rcases h p with hsame | ⟨hnone, -⟩
  · rw [hsame, hp]
  · rw [hnone] at hp
    cases hp

/-- What a walk through missing directories comes to is there before they are made. -/
theorem walk_made (ht : Makes t t')
    (hrestart : ∀ base steps g, restart' base steps = .ok g → restart base steps = .ok g)
    (h : walk toEnd t' restart' base steps = .ok f) : walk toMade t restart base steps = .ok f := by
  induction steps generalizing base with
  | nil => exact h
  | cons step rest ih =>
    cases step with
    | stay => exact ih h
    | up => exact ih h
    | down name =>
      unfold walk at h ⊢
      rcases ht (base ++ [name]) with hsame | ⟨hnone, hdir⟩
      · rw [hsame] at h
        split at h
        · exact ih h
        · exact h
        · split at h
          · next hlast =>
            rw [if_pos hlast]
            exact h
          · next hlast =>
            obtain ⟨g, hg, -, rfl⟩ := map_after_ok h
            rw [if_neg hlast, hrestart _ _ g hg]
            rfl
        · split at h
          · next hlast =>
            rw [if_pos hlast]
            exact h
          · cases h
      · rw [hdir] at h
        rw [hnone]
        dsimp only
        split
        · next hlast =>
          rw [hlast] at h
          exact h
        · exact ih h

/-- **Directories that are missing.**  A walk that ends once they are made is known before. -/
theorem namei_made (ht : Makes t t') (h : namei toEnd t' steps = .ok f) :
    namei toMade t steps = .ok f := by
  have hfrom : ∀ fuel base steps f, nameiFrom toEnd t' fuel base steps = .ok f →
      nameiFrom toMade t fuel base steps = .ok f := by
    intro fuel
    induction fuel with
    | zero => exact fun _ _ _ h => walk_made ht (fun _ _ _ hg => by cases hg) h
    | succ fuel ih => exact fun _ _ _ h => walk_made ht ih h
  exact hfrom _ _ _ _ h

/-- A path to data names an entry. -/
theorem walk_entry {i : Nat}
    (hrestart : ∀ base steps g, restart base steps = .ok g →
      t.get g.path = some (.file (.data i)) →
      ∃ e, restart' base steps = .ok e ∧ ∃ leaf, t.get e.path = some (.file leaf))
    (h : walk toEnd t restart base steps = .ok f) (hf : t.get f.path = some (.file (.data i))) :
    ∃ e, walk toEntry t restart' base steps = .ok e ∧ ∃ leaf, t.get e.path = some (.file leaf) := by
  induction steps generalizing base with
  | nil =>
    cases h
    exact ⟨_, rfl, _, hf⟩
  | cons step rest ih =>
    cases step with
    | stay => exact ih h
    | up => exact ih h
    | down name =>
      unfold walk at h ⊢
      split at h
      · exact ih h
      · exact ⟨f, h, _, hf⟩
      · next absolute target hget =>
        rw [if_neg fun hboth => hboth.2 rfl] at h
        obtain ⟨g, hg, hpath, rfl⟩ := map_after_ok h
        by_cases hlast : rest = []
        · rw [if_pos ⟨hlast, by decide⟩]
          exact ⟨_, rfl, _, hget⟩
        · obtain ⟨e, he, leaf, hleaf⟩ := hrestart _ _ g hg (hpath ▸ hf)
          rw [if_neg fun hboth => hlast hboth.1, he]
          exact ⟨_, rfl, leaf, hleaf⟩
      · next hget =>
        split at h
        · cases h
          rw [hget] at hf
          cases hf
        · cases h

theorem namei_entry {i : Nat} (h : namei toEnd t steps = .ok f)
    (hf : t.get f.path = some (.file (.data i))) :
    ∃ e, namei toEntry t steps = .ok e ∧ ∃ leaf, t.get e.path = some (.file leaf) := by
  have hfrom : ∀ fuel base steps f, nameiFrom toEnd t fuel base steps = .ok f →
      t.get f.path = some (.file (.data i)) → ∃ e, nameiFrom toEntry t fuel base steps = .ok e ∧
        ∃ leaf, t.get e.path = some (.file leaf) := by
    intro fuel
    induction fuel with
    | zero => exact fun _ _ _ h hf => walk_entry (fun _ _ _ hg => by cases hg) h hf
    | succ fuel ih => exact fun _ _ _ h hf => walk_entry ih h hf
  exact hfrom _ _ _ _ h hf

end Walks

/-! ### The operations of the operating system -/

/-- Nothing but the root. -/
def empty (data : C) : Linked N C where
  tree := .empty
  contents := fun _ => data
  next := 0
  used := by
    intro p i h
    by_cases hp : p = []
    · rw [hp, FileTree.get_nil] at h
      cases h
    · rw [FileTree.get_of_ne hp] at h
      cases h

section Operations

variable (fs : Linked N C) (steps : List (Step N))

/-- What a path leads to. -/
def stat : Option (Entry (Leaf N)) :=
  match namei toEnd fs.tree steps with
  | .ok f => fs.tree.get f.path
  | .error _ => none

/-- What a path names: a link itself, where it is one. -/
def lstat : Option (Entry (Leaf N)) :=
  match namei toEntry fs.tree steps with
  | .ok f => fs.tree.get f.path
  | .error _ => none

def «exists» : Bool := (fs.stat steps).isSome

def isFile : Bool :=
  match fs.stat steps with
  | some (.file (.data _)) => true
  | _ => false

def isDir : Bool := fs.stat steps = some .dir

def read : Except PathError C :=
  match namei toEnd fs.tree steps with
  | .error e => .error e
  | .ok f =>
    match fs.tree.get f.path with
    | some (.file (.data i)) => .ok (fs.contents i)
    | some .dir => .error .isADirectory
    | _ => .error .notFound

/-- Other data under a number. -/
def setData (i : Nat) (data : C) : Linked N C where
  tree := fs.tree
  contents := Function.update fs.contents i data
  next := fs.next
  used := fs.used

/-- New data under a name. -/
def create (p : List N) (data : C) (h : fs.tree.Puts p (.file (.data fs.next))) : Linked N C where
  tree := fs.tree.put p (.file (.data fs.next)) h
  contents := Function.update fs.contents fs.next data
  next := fs.next + 1
  used := by
    intro q i hq
    rw [FileTree.get_put] at hq
    split at hq
    · cases hq
      exact Nat.lt_succ_self fs.next
    · exact Nat.lt_succ_of_lt (fs.used q i hq)

/-- A new directory. -/
def putDir (p : List N) (h : fs.tree.Puts p .dir) : Linked N C where
  tree := fs.tree.put p .dir h
  contents := fs.contents
  next := fs.next
  used := by
    intro q i hq
    rw [FileTree.get_put] at hq
    split at hq
    · cases hq
    · exact fs.used q i hq

/-- An entry that is removed; data may be left without a name. -/
def remove (p : List N) (hp : p ≠ []) : Linked N C where
  tree := fs.tree.removeTree p
  contents := fs.contents
  next := fs.next
  used := by
    intro q i hq
    rw [FileTree.get_removeTree hp] at hq
    split at hq
    · cases hq
    · exact fs.used q i hq

/-- A file is created, or what it holds replaced. -/
def write (data : C) : Except PathError (Linked N C) :=
  match namei toEnd fs.tree steps with
  | .error e => .error e
  | .ok f =>
    match fs.tree.get f.path with
    | some (.file (.data i)) => .ok (fs.setData i data)
    | some .dir => .error .isADirectory
    | some (.file (.link _ _)) => .error .tooManyLinks
    | none =>
      if h : f.path ≠ [] ∧ fs.tree.get f.path.dropLast = some .dir ∧
          fs.tree.get f.path ≠ some .dir then
        .ok (fs.create f.path data ⟨h.1, h.2.1, .inr h.2.2⟩)
      else .error .notFound

/-- `mkdir` of one directory. -/
def mkdir : Except PathError (Linked N C) :=
  match namei toEntry fs.tree steps with
  | .error e => .error e
  | .ok f =>
    match fs.tree.get f.path with
    | some _ => .error .fileExists
    | none =>
      if h : f.path ≠ [] ∧ fs.tree.get f.path.dropLast = some .dir then
        .ok (fs.putDir f.path ⟨h.1, h.2, .inl rfl⟩)
      else .error .notFound

/-- `unlink`. -/
def unlink (missingOk : Bool) : Except PathError (Linked N C) :=
  match namei toEntry fs.tree steps with
  | .error .notFound => if missingOk then .ok fs else .error .notFound
  | .error e => .error e
  | .ok f =>
    match fs.tree.get f.path with
    | some (.file _) =>
      if h : f.path ≠ [] then .ok (fs.remove f.path h) else .error .isADirectory
    | some .dir => .error .isADirectory
    | none => if missingOk then .ok fs else .error .notFound

end Operations

/-- `mkdir` with its parents, where a directory that is already there is no error; the steps are
given from the last. -/
def makeDirs (fs : Linked N C) : List (Step N) → Except PathError (Linked N C)
  | [] => if fs.isDir [] then .ok fs else .error .notFound
  | step :: above =>
    match fs.mkdir (step :: above).reverse with
    | .ok fs' => .ok fs'
    | .error .notFound => do
      let fs ← makeDirs fs above
      match fs.mkdir (step :: above).reverse with
      | .ok fs' => .ok fs'
      | .error .notFound => .error .notFound
      | .error e => if fs.isDir (step :: above).reverse then .ok fs else .error e
    | .error e => if fs.isDir (step :: above).reverse then .ok fs else .error e

section Results

variable {fs fs' : Linked N C} {steps : List (Step N)} {data : C}

/-- What a write does. -/
structure Wrote (fs fs' : Linked N C) (f : Found N) (i : Nat) (data : C) : Prop where
  more : ∀ p e, fs.tree.get p = some e → fs'.tree.get p = some e
  entry : fs'.tree.get f.path = some (.file (.data i))
  rest : ∀ p, p ≠ f.path → fs'.tree.get p = fs.tree.get p
  contents : fs'.contents = Function.update fs.contents i data

theorem write_ok (h : fs.write steps data = .ok fs') :
    ∃ f i, namei toEnd fs.tree steps = .ok f ∧ Wrote fs fs' f i data := by
  unfold write at h
  split at h
  · cases h
  · next f hf =>
    split at h
    · next i hget =>
      cases h
      exact ⟨f, i, hf, fun _ _ he => he, hget, fun _ _ => rfl, rfl⟩
    · cases h
    · cases h
    · next hget =>
      split at h
      · next hput =>
        cases h
        have hget' := FileTree.get_put (e := .file (.data fs.next))
          ⟨hput.1, hput.2.1, .inr hput.2.2⟩
        refine ⟨f, fs.next, hf, fun p e he => ?_, ?_, fun p hp => ?_, rfl⟩
        · refine (hget' p).trans (if_neg ?_ |>.trans he)
          rintro rfl
          rw [hget] at he
          cases he
        · exact (hget' f.path).trans (if_pos rfl)
        · exact (hget' p).trans (if_neg hp)
      · cases h

theorem Wrote.read {f : Found N} {i : Nat} (h : Wrote fs fs' f i data)
    (hf : namei toEnd fs'.tree steps = .ok f) : fs'.read steps = .ok data := by
  rw [Linked.read, hf]
  dsimp only
  rw [h.entry, h.contents]
  exact congrArg _ (Function.update_self i data fs.contents)

theorem mkdir_ok (h : fs.mkdir steps = .ok fs') :
    Makes fs.tree fs'.tree ∧ fs'.contents = fs.contents := by
  unfold mkdir at h
  split at h
  · cases h
  · next f hf =>
    split at h
    · cases h
    · next hget =>
      split at h
      · next hput =>
        cases h
        refine ⟨fun p => ?_, rfl⟩
        have hp := FileTree.get_put (e := .dir) ⟨hput.1, hput.2, .inl rfl⟩ p
        by_cases he : p = f.path
        · rw [if_pos he] at hp
          exact .inr ⟨he ▸ hget, hp⟩
        · rw [if_neg he] at hp
          exact .inl hp
      · cases h

theorem makeDirs_ok {reversed : List (Step N)} (h : fs.makeDirs reversed = .ok fs') :
    Makes fs.tree fs'.tree ∧ fs'.contents = fs.contents := by
  induction reversed generalizing fs' with
  | nil =>
    unfold makeDirs at h
    split at h
    · cases h
      exact ⟨.refl _, rfl⟩
    · cases h
  | cons step above ih =>
    unfold makeDirs at h
    split at h
    · next hmk =>
      cases h
      exact mkdir_ok hmk
    · obtain ⟨made, hmade, hrest⟩ := bind_eq_ok.mp h
      obtain ⟨htree, hcontents⟩ := ih hmade
      split at hrest
      · next hmk =>
        cases hrest
        obtain ⟨htree', hcontents'⟩ := mkdir_ok hmk
        exact ⟨htree.trans htree', hcontents'.trans hcontents⟩
      · cases hrest
      · split at hrest
        · cases hrest
          exact ⟨htree, hcontents⟩
        · cases hrest
    · split at h
      · cases h
        exact ⟨.refl _, rfl⟩
      · cases h

theorem unlink_ok {e : Found N} {leaf : Leaf N} {missingOk : Bool}
    (he : namei toEntry fs.tree steps = .ok e) (hleaf : fs.tree.get e.path = some (.file leaf))
    (h : fs.unlink steps missingOk = .ok fs') :
    Without fs.tree fs'.tree e.path ∧ fs'.contents = fs.contents := by
  rw [unlink, he] at h
  dsimp only at h
  rw [hleaf] at h
  dsimp only at h
  split at h
  · next hne =>
    cases h
    refine ⟨⟨⟨leaf, hleaf⟩, ?_, fun p hp => ?_⟩, rfl⟩
    · exact (FileTree.get_removeTree hne e.path).trans (if_pos List.prefix_rfl)
    · refine (FileTree.get_removeTree hne p).trans ?_
      split
      · next hpre =>
        -- nothing stands below what is no directory
        refine (FileTree.get_below hpre (fun h => hp h.symm) ?_).symm
        rw [hleaf]
        exact fun h => by cases h
      · rfl
  · cases h

theorem read_ok {data : C} (h : fs.read steps = .ok data) :
    ∃ f i, namei toEnd fs.tree steps = .ok f ∧ fs.tree.get f.path = some (.file (.data i)) ∧
      data = fs.contents i := by
  unfold Linked.read at h
  split at h
  · cases h
  · next f hf =>
    split at h
    · next i hget =>
      cases h
      exact ⟨f, i, hf, hget, rfl⟩
    · cases h
    · cases h

theorem isFile_iff : fs.isFile steps = true ↔
    ∃ f i, namei toEnd fs.tree steps = .ok f ∧ fs.tree.get f.path = some (.file (.data i)) := by
  unfold isFile stat
  constructor
  · intro h
    split at h
    · next i hget =>
      split at hget
      · next f hf => exact ⟨f, i, hf, hget⟩
      · cases hget
    · cases h
  · rintro ⟨f, i, hf, hget⟩
    rw [hf]
    dsimp only
    rw [hget]

end Results

end Linked

end KolegaCode
