import KolegaCode.Lib.Assoc
import Mathlib.Data.List.Infix
import Mathlib.Data.List.MinMax

/-!
# Lib — file trees

A directory with everything in it, over any type `N` of names and `C` of file contents.  A path is
the list of the names from the root down; the root `[]` is always there.  A tree carries the proof
that whatever stands at a path stands in a directory, so no entry is below a file or below nothing.

The operations fail as those of an operating system do.  `get_put`, `get_removeTree` and
`get_of_makeDirs` say what is at every path afterwards.
-/

namespace KolegaCode

open List

/-- What stands at a path. -/
inductive Entry (C : Type) where
  | file (data : C)
  | dir
deriving DecidableEq, Repr

/-- Why an operation on a path fails. -/
inductive OsError where
  | notFound
  | notADirectory
  | isADirectory
  | fileExists
deriving DecidableEq, Repr

structure FileTree (N C : Type) [DecidableEq N] where
  entries : Assoc (List N) (Entry C)
  nodup : entries.keys.Nodup
  closed : ∀ p n, entries.get? (p ++ [n]) ≠ none → p = [] ∨ entries.get? p = some .dir

namespace FileTree

variable {N C : Type} [DecidableEq N]

/-- The directory with nothing in it. -/
def empty : FileTree N C where
  entries := []
  nodup := List.nodup_nil
  closed := fun _ _ h => absurd rfl h

def get (fs : FileTree N C) (p : List N) : Option (Entry C) :=
  if p = [] then some .dir else fs.entries.get? p

def «exists» (fs : FileTree N C) (p : List N) : Bool := (fs.get p).isSome

def isFile (fs : FileTree N C) (p : List N) : Bool :=
  match fs.get p with
  | some (.file _) => true
  | _ => false

def isDir (fs : FileTree N C) (p : List N) : Bool :=
  match fs.get p with
  | some .dir => true
  | _ => false

/-- The names in a directory, in no particular order. -/
def listdir (fs : FileTree N C) (p : List N) : List N :=
  fs.entries.keys.filterMap fun q => if q.dropLast = p then q.getLast? else none

/-- No entry is deeper than this. -/
def height (fs : FileTree N C) : Nat := (fs.entries.keys.map List.length).foldr max 0

@[simp] theorem get_nil (fs : FileTree N C) : fs.get [] = some .dir := rfl

variable {fs fs' : FileTree N C} {p q base rest : List N}

theorem get_of_ne (hp : p ≠ []) : fs.get p = fs.entries.get? p := if_neg hp

@[simp] theorem exists_iff : fs.exists p = true ↔ fs.get p ≠ none := by
  simp [FileTree.exists, Option.isSome_iff_ne_none]

@[simp] theorem exists_eq_false_iff : fs.exists p = false ↔ fs.get p = none := by
  rw [← Bool.not_eq_true, exists_iff, not_not]

@[simp] theorem isDir_iff : fs.isDir p = true ↔ fs.get p = some .dir := by
  unfold isDir
  split <;> simp_all

@[simp] theorem isDir_eq_false_iff : fs.isDir p = false ↔ fs.get p ≠ some .dir := by
  rw [← Bool.not_eq_true, isDir_iff]

@[simp] theorem isFile_iff : fs.isFile p = true ↔ ∃ data, fs.get p = some (.file data) := by
  unfold isFile
  split <;> simp_all

/-! ### What stands above and below a path -/

/-- Whatever stands at a path stands in a directory. -/
theorem get_parent {n : N} (h : fs.get (p ++ [n]) ≠ none) : fs.get p = some .dir := by
  rw [get_of_ne (by simp)] at h
  by_cases hp : p = []
  · rw [hp, get_nil]
  · rw [get_of_ne hp]
    exact (fs.closed p n h).resolve_left hp

/-- Every proper ancestor of an entry is a directory. -/
theorem get_above (hq : q <+: p) (hne : q ≠ p) (hp : fs.get p ≠ none) : fs.get q = some .dir := by
  obtain ⟨r, rfl⟩ := hq
  induction r using List.reverseRecOn with
  | nil => exact absurd (append_nil q).symm hne
  | append_singleton r n ih =>
    rw [← append_assoc] at hp
    have hparent : fs.get (q ++ r) = some .dir := get_parent hp
    by_cases hr : r = []
    · rwa [hr, append_nil] at hparent
    · exact ih (by simpa using hr) (by rw [hparent]; simp)

theorem get_dir_above (hq : q <+: p) (hp : fs.get p = some .dir) : fs.get q = some .dir := by
  by_cases hne : q = p
  · rw [hne, hp]
  · exact get_above hq hne (by rw [hp]; simp)

/-- Nothing stands below what is not a directory. -/
theorem get_below (hq : q <+: p) (hne : q ≠ p) (hd : fs.get q ≠ some .dir) : fs.get p = none := by
  by_contra hp
  exact hd (get_above hq hne hp)

theorem get_ne_none_above (hq : q <+: p) (hp : fs.get p ≠ none) : fs.get q ≠ none := by
  by_cases hne : q = p
  · rwa [hne]
  · rw [get_above hq hne hp]
    simp

theorem mem_listdir {n : N} : n ∈ fs.listdir p ↔ fs.get (p ++ [n]) ≠ none := by
  rw [get_of_ne (by simp), ne_eq, Assoc.get?_eq_none_iff, not_not]
  simp only [listdir, mem_filterMap]
  constructor
  · rintro ⟨q, hq, h⟩
    split at h
    · next hd =>
      have hne : q ≠ [] := by rintro rfl; simp at h
      rw [getLast?_eq_some_getLast hne] at h
      cases h
      rwa [← hd, dropLast_append_getLast hne]
    · cases h
  · intro h
    exact ⟨p ++ [n], h, by simp⟩

theorem length_le_height {fs : FileTree N C} {p : List N} (h : fs.get p ≠ none) :
    p.length ≤ fs.height := by
  by_cases hp : p = []
  · simp [hp]
  · rw [get_of_ne hp, ne_eq, Assoc.get?_eq_none_iff, not_not] at h
    exact le_max_of_le' 0 (mem_map.mpr ⟨p, h, rfl⟩) le_rfl

/-! ### Putting an entry, removing a tree -/

/-- An entry may be put at a path: the path lies in a directory, and a file replaces no
directory. -/
def Puts (fs : FileTree N C) (p : List N) (e : Entry C) : Prop :=
  p ≠ [] ∧ fs.get p.dropLast = some .dir ∧ (e = .dir ∨ fs.get p ≠ some .dir)

def put (fs : FileTree N C) (p : List N) (e : Entry C) (h : fs.Puts p e) : FileTree N C where
  entries := fs.entries.set p e
  nodup := Assoc.nodup_keys_set fs.nodup p e
  closed := by
    intro q n hq
    obtain ⟨hp, hparent, hkind⟩ := h
    by_cases hpq : q ++ [n] = p
    · -- the new entry's own directory is the one it was put into
      subst hpq
      rw [List.dropLast_concat] at hparent
      by_cases hnil : q = []
      · exact .inl hnil
      · rw [get_of_ne hnil] at hparent
        exact .inr (by rw [Assoc.get?_set_of_ne (by simp), hparent])
    · rw [Assoc.get?_set_of_ne hpq] at hq
      refine (fs.closed q n hq).imp_right fun hd => ?_
      rw [Assoc.get?_set]
      split
      · next hqp =>
        subst hqp
        rw [get_of_ne hp] at hkind
        rw [hkind.resolve_right fun hk => hk hd]
      · exact hd

theorem get_put {e : Entry C} (h : fs.Puts p e) (q : List N) :
    (fs.put p e h).get q = if q = p then some e else fs.get q := by
  by_cases hq : q = []
  · subst hq
    rw [if_neg (fun e => h.1 e.symm), get_nil, get_nil]
  · rw [get_of_ne hq, get_of_ne hq]
    exact Assoc.get?_set fs.entries p q e

theorem get_put_self {e : Entry C} (h : fs.Puts p e) : (fs.put p e h).get p = some e := by
  rw [get_put, if_pos rfl]

theorem puts_dir (h : fs.get base = some .dir) (n : N) : fs.Puts (base ++ [n]) .dir :=
  ⟨by simp, by rwa [dropLast_concat], .inl rfl⟩

/-- Everything at a path and below it goes; the root itself stays. -/
def removeTree (fs : FileTree N C) (p : List N) : FileTree N C where
  entries := fs.entries.filter fun e => ¬ p <+: e.1
  nodup := fs.nodup.sublist (List.Sublist.map _ List.filter_sublist)
  closed := by
    intro q n hq
    rw [Assoc.get?_filter (fun k => decide (¬ p <+: k))] at hq
    split at hq
    · next hk =>
      refine (fs.closed q n hq).imp_right fun hd => ?_
      have hpq : ¬ p <+: q := fun hpq =>
        of_decide_eq_true hk (hpq.trans (List.prefix_append q [n]))
      rw [Assoc.get?_filter (fun k => decide (¬ p <+: k)), if_pos (decide_eq_true hpq), hd]
    · exact absurd rfl hq

theorem get_removeTree {fs : FileTree N C} {p : List N} (hp : p ≠ []) (q : List N) :
    (fs.removeTree p).get q = if p <+: q then none else fs.get q := by
  by_cases hq : q = []
  · subst hq
    rw [if_neg (fun h => hp (prefix_nil.mp h)), get_nil, get_nil]
  · rw [get_of_ne hq, get_of_ne hq]
    rw [show (fs.removeTree p).entries = fs.entries.filter fun e => decide (¬ p <+: e.1) from rfl,
      Assoc.get?_filter (fun k => decide (¬ p <+: k))]
    by_cases h : p <+: q
    · rw [if_pos h, if_neg (by simpa using h)]
    · rw [if_neg h, if_pos (decide_eq_true h)]

/-! ### The operations of the operating system -/

/-- Something on the way to a path is a file. -/
def blocked (fs : FileTree N C) (p : List N) : Bool := p.inits.any fs.isFile

/-- The error of an operation on a path that is not there. -/
def lookupError (fs : FileTree N C) (p : List N) : OsError :=
  if fs.blocked p then .notADirectory else .notFound

/-- A file is created, or what it holds replaced. -/
def writeBytes (fs : FileTree N C) (p : List N) (data : C) : Except OsError (FileTree N C) :=
  if hd : fs.isDir p then .error .isADirectory
  else if hp : fs.isDir p.dropLast then
    .ok (fs.put p (.file data) ⟨fun e => hd (by simp [e]), isDir_iff.mp hp,
      .inr fun e => hd (isDir_iff.mpr e)⟩)
  else .error (fs.lookupError p)

/-- From a directory down: every name of the rest becomes a directory where there was nothing. -/
def makeDirsFrom : (rest : List N) → (fs : FileTree N C) → (base : List N) →
    fs.get base = some .dir → Except OsError (FileTree N C)
  | [], fs, _, _ => .ok fs
  | n :: rest, fs, base, h =>
    match he : fs.get (base ++ [n]) with
    | some .dir => makeDirsFrom rest fs (base ++ [n]) he
    | some (.file _) => .error (if rest.isEmpty then .fileExists else .notADirectory)
    | none =>
      makeDirsFrom rest
        (fs.put (base ++ [n]) .dir (puts_dir h n)) (base ++ [n]) (get_put_self (puts_dir h n))

/-- `mkdir` with its parents, where a directory that is already there is no error. -/
def makeDirs (fs : FileTree N C) (p : List N) : Except OsError (FileTree N C) :=
  makeDirsFrom p fs [] rfl

/-- `rmtree`. -/
def rmtree (fs : FileTree N C) (p : List N) : Except OsError (FileTree N C) :=
  match fs.get p with
  | some .dir => .ok (fs.removeTree p)
  | some (.file _) => .error .notADirectory
  | none => .error (fs.lookupError p)

/-- `unlink`. -/
def unlink (fs : FileTree N C) (p : List N) (missingOk : Bool) : Except OsError (FileTree N C) :=
  match fs.get p with
  | some (.file _) => .ok (fs.removeTree p)
  | some .dir => .error .isADirectory
  | none => if missingOk && !fs.blocked p then .ok fs else .error (fs.lookupError p)

theorem rmtree_of_dir (h : fs.get p = some .dir) : fs.rmtree p = .ok (fs.removeTree p) := by
  rw [rmtree, h]

theorem unlink_of_file {data : C} {missingOk : Bool} (h : fs.get p = some (.file data)) :
    fs.unlink p missingOk = .ok (fs.removeTree p) := by
  rw [unlink, h]

theorem get_of_writeBytes {data : C} (h : fs.writeBytes p data = .ok fs') (q : List N) :
    fs'.get q = if q = p then some (.file data) else fs.get q := by
  unfold writeBytes at h
  split at h
  · cases h
  · split at h
    · cases h
      exact get_put _ q
    · cases h

theorem writeBytes_isOk (hp : fs.get p.dropLast = some .dir) (hd : fs.get p ≠ some .dir)
    (data : C) : ∃ fs', fs.writeBytes p data = .ok fs' := by
  unfold writeBytes
  rw [dif_neg (fun h => hd (isDir_iff.mp h)), dif_pos (isDir_iff.mpr hp)]
  exact ⟨_, rfl⟩

theorem get_of_makeDirsFrom {hb : fs.get base = some .dir}
    (h : makeDirsFrom rest fs base hb = .ok fs') (q : List N) :
    fs'.get q = if base <+: q ∧ q <+: base ++ rest then some .dir else fs.get q := by
  induction rest generalizing fs base with
  | nil =>
    cases h
    split
    · next hq =>
      rw [append_nil] at hq
      rw [hq.2.eq_of_length_le hq.1.length_le, hb]
    · rfl
  | cons n rest ih =>
    rw [append_cons]
    -- a path between the base and the end is the base itself or lies past the next name
    have hsplit : base <+: q → (q = base ∨ base ++ [n] <+: q ∨ ¬ q <+: base ++ [n] ++ rest) := by
      rintro ⟨t, rfl⟩
      cases t with
      | nil => exact .inl (append_nil base)
      | cons m t =>
        by_cases hm : m = n
        · subst hm
          exact .inr (.inl ⟨t, by simp⟩)
        · refine .inr (.inr fun hp => hm ?_)
          rw [append_assoc, prefix_append_right_inj] at hp
          exact (cons_prefix_cons.mp hp).1
    have hbase : base <+: base ++ [n] := prefix_append base [n]
    unfold makeDirsFrom at h
    split at h
    · next he =>
      rw [ih h]
      by_cases hq : base ++ [n] <+: q ∧ q <+: base ++ [n] ++ rest
      · rw [if_pos hq, if_pos ⟨hbase.trans hq.1, hq.2⟩]
      · rw [if_neg hq]
        split
        · next hq' =>
          rcases hsplit hq'.1 with rfl | hpast | hout
          · exact hb
          · exact absurd ⟨hpast, hq'.2⟩ hq
          · exact absurd hq'.2 hout
        · rfl
    · cases h
    · next he =>
      rw [ih h, get_put]
      by_cases hq : base ++ [n] <+: q ∧ q <+: base ++ [n] ++ rest
      · rw [if_pos hq, if_pos ⟨hbase.trans hq.1, hq.2⟩]
      · have hne : q ≠ base ++ [n] := by
          rintro rfl
          exact hq ⟨prefix_rfl, prefix_append _ _⟩
        rw [if_neg hq, if_neg hne]
        split
        · next hq' =>
          rcases hsplit hq'.1 with rfl | hpast | hout
          · exact hb
          · exact absurd ⟨hpast, hq'.2⟩ hq
          · exact absurd hq'.2 hout
        · rfl

/-- After `makeDirs` everything on the way to the path is a directory, the path included, and
nothing else has changed. -/
theorem get_of_makeDirs (h : fs.makeDirs p = .ok fs') (q : List N) :
    fs'.get q = if q <+: p then some .dir else fs.get q := by
  rw [get_of_makeDirsFrom h]
  simp

theorem not_file_of_makeDirsFrom {hb : fs.get base = some .dir}
    (h : makeDirsFrom rest fs base hb = .ok fs') (hq : q <+: base ++ rest) (data : C) :
    fs.get q ≠ some (.file data) := by
  induction rest generalizing fs base with
  | nil =>
    rw [append_nil] at hq
    rw [get_dir_above hq hb]
    simp
  | cons n rest ih =>
    rw [append_cons] at hq
    unfold makeDirsFrom at h
    split at h
    · exact ih h hq
    · cases h
    · next he =>
      have hput := ih h hq
      rw [get_put] at hput
      split at hput
      · next hqn =>
        rw [hqn, he]
        simp
      · exact hput

/-- `makeDirs` finds no file in its way. -/
theorem not_file_of_makeDirs (h : fs.makeDirs p = .ok fs') (hq : q <+: p) (data : C) :
    fs.get q ≠ some (.file data) :=
  not_file_of_makeDirsFrom h hq data

theorem makeDirsFrom_isOk {hb : fs.get base = some .dir}
    (h : ∀ q, q <+: base ++ rest → ¬ ∃ data, fs.get q = some (.file data)) :
    ∃ fs', makeDirsFrom rest fs base hb = .ok fs' := by
  induction rest generalizing fs base with
  | nil => exact ⟨fs, rfl⟩
  | cons n rest ih =>
    rw [append_cons] at h
    unfold makeDirsFrom
    split
    · exact ih h
    · next data he => exact absurd ⟨data, he⟩ (h _ (prefix_append _ _))
    · refine ih fun q hq => ?_
      rw [get_put]
      split
      · simp
      · exact h q hq

/-- `makeDirs` succeeds where no file is in the way. -/
theorem makeDirs_isOk (h : ∀ q, q <+: p → ¬ ∃ data, fs.get q = some (.file data)) :
    ∃ fs', fs.makeDirs p = .ok fs' :=
  makeDirsFrom_isOk h

end FileTree

end KolegaCode
