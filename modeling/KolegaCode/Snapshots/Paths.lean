import KolegaCode.Lib.FileTree

/-!
# Snapshots — paths of the project

`SnapshotService.normalize_path` turns a path as a tool spells it into a path below the project:
`.`, `..` and doubled slashes are resolved, and an absolute path is taken relative to the project.
A normalised path is the list of its names here, and a string with slashes in the source, which
comes back through `normalize_path` (`normalizePath_posix`).

The model has no symbolic links, so `Path.resolve` is lexical.
-/

namespace KolegaCode.Snapshots

open List

/-- One name of a path: what a directory lists. -/
structure Name where
  text : String
  valid : text ≠ "" ∧ text ≠ "." ∧ text ≠ ".." ∧ '/' ∉ text.toList
deriving DecidableEq

def Name.of? (text : String) : Option Name :=
  if h : text ≠ "" ∧ text ≠ "." ∧ text ≠ ".." ∧ '/' ∉ text.toList then some ⟨text, h⟩ else none

/-- A path below the project, or an absolute path: the names from the top down. -/
abbrev Path := List Name

abbrev Bytes := List UInt8

/-- The project directory, or the whole disk. -/
abbrev Disk := FileTree Name Bytes

/-- `path.as_posix()`. -/
def posix (path : Path) : String :=
  String.ofList (['/'].intercalate (path.map fun n => n.text.toList))

def parts (raw : String) : List String := (raw.toList.splitOn '/').map String.ofList

/-- The remaining parts of a path are walked from a directory; an empty part or `.` stays where it
is. -/
def walk : Path → List String → Path
  | at_, [] => at_
  | at_, part :: rest =>
    match Name.of? part with
    | some n => walk (at_ ++ [n]) rest
    | none => walk (if part = ".." then at_.dropLast else at_) rest

/-- `(cwd / raw).resolve(strict=False)`, where an absolute `raw` forgets `cwd`. -/
def resolve (cwd : Path) (raw : String) : Path :=
  walk (if raw.toList.head? = some '/' then [] else cwd) (parts raw)

/-- The `SnapshotError`s of the service. -/
inductive SnapshotError where
  | emptyPath
  | outsideProject (path : String)
  | projectRoot
  | noPaths
  | noSnapshots
  | notFound (snapshotId : String)
  | otherProject (snapshotId : String)
  | changed (snapshotId : String) (paths : List Path)
  | missingBlobId (path : Path)
  | missingBlob (path : Path) (blobId : String)
  | blobMismatch (path : Path)
deriving DecidableEq

/-- `normalize_path`. -/
def normalizePath (project : Path) (path : String) : Except SnapshotError Path :=
  if path = "" then .error .emptyPath
  else
    let full := resolve project path
    if project <+: full then
      let rel := full.drop project.length
      if rel = [] then .error .projectRoot else .ok rel
    else .error (.outsideProject path)

/-! ### A normalised path is read back as itself -/

theorem Name.of?_text (n : Name) : Name.of? n.text = some n := by
  rw [Name.of?, dif_pos n.valid]

theorem walk_texts (at_ path : Path) : walk at_ (path.map Name.text) = at_ ++ path := by
  induction path generalizing at_ with
  | nil => simp [walk]
  | cons n path ih =>
    rw [map_cons, walk, Name.of?_text]
    change walk (at_ ++ [n]) (path.map Name.text) = at_ ++ n :: path
    rw [ih, append_assoc, singleton_append]

theorem parts_posix {path : Path} (h : path ≠ []) : parts (posix path) = path.map Name.text := by
  have hslash : ∀ cs ∈ path.map fun n => n.text.toList, '/' ∉ cs := by
    intro cs hcs
    obtain ⟨n, -, rfl⟩ := mem_map.mp hcs
    exact n.valid.2.2.2
  rw [parts, posix, String.toList_ofList, splitOn_intercalate '/' hslash (by simpa using h),
    map_map]
  exact map_congr_left fun n _ => String.ofList_toList

theorem toList_ne_nil_of_ne_empty {s : String} (h : s ≠ "") : s.toList ≠ [] := by
  intro hs
  refine h ?_
  rw [← String.ofList_toList (s := s), hs]

theorem toList_posix_cons (n : Name) (path : Path) :
    ∃ rest, (posix (n :: path)).toList = n.text.toList ++ rest := by
  rw [posix, String.toList_ofList]
  cases path with
  | nil => exact ⟨[], by simp⟩
  | cons m path => exact ⟨_, by rw [map_cons, map_cons, intercalate_cons_cons, append_assoc]⟩

theorem head?_posix (path : Path) : (posix path).toList.head? ≠ some '/' := by
  cases path with
  | nil =>
    rw [posix, String.toList_ofList]
    simp
  | cons n path =>
    obtain ⟨rest, hrest⟩ := toList_posix_cons n path
    obtain ⟨c, cs, hcs⟩ := exists_cons_of_ne_nil (toList_ne_nil_of_ne_empty n.valid.1)
    rw [hrest, hcs]
    rintro hc
    refine n.valid.2.2.2 ?_
    rw [hcs, ← Option.some.inj hc]
    exact mem_cons_self

theorem posix_ne_empty {path : Path} (h : path ≠ []) : posix path ≠ "" := by
  obtain ⟨n, path, rfl⟩ := exists_cons_of_ne_nil h
  obtain ⟨rest, hrest⟩ := toList_posix_cons n path
  intro he
  rw [he] at hrest
  exact toList_ne_nil_of_ne_empty n.valid.1 (append_eq_nil_iff.mp hrest.symm).1

/-- **A normalised path is its own spelling.** -/
theorem normalizePath_posix (project : Path) {path : Path} (h : path ≠ []) :
    normalizePath project (posix path) = .ok path := by
  have hfull : resolve project (posix path) = project ++ path := by
    rw [resolve, if_neg (head?_posix path), parts_posix h, walk_texts]
  rw [normalizePath, if_neg (posix_ne_empty h)]
  simp only [hfull, prefix_append, if_true, drop_left, h, if_false]

theorem resolve_absolute (cwd path : Path) : resolve cwd ("/" ++ posix path) = path := by
  have hlist : ("/" ++ posix path).toList = '/' :: (posix path).toList := by simp
  have hparts : parts ("/" ++ posix path) = "" :: parts (posix path) := by
    rw [parts, hlist, splitOn_cons_eq_if_modifyHead, if_pos (by simp)]
    rfl
  rw [resolve, if_pos (by rw [hlist]; rfl), hparts]
  -- the part before the leading slash is empty
  change walk [] (parts (posix path)) = path
  by_cases hnil : path = []
  · subst hnil
    rfl
  · rw [parts_posix hnil, walk_texts, nil_append]

theorem normalizePath_ne_nil {project : Path} {raw : String} {path : Path}
    (h : normalizePath project raw = .ok path) : path ≠ [] := by
  unfold normalizePath at h
  split at h
  · cases h
  · simp only at h
    split at h
    · split at h
      · cases h
      · next hne =>
        cases h
        exact hne
    · cases h

end KolegaCode.Snapshots
