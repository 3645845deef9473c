import KolegaCode.Lib.Except
import KolegaCode.Memory.Markdown

/-!
# Memory — scans within the limits

A scan of a tree that is within every limit succeeds, and what it finds adds up to what is stored
(`scan_of_kept`).  The checks of a write are then checks of what is stored (`checks_of_kept`).
-/

namespace KolegaCode.Memory

open List

/-! ### What is stored -/

def countsFile : Entry String → Nat
  | .file _ => 1
  | .dir => 0

def countsDirectory : Entry String → Nat
  | .file _ => 0
  | .dir => 1

def countsBytes : Entry String → Nat
  | .file data => data.utf8ByteSize
  | .dir => 0

def fileCount (root : Root) : Nat := root.tally countsFile

/-- The directories below the root. -/
def directories (root : Root) : Nat := root.tally countsDirectory

def storedBytes (root : Root) : Nat := root.tally countsBytes

/-- Every limit that a scan enforces. -/
structure Within (root : Root) : Prop where
  entries : root.entries.length ≤ MAX_SCAN_ENTRIES
  directories : 1 + directories root ≤ MAX_SCAN_DIRECTORIES
  depth : ∀ path, root.get path = some .dir → path.length ≤ MAX_DIRECTORY_DEPTH
  files : fileCount root ≤ MAX_FILES
  fileBytes : ∀ path data, root.get path = some (.file data) → data.utf8ByteSize ≤ MAX_FILE_BYTES
  totalBytes : storedBytes root ≤ MAX_TOTAL_BYTES

/-- A tree within the limits in which every file is a memory file. -/
structure Kept (u : Unicode) (root : Root) : Prop extends Within root where
  rooted : root.Rooted
  named : ∀ path data, root.get path = some (.file data) → isMarkdown u (path.getLast?.getD "")

variable {u : Unicode} {root : Root}

theorem entries_length (root : Root) : root.entries.length = fileCount root + directories root := by
  unfold fileCount directories FileTree.tally
  induction root.entries with
  | nil => rfl
  | cons e entries ih =>
    rw [length_cons, ih, map_cons, sum_cons, map_cons, sum_cons]
    cases e.2 with
    | file | dir => simp only [countsFile, countsDirectory]; omega

theorem kept_empty (u : Unicode) : Kept u .empty where
  entries := Nat.zero_le _
  directories := by decide
  depth path h := by
    by_cases hpath : path = []
    · rw [hpath]
      exact Nat.zero_le _
    · rw [FileTree.get_of_ne hpath] at h
      cases h
  files := Nat.zero_le _
  fileBytes path data h := by
    by_cases hpath : path = []
    · rw [hpath] at h
      cases h
    · rw [FileTree.get_of_ne hpath] at h
      cases h
  totalBytes := Nat.zero_le _
  rooted := FileTree.rooted_empty
  named path data h := by
    by_cases hpath : path = []
    · rw [hpath] at h
      cases h
    · rw [FileTree.get_of_ne hpath] at h
      cases h

/-! ### A scan is a fold over the walk -/

theorem foldlM_flatMap {ε α β σ : Type} (f : σ → β → Except ε σ) (g : α → List β) (l : List α)
    (s : σ) : (l.flatMap g).foldlM f s = l.foldlM (fun s a => (g a).foldlM f s) s := by
  induction l generalizing s with
  | nil => rfl
  | cons a l ih =>
    rw [flatMap_cons, foldlM_append, foldlM_cons]
    exact congrArg _ (funext ih)

theorem scanDirectory_eq (hdepth : ∀ path, root.get path = some .dir →
    path.length ≤ MAX_DIRECTORY_DEPTH) {fuel : Nat} {path : List String} (scan : Scan)
    (hpath : root.get path = some .dir) (hfuel : MAX_DIRECTORY_DEPTH < path.length + fuel) :
    scanDirectory u root fuel path scan =
      (root.walk fuel path).foldlM (fun scan e => visit u scan e.1 e.2) scan := by
  have hshallow := hdepth path hpath
  induction fuel generalizing path scan with
  | zero => omega
  | succ fuel ih =>
    rw [scanDirectory, if_neg (by omega), FileTree.walk, foldlM_flatMap]
    congr 1
    funext scan name
    cases hget : root.get (path ++ [name]) with
    | none => rfl
    | some e =>
      cases e with
      | file data =>
        simp only [foldlM_cons, foldlM_nil, bind_pure]
      | dir =>
        have hlen : (path ++ [name]).length = path.length + 1 := length_append
        simp only [foldlM_cons]
        congr 1
        funext scan
        exact ih scan hget (by omega) (hdepth _ hget)

/-! ### What a scan counts -/

def scanned : List String × Entry String → Option ScannedFile
  | (path, .file data) => some ⟨joined path, data⟩
  | (_, .dir) => none

@[simp] theorem filterMap_scanned_file (path : List String) (data : String)
    (l : List (List String × Entry String)) :
    ((path, .file data) :: l).filterMap scanned = ⟨joined path, data⟩ :: l.filterMap scanned := rfl

@[simp] theorem filterMap_scanned_dir (path : List String)
    (l : List (List String × Entry String)) :
    ((path, .dir) :: l).filterMap scanned = l.filterMap scanned := rfl

/-- A scan after some more entries. -/
def Scan.counted (scan : Scan) (l : List (List String × Entry String)) : Scan where
  files := scan.files ++ l.filterMap scanned
  entries := scan.entries + l.length
  directories := scan.directories + (l.map fun e => countsDirectory e.2).sum
  totalBytes := scan.totalBytes + (l.map fun e => countsBytes e.2).sum

variable (l : List (List String × Entry String))

theorem length_scanned :
    (l.filterMap scanned).length = (l.map fun e => countsFile e.2).sum := by
  induction l with
  | nil => rfl
  | cons e l ih =>
    obtain ⟨path, e⟩ := e
    cases e with
    | file data =>
      rw [filterMap_scanned_file, length_cons, ih, map_cons, sum_cons, Nat.add_comm]
      rfl
    | dir =>
      rw [filterMap_scanned_dir, ih, map_cons, sum_cons]
      exact (Nat.zero_add _).symm

theorem totalSize_scanned :
    totalSize (l.filterMap scanned) = (l.map fun e => countsBytes e.2).sum := by
  unfold totalSize
  induction l with
  | nil => rfl
  | cons e l ih =>
    obtain ⟨path, e⟩ := e
    cases e with
    | file data =>
      rw [filterMap_scanned_file, map_cons, sum_cons, ih, map_cons, sum_cons]
      rfl
    | dir =>
      rw [filterMap_scanned_dir, ih, map_cons, sum_cons]
      exact (Nat.zero_add _).symm

/-- What a scan needs of an entry that it meets. -/
def Fits (u : Unicode) : List String × Entry String → Prop
  | (path, .file data) => isMarkdown u (path.getLast?.getD "") ∧ data.utf8ByteSize ≤ MAX_FILE_BYTES
  | (_, .dir) => True

/-- A scan stays within its limits while the entries to come do. -/
structure Scan.Bounded (scan : Scan) : Prop where
  entries : scan.entries ≤ MAX_SCAN_ENTRIES
  directories : scan.directories ≤ MAX_SCAN_DIRECTORIES
  files : scan.files.length ≤ MAX_FILES
  totalBytes : scan.totalBytes ≤ MAX_TOTAL_BYTES

variable {scan : Scan} {e : List String × Entry String} {l : List (List String × Entry String)}

theorem visit_of_bounded (hfits : Fits u e) (h : (scan.counted [e]).Bounded) :
    visit u scan e.1 e.2 = .ok (scan.counted [e]) := by
  obtain ⟨path, e⟩ := e
  obtain ⟨hentries, hdirectories, hfiles, hbytes⟩ := h
  cases e with
  | dir =>
    simp only [Scan.counted, length_singleton, map_cons, map_nil, sum_cons,
      sum_nil, countsDirectory] at hentries hdirectories
    rw [visit, if_neg (by simpa using hentries)]
    rw [if_neg (by simpa using hdirectories)]
    simp [Scan.counted, scanned, countsDirectory, countsBytes]
  | file data =>
    simp only [Scan.counted, scanned, length_singleton, map_cons, map_nil,
      sum_cons, sum_nil, countsBytes, filterMap_cons, filterMap_nil,
      length_append] at hentries hfiles hbytes
    rw [visit, if_neg (by simpa using hentries)]
    rw [if_pos hfits.1, scanFile, if_neg (by simpa using Nat.not_le.mpr hfiles),
      if_neg (Nat.not_lt.mpr hfits.2), if_neg (by simpa using hbytes)]
    simp [Scan.counted, scanned, countsDirectory, countsBytes]

theorem counted_cons (scan : Scan) (e : List String × Entry String)
    (l : List (List String × Entry String)) : scan.counted (e :: l) =
      (scan.counted [e]).counted l := by
  rw [Scan.counted, Scan.counted, Scan.counted, Scan.mk.injEq]
  refine ⟨?_, ?_, ?_, ?_⟩
  · rw [← singleton_append, filterMap_append, append_assoc]
  · rw [length_cons, length_singleton, Nat.add_comm l.length, Nat.add_assoc]
  · rw [map_cons, sum_cons, map_singleton, sum_singleton, Nat.add_assoc]
  · simp only [map_cons, sum_cons, map_nil, sum_nil, Nat.add_zero, Nat.add_assoc]

theorem Scan.Bounded.of_counted (h : (scan.counted l).Bounded) : scan.Bounded := by
  obtain ⟨hentries, hdirectories, hfiles, hbytes⟩ := h
  rw [Scan.counted, length_append] at hfiles
  exact ⟨Nat.le_of_add_right_le hentries, Nat.le_of_add_right_le hdirectories,
    Nat.le_of_add_right_le hfiles, Nat.le_of_add_right_le hbytes⟩

theorem foldlM_visit (hfits : ∀ e ∈ l, Fits u e) (h : (scan.counted l).Bounded) :
    l.foldlM (fun scan e => visit u scan e.1 e.2) scan = .ok (scan.counted l) := by
  induction l generalizing scan with
  | nil => simp [Scan.counted, pure, Except.pure]
  | cons e l ih =>
    rw [counted_cons] at h ⊢
    have hvisit := visit_of_bounded (hfits e mem_cons_self) h.of_counted
    rw [foldlM_cons, hvisit]
    exact ih (fun e' he' => hfits e' (mem_cons_of_mem _ he')) h

/-! ### Scans of a kept tree -/

theorem height_le (hdepth : ∀ path, root.get path = some .dir →
    path.length ≤ MAX_DIRECTORY_DEPTH) : root.height ≤ MAX_DIRECTORY_DEPTH + 2 := by
  refine FileTree.height_le fun path name hthere => ?_
  have hparent := hdepth path (FileTree.get_parent hthere)
  rw [length_append, length_singleton]
  omega

/-- **A tree within the limits can be scanned**, and the files of the scan are those that are
stored. -/
theorem scan_of_kept (h : Kept u root) : ∃ files, scanMarkdownFiles u root = .ok files ∧
    files.length = fileCount root ∧ totalSize files = storedBytes root := by
  have hheight := height_le h.depth
  have hfits : ∀ e ∈ root.walk (MAX_DIRECTORY_DEPTH + 2) [], Fits u e := by
    rintro ⟨path, e⟩ hmem
    have hget := (FileTree.mem_walk.mp hmem).1
    cases e with
    | file data => exact ⟨h.named path data hget, h.fileBytes path data hget⟩
    | dir => trivial
  have hbounded : (({} : Scan).counted (root.walk (MAX_DIRECTORY_DEPTH + 2) [])).Bounded := by
    constructor
    · rw [Scan.counted, (FileTree.walk_perm h.rooted hheight).length_eq, Nat.zero_add]
      exact h.entries
    · rw [Scan.counted, FileTree.sum_walk h.rooted hheight]
      exact h.directories
    · rw [Scan.counted, nil_append, length_scanned, FileTree.sum_walk h.rooted hheight]
      exact h.files
    · have hsum := FileTree.sum_walk h.rooted hheight countsBytes
      exact ((Nat.zero_add _).trans hsum).trans_le h.totalBytes
  refine ⟨(root.walk (MAX_DIRECTORY_DEPTH + 2) []).filterMap scanned, ?_, ?_, ?_⟩
  · rw [scanMarkdownFiles, scanDirectory_eq h.depth {} root.get_nil (by decide),
      foldlM_visit hfits hbounded]
    rfl
  · rw [length_scanned, FileTree.sum_walk h.rooted hheight]
    rfl
  · rw [totalSize_scanned, FileTree.sum_walk h.rooted hheight]
    rfl

/-- A scan that goes past an entry has counted it. -/
theorem directories_of_visit {scan' : Scan} (hscan : scan.directories ≤ MAX_SCAN_DIRECTORIES)
    (h : visit u scan e.1 e.2 = .ok scan') :
    scan'.directories = scan.directories + countsDirectory e.2 ∧
      scan'.directories ≤ MAX_SCAN_DIRECTORIES := by
  obtain ⟨path, e⟩ := e
  unfold visit at h
  dsimp only at h
  split at h
  · cases h
  · cases e with
    | dir =>
      dsimp only at h
      split at h
      · cases h
      · next hle =>
        cases h
        exact ⟨rfl, Nat.not_lt.mp hle⟩
    | file data =>
      have hsame : scan'.directories = scan.directories := by
        dsimp only at h
        unfold scanFile at h
        split at h
        · split at h
          · cases h
          · split at h
            · cases h
            · split at h
              · cases h
              · cases h
                rfl
        · cases h
          rfl
      exact ⟨hsame, hsame.trans_le hscan⟩

/-- **A tree that can be scanned has not too many directories.** -/
theorem directories_of_scan {files : List ScannedFile} (hrooted : root.Rooted)
    (hdepth : ∀ path, root.get path = some .dir → path.length ≤ MAX_DIRECTORY_DEPTH)
    (h : scanMarkdownFiles u root = .ok files) : 1 + directories root ≤ MAX_SCAN_DIRECTORIES := by
  have hfold : ∀ {l : List (List String × Entry String)} {scan scan' : Scan},
      scan.directories ≤ MAX_SCAN_DIRECTORIES →
      l.foldlM (fun scan e => visit u scan e.1 e.2) scan = .ok scan' →
      scan.directories + (l.map fun e => countsDirectory e.2).sum ≤ MAX_SCAN_DIRECTORIES := by
    intro l
    induction l with
    | nil =>
      intro scan scan' hscan _
      exact hscan
    | cons e l ih =>
      intro scan scan' hscan hl
      rw [foldlM_cons] at hl
      obtain ⟨next, hnext, hl⟩ := bind_eq_ok.mp hl
      obtain ⟨hcount, hle⟩ := directories_of_visit hscan hnext
      have hrest := ih hle hl
      rw [hcount, Nat.add_assoc] at hrest
      rw [map_cons, sum_cons]
      exact hrest
  unfold scanMarkdownFiles at h
  obtain ⟨scan, hscan, -⟩ := bind_eq_ok.mp h
  rw [scanDirectory_eq hdepth {} root.get_nil (by decide)] at hscan
  have hsum := hfold (by decide) hscan
  rw [FileTree.sum_walk hrooted (height_le hdepth)] at hsum
  exact hsum

theorem listEntries_of_kept (h : Kept u root) (query : Option String) :
    ∃ listed, listEntries u root query = .ok listed := by
  obtain ⟨files, hscan, -⟩ := scan_of_kept h
  rw [listEntries, hscan]
  exact ⟨_, rfl⟩

/-- The checks of a write, by what is stored. -/
def admitted (root : Root) (parts : List String) (candidate : String) :
    Except MemorySafetyError (Option Refusal) :=
  if MAX_FILE_BYTES < candidate.utf8ByteSize then .ok (some .fileTooLarge)
  else (readPath root parts).map fun opened =>
    if opened = none ∧ MAX_FILES ≤ fileCount root then some .countLimit
    else if MAX_TOTAL_BYTES <
        storedBytes root - (opened.map (·.utf8ByteSize)).getD 0 + candidate.utf8ByteSize then
      some .totalTooLarge
    else none

theorem checks_of_kept (h : Kept u root) (parts : List String) (candidate : String) :
    checks u root parts candidate = admitted root parts candidate := by
  obtain ⟨files, hscan, hfiles, hbytes⟩ := scan_of_kept h
  rw [checks, admitted]
  split
  · rfl
  · rw [hscan, ← hfiles, ← hbytes]
    cases readPath root parts with
    | error e => rfl
    | ok opened =>
      change (if opened = none ∧ MAX_FILES ≤ files.length then _ else _) = Except.ok (ite _ _ _)
      split
      · rfl
      · split <;> rfl

end KolegaCode.Memory
