import KolegaCode.Editing.Files
import KolegaCode.Hashline.Tagged

/-!
# Editing — hashline edits of a file

`hashline_edit` edits a file, deletes it, or writes it under another path and removes it.  Source
and destination are compared as texts: `rename_keeps_iff` says for which spellings the edited file
is there afterwards.
-/

namespace KolegaCode.Editing

open Hashline (HashlineEdit applyHashlineEdits bom dropBom)
open Linked (namei toEnd toEntry toMade)
open Snapshots (Bytes Name)
open Text (normalizeNewlines)

/-! ### The edit -/

/-- What a successful call did. -/
inductive Outcome where
  /-- "You are not allowed to edit this file: …" -/
  | blocked (path : String)
  | deleted (source : String)
  | moved (source destination : String)
  | created (source : String)
  | updated (source : String)
deriving DecidableEq, Repr

/-- Whether an edit needs a line of the file. -/
def anchored : HashlineEdit String → Bool
  | .append none _ => false
  | .prepend none _ => false
  | _ => true

/-- The text that is written, from the text of the source if there is one. -/
def updatedText (original : Option (List Char)) (lineEnding : List Char)
    (edits : List (HashlineEdit String)) (renames : Bool) : Except EditError (List Char) := do
  let logicalOriginal := original.getD []
  let mark := if logicalOriginal.head? = some bom then [bom] else []
  let normalizedOriginal := normalizeNewlines (dropBom logicalOriginal)
  let normalizedUpdated ←
    if original = none ∧ edits = [] then pure []
    else if edits ≠ [] then
      match applyHashlineEdits (String.ofList normalizedOriginal) edits with
      | .ok text => pure text.toList
      | .error error => throw (.hashline error)
    else if renames then pure normalizedOriginal
    else throw .noChanges
  return mark ++ normalizeLineEndings normalizedUpdated lineEnding

/-- The text of the source, if it is there. -/
def originalText (disk : Disk) (steps : List (Step Name)) :
    Except EditError (Option (List Char)) :=
  if disk.exists steps then (readText disk steps).map some else .ok none

/-- The edited content of a file. -/
def editedText (w : Workspace) (disk : Disk) (source : String) (edits : List (HashlineEdit String))
    (renames : Bool) : Except EditError (List Char) := do
  let steps := w.resolvePath source
  let original ← originalText disk steps
  if original = none ∧ edits.any anchored then .error (.fileNotFound source)
  else
    let lineEnding := match original with
      | some text => detectDominantLineEnding disk steps text
      | none => ['\n']
    updatedText original lineEnding edits renames

/-- The source is removed where it was moved, and is still there. -/
def removeSource (disk : Disk) (steps : List (Step Name)) (moved : Bool) : Except EditError Disk :=
  if moved && disk.exists steps then os (disk.unlink steps true) else .ok disk

/-- What is written and removed. -/
def mutate (w : Workspace) (disk : Disk) (source : String) (destination : Option String)
    (updated : List Char) : Except EditError Disk := do
  let disk ← w.writeFile disk (w.resolvePath (destination.getD source)) updated
  removeSource disk (w.resolvePath source) (destination ≠ none)

/-- The deletion of a file. -/
def deleteFile (w : Workspace) (disk : Disk) (source : String) :
    Except EditError (Disk × Outcome) := do
  let _ ← originalText disk (w.resolvePath source)
  return (← removeSource disk (w.resolvePath source) true, .deleted source)

/-- The edit of a file, or its move. -/
def editFile (w : Workspace) (disk : Disk) (source : String) (edits : List (HashlineEdit String))
    (destination : Option String) : Except EditError (Disk × Outcome) :=
  let sourceExists := disk.exists (w.resolvePath source)
  let target := destination.getD source
  if !sourceExists && destination ≠ none then .error .renameMissing
  else do
    let updated ← editedText w disk source edits (destination ≠ none)
    if disk.exists (w.resolvePath target) && !disk.isFile (w.resolvePath target) then
      .error (.isADirectory target)
    else
      w.validatePatchParent disk (w.resolvePath target)
      return (← mutate w disk source destination updated, match destination with
        | some destination => .moved source destination
        | none => if sourceExists then .updated source else .created source)

/-- The destination of a rename that is one: another text than the source. -/
def destinationOf (source : String) (rename : Option String) : Except EditError (Option String) :=
  match rename.filter (· ≠ "") with
  | none => .ok none
  | some path =>
    if blank path then .error .pathRequired
    else .ok (if path = source then none else some path)

/-- `hashline_edit`. -/
def hashlineEdit (w : Workspace) (disk : Disk) (source : String)
    (edits : List (HashlineEdit String)) (delete : Bool) (rename : Option String) :
    Except EditError (Disk × Outcome) :=
  if blank source then .error .pathRequired
  else do
    let destination ← destinationOf source rename
    if delete && destination ≠ none then .error .deleteAndRename
    else if delete && edits ≠ [] then .error .deleteWithEdits
    else
      match (source :: destination.toList).find? w.enforceVibeEditPolicy with
      | some path => .ok (disk, .blocked path)
      | none =>
        if disk.exists (w.resolvePath source) && !disk.isFile (w.resolvePath source) then
          .error (.isADirectory source)
        else if delete then deleteFile w disk source
        else editFile w disk source edits destination

/-! ### Where the edited file is -/

/-- Both paths lead to the same data. -/
def SameFile (disk : Disk) (a b : List (Step Name)) : Prop :=
  ∃ i, disk.stat a = some (.file (.data i)) ∧ disk.stat b = some (.file (.data i))

/-- The destination holds the content, and the source is gone or the same file. -/
structure Renamed (w : Workspace) (disk : Disk) (source destination : String)
    (content : List Char) : Prop where
  holds : disk.read (w.resolvePath destination) = .ok (Utf8.encode content)
  source : disk.lstat (w.resolvePath source) = none ∨
    SameFile disk (w.resolvePath source) (w.resolvePath destination)

theorem hashlineEdit_ok {w : Workspace} {disk disk' : Disk} {source rename : String}
    {edits : List (HashlineEdit String)} {outcome : Outcome} (hr : rename ≠ "")
    (h : hashlineEdit w disk source edits false (some rename) = .ok (disk', outcome))
    (ho : ∀ path, outcome ≠ .blocked path) :
    ∃ content, editedText w disk source edits (rename ≠ source) = .ok content ∧
      ∃ disk₁, w.writeFile disk (w.resolvePath rename) content = .ok disk₁ ∧
        removeSource disk₁ (w.resolvePath source) (rename ≠ source) = .ok disk' ∧
        (rename ≠ source → disk.isFile (w.resolvePath source) = true) := by
  unfold hashlineEdit at h
  split at h
  · cases h
  · obtain ⟨destination, hdest, h⟩ := bind_eq_ok.mp h
    have hdestination : destination.getD source = rename ∧
        (destination ≠ none ↔ rename ≠ source) := by
      unfold destinationOf at hdest
      rw [Option.filter_some, if_pos (by simpa using hr)] at hdest
      dsimp only at hdest
      split at hdest
      · cases hdest
      · cases hdest
        split
        · next heq => exact ⟨heq.symm, by simpa using heq⟩
        · next hne => exact ⟨rfl, by simpa using hne⟩
    obtain ⟨htarget, hmoved⟩ := hdestination
    rw [if_neg (by simp), if_neg (by simp)] at h
    split at h
    · cases h
      exact absurd rfl (ho _)
    · split at h
      · cases h
      · next hfile =>
        rw [if_neg (by decide)] at h
        unfold editFile at h
        dsimp only at h
        split at h
        · cases h
        · next hexists =>
          obtain ⟨content, hcontent, h⟩ := bind_eq_ok.mp h
          split at h
          · cases h
          · obtain ⟨-, -, h⟩ := bind_eq_ok.mp h
            obtain ⟨out, hmutate, h⟩ := bind_eq_ok.mp h
            cases h
            obtain ⟨disk₁, hwrite, hremove⟩ := bind_eq_ok.mp hmutate
            have hdecide : decide (destination ≠ none) = decide (rename ≠ source) := by
              rw [decide_eq_decide]
              exact hmoved
            rw [htarget] at hwrite
            rw [hdecide] at hcontent hremove
            refine ⟨content, hcontent, disk₁, hwrite, hremove, fun hne => ?_⟩
            have hne' := hmoved.mpr hne
            simp only [hne', ne_eq, not_false_eq_true, decide_true, Bool.and_true,
              Bool.not_eq_true, Bool.not_eq_false'] at hexists
            simpa [hexists] using hfile

/-- **A rename.**  The destination holds the edited content, and the source is gone or the same
file, exactly where the two are spelled the same, or the way to the destination does not lead over
the entry of the source. -/
theorem rename_keeps_iff {w : Workspace} {disk disk' : Disk} {source rename : String}
    {edits : List (HashlineEdit String)} {outcome : Outcome} (hr : rename ≠ "")
    (h : hashlineEdit w disk source edits false (some rename) = .ok (disk', outcome))
    (ho : ∀ path, outcome ≠ .blocked path) :
    (∃ content, editedText w disk source edits (rename ≠ source) = .ok content ∧
      Renamed w disk' source rename content) ↔
      rename = source ∨ ¬ LeadsOver w disk source rename := by
  obtain ⟨content, hcontent, disk₁, hwrite, hremove, hsource⟩ := hashlineEdit_ok hr h ho
  obtain ⟨made, f, i, hmade, hf, hwrote⟩ := writeFile_ok hwrite
  have hf₁ : namei toEnd disk₁.tree (w.resolvePath rename) = .ok f :=
    Linked.namei_mono rfl hwrote.more hf (.inr ⟨i, hwrote.entry⟩)
  have hread := hwrote.read hf₁
  by_cases heq : rename = source
  · refine iff_of_true ⟨content, hcontent, ?_⟩ (.inl heq)
    unfold removeSource at hremove
    rw [if_neg (by simp [heq])] at hremove
    cases hremove
    have hstat : disk'.stat (w.resolvePath rename) = some (.file (.data i)) := by
      rw [Linked.stat, hf₁]
      exact hwrote.entry
    exact ⟨hread, .inr ⟨i, by rw [← heq, hstat], hstat⟩⟩
  · rw [or_iff_right heq]
    obtain ⟨g, j, hg, hgdata⟩ := Linked.isFile_iff.mp (hsource heq)
    obtain ⟨e, he, leaf, hleaf⟩ := Linked.namei_entry hg hgdata
    have hmore : ∀ p x, disk.tree.get p = some x → disk₁.tree.get p = some x :=
      fun p x hp => hwrote.more p x (hmade.more hp)
    -- the source is still there when the destination is written
    have hg₁ := Linked.namei_mono rfl hmore hg (.inl (by rw [hgdata]; simp))
    have he₁ := Linked.namei_mono rfl hmore he (.inl (by rw [hleaf]; simp))
    have hexists : disk₁.exists (w.resolvePath source) = true := by
      rw [Linked.exists, Linked.stat, hg₁]
      dsimp only
      rw [hmore _ _ hgdata]
      rfl
    unfold removeSource at hremove
    rw [if_pos (by simp [heq, hexists])] at hremove
    obtain ⟨hgone, hcontents⟩ := Linked.unlink_ok he₁ (hmore _ _ hleaf) (os_ok hremove)
    have hleads : LeadsOver w disk source rename ↔ e.path ∈ f.passed := by
      have hf₀ := Linked.namei_made hmade hf
      constructor
      · rintro ⟨e', f', he', hf', hpass⟩
        rw [he] at he'
        rw [hf₀] at hf'
        cases he'
        cases hf'
        exact hpass
      · exact fun hpass => ⟨e, f, he, hf₀, hpass⟩
    have hwithout := Linked.namei_without rfl hgone hf₁
    have hentry := Linked.namei_without rfl hgone he₁
    rw [if_pos e.path_mem_passed] at hentry
    rw [hleads]
    constructor
    · rintro ⟨content', -, hrenamed⟩ hpass
      rw [if_pos hpass] at hwithout
      obtain ⟨f', i', hf', hget, -⟩ := Linked.read_ok hrenamed.holds
      rw [hwithout f' hf'] at hget
      cases hget
    · intro hpass
      rw [if_neg hpass] at hwithout
      refine ⟨content, hcontent, ?_, .inl ?_⟩
      · have hne : f.path ≠ e.path := fun h => hpass (h ▸ f.path_mem_passed)
        rw [Linked.read, hf₁] at hread
        rw [Linked.read, hwithout]
        dsimp only at hread ⊢
        rw [hgone.rest _ hne, hcontents]
        exact hread
      · rw [Linked.lstat]
        split
        · next e' he' => exact hentry e' he'
        · rfl

theorem rename_keeps_other : ∃ disk' outcome content,
    hashlineEdit ⟨[], []⟩ (oneFile "a.txt" [120]) "a.txt" [] false (some "b.txt") =
      .ok (disk', outcome) ∧ Renamed ⟨[], []⟩ disk' "a.txt" "b.txt" content := by
  have hrun : (hashlineEdit ⟨[], []⟩ (oneFile "a.txt" [120]) "a.txt" [] false (some "b.txt")).map
      Prod.snd = .ok (.moved "a.txt" "b.txt") := by decide
  cases h : hashlineEdit ⟨[], []⟩ (oneFile "a.txt" [120]) "a.txt" [] false (some "b.txt") with
  | error e =>
    rw [h] at hrun
    cases hrun
  | ok r =>
    obtain ⟨disk', outcome⟩ := r
    rw [h] at hrun
    have houtcome : outcome = .moved "a.txt" "b.txt" := Except.ok.inj hrun
    have hleads : ¬ LeadsOver ⟨[], []⟩ (oneFile "a.txt" [120]) "a.txt" "b.txt" := by
      rintro ⟨e, f, he, hf, hpass⟩
      have hsource : namei toEntry (oneFile "a.txt" [120]).tree (stepsOf "a.txt") =
          .ok ⟨[⟨"a.txt", by decide⟩], []⟩ := by decide
      have htarget : namei toMade (oneFile "a.txt" [120]).tree (stepsOf "b.txt") =
          .ok ⟨[⟨"b.txt", by decide⟩], []⟩ := by decide
      cases hsource.symm.trans he
      cases htarget.symm.trans hf
      exact absurd hpass (by decide)
    obtain ⟨content, -, hrenamed⟩ := (rename_keeps_iff (by decide) h (by simp [houtcome])).mpr
      (.inr hleads)
    exact ⟨disk', outcome, content, rfl, hrenamed⟩

/-- **The file is lost.**  The same file under another spelling is written, and then removed. -/
theorem rename_loses_file :
    (hashlineEdit ⟨[], []⟩ (oneFile "a.txt" [120]) "a.txt" [] false (some "./a.txt")).map
        (fun r => (r.2, r.1.read (stepsOf "./a.txt"), r.1.exists (stepsOf "a.txt"))) =
      .ok (.moved "a.txt" "./a.txt", .error .notFound, false) ∧
    editedText ⟨[], []⟩ (oneFile "a.txt" [120]) "a.txt" [] true = .ok ['x'] := by
  decide

end KolegaCode.Editing
