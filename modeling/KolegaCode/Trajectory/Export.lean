import KolegaCode.Lib.Assoc
import KolegaCode.Lib.Except

/-!
# Trajectory — the file export

`export_atif_to_path` stages the document and the assets under temporary names and renames them into
place; what a failure leaves is cleaned up.
-/

namespace KolegaCode.Trajectory

/-- What stands at a name: a file, a directory, or a link, which may lead nowhere. -/
inductive Node where
  | file (data : List UInt8)
  | dir (entries : List (List Char × Node))
  | link (live : Bool)

/-- What stands at the names of the export; the token of the last three is fresh. -/
structure Directory where
  output : Option Node
  assetsDir : Option Node
  tmpDoc : Option Node := none
  tmpAssets : Option Node := none
  oldAside : Option Node := none

/-- The operations of the export that the system may refuse. -/
inductive Op where
  | makeParent
  | makeAssets
  | write (filename : List Char)
  | read (filename : List Char)
  | writeDocument
  | renameAside
  | renameAssets
  | replaceDocument

inductive ExportError where
  | os
  | hashVerification (filename : List Char)

/-- A step of the export; a step that raises leaves a directory too. -/
abbrev Step := Except (ExportError × Directory) Directory

/-- `Path.exists`, which follows links. -/
def isThere : Option Node → Bool
  | some (.link live) => live
  | some _ => true
  | none => false

def isDir (node : Option Node) : Bool := node matches some (.dir _)

/-- `os.rename`: whether a node may take another's place. -/
def mayReplace : Option Node → Option Node → Bool
  | none, _ => false
  | some _, none => true
  | some (.dir _), some (.dir []) => true
  | some (.dir _), some _ => false
  | some _, target => !isDir target

/-! ### The export -/

section
variable (sha256 : List UInt8 → List Char) (refuses : Op → Bool) (oneName : Bool)
  (rendered : List UInt8) (files : List (List Char × List UInt8))

/-- Does `op`, unless the system refuses it.  What a refused write has written stands under a
temporary name and is deleted with it. -/
def attempt (op : Op) (d : Directory) (next : Except ExportError Directory) : Step :=
  if refuses op then .error (.os, d) else next.mapError (·, d)

def writeAsset (d : Directory) (asset : List Char × List UInt8) : Step := do
  let (filename, data) := asset
  let d ← attempt refuses (.write filename) d <|
    match d.tmpAssets with
    | some (.dir entries) =>
      .ok { d with tmpAssets := some (.dir (Assoc.set entries filename (.file data))) }
    | _ => .error .os
  attempt refuses (.read filename) d <|
    if sha256 data = filename.takeWhile (· ≠ '.') then .ok d
    else .error (.hashVerification filename)

def stageAssets (d : Directory) : Step :=
  if files = [] then .ok d else do
    let d ← attempt refuses .makeAssets d (.ok { d with tmpAssets := some (.dir []) })
    files.foldlM (writeAsset sha256 refuses) d

/-- The document and the assets under temporary names.  `oneName`: the output is named like its
assets directory, and then the two temporary names are one too. -/
def stage (d : Directory) : Step := do
  let d ← attempt refuses .makeParent d (.ok d)
  let d ← stageAssets sha256 refuses files d
  attempt refuses .writeDocument d <|
    if oneName ∧ isDir d.tmpAssets then .error .os
    else .ok { d with tmpDoc := some (.file rendered) }

def renameAside (d : Directory) : Step :=
  if files ≠ [] ∧ isThere d.assetsDir then
    attempt refuses .renameAside d (.ok { d with assetsDir := none, oldAside := d.assetsDir })
  else .ok d

def renameAssets (d : Directory) : Step :=
  if files ≠ [] then
    attempt refuses .renameAssets d <|
      if mayReplace d.tmpAssets d.assetsDir then
        .ok { d with tmpAssets := none, assetsDir := d.tmpAssets }
      else .error .os
  else .ok d

def replaceDocument (d : Directory) : Step :=
  attempt refuses .replaceDocument d <|
    if mayReplace d.tmpDoc d.output then
      .ok { d with tmpDoc := none, output := d.tmpDoc
                   assetsDir := if oneName then d.tmpDoc else d.assetsDir }
    else .error .os

/-- The `finally` of an export that did not get to its end. -/
def cleanUp (d : Directory) : Directory :=
  let d := { d with tmpDoc := none, tmpAssets := none }
  if isThere d.oldAside ∧ ¬ isThere d.assetsDir ∧ mayReplace d.oldAside d.assetsDir then
    { d with oldAside := none, assetsDir := d.oldAside }
  else d

/-- What the export raises and leaves, for how its steps have ended. -/
def finish : Step → Option ExportError × Directory
  | .ok d => (none, if isDir d.oldAside then { d with oldAside := none } else d)
  | .error (e, d) => (some e, cleanUp d)

/-- `export_atif_to_path` for the document and the assets it has built. -/
def exportAtifToPath (d : Directory) : Option ExportError × Directory :=
  finish do
    let d ← stage sha256 refuses oneName rendered files d
    let d ← renameAside refuses files d
    let d ← renameAssets refuses files d
    replaceDocument refuses oneName d

/-- The files among the entries of a directory. -/
def filesIn (entries : List (List Char × Node)) : List (List Char × Node) :=
  files.foldl (fun entries f => Assoc.set entries f.1 (.file f.2)) entries

/-- The assets as one directory. -/
def assetsNode : Node := .dir (filesIn files [])

/-- The asset is written, and read back as its name says. -/
def Written (f : List Char × List UInt8) : Prop :=
  refuses (.write f.1) = false ∧ refuses (.read f.1) = false ∧
    sha256 f.2 = f.1.takeWhile (· ≠ '.')

/-- Everything in front of the document's rename goes well. -/
structure Reaches (assetsDir : Option Node) : Prop where
  makeParent : refuses .makeParent = false
  makeAssets : refuses .makeAssets = false
  assets : ∀ f ∈ files, Written sha256 refuses f
  writeDocument : refuses .writeDocument = false
  names : oneName = false
  renameAside : isThere assetsDir = true → refuses .renameAside = false
  place : isThere assetsDir = false → assetsDir = none
  renameAssets : refuses .renameAssets = false

end

/-! ### What staging does -/

section
variable {sha256 : List UInt8 → List Char} {refuses : Op → Bool} {oneName : Bool}
  {rendered : List UInt8} {files : List (List Char × List UInt8)}

variable {d d' : Directory} {next : Except ExportError Directory} {output assetsDir : Option Node}

theorem attempt_eq_ok {op : Op} :
    attempt refuses op d next = .ok d' ↔ refuses op = false ∧ next = .ok d' := by
  unfold attempt
  cases refuses op <;> cases next <;> simp [Except.mapError]

/-- The directory a step leaves, whether it raises or not. -/
def Step.directory : Step → Directory
  | .ok d => d
  | .error (_, d) => d

/-- What staging leaves alone. -/
def Directory.shown (d : Directory) : Option Node × Option Node × Option Node :=
  (d.output, d.assetsDir, d.oldAside)

theorem shown_attempt {op : Op} (h : ∀ d', next = .ok d' → d'.shown = d.shown) :
    (Step.directory (attempt refuses op d next)).shown = d.shown := by
  unfold attempt
  cases refuses op with
  | true => rfl
  | false =>
    cases next with
    | error e => rfl
    | ok d' => exact h d' rfl

theorem shown_bind {x : Step} {f : Directory → Step} (hx : x.directory.shown = d.shown)
    (hf : ∀ d', d'.shown = d.shown → (f d').directory.shown = d.shown) :
    (Step.directory (x >>= f)).shown = d.shown := by
  cases x with
  | error e => exact hx
  | ok d' => exact hf d' hx

theorem shown_writeAsset (d : Directory) (f : List Char × List UInt8) :
    (Step.directory (writeAsset sha256 refuses d f)).shown = d.shown := by
  refine shown_bind (shown_attempt fun d' h => ?_) fun d' hd => hd ▸ shown_attempt fun d₂ h => ?_
  · split at h
    · exact Except.ok.inj h ▸ rfl
    · cases h
  · split at h
    · exact Except.ok.inj h ▸ rfl
    · cases h

/-- Staging touches nothing but the temporary names. -/
theorem shown_stage (d : Directory) :
    (Step.directory (stage sha256 refuses oneName rendered files d)).shown = d.shown := by
  have hfold : ∀ d, (Step.directory (files.foldlM (writeAsset sha256 refuses) d)).shown
      = d.shown := by
    induction files with
    | nil => exact fun d => rfl
    | cons f fs ih =>
      intro d
      rw [List.foldlM_cons]
      exact shown_bind (shown_writeAsset d f) fun d' hd => hd ▸ ih d'
  refine shown_bind (shown_attempt fun d' h => Except.ok.inj h ▸ rfl) fun d' hd => hd ▸
    shown_bind ?_ fun d₂ hd₂ => hd₂ ▸ shown_attempt fun d₃ h => ?_
  · unfold stageAssets
    split
    · rfl
    · exact shown_bind (shown_attempt fun d₂ h => Except.ok.inj h ▸ rfl)
        fun d₂ hd => hd ▸ hfold d₂
  · split at h
    · cases h
    · exact Except.ok.inj h ▸ rfl

theorem foldlM_writeAsset_eq_ok {entries : List (List Char × Node)}
    (hd : d.tmpAssets = some (.dir entries)) :
    files.foldlM (writeAsset sha256 refuses) d = .ok d' ↔
      (∀ f ∈ files, Written sha256 refuses f) ∧
      d' = { d with tmpAssets := some (.dir (filesIn files entries)) } := by
  induction files generalizing d entries with
  | nil =>
    rw [List.foldlM_nil, filesIn, List.foldl_nil, ← hd]
    simp [pure, Except.pure, eq_comm]
  | cons f fs ih =>
    simp only [List.foldlM_cons, bind_eq_ok, writeAsset, attempt_eq_ok, hd,
      List.forall_mem_cons, filesIn, List.foldl_cons, Written]
    refine ⟨?_, ?_⟩
    · rintro ⟨_, ⟨_, ⟨hw, h₁⟩, hr, h₂⟩, h⟩
      cases h₁
      split at h₂
      next hsha =>
        cases h₂
        obtain ⟨hfs, rfl⟩ := (ih rfl).mp h
        exact ⟨⟨⟨hw, hr, hsha⟩, hfs⟩, rfl⟩
      next => cases h₂
    · rintro ⟨⟨⟨hw, hr, hsha⟩, hfs⟩, rfl⟩
      exact ⟨_, ⟨_, ⟨hw, rfl⟩, hr, if_pos hsha⟩, (ih rfl).mpr ⟨hfs, rfl⟩⟩

theorem stage_eq_ok (hfiles : files ≠ []) :
    stage sha256 refuses oneName rendered files d = .ok d' ↔
      (refuses .makeParent = false ∧ refuses .makeAssets = false ∧
        (∀ f ∈ files, Written sha256 refuses f) ∧ refuses .writeDocument = false ∧
        oneName = false) ∧
      d' = { d with tmpDoc := some (.file rendered), tmpAssets := some (assetsNode files) } := by
  simp only [stage, stageAssets, if_neg hfiles, bind_eq_ok, attempt_eq_ok]
  refine ⟨?_, ?_⟩
  · rintro ⟨_, ⟨hparent, hd⟩, d₂, ⟨_, ⟨hassets, hd₁⟩, hfold⟩, hdoc, hwrite⟩
    cases hd
    cases hd₁
    obtain ⟨hwritten, rfl⟩ := (foldlM_writeAsset_eq_ok rfl).mp hfold
    cases hone : oneName with
    | false =>
      rw [hone] at hwrite
      cases hwrite
      exact ⟨⟨hparent, hassets, hwritten, hdoc, rfl⟩, rfl⟩
    | true =>
      rw [hone] at hwrite
      cases hwrite
  · rintro ⟨⟨hparent, hassets, hwritten, hdoc, rfl⟩, rfl⟩
    exact ⟨_, ⟨hparent, rfl⟩, _, ⟨_, ⟨hassets, rfl⟩,
      (foldlM_writeAsset_eq_ok rfl).mpr ⟨hwritten, rfl⟩⟩, hdoc, rfl⟩

/-! ### The failures -/

theorem cleanUp_shown (h : isThere d.oldAside = true → isThere d.assetsDir = true) :
    (cleanUp d).output = d.output ∧ (cleanUp d).assetsDir = d.assetsDir := by
  unfold cleanUp
  rw [if_neg fun hc => hc.2.1 (h hc.1)]
  exact ⟨rfl, rfl⟩

/-- The document's rename, the last step: where it fails, assets that are there stay. -/
theorem finish_replaceDocument (h : isThere d.oldAside = true → isThere d.assetsDir = true) :
    ((finish (replaceDocument refuses oneName d)).1 ≠ none →
      (finish (replaceDocument refuses oneName d)).2.output = output ∧
        (finish (replaceDocument refuses oneName d)).2.assetsDir = assetsDir) ↔
      (refuses .replaceDocument = true ∨ mayReplace d.tmpDoc d.output = false →
        d.output = output ∧ d.assetsDir = assetsDir) := by
  obtain ⟨ho, ha⟩ := cleanUp_shown h
  unfold replaceDocument attempt
  cases refuses .replaceDocument <;> cases mayReplace d.tmpDoc d.output <;>
    simp [finish, Except.mapError, ho, ha]

theorem mayReplace_file (data : List UInt8) (target : Option Node) :
    mayReplace (some (.file data)) target = !isDir target := by
  cases target with
  | none => rfl
  | some node => cases node <;> simp [mayReplace, isDir]

/-- What the renames make of a staged export with assets. -/
theorem finish_renames_iff (hfiles : files ≠ [])
    (hd : d = ⟨output, assetsDir, some (.file rendered), some (assetsNode files), none⟩) :
    let run := finish (renameAside refuses files d >>= fun d => renameAssets refuses files d >>=
      fun d => replaceDocument refuses oneName d)
    (run.1 ≠ none → run.2.output = output ∧ run.2.assetsDir = assetsDir) ↔
      ¬ (assetsDir ≠ some (assetsNode files) ∧
        (isThere assetsDir = true → refuses .renameAside = false) ∧
        (isThere assetsDir = false → assetsDir = none) ∧ refuses .renameAssets = false ∧
        (refuses .replaceDocument = true ∨ isDir output = true)) := by
  subst hd
  -- the state in front of the document's rename
  have hlast : ∀ aside, (let run := finish (replaceDocument refuses oneName
        ⟨output, some (assetsNode files), some (.file rendered), none, aside⟩)
      run.1 ≠ none → run.2.output = output ∧ run.2.assetsDir = assetsDir) ↔
      ¬ (assetsDir ≠ some (assetsNode files) ∧
        (refuses .replaceDocument = true ∨ isDir output = true)) := by
    intro aside
    refine (finish_replaceDocument fun _ => rfl).trans ?_
    simp only [mayReplace_file, Bool.not_eq_false', true_and, ne_eq, not_and,
      eq_comm (a := some (assetsNode files))]
    exact ⟨fun h hne hf => hne (h hf), fun h hf => by_contra fun hne => h hne hf⟩
  intro run
  have hrun : run = finish (renameAside refuses files
    ⟨output, assetsDir, some (.file rendered), some (assetsNode files), none⟩ >>= fun d =>
      renameAssets refuses files d >>= fun d => replaceDocument refuses oneName d) := rfl
  simp only [renameAside, renameAssets, attempt, hfiles, ne_eq, not_false_eq_true, true_and,
    if_true] at hrun
  cases hthere : isThere assetsDir with
  | false =>
    simp only [hthere, Bool.false_eq_true, if_false] at hrun
    by_cases hgoes : refuses .renameAssets = false ∧ assetsDir = none
    · obtain ⟨hrefuses, rfl⟩ := hgoes
      rw [hrefuses] at hrun
      rw [hrun]
      refine (hlast none).trans (not_congr ?_)
      simp [hrefuses]
    · have hfail : run = finish (.error (.os,
          ⟨output, assetsDir, some (.file rendered), some (assetsNode files), none⟩)) := by
        rw [hrun]
        cases hrefuses : refuses .renameAssets with
        | true => rfl
        | false =>
          match assetsDir, hthere, hgoes with
          | none, _, h => exact absurd ⟨hrefuses, rfl⟩ h
          | some (.link false), _, _ => rfl
      rw [hfail]
      exact iff_of_true (fun _ => cleanUp_shown nofun)
        fun h => hgoes ⟨h.2.2.2.1, h.2.2.1 rfl⟩
  | true =>
    simp only [hthere, if_true] at hrun
    cases haside : refuses .renameAside with
    | true =>
      rw [haside] at hrun
      rw [hrun]
      exact iff_of_true (fun _ => cleanUp_shown fun _ => hthere) fun h => nomatch h.2.1 rfl
    | false =>
      rw [haside] at hrun
      cases hrename : refuses .renameAssets with
      | true =>
        -- the old assets stand aside of nothing, and come back
        have hback : mayReplace assetsDir none = true := by
          cases assetsDir with
          | none => cases hthere
          | some node => rfl
        rw [hrename] at hrun
        replace hrun : run = (some .os, cleanUp
          ⟨output, none, some (.file rendered), some (assetsNode files), assetsDir⟩) := hrun
        rw [hrun]
        refine iff_of_true (fun _ => ?_) fun h => nomatch h.2.2.2.1
        rw [cleanUp, if_pos ⟨hthere, Bool.false_ne_true, hback⟩]
        exact ⟨rfl, rfl⟩
      | false =>
        rw [hrename] at hrun
        rw [hrun]
        refine (hlast assetsDir).trans (not_congr ?_)
        simp

/-- **A failed export leaves the previous one as it was**, unless it is the document's rename that
fails after the assets directory has become another one. -/
theorem exportAtifToPath_intact_iff (output assetsDir : Option Node) :
    let run := exportAtifToPath sha256 refuses oneName rendered files { output, assetsDir }
    (run.1 ≠ none → run.2.output = output ∧ run.2.assetsDir = assetsDir) ↔
      ¬ (files ≠ [] ∧ assetsDir ≠ some (assetsNode files) ∧
        Reaches sha256 refuses oneName files assetsDir ∧
        (refuses .replaceDocument = true ∨ isDir output = true)) := by
  intro run
  have hrun : run = finish (stage sha256 refuses oneName rendered files { output, assetsDir } >>=
    fun d => renameAside refuses files d >>= fun d => renameAssets refuses files d >>=
    fun d => replaceDocument refuses oneName d) := rfl
  have hshown : (Step.directory (stage sha256 refuses oneName rendered files
    { output, assetsDir })).shown = (output, assetsDir, none) := shown_stage _
  cases hstage : stage sha256 refuses oneName rendered files { output, assetsDir } with
  | error e =>
    rw [hstage] at hshown hrun
    obtain ⟨rfl, rfl, hold⟩ : _ ∧ _ ∧ _ := by simpa [Directory.shown, Step.directory] using hshown
    refine iff_of_true (fun _ => hrun ▸ cleanUp_shown (by rw [hold]; exact nofun)) ?_
    rintro ⟨hfiles, -, h, -⟩
    have hok : stage sha256 refuses oneName rendered files ⟨e.2.output, e.2.assetsDir, none, none,
      none⟩ = .ok _ := (stage_eq_ok hfiles).mpr
        ⟨⟨h.makeParent, h.makeAssets, h.assets, h.writeDocument, h.names⟩, rfl⟩
    cases hstage.symm.trans hok
  | ok d =>
    rw [hstage] at hshown hrun
    obtain ⟨rfl, rfl, hold⟩ : _ ∧ _ ∧ _ := by simpa [Directory.shown, Step.directory] using hshown
    replace hrun : run = finish (renameAside refuses files d >>= fun d =>
      renameAssets refuses files d >>= fun d => replaceDocument refuses oneName d) := hrun
    by_cases hfiles : files = []
    · refine iff_of_true ?_ (fun h => h.1 hfiles)
      simp only [renameAside, renameAssets, hfiles, ne_eq, not_true_eq_false, false_and,
        if_false] at hrun
      rw [hrun]
      exact (finish_replaceDocument (by rw [hold]; exact nofun)).mpr fun _ => ⟨rfl, rfl⟩
    · obtain ⟨⟨hparent, hassets, hwritten, hdoc, hone⟩, hd⟩ := (stage_eq_ok hfiles).mp hstage
      rw [hrun]
      refine (finish_renames_iff hfiles hd).trans (not_congr ⟨?_, ?_⟩)
      · rintro ⟨hne, haside, hplace, hrename, hfails⟩
        exact ⟨hfiles, hne,
          ⟨hparent, hassets, hwritten, hdoc, hone, haside, hplace, hrename⟩, hfails⟩
      · rintro ⟨-, hne, h, hfails⟩
        exact ⟨hne, h.renameAside, h.place, h.renameAssets, hfails⟩

/-- The document's rename fails: the new asset has replaced the old one, whose directory stays
aside. -/
theorem exportAtifToPath_replaced :
    let old := Node.dir [("a.png".toList, .file [1])]
    let run := exportAtifToPath (fun data => if data = [2] then "b".toList else [])
      (fun op => op matches .replaceDocument) false [] [("b.png".toList, [2])]
      { output := some (.file []), assetsDir := some old }
    run.1 ≠ none ∧ run.2.assetsDir ≠ some old := by
  refine ⟨nofun, fun h => ?_⟩
  have hfirst : (some (Node.dir [("b.png".toList, .file [2])])
    = some (.dir [("a.png".toList, .file [1])])) := h
  simp at hfirst

end

end KolegaCode.Trajectory
