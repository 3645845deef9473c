import KolegaCode.Lib.Leads
import KolegaCode.Snapshots.Service

/-!
# Snapshots — what a restore does to the project

`_apply_states` goes through the states captured before a mutation, kind by kind.  `Restoring` says
what holds of the project's files at every point of it, whether it goes on or raises: outside the
paths that were captured nothing changes, except that a directory that was there is made again; and
a child of a captured directory that the capture does not know stays where it is.
-/

namespace KolegaCode.Snapshots

open List

/-- The states are those a capture of `paths` found in `fs`. -/
structure CaptureOf (sha256 : Bytes → String) (fs : Disk) (paths : List Path) (states : States) :
    Prop where
  nodup : states.keys.Nodup
  proper : ∀ path ∈ paths, path ≠ []
  get : ∀ q, states.get? q =
    if Tracked fs paths q then some (stateOf sha256 q (fs.get q)) else none

/-- The blobs hold what the captured files held. -/
def BlobsHold (sha256 : Bytes → String) (blobs : Blobs) (fs : Disk) (paths : List Path) : Prop :=
  ∀ q data, Tracked fs paths q → fs.get q = some (.file data) →
    blobs.get? (sha256 data) = some data

/-- A point of a restore that started in `fs`, of what a capture of `paths` found in `fs₀`. -/
structure Restoring (fs₀ : Disk) (paths : List Path) (fs g : Disk) : Prop where
  created : ∀ q, g.get q ≠ none → fs.get q ≠ none ∨ fs₀.get q ≠ none
  frame : ∀ q, (∀ path ∈ paths, ¬ path <+: q) →
    g.get q = fs.get q ∨ (fs.get q = none ∧ g.get q = some .dir ∧ fs₀.get q = some .dir)
  survives : ∀ d n, fs₀.get d = some .dir → ¬ Tracked fs₀ paths (d ++ [n]) →
    fs.get (d ++ [n]) ≠ none → g.get (d ++ [n]) ≠ none

/-- From `g` to `g'` no captured path that holds what it held is lost again. -/
def Keeps (fs₀ : Disk) (paths : List Path) (g g' : Disk) : Prop :=
  ∀ q, Tracked fs₀ paths q → g.get q = fs₀.get q → g'.get q = fs₀.get q

section

variable {sha256 : Bytes → String} {fs₀ fs g g' : Disk} {paths : List Path}

variable {q r : Path} {data : Bytes} {blobs : Blobs} {kind : SnapshotKind} {s : FileState}

theorem Tracked.exists_touched (h : Tracked fs₀ paths q) : ∃ path ∈ paths, path <+: q := by
  obtain ⟨path, hp, hq⟩ := h
  exact ⟨path, hp, hq.1⟩

theorem Tracked.ne_nil (hp : ∀ path ∈ paths, path ≠ []) (h : Tracked fs₀ paths q) : q ≠ [] := by
  obtain ⟨path, hpath, hq⟩ := h.exists_touched
  rintro rfl
  exact hp path hpath (prefix_nil.mp hq)

theorem Restoring.refl (fs₀ : Disk) (paths : List Path) (fs : Disk) : Restoring fs₀ paths fs fs where
  created := fun _ h => .inl h
  frame := fun _ _ => .inl rfl
  survives := fun _ _ _ _ h => h

/-! ### The three things a restore does -/

/-- A captured path is cleared that was missing, or that does not hold what it held. -/
theorem Restoring.removeTree (h : Restoring fs₀ paths fs g) (hr : r ≠ [])
    (ht : Tracked fs₀ paths r) (hold : fs₀.get r = none ∨ g.get r ≠ fs₀.get r) :
    Restoring fs₀ paths fs (g.removeTree r) ∧ Keeps fs₀ paths g (g.removeTree r) := by
  -- where `r` was a directory it is none now, so nothing stands below it
  have hnone : fs₀.get r = some .dir → ∀ q, r <+: q → r ≠ q → g.get q = none := by
    intro h₀ q hq hne
    refine FileTree.get_below hq hne fun hd => ?_
    rcases hold with hold | hold
    · rw [h₀] at hold
      cases hold
    · exact hold (hd.trans h₀.symm)
  refine ⟨⟨?_, ?_, ?_⟩, ?_⟩
  · intro q hq
    rw [FileTree.get_removeTree hr] at hq
    split at hq
    · exact absurd rfl hq
    · exact h.created q hq
  · intro q hq
    obtain ⟨path, hpath, hpr⟩ := ht.exists_touched
    rw [FileTree.get_removeTree hr, if_neg fun hrq => hq path hpath (hpr.trans hrq)]
    exact h.frame q hq
  · intro d n hd hn hex
    have hg := h.survives d n hd hn hex
    rw [FileTree.get_removeTree hr, if_neg]
    · exact hg
    · intro hrq
      have hne : r ≠ d ++ [n] := fun e => hn (e ▸ ht)
      have hrd : r <+: d := (prefix_concat_iff.mp hrq).resolve_left hne
      exact hg (hnone (FileTree.get_dir_above hrd hd) _ hrq hne)
  · intro q hq he
    rw [FileTree.get_removeTree hr]
    split
    · next hrq =>
      by_contra hex
      have hex₀ : fs₀.get q ≠ none := fun e => hex e.symm
      by_cases hne : r = q
      · subst hne
        exact hold.elim hex₀ fun hn => hn he
      · exact hex₀ (he ▸ hnone (FileTree.get_above hrq hne hex₀) q hrq hne)
    · exact he

theorem Restoring.makeDirs (h : Restoring fs₀ paths fs g) (hr : fs₀.get r = some .dir)
    (hg : g.makeDirs r = .ok g') : Restoring fs₀ paths fs g' ∧ Keeps fs₀ paths g g' := by
  have hget := FileTree.get_of_makeDirs hg
  have hdir : ∀ q, q <+: r → fs₀.get q = some .dir :=
    fun q hq => FileTree.get_dir_above hq hr
  refine ⟨⟨?_, ?_, ?_⟩, ?_⟩
  · intro q hq
    rw [hget] at hq
    split at hq
    · next hqr => exact .inr (by rw [hdir q hqr]; simp)
    · exact h.created q hq
  · intro q hq
    rw [hget]
    split
    · next hqr =>
      rcases h.frame q hq with he | ⟨hn, -, h₀⟩
      · cases hf : fs.get q with
        | none => exact .inr ⟨rfl, rfl, hdir q hqr⟩
        | some e =>
          cases e with
          | dir => exact .inl rfl
          | file data =>
            exact absurd (he.trans hf) (FileTree.not_file_of_makeDirs hg hqr data)
      · exact .inr ⟨hn, rfl, h₀⟩
    · exact h.frame q hq
  · intro d n hd hn hex
    rw [hget]
    split
    · simp
    · exact h.survives d n hd hn hex
  · intro q _ he
    rw [hget]
    split
    · next hqr => exact (hdir q hqr).symm
    · exact he

theorem Restoring.writeBytes (h : Restoring fs₀ paths fs g) (ht : Tracked fs₀ paths r)
    (hr : fs₀.get r = some (.file data)) (hg : g.writeBytes r data = .ok g') :
    Restoring fs₀ paths fs g' ∧ Keeps fs₀ paths g g' := by
  have hget := FileTree.get_of_writeBytes hg
  refine ⟨⟨?_, ?_, ?_⟩, ?_⟩
  · intro q hq
    rw [hget] at hq
    split at hq
    · next hqr => exact .inr (by rw [hqr, hr]; simp)
    · exact h.created q hq
  · intro q hq
    obtain ⟨path, hpath, hpr⟩ := ht.exists_touched
    rw [hget, if_neg (by rintro rfl; exact hq path hpath hpr)]
    exact h.frame q hq
  · intro d n hd hn hex
    rw [hget]
    split
    · simp
    · exact h.survives d n hd hn hex
  · intro q _ he
    rw [hget]
    split
    · next hqr => rw [hqr, hr]
    · exact he

/-! ### One captured path -/

theorem leads_os {f : Disk → Except OsError Disk} {ok : Unit → Disk → Prop} {raised : Disk → Prop}
    (hok : ∀ g', f g = .ok g' → ok () g') (herr : ∀ e, f g = .error e → raised g) :
    Leads (os f) g ok raised := by
  simp only [Leads, os]
  cases h : f g with
  | ok g' => exact hok g' h
  | error e => exact herr e h

theorem leads_removeExisting (h : Restoring fs₀ paths fs g) (hr : r ≠ [])
    (ht : Tracked fs₀ paths r) (hold : fs₀.get r = none ∨ g.get r ≠ fs₀.get r) :
    Leads (removeExisting r) g
      (fun _ g' => Restoring fs₀ paths fs g' ∧ Keeps fs₀ paths g g' ∧ g'.get r = none)
      (fun _ => False) := by
  have hremoved : Restoring fs₀ paths fs (g.removeTree r) ∧ Keeps fs₀ paths g (g.removeTree r) ∧
      (g.removeTree r).get r = none := by
    obtain ⟨h₁, h₂⟩ := h.removeTree hr ht hold
    exact ⟨h₁, h₂, by rw [FileTree.get_removeTree hr, if_pos prefix_rfl]⟩
  unfold removeExisting
  refine leads_bind (leads_get ?_)
  refine leads_ite (fun hex => leads_ite (fun hd => ?_) fun hd => ?_) fun hex => leads_pure ?_
  · have hrm := FileTree.rmtree_of_dir (FileTree.isDir_iff.mp hd)
    exact leads_os (fun g' hg' => by cases hrm.symm.trans hg'; exact hremoved)
      fun e he => by cases hrm.symm.trans he
  · obtain ⟨data, hdata⟩ : ∃ data, g.get r = some (.file data) := by
      rw [FileTree.exists_iff] at hex
      rw [FileTree.isDir_iff] at hd
      match he : g.get r with
      | none => exact absurd he hex
      | some .dir => exact absurd he hd
      | some (.file data) => exact ⟨data, rfl⟩
    have hrm : g.unlink r true = .ok (g.removeTree r) := FileTree.unlink_of_file hdata
    exact leads_os (fun g' hg' => by cases hrm.symm.trans hg'; exact hremoved)
      fun e he => by cases hrm.symm.trans he
  · refine ⟨h, fun q _ he => he, ?_⟩
    simpa using hex

/-- Something above a path is a file. -/
def Obstructs (g : Disk) (r : Path) : Prop :=
  ∃ q data, q <+: r ∧ q ≠ r ∧ g.get q = some (.file data)

theorem Keeps.trans {g'' : Disk} (h : Keeps fs₀ paths g g') (h' : Keeps fs₀ paths g' g'') :
    Keeps fs₀ paths g g'' := fun q ht he => h' q ht (h q ht he)

theorem leads_makeDirs (h : Restoring fs₀ paths fs g) (hr : fs₀.get r = some .dir)
    (hnone : g.get r = none) :
    Leads (os (·.makeDirs r)) g
      (fun _ g' => Restoring fs₀ paths fs g' ∧ Keeps fs₀ paths g g' ∧ g'.get r = some .dir)
      (fun g' => Restoring fs₀ paths fs g' ∧ Keeps fs₀ paths g g' ∧ Obstructs g' r) := by
  refine leads_os (fun g' hg' => ?_) fun e he => ?_
  · obtain ⟨h₁, h₂⟩ := h.makeDirs hr hg'
    exact ⟨h₁, h₂, by rw [FileTree.get_of_makeDirs hg', if_pos prefix_rfl]⟩
  · refine ⟨h, fun q _ he => he, ?_⟩
    by_contra hobs
    obtain ⟨g', hg'⟩ : ∃ g', g.makeDirs r = .ok g' := by
      refine FileTree.makeDirs_isOk fun q hq => ?_
      rintro ⟨data, hf⟩
      refine hobs ⟨q, data, hq, ?_, hf⟩
      rintro rfl
      rw [hnone] at hf
      cases hf
    cases he.symm.trans hg'

theorem leads_restoreDirectory (h : Restoring fs₀ paths fs g) (hne : r ≠ [])
    (ht : Tracked fs₀ paths r) (hr : fs₀.get r = some .dir) :
    Leads (restoreDirectory r) g
      (fun _ g' => Restoring fs₀ paths fs g' ∧ Keeps fs₀ paths g g' ∧ g'.get r = some .dir)
      (fun g' => Restoring fs₀ paths fs g' ∧ Keeps fs₀ paths g g' ∧ Obstructs g' r) := by
  -- what is left to do once no file is at `r`
  have hrest : ∀ g₁, Restoring fs₀ paths fs g₁ → Keeps fs₀ paths g g₁ →
      g₁.get r = none ∨ g₁.get r = some .dir →
      Leads (do
          let fs ← get
          if !fs.exists r then os (·.makeDirs r) : OnDisk Unit) g₁
        (fun _ g' => Restoring fs₀ paths fs g' ∧ Keeps fs₀ paths g g' ∧ g'.get r = some .dir)
        (fun g' => Restoring fs₀ paths fs g' ∧ Keeps fs₀ paths g g' ∧ Obstructs g' r) := by
    intro g₁ h₁ hk hget
    refine leads_bind (leads_get (leads_ite (fun hex => ?_) fun hex => leads_pure ⟨h₁, hk, ?_⟩))
    · have hnone : g₁.get r = none := by simpa using hex
      exact (leads_makeDirs h₁ hr hnone).mono
        (fun _ g' hg' => ⟨hg'.1, hk.trans hg'.2.1, hg'.2.2⟩)
        (fun g' hg' => ⟨hg'.1, hk.trans hg'.2.1, hg'.2.2⟩)
    · exact hget.resolve_left (by simpa using hex)
  unfold restoreDirectory
  refine leads_bind (leads_get ?_)
  refine leads_ite (fun hc => leads_bind ?_) fun hc => ?_
  · simp only [Bool.and_eq_true, Bool.not_eq_true', FileTree.isDir_eq_false_iff] at hc
    refine (leads_removeExisting h hne ht (.inr (by rw [hr]; exact hc.2))).mono
      (fun _ g₁ hg₁ => hrest g₁ hg₁.1 hg₁.2.1 (.inl hg₁.2.2)) fun _ hf => hf.elim
  · refine hrest g h (fun q _ he => he) ?_
    simp only [Bool.and_eq_true, Bool.not_eq_true', FileTree.isDir_eq_false_iff,
      FileTree.exists_iff, not_and, not_not] at hc
    by_cases hnone : g.get r = none
    · exact .inl hnone
    · exact .inr (hc hnone)

theorem readBlob_of_blobsHold (hb : BlobsHold sha256 blobs fs₀ paths)
    (hs : ∀ data, sha256 data ≠ "") (ht : Tracked fs₀ paths r)
    (hr : fs₀.get r = some (.file data)) :
    readBlob sha256 blobs (stateOf sha256 r (some (.file data))) = .ok data := by
  simp only [readBlob, stateOf]
  rw [if_neg (hs data), hb r data ht hr]
  simp

theorem leads_restoreFile (hb : BlobsHold sha256 blobs fs₀ paths) (hs : ∀ data, sha256 data ≠ "")
    (h : Restoring fs₀ paths fs g) (hne : r ≠ []) (ht : Tracked fs₀ paths r)
    (hr : fs₀.get r = some (.file data)) :
    Leads (restoreFile sha256 blobs (stateOf sha256 r (some (.file data)))) g
      (fun _ g' => Restoring fs₀ paths fs g' ∧ Keeps fs₀ paths g g' ∧ g'.get r = fs₀.get r)
      (fun g' => Restoring fs₀ paths fs g' ∧ Keeps fs₀ paths g g' ∧ Obstructs g' r) := by
  obtain ⟨parent, n, rfl⟩ : ∃ parent n, r = parent ++ [n] :=
    ⟨_, _, (dropLast_append_getLast hne).symm⟩
  have hparent : fs₀.get parent = some .dir := FileTree.get_parent (n := n) (by rw [hr]; simp)
  have hup : parent <+: parent ++ [n] := prefix_append parent [n]
  have hupne : parent ≠ parent ++ [n] := by simp
  unfold restoreFile
  simp only [stateOf_path, dropLast_concat, readBlob_of_blobsHold hb hs ht hr]
  -- the file is written into a parent that is there; a parent that is a file is in the way
  have hwrite : ∀ g₂, Restoring fs₀ paths fs g₂ → Keeps fs₀ paths g g₂ →
      g₂.get (parent ++ [n]) ≠ some .dir → g₂.get parent ≠ none →
      Leads (os (·.writeBytes (parent ++ [n]) data)) g₂
        (fun _ g' => Restoring fs₀ paths fs g' ∧ Keeps fs₀ paths g g' ∧
          g'.get (parent ++ [n]) = fs₀.get (parent ++ [n]))
        (fun g' => Restoring fs₀ paths fs g' ∧ Keeps fs₀ paths g g' ∧
          Obstructs g' (parent ++ [n])) := by
    intro g₂ h₂ hk hdir hex
    refine leads_os (fun g' hg' => ?_) fun e he => ⟨h₂, hk, ?_⟩
    · obtain ⟨h₃, hk₃⟩ := h₂.writeBytes ht hr hg'
      exact ⟨h₃, hk.trans hk₃, by rw [FileTree.get_of_writeBytes hg', if_pos rfl, hr]⟩
    · match hp : g₂.get parent with
      | none => exact absurd hp hex
      | some (.file data') => exact ⟨parent, data', hup, hupne, hp⟩
      | some .dir =>
        obtain ⟨g', hg'⟩ :=
          FileTree.writeBytes_isOk (p := parent ++ [n]) (by rwa [dropLast_concat]) hdir data
        cases he.symm.trans hg'
  -- a directory in the file's place is removed first
  have hclear : ∀ g₁, Restoring fs₀ paths fs g₁ → Keeps fs₀ paths g g₁ → g₁.get parent ≠ none →
      Leads (do
          let fs ← get
          if fs.exists (parent ++ [n]) && fs.isDir (parent ++ [n]) then
            os (·.rmtree (parent ++ [n]))
          os (·.writeBytes (parent ++ [n]) data) : OnDisk Unit) g₁
        (fun _ g' => Restoring fs₀ paths fs g' ∧ Keeps fs₀ paths g g' ∧
          g'.get (parent ++ [n]) = fs₀.get (parent ++ [n]))
        (fun g' => Restoring fs₀ paths fs g' ∧ Keeps fs₀ paths g g' ∧
          Obstructs g' (parent ++ [n])) := by
    intro g₁ h₁ hk hex
    refine leads_bind (leads_get (leads_ite (fun hc => leads_bind ?_) fun hc => ?_))
    · have hd : g₁.get (parent ++ [n]) = some .dir := by
        rw [Bool.and_eq_true, FileTree.isDir_iff] at hc
        exact hc.2
      obtain ⟨h₂, hk₂⟩ := h₁.removeTree hne ht (.inr (by rw [hd, hr]; simp))
      have hrm := FileTree.rmtree_of_dir hd
      refine leads_os (fun g₂ hg₂ => ?_) fun e he => by cases hrm.symm.trans he
      cases hrm.symm.trans hg₂
      refine hwrite _ h₂ (hk.trans hk₂) ?_ ?_
      · rw [FileTree.get_removeTree hne, if_pos prefix_rfl]
        simp
      · rw [FileTree.get_removeTree hne, if_neg]
        · exact hex
        · intro hpre
          have hlen := hpre.length_le
          rw [length_append, length_singleton] at hlen
          omega
    · refine hwrite g₁ h₁ hk (fun hd => hc ?_) hex
      simp [hd]
  refine leads_bind (leads_get (leads_ite (fun hc => leads_bind ?_) fun hc => ?_))
  · have hnone : g.get parent = none := by
      rw [Bool.and_eq_true, Bool.not_eq_true', FileTree.exists_eq_false_iff] at hc
      exact hc.2
    refine (leads_makeDirs h hparent hnone).mono
      (fun _ g₁ hg₁ => hclear g₁ hg₁.1 hg₁.2.1 (by rw [hg₁.2.2]; simp)) ?_
    rintro g₁ ⟨h₁, hk, q, data', hq, hqne, hf⟩
    refine ⟨h₁, hk, q, data', hq.trans hup, ?_, hf⟩
    rintro rfl
    exact hupne (hup.eq_of_length_le hq.length_le)
  · refine hclear g h (fun q _ he => he) ?_
    by_cases hnil : parent = []
    · rw [hnil, FileTree.get_nil]
      simp
    · simpa [hnil] using hc

/-! ### All of them -/

/-- An untouched directory above a captured entry has become a file. -/
def Obstructed (fs₀ : Disk) (paths : List Path) (fs : Disk) : Prop :=
  ∃ r q data, Tracked fs₀ paths r ∧ fs₀.get r ≠ none ∧ q <+: r ∧ ¬ Tracked fs₀ paths q ∧
    fs.get q = some (.file data)

/-- A file in the way of a captured entry stands where nothing was captured, when the captured
directories above the entry are back. -/
theorem obstructed_of_obstructs (h : Restoring fs₀ paths fs g) (ht : Tracked fs₀ paths r)
    (hr : fs₀.get r ≠ none) (hobs : Obstructs g r)
    (hup : ∀ q, Tracked fs₀ paths q → q <+: r → q ≠ r → g.get q = fs₀.get q) :
    Obstructed fs₀ paths fs := by
  obtain ⟨q, data, hq, hne, hf⟩ := hobs
  have hdir : fs₀.get q = some .dir := FileTree.get_above hq hne hr
  have hnt : ¬ Tracked fs₀ paths q := by
    intro hqt
    rw [hup q hqt hq hne, hdir] at hf
    cases hf
  refine ⟨r, q, data, ht, hr, hq, hnt, ?_⟩
  have hout : ∀ path ∈ paths, ¬ path <+: q :=
    fun path hp hpq => hnt ⟨path, hp, hpq, .inr (by rw [hdir]; simp)⟩
  rcases h.frame q hout with he | ⟨-, hd, -⟩
  · rw [← he, hf]
  · rw [hd] at hf
    cases hf

theorem leads_loop (earlier : List FileState) {states : List FileState} {f : FileState → OnDisk Unit}
    (hts : ∀ s ∈ earlier ++ states, Tracked fs₀ paths s.path)
    (hstep : ∀ s ∈ states, ∀ g, Restoring fs₀ paths fs g → Leads (f s) g
      (fun _ g' => Restoring fs₀ paths fs g' ∧ Keeps fs₀ paths g g' ∧
        g'.get s.path = fs₀.get s.path)
      (fun g' => Restoring fs₀ paths fs g' ∧ Keeps fs₀ paths g g' ∧ fs₀.get s.path ≠ none ∧
        Obstructs g' s.path))
    (hup : ∀ done s rest, states = done ++ s :: rest → fs₀.get s.path ≠ none →
      ∀ q, Tracked fs₀ paths q → q <+: s.path → q ≠ s.path → fs₀.get q = some .dir →
        ∃ s' ∈ earlier ++ done, s'.path = q)
    (h₀ : Restoring fs₀ paths fs g ∧ ∀ s ∈ earlier, g.get s.path = fs₀.get s.path) :
    Leads (states.forM f) g
      (fun _ g' => Restoring fs₀ paths fs g' ∧
        ∀ s ∈ earlier ++ states, g'.get s.path = fs₀.get s.path)
      (fun g' => Restoring fs₀ paths fs g' ∧ Obstructed fs₀ paths fs) := by
  refine leads_forM (fun done g' => Restoring fs₀ paths fs g' ∧
    ∀ s ∈ earlier ++ done, g'.get s.path = fs₀.get s.path) ?_ (by simpa using h₀)
  intro done s rest he g₁ ⟨h₁, hdone⟩
  have hmem : s ∈ states := by rw [he]; simp
  have htracked : ∀ s' ∈ earlier ++ done, Tracked fs₀ paths s'.path := by
    intro s' hs'
    refine hts s' ?_
    rw [he]
    simp only [mem_append, mem_cons] at hs' ⊢
    tauto
  refine (hstep s hmem g₁ h₁).mono ?_ ?_
  · rintro - g₂ ⟨h₂, hk, hs⟩
    refine ⟨h₂, fun s' hs' => ?_⟩
    rw [← append_assoc, mem_append, mem_singleton] at hs'
    rcases hs' with hs' | rfl
    · exact hk _ (htracked s' hs') (hdone s' hs')
    · exact hs
  · rintro g₂ ⟨h₂, hk, hex, hobs⟩
    refine ⟨h₂, obstructed_of_obstructs h₂ (hts s (mem_append_right _ hmem)) hex hobs ?_⟩
    intro q hq hpre hne
    obtain ⟨s', hs', rfl⟩ :=
      hup done s rest he hex q hq hpre hne (FileTree.get_above hpre hne hex)
    exact hk _ hq (hdone s' hs')

theorem mem_ofKind {states : States} :
    s ∈ ofKind kind states ↔ s ∈ states.map Prod.snd ∧ s.kind = kind := by
  cases kind <;> simp [ofKind, mem_insertionSort]

theorem CaptureOf.mem_ofKind {states : States} (h : CaptureOf sha256 fs₀ paths states) :
    s ∈ ofKind kind states ↔
      ∃ q, Tracked fs₀ paths q ∧ s = stateOf sha256 q (fs₀.get q) ∧ s.kind = kind := by
  rw [Snapshots.mem_ofKind, mem_map]
  constructor
  · rintro ⟨⟨⟨q, s'⟩, hmem, rfl⟩, hk⟩
    have hget := Assoc.get?_of_mem h.nodup hmem
    rw [h.get] at hget
    split at hget
    · next ht =>
      cases hget
      exact ⟨q, ht, rfl, hk⟩
    · cases hget
  · rintro ⟨q, ht, rfl, hk⟩
    have hget : states.get? q = some (stateOf sha256 q (fs₀.get q)) := by rw [h.get, if_pos ht]
    exact ⟨⟨_, Assoc.mem_of_get? hget, rfl⟩, hk⟩

/-- Of a list sorted by depth, what is higher up comes earlier. -/
theorem mem_of_shorter {states done rest : List FileState} {s' : FileState}
    (hsort : states.Pairwise fun a b => a.path.length ≤ b.path.length)
    (he : states = done ++ s :: rest) (hs' : s' ∈ states) (hlt : s'.path.length < s.path.length) :
    s' ∈ done := by
  subst he
  rcases mem_append.mp hs' with h | h
  · exact h
  · rcases mem_cons.mp h with rfl | h
    · exact absurd hlt (lt_irrefl _)
    · have hle := (pairwise_cons.mp (pairwise_append.mp hsort).2.1).1 s' h
      omega

theorem kind_stateOf (sha256 : Bytes → String) (q : Path) (entry : Option (Entry Bytes)) :
    ((stateOf sha256 q entry).kind = .missing ↔ entry = none) ∧
    ((stateOf sha256 q entry).kind = .directory ↔ entry = some .dir) ∧
    ((stateOf sha256 q entry).kind = .file ↔ ∃ data, entry = some (.file data)) := by
  rcases entry with _ | _ | _ <;> simp [stateOf]

section

variable {states : States} (hstates : CaptureOf sha256 fs₀ paths states)
include hstates

theorem CaptureOf.of_mem (hs : s ∈ ofKind kind states) :
    Tracked fs₀ paths s.path ∧ s = stateOf sha256 s.path (fs₀.get s.path) ∧ s.kind = kind := by
  obtain ⟨q, ht, rfl, hk⟩ := hstates.mem_ofKind.mp hs
  rw [stateOf_path]
  exact ⟨ht, rfl, hk⟩

theorem CaptureOf.get_of_mem (hs : s ∈ ofKind kind states) :
    (kind = .missing → fs₀.get s.path = none) ∧ (kind = .directory → fs₀.get s.path = some .dir) ∧
      (kind = .file → ∃ data, fs₀.get s.path = some (.file data)) := by
  obtain ⟨-, he, hk⟩ := hstates.of_mem hs
  rw [he] at hk
  obtain ⟨h₁, h₂, h₃⟩ := kind_stateOf sha256 s.path (fs₀.get s.path)
  exact ⟨fun h => h₁.mp (hk.trans h), fun h => h₂.mp (hk.trans h), fun h => h₃.mp (hk.trans h)⟩

theorem CaptureOf.path_ne_nil (hs : s ∈ ofKind kind states) : s.path ≠ [] :=
  (hstates.of_mem hs).1.ne_nil hstates.proper

theorem CaptureOf.mem_directories (ht : Tracked fs₀ paths q) (hq : fs₀.get q = some .dir) :
    stateOf sha256 q (fs₀.get q) ∈ ofKind .directory states :=
  hstates.mem_ofKind.mpr ⟨q, ht, rfl, (kind_stateOf sha256 q _).2.1.mpr hq⟩

theorem leads_missing (fs : Disk) :
    Leads ((ofKind .missing states).forM fun state => removeExisting state.path) fs
      (fun _ g => Restoring fs₀ paths fs g ∧
        ∀ s ∈ [] ++ ofKind .missing states, g.get s.path = fs₀.get s.path)
      (fun g => Restoring fs₀ paths fs g ∧ Obstructed fs₀ paths fs) := by
  refine leads_loop [] ?_ ?_ ?_ ⟨.refl fs₀ paths fs, by simp⟩
  · intro s hs
    rw [nil_append] at hs
    exact (hstates.of_mem hs).1
  · intro s hs g h
    have hnone := (hstates.get_of_mem hs).1 rfl
    refine (leads_removeExisting h (hstates.path_ne_nil hs) (hstates.of_mem hs).1
      (.inl hnone)).mono (fun _ g' hg' => ⟨hg'.1, hg'.2.1, ?_⟩) fun _ hf => hf.elim
    rw [hg'.2.2, hnone]
  · intro done s rest he hex
    have hs : s ∈ ofKind .missing states := by rw [he]; simp
    exact absurd ((hstates.get_of_mem hs).1 rfl) hex

variable {earlier : List FileState}

theorem leads_directories (hts : ∀ s ∈ earlier, Tracked fs₀ paths s.path)
    (h : Restoring fs₀ paths fs g) (hearlier : ∀ s ∈ earlier, g.get s.path = fs₀.get s.path) :
    Leads ((ofKind .directory states).forM fun state => restoreDirectory state.path) g
      (fun _ g' => Restoring fs₀ paths fs g' ∧
        ∀ s ∈ earlier ++ ofKind .directory states, g'.get s.path = fs₀.get s.path)
      (fun g' => Restoring fs₀ paths fs g' ∧ Obstructed fs₀ paths fs) := by
  refine leads_loop earlier ?_ ?_ ?_ ⟨h, hearlier⟩
  · intro s hs
    exact (mem_append.mp hs).elim (hts s) fun hs => (hstates.of_mem hs).1
  · intro s hs g₁ h₁
    have hdir := (hstates.get_of_mem hs).2.1 rfl
    refine (leads_restoreDirectory h₁ (hstates.path_ne_nil hs) (hstates.of_mem hs).1 hdir).mono
      (fun _ g' hg' => ⟨hg'.1, hg'.2.1, by rw [hg'.2.2, hdir]⟩)
      fun g' hg' => ⟨hg'.1, hg'.2.1, by rw [hdir]; simp, hg'.2.2⟩
  · -- the directories above are higher up, and the list goes from the top down
    intro done s rest he _ q ht hq hne hd
    refine ⟨_, mem_append_right _ (mem_of_shorter (pairwise_insertionSort _ _) he
      (hstates.mem_directories ht hd) ?_), stateOf_path q _⟩
    rw [stateOf_path]
    exact lt_of_le_of_ne hq.length_le fun hlen => hne (hq.eq_of_length hlen)

theorem leads_files (hb : BlobsHold sha256 blobs fs₀ paths) (hs : ∀ data, sha256 data ≠ "")
    (hts : ∀ s ∈ earlier, Tracked fs₀ paths s.path)
    (hdirs : ∀ s ∈ ofKind .directory states, s ∈ earlier) (h : Restoring fs₀ paths fs g)
    (hearlier : ∀ s ∈ earlier, g.get s.path = fs₀.get s.path) :
    Leads ((ofKind .file states).forM fun state => restoreFile sha256 blobs state) g
      (fun _ g' => Restoring fs₀ paths fs g' ∧
        ∀ s ∈ earlier ++ ofKind .file states, g'.get s.path = fs₀.get s.path)
      (fun g' => Restoring fs₀ paths fs g' ∧ Obstructed fs₀ paths fs) := by
  refine leads_loop earlier ?_ ?_ ?_ ⟨h, hearlier⟩
  · intro s hs
    exact (mem_append.mp hs).elim (hts s) fun hs => (hstates.of_mem hs).1
  · intro s hmem g₁ h₁
    obtain ⟨data, hdata⟩ := (hstates.get_of_mem hmem).2.2 rfl
    obtain ⟨ht, he, -⟩ := hstates.of_mem hmem
    have hrest := leads_restoreFile hb hs h₁ (hstates.path_ne_nil hmem) ht hdata
    rw [hdata] at he
    rw [← he] at hrest
    exact hrest.mono (fun _ _ hg' => hg') fun g' hg' =>
      ⟨hg'.1, hg'.2.1, by rw [hdata]; simp, hg'.2.2⟩
  · intro done s rest _ _ q ht _ _ hd
    exact ⟨_, mem_append_left _ (hdirs _ (hstates.mem_directories ht hd)), stateOf_path q _⟩

end

/-- **What a restore comes to.**  It returns with every captured path holding what it held, or it
raises because an untouched directory above one of them has become a file. -/
theorem leads_applyStates {states : States} (hstates : CaptureOf sha256 fs₀ paths states)
    (hb : BlobsHold sha256 blobs fs₀ paths) (hs : ∀ data, sha256 data ≠ "") (fs : Disk) :
    Leads (applyStates sha256 blobs states) fs
      (fun _ g => Restoring fs₀ paths fs g ∧ ∀ q, Tracked fs₀ paths q → g.get q = fs₀.get q)
      (fun g => Restoring fs₀ paths fs g ∧ Obstructed fs₀ paths fs) := by
  have htracked : ∀ {kind s}, s ∈ ofKind kind states → Tracked fs₀ paths s.path :=
    fun hmem => (hstates.of_mem hmem).1
  unfold applyStates
  refine leads_bind ((leads_missing hstates fs).mono (fun _ g₁ h₁ => ?_) fun _ h => h)
  have hts₁ : ∀ s ∈ [] ++ ofKind .missing states, Tracked fs₀ paths s.path := by
    intro s hmem
    rw [nil_append] at hmem
    exact htracked hmem
  refine leads_bind ((leads_directories hstates hts₁ h₁.1 h₁.2).mono (fun _ g₂ h₂ => ?_)
    fun _ h => h)
  have hts₂ : ∀ s ∈ [] ++ ofKind .missing states ++ ofKind .directory states,
      Tracked fs₀ paths s.path :=
    fun s hmem => (mem_append.mp hmem).elim (hts₁ s) htracked
  refine (leads_files hstates hb hs hts₂ (fun s => mem_append_right _) h₂.1 h₂.2).mono
    (fun _ g₃ h₃ => ⟨h₃.1, fun q hq => ?_⟩) fun _ h => h
  -- every captured path is of one of the three kinds
  have hmem : ∀ {kind}, (stateOf sha256 q (fs₀.get q)).kind = kind →
      stateOf sha256 q (fs₀.get q) ∈ ofKind kind states :=
    fun hk => hstates.mem_ofKind.mpr ⟨q, hq, rfl, hk⟩
  have hall : stateOf sha256 q (fs₀.get q) ∈
      [] ++ ofKind .missing states ++ ofKind .directory states ++ ofKind .file states := by
    simp only [nil_append, mem_append]
    cases hk : (stateOf sha256 q (fs₀.get q)).kind with
    | missing => exact .inl (.inl (hmem hk))
    | directory => exact .inl (.inr (hmem hk))
    | file => exact .inr (hmem hk)
  simpa using h₃.2 _ hall

end

end KolegaCode.Snapshots
