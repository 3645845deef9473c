import KolegaCode.Snapshots.Runs

/-!
# Snapshots — undoing without losing work

A restore that is not forced first checks that the project is as the recorded mutation left it.
`LosesNothing` is what that check is for: a restore that raises has changed nothing, and a file
that a restore overwrites or removes held what the record's after-state says.  `undoes` is the
consequence for a chain of mutations that is undone from its end.

The check does not look at the directories above the touched paths, and when one of them has become
a file a restore raises half way.  And an entry that a mutation put into a directory it touches
stays.
-/

namespace KolegaCode.Snapshots

/-- A restore that is not forced raises and leaves the project as it is, or every file that it
overwrites or removes held what the after-state of the record says. -/
def LosesNothing (svc : Service) (s : Store) (snapshotId : String) : Prop :=
  match restoreSnapshot svc snapshotId false s with
  | .error _ s' => s'.fs = s.fs
  | .ok _ s' => ∀ q data, s.fs.get q = some (.file data) → s'.fs.get q ≠ some (.file data) →
      ∃ r state, loadSnapshot svc snapshotId s = .ok r s ∧ r.after.get? q = some state ∧
        readBlob svc.sha256 s'.blobs state = .ok data

/-- No directory above an entry of the record's before-state is a file now, unless the record has
an item for that directory. -/
def Unobstructed (r : SnapshotRecord) (fs : Disk) : Prop :=
  ∀ p q state, r.before.get? p = some state → state.kind ≠ .missing → q <+: p →
    r.before.get? q = none → fs.isFile q = false

/-- A tool's mutation, with the paths it says it touches. -/
structure Mutation where
  mint : Mint
  paths : List String
  mutate : OnDisk Unit

/-- A chain of recorded mutations, and the records it leaves. -/
def recordAll (svc : Service) : List Mutation → OnStore (List SnapshotRecord)
  | [] => pure []
  | m :: ms => do
    let (_, record) ← recordMutation svc m.mint m.paths m.mutate
    let records ← recordAll svc ms
    return record.toList ++ records

/-- The records are restored from the last to the first. -/
def undoAll (svc : Service) : List SnapshotRecord → OnStore Unit
  | [] => pure ()
  | r :: rs => do
    undoAll svc rs
    let _ ← restoreSnapshot svc r.snapshotId false

/-- Undoing a chain of recorded mutations succeeds and gives every touched path back its state. -/
def undoes (svc : Service) (s : Store) (ms : List Mutation) : Bool :=
  match recordAll svc ms s with
  | .error _ _ => true
  | .ok rs s₁ =>
    match undoAll svc rs s₁ with
    | .error _ _ => false
    | .ok _ s₂ => rs.all fun r =>
        statesEqual (captureAll svc.sha256 s₂.fs [] r.touchedPaths).states
          (captureAll svc.sha256 s.fs [] r.touchedPaths).states

/-- A mutation changes nothing but what is at or below the paths it touches. -/
def Confined (paths : List Path) (fs fs' : Disk) : Prop :=
  ∀ q, (∀ path ∈ paths, ¬ path <+: q) → fs'.get q = fs.get q

/-- A mutation puts nothing into a directory at or below a touched path that was there before it,
unless what it puts is a touched path itself. -/
def AddsNothing (paths : List Path) (fs fs' : Disk) : Prop :=
  ∀ d n, (∃ path ∈ paths, path <+: d) → fs.get d = some .dir → fs'.get (d ++ [n]) ≠ none →
    fs.get (d ++ [n]) ≠ none ∨ d ++ [n] ∈ paths

/-- Each mutation of the chain runs, changes nothing else, and adds nothing to a directory. -/
def Undoable (svc : Service) : Disk → List Mutation → Prop
  | _, [] => True
  | fs, m :: ms => ∃ paths fs', touched svc m.paths = .ok paths ∧ m.mutate fs = .ok () fs' ∧
      Confined paths fs fs' ∧ AddsNothing paths fs fs' ∧ Undoable svc fs' ms

/-- The project before each mutation of a chain and after the last. -/
def visited : Disk → List Mutation → List Disk
  | fs, [] => [fs]
  | fs, m :: ms => fs :: visited (endState (m.mutate fs)) ms

/-! ### One restore -/

section

variable {svc : Service} {K : Set Bytes} {s : Store}

theorem not_obstructed {r : SnapshotRecord} {blobs : Blobs} {fs₀ fs₁ fs : Disk}
    (hgen : Genuine svc K blobs r fs₀ fs₁) (h : Unobstructed r fs) :
    ¬ Obstructed fs₀ r.touchedPaths fs := by
  rintro ⟨p, q, data, hp, hex, hq, hnt, hf⟩
  have hfile : fs.isFile q = true := FileTree.isFile_iff.mpr ⟨data, hf⟩
  rw [h p q _ (by rw [hgen.before.get, if_pos hp]) (by rwa [ne_eq, (kind_stateOf svc.sha256 p _).1])
    hq (by rw [hgen.before.get, if_neg hnt])] at hfile
  cases hfile

theorem stateOf_file {sha256 : Bytes → String} {q : Path} {entry : Option (Entry Bytes)}
    {data : Bytes} (h : stateOf sha256 q (some (.file data)) = stateOf sha256 q entry) :
    ∃ data', entry = some (.file data') ∧ sha256 data = sha256 data' := by
  rcases entry with _ | data' | _
  · cases congrArg FileState.kind h
  · exact ⟨data', rfl, Option.some.inj (congrArg FileState.sha256 h)⟩
  · cases congrArg FileState.kind h

/-- A restore that nothing obstructs loses nothing. -/
theorem losesNothing_of_unobstructed (hK : Set.InjOn svc.sha256 K) (h : StoreOk svc K s)
    (hfs : contents s.fs ⊆ K) {snapshotId : String}
    (hr : ∀ r, loadSnapshot svc snapshotId s = .ok r s → r.manual = false ∧ Unobstructed r s.fs) :
    LosesNothing svc s snapshotId := by
  have hload := leads_loadSnapshot svc snapshotId s
  cases hl : loadSnapshot svc snapshotId s with
  | error e s' =>
    have hs' : s' = s := hload.of_error hl
    have hraise : restoreSnapshot svc snapshotId false s = .error e s' := by
      simp only [restoreSnapshot, bind, EStateM.bind, hl]
    rw [LosesNothing, hraise, hs']
  | ok r s' =>
    obtain ⟨rfl, p, hp, rfl⟩ := hload.of_ok hl
    obtain ⟨fs₀, fs₁, hgen⟩ := h.records p hp
    obtain ⟨hmanual, hclear⟩ := hr _ hl
    have hleads : Leads (restoreSnapshot svc snapshotId false) s' _ _ :=
      leads_restoreSnapshot hl hgen h.blobs hfs
    rw [LosesNothing]
    split
    · next e s'' hres =>
      rcases (hleads.of_error hres).2 with hsame | hobs
      · exact hsame.1
      · exact absurd hobs.2 (not_obstructed hgen hclear)
    · next res s'' hres =>
      obtain ⟨hk, hun, hrestoring, -⟩ := hleads.of_ok hres
      intro q data hq hchanged
      -- the restore changes files at or below a touched path only, where the check has looked
      obtain ⟨path, hpath, hpre⟩ : ∃ path ∈ p.2.touchedPaths, path <+: q := by
        by_contra hout
        rcases hrestoring.frame q fun path hp hpre => hout ⟨path, hp, hpre⟩ with he | ⟨hn, -⟩
        · exact hchanged (he.trans hq)
        · rw [hn] at hq
          cases hq
      have hstate := hun rfl hmanual path hpath q hpre
      rw [hq] at hstate
      obtain ⟨data', hdata', hsha⟩ := stateOf_file hstate
      have ht : Tracked fs₁ p.2.touchedPaths q := ⟨path, hpath, hpre, .inr (by rw [hdata']; simp)⟩
      have hsame : data = data' := hK (hfs ⟨q, hq⟩) (hgen.inPlay ⟨q, hdata'⟩) hsha
      subst hsame
      refine ⟨p.2, _, hl, ?_, readBlob_of_blobsHold (hgen.holdAfter.mono hk.2.1)
        svc.sha256_ne_empty ht hdata'⟩
      rw [hgen.after.get, if_pos ht, hdata']

/-! ### A chain of mutations -/

variable {paths : List Path} {fs fs' g g' : Disk}

/-- Undoing one mutation, when the project is as the mutation left it, leaves it as it was. -/
theorem undone_everywhere (hconf : Confined paths fs fs') (hadds : AddsNothing paths fs fs')
    (hg : ∀ q, g.get q = fs'.get q) (h : Restoring fs paths g g')
    (hback : ∀ q, Tracked fs paths q → g'.get q = fs.get q) (q : Path) : g'.get q = fs.get q := by
  by_cases hin : ∃ path ∈ paths, path <+: q
  · obtain ⟨path, hp, hpre⟩ := hin
    refine restored_below h hback ?_ hp hpre
    intro d n ht hd hex
    obtain ⟨path', hp', hpre'⟩ := ht.exists_touched
    rw [hg] at hex
    rcases hadds d n ⟨path', hp', hpre'⟩ hd hex with hwas | hmem
    · exact ⟨path', hp', hpre'.trans (List.prefix_append _ _), .inr hwas⟩
    · exact ⟨_, hmem, below_self fs _⟩
  · have hout : ∀ path ∈ paths, ¬ path <+: q := fun path hp hpre => hin ⟨path, hp, hpre⟩
    have hsame : g.get q = fs.get q := (hg q).trans (hconf q hout)
    rcases h.frame q hout with he | ⟨hnone, -, hdir⟩
    · exact he.trans hsame
    · rw [hnone, hdir] at hsame
      cases hsame

/-- A mutation that changes nothing else obstructs nothing. -/
theorem not_obstructed_of_confined (hconf : Confined paths fs fs')
    (hg : ∀ q, g.get q = fs'.get q) : ¬ Obstructed fs paths g := by
  rintro ⟨r, q, data, ht, hex, hpre, hnt, hf⟩
  have hne : q ≠ r := by
    rintro rfl
    exact hnt ht
  have hdir : fs.get q = some .dir := FileTree.get_above hpre hne hex
  have hout : ∀ path ∈ paths, ¬ path <+: q :=
    fun path hp hpq => hnt ⟨path, hp, hpq, .inr (by rw [hdir]; simp)⟩
  rw [hg, hconf q hout, hdir] at hf
  cases hf

/-- Without collisions, equal captures mean that nothing changed. -/
theorem same_of_statesEqual (hK : Set.InjOn svc.sha256 K) (hfs : contents fs ⊆ K)
    (hfs' : contents fs' ⊆ K) {before after : States}
    (hB : CaptureOf svc.sha256 fs paths before) (hA : CaptureOf svc.sha256 fs' paths after)
    (heq : statesEqual before after = true) (hconf : Confined paths fs fs') (q : Path) :
    fs'.get q = fs.get q := by
  by_cases hin : ∃ path ∈ paths, path <+: q
  · obtain ⟨path, hp, hpre⟩ := hin
    have hstate : stateOf svc.sha256 q (fs.get q) = stateOf svc.sha256 q (fs'.get q) := by
      rw [← hB.stateAt hp hpre, ← hA.stateAt hp hpre, stateAt, stateAt, statesEqual_iff.mp heq q]
    cases he : fs.get q with
    | none =>
      rw [he] at hstate
      exact ((kind_stateOf svc.sha256 q _).1.mp (by rw [← hstate]; rfl))
    | some e =>
      rw [he] at hstate
      cases e with
      | dir => exact ((kind_stateOf svc.sha256 q _).2.1.mp (by rw [← hstate]; rfl))
      | file data =>
        obtain ⟨data', hdata', hsha⟩ := stateOf_file hstate
        rw [hdata', hK (hfs ⟨q, he⟩) (hfs' ⟨q, hdata'⟩) hsha]
  · exact hconf q fun path hp hpre => hin ⟨path, hp, hpre⟩

theorem Mint.id_ne_latest (mint : Mint) : mint.id ≠ "latest" := by
  intro h
  have hlist := congrArg String.toList h
  rw [Mint.id, String.toList_append] at hlist
  have hhead : ("snap_".toList ++ mint.hex.toList).head? = some 's' := rfl
  rw [hlist] at hhead
  cases hhead

theorem loadSnapshot_of_get? {mint : Mint} {r : SnapshotRecord} {blobs : Blobs} {fs₀ fs₁ : Disk}
    (hget : s.records.get? mint.id = some r) (hgen : Genuine svc K blobs r fs₀ fs₁) :
    loadSnapshot svc mint.id s = .ok r s := by
  simp only [loadSnapshot, bind, EStateM.bind, estate_get, if_neg mint.id_ne_latest, hget,
    hgen.isCurrentProject, if_true]
  rfl

/-- The last record of a chain is restored to the project before its mutation. -/
theorem restore_undoes {mint : Mint} {r : SnapshotRecord} (hget : s.records.get? mint.id = some r)
    (hgen : Genuine svc K s.blobs r fs fs') (hb : BlobsSound svc K s.blobs)
    (hfs' : contents fs' ⊆ K) (hconf : Confined r.touchedPaths fs fs')
    (hadds : AddsNothing r.touchedPaths fs fs') (hs : ∀ q, s.fs.get q = fs'.get q) :
    ∃ result s', restoreSnapshot svc mint.id false s = .ok result s' ∧
      KeepsRecords svc K s s' ∧ ∀ q, s'.fs.get q = fs.get q := by
  have hin : contents s.fs ⊆ K := by
    rintro data ⟨q, hq⟩
    rw [hs] at hq
    exact hfs' ⟨q, hq⟩
  have hleads : Leads (restoreSnapshot svc mint.id false) s _ _ :=
    leads_restoreSnapshot (loadSnapshot_of_get? hget hgen) hgen hb hin
  obtain ⟨result, s', hres, hk, -, hrestoring, hback⟩ := hleads.returns (by
    rintro s' ⟨-, ⟨-, -, -, hchanged⟩ | ⟨-, hobs⟩⟩
    · exact hchanged fun path _ q _ => by rw [hs]
    · exact not_obstructed_of_confined hconf hs hobs)
  exact ⟨result, s', hres, hk, undone_everywhere hconf hadds hs hrestoring hback⟩

theorem KeepsRecords.trans {s₁ s₂ s₃ : Store} (h : KeepsRecords svc K s₁ s₂)
    (h' : KeepsRecords svc K s₂ s₃) : KeepsRecords svc K s₁ s₃ :=
  ⟨h'.1.trans h.1, h.2.1.trans h'.2.1, h'.2.2⟩

theorem mem_visited (fs : Disk) (ms : List Mutation) : fs ∈ visited fs ms := by
  cases ms <;> simp [visited]

/-- **A chain of mutations is undone.**  The project is as it was before the first of them, and
nothing that was in the store has been lost. -/
theorem undoAll_recordAll (hK : Set.InjOn svc.sha256 K) {ms : List Mutation}
    (h : StoreOk svc K s) (hvisited : ∀ g ∈ visited s.fs ms, contents g ⊆ K)
    (hms : Undoable svc s.fs ms) (hids : (ms.map fun m => m.mint.hex).Nodup) :
    ∃ rs s₁ s₂, recordAll svc ms s = .ok rs s₁ ∧ undoAll svc rs s₁ = .ok () s₂ ∧
      (∀ q, s₂.fs.get q = s.fs.get q) ∧ StoreOk svc K s₁ ∧ KeepsRecords svc K s₁ s₂ ∧
      BlobsGrow s.blobs s₁.blobs ∧
      ∀ id, (∀ m ∈ ms, m.mint.id ≠ id) → s₁.records.get? id = s.records.get? id := by
  induction ms generalizing s with
  | nil =>
    exact ⟨[], s, s, rfl, rfl, fun _ => rfl, h, ⟨rfl, fun _ _ hd => hd, h.blobs⟩,
      fun _ _ hd => hd, fun _ _ => rfl⟩
  | cons m ms ih =>
    obtain ⟨paths, fs', ht, hm, hconf, hadds, hrest⟩ := hms
    rw [List.map_cons, List.nodup_cons] at hids
    have hfresh : ∀ m' ∈ ms, m'.mint.id ≠ m.mint.id := by
      intro m' hm' he
      have hhex : m'.mint.hex = m.mint.hex := by simpa [Mint.id] using he
      exact hids.1 (List.mem_map.mpr ⟨m', hm', hhex⟩)
    have hfs : contents s.fs ⊆ K := hvisited _ (mem_visited _ _)
    have htail : ∀ g ∈ visited fs' ms, contents g ⊆ K := by
      intro g hg
      refine hvisited g (List.mem_cons_of_mem _ ?_)
      rwa [hm]
    have hfs' : contents fs' ⊆ K := htail _ (mem_visited _ _)
    have hp := touched_ne_nil ht
    have hsound : BlobsSound svc K (blobsOf svc paths s.fs fs' s.blobs) :=
      blobsOf_sound h.blobs hfs hfs'
    have hrec := recordMutation_eq svc m.mint ht m.mutate s
    simp only [hm] at hrec
    split at hrec
    · -- nothing changed, and there is no record
      next heq =>
      obtain ⟨rs, s₁, s₂, hr₁, hu₂, hsame, hok, hk, hg, hget⟩ :=
        ih (s := { s with fs := fs', blobs := blobsOf svc paths s.fs fs' s.blobs })
          (h.grow rfl blobsOf_grow hsound) htail hrest hids.2
      refine ⟨rs, s₁, s₂, ?_, hu₂, fun q => ?_, hok, hk, blobsOf_grow.trans hg, fun id hid => ?_⟩
      · simp only [recordAll, bind, EStateM.bind, hrec, hr₁]
        rfl
      · rw [hsame q]
        exact same_of_statesEqual hK hfs hfs' (captureAll_captureOf svc s.fs s.blobs hp)
          (captureAll_captureOf svc fs' _ hp) heq hconf q
      · exact hget id fun m' hm' => hid m' (List.mem_cons_of_mem _ hm')
    · next hne =>
      have hgen : Genuine svc K _ (recordOf svc m.mint paths s.fs fs' s.blobs) s.fs fs' :=
        recordOf_genuine hK hp h.blobs hfs hfs'
      obtain ⟨rs, s₁, s₂, hr₁, hu₂, hsame, hok, hk, hg, hget⟩ := ih
        (s := { s with fs := fs', blobs := blobsOf svc paths s.fs fs' s.blobs, records :=
          s.records.set m.mint.id (recordOf svc m.mint paths s.fs fs' s.blobs) })
        (h.set blobsOf_grow hsound hgen) htail hrest hids.2
      -- the records of the other mutations have not replaced this one
      have hget₂ : s₂.records.get? m.mint.id = some (recordOf svc m.mint paths s.fs fs' s.blobs) := by
        rw [hk.1, hget _ hfresh, Assoc.get?_set_self]
      obtain ⟨result, s₃, hres, hk₃, hsame₃⟩ := restore_undoes hget₂
        (hgen.mono (BlobsGrow.trans hg hk.2.1)) hk.2.2 hfs' hconf hadds hsame
      refine ⟨recordOf svc m.mint paths s.fs fs' s.blobs :: rs, s₁, s₃, ?_, ?_, hsame₃, hok,
        hk.trans hk₃, blobsOf_grow.trans hg, fun id hid => ?_⟩
      · simp only [recordAll, bind, EStateM.bind, hrec, hr₁]
        rfl
      · change (undoAll svc rs >>= fun _ => restoreSnapshot svc m.mint.id false >>= fun _ => pure ())
          s₁ = _
        simp only [bind, EStateM.bind, hu₂, hres]
        rfl
      · rw [hget id fun m' hm' => hid m' (List.mem_cons_of_mem _ hm')]
        exact Assoc.get?_set_of_ne fun e => hid m List.mem_cons_self e.symm

theorem statesEqual_captureAll (h : ∀ q, g.get q = fs.get q) (paths : List Path) :
    statesEqual (captureAll svc.sha256 g [] paths).states
      (captureAll svc.sha256 fs [] paths).states = true := by
  rw [statesEqual_iff]
  intro q
  have htracked : Tracked g paths q ↔ Tracked fs paths q := by
    simp only [Tracked, Below, h]
  rw [get?_captureAll, get?_captureAll, h]
  by_cases ht : Tracked fs paths q
  · rw [if_pos ht, if_pos (htracked.mpr ht)]
  · rw [if_neg ht, if_neg fun hg => ht (htracked.mp hg)]

end

/-- What the files hold before or after some mutation of a chain. -/
def chainContents (fs : Disk) (ms : List Mutation) : Set Bytes :=
  { data | ∃ g ∈ visited fs ms, data ∈ contents g }

section

variable {svc : Service}

/-- `a/x` is written; then the directory `a` is replaced by a file and `b` is written, by a tool
that names `a/x` and `b`. -/
def obstructedRun : List Op :=
  [.record ⟨"0", "2025-01-01"⟩ ["a/x"] (writeInto ⟨"a", by decide⟩ ⟨"x", by decide⟩ []),
    .record ⟨"1", "2025-01-02"⟩ ["a/x", "b"] (do
      os (·.rmtree [⟨"a", by decide⟩])
      os (·.writeBytes [⟨"a", by decide⟩] [])
      os (·.writeBytes [⟨"b", by decide⟩] [120]))]

/-- A tool that writes an `x` into `d/old`, and names it. -/
def overwrite : Mutation :=
  ⟨⟨"1", "2025-01-02"⟩, ["d/old"], os (·.writeBytes oldPath [120])⟩

/-- Writing a file that is there is a change that can be undone. -/
theorem undoable_writeBytes {fs : Disk} {m : Mutation} {path : Path} {data data' : Bytes}
    (ht : touched svc m.paths = .ok [path]) (hm : m.mutate = os (·.writeBytes path data))
    (hparent : fs.get path.dropLast = some .dir) (hfile : fs.get path = some (.file data')) :
    Undoable svc fs [m] := by
  obtain ⟨fs', hfs'⟩ := FileTree.writeBytes_isOk hparent (by rw [hfile]; simp) data
  have hget := FileTree.get_of_writeBytes hfs'
  refine ⟨[path], fs', ht, ?_, ?_, ?_, trivial⟩
  · simp only [hm, os, hfs']
  · intro q hq
    rw [hget, if_neg]
    rintro rfl
    exact hq q List.mem_cons_self List.prefix_rfl
  · -- nothing at or below the file is a directory
    rintro d n ⟨path', hp, hpre⟩ hd -
    rw [List.mem_singleton] at hp
    subst hp
    rw [FileTree.get_dir_above hpre hd] at hfile
    cases hfile

theorem touched_overwrite :
    touched demo overwrite.paths = .ok [[⟨"d", by decide⟩, ⟨"old", by decide⟩]] := by
  have h : (match touched demo overwrite.paths with
      | .ok paths => decide (paths = [[⟨"d", by decide⟩, ⟨"old", by decide⟩]])
      | .error _ => false) = true := by decide
  cases ht : touched demo overwrite.paths with
  | error e =>
    rw [ht] at h
    cases h
  | ok paths =>
    rw [ht] at h
    rw [of_decide_eq_true h]

end

end KolegaCode.Snapshots
