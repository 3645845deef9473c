import KolegaCode.Snapshots.Records

/-!
# Snapshots — runs of the service, and the law of restoring

A run is any sequence of recorded mutations, snapshots made by hand, restores, and changes that the
service knows nothing of.  `_apply_states` removes the paths that were missing, but it does not look
into the directories that were there, so an entry that has appeared in one of them stays
(`restored_iff`).
-/

namespace KolegaCode.Snapshots

open List

/-! ### What recording does -/

section

variable {svc : Service} {K : Set Bytes} {s : Store}

/-- The record of a mutation that took the project from `fs` to `fs'`. -/
def recordOf (svc : Service) (mint : Mint) (paths : List Path) (fs fs' : Disk) (blobs : Blobs) :
    SnapshotRecord :=
  let before := captureAll svc.sha256 fs blobs paths
  { snapshotId := mint.id, projectPath := "/" ++ posix svc.project, createdAt := mint.now,
    touchedPaths := paths, before := before.states,
    after := (captureAll svc.sha256 fs' before.blobs paths).states, manual := false }

/-- The blobs after both captures of a mutation. -/
def blobsOf (svc : Service) (paths : List Path) (fs fs' : Disk) (blobs : Blobs) : Blobs :=
  (captureAll svc.sha256 fs' (captureAll svc.sha256 fs blobs paths).blobs paths).blobs

variable {raws : List String} {fs' : Disk} {blobs : Blobs} {mint : Mint}

theorem recordMutation_eq {α : Type} (svc : Service) (mint : Mint) {paths : List Path}
    (ht : touched svc raws = .ok paths) (mutate : OnDisk α) (s : Store) :
    recordMutation svc mint raws mutate s =
      match mutate s.fs with
      | .error e fs' =>
        .error e { s with fs := fs', blobs := (captureAll svc.sha256 s.fs s.blobs paths).blobs }
      | .ok a fs' =>
        let r := recordOf svc mint paths s.fs fs' s.blobs
        let s' := { s with fs := fs', blobs := blobsOf svc paths s.fs fs' s.blobs }
        if statesEqual r.before r.after then .ok (a, none) s'
        else .ok (a, some r) { s' with records := s'.records.set mint.id r } := by
  have hp := touched_ne_nil ht
  simp only [recordMutation, ht, raiseSnapshot, bind, EStateM.bind, pure, EStateM.pure,
    capturePaths_posix svc _ hp, onDisk]
  cases mutate s.fs with
  | error e fs' => rfl
  | ok a fs' =>
    simp only [recordOf, blobsOf]
    split
    · next heq => exact (if_pos heq).symm
    · next hne => exact (if_neg hne).symm

theorem blobsOf_grow {paths : List Path} {fs : Disk} :
    BlobsGrow blobs (blobsOf svc paths fs fs' blobs) :=
  captureAll_grow.trans captureAll_grow

theorem blobsOf_sound {paths : List Path} {fs : Disk} (hb : BlobsSound svc K blobs)
    (hfs : contents fs ⊆ K) (hfs' : contents fs' ⊆ K) :
    BlobsSound svc K (blobsOf svc paths fs fs' blobs) :=
  captureAll_sound (captureAll_sound hb hfs) hfs'

theorem recordOf_genuine {paths : List Path} {fs : Disk} (hK : Set.InjOn svc.sha256 K)
    (hp : ∀ path ∈ paths, path ≠ []) (hb : BlobsSound svc K blobs) (hfs : contents fs ⊆ K)
    (hfs' : contents fs' ⊆ K) :
    Genuine svc K (blobsOf svc paths fs fs' blobs) (recordOf svc mint paths fs fs' blobs) fs fs' where
  before := captureAll_captureOf svc fs blobs hp
  after := captureAll_captureOf svc fs' _ hp
  holdBefore := (captureAll_hold hK hb hfs).mono captureAll_grow
  holdAfter := captureAll_hold hK (captureAll_sound hb hfs) hfs'
  inPlay := hfs'
  project := rfl

/-! ### Runs -/

/-- One thing that happens to the project and the store. -/
inductive Op where
  /-- the project changes, and the service is not asked -/
  | change (fs : Disk)
  | record (mint : Mint) (paths : List String) (mutate : OnDisk Unit)
  | manual (mint : Mint) (paths : List String)
  | restore (snapshotId : String) (force : Bool)

/-- What it leaves, whether it returns or raises. -/
def step (svc : Service) (s : Store) : Op → Store
  | .change fs => { s with fs }
  | .record mint paths mutate => endState (recordMutation svc mint paths mutate s)
  | .manual mint paths => endState (createManualSnapshot svc mint paths s)
  | .restore snapshotId force => endState (restoreSnapshot svc snapshotId force s)

def run (svc : Service) (s : Store) (ops : List Op) : Store := ops.foldl (step svc) s

/-- What the project's files hold at one time or another of a run. -/
def inPlay (svc : Service) (s : Store) (ops : List Op) : Set Bytes :=
  { data | ∃ k, data ∈ contents (run svc s (ops.take k)).fs }

theorem StoreOk.set {fs : Disk} {id : String} {r : SnapshotRecord} {fs₀ fs₁ : Disk}
    (h : StoreOk svc K s) (hg : BlobsGrow s.blobs blobs) (hb : BlobsSound svc K blobs)
    (hr : Genuine svc K blobs r fs₀ fs₁) :
    StoreOk svc K { fs, blobs, records := s.records.set id r } where
  blobs := hb
  records := by
    have hold : StoreOk svc K { s with blobs } := h.grow rfl hg hb
    exact Assoc.forall_set (P := fun r => ∃ fs₀ fs₁, Genuine svc K blobs r fs₀ fs₁)
      hold.records ⟨fs₀, fs₁, hr⟩

theorem record_storeOk (hK : Set.InjOn svc.sha256 K) (h : StoreOk svc K s) {mutate : OnDisk Unit}
    (hfs : contents s.fs ⊆ K) (hfs' : contents (step svc s (.record mint raws mutate)).fs ⊆ K) :
    StoreOk svc K (step svc s (.record mint raws mutate)) := by
  simp only [step] at hfs' ⊢
  cases ht : touched svc raws with
  | error e =>
    have hraise : recordMutation svc mint raws mutate s = .error (.snapshot e) s := by
      simp only [recordMutation, ht]
      rfl
    rw [hraise]
    exact h
  | ok paths =>
    rw [recordMutation_eq svc mint ht] at hfs' ⊢
    cases hm : mutate s.fs with
    | error e fs' =>
      exact h.grow rfl captureAll_grow (captureAll_sound h.blobs hfs)
    | ok a fs' =>
      simp only [hm] at hfs' ⊢
      split at hfs'
      · next heq =>
        rw [if_pos heq]
        exact h.grow rfl blobsOf_grow (blobsOf_sound h.blobs hfs hfs')
      · next hne =>
        rw [if_neg hne]
        exact h.set blobsOf_grow (blobsOf_sound h.blobs hfs hfs')
          (recordOf_genuine hK (touched_ne_nil ht) h.blobs hfs hfs')

theorem manual_storeOk (hK : Set.InjOn svc.sha256 K) (h : StoreOk svc K s)
    (hfs : contents s.fs ⊆ K) : StoreOk svc K (step svc s (.manual mint raws)) := by
  simp only [step, createManualSnapshot]
  cases ht : touched svc raws with
  | error e => exact h
  | ok paths =>
    have hp := touched_ne_nil ht
    simp only [raiseSnapshot, bind, EStateM.bind, pure, EStateM.pure]
    split
    · exact h
    · have hcapture := captureAll_captureOf svc s.fs s.blobs hp
      have hhold : BlobsHold svc.sha256 (captureAll svc.sha256 s.fs s.blobs paths).blobs s.fs paths :=
        captureAll_hold hK h.blobs hfs
      simp only [EStateM.bind, capturePaths_posix svc s hp]
      exact h.set captureAll_grow (captureAll_sound h.blobs hfs)
        ⟨hcapture, hcapture, hhold, hhold, hfs, rfl⟩

theorem restore_storeOk (h : StoreOk svc K s) {snapshotId : String} {force : Bool}
    (hfs : contents s.fs ⊆ K) : StoreOk svc K (step svc s (.restore snapshotId force)) := by
  simp only [step]
  have hload := leads_loadSnapshot svc snapshotId s
  cases hl : loadSnapshot svc snapshotId s with
  | error e s' =>
    have hs' : s' = s := hload.of_error hl
    subst hs'
    have hraise : restoreSnapshot svc snapshotId force s' = .error e s' := by
      simp only [restoreSnapshot, bind, EStateM.bind, hl]
    rw [hraise]
    exact h
  | ok r s' =>
    obtain ⟨rfl, p, hp, rfl⟩ := hload.of_ok hl
    obtain ⟨fs₀, fs₁, hgen⟩ := h.records p hp
    have hk : KeepsRecords svc K s' (endState (restoreSnapshot svc snapshotId force s')) :=
      ((leads_restoreSnapshot hl hgen h.blobs hfs).mono (fun _ _ hs => hs.1)
        fun _ hs => hs.1).endState
    exact h.grow hk.1 hk.2.1 hk.2.2

/-- Whatever happens keeps the store as it should be. -/
theorem step_storeOk (hK : Set.InjOn svc.sha256 K) (h : StoreOk svc K s) {op : Op}
    (hfs : contents s.fs ⊆ K) (hfs' : contents (step svc s op).fs ⊆ K) :
    StoreOk svc K (step svc s op) := by
  cases op with
  | change fs => exact h.grow rfl (fun _ _ hd => hd) h.blobs
  | record mint paths mutate => exact record_storeOk hK h hfs hfs'
  | manual mint paths => exact manual_storeOk hK h hfs
  | restore snapshotId force => exact restore_storeOk h hfs

/-- **The invariant of runs.** -/
theorem run_storeOk (hK : Set.InjOn svc.sha256 K) {ops : List Op} (h : StoreOk svc K s)
    (hplay : inPlay svc s ops ⊆ K) : StoreOk svc K (run svc s ops) := by
  induction ops generalizing s with
  | nil => exact h
  | cons op ops ih =>
    have hfs : contents s.fs ⊆ K := fun data hd => hplay ⟨0, hd⟩
    have hfs' : contents (step svc s op).fs ⊆ K := fun data hd => hplay ⟨1, by simpa [run] using hd⟩
    refine ih (step_storeOk hK h hfs hfs') ?_
    rintro data ⟨k, hk⟩
    exact hplay ⟨k + 1, hk⟩

theorem contents_run_subset (svc : Service) (s : Store) (ops : List Op) :
    contents (run svc s ops).fs ⊆ inPlay svc s ops := by
  intro data hd
  exact ⟨ops.length, by rwa [take_length]⟩

/-! ### The law of restoring -/

/-- The directories of the record hold nothing, in the project as it is, that the record does not
have an item for. -/
def Knows (before : States) (fs : Disk) : Prop :=
  ∀ d n, (before.get? d).map FileState.kind = some .directory → fs.get (d ++ [n]) ≠ none →
    before.get? (d ++ [n]) ≠ none

theorem statesEqual_iff {left right : States} :
    statesEqual left right = true ↔ ∀ q, left.get? q = right.get? q := by
  rw [statesEqual, all_eq_true]
  simp only [mem_append, decide_eq_true_eq]
  refine ⟨fun h q => ?_, fun h q _ => h q⟩
  by_cases hq : q ∈ left.keys ∨ q ∈ right.keys
  · exact h q hq
  · rw [not_or] at hq
    rw [Assoc.get?_eq_none_iff.mpr hq.1, Assoc.get?_eq_none_iff.mpr hq.2]

variable {sha256 : Bytes → String} {fs₀ fs g : Disk} {paths : List Path} {before again : States}

theorem knows_iff (hB : CaptureOf sha256 fs₀ paths before) :
    Knows before fs ↔ ∀ d n, Tracked fs₀ paths d → fs₀.get d = some .dir →
      fs.get (d ++ [n]) ≠ none → Tracked fs₀ paths (d ++ [n]) := by
  have hdir : ∀ d, (before.get? d).map FileState.kind = some .directory ↔
      Tracked fs₀ paths d ∧ fs₀.get d = some .dir := by
    intro d
    rw [hB.get]
    split
    · next ht =>
      rw [Option.map_some, Option.some_inj, (kind_stateOf sha256 d _).2.1]
      exact ⟨fun h => ⟨ht, h⟩, fun h => h.2⟩
    · next ht => simp [ht]
  have hitem : ∀ q, before.get? q ≠ none ↔ Tracked fs₀ paths q := by
    intro q
    rw [hB.get]
    split <;> simp_all
  simp only [Knows, hdir, hitem]
  exact ⟨fun h d n ht hd => h d n ⟨ht, hd⟩, fun h d n hd => h d n hd.1 hd.2⟩

/-- Where the record knows all that its directories hold, everything at or below a captured path
is as it was. -/
theorem restored_below (h : Restoring fs₀ paths fs g)
    (hback : ∀ q, Tracked fs₀ paths q → g.get q = fs₀.get q)
    (hknown : ∀ d n, Tracked fs₀ paths d → fs₀.get d = some .dir → fs.get (d ++ [n]) ≠ none →
      Tracked fs₀ paths (d ++ [n]))
    {path q : Path} (hp : path ∈ paths) (hq : path <+: q) : g.get q = fs₀.get q := by
  obtain ⟨t, rfl⟩ := hq
  by_cases hex : g.get (path ++ t) = none
  · rw [hex]
    by_contra hex₀
    have ht : Tracked fs₀ paths (path ++ t) :=
      ⟨path, hp, prefix_append _ _, .inr fun e => hex₀ e.symm⟩
    exact hex₀ (hex.symm.trans (hback _ ht))
  · -- from the captured path down, every name on the way is captured
    refine hback _ ?_
    induction t using List.reverseRecOn with
    | nil => exact ⟨path, hp, by rw [append_nil]; exact below_self fs₀ path⟩
    | append_singleton t n ih =>
      rw [← append_assoc] at hex ⊢
      have hdir : g.get (path ++ t) = some .dir := FileTree.get_parent hex
      have ht : Tracked fs₀ paths (path ++ t) := ih (by rw [hdir]; simp)
      rcases h.created _ hex with hfs | hfs₀
      · exact hknown _ n ht (by rw [← hback _ ht, hdir]) hfs
      · exact ⟨path, hp, by rw [append_assoc]; exact prefix_append _ _, .inr hfs₀⟩

/-- After the captured paths are back, capturing them again gives the same states exactly when the
record knew what its directories held. -/
theorem captured_again_iff (h : Restoring fs₀ paths fs g)
    (hback : ∀ q, Tracked fs₀ paths q → g.get q = fs₀.get q)
    (hB : CaptureOf sha256 fs₀ paths before) (hA : CaptureOf sha256 g paths again) :
    statesEqual again before = true ↔ Knows before fs := by
  rw [statesEqual_iff, knows_iff hB]
  constructor
  · intro heq d n ht hd hex
    by_contra hnt
    have hg := h.survives d n hd hnt hex
    obtain ⟨path, hp, hpre⟩ := ht.exists_touched
    have htg : Tracked g paths (d ++ [n]) :=
      ⟨path, hp, hpre.trans (prefix_append _ _), .inr hg⟩
    have hq := heq (d ++ [n])
    rw [hA.get, if_pos htg, hB.get, if_neg hnt] at hq
    cases hq
  · intro hknown q
    have hsame : ∀ path ∈ paths, path <+: q → g.get q = fs₀.get q :=
      fun path hp hpre => restored_below h hback hknown hp hpre
    have htracked : Tracked g paths q ↔ Tracked fs₀ paths q := by
      refine exists_congr fun path => and_congr_right fun hp => and_congr_right fun hpre => ?_
      rw [hsame path hp hpre]
    rw [hA.get, hB.get]
    by_cases ht : Tracked fs₀ paths q
    · obtain ⟨path, hp, hpre⟩ := ht.exists_touched
      rw [if_pos (htracked.mpr ht), if_pos ht, hsame path hp hpre]
    · rw [if_neg (fun hg => ht (htracked.mp hg)), if_neg ht]

/-- Restoring the record, and then capturing its touched paths again, gives the states captured
before the mutation; a restore that raises says nothing. -/
def takesBack (svc : Service) (s : Store) (snapshotId : String) (force : Bool) : Bool :=
  match loadSnapshot svc snapshotId s, restoreSnapshot svc snapshotId force s with
  | .ok r _, .ok _ s' =>
    match capturePaths svc (r.touchedPaths.map posix) s' with
    | .ok again _ => statesEqual again r.before
    | .error _ _ => false
  | _, _ => true

/-- **The law of restoring.**  After any run, a restore that succeeds, forced or not, takes the
touched paths of its record back exactly when the directories of the record hold nothing at that
time that the record does not know. -/
theorem restored_iff (svc : Service) (fs : Disk) (ops : List Op)
    (hsha : Set.InjOn svc.sha256 (inPlay svc (.new fs) ops)) {snapshotId : String} {force : Bool}
    {r : SnapshotRecord} {result : RestoreResult} {s' : Store}
    (hload : loadSnapshot svc snapshotId (run svc (.new fs) ops) =
      .ok r (run svc (.new fs) ops))
    (hok : restoreSnapshot svc snapshotId force (run svc (.new fs) ops) = .ok result s') :
    takesBack svc (run svc (.new fs) ops) snapshotId force = true ↔
      Knows r.before (run svc (.new fs) ops).fs := by
  have hstore := run_storeOk hsha (storeOk_new svc _ fs) (le_refl (inPlay svc (.new fs) ops))
  obtain ⟨-, p, hp, rfl⟩ := (leads_loadSnapshot svc snapshotId _).of_ok hload
  obtain ⟨fs₀, fs₁, hgen⟩ := hstore.records p hp
  obtain ⟨-, -, hrestoring, hback⟩ := (leads_restoreSnapshot hload hgen hstore.blobs
    (contents_run_subset svc _ ops)).of_ok hok
  have hproper := hgen.before.proper
  simp only [takesBack, hload, hok, capturePaths_posix svc s' hproper]
  exact captured_again_iff hrestoring hback hgen.before
    (captureAll_captureOf svc s'.fs s'.blobs hproper)

end

section

/-- A project at the root of the disk, and the digests of the two contents its files have. -/
def demo : Service where
  sha256 data :=
    if data = [120] then "2d711642b726b04401627ca9fbac32f5c8530fb1903cc4db02258717921a4881"
    else "e3b0c44298fc1c149afbf4c8996fb92427ae41e4649b934ca495991b7852b855"
  sha256_ne_empty data := by
    split <;> decide
  project := []
  cwd := []

/-- A tool that writes a file into a directory, which it makes if it is not there. -/
def writeInto (dir file : Name) (data : Bytes) : OnDisk Unit := do
  os (·.makeDirs [dir])
  os (·.writeBytes [dir, file] data)

/-- An empty file `d/old` is written, and then a file `d/new`; the second tool names only `d`. -/
def demoRun : List Op :=
  [.record ⟨"0", "2025-01-01"⟩ ["d/old"] (writeInto ⟨"d", by decide⟩ ⟨"old", by decide⟩ []),
    .record ⟨"1", "2025-01-02"⟩ ["d"] (writeInto ⟨"d", by decide⟩ ⟨"new", by decide⟩ [120])]

def oldPath : Path := [⟨"d", by decide⟩, ⟨"old", by decide⟩]

/-- Restoring the second record succeeds and leaves `d/new` where it is. -/
theorem restore_leaves_new_entry :
    (match restoreSnapshot demo "snap_1" false (run demo (.new .empty) demoRun) with
      | .ok _ s' => s'.fs.isFile [⟨"d", by decide⟩, ⟨"new", by decide⟩]
      | .error _ _ => false) = true ∧
    takesBack demo (run demo (.new .empty) demoRun) "snap_1" false = false := by
  decide +kernel

/-- Every file of a project is empty or an `x`. -/
def small (fs : Disk) : Bool :=
  fs.entries.all fun e => e.2 = .dir || e.2 = .file [] || e.2 = .file [120]

theorem small_contents {fs : Disk} (h : small fs = true) {data : Bytes} (hd : data ∈ contents fs) :
    data = [] ∨ data = [120] := by
  obtain ⟨q, hq⟩ := hd
  have hne : q ≠ [] := by
    rintro rfl
    cases hq
  rw [FileTree.get_of_ne hne] at hq
  have he := all_eq_true.mp h _ (Assoc.mem_of_get? hq)
  simpa using he

theorem small_inPlay {ops : List Op} {s : Store}
    (h : ∀ k ≤ ops.length, small (run demo s (ops.take k)).fs = true) {data : Bytes}
    (hd : data ∈ inPlay demo s ops) : data = [] ∨ data = [120] := by
  obtain ⟨k, hk⟩ := hd
  rcases le_total k ops.length with hle | hle
  · exact small_contents (h k hle) hk
  · rw [take_of_length_le hle] at hk
    refine small_contents (h ops.length le_rfl) ?_
    rwa [take_length]

theorem demo_injOn {S : Set Bytes} (h : ∀ data ∈ S, data = [] ∨ data = [120]) :
    Set.InjOn demo.sha256 S := by
  intro a ha b hb hab
  rcases h a ha with rfl | rfl <;> rcases h b hb with rfl | rfl <;>
    first | rfl | exact absurd hab (by decide)

theorem knows_of_no_directory {states : States} (fs : Disk)
    (h : (states.all fun p => p.2.kind ≠ .directory) = true) : Knows states fs := by
  intro d n hd _
  obtain ⟨state, hs, hk⟩ := Option.map_eq_some_iff.mp hd
  have hne := all_eq_true.mp h _ (Assoc.mem_of_get? hs)
  rw [decide_eq_true_eq] at hne
  exact absurd hk hne

/-- Restoring the first record, forced, takes `d/old` back to a missing path. -/
theorem restored_first :
    takesBack demo (run demo (.new .empty) demoRun) "snap_0" true = true := by
  have hsha : Set.InjOn demo.sha256 (inPlay demo (.new .empty) demoRun) := by
    refine demo_injOn fun data hd => small_inPlay (fun k hk => ?_) hd
    have hk' : k = 0 ∨ k = 1 ∨ k = 2 := by
      change k ≤ 2 at hk
      omega
    rcases hk' with rfl | rfl | rfl <;> decide
  have hloaded : (match loadSnapshot demo "snap_0" (run demo (.new .empty) demoRun) with
      | .ok r _ => r.before.all fun p => p.2.kind ≠ .directory
      | .error _ _ => false) = true := by decide
  have hrestored : (match restoreSnapshot demo "snap_0" true (run demo (.new .empty) demoRun) with
      | .ok _ _ => true
      | .error _ _ => false) = true := by decide
  cases hl : loadSnapshot demo "snap_0" (run demo (.new .empty) demoRun) with
  | error e s' =>
    rw [hl] at hloaded
    cases hloaded
  | ok r s' =>
    cases hr : restoreSnapshot demo "snap_0" true (run demo (.new .empty) demoRun) with
    | error e s'' =>
      rw [hr] at hrestored
      cases hrestored
    | ok result s'' =>
      rw [hl] at hloaded
      obtain ⟨rfl, -⟩ := (leads_loadSnapshot demo "snap_0" _).of_ok hl
      exact (restored_iff demo .empty demoRun hsha hl hr).mpr (knows_of_no_directory _ hloaded)

end

end KolegaCode.Snapshots
