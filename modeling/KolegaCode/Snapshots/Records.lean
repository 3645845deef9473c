import KolegaCode.Lib.Except
import KolegaCode.Snapshots.Restore
import Mathlib.Data.Set.Function

/-!
# Snapshots — records, and restoring one

A record of the store is two captures of the same paths, before and after, with a blob for every
file of either (`StoreOk`), in any run of the service among any other changes to the project, as
long as no two of the contents that are ever in the project have the same digest.

Restoring a record takes its paths back exactly when, at the time of the restore, the directories
the record has hold nothing that the record does not know (`restore_law`).
-/

namespace KolegaCode.Snapshots

/-! ### Captures through the store -/

section

variable {svc : Service} {s : Store} {paths : List Path}

theorem captureSpelled_posix (svc : Service) (fs : Disk) {paths : List Path}
    (hp : ∀ path ∈ paths, path ≠ []) (c : Capture) :
    captureSpelled svc fs (paths.map posix) c =
      (.ok (), paths.foldl (fun c path => capturePath svc.sha256 fs (fs.height + 1) path c) c) := by
  induction paths generalizing c with
  | nil => rfl
  | cons path paths ih =>
    rw [List.map_cons, captureSpelled, normalizePath_posix _ (hp path List.mem_cons_self)]
    exact ih (fun p hp' => hp p (List.mem_cons_of_mem _ hp')) _

/-- Capturing normalised paths cannot fail. -/
theorem capturePaths_posix (svc : Service) (s : Store) (hp : ∀ path ∈ paths, path ≠ []) :
    capturePaths svc (paths.map posix) s =
      .ok (captureAll svc.sha256 s.fs s.blobs paths).states
        { s with blobs := (captureAll svc.sha256 s.fs s.blobs paths).blobs } := by
  simp only [capturePaths, bind, EStateM.bind, estate_get, captureSpelled_posix svc s.fs hp,
    estate_set, raiseSnapshot, pure, EStateM.pure]
  rfl

theorem captureAll_captureOf (svc : Service) (fs : Disk) (blobs : Blobs)
    (hp : ∀ path ∈ paths, path ≠ []) :
    CaptureOf svc.sha256 fs paths (captureAll svc.sha256 fs blobs paths).states where
  nodup := ((List.perm_insertionSort _ _).map Prod.fst).nodup_iff.mpr
    ((captureEach_collects svc.sha256 fs blobs paths).nodup List.nodup_nil)
  proper := hp
  get := get?_captureAll svc.sha256 fs blobs paths

theorem touched_ne_nil {raws : List String} (h : touched svc raws = .ok paths) :
    ∀ path ∈ paths, path ≠ [] := by
  obtain ⟨normalized, hm, he⟩ := bind_eq_ok.mp h
  cases he
  intro path hp
  rw [List.mem_eraseDups] at hp
  obtain ⟨raw, -, hraw⟩ := mem_of_mapM_eq_ok hm hp
  exact normalizePath_ne_nil hraw

/-! ### Blobs -/

/-- What the files of a project hold. -/
def contents (fs : Disk) : Set Bytes := { data | ∃ q, fs.get q = some (.file data) }

/-- Every blob is in `K`, under its digest. -/
def BlobsSound (svc : Service) (K : Set Bytes) (blobs : Blobs) : Prop :=
  ∀ digest data, blobs.get? digest = some data → svc.sha256 data = digest ∧ data ∈ K

def BlobsGrow (blobs blobs' : Blobs) : Prop :=
  ∀ digest data, blobs.get? digest = some data → blobs'.get? digest = some data

theorem BlobsGrow.trans {b₁ b₂ b₃ : Blobs} (h : BlobsGrow b₁ b₂) (h' : BlobsGrow b₂ b₃) :
    BlobsGrow b₁ b₃ := fun digest data hd => h' digest data (h digest data hd)

theorem BlobsHold.mono {fs : Disk} {blobs blobs' : Blobs}
    (h : BlobsHold svc.sha256 blobs fs paths) (hg : BlobsGrow blobs blobs') :
    BlobsHold svc.sha256 blobs' fs paths := fun q data ht hq => hg _ _ (h q data ht hq)

variable {K : Set Bytes} {fs : Disk} {blobs : Blobs}

theorem captureAll_grow : BlobsGrow blobs (captureAll svc.sha256 fs blobs paths).blobs :=
  (captureAll_blobs svc.sha256 fs blobs paths).2.1

theorem captureAll_sound (hb : BlobsSound svc K blobs) (hfs : contents fs ⊆ K) :
    BlobsSound svc K (captureAll svc.sha256 fs blobs paths).blobs := by
  intro digest data hd
  rcases (captureAll_blobs svc.sha256 fs blobs paths).1 digest data hd with h | ⟨h, hq⟩
  · exact hb digest data h
  · exact ⟨h.symm, hfs hq⟩

/-- Without collisions the blob of a captured file is what the file holds. -/
theorem captureAll_hold (hK : Set.InjOn svc.sha256 K) (hb : BlobsSound svc K blobs)
    (hfs : contents fs ⊆ K) :
    BlobsHold svc.sha256 (captureAll svc.sha256 fs blobs paths).blobs fs paths := by
  intro q data ht hq
  have hne := (captureAll_blobs svc.sha256 fs blobs paths).2.2 q data ht hq
  obtain ⟨data', hdata'⟩ := Option.ne_none_iff_exists'.mp hne
  obtain ⟨hsha, hmem⟩ := captureAll_sound hb hfs _ _ hdata'
  rw [hdata', hK hmem (hfs ⟨q, hq⟩) hsha]

/-! ### The check before a restore -/

variable {sha256 : Bytes → String} {fs₁ : Disk} {states : States}

variable {q : Path} {r : SnapshotRecord} {fs₀ : Disk}

/-- At or below a captured path, an absent item is a missing path. -/
theorem CaptureOf.stateAt (h : CaptureOf sha256 fs₁ paths states) {path : Path}
    (hp : path ∈ paths) (hq : path <+: q) : stateAt states q = stateOf sha256 q (fs₁.get q) := by
  rw [Snapshots.stateAt, h.get]
  split
  · rfl
  · next ht =>
    have hnone : fs₁.get q = none := by
      by_contra hex
      exact ht ⟨path, hp, hq, .inr hex⟩
    rw [hnone]
    rfl

theorem CaptureOf.mem_keys (h : CaptureOf sha256 fs₁ paths states) :
    q ∈ states.keys ↔ Tracked fs₁ paths q := by
  rw [← not_iff_not, ← Assoc.get?_eq_none_iff, h.get]
  split <;> simp_all

theorem stateAt_of_not_mem {states : States} (h : q ∉ states.keys) :
    stateAt states q = { path := q, kind := .missing } := by
  rw [stateAt, Assoc.get?_eq_none_iff.mpr h, Option.getD_none]

/-- A path that neither side has an item for is missing on both. -/
theorem mismatches_eq_nil {expected current : States} :
    mismatches expected current = [] ↔ ∀ q, stateAt expected q = stateAt current q := by
  simp only [mismatches, List.filter_eq_nil_iff, List.mem_insertionSort, List.mem_eraseDups,
    List.mem_append, ne_eq, decide_eq_true_eq, not_not]
  refine ⟨fun h q => ?_, fun h q _ => h q⟩
  by_cases hmem : q ∈ expected.keys ∨ q ∈ current.keys
  · exact h q hmem
  · rw [not_or] at hmem
    rw [stateAt_of_not_mem hmem.1, stateAt_of_not_mem hmem.2]

/-- **The check before a restore** passes exactly when every path at or below a touched one is as
the record says the mutation left it.  It changes nothing but the blobs. -/
theorem diffExpectedCurrent_spec {expected : States}
    (h : CaptureOf svc.sha256 fs₁ paths expected) (s : Store) :
    ∃ changed ps, diffExpectedCurrent svc expected s =
        .ok changed { s with blobs := (captureAll svc.sha256 s.fs s.blobs ps).blobs } ∧
      (changed = [] ↔ ∀ path ∈ paths, ∀ q, path <+: q →
        stateOf svc.sha256 q (s.fs.get q) = stateOf svc.sha256 q (fs₁.get q)) := by
  have hproper : ∀ q ∈ expected.keys, q ≠ [] := fun q hq => (h.mem_keys.mp hq).ne_nil h.proper
  unfold diffExpectedCurrent
  by_cases hemp : expected.isEmpty
  · refine ⟨[], [], ?_, iff_of_true rfl fun path hp => ?_⟩
    · rw [if_pos hemp]
      rfl
    · have hkey := h.mem_keys.mpr ⟨path, hp, below_self fs₁ path⟩
      rw [List.isEmpty_iff.mp hemp] at hkey
      cases hkey
  · have hcurrent := captureAll_captureOf svc s.fs s.blobs hproper
    refine ⟨mismatches expected (captureAll svc.sha256 s.fs s.blobs expected.keys).states,
      expected.keys, ?_, ?_⟩
    · rw [if_neg hemp]
      simp only [bind, EStateM.bind, capturePaths_posix svc s hproper, pure, EStateM.pure]
    · rw [mismatches_eq_nil]
      constructor
      · intro hq path hp q hpre
        have hkey := h.mem_keys.mpr ⟨path, hp, below_self fs₁ path⟩
        rw [← hcurrent.stateAt hkey hpre, ← hq q, h.stateAt hp hpre]
      · intro hq q
        by_cases hin : ∃ path ∈ paths, path <+: q
        · obtain ⟨path, hp, hpre⟩ := hin
          have hkey := h.mem_keys.mpr ⟨path, hp, below_self fs₁ path⟩
          rw [h.stateAt hp hpre, hcurrent.stateAt hkey hpre, hq path hp q hpre]
        · have hout : q ∉ expected.keys := fun hk => hin (h.mem_keys.mp hk).exists_touched
          have hout' : q ∉ (captureAll svc.sha256 s.fs s.blobs expected.keys).states.keys := by
            intro hk
            obtain ⟨key, hkey, hpre⟩ := (hcurrent.mem_keys.mp hk).exists_touched
            obtain ⟨path, hp, hpre'⟩ := (h.mem_keys.mp hkey).exists_touched
            exact hin ⟨path, hp, hpre'.trans hpre⟩
          rw [stateAt_of_not_mem hout, stateAt_of_not_mem hout']

/-! ### The records of a store -/

/-- A record as the service makes it. -/
structure Genuine (svc : Service) (K : Set Bytes) (blobs : Blobs) (r : SnapshotRecord)
    (fs₀ fs₁ : Disk) : Prop where
  before : CaptureOf svc.sha256 fs₀ r.touchedPaths r.before
  after : CaptureOf svc.sha256 fs₁ r.touchedPaths r.after
  holdBefore : BlobsHold svc.sha256 blobs fs₀ r.touchedPaths
  holdAfter : BlobsHold svc.sha256 blobs fs₁ r.touchedPaths
  inPlay : contents fs₁ ⊆ K
  project : r.projectPath = "/" ++ posix svc.project

theorem Genuine.mono {blobs blobs' : Blobs} {fs₁ : Disk} (h : Genuine svc K blobs r fs₀ fs₁)
    (hg : BlobsGrow blobs blobs') : Genuine svc K blobs' r fs₀ fs₁ :=
  { h with holdBefore := h.holdBefore.mono hg, holdAfter := h.holdAfter.mono hg }

theorem Genuine.isCurrentProject {fs₁ : Disk} (h : Genuine svc K blobs r fs₀ fs₁) :
    isCurrentProject svc r.projectPath = true := by
  rw [Snapshots.isCurrentProject, h.project, resolve_absolute]
  simp

/-- Every blob is under its digest, and every record is as the service makes it. -/
structure StoreOk (svc : Service) (K : Set Bytes) (s : Store) : Prop where
  blobs : BlobsSound svc K s.blobs
  records : ∀ p ∈ s.records, ∃ fs₀ fs₁, Genuine svc K s.blobs p.2 fs₀ fs₁

/-- A store with nothing in it yet. -/
def Store.new (fs : Disk) : Store := { fs, blobs := [], records := [] }

theorem storeOk_new (svc : Service) (K : Set Bytes) (fs : Disk) : StoreOk svc K (.new fs) where
  blobs := fun digest data h => by cases h
  records := fun p hp => by cases hp

/-- A store stays as it should be while blobs are added and the project changes. -/
theorem StoreOk.grow (h : StoreOk svc K s) {s' : Store} (hr : s'.records = s.records)
    (hg : BlobsGrow s.blobs s'.blobs) (hs : BlobsSound svc K s'.blobs) : StoreOk svc K s' where
  blobs := hs
  records := by
    rw [hr]
    intro p hp
    obtain ⟨fs₀, fs₁, hgen⟩ := h.records p hp
    exact ⟨fs₀, fs₁, hgen.mono hg⟩

/-- What `load_snapshot` returns is a record of the store, and it changes nothing. -/
theorem leads_loadSnapshot (svc : Service) (snapshotId : String) (s : Store) :
    Leads (loadSnapshot svc snapshotId) s (fun r s' => s' = s ∧ ∃ p ∈ s.records, p.2 = r)
      (fun s' => s' = s) := by
  unfold loadSnapshot
  refine leads_bind (leads_get (leads_ite (fun hid => ?_) fun hid => ?_))
  · split
    · exact leads_throw rfl
    · next r hr =>
      refine leads_pure ⟨rfl, ?_⟩
      have hmem := List.mem_of_mem_head? (Option.mem_def.mpr hr)
      rw [List.mem_insertionSort, List.mem_filter, List.mem_map] at hmem
      obtain ⟨⟨p, hp, rfl⟩, -⟩ := hmem
      exact ⟨p, hp, rfl⟩
  · split
    · exact leads_throw rfl
    · next r hr =>
      refine leads_ite (fun _ => leads_pure ⟨rfl, _, Assoc.mem_of_get? hr, rfl⟩) fun _ => ?_
      exact leads_throw rfl

theorem leads_onDisk {α : Type} {x : OnDisk α} {ok : α → Disk → Prop} {raised : Disk → Prop}
    (h : Leads x s.fs ok raised) :
    Leads (onDisk x) s (fun a s' => s' = { s with fs := s'.fs } ∧ ok a s'.fs)
      (fun s' => s' = { s with fs := s'.fs } ∧ raised s'.fs) := by
  simp only [Leads, onDisk] at h ⊢
  cases hx : x s.fs with
  | ok a fs | error e fs =>
    rw [hx] at h
    exact ⟨rfl, h⟩

/-- The project is as the record says the mutation left it. -/
def Unchanged (svc : Service) (r : SnapshotRecord) (fs₁ fs : Disk) : Prop :=
  ∀ path ∈ r.touchedPaths, ∀ q, path <+: q →
    stateOf svc.sha256 q (fs.get q) = stateOf svc.sha256 q (fs₁.get q)

/-- The records are the same and every blob is still there. -/
def KeepsRecords (svc : Service) (K : Set Bytes) (s s' : Store) : Prop :=
  s'.records = s.records ∧ BlobsGrow s.blobs s'.blobs ∧ BlobsSound svc K s'.blobs

/-- The part of `restore_snapshot` after the check. -/
theorem leads_apply {fs₁ : Disk} {s₁ : Store} {result : RestoreResult}
    (hgen : Genuine svc K s.blobs r fs₀ fs₁) (hk : KeepsRecords svc K s s₁) (hfs : s₁.fs = s.fs) :
    Leads (do
        let s ← get
        onDisk (applyStates svc.sha256 s.blobs r.before)
        return result : OnStore RestoreResult) s₁
      (fun _ s' => KeepsRecords svc K s s' ∧ Restoring fs₀ r.touchedPaths s.fs s'.fs ∧
        ∀ q, Tracked fs₀ r.touchedPaths q → s'.fs.get q = fs₀.get q)
      (fun s' => KeepsRecords svc K s s' ∧ Restoring fs₀ r.touchedPaths s.fs s'.fs ∧
        Obstructed fs₀ r.touchedPaths s.fs) := by
  have happly := leads_applyStates hgen.before (hgen.holdBefore.mono hk.2.1) svc.sha256_ne_empty
    s₁.fs
  rw [hfs] at happly
  refine leads_bind (leads_get (leads_bind ((leads_onDisk (by rwa [hfs])).mono ?_ ?_)))
  · rintro - s' ⟨hs', hok⟩
    refine leads_pure ⟨?_, hok⟩
    rw [hs']
    exact hk
  · rintro s' ⟨hs', hraised⟩
    refine ⟨?_, hraised⟩
    rw [hs']
    exact hk

/-- **What `restore_snapshot` comes to**: it returns with every captured path holding what it held;
or it raises before it has touched the project, which is not as the mutation left it; or it raises
on the way, because an untouched directory has become a file. -/
theorem leads_restoreSnapshot {snapshotId : String} {force : Bool} {fs₁ : Disk}
    (hload : loadSnapshot svc snapshotId s = .ok r s) (hgen : Genuine svc K s.blobs r fs₀ fs₁)
    (hb : BlobsSound svc K s.blobs) (hfs : contents s.fs ⊆ K) :
    Leads (restoreSnapshot svc snapshotId force) s
      (fun _ s' => KeepsRecords svc K s s' ∧
        (force = false → r.manual = false → Unchanged svc r fs₁ s.fs) ∧
        Restoring fs₀ r.touchedPaths s.fs s'.fs ∧
        ∀ q, Tracked fs₀ r.touchedPaths q → s'.fs.get q = fs₀.get q)
      (fun s' => KeepsRecords svc K s s' ∧
        ((s'.fs = s.fs ∧ force = false ∧ r.manual = false ∧ ¬ Unchanged svc r fs₁ s.fs) ∨
          (Restoring fs₀ r.touchedPaths s.fs s'.fs ∧ Obstructed fs₀ r.touchedPaths s.fs))) := by
  have hloads : Leads (loadSnapshot svc snapshotId) s (fun r' s' => r' = r ∧ s' = s)
      (fun _ => False) := by
    rw [Leads, hload]
    exact ⟨rfl, rfl⟩
  have hrefl : KeepsRecords svc K s s := ⟨rfl, fun _ _ h => h, hb⟩
  unfold restoreSnapshot
  refine leads_bind (hloads.mono ?_ fun _ hf => hf.elim)
  rintro r' s' ⟨hr', hs'⟩
  subst hr' hs'
  refine leads_ite (fun hp => ?_) fun _ => leads_ite (fun hc => ?_) fun hc => ?_
  · rw [hgen.isCurrentProject] at hp
    cases hp
  · rw [Bool.and_eq_true, Bool.not_eq_true', Bool.not_eq_true'] at hc
    obtain ⟨changed, ps, hdiff, hchanged⟩ := diffExpectedCurrent_spec hgen.after s'
    have hk : KeepsRecords svc K s'
        { s' with blobs := (captureAll svc.sha256 s'.fs s'.blobs ps).blobs } :=
      ⟨rfl, captureAll_grow, captureAll_sound hb hfs⟩
    refine leads_bind ?_
    rw [Leads, hdiff]
    refine leads_ite (fun hne => leads_throw ⟨hk, .inl ⟨rfl, hc.1, hc.2, fun hu => ?_⟩⟩) fun he => ?_
    · rw [hchanged.mpr hu] at hne
      cases hne
    · have hu : Unchanged svc r' fs₁ s'.fs := hchanged.mp (by simpa using he)
      exact (leads_apply hgen hk rfl).mono (fun _ _ h => ⟨h.1, fun _ _ => hu, h.2⟩)
        fun _ h => ⟨h.1, .inr h.2⟩
  · have hu : force = false → r'.manual = false → Unchanged svc r' fs₁ s'.fs := by
      intro hf hm
      rw [hf, hm] at hc
      exact absurd rfl hc
    exact (leads_apply hgen hrefl rfl).mono (fun _ _ h => ⟨h.1, hu, h.2⟩)
      fun _ h => ⟨h.1, .inr h.2⟩

end

end KolegaCode.Snapshots
