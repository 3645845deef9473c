import KolegaCode.Snapshots.Paths
import Mathlib.Data.List.Sort

/-!
# Snapshots — capturing the states of paths

`SnapshotService.capture_paths` records what stands at some paths: nothing, a file with the digest
of what it holds, or a directory with everything below it.  What a file holds is kept besides, in
a store of blobs under their digests.  The walk takes no path twice, so a path named both by
itself and through a directory above it is captured once.
-/

namespace KolegaCode.Snapshots

open List Option

inductive SnapshotKind where
  | missing
  | file
  | directory
deriving DecidableEq, Repr

structure FileState where
  path : Path
  kind : SnapshotKind
  sha256 : Option String := none
  size : Nat := 0
  blobId : Option String := none
deriving DecidableEq

/-- The dictionary of captured states, by path. -/
abbrev States := Assoc Path FileState

/-- The files of `blobs_dir`, by name. -/
abbrev Blobs := Assoc String Bytes

section

variable (sha256 : Bytes → String)

/-- The state of a path at which an entry, or nothing, stands. -/
def stateOf (path : Path) : Option (Entry Bytes) → FileState
  | none => { path, kind := .missing }
  | some (.file data) =>
    { path, kind := .file, sha256 := some (sha256 data), size := data.length,
      blobId := some (sha256 data) }
  | some .dir => { path, kind := .directory }

/-- `_write_blob`: a blob that is there is left as it is. -/
def writeBlob (blobs : Blobs) (data : Bytes) : Blobs :=
  match blobs.get? (sha256 data) with
  | some _ => blobs
  | none => blobs.set (sha256 data) data

/-- What a capture has collected so far. -/
structure Capture where
  blobs : Blobs
  states : States

/-- The state of a path is entered. -/
def Capture.enter (c : Capture) (path : Path) (entry : Option (Entry Bytes)) : Capture :=
  { c with states := c.states.set path (stateOf sha256 path entry) }

/-- `_capture_path`; the fuel bounds how far down the walk goes. -/
def capturePath (fs : Disk) : Nat → Path → Capture → Capture
  | 0, _, c => c
  | fuel + 1, path, c =>
    if (c.states.get? path).isSome then c
    else
      match fs.get path with
      | none => c.enter sha256 path none
      | some (.file data) =>
        { c with blobs := writeBlob sha256 c.blobs data }.enter sha256 path (some (.file data))
      | some .dir =>
        ((fs.listdir path).insertionSort fun a b => a.text ≤ b.text).foldl
          (fun c name => capturePath fs fuel (path ++ [name]) c)
          (c.enter sha256 path (some .dir))

/-- The loop of `capture_paths`. -/
def captureEach (fs : Disk) (blobs : Blobs) (paths : List Path) : Capture :=
  paths.foldl (fun c path => capturePath sha256 fs (fs.height + 1) path c) { blobs, states := [] }

/-- `capture_paths` on paths that are normalised: the states, sorted by path, and the blobs. -/
def captureAll (fs : Disk) (blobs : Blobs) (paths : List Path) : Capture :=
  let c := captureEach sha256 fs blobs paths
  { c with states := c.states.insertionSort fun a b => posix a.1 ≤ posix b.1 }

end

/-! ### What a capture collects -/

variable {sha256 : Bytes → String} {fs : Disk}

@[simp] theorem stateOf_path (path : Path) (entry : Option (Entry Bytes)) :
    (stateOf sha256 path entry).path = path := by
  rcases entry with _ | _ | _ <;> rfl

@[simp] theorem get?_enter (c : Capture) (path q : Path) (entry : Option (Entry Bytes)) :
    (c.enter sha256 path entry).states.get? q =
      if q = path then some (stateOf sha256 path entry) else c.states.get? q :=
  Assoc.get?_set _ _ _ _

theorem get?_writeBlob (blobs : Blobs) (data : Bytes) (digest : String) :
    (writeBlob sha256 blobs data).get? digest =
      if digest = sha256 data then some ((blobs.get? digest).getD data) else blobs.get? digest := by
  unfold writeBlob
  split
  · next b hb =>
    split
    · next hd => rw [hd, hb, getD_some]
    · rfl
  · next hb =>
    rw [Assoc.get?_set]
    split
    · next hd => rw [hd, hb, getD_none]
    · rfl

/-- A path that a capture of `root` has an item for: `root` itself, or an entry below it. -/
def Below (fs : Disk) (root q : Path) : Prop := root <+: q ∧ (q = root ∨ fs.get q ≠ none)

theorem below_self (fs : Disk) (root : Path) : Below fs root root := ⟨prefix_rfl, .inl rfl⟩

variable {q path : Path}

/-- What a child of a directory has an item for, the directory has. -/
theorem Below.up {root : Path} {n : Name} (h : Below fs (root ++ [n]) q)
    (hn : fs.get (root ++ [n]) ≠ none) : Below fs root q := by
  refine ⟨(prefix_append root [n]).trans h.1, .inr ?_⟩
  rcases h.2 with rfl | hex
  · exact hn
  · exact hex

/-- From one point of a capture to a later one: nothing collected is lost, and what is new is the
state of paths in `scope`, with the blob of every file. -/
structure Collects (sha256 : Bytes → String) (fs : Disk) (scope : Path → Prop) (c c' : Capture) :
    Prop where
  kept : ∀ q s, c.states.get? q = some s → c'.states.get? q = some s
  new : ∀ q s, c'.states.get? q = some s → c.states.get? q = some s ∨
    (scope q ∧ s = stateOf sha256 q (fs.get q))
  blobsKept : ∀ digest data, c.blobs.get? digest = some data → c'.blobs.get? digest = some data
  blobsNew : ∀ digest data, c'.blobs.get? digest = some data → c.blobs.get? digest = some data ∨
    (digest = sha256 data ∧ ∃ q, fs.get q = some (.file data))
  stored : ∀ q data, fs.get q = some (.file data) → c'.states.get? q ≠ none →
    c.states.get? q ≠ none ∨ c'.blobs.get? (sha256 data) ≠ none
  nodup : c.states.keys.Nodup → c'.states.keys.Nodup

namespace Collects

variable {scope : Path → Prop} {c c' c'' : Capture}

theorem refl (scope : Path → Prop) (c : Capture) : Collects sha256 fs scope c c where
  kept := fun _ _ h => h
  new := fun _ _ h => .inl h
  blobsKept := fun _ _ h => h
  blobsNew := fun _ _ h => .inl h
  stored := fun _ _ _ h => .inl h
  nodup := fun h => h

theorem trans (h : Collects sha256 fs scope c c') (h' : Collects sha256 fs scope c' c'') :
    Collects sha256 fs scope c c'' where
  kept := fun q s hq => h'.kept q s (h.kept q s hq)
  new := fun q s hq => (h'.new q s hq).elim (h.new q s) .inr
  blobsKept := fun d b hb => h'.blobsKept d b (h.blobsKept d b hb)
  blobsNew := fun d b hb => (h'.blobsNew d b hb).elim (h.blobsNew d b) .inr
  stored := by
    intro q data hq hs
    rcases h'.stored q data hq hs with hs | hs
    · refine (h.stored q data hq hs).imp_right fun hb => ?_
      obtain ⟨b, hb⟩ := ne_none_iff_exists'.mp hb
      rw [h'.blobsKept _ _ hb]
      simp
    · exact .inr hs
  nodup := fun hn => h'.nodup (h.nodup hn)

theorem mono {wide : Path → Prop} (h : Collects sha256 fs scope c c')
    (hw : ∀ q, scope q → wide q) : Collects sha256 fs wide c c' where
  kept := h.kept
  new := fun q s hq => (h.new q s hq).imp_right fun hn => ⟨hw q hn.1, hn.2⟩
  blobsKept := h.blobsKept
  blobsNew := h.blobsNew
  stored := h.stored
  nodup := h.nodup

theorem enter {c : Capture} {path : Path} (hfresh : c.states.get? path = none)
    (hfile : ∀ data, fs.get path = some (.file data) → c.blobs.get? (sha256 data) ≠ none) :
    Collects sha256 fs (Below fs path) c (c.enter sha256 path (fs.get path)) where
  kept := by
    intro q s hq
    rw [get?_enter, if_neg, hq]
    rintro rfl
    rw [hfresh] at hq
    cases hq
  new := by
    intro q s hq
    rw [get?_enter] at hq
    split at hq
    · next hqp =>
      subst hqp
      exact .inr ⟨below_self fs q, (Option.some.inj hq).symm⟩
    · exact .inl hq
  blobsKept := fun _ _ h => h
  blobsNew := fun _ _ h => .inl h
  stored := by
    intro q data hq hs
    rw [get?_enter] at hs
    split at hs
    · next hqp =>
      subst hqp
      exact .inr (hfile data hq)
    · exact .inl hs
  nodup := fun hn => Assoc.nodup_keys_set hn _ _

theorem writeBlob (scope : Path → Prop) (c : Capture) {q : Path} {data : Bytes}
    (hq : fs.get q = some (.file data)) :
    Collects sha256 fs scope c { c with blobs := writeBlob sha256 c.blobs data } where
  kept := fun _ _ h => h
  new := fun _ _ h => .inl h
  blobsKept := by
    intro digest b hb
    rw [get?_writeBlob, hb]
    split <;> rfl
  blobsNew := by
    intro digest b hb
    rw [get?_writeBlob] at hb
    split at hb
    · next hd =>
      cases hold : c.blobs.get? digest with
      | some old =>
        rw [hold] at hb
        exact .inl hb
      | none =>
        rw [hold] at hb
        cases hb
        exact .inr ⟨hd, q, hq⟩
    · exact .inl hb
  stored := fun _ _ _ h => .inl h
  nodup := fun h => h

theorem foldl {α : Type} {f : Capture → α → Capture} {xs : List α}
    (h : ∀ x ∈ xs, ∀ c, Collects sha256 fs scope c (f c x)) (c : Capture) :
    Collects sha256 fs scope c (xs.foldl f c) := by
  induction xs generalizing c with
  | nil => exact refl scope c
  | cons x xs ih =>
    exact (h x mem_cons_self c).trans
      (ih (fun y hy => h y (mem_cons_of_mem _ hy)) (f c x))

end Collects

theorem mem_sorted_listdir {n : Name} :
    n ∈ (fs.listdir path).insertionSort (fun a b => a.text ≤ b.text) ↔
      fs.get (path ++ [n]) ≠ none := by
  rw [mem_insertionSort, FileTree.mem_listdir]

theorem capturePath_collects (fuel : Nat) (path : Path) (c : Capture) :
    Collects sha256 fs (Below fs path) c (capturePath sha256 fs fuel path c) := by
  induction fuel generalizing path c with
  | zero => exact .refl _ c
  | succ fuel ih =>
    unfold capturePath
    split
    · exact .refl _ c
    · next hfresh =>
      rw [not_isSome_iff_eq_none] at hfresh
      split
      · next hget =>
        have h : Collects sha256 fs (Below fs path) c (c.enter sha256 path (fs.get path)) :=
          .enter hfresh fun data hd => by rw [hget] at hd; cases hd
        rwa [hget] at h
      · next data hget =>
        refine (Collects.writeBlob _ c hget).trans ?_
        have h : Collects sha256 fs (Below fs path)
            { c with blobs := writeBlob sha256 c.blobs data } (Capture.enter sha256 _ path (fs.get path)) := .enter hfresh fun d hd => by
          rw [hget] at hd
          cases hd
          rw [get?_writeBlob, if_pos rfl]
          simp
        rwa [hget] at h
      · next hget =>
        have h : Collects sha256 fs (Below fs path) c (c.enter sha256 path (fs.get path)) :=
          .enter hfresh fun data hd => by rw [hget] at hd; cases hd
        rw [hget] at h
        refine h.trans (Collects.foldl (fun n hn c' => ?_) _)
        exact (ih (path ++ [n]) c').mono fun q hq => hq.up (mem_sorted_listdir.mp hn)

/-! ### A capture misses nothing -/

/-- Everything a capture of `q` has to collect has been collected. -/
def Covered (fs : Disk) (c : Capture) (q : Path) : Prop :=
  ∀ r, Below fs q r → c.states.get? r ≠ none

theorem Covered.mono {scope : Path → Prop} {c c' : Capture} (h : Covered fs c q)
    (hc : Collects sha256 fs scope c c') : Covered fs c' q := by
  intro r hr
  obtain ⟨s, hs⟩ := ne_none_iff_exists'.mp (h r hr)
  rw [hc.kept r s hs]
  simp

theorem Covered.below {r : Path} {c : Capture} (h : Covered fs c q) (hr : q <+: r)
    (hs : c.states.get? r ≠ none) : Covered fs c r := by
  rintro t ⟨ht, rfl | hex⟩
  · exact hs
  · exact h t ⟨hr.trans ht, .inr hex⟩

/-- Whatever has been entered below `root` has been entered with everything below it. -/
def Saturated (fs : Disk) (c : Capture) (root : Path) : Prop :=
  ∀ q, root <+: q → c.states.get? q ≠ none → Covered fs c q

/-- What one capture adds below its own path leaves the rest saturated. -/
theorem Saturated.capture {root : Path} {c c' : Capture} (h : Saturated fs c root)
    (hc : Collects sha256 fs (Below fs path) c c') (hcov : Covered fs c' path) :
    Saturated fs c' root := by
  intro q hq hs
  obtain ⟨s, hs'⟩ := ne_none_iff_exists'.mp hs
  rcases hc.new q s hs' with hold | ⟨hp, -⟩
  · exact (h q hq (by rw [hold]; simp)).mono hc
  · exact hcov.below hp.1 hs

theorem foldl_covered {α : Type} {at_ : α → Path} {step : Capture → α → Capture} {xs : List α}
    (hstep : ∀ x ∈ xs, ∀ c, Collects sha256 fs (Below fs (at_ x)) c (step c x))
    (hcov : ∀ x ∈ xs, ∀ c, Saturated fs c (at_ x) → Covered fs (step c x) (at_ x))
    {c : Capture} (hc : ∀ x ∈ xs, Saturated fs c (at_ x)) :
    ∀ x ∈ xs, Covered fs (xs.foldl step c) (at_ x) := by
  induction xs generalizing c with
  | nil => simp
  | cons y xs ih =>
    have hy : Covered fs (step c y) (at_ y) :=
      hcov y mem_cons_self c (hc y mem_cons_self)
    have hrest : Collects sha256 fs (fun q => ∃ x, Below fs (at_ x) q) (step c y)
        (xs.foldl step (step c y)) :=
      Collects.foldl (fun x hx c' =>
        (hstep x (mem_cons_of_mem _ hx) c').mono fun q hq => ⟨x, hq⟩) _
    intro x hx
    rw [foldl_cons]
    rcases mem_cons.mp hx with rfl | hx
    · exact hy.mono hrest
    · refine ih (fun z hz => hstep z (mem_cons_of_mem _ hz))
        (fun z hz => hcov z (mem_cons_of_mem _ hz)) ?_ x hx
      intro z hz
      exact (hc z (mem_cons_of_mem _ hz)).capture (hstep y mem_cons_self c) hy

theorem covered_of_children {c : Capture} (hself : c.states.get? path ≠ none)
    (h : ∀ n, fs.get (path ++ [n]) ≠ none → Covered fs c (path ++ [n])) : Covered fs c path := by
  rintro r ⟨⟨t, rfl⟩, hex⟩
  cases t with
  | nil => rwa [append_nil]
  | cons n t =>
    have hget : fs.get (path ++ n :: t) ≠ none := hex.resolve_left (by simp)
    have hpre : path ++ [n] <+: path ++ n :: t := ⟨t, by simp⟩
    exact h n (FileTree.get_ne_none_above hpre hget) _ ⟨hpre, .inr hget⟩

/-- What is entered for a path that is no directory is all there is. -/
theorem covered_enter (hd : fs.get path ≠ some .dir) (c : Capture) (entry : Option (Entry Bytes)) :
    Covered fs (c.enter sha256 path entry) path := by
  refine covered_of_children (by simp) fun n hn => ?_
  exact absurd (FileTree.get_parent hn) hd

/-- Entering a path says nothing about what is below its children. -/
theorem saturated_enter {c : Capture} (hc : Saturated fs c path) (n : Name)
    (entry : Option (Entry Bytes)) : Saturated fs (c.enter sha256 path entry) (path ++ [n]) := by
  have hne : ∀ t, path ++ [n] <+: t → t ≠ path := by
    intro t ht e
    have hlen := ht.length_le
    rw [e, length_append, length_singleton] at hlen
    omega
  intro q hq hs r hr
  rw [get?_enter, if_neg (hne q hq)] at hs
  rw [get?_enter, if_neg (hne r (hq.trans hr.1))]
  exact hc q ((prefix_append _ _).trans hq) hs r hr

/-- With enough fuel a capture collects everything below its path. -/
theorem capturePath_covered {fuel : Nat} {c : Capture} (hpos : 0 < fuel)
    (hfuel : fs.height < path.length + fuel) (hc : Saturated fs c path) :
    Covered fs (capturePath sha256 fs fuel path c) path := by
  induction fuel generalizing path c with
  | zero => exact absurd hpos (lt_irrefl 0)
  | succ fuel ih =>
    unfold capturePath
    split
    · next hs => exact hc path prefix_rfl (isSome_iff_ne_none.mp hs)
    · split
      · next hget => exact covered_enter (by simp [hget]) _ _
      · next hget => exact covered_enter (by simp [hget]) _ _
      · next hget =>
        have hex : ∀ n ∈ (fs.listdir path).insertionSort fun a b => a.text ≤ b.text,
            fs.get (path ++ [n]) ≠ none := fun n hn => mem_sorted_listdir.mp hn
        have hstep : ∀ n c, Collects sha256 fs (Below fs (path ++ [n])) c
            (capturePath sha256 fs fuel (path ++ [n]) c) :=
          fun n c => capturePath_collects fuel (path ++ [n]) c
        have hcov : ∀ n ∈ (fs.listdir path).insertionSort fun a b => a.text ≤ b.text,
            ∀ c, Saturated fs c (path ++ [n]) →
              Covered fs (capturePath sha256 fs fuel (path ++ [n]) c) (path ++ [n]) := by
          intro n hn c' hc'
          have hlen := FileTree.length_le_height (hex n hn)
          rw [length_append, length_singleton] at hlen
          refine ih (by omega) ?_ hc'
          rw [length_append, length_singleton]
          omega
        refine covered_of_children ?_ fun n hn =>
          foldl_covered (fun m _ => hstep m) hcov (fun m _ => saturated_enter hc m _) n
            (mem_sorted_listdir.mpr hn)
        -- the directory's own state is entered first and stays
        have hkept : Collects sha256 fs (Below fs path) _ _ :=
          Collects.foldl (fun n hn c' => (hstep n c').mono fun q hq => hq.up (hex n hn))
            (c.enter sha256 path (some .dir))
        rw [hkept.kept path _ (by rw [get?_enter, if_pos rfl])]
        simp

/-! ### What a capture gives -/

/-- A path that a capture of `paths` has an item for. -/
def Tracked (fs : Disk) (paths : List Path) (q : Path) : Prop := ∃ path ∈ paths, Below fs path q

instance (root q : Path) : Decidable (Below fs root q) :=
  inferInstanceAs (Decidable (_ ∧ (_ ∨ _)))

instance (paths : List Path) (q : Path) : Decidable (Tracked fs paths q) :=
  inferInstanceAs (Decidable (∃ path ∈ paths, Below fs path q))

variable (sha256 : Bytes → String)

theorem captureEach_collects (fs : Disk) (blobs : Blobs)
    (paths : List Path) :
    Collects sha256 fs (Tracked fs paths) { blobs, states := [] }
      (captureEach sha256 fs blobs paths) :=
  Collects.foldl (fun path hp c =>
    (capturePath_collects _ path c).mono fun _ hq => ⟨path, hp, hq⟩) _

theorem captureEach_covered (fs : Disk) (blobs : Blobs)
    (paths : List Path) : ∀ path ∈ paths, Covered fs (captureEach sha256 fs blobs paths) path := by
  refine foldl_covered (fun path _ c => capturePath_collects _ path c) ?_ ?_
  · intro path _ c hc
    exact capturePath_covered (Nat.succ_pos _) (by omega) hc
  · intro path _ q _ hs
    exact absurd rfl hs

theorem get?_captureAll_eq (fs : Disk) (blobs : Blobs) (paths : List Path) (q : Path) :
    (captureAll sha256 fs blobs paths).states.get? q =
      (captureEach sha256 fs blobs paths).states.get? q :=
  (Assoc.get?_perm ((captureEach_collects sha256 fs blobs paths).nodup nodup_nil)
    (perm_insertionSort _ _).symm q).symm

/-- **What a capture gives**: the state of every path asked for and of every entry below one, and
nothing else. -/
theorem get?_captureAll (fs : Disk) (blobs : Blobs) (paths : List Path) (q : Path) :
    (captureAll sha256 fs blobs paths).states.get? q =
      if Tracked fs paths q then some (stateOf sha256 q (fs.get q)) else none := by
  rw [get?_captureAll_eq]
  have hc := captureEach_collects sha256 fs blobs paths
  cases hs : (captureEach sha256 fs blobs paths).states.get? q with
  | none =>
    rw [if_neg]
    rintro ⟨path, hp, hq⟩
    exact captureEach_covered sha256 fs blobs paths path hp q hq hs
  | some s =>
    rcases hc.new q s hs with h | ⟨ht, rfl⟩
    · cases h
    · rw [if_pos ht]

/-- **Every file captured has its blob**, and the store of blobs only grows. -/
theorem captureAll_blobs (fs : Disk) (blobs : Blobs) (paths : List Path) :
    (∀ digest data, (captureAll sha256 fs blobs paths).blobs.get? digest = some data →
      blobs.get? digest = some data ∨
        (digest = sha256 data ∧ ∃ q, fs.get q = some (.file data))) ∧
    (∀ digest data, blobs.get? digest = some data →
      (captureAll sha256 fs blobs paths).blobs.get? digest = some data) ∧
    (∀ q data, Tracked fs paths q → fs.get q = some (.file data) →
      (captureAll sha256 fs blobs paths).blobs.get? (sha256 data) ≠ none) := by
  have hc := captureEach_collects sha256 fs blobs paths
  refine ⟨hc.blobsNew, hc.blobsKept, ?_⟩
  · intro q data ht hq
    have hs : (captureEach sha256 fs blobs paths).states.get? q ≠ none := by
      rw [← get?_captureAll_eq, get?_captureAll, if_pos ht]
      simp
    rcases hc.stored q data hq hs with h | h
    · exact absurd rfl h
    · exact h

end KolegaCode.Snapshots
