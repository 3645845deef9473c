import KolegaCode.Checkpoints.Methods
import KolegaCode.Lib.Except

/-!
# Checkpoints — copies are kept as long as they are referenced

The shelf says, of the calls made so far and their answers, which copies are referenced, how often,
and with which bytes.  Every call keeps the store tied to it (`leads_call`), unless it is
`Careless`: unless it deletes a segment in which an empty blob is stored.
-/

namespace KolegaCode.Checkpoints

variable {Sha : Type} [DecidableEq Sha]

/-! ### The shelf -/

/-- The references to each copy, and the bytes it was stored with. -/
abbrev Shelf (Sha : Type) := Sha → Option (Nat × Bytes)

def Shelf.after (shelf : Shelf Sha) : Op Sha × Outcome → Shelf Sha
  | (.put sha data _ _ _, .reply reason) =>
    if reason = "" then
      Function.update shelf sha (some (((shelf sha).map fun p => (p.1 + 1, p.2)).getD (1, data)))
    else shelf
  | (.acquire sha, .found true) =>
    Function.update shelf sha ((shelf sha).map fun p => (p.1 + 1, p.2))
  | (.release sha _, _) =>
    Function.update shelf sha
      ((shelf sha).bind fun p => if 1 < p.1 then some (p.1 - 1, p.2) else none)
  | (.clear, _) | (.close, _) => fun _ => none
  | _ => shelf

def shelfOf (log : List (Op Sha × Outcome)) : Shelf Sha := log.foldl Shelf.after fun _ => none

/-- One call, counted: the puts and acquires of a copy that were accepted, less its releases,
since the store was last cleared. -/
def count (sha : Sha) (n : Int) : Op Sha × Outcome → Int
  | (.put sha' _ _ _ _, .reply reason) => if sha' = sha ∧ reason = "" then n + 1 else n
  | (.acquire sha', .found true) => if sha' = sha then n + 1 else n
  | (.release sha' _, _) => if sha' = sha then n - 1 else n
  | (.clear, _) | (.close, _) => 0
  | _ => n

def balance (sha : Sha) (log : List (Op Sha × Outcome)) : Int := log.foldl (count sha) 0

/-! ### When a copy is lost -/

/-- The free space check lets the copy through. -/
def hasRoom (s : CheckpointBlobStore Sha) (free : Option Int) (size : Nat) : Bool :=
  match freeSpaceAllows free size s with
  | .ok allowed _ => allowed
  | .error _ _ => false

def CheckpointBlobStore.without (s : CheckpointBlobStore Sha) (sha : Sha) :
    CheckpointBlobStore Sha :=
  { s with blobs := s.blobs.erase sha }

/-- The call deletes a segment in which another blob is stored, which must be an empty one. -/
def Careless (s : CheckpointBlobStore Sha) : Op Sha → Bool
  | .put sha data limit free fault =>
    !s.closed && (s.blobs.get? sha).isNone && decide (s.diskBytes + data.length ≤ limit) &&
      hasRoom s free data.length && Strands (packOf s) [(fault, data.length)]
  | .release sha faults =>
    match s.blobs.get? sha with
    | none => false
    | some blob =>
      match s.segments.get? blob.segment with
      | none => false
      | some segment =>
        if 1 < blob.refs ∨ s.active = some blob.segment then false
        else if segment.live - blob.size ≤ 0 then
          (s.without sha).blobs.any fun p => p.2.segment = blob.segment
        else if 2 * (segment.live - blob.size) < segment.size then
          Strands (packOf (s.without sha))
            (appendsOf (movingFrom (s.without sha) blob.segment) faults)
        else false
  | _ => false

/-- No call of the run is careless where it is made. -/
def Careful : CheckpointBlobStore Sha → List (Op Sha) → Prop
  | _, [] => True
  | s, op :: ops => Careless s op = false ∧ Careful (step s op).1 ops

instance decidableCareful : ∀ (s : CheckpointBlobStore Sha) (ops : List (Op Sha)),
    Decidable (Careful s ops)
  | _, [] => .isTrue trivial
  | s, op :: ops =>
    have := decidableCareful (step s op).1 ops
    inferInstanceAs (Decidable (Careless s op = false ∧ Careful (step s op).1 ops))

/-! ### Every call keeps the copies -/

/-- The store holds what the shelf says. -/
structure Kept (bytes : Sha → Bytes) (s : CheckpointBlobStore Sha) (shelf : Shelf Sha) :
    Prop where
  packed : Packed bytes s
  shelf : ∀ sha, shelf sha = (s.blobs.get? sha).map fun blob => (blob.refs, bytes sha)
  refs : ∀ sha blob, s.blobs.get? sha = some blob → 1 ≤ blob.refs

variable {bytes : Sha → Bytes} {s : CheckpointBlobStore Sha} {shelf : Shelf Sha} {sha : Sha}

theorem Kept.recount (h : Kept bytes s shelf) {blob : Blob} (hb : s.blobs.get? sha = some blob)
    {refs : Nat} (hrefs : 1 ≤ refs) :
    Kept bytes { s with blobs := s.blobs.set sha { blob with refs := refs } }
      (Function.update shelf sha (some (refs, bytes sha))) where
  packed := h.packed.recount hb refs
  shelf := by
    intro sha'
    rw [Assoc.get?_set]
    split
    · next he =>
      rw [he, Function.update_self]
      rfl
    · next he =>
      rw [Function.update_of_ne he]
      exact h.shelf sha'
  refs := by
    intro sha' blob' hb'
    rw [Assoc.get?_set] at hb'
    split at hb'
    · cases hb'
      exact hrefs
    · exact h.refs sha' blob' hb'

theorem leads_acquire (h : Kept bytes s shelf) :
    Leads (acquire sha) s (fun found s' => (found = true → shelf sha ≠ none) ∧
      Kept bytes s' (shelf.after (.acquire sha, .found found))) fun _ => False := by
  refine leads_bind (leads_get ?_)
  cases hb : s.blobs.get? sha with
  | none => exact leads_pure ⟨(fun he => nomatch he), h⟩
  | some blob =>
    have hnew := h.recount hb (Nat.le_add_left 1 blob.refs)
    have hshelf := h.shelf sha
    rw [hb] at hshelf
    refine leads_bind (leads_modify (leads_pure ⟨fun _ => by simp [hshelf], ?_⟩))
    simp only [Shelf.after, hshelf, Option.map_some]
    exact hnew

omit [DecidableEq Sha] in
theorem freeSpaceAllows_eq (s : CheckpointBlobStore Sha) (free : Option Int) (size : Nat) :
    ∃ bytes written, freeSpaceAllows free size s = .ok (hasRoom s free size)
      { s with freeBytes := bytes, writtenSinceFreeCheck := written } := by
  have hleads : Leads (freeSpaceAllows free size) s (fun _ s' => ∃ bytes written,
      s' = { s with freeBytes := bytes, writtenSinceFreeCheck := written }) fun _ => False := by
    refine leads_bind (leads_get ?_)
    split
    · refine leads_bind (leads_modify (leads_bind (leads_get ?_)))
      cases free with
      | none => exact leads_pure ⟨_, _, rfl⟩
      | some bytes =>
        refine leads_ite (fun _ => leads_pure ⟨_, _, rfl⟩) fun _ => ?_
        exact leads_bind (leads_modify (leads_pure ⟨_, _, rfl⟩))
    · refine leads_bind (leads_get ?_)
      cases hfree : s.freeBytes with
      | none => exact leads_pure ⟨_, _, rfl⟩
      | some bytes =>
        refine leads_ite (fun _ => leads_pure ⟨_, _, rfl⟩) fun _ => ?_
        exact leads_bind (leads_modify (leads_pure ⟨_, _, rfl⟩))
  obtain ⟨allowed, s', hs, bytes, written, rfl⟩ := hleads.returns fun _ hf => hf
  exact ⟨bytes, written, by rw [hasRoom, hs]⟩

/-- The free space check does not matter to the copies. -/
theorem Packed.checked (h : Packed bytes s) (free : Option Int) (written : Nat) :
    Packed bytes { s with freeBytes := free, writtenSinceFreeCheck := written } := { h with }

theorem leads_put {data : Bytes} {limit : Int} {free : Option Int} {fault : Fault}
    (h : Kept bytes s shelf) (hcareful : Careless s (.put sha data limit free fault) = false) :
    Leads (put sha data limit free fault) s (fun reason s' => ∃ bytes', Kept bytes' s'
      (shelf.after (.put sha data limit free fault, .reply reason))) fun _ => False := by
  have hrefused : ∀ reason, reason ≠ "" →
      shelf.after (.put sha data limit free fault, .reply reason) = shelf :=
    fun reason hreason => if_neg hreason
  have hkept : ∀ {s'}, Packed bytes s' → s'.blobs = s.blobs → Kept bytes s' shelf := fun h' he =>
    ⟨h', by rw [he]; exact h.shelf, by rw [he]; exact h.refs⟩
  refine leads_bind (leads_get (leads_ite (fun hclosed => ?_) fun hopen => ?_))
  · exact leads_pure ⟨bytes, by rw [hrefused _ (by decide)]; exact h⟩
  cases hb : s.blobs.get? sha with
  | some blob =>
    refine leads_bind (leads_modify (leads_pure ⟨bytes, ?_⟩))
    have hnew := h.recount hb (Nat.le_add_left 1 blob.refs)
    have hshelf := h.shelf sha
    rw [hb] at hshelf
    simp only [Shelf.after, if_true, hshelf, Option.map_some, Option.getD_some]
    exact hnew
  | none =>
    refine leads_ite (fun _ => leads_pure ⟨bytes, ?_⟩) fun hlimit => ?_
    · rw [hrefused _ (by decide)]
      exact h
    obtain ⟨freeBytes, written, hroom⟩ := freeSpaceAllows_eq s free data.length
    refine leads_bind ?_
    rw [Leads, hroom]
    refine leads_ite (fun _ => leads_pure ⟨bytes, ?_⟩) fun hallowed => ?_
    · rw [hrefused _ (by decide)]
      exact hkept (h.packed.checked _ _) rfl
    have hstrands : (packOf s).any (·.strands fault data.length) = false := by
      simp only [Careless, hb, Strands, Option.isNone_none] at hcareful
      rw [Bool.not_eq_true] at hopen
      rw [Bool.not_eq_true, Bool.not_eq_false'] at hallowed
      simp only [hopen, hallowed, not_lt.mp hlimit] at hcareful
      simpa using hcareful
    refine leads_bind ((leads_append (h.packed.checked freeBytes written) hstrands).mono ?_
      fun _ hf => hf)
    rintro r s₁ ⟨h₁, hbeside, hr⟩
    cases r with
    | none =>
      refine leads_pure ⟨bytes, ?_⟩
      rw [hrefused _ (by decide)]
      exact hkept h₁ hbeside.blobs
    | some r =>
      obtain ⟨i, offset⟩ := r
      obtain ⟨⟨hactive, segment, content, hseg, hfile, hend, hlen, hdata, -⟩, -⟩ := hr i offset rfl
      have hnew : s₁.blobs.get? sha = none := by rw [hbeside.blobs, hb]
      have hholds : Holds s₁ ⟨i, offset, data.length, 1⟩ data :=
        ⟨segment, content, hseg, hfile, Nat.le_of_eq hend, Nat.le_of_eq hlen, hdata⟩
      refine leads_bind (leads_modify (leads_bind (leads_addLive hseg ?_)))
      refine leads_bind (leads_modify (leads_pure ⟨_, h₁.place hnew hseg hholds, ?_, ?_⟩))
      · intro sha'
        have hshelf := h.shelf sha
        rw [hb] at hshelf
        simp only [Shelf.after, if_true, hshelf, Option.map_none, Option.getD_none]
        rw [Assoc.get?_set]
        split
        · next he =>
          subst he
          rw [Function.update_self, Function.update_self]
          rfl
        · next he =>
          rw [Function.update_of_ne he, Function.update_of_ne he, hbeside.blobs]
          exact h.shelf sha'
      · intro sha' blob' hb'
        rw [Assoc.get?_set] at hb'
        split at hb'
        · cases hb'
          exact Nat.le_refl 1
        · rw [hbeside.blobs] at hb'
          exact h.refs sha' blob' hb'

/-- A blob that is forgotten leaves its segment in the book. -/
theorem Kept.release (h : Kept bytes s shelf) {s' : CheckpointBlobStore Sha}
    (hpacked : Packed bytes s') (hrefs : SameRefs (s.without sha) s') :
    Kept bytes s' (Function.update shelf sha none) where
  packed := hpacked
  shelf := by
    intro sha'
    have hr := hrefs sha'
    simp only [CheckpointBlobStore.without, Assoc.get?_erase] at hr
    by_cases he : sha' = sha
    · rw [if_pos he, Option.map_none, Option.map_eq_none_iff] at hr
      rw [he, Function.update_self, ← he, hr, Option.map_none]
    · rw [if_neg he] at hr
      rw [Function.update_of_ne he, h.shelf sha']
      cases hb : s.blobs.get? sha' with
      | none =>
        rw [hb, Option.map_none, Option.map_eq_none_iff] at hr
        rw [hr]
      | some blob =>
        rw [hb, Option.map_some, Option.map_eq_some_iff] at hr
        obtain ⟨blob', hb', he'⟩ := hr
        rw [hb', Option.map_some, Option.map_some, he']
  refs := by
    intro sha' blob' hb'
    have hr := hrefs sha'
    simp only [CheckpointBlobStore.without, Assoc.get?_erase, hb', Option.map_some] at hr
    split at hr
    · cases hr
    · obtain ⟨blob, hb, he⟩ := Option.map_eq_some_iff.mp hr.symm
      exact he ▸ h.refs sha' blob hb

omit [DecidableEq Sha] in
theorem packOf_congr {s' : CheckpointBlobStore Sha} (hblobs : s'.blobs = s.blobs)
    (hactive : s'.active = s.active)
    (hsegments : ∀ i, s.active = some i → s'.segments.get? i = s.segments.get? i) :
    packOf s' = packOf s := by
  simp only [packOf, hblobs, hactive]
  cases hs : s.active with
  | none => rfl
  | some i => simp only [Option.bind_some, hsegments i hs]

theorem leads_release {faults : List Fault} (h : Kept bytes s shelf)
    (hcareful : Careless s (.release sha faults) = false) :
    Leads (release sha faults) s (fun _ s' => Kept bytes s'
      (shelf.after (.release sha faults, .done))) fun _ => False := by
  have hshelf := h.shelf sha
  refine leads_bind (leads_get ?_)
  cases hb : s.blobs.get? sha with
  | none =>
    rw [hb, Option.map_none] at hshelf
    have hafter : shelf.after (.release sha faults, .done) = shelf := by
      simp only [Shelf.after, hshelf, Option.bind_none]
      exact Function.update_eq_self_iff.mpr hshelf.symm
    exact leads_pure (hafter.symm ▸ h)
  | some blob =>
    rw [hb, Option.map_some] at hshelf
    refine leads_ite (fun hmany => leads_modify ?_) fun hlast => ?_
    · simp only [Shelf.after, hshelf, Option.bind_some, if_pos hmany]
      exact h.recount hb (Nat.le_sub_one_of_lt hmany)
    have hafter : shelf.after (.release sha faults, .done) = Function.update shelf sha none := by
      simp only [Shelf.after, hshelf, Option.bind_some, if_neg hlast]
    rw [hafter]
    obtain ⟨segment, content, hseg, -⟩ := h.packed.holds sha blob hb
    have hforget := h.packed.forget hb hseg
    refine leads_bind (leads_modify (leads_bind (leads_addLive hseg ?_)))
    refine leads_bind (leads_segmentAt (Assoc.get?_set_self ..) (leads_bind (leads_get ?_)))
    simp only [Careless, hb, hseg] at hcareful
    refine leads_ite (fun hinactive => ?_) fun hactive => ?_
    · rw [if_neg (not_or.mpr ⟨hlast, hinactive⟩)] at hcareful
      refine leads_ite (fun (hdead : segment.live + -(blob.size : Int) ≤ 0) => ?_)
        fun (halive : ¬ segment.live + -(blob.size : Int) ≤ 0) => ?_
      · rw [if_pos (by omega), List.any_eq_false] at hcareful
        refine leads_deleteSegment (Assoc.get?_set_self ..) (h.release (hforget.delete
          (Assoc.get?_set_self ..) hinactive fun sha' blob' hb' he => ?_) fun _ => rfl)
        exact hcareful (sha', blob') (Assoc.mem_of_get? hb') (decide_eq_true he)
      · rw [if_neg (by omega)] at hcareful
        refine leads_ite (fun (hsparse : 2 * (segment.live + -(blob.size : Int)) < segment.size) => ?_)
          fun _ => leads_pure (h.release hforget fun _ => rfl)
        rw [if_pos (by omega)] at hcareful
        refine (leads_compact hforget hinactive ?_ ?_).mono (fun _ s' h' => ?_) fun _ hf => hf
        · rw [Assoc.get?_set_self]
          simp
        · refine Eq.trans (congrArg (Strands · _) ?_) hcareful
          refine packOf_congr (s := s.without sha) rfl rfl fun i hi => ?_
          exact Assoc.get?_set_of_ne fun e => hinactive (e ▸ hi)
        · exact h.release h'.1 h'.2
    · exact leads_pure (h.release hforget fun _ => rfl)

theorem Packed.removed (h : Packed bytes s) (closed : Bool) :
    Packed bytes { s with
      closed := closed
      active := none
      blobs := []
      segments := []
      diskBytes := 0
      liveBytes := 0
      created := false
      files := if s.created then [] else s.files } where
  blobKeys := List.nodup_nil
  segmentKeys := List.nodup_nil
  holds := fun _ _ hb => nomatch hb
  filed := fun _ _ hseg => nomatch hseg
  live := fun _ _ hseg => nomatch hseg
  active := fun _ hi => nomatch hi
  fresh := by
    intro i hi
    refine ⟨rfl, ?_⟩
    split
    · rfl
    · exact (h.fresh i hi).2
  diskBytes := rfl
  liveBytes := rfl

/-- The answer of a call is one the shelf allows. -/
def Answers (shelf : Shelf Sha) : Op Sha × Outcome → Prop
  | (.acquire sha, .found true) => shelf sha ≠ none
  | (_, outcome) => outcome ≠ .raised

/-- A call that is not careless answers, and keeps what the shelf then says. -/
theorem leads_call {op : Op Sha} (h : Kept bytes s shelf) (hcareful : Careless s op = false) :
    Leads op.call s (fun outcome s' => Answers shelf (op, outcome) ∧
      ∃ bytes', Kept bytes' s' (shelf.after (op, outcome))) fun _ => False := by
  cases op with
  | put sha data limit free fault =>
    refine leads_bind ((leads_put h hcareful).mono ?_ fun _ hf => hf)
    exact fun reason s' h' => leads_pure ⟨by simp [Answers], h'⟩
  | acquire sha =>
    refine leads_bind ((leads_acquire h).mono ?_ fun _ hf => hf)
    rintro found s' ⟨hfound, h'⟩
    cases found with
    | true => exact leads_pure ⟨hfound rfl, bytes, h'⟩
    | false => exact leads_pure ⟨by simp [Answers], bytes, h'⟩
  | release sha faults =>
    refine leads_bind ((leads_release h hcareful).mono ?_ fun _ hf => hf)
    exact fun _ s' h' => leads_pure ⟨by simp [Answers], bytes, h'⟩
  | read sha =>
    refine leads_bind (leads_bind (leads_get ?_))
    cases s.blobs.get? sha with
    | none | some blob => exact leads_pure (leads_pure ⟨by simp [Answers], bytes, h⟩)
  | clear =>
    refine leads_bind (leads_modify (leads_pure ⟨by simp [Answers], bytes, ?_⟩))
    exact ⟨h.packed.removed s.closed, fun _ => rfl, fun _ _ hb => nomatch hb⟩
  | close =>
    refine leads_bind (leads_bind (leads_modify (leads_modify
      (leads_pure ⟨by simp [Answers], bytes, ?_⟩))))
    exact ⟨h.packed.removed true, fun _ => rfl, fun _ _ hb => nomatch hb⟩

/-- The references the shelf counts. -/
def Shelf.refs (shelf : Shelf Sha) (sha : Sha) : Int := ((shelf sha).map fun p => (p.1 : Int)).getD 0

omit [DecidableEq Sha] in
theorem Shelf.refs_nonneg (shelf : Shelf Sha) (sha : Sha) : 0 ≤ shelf.refs sha := by
  rw [Shelf.refs]
  cases shelf sha with
  | none => exact Int.le_refl 0
  | some p => exact Int.natCast_nonneg p.1

theorem Shelf.refs_update (shelf : Shelf Sha) (sha sha' : Sha) (entry : Option (Nat × Bytes)) :
    Shelf.refs (Function.update shelf sha' entry) sha =
      if sha' = sha then (entry.map fun p => (p.1 : Int)).getD 0 else shelf.refs sha := by
  simp only [Shelf.refs, Function.update_apply, eq_comm (a := sha)]
  split <;> rfl

omit [DecidableEq Sha] in
theorem Answers.not_raised {entry : Op Sha × Outcome} (h : Answers shelf entry) :
    entry.2 ≠ .raised := by
  obtain ⟨op, outcome⟩ := entry
  rintro rfl
  cases op <;> simp [Answers] at h

/-- No copy has fewer references than its calls ask for. -/
theorem Answers.count_le {entry : Op Sha × Outcome} {n : Int} (h : Answers shelf entry)
    (hn : n ≤ shelf.refs sha) : count sha n entry ≤ (shelf.after entry).refs sha := by
  have hpos := shelf.refs_nonneg sha
  obtain ⟨op, outcome⟩ := entry
  cases op with
  | put sha' data limit free fault =>
    cases outcome with
    | reply reason =>
      simp only [count, Shelf.after]
      by_cases hreason : reason = ""
      · rw [if_pos hreason, Shelf.refs_update]
        by_cases he : sha' = sha
        · rw [if_pos ⟨he, hreason⟩, if_pos he, he]
          rw [Shelf.refs] at hn hpos
          cases hs : shelf sha with
          | none =>
            simp only [hs, Option.map_none, Option.getD_none, Option.map_some,
              Option.getD_some] at hn ⊢
            omega
          | some p =>
            simp only [hs, Option.map_some, Option.getD_some] at hn ⊢
            omega
        · rw [if_neg fun hc => he hc.1, if_neg he]
          exact hn
      · rw [if_neg fun hc => hreason hc.2, if_neg hreason]
        exact hn
    | _ => exact hn
  | acquire sha' =>
    cases outcome with
    | found stored =>
      cases stored with
      | false => exact hn
      | true =>
        simp only [count, Shelf.after, Shelf.refs_update]
        by_cases he : sha' = sha
        · rw [if_pos he, if_pos he, he]
          obtain ⟨p, hs⟩ := Option.ne_none_iff_exists'.mp (show shelf sha' ≠ none from h)
          rw [he] at hs
          rw [Shelf.refs] at hn
          simp only [hs, Option.map_some, Option.getD_some] at hn ⊢
          omega
        · rw [if_neg he, if_neg he]
          exact hn
    | _ => exact hn
  | release sha' faults =>
    simp only [count, Shelf.after, Shelf.refs_update]
    by_cases he : sha' = sha
    · rw [if_pos he, if_pos he, he]
      rw [Shelf.refs] at hn
      cases hs : shelf sha with
      | none =>
        simp only [hs, Option.map_none, Option.getD_none, Option.bind_none] at hn ⊢
        omega
      | some p =>
        simp only [hs, Option.map_some, Option.getD_some, Option.bind_some] at hn ⊢
        split
        · simp only [Option.map_some, Option.getD_some]
          omega
        · simp only [Option.map_none, Option.getD_none]
          omega
    · rw [if_neg he, if_neg he]
      exact hn
  | read sha' => exact hn
  | clear => exact Int.le_refl 0
  | close => exact Int.le_refl 0

/-- What holds of every run in which no call is careless. -/
theorem kept_run {ops : List (Op Sha)} (h : Kept bytes s shelf) (hcareful : Careful s ops) :
    (∀ entry ∈ (run s ops).2, entry.2 ≠ .raised) ∧
      (∃ bytes', Kept bytes' (run s ops).1 ((run s ops).2.foldl Shelf.after shelf)) ∧
      ∀ sha n, n ≤ shelf.refs sha →
        (run s ops).2.foldl (count sha) n ≤ ((run s ops).2.foldl Shelf.after shelf).refs sha := by
  induction ops generalizing s shelf bytes with
  | nil => exact ⟨(fun _ he => nomatch he), ⟨bytes, h⟩, fun _ _ hn => hn⟩
  | cons op ops ih =>
    obtain ⟨hop, hops⟩ := hcareful
    obtain ⟨outcome, s', hcall, hanswers, bytes', h'⟩ := (leads_call h hop).returns fun _ hf => hf
    have hstep : step s op = (s', outcome) := by rw [step, hcall]
    rw [hstep] at hops
    obtain ⟨hraised, hkept, hcount⟩ := ih h' hops
    simp only [run, hstep]
    refine ⟨fun entry he => ?_, hkept, fun sha n hn => hcount sha _ (hanswers.count_le hn)⟩
    rcases List.mem_cons.mp he with rfl | he
    · exact hanswers.not_raised
    · exact hraised entry he

theorem step_read {blob : Blob} (hb : s.blobs.get? sha = some blob) :
    step s (.read sha) = (s, .content (readBlob s blob)) := by
  simp only [step, Op.call, read, bind, EStateM.bind, estate_get, hb, pure, EStateM.pure]

/-- **Copies survive as long as they are referenced.**  In every run in which no call is careless,
no call raises; a copy whose puts and acquires outnumber its releases reads back the bytes it was
stored with; any other is not stored; and the counters are the sums they stand for. -/
theorem copies_kept (ops : List (Op Sha)) (h : Careful (CheckpointBlobStore.new Sha) ops) :
    let s := (run (CheckpointBlobStore.new Sha) ops).1
    let log := (run (CheckpointBlobStore.new Sha) ops).2
    (∀ entry ∈ log, entry.2 ≠ .raised) ∧
    (∀ sha, 0 < balance sha log → shelfOf log sha ≠ none) ∧
    (∀ sha refs data, shelfOf log sha = some (refs, data) →
      step s (.read sha) = (s, .content (some data))) ∧
    (∀ sha, shelfOf log sha = none → s.blobs.get? sha = none) ∧
    (∀ index segment, s.segments.get? index = some segment →
      segment.live = liveIn s.blobs index) ∧
    s.diskBytes = (s.segments.map fun p => (p.2.size : Int)).sum ∧
    s.liveBytes = (s.blobs.map fun p => (p.2.size : Int)).sum := by
  have hnew : Kept (fun _ => []) (CheckpointBlobStore.new Sha) (fun _ => none) :=
    ⟨packed_new _, fun _ => rfl, fun _ _ hb => nomatch hb⟩
  obtain ⟨hraised, ⟨bytes, hkept⟩, hcount⟩ := kept_run hnew h
  change Kept bytes _ (shelfOf _) at hkept
  refine ⟨hraised, fun sha hpos hnone => ?_, fun sha refs data hs => ?_, fun sha hnone => ?_,
    hkept.packed.live, hkept.packed.diskBytes, hkept.packed.liveBytes⟩
  · have hle := hcount sha 0 (Int.le_refl 0)
    rw [Shelf.refs] at hle
    change balance sha _ ≤ ((shelfOf _ sha).map fun p => (p.1 : Int)).getD 0 at hle
    rw [hnone, Option.map_none, Option.getD_none] at hle
    omega
  · have hshelf := hkept.shelf sha
    rw [hs] at hshelf
    obtain ⟨blob, hb, he⟩ := Option.map_eq_some_iff.mp hshelf.symm
    cases he
    rw [step_read hb, (hkept.packed.holds sha blob hb).readBlob]
  · have hshelf := hkept.shelf sha
    rw [hnone] at hshelf
    exact Option.map_eq_none_iff.mp hshelf.symm

/-- Two copies in a segment that a failed write seals; the larger one is released, and the segment
is compacted into the one opened since. -/
def compacting : List (Op Nat) :=
  [.put 0 [7, 8, 9, 10] 100 none .none, .put 1 [5] 100 none .none,
    .put 2 [1, 2] 100 none (.write 1), .put 3 [4] 100 none .none, .release 0 []]

theorem copies_kept_compacting :
    (step (run (.new Nat) compacting).1 (.read 1)).2 = .content (some [5]) := by
  have h := copies_kept compacting (by decide)
  exact congrArg Prod.snd (h.2.2.1 1 1 [5] (by decide))

/-- **An empty copy is lost.**  It is alone in its segment when the next write fails: the segment is
sealed and, with no live byte in it, deleted. -/
theorem empty_copy_lost :
    let r := run (.new Nat) [.put 0 [] 100 none .none, .put 1 [1] 100 none (.write 0)]
    0 < balance 0 r.2 ∧ (step r.1 (.read 0)).2 = .content none ∧
      (step r.1 (.release 0 [])).2 = .raised := by
  decide

end KolegaCode.Checkpoints
