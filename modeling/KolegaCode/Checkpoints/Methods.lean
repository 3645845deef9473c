import KolegaCode.Checkpoints.Packed

/-!
# Checkpoints — what each method does to the spool

`leads_append`, on which the others rest, needs that the append does not delete the active segment
with blobs in it (`Pack.strands`).  `Strands` follows the appends of a compaction.
-/

namespace KolegaCode.Checkpoints

variable {Sha : Type}

/-! ### What a seal deletes -/

/-- What an append needs to know of the active segment. -/
structure Pack where
  size : Nat
  live : Int
  empties : Bool

/-- The write of `size` bytes fails: there is something to write and the system refuses it. -/
def Fault.refuses (fault : Fault) (size : Nat) : Bool :=
  match fault with
  | .write _ => size != 0
  | _ => false

def Pack.full (pack : Pack) (size : Nat) : Bool :=
  pack.size != 0 && decide (SEGMENT_BYTES < pack.size + size)

/-- The append seals the segment, which has no live byte but a blob in it. -/
def Pack.strands (pack : Pack) (fault : Fault) (size : Nat) : Bool :=
  (pack.full size || fault.refuses size) && decide (pack.live ≤ 0) && pack.empties

/-- The active segment once a blob has been appended. -/
def Pack.after (pack : Option Pack) (size : Nat) : Pack :=
  match pack with
  | none => ⟨size, size, size == 0⟩
  | some pack =>
    if pack.full size then ⟨size, size, size == 0⟩
    else ⟨pack.size + size, pack.live + size, pack.empties || size == 0⟩

/-- The append fails, in a spool whose directory is there. -/
def appendFails (pack : Option Pack) (fault : Fault) (size : Nat) : Bool :=
  fault.refuses size || (decide (fault = .file) && pack.all (·.full size))

/-- One of the appends deletes a segment with a blob in it. -/
def Strands : Option Pack → List (Fault × Nat) → Bool
  | _, [] => false
  | pack, (fault, size) :: appends =>
    pack.any (·.strands fault size) ||
      (!appendFails pack fault size && Strands (some (Pack.after pack size)) appends)

/-- The active segment of a store. -/
def packOf (s : CheckpointBlobStore Sha) : Option Pack :=
  s.active.bind fun index => (s.segments.get? index).map fun segment =>
    ⟨segment.size, segment.live, emptyIn s.blobs index⟩

/-! ### Sealing, opening and appending -/

variable [DecidableEq Sha] {bytes : Sha → Bytes} {s s' : CheckpointBlobStore Sha} {index : Nat}
  {segment : Segment}

omit [DecidableEq Sha] in
theorem leads_segmentAt {ok : Segment → CheckpointBlobStore Sha → Prop}
    {raised : CheckpointBlobStore Sha → Prop} (hseg : s.segments.get? index = some segment)
    (h : ok segment s) : Leads (segmentAt index) s ok raised := by
  refine leads_bind (leads_get ?_)
  simp only [hseg]
  exact leads_pure h

omit [DecidableEq Sha] in
theorem leads_deleteSegment {ok : Unit → CheckpointBlobStore Sha → Prop}
    {raised : CheckpointBlobStore Sha → Prop} (hseg : s.segments.get? index = some segment)
    (h : ok ⟨⟩ { s with
      segments := s.segments.erase index
      diskBytes := s.diskBytes - segment.size
      files := s.files.erase index }) :
    Leads (deleteSegment index) s ok raised :=
  leads_bind (leads_segmentAt hseg (leads_modify h))

omit [DecidableEq Sha] in
theorem leads_addLive {ok : Unit → CheckpointBlobStore Sha → Prop}
    {raised : CheckpointBlobStore Sha → Prop} {size : Int}
    (hseg : s.segments.get? index = some segment)
    (h : ok ⟨⟩ { s with
      segments := s.segments.set index { segment with live := segment.live + size } }) :
    Leads (addLive index size) s ok raised :=
  leads_bind (leads_segmentAt hseg (leads_modify h))

/-- What an append leaves alone: the blobs, and every segment but the active one. -/
structure Beside (s s' : CheckpointBlobStore Sha) : Prop where
  blobs : s'.blobs = s.blobs
  liveBytes : s'.liveBytes = s.liveBytes
  closed : s'.closed = s.closed
  segments : ∀ i segment, s.active ≠ some i → s.segments.get? i = some segment →
    s'.segments.get? i = some segment
  active : ∀ i, s.active ≠ some i → s.segments.get? i ≠ none → s'.active ≠ some i

omit [DecidableEq Sha] in
theorem Beside.refl (s : CheckpointBlobStore Sha) : Beside s s :=
  ⟨rfl, rfl, rfl, fun _ _ _ h => h, fun _ h _ => h⟩

theorem leads_sealActive (h : Packed bytes { s with active := none })
    (hactive : ∀ i, s.active = some i → s.segments.get? i ≠ none)
    (hstrands : ∀ i segment, s.active = some i → s.segments.get? i = some segment →
      segment.live ≤ 0 → emptyIn s.blobs i = false) :
    Leads sealActive s
      (fun _ s' => Packed bytes s' ∧ s'.active = none ∧ Beside s s') fun _ => False := by
  refine leads_bind (leads_get (leads_bind (leads_modify ?_)))
  cases hs : s.active with
  | none =>
    refine leads_pure ⟨?_, rfl, ⟨rfl, rfl, rfl, fun _ _ _ hg => hg, ?_⟩⟩
    · exact h
    · intro _ _ _ he
      cases he
  | some i =>
    obtain ⟨segment, hseg⟩ := Option.ne_none_iff_exists'.mp (hactive i hs)
    have hlive := h.live i segment hseg
    refine leads_bind (leads_segmentAt hseg (leads_ite (fun hdead => ?_) fun _ => ?_))
    · have hno := not_in_of_dead (hlive ▸ hdead) (hstrands i segment hs hseg hdead)
      refine leads_deleteSegment hseg ⟨?_, rfl, ⟨rfl, rfl, rfl, ?_, ?_⟩⟩
      · refine h.delete hseg (fun he => nomatch he) fun sha blob hb => ?_
        exact hno _ (Assoc.mem_of_get? hb)
      · intro j seg hj hg
        have hne : j ≠ i := fun e => hj (e ▸ hs)
        rw [Assoc.get?_erase, if_neg hne, hg]
      · intro _ _ _ he
        cases he
    · refine leads_pure ⟨h, rfl, ⟨rfl, rfl, rfl, fun _ _ _ hg => hg, ?_⟩⟩
      intro _ _ _ he
      cases he

/-- The active segment may be sealed. -/
def MaySeal (s : CheckpointBlobStore Sha) : Prop :=
  ∀ i segment, s.active = some i → s.segments.get? i = some segment → segment.live ≤ 0 →
    emptyIn s.blobs i = false

theorem leads_openSegment (h : Packed bytes s) (hseal : MaySeal s) (fault : Fault) :
    Leads (openSegment fault) s (fun r s' => Packed bytes s' ∧ Beside s s' ∧
      (r = none ↔ fault = .file) ∧ ∀ i, r = some i → s'.active = some i ∧
        s'.segments.get? i = some ⟨0, 0⟩ ∧ emptyIn s.blobs i = false) fun _ => False := by
  refine leads_bind ((leads_sealActive h.seal h.active hseal).mono ?_ fun _ hf => hf)
  rintro - s₁ ⟨h₁, hnone, hbeside⟩
  refine leads_bind (leads_get (leads_bind (leads_modify ?_)))
  have hnext : Packed bytes { s₁ with nextSegment := s₁.nextSegment + 1 } :=
    { h₁ with fresh := fun i hi => h₁.fresh i (Nat.le_of_succ_le hi) }
  by_cases hfault : fault = .file
  · rw [if_pos hfault]
    refine leads_pure ⟨hnext, ⟨hbeside.blobs, hbeside.liveBytes, hbeside.closed,
      hbeside.segments, hbeside.active⟩, by simp [hfault], fun i hi => nomatch hi⟩
  · rw [if_neg hfault]
    refine leads_bind (leads_modify (leads_pure ⟨h₁.open, ?_, by simp [hfault], ?_⟩))
    · have hfresh := (h₁.fresh s₁.nextSegment (Nat.le_refl _)).1
      have hne : ∀ i, s₁.segments.get? i ≠ none → i ≠ s₁.nextSegment := by
        rintro i hi rfl
        exact hi hfresh
      refine ⟨hbeside.blobs, hbeside.liveBytes, hbeside.closed, ?_, ?_⟩
      · intro i segment hi hg
        have hg₁ := hbeside.segments i segment hi hg
        rw [Assoc.get?_set_of_ne (hne i (by simp [hg₁])), hg₁]
      · intro i hi hg
        obtain ⟨segment, hg⟩ := Option.ne_none_iff_exists'.mp hg
        have hg₁ := hbeside.segments i segment hi hg
        intro he
        exact hne i (by simp [hg₁]) (Option.some.inj he).symm
    · intro i hi
      cases hi
      refine ⟨rfl, Assoc.get?_set_self .., ?_⟩
      rw [← hbeside.blobs, emptyIn, List.any_eq_false]
      intro p hp
      obtain ⟨segment, content, hseg, -⟩ := h₁.holds _ _ (Assoc.get?_of_mem h₁.blobKeys hp)
      have hne : p.2.segment ≠ s₁.nextSegment := by
        intro e
        rw [e, (h₁.fresh _ (Nat.le_refl _)).1] at hseg
        cases hseg
      simp [hne]

omit [DecidableEq Sha] in
theorem packOf_eq (hactive : s.active = some index) (hseg : s.segments.get? index = some segment) :
    packOf s = some ⟨segment.size, segment.live, emptyIn s.blobs index⟩ := by
  simp [packOf, hactive, hseg]

omit [DecidableEq Sha] in
/-- An append that seals the active segment, and strands nothing. -/
theorem maySeal_of {fault : Fault} {size : Nat} (h : (packOf s).any (·.strands fault size) = false)
    (hseals : ∀ i segment, s.active = some i → s.segments.get? i = some segment →
      (segment.size ≠ 0 ∧ SEGMENT_BYTES < segment.size + size) ∨ fault.refuses size = true) :
    MaySeal s := by
  intro i segment hi hseg hdead
  rw [packOf_eq hi hseg, Option.any_some] at h
  by_contra hempty
  rw [Bool.not_eq_false] at hempty
  have hfull := hseals i segment hi hseg
  simp only [Pack.strands, Pack.full, hempty, hdead, decide_true, Bool.and_true,
    Bool.or_eq_false_iff, Bool.and_eq_false_iff, bne_eq_false_iff_eq, decide_eq_false_iff_not] at h
  rcases hfull with ⟨hsize, hlt⟩ | hrefuses
  · exact h.1.elim hsize fun hn => hn hlt
  · rw [hrefuses] at h
    cases h.2

theorem leads_activeFor (h : Packed bytes s) {fault : Fault} {size : Nat}
    (hn : (packOf s).any (·.strands fault size) = false) :
    Leads (activeFor fault size) s (fun r s' => Packed bytes s' ∧ Beside s s' ∧
      ∀ i, r = some i → s'.active = some i ∧
        (fault = .file → (packOf s).all (·.full size) = false) ∧
        ∃ segment, s'.segments.get? i = some segment ∧
          Pack.after (packOf s) size =
            ⟨segment.size + size, segment.live + size, emptyIn s.blobs i || size == 0⟩ ∧
          (fault.refuses size = true → segment.live ≤ 0 → emptyIn s.blobs i = false))
      fun _ => False := by
  -- a new segment is opened
  have hopen : MaySeal s → Pack.after (packOf s) size = ⟨size, size, size == 0⟩ →
      Leads (openSegment fault) s (fun r s' => Packed bytes s' ∧ Beside s s' ∧
        ∀ i, r = some i → s'.active = some i ∧
          (fault = .file → (packOf s).all (·.full size) = false) ∧
          ∃ segment, s'.segments.get? i = some segment ∧
            Pack.after (packOf s) size =
              ⟨segment.size + size, segment.live + size, emptyIn s.blobs i || size == 0⟩ ∧
            (fault.refuses size = true → segment.live ≤ 0 → emptyIn s.blobs i = false))
        fun _ => False := by
    intro hseal hafter
    refine (leads_openSegment h hseal fault).mono ?_ fun _ hf => hf
    rintro r s' ⟨h', hbeside, hfile, hr⟩
    refine ⟨h', hbeside, fun i hi => ?_⟩
    obtain ⟨hactive, hseg, hempty⟩ := hr i hi
    refine ⟨hactive, fun he => ?_, _, hseg, ?_, fun _ _ => hempty⟩
    · rw [hi] at hfile
      cases hfile.mpr he
    · rw [hafter, hempty]
      simp
  refine leads_bind (leads_get ?_)
  cases hs : s.active with
  | none =>
    have hpack : packOf s = none := by simp [packOf, hs]
    refine hopen (fun i _ hi => ?_) (by rw [hpack]; rfl)
    rw [hs] at hi
    cases hi
  | some i =>
    obtain ⟨segment, hseg⟩ := Option.ne_none_iff_exists'.mp (h.active i hs)
    have hpack := packOf_eq hs hseg
    refine leads_bind (leads_segmentAt hseg (leads_ite (fun hfull => ?_) fun hroom => ?_))
    · refine hopen (maySeal_of hn fun j seg hj hg => ?_) ?_
      · rw [hs] at hj
        cases hj
        rw [hseg] at hg
        cases hg
        exact .inl hfull
      · rw [hpack, Pack.after, Pack.full]
        simp [hfull.1, hfull.2]
    · have hfull : Pack.full ⟨segment.size, segment.live, emptyIn s.blobs i⟩ size = false := by
        simpa [Pack.full] using fun hne => not_lt.mp fun hlt => hroom ⟨hne, hlt⟩
      refine leads_pure ⟨h, Beside.refl s, fun j hj => ?_⟩
      cases hj
      refine ⟨hs, fun _ => by rw [hpack, Option.all_some, hfull], segment, hseg, ?_, ?_⟩
      · rw [hpack, Pack.after, hfull]
        rfl
      · intro hrefuses
        exact maySeal_of hn (fun _ _ _ _ => .inr hrefuses) i segment hs hseg

/-- Where a successful append has put its data. -/
structure Appended (s s' : CheckpointBlobStore Sha) (data : Bytes) (index offset : Nat) : Prop where
  active : s'.active = some index
  written : ∃ segment content, s'.segments.get? index = some segment ∧
    s'.files.get? index = some content ∧ offset + data.length = segment.size ∧
    segment.size = content.length ∧ (content.drop offset).take data.length = data ∧
    Pack.after (packOf s) data.length =
      ⟨segment.size, segment.live + data.length, emptyIn s.blobs index || data.length == 0⟩

/-- **An append.**  It keeps the invariant and, when it succeeds, says where the data is. -/
theorem leads_append (h : Packed bytes s) {fault : Fault} {data : Bytes}
    (hn : (packOf s).any (·.strands fault data.length) = false) :
    Leads (append fault data) s (fun r s' => Packed bytes s' ∧ Beside s s' ∧
      ∀ i offset, r = some (i, offset) → Appended s s' data i offset ∧
        appendFails (packOf s) fault data.length = false) fun _ => False := by
  refine leads_bind (leads_get (leads_ite (fun _ => ?_) fun _ => ?_))
  · exact leads_pure ⟨h, Beside.refl s, fun _ _ hr => nomatch hr⟩
  refine leads_bind (leads_modify (leads_bind ?_))
  have hmade : Packed bytes { s with created := true } := { h with }
  refine (leads_activeFor hmade hn).mono ?_ fun _ hf => hf
  rintro r s₁ ⟨h₁, hbeside₁, hr⟩
  have hbeside : Beside s s₁ := { hbeside₁ with }
  cases r with
  | none => exact leads_pure ⟨h₁, hbeside, fun _ _ he => nomatch he⟩
  | some i =>
    obtain ⟨hactive, hfile, segment, hseg, hafter, hrefuses⟩ := hr i rfl
    refine leads_bind (leads_segmentAt hseg ?_)
    cases hcuts : fault.cuts data with
    | some written =>
      have hfails : fault.refuses data.length = true := by
        cases fault <;> cases data <;> simp_all [Fault.cuts, Fault.refuses]
      refine leads_bind (leads_modify (leads_bind ?_))
      let cut := { s₁ with files := s₁.files.set i ((s₁.files.get? i).getD [] ++ written) }
      refine (leads_sealActive (s := cut) (h₁.cut hseg written) h₁.active ?_).mono ?_
        fun _ hf => hf
      · intro j seg hj hg hdead
        obtain rfl : i = j := Option.some.inj (hactive.symm.trans hj)
        obtain rfl : segment = seg := Option.some.inj (hseg.symm.trans hg)
        have hempty := hrefuses hfails hdead
        rw [hbeside.blobs]
        exact hempty
      · rintro - s₂ ⟨h₂, hnone, hbeside₂⟩
        refine leads_pure ⟨h₂, ⟨hbeside₂.blobs.trans hbeside.blobs,
          hbeside₂.liveBytes.trans hbeside.liveBytes, hbeside₂.closed.trans hbeside.closed,
          ?_, ?_⟩, fun _ _ he => nomatch he⟩
        · intro j seg hj hg
          have hg₁ := hbeside.segments j seg hj hg
          exact hbeside₂.segments j seg (hbeside.active j hj (by simp [hg])) hg₁
        · intro _ _ _ he
          rw [hnone] at he
          cases he
    | none =>
      have hfails : fault.refuses data.length = false := by
        cases fault <;> cases data <;> simp_all [Fault.cuts, Fault.refuses]
      obtain ⟨content, hcontent, -, hend⟩ := h₁.filed i segment hseg
      refine leads_bind (leads_modify (leads_bind (leads_modify (leads_pure ?_))))
      refine ⟨h₁.write hseg data, ⟨hbeside.blobs, hbeside.liveBytes, hbeside.closed,
        ?_, hbeside.active⟩, ?_⟩
      · intro j seg hj hg
        have hne : j ≠ i := fun e => hbeside.active j hj (by simp [hg]) (e ▸ hactive)
        rw [Assoc.get?_set_of_ne hne]
        exact hbeside.segments j seg hj hg
      · intro j offset hj
        cases hj
        refine ⟨⟨hactive, _, _, Assoc.get?_set_self .., Assoc.get?_set_self .., rfl, ?_, ?_,
          hafter⟩, ?_⟩
        · rw [hcontent, Option.getD_some, List.length_append, hend hactive]
        · rw [hcontent, Option.getD_some, ← hend hactive, List.drop_left', List.take_length]
          rfl
        · rw [appendFails, hfails, Bool.false_or, Bool.and_eq_false_iff]
          by_cases he : fault = .file
          · exact .inr (hfile he)
          · exact .inl (decide_eq_false he)

/-! ### Compaction -/

/-- The appends a compaction makes. -/
def appendsOf : List (Sha × Blob) → List Fault → List (Fault × Nat)
  | [], _ => []
  | (_, blob) :: moving, faults =>
    (faults.headD .none, blob.size) :: appendsOf moving faults.tail

/-- The same blobs are stored, with the same references. -/
def SameRefs (s s' : CheckpointBlobStore Sha) : Prop :=
  ∀ sha, (s'.blobs.get? sha).map Blob.refs = (s.blobs.get? sha).map Blob.refs

/-- A compaction of the segment, with these of its blobs still to move. -/
structure Moving (bytes : Sha → Bytes) (index : Nat) (rest : List (Sha × Blob))
    (s : CheckpointBlobStore Sha) : Prop where
  packed : Packed bytes s
  sealed : s.active ≠ some index
  there : s.segments.get? index ≠ none
  nodup : (rest.map Prod.fst).Nodup
  stored : ∀ p ∈ rest, s.blobs.get? p.1 = some p.2 ∧ p.2.segment = index
  rest : ∀ sha blob, s.blobs.get? sha = some blob → blob.segment = index → (sha, blob) ∈ rest

theorem Packed.moving (h : Packed bytes s) (hsealed : s.active ≠ some index)
    (hthere : s.segments.get? index ≠ none) : Moving bytes index (movingFrom s index) s where
  packed := h
  sealed := hsealed
  there := hthere
  nodup := h.blobKeys.sublist (List.filter_sublist.map _)
  stored := by
    intro p hp
    obtain ⟨hp, hseg⟩ := List.mem_filter.mp hp
    exact ⟨Assoc.get?_of_mem h.blobKeys hp, of_decide_eq_true hseg⟩
  rest := fun _ _ hb hseg =>
    List.mem_filter.mpr ⟨Assoc.mem_of_get? hb, decide_eq_true hseg⟩

theorem leads_compactLoop {rest : List (Sha × Blob)} {faults : List Fault}
    (h : Moving bytes index rest s) (hn : Strands (packOf s) (appendsOf rest faults) = false) :
    Leads (compactLoop index rest faults) s (fun done s' => Packed bytes s' ∧ SameRefs s s' ∧
      (done = true → Moving bytes index [] s')) fun _ => False := by
  induction rest generalizing s faults with
  | nil => exact leads_pure ⟨h.packed, fun _ => rfl, fun _ => h⟩
  | cons p rest ih =>
    obtain ⟨sha, blob⟩ := p
    obtain ⟨hb, hseg⟩ : s.blobs.get? sha = some blob ∧ blob.segment = index :=
      h.stored (sha, blob) List.mem_cons_self
    obtain ⟨hsha, hnodup⟩ : sha ∉ rest.map Prod.fst ∧ (rest.map Prod.fst).Nodup :=
      List.nodup_cons.mp h.nodup
    have hholds := h.packed.holds sha blob hb
    simp only [appendsOf, Strands, Bool.or_eq_false_iff] at hn
    rw [← hholds.length] at hn
    refine leads_bind (leads_get ?_)
    simp only [hholds.readBlob]
    refine leads_bind ((leads_append h.packed hn.1).mono ?_ fun _ hf => hf)
    rintro r s₁ ⟨h₁, hbeside, hr⟩
    cases r with
    | none =>
      exact leads_pure ⟨h₁, fun _ => by rw [hbeside.blobs], fun hd => nomatch hd⟩
    | some r =>
      obtain ⟨i, offset⟩ := r
      obtain ⟨⟨hactive, segment', content, hseg', hfile, hend, hlen, hdata, hafter⟩, hfails⟩ :=
        hr i offset rfl
      obtain ⟨segment, hsource⟩ := Option.ne_none_iff_exists'.mp h.there
      have hsource₁ := hbeside.segments index segment h.sealed hsource
      have hne : blob.segment ≠ i := fun e =>
        hbeside.active index h.sealed h.there (by rw [hactive, ← e, hseg])
      have hb₁ : s₁.blobs.get? sha = some blob := by rw [hbeside.blobs, hb]
      rw [hholds.length] at hend hdata hafter
      have hholds₁ : Holds s₁ ⟨i, offset, blob.size, blob.refs⟩ (bytes sha) :=
        ⟨segment', content, hseg', hfile, Nat.le_of_eq hend, Nat.le_of_eq hlen, hdata⟩
      have hmove := h₁.move hb₁ hne (by rw [hseg]; exact hsource₁) hseg' hholds₁
      rw [hseg] at hmove hne
      refine leads_bind (leads_addLive hsource₁ (leads_bind ?_))
      have hseg'₂ : (s₁.segments.set index
          { segment with live := segment.live + -(blob.size : Int) }).get? i = some segment' := by
        rw [Assoc.get?_set_of_ne (Ne.symm hne), hseg']
      refine leads_addLive hseg'₂ (leads_bind (leads_modify ?_))
      -- the blobs still to move are where they were
      have hstep : Moving bytes index rest _ :=
        { packed := hmove
          sealed := hbeside.active index h.sealed h.there
          there := by
            rw [Assoc.get?_set_of_ne hne, Assoc.get?_set_self]
            simp
          nodup := hnodup
          stored := by
            intro p hp
            have hp' := h.stored p (List.mem_cons_of_mem _ hp)
            have hne' : p.1 ≠ sha := fun e => hsha (List.mem_map.mpr ⟨p, hp, e⟩)
            rw [Assoc.get?_set_of_ne hne', hbeside.blobs]
            exact hp'
          rest := by
            intro sha' blob' hb' hseg''
            rw [Assoc.get?_set] at hb'
            split at hb'
            · cases hb'
              exact absurd hseg'' hne.symm
            · next hne' =>
              rw [hbeside.blobs] at hb'
              refine (List.mem_cons.mp (h.rest sha' blob' hb' hseg'')).resolve_left fun e => ?_
              exact hne' (congrArg Prod.fst e) }
      have hpack : packOf { s₁ with
          blobs := s₁.blobs.set sha ⟨i, offset, blob.size, blob.refs⟩
          segments := (s₁.segments.set index
            { segment with live := segment.live + -(blob.size : Int) }).set i
            { segment' with live := segment'.live + blob.size } } =
          some (Pack.after (packOf s) blob.size) := by
        have hany := Assoc.any_set
          (f := fun b : Blob => decide (b.segment = i) && decide (b.size = 0)) hb₁
          (by simp [hseg, hne]) ⟨i, offset, blob.size, blob.refs⟩
        have hempties : emptyIn (s₁.blobs.set sha ⟨i, offset, blob.size, blob.refs⟩) i =
            (emptyIn s.blobs i || blob.size == 0) := by
          rw [← hbeside.blobs, emptyIn, hany, emptyIn]
          simp only [decide_true, Bool.true_and]
          rfl
        refine (packOf_eq ?_ (Assoc.get?_set_self ..)).trans ?_
        · exact hactive
        · rw [hafter, hempties]
      have hrest : Strands (some (Pack.after (packOf s) blob.size))
          (appendsOf rest faults.tail) = false := by
        have h₂ := hn.2
        rw [hfails] at h₂
        rw [hholds.length] at h₂
        simpa using h₂
      refine (ih hstep (by rw [hpack]; exact hrest)).mono ?_ fun _ hf => hf
      rintro done s₂ ⟨h₂, hrefs, hdone⟩
      refine ⟨h₂, fun sha' => (hrefs sha').trans ?_, hdone⟩
      rw [Assoc.get?_set, ← hbeside.blobs]
      split
      · next he => rw [he, hb₁, Option.map_some, Option.map_some]
      · rfl

theorem leads_compact {faults : List Fault} (h : Packed bytes s)
    (hsealed : s.active ≠ some index) (hthere : s.segments.get? index ≠ none)
    (hn : Strands (packOf s) (appendsOf (movingFrom s index) faults) = false) :
    Leads (compact index faults) s (fun _ s' => Packed bytes s' ∧ SameRefs s s')
      fun _ => False := by
  refine leads_bind (leads_get (leads_bind ?_))
  refine (leads_compactLoop (h.moving hsealed hthere) hn).mono ?_ fun _ hf => hf
  rintro done s₁ ⟨h₁, hrefs, hdone⟩
  cases done with
  | false => exact leads_pure ⟨h₁, hrefs⟩
  | true =>
    have hmoved := hdone rfl
    obtain ⟨segment, hseg⟩ := Option.ne_none_iff_exists'.mp hmoved.there
    refine leads_bind (leads_segmentAt hseg (leads_ite (fun _ => ?_) fun _ => ?_))
    · refine leads_deleteSegment hseg ⟨h₁.delete hseg hmoved.sealed fun sha blob hb he => ?_, hrefs⟩
      cases hmoved.rest sha blob hb he
    · exact leads_pure ⟨h₁, hrefs⟩

end KolegaCode.Checkpoints
