import Mathlib.Algebra.Order.BigOperators.Group.List
import Mathlib.Algebra.Order.Ring.Int
import Mathlib.Logic.Function.Basic
import KolegaCode.Checkpoints.Store

/-!
# Checkpoints — what holds of the spool

`Packed` is the invariant of `CheckpointBlobStore`: every blob lies within a segment whose file
holds its bytes, and the counters are the sums they stand for.

What can break it is a blob of no bytes.  A segment that holds only such blobs has no live bytes
and is deleted with them when it is sealed: `Pack.strands` is that moment.
-/

namespace KolegaCode.Checkpoints

open List Option

variable {Sha : Type}

/-! ### The invariant -/

/-- The bytes of the blobs in a segment. -/
def liveIn (blobs : Assoc Sha Blob) (index : Nat) : Int :=
  (blobs.map fun p => if p.2.segment = index then (p.2.size : Int) else 0).sum

/-- A blob without bytes lies in the segment. -/
def emptyIn (blobs : Assoc Sha Blob) (index : Nat) : Bool :=
  blobs.any fun p => p.2.segment = index && p.2.size = 0

/-- With no live byte and no empty blob nothing lies in the segment. -/
theorem not_in_of_dead {blobs : Assoc Sha Blob} {index : Nat} (hlive : liveIn blobs index ≤ 0)
    (hempty : emptyIn blobs index = false) : ∀ p ∈ blobs, p.2.segment ≠ index := by
  intro p hp hseg
  have hle : (p.2.size : Int) ≤ liveIn blobs index := by
    refine single_le_sum (fun x hx => ?_) _ (mem_map.mpr ⟨p, hp, if_pos hseg⟩)
    obtain ⟨q, -, rfl⟩ := mem_map.mp hx
    split
    · exact Int.natCast_nonneg _
    · exact le_rfl
  have hsize : p.2.size = 0 := by omega
  have hany := any_eq_false.mp hempty p hp
  simp [hseg, hsize] at hany

/-- The blob lies within its segment, whose file holds these bytes for it. -/
def Holds (s : CheckpointBlobStore Sha) (blob : Blob) (data : Bytes) : Prop :=
  ∃ segment content, s.segments.get? blob.segment = some segment ∧
    s.files.get? blob.segment = some content ∧ blob.offset + blob.size ≤ segment.size ∧
    segment.size ≤ content.length ∧ (content.drop blob.offset).take blob.size = data

structure Packed [DecidableEq Sha] (bytes : Sha → Bytes) (s : CheckpointBlobStore Sha) : Prop where
  blobKeys : s.blobs.keys.Nodup
  segmentKeys : s.segments.keys.Nodup
  holds : ∀ sha blob, s.blobs.get? sha = some blob → Holds s blob (bytes sha)
  filed : ∀ index segment, s.segments.get? index = some segment →
    ∃ content, s.files.get? index = some content ∧ segment.size ≤ content.length ∧
      (s.active = some index → content.length = segment.size)
  live : ∀ index segment, s.segments.get? index = some segment →
    segment.live = liveIn s.blobs index
  active : ∀ index, s.active = some index → s.segments.get? index ≠ none
  fresh : ∀ index, s.nextSegment ≤ index →
    s.segments.get? index = none ∧ s.files.get? index = none
  diskBytes : s.diskBytes = (s.segments.map fun p => (p.2.size : Int)).sum
  liveBytes : s.liveBytes = (s.blobs.map fun p => (p.2.size : Int)).sum

theorem packed_new [DecidableEq Sha] (bytes : Sha → Bytes) : Packed bytes (CheckpointBlobStore.new Sha) where
  blobKeys := nodup_nil
  segmentKeys := nodup_nil
  holds := fun _ _ h => nomatch h
  filed := fun _ _ h => nomatch h
  live := fun _ _ h => nomatch h
  active := fun _ h => nomatch h
  fresh := fun _ _ => ⟨rfl, rfl⟩
  diskBytes := rfl
  liveBytes := rfl

section

variable {bytes : Sha → Bytes} {s : CheckpointBlobStore Sha} {index : Nat} {segment : Segment}

variable {blob : Blob} {data : Bytes} {segments : Assoc Nat Segment} {sha : Sha}

theorem Holds.length (h : Holds s blob data) : data.length = blob.size := by
  obtain ⟨segment, content, -, -, hin, hle, rfl⟩ := h
  rw [length_take, length_drop]
  omega

theorem Holds.readBlob (h : Holds s blob data) : readBlob s blob = some data := by
  have hlen := h.length
  obtain ⟨segment, content, -, hfile, -, -, rfl⟩ := h
  simp only [Checkpoints.readBlob, hfile]
  exact if_pos hlen

/-- Segments that grow at their end keep the blobs they hold. -/
theorem Holds.extend {s' : CheckpointBlobStore Sha} (h : Holds s blob data)
    (hext : ∀ segment content, s.segments.get? blob.segment = some segment →
      s.files.get? blob.segment = some content → ∃ segment' content',
      s'.segments.get? blob.segment = some segment' ∧
      s'.files.get? blob.segment = some content' ∧ segment.size ≤ segment'.size ∧
      segment'.size ≤ content'.length ∧ content <+: content') : Holds s' blob data := by
  obtain ⟨segment, content, hseg, hfile, hin, hle, rfl⟩ := h
  obtain ⟨segment', content', hseg', hfile', hsize, hle', rest, rfl⟩ := hext _ _ hseg hfile
  refine ⟨segment', _, hseg', hfile', by omega, hle', ?_⟩
  rw [drop_append_of_le_length (by omega), take_append_of_le_length]
  rw [length_drop]
  omega

variable [DecidableEq Sha]

section

variable (h : Packed bytes s)
include h

theorem Packed.seal : Packed bytes { s with active := none } :=
  { h with
    filed := fun index segment hseg =>
      (h.filed index segment hseg).imp fun _ hc => ⟨hc.1, hc.2.1, fun he => nomatch he⟩
    active := fun _ he => nomatch he }

theorem Packed.delete (hseg : s.segments.get? index = some segment)
    (hactive : s.active ≠ some index)
    (hnone : ∀ sha blob, s.blobs.get? sha = some blob → blob.segment ≠ index) :
    Packed bytes { s with
      segments := s.segments.erase index
      diskBytes := s.diskBytes - segment.size
      files := s.files.erase index } where
  blobKeys := h.blobKeys
  segmentKeys := Assoc.nodup_keys_erase h.segmentKeys index
  holds := by
    intro sha blob hb
    refine (h.holds sha blob hb).extend fun seg content hs hf => ?_
    have hne := hnone sha blob hb
    obtain ⟨content', hf', hle, -⟩ := h.filed _ _ hs
    obtain rfl : content' = content := Option.some.inj (hf'.symm.trans hf)
    exact ⟨seg, _, by rw [Assoc.get?_erase, if_neg hne, hs],
      by rw [Assoc.get?_erase, if_neg hne, hf], le_rfl, hle, prefix_rfl⟩
  filed := by
    intro i seg hi
    rw [Assoc.get?_erase] at hi
    split at hi
    · cases hi
    · next hne =>
      obtain ⟨content, hf, hc⟩ := h.filed i seg hi
      exact ⟨content, by rw [Assoc.get?_erase, if_neg hne, hf], hc⟩
  live := by
    intro i seg hi
    rw [Assoc.get?_erase] at hi
    split at hi
    · cases hi
    · exact h.live i seg hi
  active := by
    intro i hi
    have hne : i ≠ index := fun e => hactive (e ▸ hi)
    rw [Assoc.get?_erase, if_neg hne]
    exact h.active i hi
  fresh := by
    intro i hi
    obtain ⟨hs, hf⟩ := h.fresh i hi
    rw [Assoc.get?_erase, Assoc.get?_erase, hs, hf]
    exact ⟨ite_self _, ite_self _⟩
  diskBytes := by
    have hsum := Assoc.sum_erase (fun seg : Segment => (seg.size : Int)) h.segmentKeys index
    rw [hseg] at hsum
    simp only [Option.map_some, getD_some] at hsum
    simp only [h.diskBytes]
    omega
  liveBytes := h.liveBytes

theorem Packed.open :
    Packed bytes { s with
      nextSegment := s.nextSegment + 1
      files := s.files.set s.nextSegment ((s.files.get? s.nextSegment).getD [])
      segments := s.segments.set s.nextSegment ⟨0, 0⟩
      active := some s.nextSegment } := by
  obtain ⟨hns, hnf⟩ := h.fresh s.nextSegment le_rfl
  have hne : ∀ i, s.segments.get? i ≠ none → i ≠ s.nextSegment := by
    rintro i hi rfl
    exact hi hns
  have hno : ∀ p ∈ s.blobs, p.2.segment ≠ s.nextSegment := by
    intro p hp
    obtain ⟨segment, content, hseg, -⟩ := h.holds _ _ (Assoc.get?_of_mem h.blobKeys hp)
    exact hne _ (by simp [hseg])
  refine
    { blobKeys := h.blobKeys
      segmentKeys := Assoc.nodup_keys_set h.segmentKeys _ _
      holds := ?_, filed := ?_, live := ?_, active := ?_, fresh := ?_, diskBytes := ?_
      liveBytes := h.liveBytes }
  · intro sha blob hb
    refine (h.holds sha blob hb).extend fun seg content hs hf => ?_
    have hne' := hne blob.segment (by simp [hs])
    obtain ⟨content', hf', hle, -⟩ := h.filed _ _ hs
    obtain rfl : content' = content := Option.some.inj (hf'.symm.trans hf)
    exact ⟨seg, _, by rw [Assoc.get?_set_of_ne hne', hs],
      by rw [Assoc.get?_set_of_ne hne', hf], le_rfl, hle, prefix_rfl⟩
  · intro i seg hi
    rw [hnf]
    rw [Assoc.get?_set] at hi
    rw [Assoc.get?_set]
    split at hi
    · next he =>
      cases hi
      exact ⟨[], if_pos he, le_rfl, fun _ => rfl⟩
    · next he =>
      obtain ⟨content, hf, hle, -⟩ := h.filed i seg hi
      exact ⟨content, by rw [if_neg he, hf], hle, fun hact => absurd (Option.some.inj hact).symm he⟩
  · intro i seg hi
    rw [Assoc.get?_set] at hi
    split at hi
    · next he =>
      cases hi
      subst he
      refine (sum_eq_zero fun x hx => ?_).symm
      obtain ⟨p, hp, rfl⟩ := mem_map.mp hx
      exact if_neg (hno p hp)
    · exact h.live i seg hi
  · intro i hi
    cases hi
    simp
  · intro i hi
    have hi' : s.nextSegment + 1 ≤ i := hi
    have hlt : i ≠ s.nextSegment := by omega
    rw [Assoc.get?_set_of_ne hlt, Assoc.get?_set_of_ne hlt]
    exact h.fresh i (by omega)
  · have hsum := Assoc.sum_set (fun seg : Segment => (seg.size : Int)) s.segments s.nextSegment
      ⟨0, 0⟩
    rw [hns] at hsum
    simp only [map_none, getD_none] at hsum
    simp only [h.diskBytes]
    omega

section

variable (hseg : s.segments.get? index = some segment)
include hseg

theorem Packed.grow (data : Bytes) {size : Nat} {active : Option Nat}
    (hact : active = none ∨ active = s.active)
    (hsize : segment.size ≤ size) (hle : size ≤ segment.size + data.length)
    (hend : active = some index → size = segment.size + data.length) :
    Packed bytes { s with
      files := s.files.set index ((s.files.get? index).getD [] ++ data)
      segments := s.segments.set index { segment with size := size }
      active := active
      diskBytes := s.diskBytes + (size - segment.size) } := by
  obtain ⟨content, hfile, hle', hend'⟩ := h.filed _ _ hseg
  have hold {i : Nat} (hi : active = some i) : s.active = some i :=
    hact.elim (fun hn => nomatch hn.symm.trans hi) fun hs => hs ▸ hi
  refine
    { blobKeys := h.blobKeys
      segmentKeys := Assoc.nodup_keys_set h.segmentKeys _ _
      holds := ?_, filed := ?_, live := ?_, active := ?_, fresh := ?_, diskBytes := ?_
      liveBytes := h.liveBytes }
  · intro sha blob hb
    refine (h.holds sha blob hb).extend fun seg content' hs hf => ?_
    rw [hfile, getD_some, Assoc.get?_set, Assoc.get?_set]
    split
    · next he =>
      rw [he, hseg] at hs
      rw [he, hfile] at hf
      cases hs
      cases hf
      refine ⟨_, _, rfl, rfl, hsize, ?_, prefix_append _ _⟩
      rw [length_append]
      exact hle.trans (Nat.add_le_add_right hle' _)
    · obtain ⟨content'', hf', hle', -⟩ := h.filed _ _ hs
      obtain rfl : content'' = content' := Option.some.inj (hf'.symm.trans hf)
      exact ⟨seg, _, hs, hf, le_rfl, hle', prefix_rfl⟩
  · intro i seg hi
    rw [Assoc.get?_set] at hi
    rw [hfile, getD_some, Assoc.get?_set]
    split at hi
    · next he =>
      cases hi
      refine ⟨_, if_pos he, ?_, fun hi => ?_⟩
      · rw [length_append]
        exact hle.trans (Nat.add_le_add_right hle' _)
      · rw [he] at hi
        rw [length_append, hend' (hold hi)]
        exact (hend hi).symm
    · next he =>
      obtain ⟨content', hf, hc⟩ := h.filed i seg hi
      exact ⟨content', by rw [if_neg he, hf], hc.1, fun hi => hc.2 (hold hi)⟩
  · intro i seg hi
    rw [Assoc.get?_set] at hi
    split at hi
    · next he =>
      cases hi
      subst he
      exact h.live i segment hseg
    · exact h.live i seg hi
  · intro i hi
    rw [Assoc.get?_set]
    split
    · simp
    · exact h.active i (hold hi)
  · intro i hi
    obtain ⟨hs, hf⟩ := h.fresh i hi
    have hne : i ≠ index := by
      rintro rfl
      rw [hseg] at hs
      cases hs
    rw [Assoc.get?_set_of_ne hne, Assoc.get?_set_of_ne hne]
    exact ⟨hs, hf⟩
  · have hsum := Assoc.sum_set (fun seg : Segment => (seg.size : Int)) s.segments index
      { segment with size := size }
    rw [hseg] at hsum
    simp only [Option.map_some, getD_some] at hsum
    simp only [h.diskBytes]
    omega

theorem Packed.write (data : Bytes) :
    Packed bytes { s with
      files := s.files.set index ((s.files.get? index).getD [] ++ data)
      segments := s.segments.set index { segment with size := segment.size + data.length }
      diskBytes := s.diskBytes + data.length } := by
  have hw := h.grow hseg data (.inr rfl) (Nat.le_add_right _ _) le_rfl fun _ => rfl
  rwa [Nat.cast_add, add_sub_cancel_left] at hw

/-- The write failed after some bytes and the segment is sealed. -/
theorem Packed.cut (data : Bytes) :
    Packed bytes { s with
      files := s.files.set index ((s.files.get? index).getD [] ++ data)
      active := none } := by
  have hc := h.grow hseg data (.inl rfl) le_rfl (Nat.le_add_right _ _) nofun
  rwa [Assoc.set_of_get? hseg, sub_self, add_zero] at hc

end

end

/-! ### The book of the blobs -/

omit [DecidableEq Sha] in
theorem liveIn_eq (blobs : Assoc Sha Blob) (index : Nat) :
    liveIn blobs index =
      (blobs.map fun p => (fun b : Blob => if b.segment = index then (b.size : Int) else 0) p.2).sum :=
  rfl

theorem liveIn_set (blobs : Assoc Sha Blob) (sha : Sha) (blob : Blob) (index : Nat) :
    liveIn (blobs.set sha blob) index +
        ((blobs.get? sha).map fun b => if b.segment = index then (b.size : Int) else 0).getD 0 =
      liveIn blobs index + if blob.segment = index then (blob.size : Int) else 0 :=
  Assoc.sum_set (fun b : Blob => if b.segment = index then (b.size : Int) else 0) blobs sha blob

/-- Only the live counts of the segments have changed. -/
structure Rebooked (segments segments' : Assoc Nat Segment) : Prop where
  keys : segments'.keys = segments.keys
  size : ∀ i, (segments'.get? i).map Segment.size = (segments.get? i).map Segment.size
  sum : (segments'.map fun p => (p.2.size : Int)).sum = (segments.map fun p => (p.2.size : Int)).sum

omit [DecidableEq Sha] in
theorem Rebooked.refl (segments : Assoc Nat Segment) : Rebooked segments segments :=
  ⟨rfl, fun _ => rfl, rfl⟩

omit [DecidableEq Sha] in
theorem Rebooked.set {segments' : Assoc Nat Segment} (h : Rebooked segments segments')
    (hseg : segments'.get? index = some segment) (live : Int) :
    Rebooked segments (segments'.set index { segment with live := live }) where
  keys := by rw [Assoc.keys_set, if_pos (Assoc.mem_keys_of_get? hseg), h.keys]
  size := by
    intro i
    rw [Assoc.get?_set, ← h.size i]
    split
    · next he => rw [he, hseg, Option.map_some, Option.map_some]
    · rfl
  sum := by
    have hsum := Assoc.sum_set (fun seg : Segment => (seg.size : Int)) segments' index
      { segment with live := live }
    rw [hseg] at hsum
    simp only [Option.map_some, getD_some] at hsum
    rw [← h.sum]
    omega

/-- The blobs and the live counts change together; the files do not. -/
theorem Packed.rebook (bytes' : Sha → Bytes) (blobs : Assoc Sha Blob) (h : Packed bytes s)
    (hsegments : Rebooked s.segments segments) (hkeys : blobs.keys.Nodup) {liveBytes : Int}
    (hbytes : liveBytes = (blobs.map fun p => (p.2.size : Int)).sum)
    (hholds : ∀ sha blob, blobs.get? sha = some blob → Holds s blob (bytes' sha))
    (hlive : ∀ i segment, segments.get? i = some segment → segment.live = liveIn blobs i) :
    Packed bytes' { s with
      blobs := blobs
      segments := segments
      liveBytes := liveBytes } := by
  have hsize : ∀ {i seg}, s.segments.get? i = some seg →
      ∃ seg', segments.get? i = some seg' ∧ seg'.size = seg.size := by
    intro i seg hseg
    have he := hsegments.size i
    rw [hseg, Option.map_some] at he
    exact map_eq_some_iff.mp he
  have hnone : ∀ i, segments.get? i = none ↔ s.segments.get? i = none := by
    intro i
    rw [← map_eq_none_iff (f := Segment.size), hsegments.size i, map_eq_none_iff]
  refine
    { blobKeys := hkeys
      segmentKeys := hsegments.keys ▸ h.segmentKeys
      holds := ?_, filed := ?_
      live := hlive
      active := fun i hi hn => h.active i hi ((hnone i).mp hn)
      fresh := fun i hi => ⟨(hnone i).mpr (h.fresh i hi).1, (h.fresh i hi).2⟩
      diskBytes := h.diskBytes.trans hsegments.sum.symm
      liveBytes := hbytes }
  · intro sha blob hb
    obtain ⟨seg, content, hseg, hfile, hin, hle, hdata⟩ := hholds sha blob hb
    obtain ⟨seg', hseg', hs⟩ := hsize hseg
    exact ⟨seg', content, hseg', hfile, hs ▸ hin, hs ▸ hle, hdata⟩
  · intro i seg hi
    have he := hsegments.size i
    rw [hi, Option.map_some] at he
    obtain ⟨seg', hseg', hs⟩ := map_eq_some_iff.mp he.symm
    obtain ⟨content, hfile, hle, hend⟩ := h.filed i seg' hseg'
    exact ⟨content, hfile, hs ▸ hle, fun hactive => hs ▸ hend hactive⟩

/-- The book after one blob is set: the data of the others stays. -/
theorem holds_set {bytes' : Sha → Bytes} (hothers : ∀ sha' ≠ sha, bytes' sha' = bytes sha')
    (h : Packed bytes s) {blob : Blob} (hholds : Holds s blob (bytes' sha)) :
    ∀ sha' blob', (s.blobs.set sha blob).get? sha' = some blob' → Holds s blob' (bytes' sha') := by
  intro sha' blob' hb'
  rw [Assoc.get?_set] at hb'
  split at hb'
  · next he =>
    cases hb'
    subst he
    exact hholds
  · next he =>
    rw [hothers sha' he]
    exact h.holds sha' blob' hb'

theorem Packed.recount (h : Packed bytes s) (hb : s.blobs.get? sha = some blob) (refs : Nat) :
    Packed bytes { s with blobs := s.blobs.set sha { blob with refs := refs } } := by
  have htotal := Assoc.sum_set (fun b : Blob => (b.size : Int)) s.blobs sha
    { blob with refs := refs }
  rw [hb] at htotal
  simp only [Option.map_some, getD_some] at htotal
  refine h.rebook _ _ (.refl _) (Assoc.nodup_keys_set h.blobKeys _ _) (by rw [h.liveBytes]; omega)
    (holds_set (fun _ _ => rfl) h (h.holds sha blob hb)) ?_
  intro i seg hi
  have hlive := liveIn_set s.blobs sha { blob with refs := refs } i
  rw [hb] at hlive
  simp only [Option.map_some, getD_some] at hlive
  rw [h.live i seg hi]
  omega

theorem Packed.forget (h : Packed bytes s) (hb : s.blobs.get? sha = some blob)
    (hseg : s.segments.get? blob.segment = some segment) :
    Packed bytes { s with
      blobs := s.blobs.erase sha
      liveBytes := s.liveBytes - blob.size
      segments := s.segments.set blob.segment
        { segment with live := segment.live + -(blob.size : Int) } } := by
  have htotal := Assoc.sum_erase (fun b : Blob => (b.size : Int)) h.blobKeys sha
  rw [hb] at htotal
  simp only [Option.map_some, getD_some] at htotal
  refine h.rebook _ _ ((Rebooked.refl s.segments).set hseg _) (Assoc.nodup_keys_erase h.blobKeys sha)
    (by rw [h.liveBytes]; omega) ?_ ?_
  · intro sha' blob' hb'
    rw [Assoc.get?_erase] at hb'
    split at hb'
    · cases hb'
    · exact h.holds sha' blob' hb'
  · intro i seg hi
    have hlive := Assoc.sum_erase
      (fun b : Blob => if b.segment = i then (b.size : Int) else 0) h.blobKeys sha
    rw [hb] at hlive
    simp only [Option.map_some, getD_some] at hlive
    rw [← liveIn_eq, ← liveIn_eq] at hlive
    rw [Assoc.get?_set] at hi
    split at hi
    · next he =>
      cases hi
      rw [if_pos he.symm] at hlive
      have hseg' := h.live _ _ hseg
      rw [← he] at hseg'
      simp only
      omega
    · next he =>
      rw [if_neg fun e => he e.symm] at hlive
      rw [h.live i seg hi]
      omega

theorem Packed.place (h : Packed bytes s) {offset : Nat} (hnew : s.blobs.get? sha = none)
    (hseg : s.segments.get? index = some segment)
    (hholds : Holds s ⟨index, offset, data.length, 1⟩ data) :
    Packed (Function.update bytes sha data) { s with
      blobs := s.blobs.set sha ⟨index, offset, data.length, 1⟩
      segments := s.segments.set index { segment with live := segment.live + data.length }
      liveBytes := s.liveBytes + data.length } := by
  have htotal := Assoc.sum_set (fun b : Blob => (b.size : Int)) s.blobs sha
    ⟨index, offset, data.length, 1⟩
  rw [hnew] at htotal
  simp only [map_none, getD_none] at htotal
  refine h.rebook _ _ ((Rebooked.refl s.segments).set hseg _) (Assoc.nodup_keys_set h.blobKeys _ _)
    (by rw [h.liveBytes]; omega)
    (holds_set (fun _ he => Function.update_of_ne he _ _) h ?_) ?_
  · rwa [Function.update_self]
  · intro i seg hi
    have hlive := liveIn_set s.blobs sha ⟨index, offset, data.length, 1⟩ i
    rw [hnew] at hlive
    simp only [map_none, getD_none, add_zero] at hlive
    rw [hlive]
    rw [Assoc.get?_set] at hi
    split at hi
    · next he =>
      cases hi
      subst he
      rw [if_pos rfl, h.live i segment hseg]
    · next he => rw [if_neg fun e => he e.symm, add_zero, h.live i seg hi]

theorem Packed.move (h : Packed bytes s) {segment' : Segment} {offset : Nat}
    (hb : s.blobs.get? sha = some blob) (hne : blob.segment ≠ index)
    (hseg : s.segments.get? blob.segment = some segment)
    (hseg' : s.segments.get? index = some segment')
    (hholds : Holds s ⟨index, offset, blob.size, blob.refs⟩ (bytes sha)) :
    Packed bytes { s with
      blobs := s.blobs.set sha ⟨index, offset, blob.size, blob.refs⟩
      segments := (s.segments.set blob.segment
        { segment with live := segment.live + -(blob.size : Int) }).set index
        { segment' with live := segment'.live + blob.size } } := by
  have htotal := Assoc.sum_set (fun b : Blob => (b.size : Int)) s.blobs sha
    ⟨index, offset, blob.size, blob.refs⟩
  rw [hb] at htotal
  simp only [Option.map_some, getD_some] at htotal
  have hseg'₁ : (s.segments.set blob.segment
      { segment with live := segment.live + -(blob.size : Int) }).get? index = some segment' := by
    rw [Assoc.get?_set_of_ne (Ne.symm hne), hseg']
  refine h.rebook _ _ (((Rebooked.refl s.segments).set hseg _).set hseg'₁ _)
    (Assoc.nodup_keys_set h.blobKeys _ _) (by rw [h.liveBytes]; omega)
    (holds_set (fun _ _ => rfl) h hholds) ?_
  intro i seg hi
  have hlive := liveIn_set s.blobs sha ⟨index, offset, blob.size, blob.refs⟩ i
  rw [hb] at hlive
  simp only [Option.map_some, getD_some] at hlive
  rw [Assoc.get?_set, Assoc.get?_set] at hi
  split at hi
  · next he =>
    cases hi
    subst he
    rw [if_neg hne, if_pos rfl] at hlive
    have hl := h.live i segment' hseg'
    simp only
    omega
  · next he =>
    rw [if_neg (show ¬ index = i from fun e => he e.symm)] at hlive
    split at hi
    · next he' =>
      cases hi
      rw [if_pos he'.symm] at hlive
      have hl := h.live _ _ hseg
      rw [← he'] at hl
      simp only
      omega
    · next he' =>
      rw [if_neg (fun e => he' e.symm)] at hlive
      rw [h.live i seg hi]
      omega

end

end KolegaCode.Checkpoints
