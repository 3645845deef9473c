import Mathlib.Data.List.Basic
import Mathlib.Data.List.Nodup
import Mathlib.Data.List.Range
import Mathlib.Data.List.Flatten

/-!
# Lib — edits of one list

An edit replaces a range of a list by a text; a range of no length is an insertion.  Edits are meant
all at once (`patched`); spliced in one after the other, from the last position to the first, they
are in general not (`spliceAll_eq_patched_iff`).
-/

namespace KolegaCode.Splices

open List

variable {α : Type*}

structure Edit (α : Type*) where
  start : Nat
  stop : Nat
  text : List α
deriving DecidableEq

def Edit.splice (e : Edit α) (doc : List α) : List α := doc.take e.start ++ e.text ++ doc.drop e.stop

/-- The elements from `a` up to `b`. -/
def slice (doc : List α) (a b : Nat) : List α := (doc.take b).drop a

/-! ### What the edits mean -/

/-- The texts that come at a position, in the order of the edits. -/
def texts (edits : List (Edit α)) (p : Nat) : List α :=
  (edits.filter (·.start = p)).flatMap (·.text)

/-- The element at `p` is in a range that is replaced. -/
def Covered (edits : List (Edit α)) (p : Nat) : Prop := ∃ e ∈ edits, e.start ≤ p ∧ p < e.stop

instance (edits : List (Edit α)) (p : Nat) : Decidable (Covered edits p) :=
  inferInstanceAs (Decidable (∃ e ∈ edits, _))

/-- What is left of the list at `p`. -/
def kept (doc : List α) (edits : List (Edit α)) (p : Nat) : List α :=
  if Covered edits p then [] else doc[p]?.toList

/-- The edits made at once: at every position the texts that come there, then the element, unless
it is replaced. -/
def patched (doc : List α) (edits : List (Edit α)) : List α :=
  (List.range (doc.length + 1)).flatMap fun p => texts edits p ++ kept doc edits p

/-- Ranges of a list of `n` elements that have no element in common. -/
structure Fits (n : Nat) (edits : List (Edit α)) : Prop where
  ordered : ∀ e ∈ edits, e.start ≤ e.stop
  inside : ∀ e ∈ edits, e.stop ≤ n
  apart : edits.Pairwise fun e f => e.stop ≤ f.start ∨ f.stop ≤ e.start

variable {edits : List (Edit α)} {doc : List α} {p : Nat}

theorem Fits.tail {n : Nat} {e : Edit α} (h : Fits n (e :: edits)) : Fits n edits where
  ordered f hf := h.ordered f (.tail _ hf)
  inside f hf := h.inside f (.tail _ hf)
  apart := (pairwise_cons.mp h.apart).2

theorem Fits.filter {n : Nat} (h : Fits n edits) (p : Edit α → Bool) : Fits n (edits.filter p) where
  ordered f hf := h.ordered f (mem_of_mem_filter hf)
  inside f hf := h.inside f (mem_of_mem_filter hf)
  apart := h.apart.filter p

/-- Two edits that fit are one or apart. -/
theorem Fits.eq_or_apart {n : Nat} (h : Fits n edits) {e f : Edit α} (he : e ∈ edits)
    (hf : f ∈ edits) : e = f ∨ e.stop ≤ f.start ∨ f.stop ≤ e.start := by
  have : Std.Symm fun e f : Edit α => e.stop ≤ f.start ∨ f.stop ≤ e.start :=
    { symm _ _ h := h.symm }
  exact or_iff_not_imp_left.mpr (h.apart.forall he hf)

/-! ### Lists of slices -/

theorem slice_self (doc : List α) (a : Nat) : slice doc a a = [] := by
  rw [slice, drop_eq_nil_iff, length_take]
  exact Nat.min_le_left _ _

theorem length_slice {a b : Nat} (hb : b ≤ doc.length) : (slice doc a b).length = b - a := by
  rw [slice, length_drop, length_take, Nat.min_eq_left hb]

theorem slice_succ (doc : List α) {a b : Nat} (h : a < b) :
    slice doc a b = doc[a]?.toList ++ slice doc (a + 1) b := by
  have hget : (doc.take b)[a]? = doc[a]? := by rw [getElem?_take, if_pos h]
  rw [slice, slice, ← hget]
  exact drop_eq_getElem?_toList_append

theorem flatMap_getElem? (doc : List α) (a m : Nat) :
    (List.range' a m).flatMap (fun q => doc[q]?.toList) = slice doc a (a + m) := by
  induction m generalizing a with
  | zero => exact (slice_self doc a).symm
  | succ m ih =>
    rw [range'_succ, flatMap_cons, ih,
      slice_succ doc (Nat.lt_add_of_pos_right (Nat.succ_pos m)), Nat.add_right_comm, Nat.add_assoc]

/-! ### One position

Where a range is replaced and texts are inserted at its start, the later edits of the list are
spliced in first, and a later insertion stands where the range was. -/

/-- What the edits that start at `p` leave there, the last one first. -/
def landed (doc : List α) : List (Edit α) → Nat → List α
  | [], _ => []
  | e :: edits, p =>
    if e.start = p then e.text ++ (landed doc edits p ++ slice doc p e.stop).drop (e.stop - p)
    else landed doc edits p

/-- The edits that start at `p`, spliced into the list from `p` on. -/
def settle (p : Nat) (rest : List α) (edits : List (Edit α)) : List α :=
  edits.foldr (fun e after => e.text ++ after.drop (e.stop - p)) rest

@[simp] theorem settle_cons (p : Nat) (rest : List α) (e : Edit α) (edits : List (Edit α)) :
    settle p rest (e :: edits) = e.text ++ (settle p rest edits).drop (e.stop - p) := rfl

theorem foldr_splice (hp : p ≤ doc.length) (rest : List α)
    (h : ∀ e ∈ edits, e.start = p ∧ p ≤ e.stop) :
    edits.foldr Edit.splice (doc.take p ++ rest) = doc.take p ++ settle p rest edits := by
  induction edits with
  | nil => rfl
  | cons e edits ih =>
    obtain ⟨⟨hstart, hstop⟩, hedits⟩ := forall_mem_cons.mp h
    have hlength : (doc.take p).length = p := length_take_of_le hp
    rw [foldr_cons, ih hedits, Edit.splice, hstart, settle_cons, append_assoc]
    congr 1
    · rw [take_append_of_le_length hlength.ge, take_take, Nat.min_self]
    · rw [drop_append, drop_eq_nil_of_le (hlength.le.trans hstop), hlength, nil_append]

theorem settle_insertions (doc : List α) (rest : List α)
    (h : ∀ e ∈ edits, e.start = p ∧ e.stop = p) :
    settle p rest edits = landed doc edits p ++ rest := by
  induction edits with
  | nil => rfl
  | cons e edits ih =>
    obtain ⟨⟨hstart, hstop⟩, hedits⟩ := forall_mem_cons.mp h
    rw [settle_cons, ih hedits, landed, if_pos hstart, hstop, Nat.sub_self,
      drop_zero, drop_zero, slice_self, append_nil, append_assoc]

theorem settle_replacement (h : Fits doc.length edits) (hstart : ∀ e ∈ edits, e.start = p)
    {r : Edit α} (hr : r ∈ edits) (hpr : p < r.stop) (rest : List α) :
    settle p (slice doc p r.stop ++ rest) edits = landed doc edits p ++ rest := by
  induction edits with
  | nil => exact absurd hr not_mem_nil
  | cons e edits ih =>
    obtain ⟨hestart, hedits⟩ := forall_mem_cons.mp hstart
    rw [settle_cons, landed, if_pos hestart]
    rcases (h.ordered e (.head _)).eq_or_lt with hinsertion | hreplacement
    · have hmem : r ∈ edits := by
        rcases mem_cons.mp hr with rfl | hmem
        · omega
        · exact hmem
      rw [ih h.tail hedits hmem, ← hinsertion, hestart, Nat.sub_self, drop_zero,
        drop_zero, slice_self, append_nil, append_assoc]
    · -- the one replacement at `p`: what is spliced in before it are insertions
      have hsame : e.stop = r.stop := by
        rcases h.eq_or_apart (.head _) hr with rfl | hle | hle
        · rfl
        · rw [hstart r hr] at hle
          omega
        · omega
      have hrest : ∀ f ∈ edits, f.start = p ∧ f.stop = p := by
        intro f hf
        have hfstart := hedits f hf
        have hordered := h.tail.ordered f hf
        refine ⟨hfstart, ?_⟩
        rcases (pairwise_cons.mp h.apart).1 f hf with hle | hle <;> omega
      have hlength : r.stop - p ≤ (landed doc edits p ++ slice doc p r.stop).length := by
        rw [length_append, length_slice (hsame ▸ h.inside e (.head _))]
        exact Nat.le_add_left _ _
      rw [settle_insertions doc _ hrest, hsame, ← append_assoc,
        drop_append_of_le_length hlength, append_assoc]

theorem landed_filter (doc : List α) (edits : List (Edit α)) (p : Nat) :
    landed doc (edits.filter (·.start = p)) p = landed doc edits p := by
  induction edits with
  | nil => rfl
  | cons e edits ih =>
    by_cases he : e.start = p
    · rw [filter_cons_of_pos (by simpa using he), landed, landed, if_pos he, if_pos he, ih]
    · rw [filter_cons_of_neg (by simpa using he), landed, if_neg he, ih]

theorem landed_eq_nil (doc : List α) (h : ∀ e ∈ edits, e.start ≠ p) : landed doc edits p = [] := by
  rw [← landed_filter, filter_eq_nil_iff.mpr (by simpa using h), landed]

/-! ### From the last position to the first -/

/-- The edits in the order of their positions. -/
def byPosition (n : Nat) (edits : List (Edit α)) : List (Edit α) :=
  (List.range (n + 1)).flatMap fun p => edits.filter (·.start = p)

/-- One edit after the other, from the last position to the first. -/
def spliceAll (doc : List α) (edits : List (Edit α)) : List α :=
  (byPosition doc.length edits).foldr Edit.splice doc

/-- The edits that start at `p` or later. -/
def onFrom (p : Nat) (edits : List (Edit α)) : List (Edit α) := edits.filter (p ≤ ·.start)

/-- What the splices leave from `p` on. -/
def tail (doc : List α) (edits : List (Edit α)) (p : Nat) : List α :=
  (List.range' p (doc.length + 1 - p)).flatMap fun q =>
    landed doc edits q ++ kept doc (onFrom p edits) q

theorem covered_onFrom {q : Nat} :
    Covered (onFrom p edits) q ↔ ∃ e ∈ edits, p ≤ e.start ∧ e.start ≤ q ∧ q < e.stop := by
  simp [Covered, onFrom, and_assoc]

theorem kept_congr (doc : List α) {edits' : List (Edit α)} {q : Nat}
    (h : Covered edits q ↔ Covered edits' q) : kept doc edits q = kept doc edits' q := by
  simp only [kept, h]

theorem tail_plain (hp : p ≤ doc.length) (hplain : ∀ e ∈ edits, e.start = p → e.stop = p) :
    tail doc edits p = landed doc edits p ++ (doc[p]?.toList ++ tail doc edits (p + 1)) := by
  have huncovered : kept doc (onFrom p edits) p = doc[p]?.toList := by
    rw [kept, if_neg]
    rintro h
    obtain ⟨e, he, hle, hge, hlt⟩ := covered_onFrom.mp h
    have := hplain e he (Nat.le_antisymm hge hle)
    omega
  have hlater : ∀ q, p < q →
      (Covered (onFrom p edits) q ↔ Covered (onFrom (p + 1) edits) q) := by
    intro q hq
    rw [covered_onFrom, covered_onFrom]
    refine exists_congr fun e => and_congr_right fun he => ?_
    have := hplain e he
    omega
  rw [tail, Nat.succ_sub hp, range'_succ, flatMap_cons, huncovered, append_assoc]
  congr 2
  rw [tail, Nat.succ_sub_succ_eq_sub]
  refine flatMap_congr fun q hq => ?_
  rw [kept_congr doc (hlater q (mem_range'_1.mp hq).1)]

theorem range'_split {a b c : Nat} (hab : a ≤ b) (hbc : b ≤ c) :
    List.range' a (c - a) = List.range' a (b - a) ++ List.range' b (c - b) := by
  have := range'_append_1 (s := a) (m := b - a) (n := c - b)
  rw [Nat.add_sub_cancel' hab] at this
  rw [this]
  congr 1
  omega

section

variable (h : Fits doc.length edits)
include h

/-- **A replaced range**, before and after it is spliced in. -/
theorem tail_replacement {r : Edit α} (hr : r ∈ edits) (hlt : r.start < r.stop) :
    tail doc edits (r.start + 1) = slice doc (r.start + 1) r.stop ++ tail doc edits r.stop ∧
      tail doc edits r.start = landed doc edits r.start ++ tail doc edits r.stop := by
  have hinside := h.inside r hr
  have hempty : ∀ q, r.start < q → q < r.stop → ∀ e ∈ edits, e.start ≠ q := by
    intro q hgt hlt e he heq
    have hordered := h.ordered e he
    rcases h.eq_or_apart hr he with rfl | hle | hle <;> omega
  have hbeyond : ∀ q, r.stop ≤ q → ∀ p, r.start ≤ p → p ≤ r.stop →
      (Covered (onFrom p edits) q ↔ Covered (onFrom r.stop edits) q) := by
    intro q hq p hp hpr
    rw [covered_onFrom, covered_onFrom]
    refine exists_congr fun e => and_congr_right fun he => ?_
    have hordered := h.ordered e he
    rcases h.eq_or_apart hr he with rfl | hle | hle <;> omega
  have hafter : ∀ p, r.start ≤ p → p ≤ r.stop →
      (List.range' r.stop (doc.length + 1 - r.stop)).flatMap
          (fun q => landed doc edits q ++ kept doc (onFrom p edits) q) = tail doc edits r.stop := by
    intro p hp hpr
    rw [tail]
    refine flatMap_congr fun q hq => ?_
    rw [kept_congr doc (hbeyond q (mem_range'_1.mp hq).1 p hp hpr)]
  refine ⟨?_, ?_⟩
  · rw [tail, range'_split (b := r.stop) hlt (hinside.trans (Nat.le_succ _)), flatMap_append,
      hafter _ (Nat.le_succ _) hlt]
    congr 1
    have hrange : r.start + 1 + (r.stop - (r.start + 1)) = r.stop := Nat.add_sub_cancel' hlt
    rw [← hrange, ← flatMap_getElem?, hrange]
    refine flatMap_congr fun q hq => ?_
    have hq := mem_range'_1.mp hq
    rw [landed_eq_nil doc (hempty q hq.1 (by omega)), kept, if_neg, nil_append]
    intro hcovered
    obtain ⟨e, he, hge, hle, -⟩ := covered_onFrom.mp hcovered
    exact hempty e.start hge (by omega) e he rfl
  · have hcovered : ∀ q, r.start ≤ q → q < r.stop → kept doc (onFrom r.start edits) q = [] := by
      intro q hge hlt
      rw [kept, if_pos (covered_onFrom.mpr ⟨r, hr, Nat.le_refl _, hge, hlt⟩)]
    rw [tail, range'_split (b := r.start + 1) (Nat.le_succ _) (by omega), Nat.add_sub_cancel_left,
      range'_one, flatMap_append, flatMap_singleton, hcovered _ (Nat.le_refl _) hlt, append_nil]
    congr 1
    rw [range'_split (b := r.stop) hlt (hinside.trans (Nat.le_succ _)), flatMap_append,
      hafter _ (Nat.le_refl _) hlt.le]
    have hnothing : (List.range' (r.start + 1) (r.stop - (r.start + 1))).flatMap
        (fun q => landed doc edits q ++ kept doc (onFrom r.start edits) q) = [] := by
      rw [flatMap_eq_nil_iff]
      intro q hq
      have hq := mem_range'_1.mp hq
      rw [landed_eq_nil doc (hempty q hq.1 (by omega)), hcovered q (by omega) (by omega),
        append_nil]
    rw [hnothing, nil_append]

/-- **One position.**  The edits that start at `p` go in front of what the later ones have left. -/
theorem foldr_position (hp : p ≤ doc.length) :
    (edits.filter (·.start = p)).foldr Edit.splice (doc.take (p + 1) ++ tail doc edits (p + 1)) =
      doc.take p ++ tail doc edits p := by
  have hhere : ∀ e ∈ edits.filter (·.start = p), e ∈ edits ∧ e.start = p :=
    fun e he => ⟨mem_of_mem_filter he, by simpa using of_mem_filter he⟩
  have hsplices : ∀ e ∈ edits.filter (·.start = p), e.start = p ∧ p ≤ e.stop :=
    fun e he => ⟨(hhere e he).2, (hhere e he).2 ▸ h.ordered e (hhere e he).1⟩
  rw [take_add_one, append_assoc, foldr_splice hp _ hsplices]
  congr 1
  by_cases hplain : ∀ e ∈ edits, e.start = p → e.stop = p
  · rw [settle_insertions doc _ fun e he => ⟨(hhere e he).2, hplain e (hhere e he).1 (hhere e he).2⟩,
      landed_filter, tail_plain hp hplain]
  · push Not at hplain
    obtain ⟨r, hr, rfl, hne⟩ := hplain
    have hlt : r.start < r.stop := (h.ordered r hr).lt_of_ne hne.symm
    obtain ⟨hbefore, hafter⟩ := tail_replacement h hr hlt
    have hmem : r ∈ edits.filter (·.start = r.start) := mem_filter.mpr ⟨hr, by simp⟩
    rw [hbefore, hafter, ← append_assoc, ← slice_succ doc hlt,
      settle_replacement (h.filter _) (fun e he => (hhere e he).2) hmem hlt, landed_filter]

theorem foldr_range' {k : Nat} (hk : p + k = doc.length + 1) :
    ((List.range' p k).flatMap fun q => edits.filter (·.start = q)).foldr Edit.splice doc =
      doc.take p ++ tail doc edits p := by
  induction k generalizing p with
  | zero =>
    have hp : doc.length ≤ p := by omega
    rw [tail, show doc.length + 1 - p = 0 by omega, take_of_length_le hp]
    simp
  | succ k ih =>
    rw [range'_succ, flatMap_cons, foldr_append, ih (by omega)]
    exact foldr_position h (by omega)

/-- **What the splices make**, position by position. -/
theorem spliceAll_eq :
    spliceAll doc edits =
      (List.range (doc.length + 1)).flatMap fun p => landed doc edits p ++ kept doc edits p := by
  have hfrom : onFrom 0 edits = edits := filter_eq_self.mpr (by simp)
  rw [spliceAll, byPosition, range_eq_range', foldr_range' h (Nat.zero_add _), tail, hfrom]
  rfl

end

/-! ### When that is what the edits mean -/

/-- No edit disturbs a later insertion at its start: what is inserted there, followed by what the
edit replaces, is the same text again in front of the end that is left. -/
def Untangled (doc : List α) : List (Edit α) → Prop
  | [] => True
  | e :: edits =>
    (texts edits e.start ++ slice doc e.start e.stop).drop (e.stop - e.start) =
        texts edits e.start ∧
      Untangled doc edits

instance decidableUntangled [DecidableEq α] (doc : List α) :
    (edits : List (Edit α)) → Decidable (Untangled doc edits)
  | [] => isTrue trivial
  | _ :: edits => @instDecidableAnd _ _ _ (decidableUntangled doc edits)

theorem texts_cons (e : Edit α) (edits : List (Edit α)) (p : Nat) :
    texts (e :: edits) p = if e.start = p then e.text ++ texts edits p else texts edits p := by
  by_cases he : e.start = p
  · rw [if_pos he, texts, filter_cons_of_pos (by simpa using he), flatMap_cons, texts]
  · rw [if_neg he, texts, filter_cons_of_neg (by simpa using he), texts]

theorem length_landed (h : Fits doc.length edits) (p : Nat) :
    (landed doc edits p).length = (texts edits p).length := by
  induction edits with
  | nil => rfl
  | cons e edits ih =>
    rw [landed, texts_cons]
    split
    · rw [length_append, length_append, length_drop, length_append,
        length_slice (h.inside e (.head _)), ih h.tail, Nat.add_sub_cancel]
    · exact ih h.tail

theorem landed_insertions (h : ∀ e ∈ edits, e.start = p → e.stop = p) :
    landed doc edits p = texts edits p := by
  induction edits with
  | nil => rfl
  | cons e edits ih =>
    obtain ⟨he, hedits⟩ := forall_mem_cons.mp h
    rw [landed, texts_cons, ih hedits]
    split
    · next hstart => rw [he hstart, slice_self, Nat.sub_self, drop_zero, append_nil]
    · rfl

theorem landed_eq_texts_iff (h : Fits doc.length edits) :
    (∀ p, landed doc edits p = texts edits p) ↔ Untangled doc edits := by
  induction edits with
  | nil => exact ⟨fun _ => trivial, fun _ _ => rfl⟩
  | cons e edits ih =>
    have hlater : e.start < e.stop → landed doc edits e.start = texts edits e.start := by
      intro hlt
      refine landed_insertions fun f hf hstart => ?_
      have hordered := h.tail.ordered f hf
      rcases (pairwise_cons.mp h.apart).1 f hf with hle | hle <;> omega
    constructor
    · intro hall
      have hhere := hall e.start
      rw [landed, texts_cons, if_pos rfl, if_pos rfl] at hhere
      have hhere := append_cancel_left hhere
      have htail : landed doc edits e.start = texts edits e.start := by
        rcases (h.ordered e (.head _)).eq_or_lt with heq | hlt
        · rwa [← heq, slice_self, Nat.sub_self, drop_zero, append_nil] at hhere
        · exact hlater hlt
      refine ⟨htail ▸ hhere, (ih h.tail).mp fun p => ?_⟩
      by_cases hp : e.start = p
      · exact hp ▸ htail
      · have := hall p
        rwa [landed, texts_cons, if_neg hp, if_neg hp] at this
    · rintro ⟨hhere, htail⟩ p
      have htail := (ih h.tail).mpr htail
      rw [landed, texts_cons, htail]
      split
      · next hp => rw [← hp, hhere]
      · rfl

theorem flatMap_inj_of_length {β : Type*} {f g : β → List α} {l : List β}
    (h : ∀ b ∈ l, (f b).length = (g b).length) :
    l.flatMap f = l.flatMap g ↔ ∀ b ∈ l, f b = g b := by
  induction l with
  | nil => simp
  | cons b l ih =>
    obtain ⟨hb, hl⟩ := forall_mem_cons.mp h
    rw [flatMap_cons, flatMap_cons, forall_mem_cons, ← ih hl]
    exact ⟨fun heq => append_inj heq hb, fun heq => by rw [heq.1, heq.2]⟩

/-- **Splicing from the last position to the first makes the edits at once** exactly when no edit
disturbs a later insertion at its start. -/
theorem spliceAll_eq_patched_iff (h : Fits doc.length edits) :
    spliceAll doc edits = patched doc edits ↔ Untangled doc edits := by
  rw [spliceAll_eq h, patched, flatMap_inj_of_length, ← landed_eq_texts_iff h]
  · constructor
    · intro hall p
      by_cases hp : p < doc.length + 1
      · exact append_cancel_right (hall p (List.mem_range.mpr hp))
      · have hnone : ∀ e ∈ edits, e.start ≠ p := by
          intro e he
          have := (h.ordered e he).trans (h.inside e he)
          omega
        rw [landed_eq_nil doc hnone, texts, filter_eq_nil_iff.mpr (by simpa using hnone),
          flatMap_nil]
    · intro hall p _
      rw [hall p]
  · intro p _
    rw [length_append, length_append, length_landed h]

end KolegaCode.Splices
