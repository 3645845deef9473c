import KolegaCode.Conversation.Adapt
import Mathlib.Data.List.Sort
import Mathlib.Algebra.BigOperators.Group.List.Basic
import Mathlib.Algebra.Order.BigOperators.Group.List
import Mathlib.Algebra.GroupWithZero.Nat

/-!
# Conversation — the budget of the images of one request

A provider bounds one image and all the images of a request together.  The small images stay as
they are; the others share evenly what these leave.
-/

namespace KolegaCode.Conversation

open List

/-- The sizes as they count: no image is sent larger than the bound for one. -/
def projectedSizes (sizes : List Nat) : List Nat :=
  (sizes.map (min · anthropicMaxImageBase64Bytes)).mergeSort

/-- The size of the images when each is cut to `limit`. -/
def cutSum (limit : Nat) (sizes : List Nat) : Nat := (sizes.map (min · limit)).sum

@[simp] theorem cutSum_cons (limit size : Nat) (sizes : List Nat) :
    cutSum limit (size :: sizes) = min size limit + cutSum limit sizes := rfl

theorem cutSum_perm {limit : Nat} {sizes sizes' : List Nat} (h : sizes.Perm sizes') :
    cutSum limit sizes = cutSum limit sizes' :=
  (h.map _).sum_eq

/-- A bound below another one cuts as if the other had cut before. -/
theorem cutSum_map_min {limit cap : Nat} (h : limit ≤ cap) (sizes : List Nat) :
    cutSum limit (sizes.map (min · cap)) = cutSum limit sizes := by
  unfold cutSum
  rw [map_map]
  congr 2
  funext size
  simp [min_assoc, min_eq_right h]

theorem cutSum_of_le {limit : Nat} {sizes : List Nat} (h : ∀ size ∈ sizes, limit ≤ size) :
    cutSum limit sizes = sizes.length * limit := by
  induction sizes with
  | nil => simp [cutSum]
  | cons size sizes ih =>
    obtain ⟨hsize, hsizes⟩ := forall_mem_cons.mp h
    rw [cutSum_cons, ih hsizes, min_eq_right hsize, length_cons, Nat.succ_mul, Nat.add_comm]

/-- What the loop finds over sizes in ascending order that do not fit: a limit below the cap, no
smaller than the even share, that keeps the budget and is the largest to do so. -/
structure Share (remaining : Nat) (sizes : List Nat) (limit : Nat) : Prop where
  lt : limit < anthropicMaxImageBase64Bytes
  even : remaining / sizes.length ≤ limit
  keeps : cutSum limit sizes ≤ remaining
  largest : remaining < cutSum (limit + 1) sizes

/-- **The loop finds the share.**  A size at most the even share is passed and leaves the others at
least as much each, so the first size above its share is above the share of all before it. -/
theorem sharedImageLimit_spec {remaining : Nat} {sizes : List Nat}
    (hsorted : sizes.Pairwise (· ≤ ·)) (hcap : ∀ size ∈ sizes, size ≤ anthropicMaxImageBase64Bytes)
    (hfour : 4 * sizes.length ≤ remaining) (hover : remaining < sizes.sum) :
    Share remaining sizes (sharedImageLimit remaining sizes) := by
  induction sizes generalizing remaining with
  | nil => exact absurd hover (Nat.not_lt_zero _)
  | cons size rest ih =>
    obtain ⟨hsize, hsorted⟩ := pairwise_cons.mp hsorted
    obtain ⟨hsizecap, hcap⟩ := forall_mem_cons.mp hcap
    rw [length_cons] at hfour
    rw [sum_cons] at hover
    have hdiv : (rest.length + 1) * (remaining / (rest.length + 1)) ≤ remaining :=
      Nat.mul_div_le _ _
    have hnext : remaining < (rest.length + 1) * (remaining / (rest.length + 1) + 1) :=
      Nat.lt_mul_div_succ _ (Nat.succ_pos _)
    have hmin : 4 ≤ remaining / (rest.length + 1) :=
      (Nat.le_div_iff_mul_le (Nat.succ_pos _)).mpr hfour
    rw [sharedImageLimit]
    set shared := remaining / (rest.length + 1)
    split
    · next hlt =>
      rw [min_eq_right (hlt.le.trans hsizecap), max_eq_right hmin]
      have hall : ∀ other ∈ size :: rest, shared + 1 ≤ other :=
        forall_mem_cons.mpr ⟨hlt, fun other hother => hlt.trans_le (hsize other hother)⟩
      refine ⟨hlt.trans_le hsizecap, le_rfl, ?_, ?_⟩
      · rw [cutSum_of_le fun other hother => (Nat.le_succ _).trans (hall other hother)]
        exact hdiv
      · rw [cutSum_of_le hall]
        exact hnext
    · next hge =>
      have hle : size ≤ shared := Nat.not_lt.mp hge
      have hspare : rest.length * shared ≤ remaining - size := by
        rw [Nat.succ_mul] at hdiv
        omega
      have hfour' : 4 * rest.length ≤ remaining - size :=
        (Nat.mul_comm _ _ ▸ Nat.mul_le_mul_left _ hmin).trans hspare
      have hpositive : 0 < rest.length := by
        rcases rest with _ | ⟨other, rest⟩
        · rw [length_nil, Nat.zero_add, Nat.one_mul] at hdiv
          rw [sum_nil] at hover
          omega
        · exact Nat.succ_pos _
      have share := ih hsorted hcap hfour' (by omega)
      have heven : shared ≤ sharedImageLimit (remaining - size) rest :=
        ((Nat.le_div_iff_mul_le hpositive).mpr (Nat.mul_comm _ _ ▸ hspare)).trans share.even
      have hkeeps := share.keeps
      have hlargest := share.largest
      refine ⟨share.lt, heven, ?_, ?_⟩
      · rw [cutSum_cons, min_eq_left (hle.trans heven)]
        omega
      · rw [cutSum_cons, min_eq_left ((hle.trans heven).trans (Nat.le_succ _))]
        omega

theorem projectedSizes_perm (sizes : List Nat) :
    (projectedSizes sizes).Perm (sizes.map (min · anthropicMaxImageBase64Bytes)) :=
  mergeSort_perm _ _

theorem cutSum_projectedSizes {limit : Nat} (h : limit ≤ anthropicMaxImageBase64Bytes)
    (sizes : List Nat) : cutSum limit (projectedSizes sizes) = cutSum limit sizes :=
  (cutSum_perm (projectedSizes_perm sizes)).trans (cutSum_map_min h sizes)

theorem sum_projectedSizes (sizes : List Nat) :
    (projectedSizes sizes).sum = cutSum anthropicMaxImageBase64Bytes sizes :=
  (projectedSizes_perm sizes).sum_eq

/-- **The budget is met and fair.**  With the limit the images keep both bounds, and one more byte
for each breaks one of them, unless every image fits already. -/
theorem anthropicImageBase64Limit_fair (sizes : List Nat)
    (h : sizes.length * 4 ≤ anthropicMaxRequestImageBase64Bytes) :
    cutSum (anthropicImageBase64Limit sizes) sizes ≤ anthropicMaxRequestImageBase64Bytes ∧
      anthropicImageBase64Limit sizes ≤ anthropicMaxImageBase64Bytes ∧
      ((∀ size ∈ sizes, size ≤ anthropicImageBase64Limit sizes) ∨
        anthropicMaxRequestImageBase64Bytes <
          cutSum (anthropicImageBase64Limit sizes + 1) sizes ∨
        anthropicMaxImageBase64Bytes < anthropicImageBase64Limit sizes + 1) := by
  simp only [anthropicImageBase64Limit]
  rw [← projectedSizes]
  split
  · next hfits =>
    rw [sum_projectedSizes] at hfits
    exact ⟨hfits, le_rfl, .inr (.inr (Nat.lt_succ_self _))⟩
  · next hover =>
    have hsorted : (projectedSizes sizes).Pairwise (· ≤ ·) := pairwise_mergeSort' (· ≤ ·) _
    have hcap : ∀ size ∈ projectedSizes sizes, size ≤ anthropicMaxImageBase64Bytes := by
      intro size hsize
      obtain ⟨image, -, rfl⟩ := mem_map.mp ((projectedSizes_perm sizes).mem_iff.mp hsize)
      exact min_le_right _ _
    have hlength : (projectedSizes sizes).length = sizes.length :=
      (projectedSizes_perm sizes).length_eq.trans (length_map _)
    have share := sharedImageLimit_spec hsorted hcap (by rw [hlength]; omega) (Nat.not_le.mp hover)
    have hkeeps := share.keeps
    have hlargest := share.largest
    rw [cutSum_projectedSizes share.lt.le] at hkeeps
    rw [cutSum_projectedSizes share.lt] at hlargest
    exact ⟨hkeeps, share.lt.le, .inr (.inl hlargest)⟩

/-- Three images that do not fit together, and the limit they get. -/
theorem anthropicImageBase64Limit_fair_three :
    [1000, 12000000, 20000000].length * 4 ≤ anthropicMaxRequestImageBase64Bytes ∧
      cutSum (anthropicImageBase64Limit [1000, 12000000, 20000000]) [1000, 12000000, 20000000] ≤
        anthropicMaxRequestImageBase64Bytes :=
  ⟨by decide, (anthropicImageBase64Limit_fair [1000, 12000000, 20000000] (by decide)).1⟩

end KolegaCode.Conversation
