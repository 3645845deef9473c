import Mathlib.Data.List.Forall2
import Mathlib.Data.List.Basic

/-!
# Lib — items that absorb candidates

Items and candidates fall into classes.  `put` keeps the last candidate of each class; `absorb` goes
along the items, and every item takes the first candidate of its class away, which stands in its
place or is dropped.
-/

namespace KolegaCode.Absorb

open List

variable {β : Type}

/-- The first element that satisfies a predicate, and the others. -/
def extract (p : β → Bool) : List β → Option (β × List β)
  | [] => none
  | c :: cs => if p c then some (c, cs) else (extract p cs).map fun r => (r.1, c :: r.2)

/-- What is left of the candidates, the items, and whether one of them was replaced. -/
structure Absorbed (β : Type) where
  rest : List β
  items : List β
  replaced : Bool

section

variable (same replace : β → β → Bool)

/-- The candidates with one more, in the place of the first of its class. -/
def put : List β → β → List β
  | [], b => [b]
  | x :: xs, b => if same x b then b :: xs else x :: put xs b

def absorb : List β → List β → Absorbed β
  | cs, [] => ⟨cs, [], false⟩
  | cs, b :: bs =>
    match extract (same b) cs with
    | none => { absorb cs bs with items := b :: (absorb cs bs).items }
    | some (c, cs) =>
      if replace b c then ⟨(absorb cs bs).rest, c :: (absorb cs bs).items, true⟩
      else { absorb cs bs with items := b :: (absorb cs bs).items }

/-- The elements with the property fall into classes. -/
structure Classes (P : β → Prop) : Prop where
  symm {a b : β} : P a → P b → same a b = true → same b a = true
  trans {a b c : β} : P a → P b → P c → same a b = true → same b c = true → same a c = true

/-- Of different classes. -/
def Apart (a b : β) : Prop := same a b = false

instance : DecidableRel (Apart same) := fun a b => inferInstanceAs (Decidable (same a b = false))

/-- What stands in the place of an item. -/
def Kept (cs : List β) (b b' : β) : Prop :=
  b' = b ∨ b' ∈ cs ∧ same b b' = true ∧ replace b b' = true

end

/-! ### Extraction -/

variable {p : β → Bool} {cs rest : List β} {c : β}

theorem extract_eq_none_iff : extract p cs = none ↔ ∀ c ∈ cs, p c = false := by
  induction cs with
  | nil => simp [extract]
  | cons c cs ih =>
    rw [extract]
    split
    · next hc => simp [hc]
    · next hc => simp [ih, hc]

theorem extract_eq_some (h : extract p cs = some (c, rest)) :
    p c = true ∧ ∃ front back, cs = front ++ c :: back ∧ rest = front ++ back := by
  induction cs generalizing rest with
  | nil => cases h
  | cons x cs ih =>
    rw [extract] at h
    split at h
    · next hx =>
      cases h
      exact ⟨hx, [], cs, rfl, rfl⟩
    · obtain ⟨⟨c', rest'⟩, hextract, heq⟩ := Option.map_eq_some_iff.mp h
      cases heq
      obtain ⟨hc, front, back, rfl, rfl⟩ := ih hextract
      exact ⟨hc, x :: front, back, rfl, rfl⟩

section

variable {same replace : β → β → Bool} {P : β → Prop}

/-! ### The last of each class -/

variable {xs bs : List β}

theorem mem_put {b y : β} (h : y ∈ put same xs b) : y = b ∨ y ∈ xs := by
  induction xs with
  | nil => exact .inl (mem_singleton.mp h)
  | cons x xs ih =>
    rw [put] at h
    split at h
    · rcases mem_cons.mp h with rfl | h
      · exact .inl rfl
      · exact .inr (mem_cons_of_mem _ h)
    · rcases mem_cons.mp h with rfl | h
      · exact .inr mem_cons_self
      · exact (ih h).imp_right (mem_cons_of_mem _)

theorem put_apart (hclasses : Classes same P) {b : β} (hxs : ∀ x ∈ xs, P x) (hb : P b)
    (h : xs.Pairwise (Apart same)) : (put same xs b).Pairwise (Apart same) := by
  induction xs with
  | nil => exact pairwise_singleton _ _
  | cons x xs ih =>
    obtain ⟨hx, hrest⟩ := pairwise_cons.mp h
    have hPx := hxs x mem_cons_self
    have hPxs : ∀ y ∈ xs, P y := fun y hy => hxs y (mem_cons_of_mem _ hy)
    rw [put]
    split
    · next hsame =>
      refine pairwise_cons.mpr ⟨fun y hy => ?_, hrest⟩
      refine Bool.eq_false_iff.mpr fun hby => Bool.eq_false_iff.mp (hx y hy) ?_
      exact hclasses.trans hPx hb (hPxs y hy) hsame hby
    · next hsame =>
      refine pairwise_cons.mpr ⟨fun y hy => ?_, ih hPxs hrest⟩
      rcases mem_put hy with rfl | hy
      · exact Bool.eq_false_iff.mpr hsame
      · exact hx y hy

theorem put_ne_nil (xs : List β) (b : β) : put same xs b ≠ [] := by
  cases xs with
  | nil => exact cons_ne_nil b []
  | cons x xs =>
    rw [put]
    split
    · exact cons_ne_nil b xs
    · exact cons_ne_nil x _

theorem eq_nil_of_foldl_put (h : bs.foldl (put same) xs = []) : xs = [] ∧ bs = [] := by
  induction bs generalizing xs with
  | nil => exact ⟨h, rfl⟩
  | cons b bs ih => exact absurd (ih h).1 (put_ne_nil xs b)

theorem mem_foldl_put {y : β} (h : y ∈ bs.foldl (put same) xs) : y ∈ xs ∨ y ∈ bs := by
  induction bs generalizing xs with
  | nil => exact .inl h
  | cons b bs ih =>
    rcases ih h with h | h
    · rcases mem_put h with rfl | h
      · exact .inr mem_cons_self
      · exact .inl h
    · exact .inr (mem_cons_of_mem _ h)

/-- **No class is met twice among the last of each class.** -/
theorem foldl_put_apart (hclasses : Classes same P) (hbs : ∀ b ∈ bs, P b) (hxs : ∀ x ∈ xs, P x)
    (h : xs.Pairwise (Apart same)) : (bs.foldl (put same) xs).Pairwise (Apart same) := by
  induction bs generalizing xs with
  | nil => exact h
  | cons b bs ih =>
    have hb := hbs b mem_cons_self
    refine ih (fun y hy => hbs y (mem_cons_of_mem _ hy)) ?_ (put_apart hclasses hxs hb h)
    intro y hy
    rcases mem_put hy with rfl | hy
    · exact hb
    · exact hxs y hy

/-! ### Absorption -/

theorem absorb_cons (same replace : β → β → Bool) (cs bs : List β) (b : β) :
    (extract (same b) cs = none ∧ (absorb same replace cs (b :: bs)).rest =
        (absorb same replace cs bs).rest ∧
      (absorb same replace cs (b :: bs)).items = b :: (absorb same replace cs bs).items ∧
      (absorb same replace cs (b :: bs)).replaced = (absorb same replace cs bs).replaced) ∨
    ∃ c rest, extract (same b) cs = some (c, rest) ∧ (absorb same replace cs (b :: bs)).rest =
        (absorb same replace rest bs).rest ∧
      (replace b c = true ∧
          (absorb same replace cs (b :: bs)).items = c :: (absorb same replace rest bs).items ∧
          (absorb same replace cs (b :: bs)).replaced = true ∨
        replace b c = false ∧
          (absorb same replace cs (b :: bs)).items = b :: (absorb same replace rest bs).items ∧
          (absorb same replace cs (b :: bs)).replaced = (absorb same replace rest bs).replaced) := by
  rw [absorb]
  cases hextract : extract (same b) cs with
  | none => exact .inl ⟨rfl, rfl, rfl, rfl⟩
  | some r =>
    obtain ⟨c, rest⟩ := r
    refine .inr ⟨c, rest, rfl, ?_⟩
    dsimp only
    cases hreplace : replace b c with
    | true => exact ⟨rfl, .inl ⟨rfl, rfl, rfl⟩⟩
    | false => exact ⟨rfl, .inr ⟨rfl, rfl, rfl⟩⟩

theorem extract_sublist (h : extract p cs = some (c, rest)) : rest.Sublist cs := by
  obtain ⟨-, front, back, rfl, rfl⟩ := extract_eq_some h
  exact (List.Sublist.refl front).append (sublist_cons_self c back)

theorem rest_sublist (cs bs : List β) : (absorb same replace cs bs).rest.Sublist cs := by
  induction bs generalizing cs with
  | nil => exact List.Sublist.refl _
  | cons b bs ih =>
    rcases absorb_cons same replace cs bs b with
      ⟨-, hrest, -⟩ | ⟨c, rest, hextract, hrest, -⟩
    · rw [hrest]
      exact ih cs
    · rw [hrest]
      exact (ih rest).trans (extract_sublist hextract)

theorem Kept.mono {cs' : List β} {b b' : β} (h : Kept same replace cs b b') (hcs : cs ⊆ cs') :
    Kept same replace cs' b b' :=
  h.imp_right fun h => ⟨hcs h.1, h.2⟩

/-- **Every item stays or is replaced by a candidate of its class.** -/
theorem items_kept (cs bs : List β) :
    List.Forall₂ (Kept same replace cs) bs (absorb same replace cs bs).items := by
  induction bs generalizing cs with
  | nil => exact .nil
  | cons b bs ih =>
    rcases absorb_cons same replace cs bs b with
      ⟨-, -, hitems, -⟩ | ⟨c, rest, hextract, -, ⟨hreplace, hitems, -⟩ | ⟨-, hitems, -⟩⟩
    · rw [hitems]
      exact .cons (.inl rfl) (ih cs)
    · have hsub := (extract_sublist hextract).subset
      obtain ⟨hsame, front, back, rfl, -⟩ := extract_eq_some hextract
      rw [hitems]
      exact .cons (.inr ⟨by simp, hsame, hreplace⟩) ((ih rest).imp fun _ _ h => h.mono hsub)
    · have hsub := (extract_sublist hextract).subset
      rw [hitems]
      exact .cons (.inl rfl) ((ih rest).imp fun _ _ h => h.mono hsub)

theorem items_of_not_replaced (h : (absorb same replace cs bs).replaced = false) :
    (absorb same replace cs bs).items = bs := by
  induction bs generalizing cs with
  | nil => rfl
  | cons b bs ih =>
    rcases absorb_cons same replace cs bs b with
      ⟨-, -, hitems, hreplaced⟩ | ⟨c, rest, -, -, ⟨-, -, hreplaced⟩ | ⟨-, hitems, hreplaced⟩⟩
    · rw [hitems, ih (hreplaced ▸ h)]
    · rw [hreplaced] at h
      cases h
    · rw [hitems, ih (hreplaced ▸ h)]

theorem absorb_nil (bs : List β) :
    (absorb same replace [] bs).items = bs ∧ (absorb same replace [] bs).rest = [] := by
  induction bs with
  | nil => exact ⟨rfl, rfl⟩
  | cons b bs ih => exact ⟨congrArg (b :: ·) ih.1, ih.2⟩

theorem absorb_append (same replace : β → β → Bool) (cs bs ds : List β) :
    (absorb same replace cs (bs ++ ds)).items =
        (absorb same replace cs bs).items ++
          (absorb same replace (absorb same replace cs bs).rest ds).items ∧
      (absorb same replace cs (bs ++ ds)).rest =
        (absorb same replace (absorb same replace cs bs).rest ds).rest := by
  induction bs generalizing cs with
  | nil => exact ⟨rfl, rfl⟩
  | cons b bs ih =>
    simp only [cons_append, absorb]
    cases extract (same b) cs with
    | none =>
      obtain ⟨hitems, hrest⟩ := ih cs
      exact ⟨congrArg (b :: ·) hitems, hrest⟩
    | some r =>
      obtain ⟨c, rest⟩ := r
      obtain ⟨hitems, hrest⟩ := ih rest
      dsimp only
      split
      · exact ⟨congrArg (c :: ·) hitems, hrest⟩
      · exact ⟨congrArg (b :: ·) hitems, hrest⟩

theorem exists_of_forall₂ {R : β → β → Prop} (h : List.Forall₂ R bs cs) (hc : c ∈ cs) :
    ∃ b ∈ bs, R b c := by
  induction h with
  | nil => cases hc
  | cons hR _ ih =>
    rcases mem_cons.mp hc with rfl | hc
    · exact ⟨_, mem_cons_self, hR⟩
    · obtain ⟨b, hb, hR⟩ := ih hc
      exact ⟨b, mem_cons_of_mem _ hb, hR⟩

/-- The candidate that is extracted is of another class than the others. -/
theorem apart_of_extract (hclasses : Classes same P) (hcs : ∀ c ∈ cs, P c)
    (h : cs.Pairwise (Apart same)) (hextract : extract p cs = some (c, rest)) :
    rest.Pairwise (Apart same) ∧ ∀ y ∈ rest, same c y = false := by
  refine ⟨h.sublist (extract_sublist hextract), fun y hy => ?_⟩
  obtain ⟨-, front, back, rfl, rfl⟩ := extract_eq_some hextract
  obtain ⟨-, hback, hfront⟩ := pairwise_append.mp h
  rcases mem_append.mp hy with hy | hy
  · refine Bool.eq_false_iff.mpr fun hsame => ?_
    have hyc := hclasses.symm (hcs c (by simp)) (hcs y (by simp [hy])) hsame
    exact Bool.eq_false_iff.mp (hfront y hy c mem_cons_self) hyc
  · exact (pairwise_cons.mp hback).1 y hy

/-- **No class is met twice among the items and what is left of the candidates.** -/
theorem absorb_apart (replace : β → β → Bool) (hclasses : Classes same P) (hcs : ∀ c ∈ cs, P c)
    (hbs : ∀ b ∈ bs, P b) (hcs' : cs.Pairwise (Apart same)) (hbs' : bs.Pairwise (Apart same)) :
    ((absorb same replace cs bs).items ++ (absorb same replace cs bs).rest).Pairwise
      (Apart same) := by
  induction bs generalizing cs with
  | nil => exact hcs'
  | cons b bs ih =>
    obtain ⟨hb, hbs'⟩ := pairwise_cons.mp hbs'
    have hPb := hbs b mem_cons_self
    have hPbs : ∀ y ∈ bs, P y := fun y hy => hbs y (mem_cons_of_mem _ hy)
    -- What follows an item is an item of old or a candidate.
    have hmem : ∀ {cs : List β} {y : β},
        y ∈ (absorb same replace cs bs).items ++ (absorb same replace cs bs).rest →
          y ∈ bs ∨ y ∈ cs := by
      intro cs y hy
      rcases mem_append.mp hy with hy | hy
      · obtain ⟨b', hb', rfl | ⟨hy, -⟩⟩ := exists_of_forall₂ (items_kept cs bs) hy
        · exact .inl hb'
        · exact .inr hy
      · exact .inr ((rest_sublist cs bs).subset hy)
    rcases absorb_cons same replace cs bs b with
      ⟨hnone, hrest, hitems, -⟩ | ⟨c, rest, hextract, hrest, hhead⟩
    · rw [hitems, hrest, cons_append]
      refine pairwise_cons.mpr ⟨fun y hy => ?_, ih hcs hPbs hcs' hbs'⟩
      exact (hmem hy).elim (hb y) (extract_eq_none_iff.mp hnone y)
    · obtain ⟨hrest', hcy⟩ := apart_of_extract hclasses hcs hcs' hextract
      have hsub := (extract_sublist hextract).subset
      obtain ⟨hsame, front, back, heq, -⟩ := extract_eq_some hextract
      have hPc : P c := hcs c (heq ▸ by simp)
      have hPrest : ∀ y ∈ rest, P y := fun y hy => hcs y (hsub hy)
      have hrun := ih hPrest hPbs hrest' hbs'
      rcases hhead with ⟨-, hitems, -⟩ | ⟨-, hitems, -⟩
      · rw [hitems, hrest, cons_append]
        refine pairwise_cons.mpr ⟨fun y hy => ?_, hrun⟩
        rcases hmem hy with hy | hy
        · refine Bool.eq_false_iff.mpr fun h => Bool.eq_false_iff.mp (hb y hy) ?_
          exact hclasses.trans hPb hPc (hPbs y hy) hsame h
        · exact hcy y hy
      · rw [hitems, hrest, cons_append]
        refine pairwise_cons.mpr ⟨fun y hy => ?_, hrun⟩
        rcases hmem hy with hy | hy
        · exact hb y hy
        · refine Bool.eq_false_iff.mpr fun h => Bool.eq_false_iff.mp (hcy y hy) ?_
          exact hclasses.trans hPc hPb (hPrest y hy) (hclasses.symm hPb hPc hsame) h

end

end KolegaCode.Absorb
