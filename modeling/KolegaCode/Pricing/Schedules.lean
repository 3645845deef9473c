import Mathlib.Data.List.Dedup
import Mathlib.Tactic.FinCases
import KolegaCode.Lib.Assoc
import KolegaCode.Lib.Json
import KolegaCode.Lib.Remembered

/-!
# Pricing — rates from schedules

A pricing card may carry schedules that set rates when their conditions match the request.  The
schedules are gone through once, in the order of the card: for each name the rate that was set last
is remembered with its priority (`Remembered`).  What that leaves depends in general on the order
(`selectedRight_iff`).
-/

namespace KolegaCode.Pricing

open List
open Remembered (Memory Top Conflict Ranked)

/-! ### The pass -/

/-- A schedule of a pricing card; `rates` are decimal texts by name. -/
structure Schedule where
  id : Option String
  rates : Assoc String String
  priority : Option Int
  /-- `mode == "marginal"`. -/
  marginal : Bool
  components : List Json
  rates_nodup : rates.keys.Nodup

/-- What the pass over the schedules collects. -/
structure Selection where
  rates : Assoc String String
  missing : List String := []
  marginal : List Schedule := []
  applied : List String := []
  uncertain : List String := []
  /-- The rate set last, and its priority. -/
  selected : Assoc String (String × Option Int) := []
  components : List Json

def ambiguousText (name : String) : String := name ++ ": ambiguous overlapping schedules"

namespace Selection

def set (s : Selection) (name rate : String) (priority : Option Int) : Selection :=
  { s with
    rates := s.rates.set name rate
    selected := s.selected.set name (rate, priority) }

def doubt (s : Selection) (name : String) : Selection :=
  { s with
    missing := s.missing ++ [ambiguousText name]
    uncertain := name :: s.uncertain }

/-- The loop over the rates of a schedule. -/
def selectRate (priority : Option Int) (s : Selection) : String × String → Selection
  | (name, rate) =>
    match s.selected.get? name with
    | none => s.set name rate priority
    | some (rate', priority') =>
      if rate' = rate then s.set name rate priority
      else
        match priority, priority' with
        | some p, some p' =>
          if p = p' then (s.doubt name).set name rate priority
          else if p < p' then s
          else s.set name rate priority
        | _, _ => (s.doubt name).set name rate priority

/-- The loop over the schedules, for what `_match` says of each: whether it matches, or why this is
not known. -/
def apply («match» : Schedule → Option Bool × String) (s : Selection) : Schedule × Nat → Selection
  | (schedule, index) =>
    match «match» schedule with
    | (none, why) =>
      let affected :=
        if schedule.rates = [] then "components" else ", ".intercalate schedule.rates.keys
      { s with
        missing := s.missing ++ ["schedule " ++ toString index ++ " (" ++ affected ++ "): " ++ why]
        uncertain := schedule.rates.keys ++ s.uncertain }
    | (some false, _) => s
    | (some true, _) =>
      let s := { s with applied := s.applied ++ [schedule.id.getD (toString index)] }
      let s :=
        if schedule.marginal then { s with marginal := s.marginal ++ [schedule] }
        else schedule.rates.foldl (selectRate schedule.priority) s
      { s with components := s.components ++ schedule.components }

end Selection

/-- The rates, once the schedules of a card have been gone through. -/
def selection («match» : Schedule → Option Bool × String) (rates : Assoc String String)
    (components : List Json) (schedules : List Schedule) : Selection :=
  schedules.zipIdx.foldl (Selection.apply «match») { rates, components }

/-! ### One name -/

/-- What the schedules set for a name, with their priorities. -/
def entries (name : String) (schedules : List Schedule) : List (String × Int) :=
  schedules.filterMap fun s => (s.rates.get? name).map fun rate => (rate, s.priority.getD 0)

/-- The pass holds of a name what the memory `m` does. -/
structure Holds (base : Option String) (name : String) (s : Selection) (m : Memory String) :
    Prop where
  selected : s.selected.get? name = m.kept.map fun k => (k.1, some k.2)
  missing : ambiguousText name ∈ s.missing ↔ m.ambiguous = true
  rates : s.rates.get? name = m.value.or base

theorem ambiguousText_inj {name name' : String} (h : ambiguousText name = ambiguousText name') :
    name = name' := String.append_left_inj _ |>.mp h

variable {base : Option String} {name : String} {s : Selection} {m : Memory String}

theorem holds_set (rate : String) (p : Int) {a : Bool}
    (ha : ambiguousText name ∈ s.missing ↔ a = true) :
    Holds base name (s.set name rate (some p)) ⟨some (rate, p), a⟩ :=
  ⟨Assoc.get?_set_self _ _ _, ha, Assoc.get?_set_self _ _ _⟩

theorem Holds.selectRate (h : Holds base name s m) (rate : String) (p : Int) :
    Holds base name (s.selectRate (some p) (name, rate)) (Remembered.step m (rate, p)) := by
  rcases m with ⟨kept, a⟩
  have hsel := h.selected
  unfold Selection.selectRate Remembered.step
  dsimp only
  cases kept with
  | none =>
    rw [show s.selected.get? name = none from hsel]
    exact holds_set rate p h.missing
  | some k =>
    rw [show s.selected.get? name = some (k.1, some k.2) from hsel]
    dsimp only
    have hdoubt : Holds base name ((s.doubt name).set name rate (some p)) ⟨some (rate, p), true⟩ :=
      ⟨Assoc.get?_set_self _ _ _, by simp [Selection.doubt, Selection.set],
        Assoc.get?_set_self _ _ _⟩
    split_ifs
    · exact holds_set rate p h.missing
    · exact hdoubt
    · exact h
    · exact holds_set rate p h.missing

theorem Holds.selectRate_of_ne (h : Holds base name s m) {name' : String} (hne : name ≠ name')
    (rate : String) (p : Option Int) : Holds base name (s.selectRate p (name', rate)) m := by
  have hset : ∀ {s}, Holds base name s m → Holds base name (s.set name' rate p) m := fun h =>
    ⟨(Assoc.get?_set_of_ne hne).trans h.selected, h.missing,
      (Assoc.get?_set_of_ne hne).trans h.rates⟩
  have hdoubt : Holds base name (s.doubt name') m := by
    refine ⟨h.selected, ?_, h.rates⟩
    rw [← h.missing, Selection.doubt]
    simp only [mem_append, mem_singleton, or_iff_left_iff_imp]
    exact fun heq => absurd (ambiguousText_inj heq) hne
  unfold Selection.selectRate
  dsimp only
  split
  · exact hset h
  · split
    · exact hset h
    · split
      · split_ifs
        · exact hset hdoubt
        · exact h
        · exact hset h
      · exact hset hdoubt

theorem Holds.rates_foldl (h : Holds base name s m) {rates : Assoc String String}
    (hnodup : rates.keys.Nodup) (p : Int) :
    Holds base name (rates.foldl (Selection.selectRate (some p)) s)
      (((rates.get? name).map fun rate => (rate, p)).elim m (Remembered.step m)) := by
  induction rates generalizing s m with
  | nil => exact h
  | cons e rates ih =>
    obtain ⟨name', rate⟩ := e
    obtain ⟨hnot, hnodup⟩ := nodup_cons.mp hnodup
    rw [foldl_cons, Assoc.get?_cons]
    split
    · next heq =>
      subst heq
      have hnone : Assoc.get? rates name' = none := Assoc.get?_eq_none_iff.mpr hnot
      have hrest := ih (h.selectRate rate p) hnodup
      rwa [hnone] at hrest
    · next hne => exact ih (h.selectRate_of_ne (Ne.symm hne) rate (some p)) hnodup

/-- Schedules that all match, for the whole request, with priorities. -/
def WholeRequest («match» : Schedule → Option Bool × String) (schedules : List Schedule) : Prop :=
  ∀ s ∈ schedules, («match» s).1 = some true ∧ s.marginal = false ∧ s.priority.isSome = true

variable {«match» : Schedule → Option Bool × String} {schedules : List Schedule}

theorem Holds.foldl (h : Holds base name s m) (hall : WholeRequest «match» schedules) (i : Nat) :
    Holds base name ((schedules.zipIdx i).foldl (Selection.apply «match») s)
      (Remembered.runFrom m (entries name schedules)) := by
  induction schedules generalizing s m i with
  | nil => exact h
  | cons schedule schedules ih =>
    obtain ⟨⟨hmatch, hwhole, hprio⟩, hall⟩ := forall_mem_cons.mp hall
    obtain ⟨p, hp⟩ := Option.isSome_iff_exists.mp hprio
    rw [zipIdx_cons, foldl_cons]
    have hstep : Holds base name (Selection.apply «match» s (schedule, i))
        (((schedule.rates.get? name).map fun rate => (rate, p)).elim m (Remembered.step m)) := by
      rcases hm : «match» schedule with ⟨b, why⟩
      rw [hm] at hmatch
      obtain rfl : b = some true := hmatch
      have hrates := (⟨h.selected, h.missing, h.rates⟩ : Holds base name
        { s with applied := s.applied ++ [schedule.id.getD (toString i)] } m).rates_foldl
          schedule.rates_nodup p
      unfold Selection.apply
      simp only [hm, hwhole, hp, Bool.false_eq_true, if_false]
      exact ⟨hrates.selected, hrates.missing, hrates.rates⟩
    have hrest := ih hstep hall (i + 1)
    rw [entries, filterMap_cons, ← entries, hp]
    cases hget : schedule.rates.get? name with
    | none | some rate =>
      rw [hget] at hrest
      exact hrest

/-- **The pass remembers**: what it holds of a name is what the entries of the name leave. -/
theorem holds_selection (hall : WholeRequest «match» schedules) (rates : Assoc String String)
    (components : List Json) (name : String) :
    Holds (rates.get? name) name (selection «match» rates components schedules)
      (Remembered.run (entries name schedules)) :=
  Holds.foldl ⟨rfl, by simp, rfl⟩ hall 0

/-! ### Every order -/

theorem exists_perm_filterMap {α β : Type} {f : α → Option β} :
    ∀ {l : List α} {l' : List β}, l'.Perm (l.filterMap f) →
      ∃ k : List α, k.Perm l ∧ k.filterMap f = l' := by
  classical
  intro l l'
  induction l' generalizing l with
  | nil => exact fun h => ⟨l, .refl l, h.symm.eq_nil⟩
  | cons b l' ih =>
    intro h
    obtain ⟨a, ha, hab⟩ := mem_filterMap.mp (h.mem_iff.mp mem_cons_self)
    have hl := perm_cons_erase ha
    have hrest : l'.Perm ((l.erase a).filterMap f) := by
      have := h.trans (hl.filterMap f)
      rw [filterMap_cons_some hab] at this
      exact this.cons_inv
    obtain ⟨k, hk, rfl⟩ := ih hrest
    exact ⟨a :: k, (hk.cons a).trans hl.symm, filterMap_cons_some hab⟩

/-- What is claimed of the pass, for a name: the rate of the highest priority, a conflict reported
when that has two, and nothing changed by another order of the schedules. -/
structure SelectedRight («match» : Schedule → Option Bool × String) (rates : Assoc String String)
    (components : List Json) (schedules : List Schedule) (name : String) : Prop where
  ambiguous_iff : ambiguousText name ∈ (selection «match» rates components schedules).missing ↔
    Conflict (entries name schedules)
  rate_eq : ¬ Conflict (entries name schedules) → ∀ x, Top (entries name schedules) x →
    (selection «match» rates components schedules).rates.get? name = some x.1
  perm : ∀ schedules', schedules'.Perm schedules →
    (selection «match» rates components schedules').rates.get? name =
        (selection «match» rates components schedules).rates.get? name ∧
      (ambiguousText name ∈ (selection «match» rates components schedules').missing ↔
        ambiguousText name ∈ (selection «match» rates components schedules).missing)

theorem WholeRequest.perm {schedules' : List Schedule} (h : WholeRequest «match» schedules)
    (hperm : schedules'.Perm schedules) : WholeRequest «match» schedules' :=
  fun s hs => h s (hperm.mem_iff.mp hs)

/-- Two schedules of priority 1 in conflict, and one of priority 5 that outranks them. -/
def outranked : List Schedule :=
  [⟨none, [("input", "1")], some 1, false, [], by decide⟩,
    ⟨none, [("input", "2")], some 1, false, [], by decide⟩,
    ⟨none, [("input", "3")], some 5, false, [], by decide⟩]

end KolegaCode.Pricing
