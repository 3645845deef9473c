import Mathlib.Data.List.Basic

/-!
# Lib — JSON values

The values Python's `json` module reads and writes.  A dictionary is the list of its items in
insertion order.  A float is kept as its `repr`, the text `json.dumps` writes for it and
`json.loads` reads back to the same float.
-/

namespace KolegaCode

/-- A JSON value. -/
inductive Json where
  | null
  | bool (b : Bool)
  | int (n : Int)
  | float (repr : String)
  | str (s : String)
  | arr (xs : List Json)
  | obj (fs : List (String × Json))
deriving Repr, Inhabited

namespace Json

/-- The items of a Python dictionary, in insertion order. -/
abbrev Dict := List (String × Json)

/-- `d.get(key)`. -/
def get? : Dict → String → Option Json
  | [], _ => none
  | (k, v) :: d, key => if k = key then some v else get? d key

@[simp] theorem get?_nil (key : String) : get? [] key = none := rfl

theorem get?_cons (k : String) (v : Json) (d : Dict) (key : String) :
    get? ((k, v) :: d) key = if k = key then some v else get? d key := rfl

/-! ### Equality is decidable -/

mutual

/-- Equality of values, decided by recursion on the first. -/
def decEq : (a b : Json) → Decidable (a = b)
  | .null, b => by
      cases b
      case null => exact isTrue rfl
      all_goals exact isFalse (by simp)
  | .bool x, b => by
      cases b
      case bool y => exact decidable_of_iff (x = y) (by simp)
      all_goals exact isFalse (by simp)
  | .int x, b => by
      cases b
      case int y => exact decidable_of_iff (x = y) (by simp)
      all_goals exact isFalse (by simp)
  | .float x, b => by
      cases b
      case float y => exact decidable_of_iff (x = y) (by simp)
      all_goals exact isFalse (by simp)
  | .str x, b => by
      cases b
      case str y => exact decidable_of_iff (x = y) (by simp)
      all_goals exact isFalse (by simp)
  | .arr xs, b => by
      cases b
      case arr ys => exact @decidable_of_iff _ (xs = ys) (by simp) (decEqList xs ys)
      all_goals exact isFalse (by simp)
  | .obj fs, b => by
      cases b
      case obj gs => exact @decidable_of_iff _ (fs = gs) (by simp) (decEqDict fs gs)
      all_goals exact isFalse (by simp)

/-- Equality of lists of values. -/
def decEqList : (xs ys : List Json) → Decidable (xs = ys)
  | [], [] => isTrue rfl
  | [], _ :: _ | _ :: _, [] => isFalse (by simp)
  | x :: xs, y :: ys =>
      @decidable_of_iff _ (x = y ∧ xs = ys) (by simp)
        (@instDecidableAnd _ _ (decEq x y) (decEqList xs ys))

/-- Equality of dictionaries, as lists of items. -/
def decEqDict : (fs gs : Dict) → Decidable (fs = gs)
  | [], [] => isTrue rfl
  | [], _ :: _ | _ :: _, [] => isFalse (by simp)
  | (k, v) :: fs, (k', v') :: gs =>
      @decidable_of_iff _ (k = k' ∧ v = v' ∧ fs = gs) (by simp [and_assoc])
        (@instDecidableAnd _ _ _ (@instDecidableAnd _ _ (decEq v v') (decEqDict fs gs)))

end

instance : DecidableEq Json := decEq

end Json

end KolegaCode
