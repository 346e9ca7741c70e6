import Hocon.Value

namespace Hocon.Value

mutual

/-- The same value, fields in the same order. -/
def same : Value → Value → Bool
  | .object a, .object b => sameFields a b
  | .array a, .array b => sameItems a b
  | .text a, .text b => a == b
  | .null, .null => true
  | .reference a, .reference b => a == b
  | .concat a, .concat b => sameItems a b
  | _, _ => false

def sameFields : List (String × Value) → List (String × Value) → Bool
  | [], [] => true
  | (k, v) :: a, (l, w) :: b => k == l && v.same w && sameFields a b
  | _, _ => false

def sameItems : List Value → List Value → Bool
  | [], [] => true
  | v :: a, w :: b => v.same w && sameItems a b
  | _, _ => false

end

mutual

theorem same_iff (a b : Value) : a.same b = true ↔ a = b := by
  cases a <;> cases b <;> simp [same, sameFields_iff, sameItems_iff]

theorem sameFields_iff (a b : List (String × Value)) : sameFields a b = true ↔ a = b := by
  match a, b with
  | [], [] => simp [sameFields]
  | [], _ :: _ => simp [sameFields]
  | _ :: _, [] => simp [sameFields]
  | (k, v) :: a, (l, w) :: b => simp [sameFields, same_iff v w, sameFields_iff a b, and_assoc]

theorem sameItems_iff (a b : List Value) : sameItems a b = true ↔ a = b := by
  match a, b with
  | [], [] => simp [sameItems]
  | [], _ :: _ => simp [sameItems]
  | _ :: _, [] => simp [sameItems]
  | v :: a, w :: b => simp [sameItems, same_iff v w, sameItems_iff a b]

end

instance : DecidableEq Value := fun a b => decidable_of_iff _ (same_iff a b)

end Hocon.Value
