import Hocon.Fault
import Hocon.Text.Blank

/-! Values. Every scalar is text; `null` alone stands apart. Between parsing and
resolving, a value can also hold references to other values and the pieces of a
concatenation that waits for them. -/
namespace Hocon

/-- A reference to the value at a path. Its number tells it from every other
reference of a document and of what that includes. -/
structure Reference where
  id : Nat
  path : List String
  optional : Bool
  place : Position
deriving DecidableEq, Inhabited, Repr

/-- The path as messages and the environment know it. -/
def Reference.dotted (reference : Reference) : String := KeyPath.dotted reference.path

inductive Value where
  /-- Fields in the order in which their keys first came. -/
  | object (fields : List (String × Value))
  | array (items : List Value)
  | text (content : String)
  | null
  | reference (target : Reference)
  /-- Pieces written side by side of which at least one is still to be resolved. -/
  | concat (pieces : List Value)
deriving Inhabited, Repr

/-- The fields of an object. -/
abbrev Object := List (String × Value)

/-- A parsed document: its value, and the references that were read with it. -/
structure Root where
  value : Value
  references : List Reference
deriving Inhabited, Repr

/-- The empty object. -/
def Root.empty : Root := ⟨.object [], []⟩

namespace Value

def kind : Value → Kind
  | .object _ => .object
  | .array _ => .array
  | .text _ => .text
  | .null => .null
  | .reference _ => .reference
  | .concat _ => .concat

def isObject (value : Value) : Bool := value.kind == .object

def isArray (value : Value) : Bool := value.kind == .array

def isText (value : Value) : Bool := value.kind == .text

def isNull (value : Value) : Bool := value.kind == .null

/-- Stands for a value that only resolving finds. -/
def isPending (value : Value) : Bool := value.kind == .reference || value.kind == .concat

def isReference (value : Value) : Bool := value.kind == .reference

/-- Text of nothing but white space. -/
def isBlank : Value → Bool
  | .text content => Text.isAllWhite content
  | _ => false

def asObject : Value → Except Fault Object
  | .object fields => .ok fields
  | other => .error (.kindMismatch .object other.kind)

def asArray : Value → Except Fault (List Value)
  | .array items => .ok items
  | other => .error (.kindMismatch .array other.kind)

def asText : Value → Except Fault String
  | .text content => .ok content
  | other => .error (.kindMismatch .text other.kind)

/-- The value that keys lead to through objects; no keys lead to the value itself. -/
def lookup (value : Value) : List String → Option Value
  | [] => some value
  | key :: rest =>
    match value with
    | .object fields =>
      match fields.lookup key with
      | some next => next.lookup rest
      | none => none
    | _ => none

mutual

/-- Something in the value is still to be resolved. -/
def containsPending : Value → Bool
  | .object fields => fieldsContainPending fields
  | .array items => itemsContainPending items
  | .text _ | .null => false
  | .reference _ | .concat _ => true

def fieldsContainPending : List (String × Value) → Bool
  | [] => false
  | (_, value) :: rest => value.containsPending || fieldsContainPending rest

def itemsContainPending : List Value → Bool
  | [] => false
  | value :: rest => value.containsPending || itemsContainPending rest

end

mutual

/-- The references in a value, in document order. -/
def references : Value → List Reference
  | .object fields => fieldReferences fields
  | .array items => itemReferences items
  | .text _ | .null => []
  | .reference target => [target]
  | .concat pieces => itemReferences pieces

def fieldReferences : List (String × Value) → List Reference
  | [] => []
  | (_, value) :: rest => value.references ++ fieldReferences rest

def itemReferences : List Value → List Reference
  | [] => []
  | value :: rest => value.references ++ itemReferences rest

end

theorem fieldsContainPending_eq (fields : Object) :
    fieldsContainPending fields = fields.any (·.2.containsPending) := by
  induction fields with
  | nil => rfl
  | cons field rest ih => obtain ⟨key, value⟩ := field; simp [fieldsContainPending, ih]

theorem itemsContainPending_eq (items : List Value) :
    itemsContainPending items = items.any containsPending := by
  induction items with
  | nil => rfl
  | cons value rest ih => simp [itemsContainPending, ih]

theorem fieldReferences_eq (fields : Object) :
    fieldReferences fields = fields.flatMap (·.2.references) := by
  induction fields with
  | nil => rfl
  | cons field rest ih => obtain ⟨key, value⟩ := field; simp [fieldReferences, ih]

theorem itemReferences_eq (items : List Value) :
    itemReferences items = items.flatMap references := by
  induction items with
  | nil => rfl
  | cons value rest ih => simp [itemReferences, ih]

end Value
end Hocon
