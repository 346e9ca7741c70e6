import Hocon.Value.Concat

namespace Hocon

namespace Object

/-- The value inside one object for each key. -/
def nest (keys : List String) (value : Value) : Value :=
  keys.foldr (fun key inner => .object [(key, inner)]) value

/-- Merge a value in at a path. -/
def set (fields : Object) (path : KeyPath) (value : Value) : Object :=
  mergeField fields path.first (nest path.rest value)

/-- An element more: an array grows, nothing becomes an array of it, and any other value
waits to be concatenated with that array. -/
def grow (value : Value) : Option Value → Value
  | some (.array items) => .array (items ++ [value])
  | some other => .concat [other, .array [value]]
  | none => .array [value]

/-- Add an element at the path of these keys. What is no object on the way becomes one. -/
def appendAt (value : Value) (fields : Object) (key : String) : List String → Object
  | [] => update fields key (grow value)
  | next :: rest =>
    update fields key fun old =>
      match old with
      | some (.object inner) => .object (appendAt value inner next rest)
      | _ => .object (appendAt value [] next rest)

/-- Add an element to the array at a path. -/
def append (fields : Object) (path : KeyPath) (value : Value) : Object :=
  appendAt value fields path.first path.rest

end Object

inductive Entry where
  /-- A key and its value. -/
  | assign (path : KeyPath) (value : Value)
  /-- A key and one more element of its array. -/
  | append (path : KeyPath) (value : Value)
  /-- The fields of an included document. -/
  | included (fields : Object)
deriving Inhabited, Repr

namespace Entry

def apply (fields : Object) : Entry → Object
  | .assign path value => fields.set path value
  | .append path value => fields.append path value
  | .included incoming => fields.merge incoming

/-- The object that entries make one after the other. -/
def build (entries : List Entry) : Object := entries.foldl apply []

end Entry
end Hocon
