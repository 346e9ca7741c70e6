import Hocon.Value

/-! Merging objects. What comes in wins over what is there, except that two objects
merge field by field; a key keeps the place where it first came. -/
namespace Hocon

namespace Object

/-- Replace what stands at a key, or add it at the end. -/
def update (fields : Object) (key : String) (change : Option Value → Value) : Object :=
  match fields with
  | [] => [(key, change none)]
  | (name, value) :: rest =>
    if name = key then (name, change (some value)) :: rest
    else (name, value) :: update rest key change

def insert (fields : Object) (key : String) (value : Value) : Object :=
  update fields key fun _ => value

/-- An object of these fields; a repeated key keeps its place and takes the last value. -/
def ofList (fields : List (String × Value)) : Object :=
  fields.foldl (fun object field => insert object field.1 field.2) []

def keys (fields : Object) : List String := fields.map Prod.fst

mutual

/-- The base overlaid with each incoming field in turn. -/
def merge (base : Object) : List (String × Value) → Object
  | [] => base
  | (key, value) :: rest => merge (update base key fun old => overlay old value) rest

/-- An incoming value laid over what was there. -/
def overlay (old : Option Value) : Value → Value
  | .object incoming =>
    match old with
    | some (.object base) => .object (merge base incoming)
    | _ => .object incoming
  | other => other

end

/-- Objects merged from left to right. -/
def mergeAll (objects : List Object) : Object := objects.foldl merge []

/-- Set one field by merging it in. -/
def mergeField (fields : Object) (key : String) (value : Value) : Object :=
  merge fields [(key, value)]

theorem lookup_update_self (fields : Object) (key : String) (change : Option Value → Value) :
    (update fields key change).lookup key = some (change (fields.lookup key)) := by
  induction fields with
  | nil => simp [update]
  | cons field rest ih =>
    obtain ⟨name, value⟩ := field
    by_cases found : name = key
    · simp [update, found]
    · have other : (key == name) = false := by simpa using Ne.symm found
      simp [update, found, List.lookup_cons, other, ih]

theorem lookup_update_ne (fields : Object) {key other : String} (change : Option Value → Value)
    (different : other ≠ key) :
    (update fields key change).lookup other = fields.lookup other := by
  have apart : (other == key) = false := by simpa using different
  induction fields with
  | nil => simp [update, List.lookup_cons, apart]
  | cons field rest ih =>
    obtain ⟨name, value⟩ := field
    by_cases found : name = key
    · simp [update, found, List.lookup_cons, apart]
    · simp only [update, if_neg found, List.lookup_cons]
      split <;> simp_all

/-- A key keeps its place; a new one comes last. -/
theorem keys_update (fields : Object) (key : String) (change : Option Value → Value) :
    keys (update fields key change) = if key ∈ keys fields then keys fields else keys fields ++ [key] := by
  induction fields with
  | nil => simp [update, keys]
  | cons field rest ih =>
    obtain ⟨name, value⟩ := field
    by_cases found : name = key
    · simp [update, keys, found]
    · simp only [update, if_neg found, keys, List.map_cons, List.mem_cons] at ih ⊢
      rw [ih]
      by_cases member : key ∈ List.map Prod.fst rest <;> simp [member, Ne.symm found]

end Object
end Hocon
