import Hocon.Proofs.Appending

/-! Adding an element as setting a value. The path is walked in place, or the value is wrapped in one
object for each key of it and merged in; either way each object on the way changes in one field, and
what is no object there makes room for one. -/
namespace Hocon

namespace Object

private theorem update_eq_insert (fields : Object) (key : String) (change : Option Value → Value) :
    update fields key change = insert fields key (change (fields.lookup key)) := update_congr rfl

private theorem set_eq_insert (fields : Object) (key : String) (rest : List String) (value : Value) :
    set fields ⟨key, rest⟩ value = insert fields key (overlay (fields.lookup key) (nest rest value)) := by
  rw [set, mergeField, merge, merge, update_eq_insert]

private theorem set_cons (fields : Object) (key next : String) (rest : List String) (value : Value) :
    set fields ⟨key, next :: rest⟩ value =
      update fields key fun old => .object (set (within old) ⟨next, rest⟩ value) := by
  have single : (keys [(next, nest rest value)]).Nodup := List.nodup_singleton next
  rw [set_eq_insert, update_eq_insert]
  exact congrArg (insert fields key) (overlay_object single _)

private theorem within_lookup (old : Option Value) (keys : List String) :
    within ((Value.object (within old)).lookup keys) = within (old.bind (·.lookup keys)) := by
  cases keys with
  | nil => cases old <;> rfl
  | cons key keys => rw [lookup_within]

/-- Every object on the way changes in one field, which keeps its place or comes last. -/
private theorem lookup_set_front (fields : Object) {first key : String} {rest front behind : List String}
    (value : Value)
    (cut : first :: rest = front ++ key :: behind) :
    ∃ below, (Value.object (set fields ⟨first, rest⟩ value)).lookup (front ++ [key]) = some below ∧
      (Value.object (set fields ⟨first, rest⟩ value)).lookup front =
        some (.object (insert (within ((Value.object fields).lookup front)) key below)) := by
  induction front generalizing fields first rest with
  | nil =>
    obtain ⟨rfl, rfl⟩ := List.cons.inj cut
    rw [set_eq_insert]
    refine ⟨overlay (fields.lookup first) (nest rest value), ?_, rfl⟩
    rw [List.nil_append, Value.lookup_singleton, insert, lookup_update_self]
  | cons name front ih =>
    obtain ⟨rfl, further⟩ := List.cons.inj cut
    cases rest with
    | nil => simp at further
    | cons next rest =>
      obtain ⟨below, there, here⟩ := ih (within (fields.lookup first)) further
      rw [set_cons, List.cons_append, Value.lookup_cons, Value.lookup_cons, lookup_update_self, Option.bind_some,
        Option.bind_some]
      rw [within_lookup, ← Value.lookup_cons] at here
      exact ⟨below, there, here⟩

/-- An element more is set in the place of what stands there. -/
private theorem appendAt_eq_set (value : Value) (fields : Object) (key : String) (rest : List String) :
    appendAt value fields key rest =
      set fields ⟨key, rest⟩ (grow value ((Value.object fields).lookup (key :: rest))) := by
  induction rest generalizing fields key with
  | nil =>
    rw [appendAt, update_eq_insert, set_eq_insert, Value.lookup_singleton]
    exact congrArg (insert fields key) (overlay_of_not_object (isObject_grow _ _)).symm
  | cons next rest ih =>
    rw [appendAt_cons, set_cons, Value.lookup_cons]
    refine update_congr (congrArg Value.object ?_)
    rw [ih, lookup_within]

/-- To add an element is to set what comes of it: the array that stands there with one element more, a
concatenation of any other value and an array of the element, or that array where nothing stands. Both
make the same object. That stands at the path in it, each object on the way differs from what was there
in one field, and at every other path stands what stood there, unless one of the two begins the other. -/
theorem append_is_set (fields : Object) (path : KeyPath) (value : Value) :
    let grown : Value :=
      match (Value.object fields).lookup path.toList with
      | some (.array items) => .array (items ++ [value])
      | some other => .concat [other, .array [value]]
      | none => .array [value]
    fields.append path value = fields.set path grown ∧
      (Value.object (fields.append path value)).lookup path.toList = some grown ∧
      (∀ front key behind, path.toList = front ++ key :: behind → ∃ below,
        (Value.object (fields.append path value)).lookup (front ++ [key]) = some below ∧
          (Value.object (fields.append path value)).lookup front =
            some (.object (insert (within ((Value.object fields).lookup front)) key below))) ∧
      ∀ other, ¬path.toList <+: other → ¬other <+: path.toList →
        (Value.object (fields.append path value)).lookup other = (Value.object fields).lookup other := by
  intro grown
  have same : fields.append path value = fields.set path grown := appendAt_eq_set value fields path.first path.rest
  refine ⟨same, ?_, fun front key behind cut => ?_, fun other ahead beyond => ?_⟩
  · exact lookup_appendAt_self value fields path.first path.rest
  · rw [same]
    exact lookup_set_front fields grown cut
  · exact lookup_appendAt_of_misses (Entry.apart_of_path value (.inr rfl) ahead beyond) fields

/-- A text on the way makes room, and keeps its place. -/
example : Object.append [("a", .text "1"), ("b", .null)] ⟨"a", ["x"]⟩ (.text "2") =
    [("a", .object [("x", .array [.text "2"])]), ("b", .null)] := rfl

end Object
end Hocon
