import Hocon.Entry

namespace Hocon.Value

mutual

/-- No object in the value has two fields of one key. -/
def keysDistinct : Value → Bool
  | .object fields => decide (Object.keys fields).Nodup && fieldsKeysDistinct fields
  | .array items => itemsKeysDistinct items
  | .text _ | .null | .reference _ => true
  | .concat pieces => itemsKeysDistinct pieces

def fieldsKeysDistinct : List (String × Value) → Bool
  | [] => true
  | (_, value) :: rest => value.keysDistinct && fieldsKeysDistinct rest

def itemsKeysDistinct : List Value → Bool
  | [] => true
  | value :: rest => value.keysDistinct && itemsKeysDistinct rest

end

theorem fieldsKeysDistinct_eq (fields : Object) :
    fieldsKeysDistinct fields = fields.all (·.2.keysDistinct) := by
  induction fields with
  | nil => rfl
  | cons field rest ih => obtain ⟨key, value⟩ := field; simp [fieldsKeysDistinct, ih]

theorem itemsKeysDistinct_eq (items : List Value) : itemsKeysDistinct items = items.all keysDistinct := by
  induction items with
  | nil => rfl
  | cons value rest ih => simp [itemsKeysDistinct, ih]

theorem keysDistinct_object {fields : Object} (distinct : (object fields).keysDistinct = true) :
    (Object.keys fields).Nodup ∧ ∀ field ∈ fields, field.2.keysDistinct = true := by
  simpa [keysDistinct, fieldsKeysDistinct_eq] using distinct

/-- A field found under its key is distinct in its keys as its object is. -/
theorem keysDistinct_of_lookup {fields : Object} {key : String} {value : Value}
    (distinct : (object fields).keysDistinct = true) (found : fields.lookup key = some value) :
    value.keysDistinct = true := by
  obtain ⟨before, after, same, _⟩ := List.lookup_eq_some_iff.mp found
  exact (keysDistinct_object distinct).2 (key, value) (by simp [same])

end Hocon.Value

namespace Hocon.Object

private theorem update_of_notMem {fields : Object} {key : String} {change : Option Value → Value}
    (fresh : key ∉ keys fields) : update fields key change = fields ++ [(key, change none)] := by
  induction fields with
  | nil => rfl
  | cons field rest ih =>
    obtain ⟨name, value⟩ := field
    have different : name ≠ key := by
      rintro rfl
      exact fresh List.mem_cons_self
    have absent : key ∉ keys rest := fun member => fresh (List.mem_cons_of_mem name member)
    simp [update, different, ih absent]

theorem overlay_none (value : Value) : overlay none value = value := by
  cases value <;> rfl

/-- Nested objects tell the keys that lead to a text. -/
theorem nest_text_inj {first second : List String} {text : String}
    (same : nest first (.text text) = nest second (.text text)) : first = second := by
  induction first generalizing second with
  | nil =>
    cases second with
    | nil => rfl
    | cons key second => cases same
  | cons key first ih =>
    cases second with
    | nil => cases same
    | cons other second =>
      simp only [nest, List.foldr_cons, Value.object.injEq, List.cons.injEq, Prod.mk.injEq, and_true] at same
      rw [same.1, ih same.2]

/-- One assignment alone makes an object for each key of its path. -/
theorem build_assign (path : KeyPath) (value : Value) :
    Entry.build [.assign path value] = [(path.first, nest path.rest value)] :=
  congrArg (fun value => [(path.first, value)]) (overlay_none _)

private theorem set_of_notMem {fields : Object} {key : String} (value : Value) (fresh : key ∉ keys fields) :
    fields.set ⟨key, []⟩ value = fields ++ [(key, value)] := by
  have whole : fields.set ⟨key, []⟩ value = update fields key fun old => overlay old value := rfl
  rw [whole, update_of_notMem fresh, overlay_none]

/-- An assignment for each field. -/
def entries (fields : Object) : List Entry := fields.map fun field => .assign ⟨field.1, []⟩ field.2

private theorem foldl_apply_entries {fields base : Object} (distinct : (keys (base ++ fields)).Nodup) :
    fields.entries.foldl Entry.apply base = base ++ fields := by
  induction fields generalizing base with
  | nil => simp [entries]
  | cons field rest ih =>
    obtain ⟨key, value⟩ := field
    have fresh : key ∉ keys base := by
      intro member
      simp only [keys, List.map_append, List.map_cons] at distinct member
      exact (List.nodup_append.mp distinct).2.2 key member key List.mem_cons_self rfl
    have further : (keys ((base ++ [(key, value)]) ++ rest)).Nodup := by simpa using distinct
    have next := ih further
    simpa [entries, Entry.apply, set_of_notMem value fresh] using next

/-- An object is built again from its own fields. -/
theorem build_entries {fields : Object} (distinct : (keys fields).Nodup) :
    Entry.build fields.entries = fields := by
  have distinct : (keys ([] ++ fields)).Nodup := distinct
  exact foldl_apply_entries distinct

end Hocon.Object
