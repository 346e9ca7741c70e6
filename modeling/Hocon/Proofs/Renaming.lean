import Hocon.Proofs.Grammar.Acceptance
import Hocon.Proofs.Keys

namespace Hocon

variable (f : Reference → Reference)

namespace Value

mutual

/-- The value with each reference replaced. -/
def rename : Value → Value
  | .object fields => .object (renameFields fields)
  | .array items => .array (renameItems items)
  | .text content => .text content
  | .null => .null
  | .reference target => .reference (f target)
  | .concat pieces => .concat (renameItems pieces)

def renameFields : List (String × Value) → List (String × Value)
  | [] => []
  | (key, value) :: rest => (key, value.rename) :: renameFields rest

def renameItems : List Value → List Value
  | [] => []
  | value :: rest => value.rename :: renameItems rest

end

theorem renameItems_eq (items : List Value) : renameItems f items = items.map (rename f) := by
  induction items with
  | nil => rfl
  | cons value rest ih => rw [renameItems, ih, List.map_cons]

@[simp] theorem kind_rename (value : Value) : (value.rename f).kind = value.kind := by
  cases value <;> rfl

@[simp] theorem isObject_rename (value : Value) : (value.rename f).isObject = value.isObject := by
  rw [isObject, kind_rename, isObject]

@[simp] theorem isArray_rename (value : Value) : (value.rename f).isArray = value.isArray := by
  rw [isArray, kind_rename, isArray]

@[simp] theorem isReference_rename (value : Value) : (value.rename f).isReference = value.isReference := by
  rw [isReference, kind_rename, isReference]

@[simp] theorem isBlank_rename (value : Value) : (value.rename f).isBlank = value.isBlank := by
  cases value <;> rfl

mutual

/-- Where nothing is pending there is nothing to rename. -/
theorem rename_of_resolved (value : Value) (resolved : value.containsPending = false) :
    value.rename f = value := by
  cases value with
  | object fields => exact congrArg object (renameFields_of_resolved fields resolved)
  | array items => exact congrArg array (renameItems_of_resolved items resolved)
  | text content => rfl
  | null => rfl
  | reference target => cases resolved
  | concat pieces => cases resolved

private theorem renameFields_of_resolved (fields : List (String × Value))
    (resolved : fieldsContainPending fields = false) : renameFields f fields = fields := by
  match fields with
  | [] => rfl
  | (key, value) :: rest =>
    obtain ⟨first, others⟩ := Bool.or_eq_false_iff.mp resolved
    rw [renameFields, rename_of_resolved value first, renameFields_of_resolved rest others]

private theorem renameItems_of_resolved (items : List Value) (resolved : itemsContainPending items = false) :
    renameItems f items = items := by
  match items with
  | [] => rfl
  | value :: rest =>
    obtain ⟨first, others⟩ := Bool.or_eq_false_iff.mp resolved
    rw [renameItems, rename_of_resolved value first, renameItems_of_resolved rest others]

end

mutual

@[simp] theorem containsPending_rename (value : Value) :
    (value.rename f).containsPending = value.containsPending := by
  cases value with
  | object fields => exact fieldsContainPending_rename fields
  | array items => exact itemsContainPending_rename items
  | text content => rfl
  | null => rfl
  | reference target => rfl
  | concat pieces => rfl

private theorem fieldsContainPending_rename (fields : List (String × Value)) :
    fieldsContainPending (renameFields f fields) = fieldsContainPending fields := by
  match fields with
  | [] => rfl
  | (key, value) :: rest =>
    rw [renameFields, fieldsContainPending, containsPending_rename value, fieldsContainPending_rename rest,
      fieldsContainPending]

private theorem itemsContainPending_rename (items : List Value) :
    itemsContainPending (renameItems f items) = itemsContainPending items := by
  match items with
  | [] => rfl
  | value :: rest =>
    rw [renameItems, itemsContainPending, containsPending_rename value, itemsContainPending_rename rest,
      itemsContainPending]

end

end Value

namespace Object

open Value (renameFields renameItems rename)

private theorem rename_update {change again : Option Value → Value}
    (same : ∀ old, (change old).rename f = again (old.map (rename f))) (fields : Object) (key : String) :
    renameFields f (update fields key change) = update (renameFields f fields) key again := by
  induction fields with
  | nil =>
    have first := same none
    simp [update, renameFields, first]
  | cons field rest ih =>
    obtain ⟨name, value⟩ := field
    by_cases found : name = key
    · have here := same (some value)
      simp [update, renameFields, found, here]
    · simp [update, renameFields, found, ih]

mutual

theorem rename_merge (base : Object) (incoming : List (String × Value)) :
    renameFields f (merge base incoming) = merge (renameFields f base) (renameFields f incoming) := by
  cases incoming with
  | nil => simp [merge, renameFields]
  | cons field rest =>
    obtain ⟨key, value⟩ := field
    have laid : renameFields f (update base key fun old => overlay old value) =
        update (renameFields f base) key fun old => overlay old (value.rename f) :=
      rename_update f (fun old => rename_overlay old value) base key
    rw [merge, rename_merge _ rest, laid, renameFields, merge]

private theorem rename_overlay (old : Option Value) (value : Value) :
    (overlay old value).rename f = overlay (old.map (rename f)) (value.rename f) := by
  cases value with
  | object incoming =>
    match old with
    | some (.object base) => exact congrArg Value.object (rename_merge base incoming)
    | none | some (.array _) | some (.text _) | some .null | some (.reference _) | some (.concat _) => rfl
  | array | text | null | reference | concat => rfl

end

private theorem rename_nest (keys : List String) (value : Value) :
    (nest keys value).rename f = nest keys (value.rename f) := by
  induction keys with
  | nil => rfl
  | cons key keys ih =>
    have inside := congrArg (fun inner => Value.object [(key, inner)]) ih
    exact inside

private theorem rename_grow (value : Value) (old : Option Value) :
    (grow value old).rename f = grow (value.rename f) (old.map (rename f)) := by
  match old with
  | some (.array items) => simp [grow, rename, Value.renameItems_eq]
  | none | some (.object _) | some (.text _) | some .null | some (.reference _) | some (.concat _) =>
    simp [grow, rename, renameItems]

private theorem rename_appendAt (value : Value) (fields : Object) (key : String) (keys : List String) :
    renameFields f (appendAt value fields key keys) =
      appendAt (value.rename f) (renameFields f fields) key keys := by
  induction keys generalizing fields key with
  | nil => exact rename_update f (rename_grow f value) fields key
  | cons next keys ih =>
    refine rename_update f (fun old => ?_) fields key
    match old with
    | some (.object inner) => exact congrArg Value.object (ih inner next)
    | none | some (.array _) | some (.text _) | some .null | some (.reference _) | some (.concat _) =>
      exact congrArg Value.object (ih [] next)

end Object

namespace Entry

open Value (renameFields)

/-- The entry with each reference in its value replaced. -/
def rename : Entry → Entry
  | .assign path value => .assign path (value.rename f)
  | .append path value => .append path (value.rename f)
  | .included fields => .included (renameFields f fields)

private theorem rename_apply (fields : Object) (entry : Entry) :
    renameFields f (apply fields entry) = apply (renameFields f fields) (entry.rename f) := by
  cases entry with
  | assign path value =>
    have laid := Object.rename_merge f fields [(path.first, Object.nest path.rest value)]
    rw [renameFields, renameFields, Object.rename_nest] at laid
    exact laid
  | append path value => exact Object.rename_appendAt f value fields path.first path.rest
  | included incoming => exact Object.rename_merge f fields incoming

theorem rename_foldl_apply (fields : Object) (entries : List Entry) :
    renameFields f (entries.foldl apply fields) =
      (entries.map (rename f)).foldl apply (renameFields f fields) := by
  induction entries generalizing fields with
  | nil => rfl
  | cons entry entries ih => rw [List.foldl_cons, ih, rename_apply, List.map_cons, List.foldl_cons]

theorem rename_build (entries : List Entry) : renameFields f (build entries) = build (entries.map (rename f)) :=
  rename_foldl_apply f [] entries

end Entry

namespace Value

private theorem rename_append (first second : Value) :
    (append first second).map (rename f) = append (first.rename f) (second.rename f) := by
  cases first <;> cases second
  case object.object base incoming =>
    exact congrArg (fun fields => Except.ok (object fields)) (Object.rename_merge f base incoming)
  case array.array items more => simp [append, rename, Except.map, renameItems_eq]
  all_goals rfl

private theorem rename_foldlM (first : Value) (rest : List Value) :
    (rest.foldlM append first).map (rename f) = (rest.map (rename f)).foldlM append (first.rename f) := by
  induction rest generalizing first with
  | nil => rfl
  | cons next rest ih =>
    have met := rename_append f first next
    rw [List.foldlM_cons, List.map_cons, List.foldlM_cons, ← met]
    cases append first next with
    | error fault => rfl
    | ok both => exact ih both

private theorem rename_significant (pieces : List Value) :
    (significant pieces).map (rename f) = significant (pieces.map (rename f)) := by
  have same : ((pieces.map (rename f)).any fun piece => piece.isObject || piece.isArray) =
      pieces.any fun piece => piece.isObject || piece.isArray := by
    simp [List.any_map, Function.comp_def]
  rw [significant, significant, same]
  split
  · simp [List.filter_map, Function.comp_def]
  · rfl

private theorem rename_concatenate (pieces : List Value) :
    (concatenate pieces).map (rename f) = concatenate (pieces.map (rename f)) := by
  rw [concatenate, concatenate, ← rename_significant]
  cases significant pieces with
  | nil => rfl
  | cons first rest => exact rename_foldlM f first rest

end Value

open Value (rename)

theorem joinPieces_rename (bare : Bool) (pieces : List Value) :
    (joinPieces bare pieces).map (rename f) = joinPieces bare (pieces.map (rename f)) := by
  have any : (pieces.map (rename f)).any Value.isReference = pieces.any Value.isReference := by
    simp [List.any_map, Function.comp_def]
  match pieces with
  | [] => exact Value.rename_concatenate f []
  | [piece] =>
    by_cases null : piece = .text "null"
    · subst null
      cases bare <;> rfl
    · have other : piece.rename f ≠ .text "null" := by
        intro same
        cases piece <;> cases same
        exact null rfl
      rw [joinPieces_alone fun _ => null, List.map_singleton, joinPieces_alone fun _ => other]
      rfl
  | first :: second :: rest =>
    rw [Grammar.joinPieces_several, List.map_cons, List.map_cons, Grammar.joinPieces_several,
      ← List.map_cons, ← List.map_cons, any]
    split
    · simp [Except.map, rename, Value.renameItems_eq]
    · exact Value.rename_concatenate f _

end Hocon
