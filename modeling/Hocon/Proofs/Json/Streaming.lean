import Hocon.Proofs.Loading

namespace Hocon

private theorem Json.enclose_compact (depth : Nat) (opening closing : Char) (elements : List (List Char)) :
    Layout.compact.enclose depth opening closing elements =
      opening :: [','].intercalate elements ++ [closing] := by
  cases elements with
  | nil => rfl
  | cons element others =>
    have unparted : (element :: others).map (Layout.compact.before (depth + 1) ++ ·) = element :: others :=
      List.map_id _
    rw [Layout.enclose, if_neg (List.cons_ne_nil element others), unparted, Layout.compact, List.append_nil]

namespace Value

/-- Elements with commas between them, and one in front unless they are the first. -/
def parted (first : Bool) (elements : List (List Char)) : List Char :=
  if first then [','].intercalate elements else elements.flatMap (',' :: ·)

private theorem parted_cons (first : Bool) (element : List Char) (others : List (List Char)) :
    parted first (element :: others) = (if first then [] else [',']) ++ element ++ parted false others := by
  cases first with
  | true => simpa [parted] using Json.intercalate_cons_eq_flatMap [','] id element others
  | false => rfl

mutual

/-- What is written straight is what the JSON value writes, and fails as that does. -/
private theorem stream_eq (depth : Nat) (value : Value) :
    value.stream = value.toJson.map (·.write .compact depth) := by
  cases value with
  | object fields =>
    rw [stream, toJson, streamFields_eq (depth + 1) true fields]
    cases fieldsToJson fields with
    | error fault => rfl
    | ok json => exact congrArg Except.ok (Json.enclose_compact depth '\x7b' '\x7d' _).symm
  | array items =>
    rw [stream, toJson, streamItems_eq (depth + 1) true items]
    cases itemsToJson items with
    | error fault => rfl
    | ok json => exact congrArg Except.ok (Json.enclose_compact depth '[' ']' _).symm
  | text content => rfl
  | null => rfl
  | reference target => rfl
  | concat pieces => rfl

private theorem streamFields_eq (depth : Nat) (first : Bool) (fields : Object) :
    streamFields first fields =
      (fieldsToJson fields).map fun json => parted first (Json.Value.writeFields .compact depth json) := by
  cases fields with
  | nil => cases first <;> rfl
  | cons field rest =>
    obtain ⟨key, value⟩ := field
    rw [streamFields, fieldsToJson, stream_eq depth value, streamFields_eq depth false rest]
    cases value.toJson with
    | error fault => rfl
    | ok json =>
      cases fieldsToJson rest with
      | error fault => rfl
      | ok others =>
        refine congrArg Except.ok (Eq.trans ?_ (parted_cons first _ _).symm)
        simp [Json.Layout.field, Json.Layout.compact]

private theorem streamItems_eq (depth : Nat) (first : Bool) (items : List Value) :
    streamItems first items =
      (itemsToJson items).map fun json => parted first (Json.Value.writeItems .compact depth json) := by
  cases items with
  | nil => cases first <;> rfl
  | cons value rest =>
    rw [streamItems, itemsToJson, stream_eq depth value, streamItems_eq depth false rest]
    cases value.toJson with
    | error fault => rfl
    | ok json =>
      cases itemsToJson rest with
      | error fault => rfl
      | ok others => exact congrArg Except.ok (parted_cons first _ _).symm

end

/-- The first part in document order that is pending. -/
def firstPending? (value : Value) : Option Value := value.parts.find? isPending

/-- What is reported of a pending value that is to be written. -/
def unwritten : Value → Fault
  | .reference target => .pendingReference target.dotted target.place
  | _ => .pendingConcat

private theorem firstPending?_of_resolved {value : Value} (resolved : value.containsPending = false) :
    value.firstPending? = none := by
  have settled := parts_of_resolved value resolved
  exact List.find?_eq_none.mpr fun part member => by simp [settled part member]

private theorem find?_behind {value : Value} (resolved : value.containsPending = false) (others : List Value) :
    (value.parts ++ others).find? isPending = others.find? isPending := by
  have none : value.parts.find? isPending = none := firstPending?_of_resolved resolved
  rw [List.find?_append, none, Option.none_or]

mutual

/-- The first pending part is what stops the way through the JSON value. -/
private theorem toJson_of_pending (value : Value) (pending : value.containsPending = true) :
    ∃ first, value.firstPending? = some first ∧ value.toJson = .error first.unwritten := by
  cases value with
  | object fields =>
    obtain ⟨first, found, failed⟩ := fieldsToJson_of_pending fields pending
    exact ⟨first, found, by rw [toJson, failed]; rfl⟩
  | array items =>
    obtain ⟨first, found, failed⟩ := itemsToJson_of_pending items pending
    exact ⟨first, found, by rw [toJson, failed]; rfl⟩
  | text content => cases pending
  | null => cases pending
  | reference target => exact ⟨_, rfl, rfl⟩
  | concat pieces => exact ⟨_, rfl, rfl⟩

private theorem fieldsToJson_of_pending (fields : Object) (pending : fieldsContainPending fields = true) :
    ∃ first, (fieldParts fields).find? isPending = some first ∧ fieldsToJson fields = .error first.unwritten := by
  cases fields with
  | nil => cases pending
  | cons field rest =>
    obtain ⟨key, value⟩ := field
    cases own : value.containsPending with
    | true =>
      obtain ⟨first, found, failed⟩ := toJson_of_pending value own
      have found : value.parts.find? isPending = some first := found
      exact ⟨first, by rw [fieldParts, List.find?_append, found]; rfl, by rw [fieldsToJson, failed]; rfl⟩
    | false =>
      obtain ⟨json, done, _⟩ := toJson_of_resolved value own
      rw [fieldsContainPending, own, Bool.false_or] at pending
      obtain ⟨first, found, failed⟩ := fieldsToJson_of_pending rest pending
      exact ⟨first, (find?_behind own _).trans found, by rw [fieldsToJson, done, failed]; rfl⟩

private theorem itemsToJson_of_pending (items : List Value) (pending : itemsContainPending items = true) :
    ∃ first, (itemParts items).find? isPending = some first ∧ itemsToJson items = .error first.unwritten := by
  cases items with
  | nil => cases pending
  | cons value rest =>
    cases own : value.containsPending with
    | true =>
      obtain ⟨first, found, failed⟩ := toJson_of_pending value own
      have found : value.parts.find? isPending = some first := found
      exact ⟨first, by rw [itemParts, List.find?_append, found]; rfl, by rw [itemsToJson, failed]; rfl⟩
    | false =>
      obtain ⟨json, done, _⟩ := toJson_of_resolved value own
      rw [itemsContainPending, own, Bool.false_or] at pending
      obtain ⟨first, found, failed⟩ := itemsToJson_of_pending rest pending
      exact ⟨first, (find?_behind own _).trans found, by rw [itemsToJson, done, failed]; rfl⟩

end

/-- Writing straight comes to what writing the JSON value comes to; a fault is carried as its text. -/
private theorem serialize_eq (value : Value) :
    value.serialize =
      match value.toJsonText with
      | .ok written => .ok written
      | .error fault => .error (.unwritable fault.message) := by
  rw [serialize, toJsonText, stream_eq 0]
  cases value.toJson <;> rfl

/-- A value is written straight just when it is written through its JSON value, and that just when
nothing in it is pending: then both texts are the same. Otherwise its first pending part in document
order is reported with number 501, and by the straight way as the line that would be shown of that. -/
theorem exports_agree (value : Value) :
    (value.serialize.isOk ↔ value.toJsonText.isOk) ∧ (value.toJsonText.isOk ↔ value.containsPending = false) ∧
      match value.firstPending? with
      | none => ∃ text, value.toJsonText = .ok text ∧ value.serialize = .ok text
      | some first => first.unwritten.code? = some 501 ∧ value.toJsonText = .error first.unwritten ∧
          value.serialize = .error (.unwritable first.unwritten.message) := by
  rw [serialize_eq]
  cases pending : value.containsPending with
  | false =>
    obtain ⟨json, done, _⟩ := toJson_of_resolved value pending
    have written : value.toJsonText = .ok json.compact := by rw [toJsonText, done]; rfl
    rw [written, firstPending?_of_resolved pending]
    exact ⟨.rfl, iff_of_true rfl rfl, _, rfl, rfl⟩
  | true =>
    obtain ⟨first, found, failed⟩ := toJson_of_pending value pending
    have refused : value.toJsonText = .error first.unwritten := by rw [toJsonText, failed]; rfl
    rw [refused, found]
    refine ⟨.rfl, iff_of_false Bool.false_ne_true Bool.noConfusion, ?_, rfl, rfl⟩
    cases first <;> rfl

/-- Pieces that wait stand in an array before a reference in a later field. -/
example : (Value.object [("a", .array [.text "1", .concat [.text "2", .null]]),
      ("b", .reference ⟨0, ["c"], false, ⟨1, 1⟩⟩)]).serialize =
    .error (.unwritable "[HOCON] Unresolved value: concatenation was never resolved Code: 501") := by
  decide +kernel

end Value
end Hocon
