import Hocon.Document
import Hocon.Proofs.Run
import Mathlib.Data.List.Perm.Subperm

namespace Hocon

/-- The references in what may be there. -/
def Value.held (old : Option Value) : List Reference := (old.map references).getD []

private theorem subperm_of_count {used listed : List Reference}
    (fewer : ∀ reference, used.count reference ≤ listed.count reference) : used.Subperm listed :=
  List.subperm_ext_iff.mpr fun reference _ => fewer reference

namespace Object

open Value (fieldReferences itemReferences held)

/-- A field that is changed keeps to what it held and what is brought in. -/
private theorem fieldReferences_update {fields : Object} {key : String} {change : Option Value → Value}
    {more : List Reference}
    (changed : ∀ old, (change old).references.Subperm (held old ++ more)) :
    (fieldReferences (update fields key change)).Subperm (fieldReferences fields ++ more) := by
  induction fields with
  | nil => simpa [update, fieldReferences, held] using changed none
  | cons field rest ih =>
    obtain ⟨name, value⟩ := field
    refine subperm_of_count fun reference => ?_
    by_cases found : name = key
    · have here := (changed (some value)).count_le reference
      simp only [held, Option.map_some, Option.getD_some, List.count_append] at here
      simp only [update, if_pos found, fieldReferences, List.count_append]
      omega
    · have behind := ih.count_le reference
      simp only [List.count_append] at behind
      simp only [update, if_neg found, fieldReferences, List.count_append]
      omega

mutual

theorem fieldReferences_merge (base incoming : Object) :
    (fieldReferences (merge base incoming)).Subperm (fieldReferences base ++ fieldReferences incoming) := by
  cases incoming with
  | nil => simp [merge, fieldReferences, List.Subperm.refl]
  | cons field rest =>
    obtain ⟨key, value⟩ := field
    have laid : (fieldReferences (update base key fun old => overlay old value)).Subperm
        (fieldReferences base ++ value.references) :=
      fieldReferences_update fun old => references_overlay old value
    have merged := fieldReferences_merge (update base key fun old => overlay old value) rest
    refine subperm_of_count fun reference => ?_
    have first := laid.count_le reference
    have others := merged.count_le reference
    simp only [List.count_append] at first others
    simp only [merge, fieldReferences, List.count_append]
    omega

private theorem references_overlay (old : Option Value) (value : Value) :
    (overlay old value).references.Subperm (held old ++ value.references) := by
  cases value with
  | object incoming =>
    match old with
    | some (.object base) => exact fieldReferences_merge base incoming
    | none | some (.array _) | some (.text _) | some .null | some (.reference _) | some (.concat _) =>
      exact (List.sublist_append_right _ _).subperm
  | array | text | null | reference | concat => exact (List.sublist_append_right _ _).subperm

end

private theorem references_nest (keys : List String) (value : Value) :
    (nest keys value).references = value.references := by
  induction keys with
  | nil => rfl
  | cons key keys ih => simpa [nest, Value.references, fieldReferences] using ih

private theorem fieldReferences_set (fields : Object) (path : KeyPath) (value : Value) :
    (fieldReferences (fields.set path value)).Subperm (fieldReferences fields ++ value.references) := by
  have merged := fieldReferences_merge fields [(path.first, nest path.rest value)]
  simpa [set, mergeField, fieldReferences, references_nest] using merged

private theorem references_grow (value : Value) (old : Option Value) :
    (grow value old).references.Subperm (held old ++ value.references) := by
  have same : (grow value old).references = held old ++ value.references := by
    match old with
    | none => simp [grow, held, Value.references, itemReferences]
    | some (.array items) => simp [grow, held, Value.references, Value.itemReferences_eq]
    | some (.object _) | some (.text _) | some .null | some (.reference _) | some (.concat _) =>
      simp [grow, held, Value.references, itemReferences]
  rw [same]

private theorem fieldReferences_appendAt (value : Value) (fields : Object) (key : String) (keys : List String) :
    (fieldReferences (appendAt value fields key keys)).Subperm
      (fieldReferences fields ++ value.references) := by
  induction keys generalizing fields key with
  | nil => exact fieldReferences_update fun old => references_grow value old
  | cons next keys ih =>
    refine fieldReferences_update fun old => ?_
    split
    · exact ih _ next
    · have inside := ih [] next
      exact inside.trans (List.sublist_append_right _ _).subperm

end Object

namespace Entry

open Value (fieldReferences itemReferences)

/-- The references that an entry brings in. -/
def references : Entry → List Reference
  | .assign _ value | .append _ value => value.references
  | .included fields => fieldReferences fields

private theorem fieldReferences_apply (fields : Object) (entry : Entry) :
    (fieldReferences (apply fields entry)).Subperm (fieldReferences fields ++ entry.references) := by
  cases entry with
  | assign path value => exact Object.fieldReferences_set fields path value
  | append path value => exact Object.fieldReferences_appendAt value fields path.first path.rest
  | included incoming => exact Object.fieldReferences_merge fields incoming

theorem fieldReferences_build (entries : List Entry) :
    (fieldReferences (build entries)).Subperm (entries.flatMap references) := by
  have folded : ∀ fields : Object, (fieldReferences (entries.foldl apply fields)).Subperm
      (fieldReferences fields ++ entries.flatMap references) := by
    intro fields
    induction entries generalizing fields with
    | nil => simp [List.Subperm.refl]
    | cons entry entries ih =>
      refine subperm_of_count fun reference => ?_
      have first := (fieldReferences_apply fields entry).count_le reference
      have others := (ih (apply fields entry)).count_le reference
      simp only [List.count_append] at first others
      simp only [List.foldl_cons, List.flatMap_cons, List.count_append]
      omega
  simpa [build, fieldReferences] using folded []

end Entry

namespace Value

private theorem references_append {first second both : Value} (joined : append first second = .ok both) :
    both.references.Subperm (first.references ++ second.references) := by
  unfold append at joined
  split at joined <;> cases joined
  · simp [references]
  · simp [references, itemReferences_eq, List.Subperm.refl]
  · exact Object.fieldReferences_merge _ _

private theorem references_foldlM_append {first whole : Value} {rest : List Value}
    (joined : rest.foldlM append first = .ok whole) :
    whole.references.Subperm (first.references ++ itemReferences rest) := by
  induction rest generalizing first with
  | nil =>
    cases joined
    simp [itemReferences, List.Subperm.refl]
  | cons next rest ih =>
    rw [List.foldlM_cons] at joined
    obtain ⟨both, met, joined⟩ := ok_of_bind joined
    refine subperm_of_count fun reference => ?_
    have here := (references_append met).count_le reference
    have behind := (ih joined).count_le reference
    simp only [List.count_append] at here behind
    simp only [itemReferences, List.count_append]
    omega

private theorem itemReferences_of_sublist {pieces others : List Value} (fewer : pieces.Sublist others) :
    (itemReferences pieces).Sublist (itemReferences others) := by
  induction fewer with
  | slnil => exact .slnil
  | cons value fewer ih => exact ih.trans (List.sublist_append_right _ _)
  | cons_cons value fewer ih => exact ih.append_left value.references

private theorem itemReferences_significant (pieces : List Value) :
    (itemReferences (significant pieces)).Sublist (itemReferences pieces) := by
  unfold significant
  split
  · exact itemReferences_of_sublist List.filter_sublist
  · exact .refl _

private theorem references_concatenate {pieces : List Value} {whole : Value}
    (joined : concatenate pieces = .ok whole) : whole.references.Subperm (itemReferences pieces) := by
  refine List.Subperm.trans ?_ (itemReferences_significant pieces).subperm
  unfold concatenate at joined
  split at joined
  case h_1 none =>
    cases joined
    simp [references]
  case h_2 first rest some =>
    rw [some]
    exact references_foldlM_append joined

theorem references_joinPieces {bare : Bool} {pieces : List Value} {whole : Value}
    (joined : joinPieces bare pieces = .ok whole) : whole.references.Subperm (itemReferences pieces) := by
  unfold joinPieces at joined
  split at joined
  · cases joined
    split <;> simp [references]
  · cases joined
    simp [itemReferences, List.Subperm.refl]
  · split at joined
    · cases joined
      exact .refl _
    · exact references_concatenate joined

end Value
end Hocon
