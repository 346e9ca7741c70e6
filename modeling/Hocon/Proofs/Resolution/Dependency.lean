import Hocon.Proofs.Resolution.Meaning
import Mathlib.Logic.Relation

namespace Hocon

namespace Value

/-- Keys followed from a value through objects stop where they end, or before that at the
first value that is pending, with the keys that are left. -/
inductive Stops : Value → List String → Value → List String → Prop where
  | arrived {value : Value} : Stops value [] value []
  | pending {value : Value} {key : String} {rest : List String} (waits : value.isPending = true) :
      Stops value (key :: rest) value (key :: rest)
  | field {fields : Object} {key : String} {rest left : List String} {next node : Value}
      (found : fields.lookup key = some next) (further : Stops next rest node left) :
      Stops (.object fields) (key :: rest) node left

private theorem reach_of_stops {value node : Value} {keys left : List String}
    (stops : Stops value keys node left) : value.reach keys = some (node, left) := by
  induction stops with
  | arrived => rw [reach]
  | @pending value key rest waits =>
    cases value <;> simp_all [reach, isPending, kind]
  | field found _ ih => simp [reach, found, ih]

theorem stops_of_reach {value node : Value} {keys left : List String}
    (reached : value.reach keys = some (node, left)) : Stops value keys node left := by
  induction keys generalizing value with
  | nil =>
    rw [reach] at reached
    cases reached
    exact .arrived
  | cons key rest ih =>
    cases value with
    | object fields =>
      cases found : fields.lookup key with
      | none => simp [reach, found] at reached
      | some next => exact .field found (ih (by simpa [reach, found] using reached))
    | reference target =>
      simp only [reach, isPending, kind] at reached
      cases reached
      exact .pending rfl
    | concat pieces =>
      simp only [reach, isPending, kind] at reached
      cases reached
      exact .pending rfl
    | _ => simp [reach, isPending, kind] at reached

private theorem stops_iff_reach {value node : Value} {keys left : List String} :
    Stops value keys node left ↔ value.reach keys = some (node, left) :=
  ⟨reach_of_stops, stops_of_reach⟩

/-- What pends where keys stop pends in the value that they are followed from. -/
theorem references_of_stops {value node : Value} {keys left : List String}
    (stops : Stops value keys node left) : node.references ⊆ value.references := by
  induction stops with
  | arrived => exact List.Subset.refl _
  | pending _ => exact List.Subset.refl _
  | @field fields key _ _ next node found _ ih =>
    obtain ⟨before, after, same, _⟩ := List.lookup_eq_some_iff.mp found
    intro reference member
    rw [references, fieldReferences_eq]
    exact List.mem_flatMap.mpr ⟨(key, next), by simp [same], ih member⟩

end Value

/-- One live reference waits for another, which pends where the path of the first stops. -/
def Refers (source : Value) (reference other : Reference) : Prop :=
  reference ∈ source.references ∧
    ∃ node left, Value.Stops source reference.path node left ∧ other ∈ node.references

theorem Refers.live {source : Value} {reference other : Reference}
    (refers : Refers source reference other) : other ∈ source.references := by
  obtain ⟨_, node, left, stops, member⟩ := refers
  exact Value.references_of_stops stops member

/-- Some reference waits for itself, at once or through others. -/
def Cyclic (source : Value) : Prop := ∃ reference, Relation.TransGen (Refers source) reference reference

/-- The references that one waits for. -/
def Reference.dependencies (source : Value) (reference : Reference) : List Reference :=
  match source.reach reference.path with
  | some (node, _) => node.references
  | none => []

theorem refers_iff {source : Value} {reference other : Reference} :
    Refers source reference other ↔
      reference ∈ source.references ∧ other ∈ reference.dependencies source := by
  simp only [Refers, Value.stops_iff_reach, Reference.dependencies]
  cases source.reach reference.path with
  | none => simp
  | some stop => obtain ⟨node, left⟩ := stop; simp

/-- What a reference has to stand for depends only on the references that it waits for. -/
theorem Reference.find_reads (source : Value) (reference : Reference) :
    Value.Reads (reference.dependencies source) (source.find · reference.path) := by
  intro first second same
  unfold Reference.dependencies at same
  simp only [Value.find]
  cases reached : source.reach reference.path with
  | none => rfl
  | some stop =>
    rw [reached] at same
    simp only [Value.evaluate_reads stop.1 first second same]

theorem Reference.denote_reads (environment : Environment) (source : Value) (reference : Reference) :
    Value.Reads (reference.dependencies source) (reference.denote environment source ·) := by
  intro first second same
  simp only [Reference.denote, Reference.find_reads source reference first second same]

/-- Nothing waits for itself if everything waits only for what ranks lower. -/
theorem not_cyclic_of_rank {source : Value} (rank : Reference → Nat)
    (falls : ∀ reference ∈ source.references, ∀ other ∈ reference.dependencies source,
      rank other < rank reference) : ¬ Cyclic source := by
  rintro ⟨reference, cycle⟩
  have lower : ∀ other, Relation.TransGen (Refers source) reference other → rank other < rank reference := by
    intro other path
    induction path with
    | single refers => exact falls _ (refers_iff.mp refers).1 _ (refers_iff.mp refers).2
    | tail _ refers ih => exact Nat.lt_trans (falls _ (refers_iff.mp refers).1 _ (refers_iff.mp refers).2) ih
  exact Nat.lt_irrefl _ (lower reference cycle)

/-- Nothing waits for itself if all waiting comes to an end. -/
theorem not_cyclic_of_acc {source : Value}
    (grounded : ∀ reference ∈ source.references,
      Acc (fun other waiting => Refers source waiting other) reference) :
    ¬ Cyclic source := by
  rintro ⟨reference, cycle⟩
  have accessible : Acc (fun other waiting => Refers source waiting other) reference := by
    obtain ⟨next, refers, _⟩ := Relation.TransGen.head'_iff.mp cycle
    exact grounded reference refers.1
  induction accessible with
  | intro reference _ ih =>
    obtain ⟨next, refers, further⟩ := Relation.TransGen.head'_iff.mp cycle
    exact ih next refers (Relation.TransGen.tail' further refers)

end Hocon
