import Hocon.Proofs.Keys
import Hocon.Proofs.Run
import Hocon.Resolution

/-! Meanings. A meaning says what each reference stands for; under it a value becomes the
value that is left when every reference is replaced. A document asks of a meaning that
each reference stands for what is found at its path, or outside the document. -/
namespace Hocon

/-- What each reference stands for, if for anything. -/
abbrev Meaning := Reference → Option Value

namespace Value

mutual

/-- The value under a meaning: what stands for nothing leaves its object, its array or its
concatenation, and a concatenation of nothing is nothing itself. -/
def evaluate (meaning : Meaning) : Value → Except Fault (Option Value)
  | .reference target => .ok (meaning target)
  | .concat pieces => do joinResolved (← evaluateItems meaning pieces)
  | .object fields => return some (.object (← evaluateFields meaning fields))
  | .array elements => return some (.array ((← evaluateItems meaning elements).filterMap id))
  | .text content => .ok (some (.text content))
  | .null => .ok (some .null)

def evaluateFields (meaning : Meaning) : List (String × Value) → Except Fault Object
  | [] => .ok []
  | (key, field) :: rest => do
    let first ← field.evaluate meaning
    let others ← evaluateFields meaning rest
    return first.toList.map (key, ·) ++ others

def evaluateItems (meaning : Meaning) : List Value → Except Fault (List (Option Value))
  | [] => .ok []
  | element :: rest => do
    let first ← element.evaluate meaning
    let others ← evaluateItems meaning rest
    return first :: others

end

/-- An outcome that depends on a meaning only in what it says of some references. -/
def Reads {α : Type} (references : List Reference) (outcome : Meaning → α) : Prop :=
  ∀ first second : Meaning, (∀ reference ∈ references, first reference = second reference) →
    outcome first = outcome second

mutual

theorem evaluate_reads (value : Value) : Reads value.references (evaluate · value) := by
  intro first second same
  cases value with
  | reference target => simp [evaluate, same target (by simp [references])]
  | concat pieces => simp only [evaluate, evaluateItems_reads pieces first second same]
  | object fields => simp only [evaluate, evaluateFields_reads fields first second same]
  | array items => simp only [evaluate, evaluateItems_reads items first second same]
  | text content => rfl
  | null => rfl

theorem evaluateFields_reads (fields : List (String × Value)) :
    Reads (fieldReferences fields) (evaluateFields · fields) := by
  intro first second same
  match fields with
  | [] => rfl
  | (key, field) :: rest =>
    simp only [fieldReferences, List.mem_append] at same
    simp only [evaluateFields, evaluate_reads field first second (fun _ member => same _ (.inl member)),
      evaluateFields_reads rest first second (fun _ member => same _ (.inr member))]

theorem evaluateItems_reads (items : List Value) :
    Reads (itemReferences items) (evaluateItems · items) := by
  intro first second same
  match items with
  | [] => rfl
  | element :: rest =>
    simp only [itemReferences, List.mem_append] at same
    simp only [evaluateItems, evaluate_reads element first second (fun _ member => same _ (.inl member)),
      evaluateItems_reads rest first second (fun _ member => same _ (.inr member))]

end

mutual

/-- A value in which nothing is pending means itself. -/
theorem evaluate_of_resolved (meaning : Meaning) (value : Value)
    (resolved : value.containsPending = false) : value.evaluate meaning = .ok (some value) := by
  cases value with
  | object fields =>
    simp [evaluate, evaluateFields_of_resolved meaning fields resolved, pure, Except.pure, bind,
      Except.bind]
  | array items =>
    simp [evaluate, evaluateItems_of_resolved meaning items resolved, pure, Except.pure, bind,
      Except.bind, List.filterMap_map]
  | text content => rfl
  | null => rfl
  | reference target => simp [containsPending] at resolved
  | concat pieces => simp [containsPending] at resolved

private theorem evaluateFields_of_resolved (meaning : Meaning) (fields : List (String × Value))
    (resolved : fieldsContainPending fields = false) : evaluateFields meaning fields = .ok fields := by
  match fields with
  | [] => rfl
  | (key, field) :: rest =>
    simp only [fieldsContainPending, Bool.or_eq_false_iff] at resolved
    simp [evaluateFields, evaluate_of_resolved meaning field resolved.1,
      evaluateFields_of_resolved meaning rest resolved.2, bind, Except.bind, pure, Except.pure]

private theorem evaluateItems_of_resolved (meaning : Meaning) (items : List Value)
    (resolved : itemsContainPending items = false) :
    evaluateItems meaning items = .ok (items.map some) := by
  match items with
  | [] => rfl
  | element :: rest =>
    simp only [itemsContainPending, Bool.or_eq_false_iff] at resolved
    simp [evaluateItems, evaluate_of_resolved meaning element resolved.1,
      evaluateItems_of_resolved meaning rest resolved.2, bind, Except.bind, pure, Except.pure]

end

mutual

theorem references_of_resolved (value : Value) (resolved : value.containsPending = false) :
    value.references = [] := by
  cases value with
  | object fields => exact fieldReferences_of_resolved fields resolved
  | array items => exact itemReferences_of_resolved items resolved
  | text content => rfl
  | null => rfl
  | reference target => simp [containsPending] at resolved
  | concat pieces => simp [containsPending] at resolved

private theorem fieldReferences_of_resolved (fields : List (String × Value))
    (resolved : fieldsContainPending fields = false) : fieldReferences fields = [] := by
  match fields with
  | [] => rfl
  | (key, field) :: rest =>
    simp only [fieldsContainPending, Bool.or_eq_false_iff] at resolved
    simp [fieldReferences, references_of_resolved field resolved.1,
      fieldReferences_of_resolved rest resolved.2]

private theorem itemReferences_of_resolved (items : List Value)
    (resolved : itemsContainPending items = false) : itemReferences items = [] := by
  match items with
  | [] => rfl
  | element :: rest =>
    simp only [itemsContainPending, Bool.or_eq_false_iff] at resolved
    simp [itemReferences, references_of_resolved element resolved.1,
      itemReferences_of_resolved rest resolved.2]

end

/-- What a path leads to under a meaning: the path is followed as far as something pending,
and goes on in what that means. -/
def find (meaning : Meaning) (source : Value) (path : List String) : Except Fault (Option Value) :=
  match source.reach path with
  | some (node, rest) => do
    let whole ← node.evaluate meaning
    return whole.bind (·.lookup rest)
  | none => return none

private theorem lookup_evaluateFields {meaning : Meaning} {fields left : Object} (key : String)
    (distinct : (Object.keys fields).Nodup) (done : evaluateFields meaning fields = .ok left) :
    match fields.lookup key with
    | some field => field.evaluate meaning = .ok (left.lookup key)
    | none => left.lookup key = none := by
  induction fields generalizing left with
  | nil => cases done; rfl
  | cons field rest ih =>
    obtain ⟨name, value⟩ := field
    obtain ⟨absent, distinctRest⟩ := List.nodup_cons.mp distinct
    obtain ⟨result, first, done⟩ := ok_of_bind done
    obtain ⟨remaining, others, done⟩ := ok_of_bind done
    cases done
    have further := ih distinctRest others
    by_cases found : key = name
    · subst found
      have missing : rest.lookup key = none := by
        rw [List.lookup_eq_none_iff]
        intro entry member
        have other : entry.1 ≠ key := fun same => absent (List.mem_map.mpr ⟨entry, member, same⟩)
        simpa using other.symm
      rw [missing] at further
      cases result <;> simp [first, further]
    · have apart : (key == name) = false := by simpa using found
      simp only [List.lookup_cons, apart]
      cases result <;> simpa [List.lookup_cons, apart] using further

/-- What a path leads to in an evaluated document is what it leads to in the document. -/
theorem find_of_evaluate {meaning : Meaning} {source : Value} {result : Option Value}
    (path : List String) (distinct : source.keysDistinct = true)
    (done : source.evaluate meaning = .ok result) :
    find meaning source path = .ok (result.bind (·.lookup path)) := by
  induction path generalizing source result with
  | nil => simp [find, reach, done, bind, Except.bind, pure, Except.pure]
  | cons key rest ih =>
    cases source with
    | reference target => simp [find, reach, isPending, kind, done, bind, Except.bind, pure, Except.pure]
    | concat pieces => simp [find, reach, isPending, kind, done, bind, Except.bind, pure, Except.pure]
    | text content => cases done; simp [find, reach, isPending, kind, lookup, pure, Except.pure]
    | null => cases done; simp [find, reach, isPending, kind, lookup, pure, Except.pure]
    | array items =>
      obtain ⟨left, _, done⟩ := ok_of_bind done
      cases done
      simp [find, reach, isPending, kind, lookup, pure, Except.pure]
    | object fields =>
      obtain ⟨left, inside, done⟩ := ok_of_bind done
      cases done
      have below := lookup_evaluateFields key (keysDistinct_object distinct).1 inside
      cases found : fields.lookup key with
      | none =>
        rw [found] at below
        simp [find, reach, found, lookup, below, pure, Except.pure]
      | some next =>
        rw [found] at below
        have further := ih (keysDistinct_of_lookup distinct found) below
        simp only [find, reach, found] at further ⊢
        rw [further]
        cases deeper : left.lookup key <;> simp [lookup, deeper]

end Value

namespace Reference

/-- What a reference stands for when its path has led to something, or has not: then the
environment is asked, and if that is silent too only an optional reference stands for nothing. -/
def settle (environment : Environment) (reference : Reference) :
    Option Value → Except Fault (Option Value)
  | some found => .ok (some found)
  | none =>
    match environment reference.dotted with
    | some content => .ok (some (.text content))
    | none =>
      if reference.optional then .ok none
      else .error (.unresolved reference.dotted reference.place)

/-- What a reference has to stand for in a document under a meaning. -/
def denote (environment : Environment) (source : Value) (meaning : Meaning) (reference : Reference) :
    Except Fault (Option Value) :=
  source.find meaning reference.path >>= reference.settle environment

end Reference

/-- Every reference of the document stands for what it has to stand for. -/
def Meaning.Fits (environment : Environment) (source : Value) (meaning : Meaning) : Prop :=
  ∀ reference ∈ source.references,
    reference.denote environment source meaning = .ok (meaning reference)

end Hocon
