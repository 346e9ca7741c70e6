import Hocon.Environment
import Hocon.Session
import Hocon.Value.Concat

/-! Resolving references. A reference stands for the value at its path in the document
itself, else for the environment variable of that name, else, if it is optional, for
nothing: it leaves its concatenation, its array, or the object of its field. -/
namespace Hocon

/-- What references have been found to stand for, by their number. -/
abbrev Memo := List (Nat × Option Value)

/-- A computation that looks up and records what references stand for. -/
abbrev Resolving := StateT Memo Run

namespace Value

/-- Follow keys through objects, as far as something pending: where that leads, and the
keys that are left. -/
def reach (value : Value) : List String → Option (Value × List String)
  | [] => some (value, [])
  | key :: rest =>
    match value with
    | .object fields =>
      match fields.lookup key with
      | some next => next.reach rest
      | none => none
    | other => if other.isPending then some (other, key :: rest) else none

/-- A concatenation of resolved pieces, those left out being `none`. Nothing is left of
it if blanks alone remain beside a piece left out. -/
def joinResolved (pieces : List (Option Value)) : Except Fault (Option Value) :=
  let defined := pieces.filterMap id
  if defined.isEmpty || (pieces.any Option.isNone && defined.all isBlank) then .ok none
  else (concatenate defined).map some

end Value

namespace Resolution

/-- The numbers but for one. -/
def without (available : List Nat) (id : Nat) : List Nat := available.filter (· != id)

theorem length_without_lt {available : List Nat} {id : Nat} (member : id ∈ available) :
    (without available id).length < available.length := by
  apply List.length_filter_lt_length_iff_exists.mpr
  exact ⟨id, member, by simp⟩

mutual

/-- A value with everything pending in it replaced, or nothing. `target` says what a
reference stands for. -/
def value (target : Reference → Resolving (Option Value)) : Value → Resolving (Option Value)
  | .reference reference => target reference
  | .concat pieces => do
    let resolved ← items target pieces
    Run.ofExcept (Value.joinResolved resolved)
  | .object fields => return some (.object (← object target fields))
  | .array elements => return some (.array ((← items target elements).filterMap id))
  | .text content => return some (.text content)
  | .null => return some .null

/-- The fields of which something is left. -/
def object (target : Reference → Resolving (Option Value)) : List (String × Value) → Resolving Object
  | [] => return []
  | (key, field) :: rest => do
    let first ← value target field
    let others ← object target rest
    return first.toList.map (key, ·) ++ others

/-- Each of some values. -/
def items (target : Reference → Resolving (Option Value)) :
    List Value → Resolving (List (Option Value))
  | [] => return []
  | element :: rest => do
    let first ← value target element
    let others ← items target rest
    return first :: others

end

variable (environment : Environment) (source : Value)

/-- What a reference stands for outside the document. -/
def fallback (reference : Reference) : Resolving (Option Value) := do
  match environment reference.dotted with
  | some content =>
    Run.note (.fromEnvironment reference.dotted)
    return some (.text content)
  | none =>
    if reference.optional then return none
    else throw (.unresolved reference.dotted reference.place)

/-- What a reference stands for. Numbers are `available` as long as no search for what
they stand for is under way; a reference met inside its own search is a cycle. -/
def target (available : List Nat) (reference : Reference) : Resolving (Option Value) := do
  match (← get).lookup reference.id with
  | some known => return known
  | none =>
    if _member : reference.id ∈ available then
      let found ←
        match source.reach reference.path with
        | some (node, rest) => do
          let whole ← value (target (without available reference.id)) node
          pure (whole.bind (·.lookup rest))
        | none => pure none
      let result ←
        match found with
        | some result => pure (some result)
        | none => fallback environment reference
      Run.note (.resolved reference.dotted result.isSome)
      modify ((reference.id, result) :: ·)
      return result
    else throw (.referenceCycle reference.dotted)
termination_by available.length
decreasing_by exact length_without_lt _member

/-- Resolve the references of a list, then the value itself. -/
def whole (available : List Nat) (references : List Reference) : Resolving (Option Value) := do
  references.forM fun reference => discard (target environment source available reference)
  value (target environment source available) source

end Resolution

/-- Resolve a document against itself. References that were read but are gone from its
value, because later fields took their place, are not looked for. -/
def Root.resolve (environment : Environment) (root : Root) : Run Value := do
  if root.references.isEmpty && !root.value.containsPending then return root.value
  else
    let live := root.value.references.map (·.id)
    let references := root.references.filter fun reference => live.contains reference.id
    let (resolved, _) ← (Resolution.whole environment root.value live references).run []
    return resolved.getD (.object [])

end Hocon
