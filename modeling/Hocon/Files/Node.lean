import Hocon.Files.Sorted

namespace Hocon.Files

/-- The names from a directory down. -/
abbrev Location := List String

/-- What may be done in a directory: tell what it holds, and go on from it by name. -/
structure Access where
  lists : Bool := true
  enters : Bool := true
deriving DecidableEq, Repr

inductive Node where
  | regular (content : ByteArray) (readable : Bool)
  | directory (held : List (String × Node)) (access : Access)

namespace Node

/-- A file that can be read. -/
abbrev file (content : ByteArray) : Node := .regular content true

/-- A directory in which all may be done. -/
abbrev folder (held : List (String × Node)) : Node := .directory held {}

instance : Inhabited Node := ⟨.folder []⟩

def isFolder : Node → Bool
  | .regular .. => false
  | .directory .. => true

/-- What a directory holds; a file holds nothing. -/
def held : Node → List (String × Node)
  | .regular .. => []
  | .directory held _ => held

/-- What may be done in a directory; one that is made in a file's place allows all. -/
def access : Node → Access
  | .regular .. => {}
  | .directory _ access => access

def child? (node : Node) (name : String) : Option Node := node.held.lookup name

/-- What lies at a location below a node. -/
def at? (node : Node) : Location → Option Node
  | [] => some node
  | name :: rest =>
    match node.child? name with
    | some child => child.at? rest
    | none => none

/-- Change what lies at a location, in directories that are made where there are none. -/
def alter (change : Node → Node) (node : Node) : Location → Node
  | [] => change node
  | name :: rest =>
    let child := (node.child? name).getD (.folder [])
    .directory (node.held.filter (·.1 != name) ++ [(name, child.alter change rest)]) node.access

/-- A file, or else a directory, in the place of a node. A directory that is there stays. -/
def replaced (file : Option ByteArray) (node : Node) : Node :=
  match file with
  | some content => .file content
  | none => .directory node.held node.access

/-- The names that a directory holds, in order. -/
def names (node : Node) : List String := sorted (· ≤ ·) (node.held.map Prod.fst)

mutual

/-- A node and everything below it, with the location of each. -/
def contents : Node → List (Location × Node)
  | .regular content readable => [([], .regular content readable)]
  | .directory held access => ([], .directory held access) :: heldContents held

def heldContents : List (String × Node) → List (Location × Node)
  | [] => []
  | (name, node) :: rest =>
    node.contents.map (fun (place, found) => (name :: place, found)) ++ heldContents rest

end

theorem at?_append (node : Node) (above below : Location) :
    node.at? (above ++ below) = (node.at? above).bind (·.at? below) := by
  induction above generalizing node with
  | nil => rfl
  | cons name rest ih =>
    simp only [List.cons_append, at?]
    cases node.child? name with
    | none => rfl
    | some child => exact ih child

theorem mem_heldContents {held : List (String × Node)} {name : String} {child found : Node}
    {place : Location} (known : held.lookup name = some child) (member : (place, found) ∈ child.contents) :
    (name :: place, found) ∈ heldContents held := by
  induction held with
  | nil => simp at known
  | cons entry rest ih =>
    obtain ⟨other, node⟩ := entry
    rw [heldContents, List.mem_append]
    by_cases same : name = other
    · subst same
      left
      rw [List.lookup_cons, beq_self_eq_true] at known
      cases known
      exact List.mem_map.mpr ⟨(place, found), member, rfl⟩
    · right
      have apart : (name == other) = false := by simpa using same
      rw [List.lookup_cons, apart] at known
      exact ih known

theorem mem_contents_self (node : Node) : ([], node) ∈ node.contents := by
  cases node <;> simp [contents]

theorem mem_contents_of_at? {node found : Node} {place : Location}
    (known : node.at? place = some found) : (place, found) ∈ node.contents := by
  induction place generalizing node with
  | nil => rw [← Option.some.inj known]; exact mem_contents_self node
  | cons name rest ih =>
    cases node with
    | regular => simp [at?, child?, held] at known
    | directory held access =>
      simp only [at?] at known
      cases under : (directory held access).child? name with
      | none => simp [under] at known
      | some child =>
        simp only [under] at known
        exact List.mem_cons_of_mem _ (mem_heldContents under (ih known))

end Node
end Hocon.Files
