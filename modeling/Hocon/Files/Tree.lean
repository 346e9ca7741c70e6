import Hocon.Files.FilePath
import Hocon.Files.Trail

namespace Hocon.Files

/-- The directories down to the working directory are ones that can be entered. -/
structure Tree where
  root : Node
  current : Location
deriving Inhabited

namespace Tree

def alter (tree : Tree) (place : Location) (change : Node → Node) : Tree :=
  { tree with root := tree.root.alter change place }

/-- Put a file, or else a directory, at a location. -/
def insert (tree : Tree) (place : Location) (file : Option ByteArray) : Tree :=
  tree.alter place (Node.replaced file)

/-- The trail of a path, each directory on the way being there. -/
def resolve (tree : Tree) (path : FilePath) : Except ReadFault Trail :=
  if path.text = "" then .error .notFound
  else
    let start := if path.isAbsolute then [] else tree.current
    (start ++ path.segments).foldlM (Trail.step tree.root) []

/-- What a path leads to, if it can be opened: longer paths are refused. -/
def locate (tree : Tree) (path : FilePath) : Except ReadFault Node :=
  if path.text.toList.contains '\x00' then .error .nulInName
  else if path.text.utf8ByteSize ≥ 4096 then .error .nameTooLong
  else (tree.resolve path).map (Trail.node tree.root)

/-- What a path leads to lies at the place of its trail. -/
theorem at?_of_locate {tree : Tree} {path : FilePath} {node : Node}
    (found : tree.locate path = .ok node) :
    ∃ trail, tree.resolve path = .ok trail ∧ tree.root.at? trail.place = some node := by
  unfold locate at found
  split at found
  · cases found
  · split at found
    · cases found
    · cases walked : tree.resolve path with
      | error cause => rw [walked] at found; cases found
      | ok trail =>
        rw [walked] at found
        cases found
        have start : Trail.Leads tree.root [] := trivial
        refine ⟨trail, rfl, Trail.Leads.at?_place ?_⟩
        unfold resolve at walked
        split at walked
        · cases walked
        · exact start.foldlM_step walked

def find? (tree : Tree) (path : FilePath) : Option Node := (tree.locate path).toOption

def holds (tree : Tree) (path : FilePath) : Bool := (tree.find? path).isSome

def isFolder (tree : Tree) (path : FilePath) : Bool := (tree.find? path).any Node.isFolder

def isFile (tree : Tree) (path : FilePath) : Bool :=
  (tree.find? path).any fun node => !node.isFolder

/-- The text of a file. -/
def read (tree : Tree) (path : FilePath) : Except ReadFault String := do
  match ← tree.locate path with
  | .regular _ false => throw .denied
  | .regular content true =>
    match String.fromUTF8? content with
    | some text => pure text
    | none => throw .notText
  | .directory _ access => throw (if access.lists then .isFolder else .denied)

/-- The directory at a path, if it may tell what it holds. -/
def list (tree : Tree) (path : FilePath) : Except ReadFault Node := do
  let node ← tree.locate path
  if !node.isFolder then throw .notFolder
  else if !node.access.lists then throw .denied
  else return node

/-- What tells two paths of one file to be the same: its location, or for a path
that leads nowhere its own steps. It is followed step by step, however long it is. -/
-- Trees have no symbolic links, so the names of one file differ only by dots and slashes.
def identity (tree : Tree) (path : FilePath) : List Component :=
  match tree.resolve path with
  | .ok trail => .root :: trail.place.map .name
  | .error _ => path.components

end Tree
end Hocon.Files
