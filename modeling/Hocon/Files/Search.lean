import Hocon.Files.Pattern
import Hocon.Files.Tree

/-! Searching for files. A pattern is followed name by name from the root or from the
working directory; names without wildcards are only looked up, others are compared
with what a directory holds, which it has to tell. -/
namespace Hocon.Files

/-- Why a search gives no files. -/
inductive SearchFault where
  | pattern (cause : PatternFault)
  /-- What a directory holds could not be told. -/
  | unlisted (folder : FilePath) (cause : ReadFault)
deriving DecidableEq, Inhabited, Repr

/-- Where a search has come to. Whether that is a directory is known of what a directory told,
even where its path leads nowhere. -/
structure Waypoint where
  path : FilePath
  isFolder : Bool
deriving DecidableEq, Inhabited, Repr

/-- One name of a pattern. -/
inductive Step where
  | literal (name : String)
  | fitting (pattern : Pattern)
  | anyDepth
deriving Inhabited, Repr

namespace Step

def ofPattern (pattern : Pattern) : Step :=
  if pattern.contains .anyDepth then .anyDepth
  else match pattern.literal? with
    | some name => .literal (String.ofList name)
    | none => .fitting pattern

/-- Whether a name that a directory holds is meant. -/
def fits (step : Step) (name : String) : Bool :=
  match step with
  | .literal wanted => wanted = name
  | .fitting pattern => pattern.fits name.toList
  | .anyDepth => false

/-- The special names `..` and `.` are only meant by a pattern that begins with a dot. -/
def specials (pattern : Pattern) : List String :=
  if pattern.head? = some (.char '.') then ["..", "."].filter fun name => pattern.fits name.toList
  else []

end Step

namespace Tree

/-- The path of a name that a directory holds; names in the working directory stand alone. -/
def inside (folder : FilePath) (name : String) : FilePath :=
  if folder.isHere then ⟨name⟩ else folder.join name

/-- A search that comes to a path by writing it. -/
def waypoint (tree : Tree) (path : FilePath) : Waypoint := ⟨path, tree.isFolder path⟩

/-- A search that comes to what a directory told of a name. -/
def told (folder : FilePath) (node : Node) (name : String) : Waypoint :=
  ⟨inside folder name, (node.child? name).any Node.isFolder⟩

/-- Go on with what a directory holds, which is a fault if it cannot be told. In anything but a
directory there is nothing to go on with. -/
def opened {α : Type} (tree : Tree) (here : Waypoint) (further : Node → List (Except SearchFault α)) :
    List (Except SearchFault α) :=
  if here.isFolder then
    match tree.list here.path with
    | .ok node => further node
    | .error cause => [.error (.unlisted here.path cause)]
  else []

mutual

/-- What lies at any depth below a directory that was listed, each under its name. Every
directory comes before what it holds, and names are in order. -/
def everywhere (tree : Tree) (path : FilePath) : Node → List (Except SearchFault (String × Waypoint))
  | .regular .. => []
  | .directory held _ =>
    (sorted (fun a b => a.1 ≤ b.1) (tree.everywhereHeld path held)).flatMap Prod.snd

/-- Each name that a directory holds, with what is found under it. -/
def everywhereHeld (tree : Tree) (path : FilePath) :
    List (String × Node) → List (String × List (Except SearchFault (String × Waypoint)))
  | [] => []
  | (name, node) :: rest =>
    let here : Waypoint := ⟨inside path name, node.isFolder⟩
    (name, .ok (name, here) :: tree.opened here fun _ => tree.everywhere here.path node) ::
      tree.everywhereHeld path rest

end

/-- Paths that the steps lead to, those through the special names first, and the faults that
are met on the way. A step to any depth compares the next one with the names in every
directory below, this one among them. -/
def follow (tree : Tree) (here : Waypoint) (steps : List Step) : List (Except SearchFault FilePath) :=
  match steps with
  | [] => [.ok here.path]
  | .literal name :: rest =>
    let next := inside here.path name
    let there := if name = "." || name = ".." then here.isFolder else tree.holds next
    if there then tree.follow (tree.waypoint next) rest else []
  | .fitting pattern :: rest =>
    tree.opened here fun node =>
      (Step.specials pattern).flatMap (fun name => tree.follow (tree.waypoint (here.path.join name)) rest) ++
        (node.names.filter (pattern.fits ·.toList)).flatMap fun name =>
          tree.follow (told here.path node name) rest
  | .anyDepth :: .anyDepth :: rest => tree.follow here (.anyDepth :: rest)
  | .anyDepth :: rest =>
    tree.opened here fun node =>
      (tree.everywhere here.path node).flatMap fun
        | .error fault => [.error fault]
        | .ok (name, found) =>
          -- Behind the last step stand directories alone, which are no files.
          match rest with
          | [] => []
          | next :: rest => if next.fits name then tree.follow found rest else []
termination_by steps.length

/-- The steps of a pattern's text, each compiled by itself once the whole is known to be
a pattern. -/
def steps (pattern : FilePath) : Except PatternFault (List Step) := do
  let _ ← Pattern.ofText pattern.text
  let parts :=
    match pattern.segments.reverse with
    | "" :: earlier => earlier.reverse
    | _ => pattern.segments
  let compiled ← parts.mapM Pattern.ofText
  return compiled.map Step.ofPattern

/-- Where the search for a path begins. -/
def start (path : FilePath) : FilePath := if path.isAbsolute then ⟨"/"⟩ else ⟨"."⟩

/-- The files that a pattern means, in the order of their paths; paths of the same steps
stay as they were found. A pattern that ends in a slash means directories alone. The first
fault that is met is the search's own. -/
def search (tree : Tree) (pattern : FilePath) : Except SearchFault (List FilePath) := do
  let steps ← (steps pattern).mapError .pattern
  let found ← (tree.follow (tree.waypoint (start pattern)) steps).mapM id
  if pattern.text.toList.getLast? == some '/' then return []
  return sorted FilePath.le (found.filter tree.isFile)

end Tree
end Hocon.Files
