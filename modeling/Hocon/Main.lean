import Hocon.CommandLine

/-! The program. A conversion sees files as a value, so the program first gathers the
file that is asked for, and then whatever the patterns of its includes can mean, until a
conversion searches for nothing new. -/
namespace Hocon.Program

open Files (Location FilePath Node Step)
open Include (World)

/-- What was found at locations: a file with its content, or a directory with what may be done in it. -/
abbrev Entries := List (Location × Node)

/-- A node by what was found in its place. What a directory holds is found at locations of its own. -/
def updated (found node : Node) : Node :=
  match found with
  | .regular content readable => .regular content readable
  | .directory _ access => .directory node.held access

def insertAll (files : Files.Tree) (found : Entries) : Files.Tree :=
  found.foldl (fun files (place, node) => files.alter place (updated node)) files

def nonEmpty (names : List String) : List String := names.filter (· != "")

def textOf (place : Location) : String := "/" ++ "/".intercalate place

def isFolder (place : Location) : IO Bool := do
  ((← IO.currentDir) / textOf place).isDir

/-- What lies at a location, if anything does. -/
def entryAt (place : Location) : IO Entries := do
  let path := (← IO.currentDir) / textOf place
  if ← path.isDir then
    let lists ← try discard path.readDir; pure true catch _ => pure false
    return [(place, .directory [] ⟨lists, ← (path / ".").pathExists⟩)]
  else if ← path.pathExists then
    let content ← try some <$> IO.FS.readBinFile path catch _ => pure none
    return [(place, .regular (content.getD .empty) content.isSome)]
  else return []

/-- The locations that a directory holds. -/
def held (place : Location) : IO (List Location) := do
  let path := (← IO.currentDir) / textOf place
  if ← path.isDir then
    let found ← try path.readDir catch _ => pure #[]
    return found.toList.map fun entry => place ++ [entry.fileName]
  else return []

/-- Everything that steps from a location can lead to, and what lies on the way. -/
partial def gather (place : Location) (steps : List Step) : IO Entries := do
  let further ←
    match steps with
    | [] => pure []
    | .literal name :: rest =>
      if name = "" || name = "." then gather place rest
      else if name = ".." then gather place.dropLast rest
      else gather (place ++ [name]) rest
    | .fitting pattern :: rest => do
      let fits (found : Location) : Bool := pattern.fits ((found.getLast?.getD "").toList)
      let special := (Step.specials pattern).map fun name =>
        if name = ".." then place.dropLast else place
      let next := (← held place).filter fits ++ special
      let next ← if rest.isEmpty then pure next else next.filterM isFolder
      pure (← next.mapM (gather · rest)).flatten
    | .anyDepth :: rest => do
      let below ← (← held place).filterM isFolder
      let deeper ← below.mapM (gather · (.anyDepth :: rest))
      pure ((← gather place rest) ++ deeper.flatten)
  return (← entryAt place) ++ further

/-- The place where the program was started. -/
def current : IO Location := do
  return nonEmpty (Text.splitAt '/' (← IO.currentDir).toString)

/-- Everything that a pattern can mean, from the root or from the working directory. -/
def gatherPattern (pattern : String) : IO Entries := do
  match Files.Tree.steps ⟨pattern⟩ with
  | .error _ => return []
  | .ok steps =>
    let start ← if (FilePath.mk pattern).isAbsolute then pure [] else current
    gather start steps

/-- The definitions of the environment, as the system keeps them: lines `name=value`
that end in a NUL. -/
def definitions : IO (List (String × String)) := do
  let kept ← try IO.FS.readBinFile "/proc/self/environ" catch _ => pure .empty
  let lines := Text.splitAt '\x00' ((String.fromUTF8? kept).getD "")
  return (nonEmpty lines).map fun line =>
    let name := line.toList.takeWhile (· != '=')
    (String.ofList name, String.ofList (line.toList.drop (name.length + 1)))

/-- Gather what a conversion searches for, and convert again, until it finds all that
it searches for gathered. -/
partial def settle (file : String) (world : World) (gathered : List String) : IO World := do
  let (_, session) := (CommandLine.convert world file).outcome .start
  let sought := session.searched.filter fun pattern => !gathered.contains pattern
  if sought.isEmpty then return world
  else
    let found := (← sought.mapM gatherPattern).flatten
    settle file { world with files := insertAll world.files found } (gathered ++ sought)

/-- The world as a conversion of a file sees it. -/
def worldOf (file : String) : IO World := do
  let here ← current
  let above ← gather [] (here.map .literal)
  let steps := (FilePath.mk file).segments.map Step.literal
  let found ← gather (if (FilePath.mk file).isAbsolute then [] else here) steps
  let files := insertAll ⟨.folder [], here⟩ (above ++ found)
  settle file ⟨files, .ofDefinitions (← definitions), some "/root"⟩ []

end Hocon.Program

open Hocon in
/-- Run the command line. -/
def main (arguments : List String) : IO UInt32 := do
  let world ←
    match CommandLine.request none arguments with
    | .convert file => Program.worldOf file
    | _ => pure ⟨⟨.folder [], []⟩, fun _ => none, none⟩
  let outcome := CommandLine.run world arguments
  IO.eprint outcome.errors
  IO.print outcome.output
  return outcome.status.toUInt32
