import Hocon.Export
import Hocon.Include.Files
import Hocon.Resolution

/-! Configurations: documents read with all that they include, every reference resolved.
What is in them is found by dotted paths. -/
namespace Hocon

open Files (FilePath)
open Include (World Site)

structure Config where
  value : Value
  /-- The file it was loaded from. -/
  source : Option FilePath
deriving Inhabited, Repr

namespace Config

/-- Read a text whose includes are looked for in the working directory. -/
def ofText (world : World) (text : String) : Run Config := do
  let document ← parse (Include.answer world (.ofFolder ⟨"."⟩)) text
  let value ← document.root.resolve world.environment
  return ⟨value, none⟩

/-- Read a file at a site. -/
def load (world : World) (file : FilePath) (site : Site) : Run Config := do
  match world.files.read file with
  | .error cause => throw (.unreadableDocument file.text cause)
  | .ok text =>
    Run.note (.parsing file.text site.base.text)
    let document ← parse (Include.answer world site) text
    Run.note (.pending document.references.length)
    let value ← document.root.resolve world.environment
    return ⟨value, some file⟩

/-- Read a file whose includes are looked for next to it. -/
def ofFile (world : World) (file : FilePath) : Run Config :=
  load world file (.ofFile world.files file)

/-- Read a file whose includes are looked for in a given directory. -/
def ofFileIn (world : World) (file base : FilePath) : Run Config :=
  load world file (.ofFileIn world.files file base)

/-- The value at a dotted path; a blank one leads to the whole. A dot always separates here. -/
def at? (config : Config) (path : String) : Option Value :=
  if Text.isAllWhite path then some config.value
  else config.value.lookup (Text.splitAt '.' path)

def get (config : Config) (path : String) : Except Fault Value :=
  match config.at? path with
  | some value => .ok value
  | none => .error (.pathNotFound path)

def has (config : Config) (path : String) : Bool := (config.at? path).isSome

/-- The keys of the object at a path, in document order. -/
def keys (config : Config) (path : String) : Except Fault (List String) := do
  match ← config.get path with
  | .object fields => return Object.keys fields
  | other => throw (.noKeys path other.kind)

end Config
end Hocon
