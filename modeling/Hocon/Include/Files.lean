import Hocon.Document
import Hocon.Environment
import Hocon.Files.Search
import Hocon.Include.Chain

/-! Includes answered from files. A pattern is looked for from a base directory, and
every file that fits is read in turn; what such a file includes is looked for next to it. -/
namespace Hocon.Include

open Files (FilePath Component)

/-- What a load can see. -/
structure World where
  files : Files.Tree
  environment : Environment
  /-- The home directory of the account, for an environment that names none. -/
  accountHome : Option String

/-- The directory that a leading `~` stands for. -/
def World.home? (world : World) : Option String :=
  match world.environment "HOME" with
  | some "" | none => world.accountHome
  | some home => some home

/-- Where an include stands: the directory that patterns start from, and the files being
included there, the innermost first. -/
structure Site where
  base : FilePath
  chain : List (List Component)
deriving DecidableEq, Inhabited, Repr

namespace Site

/-- A site of its own, inside no file. -/
def ofFolder (base : FilePath) : Site := ⟨base, []⟩

/-- The site of a file whose includes are looked for in a given directory. -/
def ofFileIn (files : Files.Tree) (file base : FilePath) : Site := ⟨base, [files.identity file]⟩

/-- The site of a file whose includes are looked for next to it. -/
def ofFile (files : Files.Tree) (file : FilePath) : Site := ofFileIn files file file.folder

/-- The pattern that a written one stands for. Wildcards in the base directory's own
name, or in that of the home directory, are none. -/
def anchor (world : World) (site : Site) (written : String) : Except Fault FilePath :=
  if written.toList.take 2 = ['~', '/'] then
    match world.home? with
    | some home => .ok ⟨Files.Pattern.escape home ++ "/" ++ String.ofList (written.toList.drop 2)⟩
    | none => .error (.noHome written)
  else if (FilePath.mk written).isAbsolute || site.base.text = "" then .ok ⟨written⟩
  else
    let escaped := (Files.Pattern.escape site.base.text).toList
    .ok ⟨String.ofList (escaped.reverse.dropWhile (· == '/')).reverse ++ "/" ++ written⟩

/-- The fault of a search for a written pattern. -/
def refusal (written : String) : Files.SearchFault → Fault
  | .pattern cause => .badPattern written cause
  | .unlisted folder cause => .unlistedFolder written folder cause

/-- The files that a written pattern means. -/
def expand (world : World) (site : Site) (written : String) : Except Fault (List FilePath) := do
  let pattern ← site.anchor world written
  (world.files.search pattern).mapError (refusal written)

/-- The files that a written pattern means, with a note of what is looked for. -/
def seek (world : World) (site : Site) (written : String) : Run (List FilePath) := do
  let pattern ← Run.ofExcept (site.anchor world written)
  Run.note (.searched pattern.text)
  Run.ofExcept (site.expand world written)

end Site

/-- The files of a world by what tells them apart. -/
def known (files : Files.Tree) : List (List Component × Files.Node) :=
  files.root.contents.map fun (place, node) => (.root :: place.map .name, node)

theorem known_of_read {files : Files.Tree} {path : FilePath} {text : String}
    (done : files.read path = .ok text) :
    ∃ node, (files.identity path, node) ∈ known files := by
  cases located : files.locate path with
  | error cause => rw [Files.Tree.read, located] at done; cases done
  | ok node =>
    obtain ⟨trail, walked, held⟩ := Files.Tree.at?_of_locate located
    refine ⟨node, ?_⟩
    rw [Files.Tree.identity, walked]
    exact List.mem_map.mpr ⟨(trail.place, node), Files.Node.mem_contents_of_at? held, rfl⟩

mutual

/-- Read one file as a document. It must not be one of those being included. -/
def load (world : World) (site : Site) (file : FilePath) : Run Document := do
  let key := world.files.identity file
  if _fresh : key ∈ site.chain then throw (.includeCycle file.text)
  else
    match _done : world.files.read file with
    | .error cause => throw (.unreadableInclude file.text cause)
    | .ok text => parse (answer world ⟨file.folder, key :: site.chain⟩) text
termination_by 2 * outside (known world.files) site.chain
decreasing_by
  obtain ⟨_, held⟩ := known_of_read _done
  have fewer := outside_cons_lt held _fresh
  omega

/-- Answer a directive with the files that its pattern means, merged in order. -/
def answer (world : World) (site : Site) (directive : Directive) : Run Root := do
  let files ← site.seek world directive.pattern
  if files.isEmpty then
    if directive.required then throw (.noMatch directive.pattern)
    else
      Run.note (.unmatched directive.pattern)
      return .empty
  else
    let merged ← files.foldlM (fun (merged : Document) file => do
      Run.note (.loading file.text)
      let document ← load world site file
      return ⟨Object.merge merged.fields document.fields, merged.references ++ document.references⟩)
      ⟨[], []⟩
    return merged.root
termination_by 2 * outside (known world.files) site.chain + 1

end

end Hocon.Include
