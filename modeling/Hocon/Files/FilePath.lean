import Hocon.Text.Split

namespace Hocon.Files

/-- One step of a path. -/
inductive Component where
  | root
  | here
  | up
  | name (text : String)
deriving DecidableEq, Inhabited, Repr

namespace Component

/-- The root comes first, then the two special steps, then names by code point. -/
def rank : Component → Nat
  | .root => 0
  | .here => 1
  | .up => 2
  | .name _ => 3

def le : Component → Component → Bool
  | .name a, .name b => a ≤ b
  | a, b => a.rank ≤ b.rank

/-- A shorter list comes before those that go on from it. -/
def listLe : List Component → List Component → Bool
  | [], _ => true
  | _ :: _, [] => false
  | a :: as, b :: bs => if a = b then listLe as bs else a.le b

end Component

structure FilePath where
  text : String
deriving DecidableEq, Inhabited, Repr

namespace FilePath

def isAbsolute (path : FilePath) : Bool := path.text.toList.head? == some '/'

/-- The parts between the slashes, behind the leading slash of an absolute path. -/
def segments (path : FilePath) : List String :=
  match Text.splitAt '/' path.text with
  | "" :: more => if path.isAbsolute then more else "" :: more
  | parts => parts

/-- The step that a segment names. A dot is one only at the very start. -/
def component? (atStart : Bool) (segment : String) : Option Component :=
  if segment = "" then none
  else if segment = "." then (if atStart then some .here else none)
  else if segment = ".." then some .up
  else some (.name segment)

/-- The steps of a path's segments, at its start or further in. -/
def componentsOf : Bool → List String → List Component
  | _, [] => []
  | atStart, segment :: rest =>
    (component? atStart segment).toList ++ componentsOf false rest

def components (path : FilePath) : List Component :=
  if path.isAbsolute then .root :: componentsOf false path.segments
  else componentsOf true path.segments

/-- The segments up to the last one that is a step. -/
def trimSegments (atStart : Bool) : List String → List String
  | [] => []
  | segment :: rest =>
    match trimSegments false rest with
    | [] => if (component? atStart segment).isSome then [segment] else []
    | kept => segment :: kept

/-- The directory that holds what the path names; a bare name is held by the
working directory, and so is what has no parent. -/
def folder (path : FilePath) : FilePath :=
  let above := trimSegments (!path.isAbsolute)
    (trimSegments (!path.isAbsolute) path.segments).dropLast
  if path.isAbsolute then
    if path.components = [.root] then ⟨"."⟩ else ⟨"/" ++ "/".intercalate above⟩
  else if above = [] then ⟨"."⟩ else ⟨"/".intercalate above⟩

/-- Go on from a directory by a further path; an absolute one starts afresh. -/
def join (base : FilePath) (further : String) : FilePath :=
  if (FilePath.mk further).isAbsolute || base.text = "" then ⟨further⟩
  else if base.text.toList.getLast? == some '/' then ⟨base.text ++ further⟩
  else ⟨base.text ++ "/" ++ further⟩

/-- The working directory, however many dots spell it. -/
def isHere (path : FilePath) : Bool := path.components == [.here]

/-- Sort order of paths: step by step. -/
def le (a b : FilePath) : Bool := Component.listLe a.components b.components

end FilePath
end Hocon.Files
