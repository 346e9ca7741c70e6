import Hocon.Json.Quoted

namespace Hocon.Json

inductive Value where
  | null
  | text (content : String)
  | array (items : List Value)
  | object (fields : List (String × Value))
deriving Inhabited, Repr

/-- What stands between the marks of a text: before an element or a closing bracket,
by how deep that is nested, and behind the colon of a field. -/
structure Layout where
  before : Nat → List Char
  afterColon : List Char

namespace Layout

/-- Nothing that need not be there. -/
def compact : Layout := ⟨fun _ => [], []⟩

/-- A line for each element. -/
def pretty : Layout := ⟨fun depth => '\n' :: List.replicate (2 * depth) ' ', [' ']⟩

/-- Elements of a container at a depth between its brackets; an empty one has no inside. -/
def enclose (layout : Layout) (depth : Nat) (opening closing : Char)
    (elements : List (List Char)) : List Char :=
  if elements = [] then [opening, closing]
  else
    opening :: [','].intercalate (elements.map (layout.before (depth + 1) ++ ·)) ++
      layout.before depth ++ [closing]

/-- A field from its key and its written value. -/
def field (layout : Layout) (key : String) (value : List Char) : List Char :=
  quoted key ++ ':' :: layout.afterColon ++ value

end Layout

namespace Value

mutual

/-- The text of a value nested at a depth. -/
def write (layout : Layout) (depth : Nat) : Value → List Char
  | .null => ['n', 'u', 'l', 'l']
  | .text content => quoted content
  | .array items => layout.enclose depth '[' ']' (writeItems layout (depth + 1) items)
  | .object fields => layout.enclose depth '\x7b' '\x7d' (writeFields layout (depth + 1) fields)

def writeItems (layout : Layout) (depth : Nat) : List Value → List (List Char)
  | [] => []
  | value :: rest => value.write layout depth :: writeItems layout depth rest

def writeFields (layout : Layout) (depth : Nat) : List (String × Value) → List (List Char)
  | [] => []
  | (key, value) :: rest =>
    layout.field key (value.write layout depth) :: writeFields layout depth rest

end

def compact (value : Value) : String := String.ofList (value.write .compact 0)

def pretty (value : Value) : String := String.ofList (value.write .pretty 0)

end Value
end Hocon.Json
