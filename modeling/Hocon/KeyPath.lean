/-! Paths through nested objects. A path names at least one key; written, its
segments are separated by dots, and only a quoted segment may be empty. -/
namespace Hocon

/-- The keys from an object down to one of its values, outermost first. -/
structure KeyPath where
  first : String
  rest : List String
deriving DecidableEq, Inhabited, Repr

namespace KeyPath

def toList (path : KeyPath) : List String := path.first :: path.rest

/-- The segments joined by dots, quoted or not. -/
def dotted (segments : List String) : String := ".".intercalate segments

/-- A path of these segments followed by one more. -/
def snoc (segments : List String) (last : String) : KeyPath :=
  match segments with
  | [] => ⟨last, []⟩
  | first :: more => ⟨first, more ++ [last]⟩

@[simp] theorem toList_snoc (segments : List String) (last : String) :
    (snoc segments last).toList = segments ++ [last] := by
  cases segments <;> rfl

/-- A path as far as it has been read: the segments already closed by a dot, the
one being read, and whether some of it stood in quotes. -/
structure Builder where
  closed : List String
  segment : String
  quoted : Bool
deriving DecidableEq, Inhabited, Repr

namespace Builder

/-- Nothing read yet. -/
def empty : Builder := ⟨[], "", false⟩

/-- An empty segment is one only if quotes say so. -/
def isBlankSegment (builder : Builder) : Bool :=
  builder.segment == "" && !builder.quoted

/-- A character outside quotes other than a dot. -/
def push (builder : Builder) (c : Char) : Builder :=
  { builder with segment := builder.segment.push c }

/-- A quoted part; the dots in it separate nothing. -/
def append (builder : Builder) (text : String) : Builder :=
  { builder with segment := builder.segment ++ text, quoted := true }

/-- A dot outside quotes ends the segment. -/
def dot? (builder : Builder) : Option Builder :=
  if builder.isBlankSegment then none
  else some ⟨builder.closed ++ [builder.segment], "", false⟩

/-- A run of characters outside quotes. -/
def word? (builder : Builder) : List Char → Option Builder
  | [] => some builder
  | c :: rest =>
    if c = '.' then
      match builder.dot? with
      | some next => next.word? rest
      | none => none
    else (builder.push c).word? rest

/-- The whole path, at its end. -/
def path? (builder : Builder) : Option KeyPath :=
  if builder.isBlankSegment then none else some (snoc builder.closed builder.segment)

end Builder
end KeyPath
end Hocon
