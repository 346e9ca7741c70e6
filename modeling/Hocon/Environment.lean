namespace Hocon

/-- The value of a name, if it has one. -/
abbrev Environment := String → Option String

namespace Environment

/-- The value that a line `name=value` gives to a name: what follows the name and an
equals sign, so a line with several of these can be cut at any of them. -/
def valueIn? (name line : List Char) : Option (List Char) :=
  if (name ++ ['=']).isPrefixOf line then some (line.drop (name.length + 1)) else none

/-- The environment that definitions make, the first one that fits being taken. No
value has the empty name, or one with a NUL in it. -/
def ofDefinitions (definitions : List (String × String)) : Environment := fun name =>
  if name = "" || name.toList.contains '\x00' then none
  else
    (definitions.findSome? fun (defined, value) =>
      valueIn? name.toList (defined ++ "=" ++ value).toList).map String.ofList

end Environment
end Hocon
