namespace Hocon

inductive Kind where
  | object
  | array
  | text
  | null
  | reference
  | concat
deriving DecidableEq, Inhabited, Repr

def Kind.label : Kind → String
  | .object => "object"
  | .array => "array"
  | .text => "string"
  | .null => "empty"
  | .reference => "substitution"
  | .concat => "concatenation"

end Hocon
