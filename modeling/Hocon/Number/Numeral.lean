namespace Hocon.Number

inductive NumeralFault where
  | emptyInteger
  | invalidDigit
  | tooLarge
  | tooSmall
  | emptyDecimal
  | invalidDecimal
deriving DecidableEq, Inhabited, Repr

def NumeralFault.message : NumeralFault → String
  | .emptyInteger => "cannot parse integer from empty string"
  | .invalidDigit => "invalid digit found in string"
  | .tooLarge => "number too large to fit in target type"
  | .tooSmall => "number too small to fit in target type"
  | .emptyDecimal => "cannot parse float from empty string"
  | .invalidDecimal => "invalid float literal"

/-- The value of a decimal digit. -/
def digit? (c : Char) : Option Nat :=
  if c.isDigit then some (c.toNat - '0'.toNat) else none

/-- The number that a run of digits goes on to write after `value`. -/
def digitsFrom (value : Nat) (digits : List Char) : Nat :=
  digits.foldl (fun total c => total * 10 + (c.toNat - '0'.toNat)) value

/-- A sign in front, and what it stands before. -/
def signed : List Char → Bool × List Char
  | '-' :: rest => (true, rest)
  | '+' :: rest => (false, rest)
  | text => (false, text)

end Hocon.Number
