import Hocon.Number.Numeral

namespace Hocon.Number

/-- What a decimal numeral stands for, as it is written. -/
inductive Decimal where
  | nan
  | infinity (negative : Bool)
  /-- The number `digits` times ten to the `exponent`. -/
  | finite (negative : Bool) (digits : Nat) (exponent : Int)
deriving DecidableEq, Inhabited, Repr

namespace Decimal

/-- The words, in either case. -/
def word? (negative : Bool) (text : List Char) : Option Decimal :=
  let lower := String.ofList (text.map Char.toLower)
  if lower = "inf" || lower = "infinity" then some (.infinity negative)
  else if lower = "nan" then some .nan
  else none

/-- The exponent of ten at the end of a numeral, zero when nothing is there. -/
def exponent? : List Char → Option Int
  | [] => some 0
  | c :: rest =>
    if c = 'e' || c = 'E' then
      let (negative, digits) := signed rest
      if digits = [] || !digits.all Char.isDigit then none
      else
        let size : Int := digitsFrom 0 digits
        some (if negative then -size else size)
    else none

/-- Digits with at most one point among them, then the exponent. -/
def unsigned? (negative : Bool) (text : List Char) : Option Decimal :=
  let whole := text.takeWhile Char.isDigit
  let (part, rest) :=
    match text.dropWhile Char.isDigit with
    | '.' :: more => (more.takeWhile Char.isDigit, more.dropWhile Char.isDigit)
    | other => ([], other)
  if whole = [] && part = [] then none
  else (exponent? rest).map fun exponent =>
    .finite negative (digitsFrom (digitsFrom 0 whole) part) (exponent - part.length)

def read (text : List Char) : Except NumeralFault Decimal :=
  if text = [] then .error .emptyDecimal
  else
    let (negative, rest) := signed text
    match word? negative rest with
    | some word => .ok word
    | none =>
      match unsigned? negative rest with
      | some value => .ok value
      | none => .error .invalidDecimal

end Decimal
end Hocon.Number
