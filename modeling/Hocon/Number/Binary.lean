import Hocon.Number.Decimal

namespace Hocon.Number

/-- A format by the bits of its significand, the hidden one counted, and of its exponent. -/
inductive BinaryFormat where
  | single
  | double
deriving DecidableEq, Inhabited, Repr

namespace BinaryFormat

def name : BinaryFormat → String
  | .single => "f32"
  | .double => "f64"

def precision : BinaryFormat → Nat
  | .single => 24
  | .double => 53

def exponentBits : BinaryFormat → Nat
  | .single => 8
  | .double => 11

/-- The width of an encoding. -/
def width (format : BinaryFormat) : Nat := format.precision + format.exponentBits

/-- The exponent of two of the least subnormal number. -/
def leastExponent (format : BinaryFormat) : Int :=
  3 - Int.ofNat (Nat.pow 2 (format.exponentBits - 1)) - Int.ofNat format.precision

/-- The encoding of infinity without its sign. -/
def infinityBits (format : BinaryFormat) : Nat :=
  (Nat.pow 2 format.exponentBits - 1) * Nat.pow 2 (format.precision - 1)

end BinaryFormat

/-- A number of some format: the encoding of its magnitude under a sign. -/
inductive Binary where
  | nan
  | number (negative : Bool) (magnitude : Nat)
deriving DecidableEq, Inhabited, Repr

/-- The quotient rounded to the nearest integer, a tie to the even neighbour. -/
def roundDiv (numerator denominator : Nat) : Nat :=
  let quotient := numerator / denominator
  let twice := 2 * (numerator % denominator)
  if twice < denominator then quotient
  else if denominator < twice then quotient + 1
  else quotient + quotient % 2

/-- The greatest exponent of two whose power is at most the positive quotient. -/
def log2Div (numerator denominator : Nat) : Int :=
  let guess : Int := Int.ofNat numerator.log2 - Int.ofNat denominator.log2
  let reaches :=
    if 0 ≤ guess then denominator * Nat.pow 2 guess.toNat ≤ numerator
    else denominator ≤ numerator * Nat.pow 2 (-guess).toNat
  if reaches then guess else guess - 1

namespace Binary

/-- The nearest magnitude to a positive quotient. A significand that rounds up to
the next power of two carries into the exponent field, and past the greatest
finite number the encoding is that of infinity. -/
def nearest (format : BinaryFormat) (numerator denominator : Nat) : Nat :=
  let exponent := max (log2Div numerator denominator - (format.precision - 1)) format.leastExponent
  let significand :=
    if 0 ≤ exponent then roundDiv numerator (denominator * Nat.pow 2 exponent.toNat)
    else roundDiv (numerator * Nat.pow 2 (-exponent).toNat) denominator
  let offset := (exponent - format.leastExponent).toNat
  min (offset * Nat.pow 2 (format.precision - 1) + significand) format.infinityBits

/-- The magnitude nearest to `digits` times ten to the `exponent`. Outside the powers
of ten from -400 to 400 the answer is zero or infinity in both formats. -/
def magnitude (format : BinaryFormat) (digits : Nat) (exponent : Int) : Nat :=
  if digits = 0 then 0
  else if 400 < exponent then format.infinityBits
  else if exponent + (Nat.toDigits 10 digits).length < -400 then 0
  else if 0 ≤ exponent then nearest format (digits * Nat.pow 10 exponent.toNat) 1
  else nearest format digits (Nat.pow 10 (-exponent).toNat)

def ofDecimal (format : BinaryFormat) : Decimal → Binary
  | .nan => .nan
  | .infinity negative => .number negative format.infinityBits
  | .finite negative digits exponent => .number negative (magnitude format digits exponent)

/-- The encoding; that of what is no number is left open. -/
def encoding? (format : BinaryFormat) : Binary → Option Nat
  | .nan => none
  | .number negative magnitude =>
    some ((if negative then Nat.pow 2 (format.width - 1) else 0) + magnitude)

/-- Read a numeral into a format, rounded once. -/
def read (format : BinaryFormat) (text : List Char) : Except NumeralFault Binary :=
  (Decimal.read text).map (ofDecimal format)

end Binary
end Hocon.Number
