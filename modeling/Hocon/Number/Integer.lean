import Hocon.Number.Numeral

namespace Hocon.Number

inductive IntegerType where
  | i8 | i16 | i32 | i64 | u8 | u16 | u32 | u64 | usize
deriving DecidableEq, Inhabited, Repr

namespace IntegerType

def name : IntegerType → String
  | .i8 => "i8"
  | .i16 => "i16"
  | .i32 => "i32"
  | .i64 => "i64"
  | .u8 => "u8"
  | .u16 => "u16"
  | .u32 => "u32"
  | .u64 => "u64"
  | .usize => "usize"

def isSigned : IntegerType → Bool
  | .i8 | .i16 | .i32 | .i64 => true
  | _ => false

def bits : IntegerType → Nat
  | .i8 | .u8 => 8
  | .i16 | .u16 => 16
  | .i32 | .u32 => 32
  | .i64 | .u64 | .usize => 64

def least (type : IntegerType) : Int :=
  if type.isSigned then -Int.ofNat (Nat.pow 2 (type.bits - 1)) else 0

def greatest (type : IntegerType) : Int :=
  Int.ofNat (Nat.pow 2 (if type.isSigned then type.bits - 1 else type.bits)) - 1

def holds (type : IntegerType) (value : Int) : Bool :=
  type.least ≤ value && value ≤ type.greatest

/-- Digits added to, or with a minus sign taken from, what has been read. The first
character that is no digit or leads out of the range is the fault. -/
def readDigits (type : IntegerType) (negative : Bool) (value : Int) :
    List Char → Except NumeralFault Int
  | [] => .ok value
  | c :: rest =>
    match digit? c with
    | none => .error .invalidDigit
    | some digit =>
      let next := if negative then value * 10 - digit else value * 10 + digit
      if type.holds next then readDigits type negative next rest
      else .error (if negative then .tooSmall else .tooLarge)

/-- A numeral with an optional sign; only a signed type takes a minus. -/
def read (type : IntegerType) (text : List Char) : Except NumeralFault Int :=
  match text with
  | [] => .error .emptyInteger
  | ['+'] | ['-'] => .error .invalidDigit
  | '+' :: digits => readDigits type false 0 digits
  | '-' :: digits =>
    if type.isSigned then readDigits type true 0 digits else .error .invalidDigit
  | digits => readDigits type false 0 digits

end IntegerType
end Hocon.Number
