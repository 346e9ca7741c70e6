import Hocon.Config
import Hocon.Number.Binary
import Hocon.Number.Integer

namespace Hocon

inductive Shape where
  | text
  | boolean
  | integer (type : Number.IntegerType)
  | float (format : Number.BinaryFormat)
  /-- An object of texts. -/
  | table
  | list (element : Shape)
  | optional (inner : Shape)
deriving DecidableEq, Inhabited, Repr

namespace Shape

/-- The type of the counterparts. -/
def Carrier : Shape → Type
  | .text => String
  | .boolean => Bool
  | .integer _ => Int
  | .float _ => Number.Binary
  | .table => List (String × String)
  | .list element => List element.Carrier
  | .optional inner => Option inner.Carrier

def readText : Value → Except Misfit String
  | .text content => .ok content
  | other => .error (.notText other.kind)

/-- A truth value in one of its three spellings. -/
def readBoolean : Value → Except Misfit Bool
  | .text content =>
    let word := String.ofList (Text.trim content.toList)
    if word = "true" || word = "yes" || word = "on" then .ok true
    else if word = "false" || word = "no" || word = "off" then .ok false
    else .error (.notTruth word)
  | other => .error (.notBoolean other.kind)

/-- A number in the text of a value; white space around it is left out, but a fault
shows the text with it. -/
def readNumber {α : Type} (type : String)
    (read : List Char → Except Number.NumeralFault α) : Value → Except Misfit α
  | .text content =>
    match read (Text.trim content.toList) with
    | .ok number => .ok number
    | .error cause => .error (.notNumeral content type cause)
  | other => .error (.notNumber other.kind)

def readTable : Value → Except Misfit (List (String × String))
  | .object fields => fields.mapM fun (key, value) => return (key, ← readText value)
  | other => .error (.notObject other.kind)

/-- The counterpart of a value. In a list the first element that has none is the fault. -/
def read : (shape : Shape) → Value → Except Misfit shape.Carrier
  | .text, value => readText value
  | .boolean, value => readBoolean value
  | .integer type, value => readNumber type.name type.read value
  | .float format, value => readNumber format.name (Number.Binary.read format) value
  | .table, value => readTable value
  | .list element, value =>
    match value with
    | .array items => items.mapM element.read
    | other => Except.error (.notArray other.kind)
  | .optional inner, value =>
    match value with
    | .null => Except.ok none
    | other => (inner.read other).map some

end Shape

namespace Config

/-- A counterpart, a fault being told with the path that led to the value. -/
def readAt (shape : Shape) (path : String) (value : Value) : Except Fault shape.Carrier :=
  (shape.read value).mapError fun cause => .unfit cause (some path)

def getAs (config : Config) (shape : Shape) (path : String) : Except Fault shape.Carrier := do
  readAt shape path (← config.get path)

/-- Nothing where the path leads nowhere or to `null`. -/
def getOptional (config : Config) (shape : Shape) (path : String) :
    Except Fault (Option shape.Carrier) :=
  match config.at? path with
  | none | some .null => .ok none
  | some value => (readAt shape path value).map some

/-- The default where there is no counterpart, for whatever reason. -/
def getOr (config : Config) (shape : Shape) (path : String) (default : shape.Carrier) :
    shape.Carrier :=
  match config.getAs shape path with
  | .ok value => value
  | .error _ => default

end Config
end Hocon
