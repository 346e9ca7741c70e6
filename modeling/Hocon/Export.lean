import Hocon.Json.Value
import Hocon.Value

namespace Hocon.Value

mutual

/-- The JSON value of a resolved value; the first pending part in document order is the fault. -/
def toJson : Value → Except Fault Json.Value
  | .object fields => return .object (← fieldsToJson fields)
  | .array items => return .array (← itemsToJson items)
  | .text content => .ok (.text content)
  | .null => .ok .null
  | .reference target => .error (.pendingReference target.dotted target.place)
  | .concat _ => .error .pendingConcat

def fieldsToJson : List (String × Value) → Except Fault (List (String × Json.Value))
  | [] => .ok []
  | (key, value) :: rest => return (key, ← value.toJson) :: (← fieldsToJson rest)

def itemsToJson : List Value → Except Fault (List Json.Value)
  | [] => .ok []
  | value :: rest => return (← value.toJson) :: (← itemsToJson rest)

end

def toJsonText (value : Value) : Except Fault String := return (← value.toJson).compact

def toJsonTextPretty (value : Value) : Except Fault String := return (← value.toJson).pretty

mutual

/-- The text on one line, written straight from the value. -/
def stream : Value → Except Fault (List Char)
  | .object fields => return '\x7b' :: (← streamFields true fields) ++ ['\x7d']
  | .array items => return '[' :: (← streamItems true items) ++ [']']
  | .text content => .ok (Json.quoted content)
  | .null => .ok ['n', 'u', 'l', 'l']
  | .reference target => .error (.pendingReference target.dotted target.place)
  | .concat _ => .error .pendingConcat

/-- Fields each behind a comma, but for the first. -/
def streamFields (first : Bool) : List (String × Value) → Except Fault (List Char)
  | [] => .ok []
  | (key, value) :: rest => do
    let written ← value.stream
    let more ← streamFields false rest
    return (if first then [] else [',']) ++ Json.quoted key ++ ':' :: written ++ more

def streamItems (first : Bool) : List Value → Except Fault (List Char)
  | [] => .ok []
  | value :: rest => do
    let written ← value.stream
    let more ← streamItems false rest
    return (if first then [] else [',']) ++ written ++ more

end

/-- Write a value as it is met. A fault is the writer's then, and carries as its text
the line that would have been shown. -/
def serialize (value : Value) : Except Fault String :=
  match value.stream with
  | .ok written => .ok (String.ofList written)
  | .error fault => .error (.unwritable fault.message)

end Hocon.Value
