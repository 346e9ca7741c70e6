import Hocon.Value.Merge

namespace Hocon.Value

/-- One more piece. -/
def append : Value → Value → Except Fault Value
  | .text a, .text b => .ok (.text (a ++ b))
  | .array a, .array b => .ok (.array (a ++ b))
  | .object a, .object b => .ok (.object (Object.merge a b))
  | a, b => .error (.concatMismatch a.kind b.kind)

/-- The pieces that count. -/
def significant (pieces : List Value) : List Value :=
  if pieces.any fun piece => piece.isObject || piece.isArray then
    pieces.filter fun piece => !piece.isBlank
  else pieces

/-- The pieces joined from left to right; none at all make the empty text. -/
def concatenate (pieces : List Value) : Except Fault Value :=
  match significant pieces with
  | [] => .ok (.text "")
  | first :: rest => rest.foldlM append first

end Hocon.Value
