import Hocon.KeyPath
import Hocon.Text.Escaped

namespace Hocon

inductive Token where
  /-- A bare word. -/
  | unquoted (text : String)
  /-- A quoted or triple-quoted text, decoded. -/
  | quoted (text : String)
  /-- A reference to another value; an optional one may lead nowhere. -/
  | reference (path : KeyPath) (optional : Bool)
  | leftBrace
  | rightBrace
  | leftBracket
  | rightBracket
  | colon
  | equals
  | plusEquals
  | comma
  | newline
  | endOfText
deriving DecidableEq, Inhabited, Repr

namespace Token

/-- How messages show a token. -/
def describe : Token → String
  | .unquoted text => "Unquoted(" ++ Text.quoted text ++ ")"
  | .quoted text => "Quoted(" ++ Text.quoted text ++ ")"
  | .reference path optional =>
    "Substitution \x7b path: [" ++ ", ".intercalate (path.toList.map Text.quoted) ++
      "], optional: " ++ (if optional then "true" else "false") ++ " \x7d"
  | .leftBrace => "LBrace"
  | .rightBrace => "RBrace"
  | .leftBracket => "LBracket"
  | .rightBracket => "RBracket"
  | .colon => "Colon"
  | .equals => "Equals"
  | .plusEquals => "PlusEquals"
  | .comma => "Comma"
  | .newline => "Newline"
  | .endOfText => "Eof"

/-- A token that can begin a value or go on with one. -/
def startsValue : Token → Bool
  | .unquoted _ | .quoted _ | .reference .. | .leftBrace | .leftBracket => true
  | _ => false

/-- A token that parts two fields or two elements. -/
def isSeparator : Token → Bool
  | .newline | .comma => true
  | _ => false

end Token
end Hocon
