import Hocon.Text.GraphemeExtend
import Hocon.Text.Printable

namespace Hocon.Text

/-- Short escapes of the quoted form. -/
def shortEscape? : Char → Option (List Char)
  | '\x00' => some ['\\', '0']
  | '\t' => some ['\\', 't']
  | '\r' => some ['\\', 'r']
  | '\n' => some ['\\', 'n']
  | '\\' => some ['\\', '\\']
  | '"' => some ['\\', '"']
  | _ => none

/-- A code point in lower-case hexadecimal between braces. -/
def codePointEscape (c : Char) : List Char :=
  ['\\', 'u', '\x7b'] ++ Nat.toDigits 16 c.toNat ++ ['\x7d']

def escapeChar (c : Char) : List Char :=
  match shortEscape? c with
  | some escape => escape
  | none => if isPrintable c && !extendsGrapheme c then [c] else codePointEscape c

/-- The text between double quotes, escaped so that it stays on one line. -/
def quoted (text : String) : String :=
  String.ofList ('"' :: text.toList.flatMap escapeChar ++ ['"'])

end Hocon.Text
