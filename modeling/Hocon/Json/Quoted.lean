namespace Hocon.Json

/-- Hexadecimal digits, four of them. -/
def fourDigits (n : Nat) : List Char :=
  [16 * 16 * 16, 16 * 16, 16, 1].map fun power => Nat.digitChar (n / power % 16)

/-- A character inside quotes. -/
def escapeChar (c : Char) : List Char :=
  if c = '"' then ['\\', '"']
  else if c = '\\' then ['\\', '\\']
  else if c = '\x08' then ['\\', 'b']
  else if c = '\t' then ['\\', 't']
  else if c = '\n' then ['\\', 'n']
  else if c = '\x0c' then ['\\', 'f']
  else if c = '\r' then ['\\', 'r']
  else if c < ' ' then '\\' :: 'u' :: fourDigits c.toNat
  else [c]

/-- A string between its quotes. -/
def quoted (text : String) : List Char := '"' :: text.toList.flatMap escapeChar ++ ['"']

end Hocon.Json
