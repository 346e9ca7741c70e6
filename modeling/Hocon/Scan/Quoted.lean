import Hocon.Scan

namespace Hocon.Scan

/-- The escapes of one letter. -/
def shortEscape? : Char → Option Char
  | 'n' => some '\n'
  | 't' => some '\t'
  | 'r' => some '\r'
  | 'b' => some '\x08'
  | 'f' => some '\x0c'
  | '"' => some '"'
  | '\\' => some '\\'
  | '/' => some '/'
  | _ => none

/-- The value of a hexadecimal digit in either case. -/
def hexDigit? (c : Char) : Option Nat :=
  if c.isDigit then some (c.toNat - '0'.toNat)
  else if 'a' ≤ c && c ≤ 'f' then some (c.toNat - 'a'.toNat + 10)
  else if 'A' ≤ c && c ≤ 'F' then some (c.toNat - 'A'.toNat + 10)
  else none

/-- The character of a code point; surrogates have none. -/
def charOf? (codePoint : Nat) : Option Char :=
  if codePoint.isValidChar then some (Char.ofNat codePoint) else none

/-- The digits still missing of a code point. `seen` are those read, of the value so far. -/
def codePoint (seen : List Char) (value : Nat) (place : Position) (missing : Nat)
    (text : List Char) : Scan Char :=
  let refuse := Fault.badEscape (String.ofList ('\\' :: 'u' :: seen))
  match missing, text with
  | 0, rest =>
    match charOf? value with
    | some c => .ok c place rest
    | none => .fail (refuse place) place rest
  | _ + 1, [] => .fail (refuse place) place []
  | missing + 1, c :: rest =>
    match hexDigit? c with
    | some digit => codePoint (seen ++ [c]) (value * 16 + digit) (place.after c) missing rest
    | none => .fail (refuse (place.after c)) (place.after c) rest

/-- The character that an escape stands for, read behind the backslash. -/
def escape (place : Position) : List Char → Scan Char
  | [] => .fail (.trailingBackslash place) place []
  | c :: rest =>
    if c = 'u' then codePoint [] 0 (place.after c) 4 rest
    else match shortEscape? c with
      | some decoded => .ok decoded (place.after c) rest
      | none =>
        .fail (.badEscape (String.ofList ['\\', c]) (place.after c)) (place.after c) rest

theorem codePoint_rest_le (seen : List Char) (value : Nat) (place : Position) (missing : Nat)
    (text : List Char) :
    (codePoint seen value place missing text).after.rest.length ≤ text.length := by
  fun_induction codePoint seen value place missing text with
  | case4 seen value place missing c rest digit _ ih =>
    simp only [List.length_cons]
    omega
  | _ => simp

theorem escape_rest_le (place : Position) (text : List Char) :
    (escape place text).after.rest.length ≤ text.length := by
  cases text with
  | nil => simp [escape]
  | cons c rest =>
    have shorter := codePoint_rest_le [] 0 (place.after c) 4 rest
    simp only [escape, List.length_cons]
    split
    · omega
    · split <;> simp

/-- The text up to the closing quote, read behind the opening one. -/
def quoted (opened place : Position) (text : List Char) : Scan (List Char) :=
  match text with
  | [] => .fail (.unclosedQuoted opened) place []
  | c :: rest =>
    let next := place.after c
    if c = '"' then .ok [] next rest
    else if c = '\n' then .fail (.unclosedQuoted opened) next rest
    else if c = '\\' then
      match (escape next rest).outcome with
      | .ok decoded =>
        (quoted opened (escape next rest).after.place (escape next rest).after.rest).map
          (decoded :: ·)
      | .error fault => ⟨.error fault, (escape next rest).after⟩
    else (quoted opened next rest).map (c :: ·)
termination_by text.length
decreasing_by
  · have shorter := escape_rest_le (place.after c) rest
    simp only [List.length_cons]
    omega
  · simp

theorem quoted_rest_le (opened place : Position) (text : List Char) :
    (quoted opened place text).after.rest.length ≤ text.length := by
  fun_induction quoted opened place text with
  | case1 => simp
  | case2 => simp
  | case3 => simp
  | case4 place rest decoded next _ _ _ ih =>
    have shorter := escape_rest_le next rest
    simp only [after_map, List.length_cons]
    omega
  | case5 place rest fault next =>
    have shorter := escape_rest_le next rest
    simp only [List.length_cons]
    omega
  | case6 place c rest next _ _ _ ih =>
    simp only [after_map, List.length_cons]
    omega

/-- The text up to three closing quotes, read behind the opening ones. Quotes that
follow the closing ones belong to the text. -/
def tripleQuoted (opened place : Position) : List Char → Scan (List Char)
  | [] => .fail (.unclosedTriple opened) place []
  | '"' :: '"' :: '"' :: rest =>
    .ok (rest.takeWhile (· == '"'))
      (place.past ('"' :: '"' :: '"' :: rest.takeWhile (· == '"')))
      (rest.dropWhile (· == '"'))
  | c :: rest => (tripleQuoted opened (place.after c) rest).map (c :: ·)

theorem tripleQuoted_rest_le (opened place : Position) (text : List Char) :
    (tripleQuoted opened place text).after.rest.length ≤ text.length := by
  fun_induction tripleQuoted opened place text with
  | case1 => simp
  | case2 place rest =>
    have shorter := (List.dropWhile_suffix (l := rest) (· == '"')).length_le
    simp only [after_ok, List.length_cons]
    omega
  | case3 place c rest _ ih =>
    simp only [after_map, List.length_cons]
    omega

end Hocon.Scan
