import Hocon.Scan.Reference

/-! Lexemes: a token together with the blanks before it and the place where it
starts. A text is read lexeme by lexeme, and reading can go on behind a fault. -/
namespace Hocon

structure Lexeme where
  space : String
  start : Position
  token : Token
deriving DecidableEq, Inhabited, Repr

namespace Lexeme

/-- Blanks part it from the token before. -/
def isSpaced (lexeme : Lexeme) : Bool := lexeme.space != ""

end Lexeme

/-- One step of reading: like a lexeme, with what was met in the place of a token. -/
structure Reading where
  space : String
  start : Position
  scan : Scan Token

namespace Reading

/-- The text is over. -/
def isEnd (reading : Reading) : Bool :=
  match reading.scan.outcome with
  | .ok .endOfText => true
  | _ => false

def after (reading : Reading) : Cursor := reading.scan.after

end Reading

namespace Cursor

/-- Blanks in front of the next token. -/
def blanks (cursor : Cursor) : List Char := cursor.rest.takeWhile Text.isBlank

/-- The comment behind the blanks, if one is there. -/
def remark (cursor : Cursor) : List Char := comment (cursor.rest.dropWhile Text.isBlank)

/-- The cursor at the next token, past blanks and a comment. -/
def skip (cursor : Cursor) : Cursor :=
  cursor.past (cursor.blanks ++ cursor.remark)
    ((cursor.rest.dropWhile Text.isBlank).drop cursor.remark.length)

/-- The token that one character makes. -/
def symbol? : Char → Option Token
  | '\n' => some .newline
  | '\x7b' => some .leftBrace
  | '\x7d' => some .rightBrace
  | '[' => some .leftBracket
  | ']' => some .rightBracket
  | ':' => some .colon
  | '=' => some .equals
  | ',' => some .comma
  | _ => none

/-- The token at a cursor with no blanks before it. -/
def token (place : Position) (text : List Char) : Scan Token :=
  match text with
  | [] => .ok .endOfText place []
  | '+' :: '=' :: rest => .ok .plusEquals ((place.after '+').after '=') rest
  | '$' :: rest => Scan.reference place.ahead (place.after '$') rest
  | '"' :: '"' :: '"' :: rest =>
    (Scan.tripleQuoted place.ahead (place.past ['"', '"', '"']) rest).map
      (.quoted ∘ String.ofList)
  | '"' :: rest =>
    (Scan.quoted place.ahead (place.after '"') rest).map (.quoted ∘ String.ofList)
  | c :: rest =>
    match symbol? c with
    | some symbol => .ok symbol (place.after c) rest
    | none =>
      if isForbidden c then
        .fail (.unexpectedCharacter c (place.after c)) (place.after c) rest
      else
        .ok (.unquoted (String.ofList (word (c :: rest)).1)) (place.past (word (c :: rest)).1)
          (word (c :: rest)).2

/-- One step of reading from a cursor. -/
def read (cursor : Cursor) : Reading :=
  ⟨String.ofList cursor.blanks, cursor.skip.place.ahead, token cursor.skip.place cursor.skip.rest⟩

theorem skip_rest_le (cursor : Cursor) : cursor.skip.rest.length ≤ cursor.rest.length := by
  have dropped := (List.dropWhile_suffix (l := cursor.rest) Text.isBlank).length_le
  simp only [skip, past, List.length_drop]
  omega

/-- No token begins where a comment does, so a word has a first letter. -/
theorem startsComment_skip (cursor : Cursor) : startsComment cursor.skip.rest = false := by
  change startsComment ((cursor.rest.dropWhile Text.isBlank).drop (comment _).length) = false
  generalize cursor.rest.dropWhile Text.isBlank = text
  unfold comment
  split
  case isFalse plain => simpa using plain
  case isTrue =>
    -- behind a comment its line is over
    have behind : (text.takeWhile (· != '\n') ++ text.dropWhile (· != '\n')).drop
        (text.takeWhile (· != '\n')).length = text.dropWhile (· != '\n') := List.drop_left
    rw [List.takeWhile_append_dropWhile] at behind
    have ends := List.head?_dropWhile_not (· != '\n') text
    rw [behind]
    cases left : text.dropWhile (· != '\n') with
    | nil => rfl
    | cons c rest =>
      obtain rfl : c = '\n' := by simpa [left] using ends
      rfl

theorem token_shorter (place : Position) (text : List Char) (more : text ≠ [])
    (code : startsComment text = false) : (token place text).after.rest.length < text.length := by
  unfold token
  split
  · exact absurd rfl more
  · simp only [Scan.after_ok, List.length_cons]; omega
  · rename_i rest
    have shorter := Scan.reference_rest_le place.ahead (place.after '$') rest
    simp only [List.length_cons]; omega
  · rename_i rest
    have shorter := Scan.tripleQuoted_rest_le place.ahead (place.past ['"', '"', '"']) rest
    simp only [Scan.after_map, List.length_cons]; omega
  · rename_i rest _
    have shorter := Scan.quoted_rest_le place.ahead (place.after '"') rest
    simp only [Scan.after_map, List.length_cons]; omega
  · rename_i c rest _ _ _ _
    have shorter := word_rest_le rest
    split
    · simp
    · split
      · simp
      · rename_i letter
        have whole := word_of_letter (by simpa using letter) code
        simp only [Scan.after_ok, whole, List.length_cons]; omega

/-- Every step but the last leaves less to read. -/
theorem read_shorter (cursor : Cursor) (going : cursor.read.isEnd = false) :
    cursor.read.after.rest.length < cursor.rest.length := by
  by_cases done : cursor.skip.rest = []
  · simp [read, Reading.isEnd, done, token, Scan.ok] at going
  · exact Nat.lt_of_lt_of_le (token_shorter _ _ done cursor.startsComment_skip) cursor.skip_rest_le

/-- All steps to the end of the text, faults among them. -/
def readAll (cursor : Cursor) : List Reading :=
  match _going : cursor.read.isEnd with
  | true => [cursor.read]
  | false => cursor.read :: cursor.read.after.readAll
termination_by cursor.rest.length
decreasing_by exact cursor.read_shorter ‹_›

end Cursor
end Hocon
