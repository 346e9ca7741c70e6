import Hocon.Position

namespace Hocon

namespace Report

/-- What a report is about, with the particulars that its text shows. -/
inductive Subject where
  | malformed (message : String) (place : Position)
  | invalidToken (token : String) (place : Position)
  | unexpectedEnd (message : String) (place : Position)
  | unclosedString (quote : Char) (place : Position)
  | unexpectedCharacter (character : Char) (place : Position)
  | kindMismatch (expected found : String)
  | conversion (message : String)
  | pathNotFound (path : String)
  | file (message path : String)
  | pattern (message written : String)
  | includeCycle (path : String)
  | unresolvedReference (path : String) (place : Position)
  | referenceCycle (path : String)
  | concatMismatch (left right : String)
  | unresolvedValue (message : String)
  | json (message : String)
deriving DecidableEq, Inhabited, Repr

/-- A place as messages show it. -/
def placed (place : Position) : String :=
  " at " ++ toString place.line ++ ":" ++ toString place.column

/-- A path as a reference to it is written. -/
def asReference (path : String) : String := "$\x7b" ++ path ++ "\x7d"

def Subject.text : Subject → String
  | .malformed message place => "Syntax Error" ++ placed place ++ ": " ++ message
  | .invalidToken token place => "Invalid Token '" ++ token ++ "'" ++ placed place
  | .unexpectedEnd message place => "Unexpected EOF" ++ placed place ++ ": " ++ message
  | .unclosedString quote place =>
    "Unclosed string starting with '" ++ quote.toString ++ "'" ++ placed place
  | .unexpectedCharacter character place =>
    "Unexpected character '" ++ character.toString ++ "'" ++ placed place
  | .kindMismatch expected found => "Type Mismatch: expected " ++ expected ++ ", found " ++ found
  | .conversion message => "Type Error: " ++ message
  | .pathNotFound path => "Path '" ++ path ++ "' not found in configuration"
  | .file message path => "File Error '" ++ path ++ "': " ++ message
  | .pattern message written => "Glob Error '" ++ written ++ "': " ++ message
  | .includeCycle path => "Include cycle: '" ++ path ++ "' is already being included"
  | .unresolvedReference path place => "Unresolved substitution " ++ asReference path ++ placed place
  | .referenceCycle path => "Substitution cycle through " ++ asReference path
  | .concatMismatch left right => "Cannot concatenate " ++ left ++ " with " ++ right
  | .unresolvedValue message => "Unresolved value: " ++ message
  | .json message => "JSON Error: " ++ message

/-- The subjects beside which a way out can be shown. -/
def Subject.takesHint : Subject → Bool
  | .malformed .. | .invalidToken .. | .unexpectedEnd .. | .unclosedString ..
  | .unexpectedCharacter .. | .conversion .. | .file .. | .unresolvedReference .. => true
  | _ => false

/-- All subjects have a number but those that the JSON writer reports. -/
def Subject.takesCode : Subject → Bool
  | .json _ => false
  | _ => true

end Report

/-- A subject, a way out for the reader, and the number of the fault. -/
structure Report where
  subject : Report.Subject
  hint : Option String
  code : Option Nat
deriving DecidableEq, Inhabited, Repr

namespace Report

/-- The hint, if the subject takes one. -/
def shownHint (report : Report) : Option String :=
  if report.subject.takesHint then report.hint else none

/-- The number, if the subject takes one. -/
def shownCode (report : Report) : Option Nat :=
  if report.subject.takesCode then report.code else none

/-- The line that is shown. -/
def message (report : Report) : String :=
  "[HOCON] " ++ report.subject.text ++
    (match report.shownHint with
      | some hint => " Hint: " ++ hint
      | none => "") ++
    (match report.shownCode with
      | some code => " Code: " ++ toString code
      | none => "")

end Report
end Hocon
