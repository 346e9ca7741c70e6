import Hocon.Files.Pattern
import Hocon.Files.Tree
import Hocon.Kind
import Hocon.Number.Numeral
import Hocon.Report
import Hocon.Token

namespace Hocon

/-- Why a value has no counterpart in the type that is asked for. -/
inductive Misfit where
  | notText (found : Kind)
  | notNumeral (text type : String) (cause : Number.NumeralFault)
  | notNumber (found : Kind)
  | notTruth (text : String)
  | notBoolean (found : Kind)
  | notArray (found : Kind)
  | notObject (found : Kind)
deriving DecidableEq, Inhabited, Repr

inductive Fault where
  -- Reading tokens
  | unexpectedCharacter (character : Char) (place : Position)
  | unexpectedInReference (character : Char) (place : Position)
  | unclosedQuoted (opened : Position)
  | unclosedTriple (opened : Position)
  | trailingBackslash (place : Position)
  | badEscape (sequence : String) (place : Position)
  | noBraceInReference (start : Position)
  | unclosedReference (start : Position)
  | emptyPathSegment (start : Position)
  -- Reading the document
  | unclosedObject (place : Position)
  | unbalancedBrace (place : Position)
  | unseparatedField (token : Token) (place : Position)
  | noValueAfterKey (key : KeyPath) (start : Position)
  | noKey (token : Token) (place : Position)
  | emptyKeySegment (start : Position)
  | unclosedArray (opened : Position)
  | noValue (token : Token) (place : Position)
  | unseparatedElement (token : Token) (place : Position)
  | textAfterDocument (token : Token) (place : Position)
  | arrayDocument (place : Position)
  -- Including
  | noFileName (token : Token) (start : Position)
  | includedNotObject (pattern : String) (found : Kind) (place : Position)
  | unsupportedQualifier (word : String) (start : Position)
  | unknownQualifier (word : String) (start : Position)
  | unbalancedQualifiers (start : Position)
  | noHome (pattern : String)
  | badPattern (pattern : String) (cause : Files.PatternFault)
  | unlistedFolder (pattern : String) (folder : Files.FilePath) (cause : Files.ReadFault)
  | noMatch (pattern : String)
  | notInTable (pattern : String)
  | includeCycle (path : String)
  | unreadableInclude (path : String) (cause : Files.ReadFault)
  | unreadableDocument (path : String) (cause : Files.ReadFault)
  -- Resolving
  | unresolved (path : String) (place : Position)
  | referenceCycle (path : String)
  | concatMismatch (left right : Kind)
  -- Using a value
  | kindMismatch (expected found : Kind)
  | unfit (cause : Misfit) (path : Option String)
  | pathNotFound (path : String)
  | noKeys (path : String) (found : Kind)
  | pendingReference (path : String) (place : Position)
  | pendingConcat
  | unwritable (message : String)
deriving DecidableEq, Inhabited, Repr

namespace Misfit

def message : Misfit → String
  | .notText found => "Expected string, got " ++ found.label
  | .notNumeral text type cause =>
    "'" ++ text ++ "' is not a valid " ++ type ++ ": " ++ cause.message
  | .notNumber found => "Expected number, got " ++ found.label
  | .notTruth text => "Invalid boolean value '" ++ text ++ "'"
  | .notBoolean found => "Expected boolean, got " ++ found.label
  | .notArray found => "Expected array, got " ++ found.label
  | .notObject found => "Expected object, got " ++ found.label

def hint? : Misfit → Option String
  | .notText _ => some "Use a string value in your config"
  | .notNumeral _ type _ => some ("Use a " ++ type ++ " value in your config")
  | .notNumber _ => some "Use a number value in your config"
  | .notTruth _ => some "Use true/false, yes/no or on/off"
  | .notBoolean _ => none
  | .notArray _ => some "Use an array [...] in your config"
  | .notObject _ => some "Use an object with string values"

def code : Misfit → Nat
  | .notText _ => 405
  | .notNumeral .. | .notNumber _ => 406
  | .notTruth _ | .notBoolean _ => 407
  | .notArray _ => 408
  | .notObject _ => 409

end Misfit

namespace Fault

/-- The report of a value that has no counterpart, with the path that led to it. -/
private def unfitReport (cause : Misfit) (path : Option String) : Report :=
  let located :=
    match path with
    | some path => cause.message ++ " (at '" ++ path ++ "')"
    | none => cause.message
  ⟨.conversion located, cause.hint?, some cause.code⟩

private def escapeHint : String :=
  "Supported escapes: \\n \\t \\r \\b \\f \\\" \\\\ \\/ \\uXXXX"

private def holeHint : String :=
  "Define the path in the configuration or set an environment variable of that name; " ++
    "use $\x7b?path\x7d if it may be absent"

def report : Fault → Report
  | .unexpectedCharacter character place =>
    ⟨.unexpectedCharacter character place,
      some "Quote the value if it contains special characters", some 104⟩
  | .unexpectedInReference character place =>
    ⟨.unexpectedCharacter character place,
      some "Quote path segments that contain special characters", some 104⟩
  | .unclosedQuoted opened =>
    ⟨.unclosedString '"' opened,
      some "Quoted strings end on the same line; use \"\"\" for multi-line text", some 103⟩
  | .unclosedTriple opened =>
    ⟨.unclosedString '"' opened, some "Triple-quoted string not closed", some 103⟩
  | .trailingBackslash place =>
    ⟨.unclosedString '"' place, some "Trailing backslash in string", some 103⟩
  | .badEscape sequence place =>
    ⟨.malformed ("Invalid escape sequence '" ++ sequence ++ "'") place, some escapeHint, some 105⟩
  | .noBraceInReference start =>
    ⟨.malformed "Expected '\x7b' after '$'" start,
      some "Substitutions are written $\x7bpath\x7d or $\x7b?path\x7d", some 106⟩
  | .unclosedReference start =>
    ⟨.unexpectedEnd "Substitution not closed" start, some "Add the closing '\x7d'", some 107⟩
  | .emptyPathSegment start =>
    ⟨.malformed "Empty path segment in substitution" start,
      some "Paths look like $\x7ba.b.c\x7d", some 108⟩
  | .unclosedObject place =>
    ⟨.unexpectedEnd "Object not closed" place, some "Add the closing '\x7d'", some 203⟩
  | .unbalancedBrace place => ⟨.malformed "Unbalanced '\x7d'" place, none, some 204⟩
  | .unseparatedField token place =>
    ⟨.invalidToken token.describe place,
      some "Separate fields with a newline or ','", some 205⟩
  | .noValueAfterKey key start =>
    ⟨.malformed ("Expected ':', '=' or '\x7b' after key '" ++ KeyPath.dotted key.toList ++ "'")
        start,
      some "Write `key = value` or `key \x7b ... \x7d`", some 206⟩
  | .noKey token place =>
    ⟨.invalidToken token.describe place, some "Expected a key, 'include' or '\x7d'", some 207⟩
  | .emptyKeySegment start =>
    ⟨.malformed "Empty key segment" start,
      some "Keys look like a.b.c; quote a key that contains '.'", some 208⟩
  | .unclosedArray opened =>
    ⟨.unexpectedEnd "Array not closed" opened, some "Add the closing ']'", some 209⟩
  | .noValue token place =>
    ⟨.invalidToken token.describe place, some "Expected a value", some 210⟩
  | .unseparatedElement token place =>
    ⟨.invalidToken token.describe place,
      some "Separate array elements with ',' or a newline", some 212⟩
  | .textAfterDocument token place =>
    ⟨.invalidToken ("Some(" ++ token.describe ++ ")") place,
      some "Nothing may follow the closing '\x7d' of the root object", some 214⟩
  | .arrayDocument place =>
    ⟨.malformed "Root value must be an object" place,
      some "Wrap the array in a field, e.g. `items = [...]`", some 215⟩
  | .noFileName token start =>
    ⟨.malformed ("Expected a quoted file name after include, got " ++ token.describe) start,
      some "Write include \"file.conf\"", some 211⟩
  | .includedNotObject pattern found place =>
    ⟨.malformed ("Included '" ++ pattern ++ "' is " ++ found.label ++ ", not an object") place,
      some "Included files must contain an object", some 216⟩
  | .unsupportedQualifier word start =>
    ⟨.malformed ("include " ++ word ++ "(...) is not supported") start,
      some "Use a file path or file(...)", some 217⟩
  | .unknownQualifier word start =>
    ⟨.malformed ("Unknown include qualifier '" ++ word ++ "'") start,
      some "Expected file(...) or required(...)", some 218⟩
  | .unbalancedQualifiers start =>
    ⟨.malformed "Unbalanced parentheses in include" start,
      some "Write include required(\"file.conf\")", some 219⟩
  | .noHome pattern =>
    ⟨.file "Could not determine home directory for ~ expansion" pattern,
      some "Set HOME or use an absolute path in the include", some 300⟩
  | .badPattern pattern cause => ⟨.pattern cause.message pattern, none, some 306⟩
  | .unlistedFolder pattern folder cause =>
    ⟨.pattern ("attempting to read `" ++ folder.text ++ "` resulted in an error: " ++ cause.message)
        pattern,
      none, some 307⟩
  | .noMatch pattern =>
    ⟨.file "Required include matched no file" pattern,
      some "Check the path, or drop required(...) to make it optional", some 303⟩
  | .notInTable pattern => ⟨.file "not in the table" pattern, none, none⟩
  | .includeCycle path => ⟨.includeCycle path, none, some 305⟩
  | .unreadableInclude path cause =>
    ⟨.file ("Failed to read include file: " ++ cause.message) path,
      some "Check that the included file is readable", some 302⟩
  | .unreadableDocument path cause =>
    ⟨.file ("Failed to read file: " ++ cause.message) path,
      some "Check that the file exists and is readable", some 301⟩
  | .unresolved path place => ⟨.unresolvedReference path place, some holeHint, some 402⟩
  | .referenceCycle path => ⟨.referenceCycle path, none, some 404⟩
  | .concatMismatch left right => ⟨.concatMismatch left.label right.label, none, some 403⟩
  | .kindMismatch expected found => ⟨.kindMismatch expected.label found.label, none, some 401⟩
  | .unfit cause path => unfitReport cause path
  | .pathNotFound path => ⟨.pathNotFound path, none, some 410⟩
  | .noKeys path found =>
    ⟨.conversion ("Path '" ++ path ++ "' is " ++ found.label ++ ", not an object"),
      some "Only objects have keys", some 411⟩
  | .pendingReference path place =>
    ⟨.unresolvedValue ("substitution " ++ Report.asReference path ++ Report.placed place ++
        " was never resolved"), none, some 501⟩
  | .pendingConcat => ⟨.unresolvedValue (Kind.concat.label ++ " was never resolved"), none, some 501⟩
  | .unwritable message => ⟨.json message, none, none⟩

/-- The line that is shown. -/
def message (fault : Fault) : String := fault.report.message

def code? (fault : Fault) : Option Nat := fault.report.shownCode

end Fault
end Hocon
