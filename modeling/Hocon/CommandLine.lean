import Hocon.Config

namespace Hocon.CommandLine

open Include (World)

/-- What the arguments ask for. -/
inductive Request where
  | convert (file : String)
  | help
  | version
  /-- Arguments that ask for nothing there is. -/
  | misuse
deriving DecidableEq, Inhabited, Repr

/-- A dash in front makes an option of an argument; a dash alone is an ordinary one. -/
def isOption (argument : String) : Bool :=
  match argument.toList with
  | ['-'] => false
  | '-' :: _ => true
  | _ => false

/-- The file that `--hocon=file` names. -/
def attached? (argument : String) : Option String :=
  let mark := "--hocon=".toList
  if mark.isPrefixOf argument.toList then some (String.ofList (argument.toList.drop mark.length))
  else none

/-- Read arguments from left to right, up to the first that asks for help or the
version. The file is given once and has a name. -/
def request (chosen : Option String) : List String → Request
  | [] =>
    match chosen with
    | some file => .convert file
    | none => .misuse
  | argument :: rest =>
    if argument = "--" then if rest = [] then request chosen rest else .misuse
    else if argument = "--help" then .help
    else if argument = "--version" then .version
    else if argument = "--hocon" then
      match rest with
      | file :: rest =>
        if isOption file || file = "" || chosen.isSome then .misuse else request (some file) rest
      | [] => .misuse
    else
      match attached? argument with
      | some file => if file = "" || chosen.isSome then .misuse else request (some file) rest
      | none =>
        match argument.toList.take 2 with
        | ['-', 'h'] => .help
        | ['-', 'V'] => .version
        | _ => .misuse

structure Outcome where
  status : Nat
  output : String
  errors : String
deriving DecidableEq, Inhabited, Repr

def versionText : String := "hocon-json 0.1.0\n"

def helpText : String :=
  "Resolve HOCON configuration (includes, substitutions, merges) and emit it as JSON.\n\n" ++
    "Usage: hocon2json --hocon <FILE>\n\n" ++
    "Options:\n" ++
    "      --hocon <FILE>  HOCON file to convert.\n" ++
    "  -h, --help          Print help\n" ++
    "  -V, --version       Print version\n"

def usageText : String :=
  "error: the arguments are not understood\n\nUsage: hocon2json --hocon <FILE>\n\n" ++
    "For more information, try '--help'.\n"

/-- The line of a note that the log shows; what only helps to find errors is left out. -/
def logLine (note : Note) : String :=
  match note.line? with
  | some (.warn, message) => "WARN - " ++ message ++ "\n"
  | some (.info, message) => "INFO - " ++ message ++ "\n"
  | some (.debug, _) | none => ""

/-- The text with four spaces at the start of each line. -/
def indented (text : String) : String :=
  "\n".intercalate ((Text.splitAt '\n' text).map ("    " ++ ·))

def failureText (file message : String) : String :=
  "Error: Unable to convert '" ++ file ++ "'\n\nCaused by:\n" ++ indented message ++ "\n"

/-- The JSON text of a file. -/
def convert (world : World) (file : String) : Run String := do
  let config ← Config.ofFile world ⟨file⟩
  Run.ofExcept config.value.toJsonText

/-- What the tool prints, and its status. -/
def run (world : World) (arguments : List String) : Outcome :=
  match request none arguments with
  | .help => ⟨0, helpText, ""⟩
  | .version => ⟨0, versionText, ""⟩
  | .misuse => ⟨2, "", usageText⟩
  | .convert file =>
    let (result, session) := (convert world file).outcome .start
    let log := String.join (session.history.map logLine)
    match result with
    | .ok json => ⟨0, json ++ "\n", log⟩
    | .error fault => ⟨1, "", log ++ failureText file fault.message⟩

end Hocon.CommandLine
