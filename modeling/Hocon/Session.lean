import Hocon.Value

/-! What a load leaves behind besides its result: the numbers given to references,
and notes of what happened. Both outlive a fault. -/
namespace Hocon

/-- A request for other documents, as it is written in a document. -/
structure Directive where
  pattern : String
  /-- Matching nothing is a fault. -/
  required : Bool
deriving DecidableEq, Inhabited, Repr

inductive Level where
  | warn
  | info
  | debug
deriving DecidableEq, Inhabited, Repr

/-- Something that happened on the way. -/
inductive Note where
  | asked (directive : Directive)
  | searched (pattern : String)
  | unmatched (pattern : String)
  | loading (path : String)
  | parsing (path base : String)
  | pending (count : Nat)
  | fromEnvironment (name : String)
  | resolved (name : String) (defined : Bool)
deriving DecidableEq, Inhabited, Repr

/-- The line that a log shows of a note, and how much it matters; directives and searches
as such are not logged. -/
def Note.line? : Note → Option (Level × String)
  | .asked _ | .searched _ => none
  | .unmatched pattern => some (.warn, "[" ++ pattern ++ "] does not match any file")
  | .loading path => some (.info, "Loading configurations from file [" ++ path ++ "]")
  | .parsing path base =>
    some (.debug, "Parsing [" ++ path ++ "] with includes from [" ++ base ++ "]")
  | .pending count => some (.debug, toString count ++ " substitution(s) pending")
  | .fromEnvironment name =>
    some (.debug, Report.asReference name ++ " resolved from the environment")
  | .resolved name defined =>
    some (.debug, Report.asReference name ++ " resolved (defined: " ++
      (if defined then "true" else "false") ++ ")")

structure Session where
  /-- The number of the next reference; no number is given twice. -/
  nextId : Nat
  /-- What happened, the latest first. -/
  notes : List Note
deriving Inhabited, Repr

namespace Session

def start : Session := ⟨0, []⟩

/-- What happened, in order. -/
def history (session : Session) : List Note := session.notes.reverse

/-- The directives that were handed over, in order. -/
def asked (session : Session) : List Directive :=
  session.history.filterMap fun note =>
    match note with
    | .asked directive => some directive
    | _ => none

/-- The patterns that files were looked for by, in order. -/
def searched (session : Session) : List String :=
  session.history.filterMap fun note =>
    match note with
    | .searched pattern => some pattern
    | _ => none

end Session

/-- A computation that may end in a fault; the session stays as it was then. -/
abbrev Run := EStateM Fault Session

namespace Run

def ofExcept {α : Type} : Except Fault α → Run α
  | .ok value => pure value
  | .error fault => throw fault

def note (note : Note) : Run Unit :=
  modify fun session => { session with notes := note :: session.notes }

/-- A number that no reference has yet. -/
def freshId : Run Nat := do
  let session ← get
  set { session with nextId := session.nextId + 1 }
  return session.nextId

/-- The result in a new session, and what that session leaves behind. -/
def outcome {α : Type} (run : Run α) (session : Session) : Except Fault α × Session :=
  match run session with
  | .ok value session => (.ok value, session)
  | .error fault session => (.error fault, session)

end Run

/-- Answers a directive with the document that it asks for. -/
abbrev Includer := Directive → Run Root

end Hocon
