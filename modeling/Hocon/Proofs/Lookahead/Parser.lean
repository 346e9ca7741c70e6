import Hocon.Include.Files

/-! A parser with one token of lookahead. It takes tokens off a cursor one at a time, in loops and in
branches on the token ahead, and it halts where it cannot go on. Only faults of the text are meant to halt
it; that there is no token to take, or that a branch is met which an earlier check rules out, halts it in a
way of its own, and so does a loop that comes round without having taken a token. -/
namespace Hocon.Lookahead

open Files (FilePath)

inductive Halt where
  | fault (fault : Fault)
  /-- No token is held where one is to be taken. -/
  | noLookahead (place : Position)
  | unexpected (expected found : Token) (place : Position)
  /-- Not even the end of the text is held behind a document. -/
  | nothingBehind (place : Position)
  /-- A branch that an earlier check rules out. -/
  | unreachable
  /-- A value is to be set at a path without keys. -/
  | noKeys
  /-- A loop comes round without having taken a token. -/
  | idle
  /-- There are more passes through a loop, or more values inside each other, than the text can hold. -/
  | exhausted
  | fileNotObject (file : FilePath) (found : Kind)
deriving DecidableEq, Inhabited, Repr

/-- What is shown of a halt. Some are no errors that are shown, but the end of the program or no end at all. -/
def Halt.report? : Halt → Option Report
  | .fault cause => some cause.report
  | .noLookahead place => some ⟨.unexpectedEnd "Unexpected end of input" place, none, some 201⟩
  | .unexpected expected found place =>
    some ⟨.malformed ("Expected " ++ expected.describe ++ ", got " ++ found.describe) place,
      some "Check your syntax", some 202⟩
  | .nothingBehind place =>
    some ⟨.invalidToken "None" place,
      some "Nothing may follow the closing '\x7d' of the root object", some 214⟩
  | .fileNotObject file found =>
    some ⟨.file ("Included file holds " ++ found.label ++ ", not an object") file.text, none, some 304⟩
  | .unreachable | .noKeys | .idle | .exhausted => none

structure Parser where
  cursor : Cursor
  /-- The token ahead. None is held from when one is taken until the next one is read. -/
  ahead : Option Token
  /-- The blanks before the token ahead. -/
  space : String
  /-- Where the token ahead starts. -/
  start : Position
  /-- The references that were read. -/
  references : List Reference
  /-- How many tokens were taken, the end of the text not counted. -/
  taken : Nat
  session : Session
deriving Inhabited

/-- Before a text, with no token read. -/
def Parser.ofText (text : String) (session : Session) : Parser :=
  ⟨.ofText text, none, "", .origin, [], 0, session⟩

abbrev Parsing := EStateM Halt Parser

/-- Answers a directive, or halts. -/
abbrev Answering := Directive → EStateM Halt Session Root

section Effects

variable {α : Type}

/-- A run, the faults of which halt. -/
def halting (run : Run α) : EStateM Halt Session α := fun session =>
  match run session with
  | .ok value after => .ok value after
  | .error fault after => .error (.fault fault) after

/-- A computation on the session alone. -/
def within (run : EStateM Halt Session α) : Parsing α := fun parser =>
  match run parser.session with
  | .ok value after => .ok value { parser with session := after }
  | .error halt after => .error halt { parser with session := after }

def lift (run : Run α) : Parsing α := within (halting run)

def fail (fault : Fault) : Parsing α := throw (.fault fault)

end Effects

section Tokens

/-- The token ahead. -/
def peek : Parsing (Option Token) := return (← get).ahead

/-- Where the token ahead starts. -/
def place : Parsing Position := return (← get).start

/-- Blanks part the token ahead from the one before. -/
def isSpaced : Parsing Bool := return (← get).space != ""

/-- Read the token ahead. Where that fails, none is held. -/
def fetch : Parsing Unit := do
  let reading := (← get).cursor.read
  modify fun parser => { parser with cursor := reading.after, ahead := none }
  match reading.scan.outcome with
  | .error fault => fail fault
  | .ok token =>
    modify fun parser => { parser with ahead := some token, space := reading.space, start := reading.start }

/-- Take the token ahead and read the next one. The end of the text stays ahead. -/
def bump : Parsing Token := do
  match ← peek with
  | none => throw (.noLookahead (← get).cursor.place)
  | some .endOfText =>
    modify fun parser => { parser with space := "" }
    return .endOfText
  | some token =>
    modify fun parser => { parser with ahead := none, taken := parser.taken + 1 }
    fetch
    return token

/-- Take the token ahead, whatever it is. -/
def advance : Parsing Unit := do
  let _ ← bump

/-- Take a token that has to be this one. -/
def expect (expected : Token) : Parsing Unit := do
  let start ← place
  let found ← bump
  if found ≠ expected then throw (.unexpected expected found start)

end Tokens

/-- What one pass through a loop comes to. -/
inductive Pass (σ α : Type) where
  | again (state : σ)
  | finished (result : α)

/-- Go through a loop, pass by pass. One that comes round again has to have taken a token. -/
def loop {σ α : Type} (pass : σ → Parsing (Pass σ α)) : Nat → σ → Parsing α
  | 0, _ => throw .exhausted
  | fuel + 1, state => do
    let before := (← get).taken
    match ← pass state with
    | .finished result => return result
    | .again state =>
      if before < (← get).taken then loop pass fuel state
      else throw .idle

/-- A number for a reference, which is kept with the others. -/
def newReference (path : List String) (optional : Bool) (start : Position) : Parsing Value := do
  let id ← lift Run.freshId
  let target := ⟨id, path, optional, start⟩
  modify fun parser => { parser with references := parser.references ++ [target] }
  return .reference target

section Fields

/-- Merge a value in at the path of these keys, one object for each key but the first. -/
def setPath (fields : Object) (path : List String) (value : Value) : Parsing Object :=
  match path with
  | [] => throw .noKeys
  | head :: rest => return Object.mergeField fields head (Object.nest rest value)

/-- Add an element to what stands at the last key. What is no object on the way becomes one. -/
def appendPath (value : Value) (fields : Object) : List String → Parsing Object
  | [] => return fields
  | [last] => return Object.update fields last (Object.grow value)
  | key :: next :: rest => do
    let slot := (fields.lookup key).getD (.object [])
    let slot := if slot.isObject then slot else .object []
    match slot with
    | .object inner =>
      let grown ← appendPath value inner (next :: rest)
      return Object.insert fields key (.object grown)
    | _ => throw .unreachable

end Fields

/-- The pieces of a value as far as they were read. -/
structure Gathered where
  pieces : List Value
  /-- A reference is among them. -/
  hasReference : Bool
  /-- The first one stands outside quotes. -/
  bare : Bool

def Gathered.none : Gathered := ⟨[], false, false⟩

/-- One more piece, by the token that begins it and the blanks before that. -/
def Gathered.add (found : Gathered) (ahead : Option Token) (space : String) (piece : Value) : Gathered where
  pieces := found.pieces ++ (if !found.pieces.isEmpty && space != "" then [.text space] else []) ++ [piece]
  hasReference :=
    match ahead with
    | some (.reference ..) => true
    | _ => found.hasReference
  bare := if found.pieces.isEmpty then ahead.any Token.isBare else found.bare

section Grammar

/-! Loops go through at most so many passes. -/

variable (limit : Nat)

/-- One token more is skipped if it is ahead. -/
def skipPass (drop : Token → Bool) (_ : Unit) : Parsing (Pass Unit Unit) := do
  match ← peek with
  | some token =>
    if drop token then
      advance
      return .again ()
    else return .finished ()
  | none => return .finished ()

def skip (drop : Token → Bool) : Parsing Unit := loop (skipPass drop) limit ()

/-- Take a part of a key. -/
def keyPart (start : Position) (builder : KeyPath.Builder) : Parsing KeyPath.Builder := do
  match ← bump with
  | .unquoted text =>
    match builder.word? text.toList with
    | some longer => return longer
    | none => fail (.emptyKeySegment start)
  | .quoted text => return builder.append text
  | _ => throw .unreachable

/-- One more part of a key, or its end. -/
def keyPass (start : Position) (found : KeyPath.Builder × Bool) :
    Parsing (Pass (KeyPath.Builder × Bool) KeyPath.Builder) := do
  if found.2 && (← isSpaced) then return .finished found.1
  else
    match ← peek with
    | some (.unquoted _) | some (.quoted _) =>
      let builder ← keyPart start found.1
      return .again (builder, true)
    | _ => return .finished found.1

/-- The keys of a path whose last segment ends here. -/
def closeKey (start : Position) (builder : KeyPath.Builder) : Parsing (List String) :=
  match builder.dot? with
  | some whole => return whole.closed
  | none => fail (.emptyKeySegment start)

/-- Go on with a key, up to its end. -/
def readKey (builder : KeyPath.Builder) (begun : Bool) : Parsing (List String) := do
  let start ← place
  let builder ← loop (keyPass start) limit (builder, begun)
  closeKey start builder

/-- One more word of closing parentheses, if some are missing. -/
def closerPass (missing : Nat) : Parsing (Pass Nat Nat) := do
  if missing = 0 then return .finished missing
  else
    match ← peek with
    | some (.unquoted word) =>
      if word.toList.all (· == ')') then
        if missing < word.length then return .finished missing
        else
          advance
          return .again (missing - word.length)
      else return .finished missing
    | _ => return .finished missing

/-- The qualifiers of a directive, none before a quoted pattern. -/
def readQualifiers : Parsing (List String) := do
  match ← peek with
  | some (.unquoted word) =>
    advance
    return Directive.qualifiers word
  | _ => return []

/-- A directive behind its keyword. -/
def includeSpec : Parsing Directive := do
  let start ← place
  let qualifiers ← readQualifiers
  let required ← lift (Run.ofExcept (Directive.isRequired start qualifiers))
  match ← bump with
  | .quoted pattern =>
    let missing ← loop closerPass limit qualifiers.length
    if missing = 0 then return ⟨pattern, required⟩
    else fail (.unbalancedQualifiers start)
  | token => fail (.noFileName token start)

/-- Blanks and then a quoted text or a word that opens a parenthesis make a directive. -/
def opensDirective : Parsing Bool := do
  let spaced ← isSpaced
  match ← peek with
  | some (.quoted _) => return spaced
  | some (.unquoted word) => return spaced && word.toList.getLast? == some '('
  | _ => return false

/-- What follows a field is a separator, or ends its object. -/
def endOfField (closing : Token) : Parsing Unit := do
  match ← peek with
  | some .newline | some .comma | some .endOfText => return
  | some token =>
    if token = closing then return
    else if token = .rightBrace ∧ closing = .endOfText then fail (.unbalancedBrace (← place))
    else fail (.unseparatedField token (← place))
  | none => return

def quotedValue : Parsing Value := do
  match ← bump with
  | .quoted text => return .text text
  | _ => throw .unreachable

def unquotedValue : Parsing Value := do
  match ← bump with
  | .unquoted text => return .text text
  | _ => throw .unreachable

def referenceValue : Parsing Value := do
  let start ← place
  match ← bump with
  | .reference path optional => newReference path.toList optional start
  | _ => throw .unreachable

variable (answering : Answering)

/-- Have a directive answered and merge the answer in. -/
def includeInto (fields : Object) (directive : Directive) : Parsing Object := do
  let start ← place
  lift (Run.note (.asked directive))
  let included ← within (answering directive)
  match included.value with
  | .object incoming =>
    modify fun parser => { parser with references := parser.references ++ included.references }
    return Object.merge fields incoming
  | other => fail (.includedNotObject directive.pattern other.kind start)

/-! Values inside others are read by a parser that is given. -/

variable (inner : Parsing Value)

/-- The value behind a mark and any newlines. -/
def markedValue : Parsing Value := do
  advance
  skip limit (· == .newline)
  inner

/-- What follows a key: a mark and a value, or an object at once. -/
def fieldValue (fields : Object) (path : List String) (start : Position) : Parsing Object := do
  match ← peek with
  | some .colon | some .equals =>
    let value ← markedValue limit inner
    setPath fields path value
  | some .leftBrace =>
    let value ← inner
    setPath fields path value
  | some .plusEquals =>
    let value ← markedValue limit inner
    appendPath value fields path
  | _ => fail (.noValueAfterKey ⟨path.headD "", path.tail⟩ start)

def field (fields : Object) : Parsing Object := do
  let start ← place
  let path ← readKey limit .empty false
  fieldValue limit inner fields path start

/-- The word that begins directives also begins keys. -/
def includeOrField (fields : Object) : Parsing Object := do
  let start ← place
  advance
  if ← opensDirective then
    let directive ← includeSpec limit
    includeInto answering fields directive
  else
    let path ← readKey limit ⟨[], Directive.keyword, false⟩ true
    fieldValue limit inner fields path start

/-- One field or directive, by the token ahead. -/
def readEntry (fields : Object) (ahead : Option Token) : Parsing Object := do
  match ahead with
  | some .endOfText => fail (.unclosedObject (← place))
  | some (.unquoted word) =>
    if word = Directive.keyword then includeOrField limit answering inner fields
    else field limit inner fields
  | some (.quoted _) => field limit inner fields
  | some token => fail (.noKey token (← place))
  | none => throw .unreachable

/-- One more field, or the end of them. -/
def bodyPass (closing : Token) (fields : Object) : Parsing (Pass Object Object) := do
  skip limit Token.isSeparator
  let ahead ← peek
  if ahead = some closing then
    if closing ≠ .endOfText then advance
    return .finished fields
  else
    let fields ← readEntry limit answering inner fields ahead
    endOfField closing
    return .again fields

/-- The fields of an object up to what closes it. -/
def body (closing : Token) : Parsing Object := loop (bodyPass limit answering inner closing) limit []

def objectValue : Parsing Value := do
  expect .leftBrace
  return .object (← body limit answering inner .rightBrace)

/-- What follows an element is a separator, or ends its array or the text. -/
def endOfElement : Parsing Unit := do
  match ← peek with
  | some .comma | some .newline | some .rightBracket | some .endOfText => return
  | some token => fail (.unseparatedElement token (← place))
  | none => return

/-- One more element, or the end of them. -/
def itemPass (opened : Position) (items : List Value) : Parsing (Pass (List Value) (List Value)) := do
  skip limit Token.isSeparator
  match ← peek with
  | some .rightBracket =>
    advance
    return .finished items
  | some .endOfText => fail (.unclosedArray opened)
  | _ =>
    let value ← inner
    endOfElement
    return .again (items ++ [value])

def arrayValue : Parsing Value := do
  let opened ← place
  advance
  return .array (← loop (itemPass limit inner opened) limit [])

/-- One piece of a value, by the token ahead. -/
def readPiece (ahead : Option Token) : Parsing Value :=
  match ahead with
  | some (.quoted _) => quotedValue
  | some (.unquoted _) => unquotedValue
  | some (.reference ..) => referenceValue
  | some .leftBrace => objectValue limit answering inner
  | some .leftBracket => arrayValue limit inner
  | _ => throw .unreachable

/-- One more piece of a value, or the end of them. -/
def piecePass (found : Gathered) : Parsing (Pass Gathered Gathered) := do
  let ahead ← peek
  if ahead.any Token.startsValue then
    let space := (← get).space
    let piece ← readPiece limit answering inner ahead
    return .again (found.add ahead space piece)
  else return .finished found

/-- The value that pieces make. -/
def closeValue (start : Position) (found : Gathered) : Parsing Value :=
  match found.pieces with
  | [] => do
    let token ← bump
    fail (.noValue token start)
  | [.text text] => return if found.bare && text == "null" then .null else .text text
  | [piece] => return piece
  | pieces =>
    if found.hasReference then return .concat pieces
    else lift (Run.ofExcept (Value.concatenate pieces))

/-- A value from its pieces. -/
def value : Parsing Value := do
  let start ← place
  let found ← loop (piecePass limit answering inner) limit .none
  closeValue start found

end Grammar

section Documents

variable (limit : Nat) (answering : Answering)

/-- A value with at most so many values inside each other. -/
def nested : Nat → Parsing Value
  | 0 => throw .exhausted
  | depth + 1 => value limit answering (nested depth)

/-- A whole document. Behind the brace that closes it only separators may stand. -/
def document : Parsing Value := do
  skip limit (· == .newline)
  match ← peek with
  | some .leftBrace =>
    advance
    let fields ← body limit answering (nested limit answering limit) .rightBrace
    skip limit Token.isSeparator
    match ← peek with
    | some .endOfText => return .object fields
    | some token => fail (.textAfterDocument token (← place))
    | none => throw (.nothingBehind (← place))
  | some .leftBracket => fail (.arrayDocument (← place))
  | _ => return .object (← body limit answering (nested limit answering limit) .endOfText)

end Documents

/-- Parse a text. No loop and no nesting may take more than one step for each of its characters, and one
to end. -/
def parse (answering : Answering) (text : String) : EStateM Halt Session Root := fun session =>
  match (fetch >>= fun _ => document (text.length + 1) answering) (.ofText text session) with
  | .ok value later => .ok ⟨value, later.references⟩ later.session
  | .error halt later => .error halt later.session

section Resolver

open Include (World Site known known_of_read outside outside_cons_lt)

/-- One more file, merged into what was read before it. Both have to be objects. -/
def gather (loads : FilePath → EStateM Halt Session Root) (merged : Root) (file : FilePath) :
    EStateM Halt Session Root := do
  halting (Run.note (.loading file.text))
  let loaded ← loads file
  match merged.value, loaded.value with
  | .object base, .object incoming =>
    return ⟨.object (Object.merge base incoming), merged.references ++ loaded.references⟩
  | _, other => throw (.fileNotObject file other.kind)

mutual

/-- Read one file and what it includes. -/
def load (world : World) (site : Site) (file : FilePath) : EStateM Halt Session Root := do
  let key := world.files.identity file
  if _fresh : key ∈ site.chain then throw (.fault (.includeCycle file.text))
  else
    match _done : world.files.read file with
    | .error cause => throw (.fault (.unreadableInclude file.text cause))
    | .ok text => parse (answer world ⟨file.folder, key :: site.chain⟩) text
termination_by 2 * outside (known world.files) site.chain
decreasing_by
  obtain ⟨_, held⟩ := known_of_read _done
  have fewer := outside_cons_lt held _fresh
  omega

/-- Answer a directive with the files that its pattern means, merged in order. -/
def answer (world : World) (site : Site) (directive : Directive) : EStateM Halt Session Root := do
  let files ← halting (site.seek world directive.pattern)
  if files.isEmpty then
    if directive.required then throw (.fault (.noMatch directive.pattern))
    else
      halting (Run.note (.unmatched directive.pattern))
      return .empty
  else files.foldlM (gather fun file => load world site file) .empty
termination_by 2 * outside (known world.files) site.chain + 1

end

end Resolver

end Hocon.Lookahead
