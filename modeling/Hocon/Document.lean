import Hocon.Document.Directive
import Hocon.Entry

/-! Documents. A text is read into one object, whose fields may lie inside braces or
not; every value may be pieces side by side. Directives are answered as they are met. -/
namespace Hocon

/-- What was read at the front of a stream, with the references in it, and the stream
behind it, which is shorter than a limit. -/
structure Parsed (α : Type) (limit : Nat) where
  value : α
  references : List Reference
  rest : Stream
  within : rest.length < limit

/-- An object that was read, with all references that were. -/
structure Document where
  fields : Object
  references : List Reference
deriving Inhabited, Repr

def Document.root (document : Document) : Root := ⟨.object document.fields, document.references⟩

/-- What ends the fields of an object. -/
inductive Closing where
  | brace
  | endOfText
deriving DecidableEq, Inhabited, Repr

/-- One value from its pieces. The word `null` alone is no text, and pieces wait for
each other as long as one of them is a reference. -/
def joinPieces (bare : Bool) (pieces : List Value) : Except Fault Value :=
  match pieces with
  | [.text "null"] => .ok (if bare then .null else .text "null")
  | [piece] => .ok piece
  | pieces => if pieces.any Value.isReference then .ok (.concat pieces) else Value.concatenate pieces

/-- Outside quotes. -/
def Token.isBare : Token → Bool
  | .unquoted _ => true
  | _ => false

namespace Stream

/-- Behind a field stands a separator or what ends its object. -/
def endOfField (closing : Closing) (stream : Stream) : Except Fault Unit :=
  match stream.token with
  | .newline | .comma | .endOfText => .ok ()
  | .rightBrace =>
    match closing with
    | .brace => .ok ()
    | .endOfText => .error (.unbalancedBrace stream.start)
  | token => .error (.unseparatedField token stream.start)

/-- Behind an element stands a separator, or the end of its array or of the text. -/
def endOfElement (stream : Stream) : Except Fault Unit :=
  match stream.token with
  | .newline | .comma | .endOfText | .rightBracket => .ok ()
  | token => .error (.unseparatedElement token stream.start)

/-- A directive behind its keyword, handed over and answered. -/
def inclusion (includer : Includer) (stream : Stream) : Run (Parsed Entry stream.length) := do
  let ⟨directive, rest, within⟩ ← Run.ofExcept stream.directive
  Run.note (.asked directive)
  let root ← includer directive
  match root.value with
  | .object fields => return ⟨.included fields, root.references, rest, within⟩
  | other => throw (.includedNotObject directive.pattern other.kind rest.start)

mutual

/-- Fields up to what closes their object. -/
def fields (includer : Includer) (closing : Closing) (stream : Stream) :
    Run (Parsed (List Entry) (stream.length + 1)) := do
  let ⟨front, skipped⟩ ← Run.ofExcept (stream.dropWhile Token.isSeparator)
  match front.next? with
  | none =>
    match closing with
    | .endOfText => return ⟨[], [], front, skipped⟩
    | .brace => throw (.unclosedObject front.start)
  | some (lexeme, step) =>
    if closing = .brace ∧ lexeme.token = .rightBrace then
      let ⟨rest, behind⟩ ← Run.ofExcept step
      have within := lt_of_lt_of_le behind skipped
      return ⟨[], [], rest, lt_succ_of_lt within⟩
    else
      let ⟨first, references, next, within⟩ ← entry includer front
      Run.ofExcept (next.endOfField closing)
      let ⟨others, further, rest, past⟩ ← fields includer closing next
      return ⟨first :: others, references ++ further, rest, lt_succ_of_le past within skipped⟩
termination_by 5 * stream.length + 4

/-- One field, or one directive. -/
def entry (includer : Includer) (stream : Stream) : Run (Parsed Entry stream.length) := do
  match stream.next? with
  | some (⟨_, start, .unquoted word⟩, step) =>
    if word = Directive.keyword then
      let ⟨next, behind⟩ ← Run.ofExcept step
      if next.opensDirective then
        let ⟨found, references, rest, within⟩ ← next.inclusion includer
        return ⟨found, references, rest, lt_of_lt within behind⟩
      else
        let ⟨path, named, left⟩ ← Run.ofExcept (next.key next.start ⟨[], word, false⟩ true)
        let ⟨found, references, rest, within⟩ ← assignment includer start path named
        have past := lt_of_lt_of_le within left
        return ⟨found, references, rest, lt_of_lt past behind⟩
    else
      let ⟨path, named, left⟩ ← Run.ofExcept (stream.key start .empty false)
      let ⟨found, references, rest, within⟩ ← assignment includer start path named
      return ⟨found, references, rest, lt_of_lt_of_le within left⟩
  | some (⟨_, start, .quoted _⟩, _) =>
    let ⟨path, named, left⟩ ← Run.ofExcept (stream.key start .empty false)
    let ⟨found, references, rest, within⟩ ← assignment includer start path named
    return ⟨found, references, rest, lt_of_lt_of_le within left⟩
  | _ => throw (.noKey stream.token stream.start)
termination_by 5 * stream.length + 3

/-- What follows a key: a mark and a value, or an object at once. -/
def assignment (includer : Includer) (start : Position) (path : KeyPath) (stream : Stream) :
    Run (Parsed Entry stream.length) := do
  match stream.next? with
  | some (⟨_, _, .colon⟩, step) | some (⟨_, _, .equals⟩, step) =>
    let ⟨found, references, rest, within⟩ ← assigned includer stream step
    return ⟨.assign path found, references, rest, within⟩
  | some (⟨_, _, .plusEquals⟩, step) =>
    let ⟨found, references, rest, within⟩ ← assigned includer stream step
    return ⟨.append path found, references, rest, within⟩
  | some (⟨_, _, .leftBrace⟩, _) =>
    let ⟨found, references, rest, within⟩ ← value includer stream
    return ⟨.assign path found, references, rest, within⟩
  | _ => throw (.noValueAfterKey path start)
termination_by 5 * stream.length + 2

/-- The value behind a mark and any newlines. -/
def assigned (includer : Includer) (stream : Stream) (step : Except Fault stream.Shorter) :
    Run (Parsed Value stream.length) := do
  let ⟨next, behind⟩ ← Run.ofExcept step
  let ⟨front, skipped⟩ ← Run.ofExcept (next.dropWhile (· == .newline))
  let ⟨found, references, rest, within⟩ ← value includer front
  have past := lt_of_lt_of_le within skipped
  return ⟨found, references, rest, lt_of_lt past behind⟩
termination_by 5 * stream.length

/-- A value from its pieces. -/
def value (includer : Includer) (stream : Stream) : Run (Parsed Value stream.length) := do
  let ⟨first, references, next, within⟩ ← piece includer stream
  let ⟨others, further, rest, past⟩ ← pieces includer next
  let joined ← Run.ofExcept (joinPieces stream.token.isBare (first :: others))
  return ⟨joined, references ++ further, rest, lt_of_le past within⟩
termination_by 5 * stream.length + 1

/-- Further pieces of a value, with the blanks between them as text. -/
def pieces (includer : Includer) (stream : Stream) :
    Run (Parsed (List Value) (stream.length + 1)) := do
  if stream.token.startsValue then
    let space := if stream.ahead.isSpaced then [Value.text stream.ahead.space] else []
    let ⟨first, references, next, within⟩ ← piece includer stream
    let ⟨others, further, rest, past⟩ ← pieces includer next
    have behind := lt_of_le past within
    return ⟨space ++ first :: others, references ++ further, rest, lt_succ_of_lt behind⟩
  else return ⟨[], [], stream, stream.length_lt_succ⟩
termination_by 5 * stream.length + 1

/-- A text, a reference, an object or an array. -/
def piece (includer : Includer) (stream : Stream) : Run (Parsed Value stream.length) := do
  match stream.next? with
  | none => throw (.noValue .endOfText stream.start)
  | some (lexeme, step) =>
    let ⟨next, behind⟩ ← Run.ofExcept step
    match lexeme.token with
    | .unquoted text => return ⟨.text text, [], next, behind⟩
    | .quoted text => return ⟨.text text, [], next, behind⟩
    | .reference path optional =>
      let id ← Run.freshId
      let target := ⟨id, path.toList, optional, lexeme.start⟩
      return ⟨.reference target, [target], next, behind⟩
    | .leftBrace =>
      let ⟨entries, references, rest, past⟩ ← fields includer .brace next
      return ⟨.object (Entry.build entries), references, rest, lt_of_le past behind⟩
    | .leftBracket =>
      let ⟨elements, references, rest, past⟩ ← items includer lexeme.start next
      return ⟨.array elements, references, rest, lt_of_le past behind⟩
    | token => throw (.noValue token lexeme.start)
termination_by 5 * stream.length

/-- Elements up to the closing bracket of an array. -/
def items (includer : Includer) (opened : Position) (stream : Stream) :
    Run (Parsed (List Value) (stream.length + 1)) := do
  let ⟨front, skipped⟩ ← Run.ofExcept (stream.dropWhile Token.isSeparator)
  match front.next? with
  | none => throw (.unclosedArray opened)
  | some (⟨_, _, .rightBracket⟩, step) =>
    let ⟨rest, behind⟩ ← Run.ofExcept step
    have within := lt_of_lt_of_le behind skipped
    return ⟨[], [], rest, lt_succ_of_lt within⟩
  | some _ =>
    let ⟨first, references, next, within⟩ ← value includer front
    Run.ofExcept next.endOfElement
    let ⟨others, further, rest, past⟩ ← items includer opened next
    return ⟨first :: others, references ++ further, rest, lt_succ_of_le past within skipped⟩
termination_by 5 * stream.length + 4

end

/-- A whole document. Behind the brace that closes it only separators may stand. -/
def document (includer : Includer) (stream : Stream) : Run Document := do
  let ⟨front, _⟩ ← Run.ofExcept (stream.dropWhile (· == .newline))
  match front.next? with
  | some (⟨_, _, .leftBrace⟩, step) =>
    let ⟨inside, _⟩ ← Run.ofExcept step
    let ⟨entries, references, behind, _⟩ ← fields includer .brace inside
    let ⟨rest, _⟩ ← Run.ofExcept (behind.dropWhile Token.isSeparator)
    if rest.token = .endOfText then return ⟨Entry.build entries, references⟩
    else throw (.textAfterDocument rest.token rest.start)
  | some (⟨_, start, .leftBracket⟩, _) => throw (.arrayDocument start)
  | _ =>
    let ⟨entries, references, _, _⟩ ← fields includer .endOfText front
    return ⟨Entry.build entries, references⟩

end Stream

/-- Read a text as a document. -/
def parse (includer : Includer) (text : String) : Run Document := do
  (← Run.ofExcept (Stream.ofText text)).document includer

end Hocon
