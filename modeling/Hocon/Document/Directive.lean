import Hocon.Document.Key
import Hocon.Session

namespace Hocon

namespace Directive

/-- The word that begins a directive, if what follows makes it one. -/
def keyword : String := "include"

/-- The qualifiers that a word of names and opening parentheses holds. -/
def qualifiers (word : String) : List String :=
  (Text.splitAt '(' word).filter (· != "")

/-- No white space has to be trimmed off the qualifiers, as a word has none in it. -/
theorem qualifiers_trimmed (text : List Char) :
    (((Text.splitAt '(' (String.ofList (word text).1)).map fun part =>
      String.ofList (Text.trim part.toList)).filter (· != "")) = qualifiers (String.ofList (word text).1) := by
  have solid : ∀ part ∈ Text.split '(' (word text).1, ∀ c ∈ part, Text.isWhite c = false := by
    intro part member c inside
    have letter := word_letters text c (Text.mem_of_mem_split member inside)
    simp only [isForbidden, Bool.or_eq_false_iff] at letter
    exact letter.1.2
  have trimmed : ∀ part ∈ Text.splitAt '(' (String.ofList (word text).1),
      String.ofList (Text.trim part.toList) = part := by
    intro part member
    obtain ⟨letters, inside, rfl⟩ := List.mem_map.mp member
    rw [String.toList_ofList] at inside ⊢
    rw [Text.trim_of_solid (solid letters inside)]
  rw [qualifiers, List.map_congr_left trimmed, List.map_id']

/-- Whether the qualifiers make a directive required; the first one that is not known
is the fault. -/
def isRequired (start : Position) : List String → Except Fault Bool
  | [] => .ok false
  | word :: rest =>
    if word = "required" then (isRequired start rest).map fun _ => true
    else if word = "file" then isRequired start rest
    else if word = "url" || word = "classpath" then .error (.unsupportedQualifier word start)
    else .error (.unknownQualifier word start)

end Directive

namespace Stream

/-- Behind the keyword, blanks and then a quoted text or a word that opens a parenthesis
make a directive; anything else goes on with a key. -/
def opensDirective (stream : Stream) : Bool :=
  stream.ahead.isSpaced &&
    match stream.token with
    | .quoted _ => true
    | .unquoted word => word.toList.getLast? == some '('
    | _ => false

/-- Take words of closing parentheses, as long as no more come than are `missing`. The
result is how many still are. -/
def closing (missing : Nat) (stream : Stream) :
    Except Fault (Taken Nat (stream.length + 1)) :=
  let finish : Except Fault (Taken Nat (stream.length + 1)) :=
    .ok ⟨missing, stream, stream.length_lt_succ⟩
  if missing = 0 then finish
  else
    match stream.next? with
    | none => finish
    | some (lexeme, step) =>
      match lexeme.token with
      | .unquoted word =>
        if word.toList.all (· == ')') && word.length ≤ missing then do
          let ⟨next, behind⟩ ← step
          let ⟨left, rest, past⟩ ← next.closing (missing - word.length)
          have within := lt_of_le past behind
          return ⟨left, rest, lt_succ_of_lt within⟩
        else finish
      | _ => finish
termination_by stream.length

/-- The qualifiers at the front, none before a quoted pattern. -/
def qualifiers (stream : Stream) : Except Fault (Taken (List String) (stream.length + 1)) :=
  match stream.next? with
  | some (⟨_, _, .unquoted word⟩, step) => do
    let ⟨next, behind⟩ ← step
    return ⟨Directive.qualifiers word, next, lt_succ_of_lt behind⟩
  | _ => .ok ⟨[], stream, stream.length_lt_succ⟩

/-- A directive, read behind its keyword. -/
def directive (stream : Stream) : Except Fault (Taken Directive stream.length) := do
  let start := stream.start
  let ⟨qualifiers, named, left⟩ ← stream.qualifiers
  let required ← Directive.isRequired start qualifiers
  match named.next? with
  | none => throw (.noFileName .endOfText start)
  | some (lexeme, step) =>
    let ⟨next, behind⟩ ← step
    match lexeme.token with
    | .quoted pattern =>
      let ⟨missing, rest, past⟩ ← next.closing qualifiers.length
      have within := lt_of_le past behind
      if missing = 0 then return ⟨⟨pattern, required⟩, rest, lt_of_lt_of_le within left⟩
      else throw (.unbalancedQualifiers start)
    | token => throw (.noFileName token start)

end Stream
end Hocon
