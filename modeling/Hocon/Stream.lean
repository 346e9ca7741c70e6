import Hocon.Lexeme

/-! The lexemes of a text as a parser meets them: it holds one lexeme ahead, and a
fault ends the stream as soon as the lexeme before it is taken. -/
namespace Hocon

inductive Stream where
  /-- The end of the text. -/
  | ended (last : Lexeme)
  /-- A lexeme behind which reading failed. -/
  | broken (lexeme : Lexeme) (fault : Fault)
  | more (lexeme : Lexeme) (next : Stream)
deriving Inhabited

namespace Stream

/-- The lexeme ahead. -/
def ahead : Stream → Lexeme
  | .ended last => last
  | .broken lexeme _ => lexeme
  | .more lexeme _ => lexeme

def token (stream : Stream) : Token := stream.ahead.token

/-- Where the lexeme ahead starts. -/
def start (stream : Stream) : Position := stream.ahead.start

/-- Lexemes before the end of the text or the fault. -/
def length : Stream → Nat
  | .ended _ => 0
  | .broken .. => 1
  | .more _ next => next.length + 1

theorem length_lt_more (lexeme : Lexeme) (next : Stream) :
    next.length < (more lexeme next).length := Nat.lt_succ_self _

theorem length_lt_succ (stream : Stream) : stream.length < stream.length + 1 := Nat.lt_succ_self _

variable {rest next front stream : Stream}

theorem lt_of_lt (past : rest.length < next.length) (behind : next.length < stream.length) :
    rest.length < stream.length := Nat.lt_trans past behind

theorem lt_of_le (past : rest.length < next.length + 1) (behind : next.length < stream.length) :
    rest.length < stream.length := Nat.lt_of_le_of_lt (Nat.le_of_lt_succ past) behind

theorem lt_of_lt_of_le (past : rest.length < next.length)
    (behind : next.length < stream.length + 1) : rest.length < stream.length :=
  Nat.lt_of_lt_of_le past (Nat.le_of_lt_succ behind)

theorem lt_succ_of_lt (behind : rest.length < stream.length) : rest.length < stream.length + 1 :=
  Nat.lt_succ_of_lt behind

theorem lt_succ_of_le (past : rest.length < next.length + 1) (within : next.length < front.length)
    (behind : front.length < stream.length + 1) : rest.length < stream.length + 1 :=
  lt_succ_of_lt (lt_of_lt_of_le (lt_of_le past within) behind)

/-- What is left behind at least one lexeme. -/
abbrev Shorter (stream : Stream) := { rest : Stream // rest.length < stream.length }

/-- The stream itself or what is left of it. -/
abbrev Remainder (stream : Stream) := { rest : Stream // rest.length < stream.length + 1 }

/-- The lexeme ahead and what follows when it is taken; nothing at the end. -/
def next? (stream : Stream) : Option (Lexeme × Except Fault stream.Shorter) :=
  match stream with
  | .ended _ => none
  | .broken lexeme fault => some (lexeme, .error fault)
  | .more lexeme next => some (lexeme, .ok ⟨next, length_lt_more lexeme next⟩)

/-- What follows the lexemes at the front whose tokens satisfy `drop`. -/
def dropWhile (drop : Token → Bool) : (stream : Stream) → Except Fault stream.Remainder
  | .ended last => .ok ⟨.ended last, length_lt_succ _⟩
  | .broken lexeme fault =>
    if drop lexeme.token then .error fault else .ok ⟨.broken lexeme fault, length_lt_succ _⟩
  | .more lexeme next =>
    if drop lexeme.token then
      (next.dropWhile drop).map fun rest => ⟨rest.val, lt_succ_of_lt rest.property⟩
    else .ok ⟨.more lexeme next, length_lt_succ _⟩

/-- The stream from a cursor; none can begin with a fault. -/
def read (cursor : Cursor) : Except Fault Stream :=
  let reading := cursor.read
  match _going : reading.isEnd with
  | true => .ok (.ended ⟨reading.space, reading.start, .endOfText⟩)
  | false =>
    match reading.scan.outcome with
    | .error fault => .error fault
    | .ok token =>
      let lexeme := ⟨reading.space, reading.start, token⟩
      match read reading.after with
      | .error fault => .ok (.broken lexeme fault)
      | .ok next => .ok (.more lexeme next)
termination_by cursor.rest.length
decreasing_by exact cursor.read_shorter ‹_›

def ofText (text : String) : Except Fault Stream := read (.ofText text)

end Stream
end Hocon
