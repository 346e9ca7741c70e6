import Hocon.Stream

namespace Hocon

/-- What was read at the front of a stream, and the stream behind it, which is shorter
than a limit. -/
structure Taken (α : Type) (limit : Nat) where
  value : α
  rest : Stream
  within : rest.length < limit

namespace Stream

/-- Go on with a key. Once it has begun, blanks end it; a fault of the key as a whole is
reported where it starts. -/
def key (start : Position) (builder : KeyPath.Builder) (begun : Bool) (stream : Stream) :
    Except Fault (Taken KeyPath (stream.length + 1)) :=
  let finish : Except Fault (Taken KeyPath (stream.length + 1)) :=
    match builder.path? with
    | some path => .ok ⟨path, stream, stream.length_lt_succ⟩
    | none => .error (.emptyKeySegment start)
  match stream.next? with
  | none => finish
  | some (lexeme, step) =>
    if begun && lexeme.isSpaced then finish
    else
      match lexeme.token with
      | .unquoted text => do
        let ⟨next, behind⟩ ← step
        match builder.word? text.toList with
        | none => throw (.emptyKeySegment start)
        | some builder =>
          let ⟨path, rest, past⟩ ← next.key start builder true
          have within := lt_of_le past behind
          return ⟨path, rest, lt_succ_of_lt within⟩
      | .quoted text => do
        let ⟨next, behind⟩ ← step
        let ⟨path, rest, past⟩ ← next.key start (builder.append text) true
        have within := lt_of_le past behind
        return ⟨path, rest, lt_succ_of_lt within⟩
      | _ => finish
termination_by stream.length

end Stream
end Hocon
