import Hocon.Proofs.Grammar.Parallel

namespace Hocon

/-- Answers as the includer does, where its answer is an object. -/
def Includer.guarded (includer : Includer) : Includer := fun directive => do
  let root ← includer directive
  if root.value.isObject then return root
  else throw (.includedNotObject directive.pattern root.value.kind .origin)

/-- Two runs end well with the same value and in the same session, or both fail. -/
abbrev Agree {α : Type} (run other : Run α) : Prop := Parallel Eq id run other

namespace Agree

variable {α β : Type}

private theorem bind {run other : Run α} {next further : α → Run β} (begins : Agree run other)
    (goes : ∀ made, Agree (next made) (further made)) : Agree (run >>= next) (other >>= further) :=
  Parallel.bind begins fun {made mirrored} same => by
    obtain rfl : made = mirrored := same
    exact goes made

private theorem after (run : Run α) {next further : α → Run β}
    (goes : ∀ made, Agree (next made) (further made)) :
    Agree (run >>= next) (run >>= further) := bind (.refl id run) goes

private theorem ok_iff {run other : Run α} (agree : Agree run other) {session after : Session} {made : α} :
    run session = .ok made after ↔ other session = .ok made after := by
  have across {run other : Run α} (agree : Agree run other) (ran : run session = .ok made after) :
      other session = .ok made after := by
    obtain ⟨made, after, ran, rfl, rfl⟩ := agree.ok_of_ok rfl ran
    exact ran
  exact ⟨across agree, across (agree.symm ⟨fun _ => rfl, .symm, .trans⟩)⟩

end Agree

variable {includer : Includer}

private theorem Includer.guarded_objects : includer.guarded.Objects := by
  intro directive session after root done
  obtain ⟨answer, middle, _, done⟩ := Run.ok_of_bind done
  split at done
  case isFalse => cases done
  case isTrue object =>
    cases done
    cases value : root.value <;> simp [value, Value.isObject, Value.kind] at object
    exact ⟨_, rfl⟩

namespace Stream

private theorem inclusion_guarded (stream : Stream) :
    Agree (stream.inclusion includer) (stream.inclusion includer.guarded) := by
  rw [inclusion, inclusion]
  refine .after _ fun taken => .after _ fun _ => ?_
  rw [Includer.guarded, bind_assoc]
  refine .after _ fun root => ?_
  cases value : root.value with
  | object fields =>
    simp only [value, Value.isObject, Value.kind, beq_self_eq_true, if_true, pure_bind]
    exact .refl id _
  | array | text | null | reference | concat =>
    simp only [Value.isObject, Value.kind, beq_iff_eq, reduceCtorEq, if_false]
    exact fun _ _ _ => trivial

mutual

private theorem fields_guarded (closing : Closing) (stream : Stream) :
    Agree (stream.fields includer closing) (stream.fields includer.guarded closing) := by
  rw [fields, fields]
  refine .after _ fun ⟨front, skipped⟩ => ?_
  dsimp only
  split
  case h_1 => exact .refl id _
  case h_2 lexeme step going =>
    split
    case isTrue => exact .refl id _
    case isFalse =>
      refine (entry_guarded front).bind fun ⟨first, references, next, within⟩ => ?_
      refine .after _ fun _ => (fields_guarded closing next).bind fun _ => .refl id _
termination_by 5 * stream.length + 4

private theorem entry_guarded (stream : Stream) :
    Agree (stream.entry includer) (stream.entry includer.guarded) := by
  rw [entry, entry]
  split
  case h_1 space start word step going =>
    split
    case isTrue =>
      refine .after _ fun ⟨next, behind⟩ => ?_
      dsimp only
      split
      case isTrue => exact (inclusion_guarded next).bind fun _ => .refl id _
      case isFalse =>
        refine .after _ fun ⟨path, named, left⟩ => ?_
        exact (assignment_guarded start path named).bind fun _ => .refl id _
    case isFalse =>
      refine .after _ fun ⟨path, named, left⟩ => ?_
      exact (assignment_guarded start path named).bind fun _ => .refl id _
  case h_2 space start word step going =>
    refine .after _ fun ⟨path, named, left⟩ => ?_
    exact (assignment_guarded start path named).bind fun _ => .refl id _
  case h_3 => exact .throw
termination_by 5 * stream.length + 3

private theorem assignment_guarded (start : Position) (path : KeyPath) (stream : Stream) :
    Agree (stream.assignment includer start path) (stream.assignment includer.guarded start path) := by
  rw [assignment, assignment]
  split
  case h_1 | h_2 | h_3 => exact (assigned_guarded stream _).bind fun _ => .refl id _
  case h_4 => exact (value_guarded stream).bind fun _ => .refl id _
  case h_5 => exact .throw
termination_by 5 * stream.length + 2

private theorem assigned_guarded (stream : Stream) (step : Except Fault stream.Shorter) :
    Agree (assigned includer stream step) (assigned includer.guarded stream step) := by
  rw [assigned, assigned]
  refine .after _ fun ⟨next, behind⟩ => .after _ fun ⟨front, skipped⟩ => ?_
  exact (value_guarded front).bind fun _ => .refl id _
termination_by 5 * stream.length

private theorem value_guarded (stream : Stream) :
    Agree (stream.value includer) (stream.value includer.guarded) := by
  rw [value, value]
  refine (piece_guarded stream).bind fun ⟨first, references, next, within⟩ => ?_
  exact (pieces_guarded next).bind fun _ => .refl id _
termination_by 5 * stream.length + 1

private theorem pieces_guarded (stream : Stream) :
    Agree (stream.pieces includer) (stream.pieces includer.guarded) := by
  rw [pieces, pieces]
  split
  case isTrue =>
    refine (piece_guarded stream).bind fun ⟨first, references, next, within⟩ => ?_
    exact (pieces_guarded next).bind fun _ => .refl id _
  case isFalse => exact .refl id _
termination_by 5 * stream.length + 1

private theorem piece_guarded (stream : Stream) :
    Agree (stream.piece includer) (stream.piece includer.guarded) := by
  rw [piece, piece]
  split
  case h_1 => exact .throw
  case h_2 lexeme step going =>
    refine .after _ fun ⟨next, behind⟩ => ?_
    dsimp only
    split
    case h_4 => exact (fields_guarded .brace next).bind fun _ => .refl id _
    case h_5 => exact (items_guarded lexeme.start next).bind fun _ => .refl id _
    all_goals exact .refl id _
termination_by 5 * stream.length

private theorem items_guarded (opened : Position) (stream : Stream) :
    Agree (stream.items includer opened) (stream.items includer.guarded opened) := by
  rw [items, items]
  refine .after _ fun ⟨front, skipped⟩ => ?_
  dsimp only
  split
  case h_1 => exact .throw
  case h_2 => exact .refl id _
  case h_3 =>
    refine (value_guarded front).bind fun ⟨first, references, next, within⟩ => ?_
    refine .after _ fun _ => (items_guarded opened next).bind fun _ => .refl id _
termination_by 5 * stream.length + 4

end

private theorem document_guarded (stream : Stream) :
    Agree (stream.document includer) (stream.document includer.guarded) := by
  rw [document, document]
  refine .after _ fun ⟨front, skipped⟩ => ?_
  dsimp only
  split
  case h_1 lexeme step going =>
    refine .after _ fun ⟨inside, behind⟩ => ?_
    exact (fields_guarded .brace inside).bind fun _ => .refl id _
  case h_2 => exact .throw
  case h_3 => exact (fields_guarded .endOfText front).bind fun _ => .refl id _

end Stream

/-- A text that is read to an end has the same outcome with a guarded includer. -/
private theorem parse_guarded (includer : Includer) (text : String) :
    Agree (parse includer text) (parse includer.guarded text) :=
  .after _ fun stream => stream.document_guarded

/-- A text that is derived is read as what its tree makes. -/
theorem parse_iff_tree {includer : Includer} {text : String} {session after : Session} {document : Document}
    {fields : Grammar.Fields} {lexemes : List Lexeme} {last : Lexeme}
    (read : Stream.ofText text = .ok (.prepend lexemes (.ended last)))
    (derives : Grammar.Derives True fields (lexemes ++ [last])) :
    parse includer text session = .ok document after ↔
      fields.document includer.guarded session = .ok document after := by
  have guarded : parse includer.guarded text = fields.document includer.guarded := by
    rw [← Stream.document_reads (fun _ => Includer.guarded_objects) derives, parse, read]
    rfl
  rw [(parse_guarded includer text).ok_iff, guarded]

/-- What is read well is derived, and is what its tree makes. -/
theorem tree_of_parse {includer : Includer} {text : String} {session after : Session} {document : Document}
    (parsed : parse includer text session = .ok document after) :
    ∃ (fields : Grammar.Fields) (lexemes : List Lexeme) (last : Lexeme),
      Stream.ofText text = .ok (.prepend lexemes (.ended last)) ∧
      Grammar.Derives True fields (lexemes ++ [last]) ∧
      fields.document includer.guarded session = .ok document after := by
  obtain ⟨stream, middle, taken, ran⟩ := Run.ok_of_bind ((parse_guarded includer text).ok_iff.mp parsed)
  obtain ⟨read, rfl⟩ := Run.ok_of_ofExcept taken
  rcases Stream.document_progress ((Stream.read_proper _).2 stream read) with
    ⟨fields, lexemes, last, rfl, derives⟩ | ⟨fields, failed⟩
  · exact ⟨fields, lexemes, last, read, derives, (parse_iff_tree read derives).mp parsed⟩
  · obtain ⟨fault, _, stuck, _⟩ := failed includer.guarded (fun _ => Includer.guarded_objects) middle
    cases ran.symm.trans stuck

end Hocon
