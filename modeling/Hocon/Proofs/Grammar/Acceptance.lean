import Hocon.Proofs.Concat
import Hocon.Proofs.Grammar.Progress
import Hocon.Proofs.Run

namespace Hocon

namespace Grammar

def Piece.isReference : Piece → Bool
  | .reference .. => true
  | _ => false

def Pieces.hasReference : Pieces → Bool
  | .none => false
  | .more _ first others => first.isReference || others.hasReference

mutual

/-- Values of several pieces, none of them a reference, can be joined, at any depth. What the
pieces are is seen where they come out, whatever the references in them are numbered. -/
def Piece.Concatenates : Piece → Prop
  | .object fields => fields.Concatenates
  | .array elements => elements.Concatenates
  | .text .. | .reference .. | .broken .. => True

def Pieces.Concatenates : Pieces → Prop
  | .none => True
  | .more _ first others => first.Concatenates ∧ others.Concatenates

def Phrase.Concatenates : Phrase → Prop
  | .mk first others =>
    first.Concatenates ∧ others.Concatenates ∧
      (others ≠ .none → first.isReference = false → others.hasReference = false →
        ∀ (includer : Includer) (session after : Session) (parts : Made (List Value)),
          (Phrase.mk first others).parts includer session = .ok parts after →
            ∀ left right, Value.concatenate parts.value ≠ .error (.concatMismatch left right))

def Field.Concatenates : Field → Prop
  | .assign _ phrase | .append _ phrase => phrase.Concatenates
  | .inclusion _ | .broken .. => True

def Fields.Concatenates : Fields → Prop
  | .none => True
  | .more first others => first.Concatenates ∧ others.Concatenates

def Elements.Concatenates : Elements → Prop
  | .none => True
  | .more first others => first.Concatenates ∧ others.Concatenates

end

/-- What joining looks at in the value of a piece. -/
def Piece.face : Piece → Kind × String
  | .text _ content => (.text, content)
  | .reference .. => (.reference, "")
  | .object _ => (.object, "")
  | .array _ => (.array, "")
  | .broken .. => (.null, "")

def Pieces.faces : Pieces → List (Kind × String)
  | .none => []
  | .more space first others =>
    (if space != "" then [(Kind.text, space)] else []) ++ first.face :: others.faces

variable {includer : Includer} {session after : Session}

private theorem Piece.face_of_run {piece : Piece} {made : Made Value}
    (ran : piece.run includer session = .ok made after) : made.value.face = piece.face := by
  cases piece with
  | text bare content =>
    cases ran
    rfl
  | reference path optional place =>
    obtain ⟨id, middle, _, ran⟩ := Run.ok_of_bind ran
    cases ran
    rfl
  | object fields =>
    obtain ⟨inside, middle, _, ran⟩ := Run.ok_of_bind ran
    cases ran
    rfl
  | array elements =>
    obtain ⟨inside, middle, _, ran⟩ := Run.ok_of_bind ran
    cases ran
    rfl
  | broken fault own => cases ran

private theorem Pieces.faces_of_run {pieces : Pieces} {session : Session} {made : Made (List Value)}
    (ran : pieces.run includer session = .ok made after) : made.value.map Value.face = pieces.faces := by
  cases pieces with
  | none =>
    cases ran
    rfl
  | more space first others =>
    obtain ⟨own, middle, firsts, ran⟩ := Run.ok_of_bind ran
    obtain ⟨further, last, rest, ran⟩ := Run.ok_of_bind ran
    cases ran
    have blank : (if space != "" then [Value.text space] else []).map Value.face =
        if space != "" then [(Kind.text, space)] else [] := by
      split <;> rfl
    rw [List.map_append, List.map_cons, blank, Piece.face_of_run firsts, faces_of_run rest]
    rfl

theorem Phrase.faces_of_parts {first : Piece} {others : Pieces} {made : Made (List Value)}
    (ran : (Phrase.mk first others).parts includer session = .ok made after) :
    made.value.map Value.face = first.face :: others.faces := by
  obtain ⟨own, middle, firsts, ran⟩ := Run.ok_of_bind ran
  obtain ⟨further, last, rest, ran⟩ := Run.ok_of_bind ran
  cases ran
  rw [List.map_cons, Piece.face_of_run firsts, Pieces.faces_of_run rest]

/-- Whether a piece is a reference is seen in its face. -/
theorem Piece.isReference_face (piece : Piece) : (piece.face.1 == .reference) = piece.isReference := by
  cases piece <;> rfl

theorem Pieces.hasReference_faces (pieces : Pieces) :
    (pieces.faces.any fun face => face.1 == .reference) = pieces.hasReference := by
  cases pieces with
  | none => rfl
  | more space first others =>
    have blank : ((if space != "" then [(Kind.text, space)] else []).any fun face => face.1 == .reference) =
        false := by
      split <;> rfl
    rw [faces, List.any_append, List.any_cons, blank, first.isReference_face, hasReference_faces others]
    rfl

private theorem Phrase.anyReference_of_parts {first : Piece} {others : Pieces} {made : Made (List Value)}
    (ran : (Phrase.mk first others).parts includer session = .ok made after) :
    made.value.any Value.isReference = (first.isReference || others.hasReference) := by
  rw [Value.any_isReference, faces_of_parts ran, List.any_cons, first.isReference_face, others.hasReference_faces]

theorem joinPieces_several (bare : Bool) (first second : Value) (others : List Value) :
    joinPieces bare (first :: second :: others) =
      if (first :: second :: others).any Value.isReference then .ok (.concat (first :: second :: others))
      else Value.concatenate (first :: second :: others) := by
  unfold joinPieces
  split
  · simp_all
  · simp_all
  · rfl

/-- One piece is a value by itself. -/
theorem joinPieces_single (bare : Bool) (piece : Value) : ∃ value, joinPieces bare [piece] = .ok value := by
  unfold joinPieces
  split
  · exact ⟨_, rfl⟩
  · exact ⟨_, rfl⟩
  · simp_all

private theorem Phrase.parts_cases {first : Piece} {others : Pieces} {made : Made (List Value)}
    (ran : (Phrase.mk first others).parts includer session = .ok made after) :
    (others = .none ∧ ∃ piece, made.value = [piece]) ∨
      (others ≠ .none ∧ ∃ piece second more, made.value = piece :: second :: more) := by
  have lengths := congrArg List.length (faces_of_parts ran)
  cases others with
  | none =>
    have single : made.value.length = 1 := by simpa [Pieces.faces] using lengths
    exact .inl ⟨rfl, List.length_eq_one_iff.mp single⟩
  | more space next further =>
    refine .inr ⟨nofun, ?_⟩
    simp only [List.length_map, Pieces.faces, List.length_cons, List.length_append] at lengths
    match whole : made.value with
    | [] | [_] =>
      rw [whole] at lengths
      simp only [List.length_nil, List.length_cons] at lengths
      omega
    | piece :: second :: more => exact ⟨piece, second, more, rfl⟩

/-- Several pieces without a reference are joined at once. -/
theorem Phrase.joinPieces_of_parts {first : Piece} {others : Pieces} {made : Made (List Value)} (bare : Bool)
    (gathered : (Phrase.mk first others).parts includer session = .ok made after)
    (several : others ≠ .none) (plain : first.isReference = false) (all : others.hasReference = false) :
    joinPieces bare made.value = Value.concatenate made.value := by
  rcases parts_cases gathered with ⟨single, _⟩ | ⟨_, piece, second, more, whole⟩
  · exact absurd single several
  have none := anyReference_of_parts gathered
  rw [plain, all, whole] at none
  rw [whole, joinPieces_several, none]
  rfl

/-- A single piece, or pieces with a reference among them, always make a value. -/
theorem Phrase.joinPieces_some {first : Piece} {others : Pieces} {made : Made (List Value)} (bare : Bool)
    (gathered : (Phrase.mk first others).parts includer session = .ok made after)
    (waits : others = .none ∨ first.isReference = true ∨ others.hasReference = true) :
    ∃ value, joinPieces bare made.value = .ok value := by
  rcases parts_cases gathered with ⟨_, piece, whole⟩ | ⟨several, piece, second, more, whole⟩
  · rw [whole]
    exact joinPieces_single bare piece
  have some := anyReference_of_parts gathered
  rw [Bool.or_eq_true_iff.mpr (waits.resolve_left several), whole] at some
  rw [whole, joinPieces_several, some]
  exact ⟨_, rfl⟩

private theorem Phrase.joinPieces_of_concatenates {first : Piece} {others : Pieces} {made : Made (List Value)}
    (bare : Bool) (gathered : (Phrase.mk first others).parts includer session = .ok made after)
    (joins : (Phrase.mk first others).Concatenates) : ∃ value, joinPieces bare made.value = .ok value := by
  by_cases waits : others = .none ∨ first.isReference = true ∨ others.hasReference = true
  · exact joinPieces_some bare gathered waits
  obtain ⟨several, plain, all⟩ : others ≠ .none ∧ first.isReference = false ∧ others.hasReference = false := by
    simpa using waits
  rw [joinPieces_of_parts bare gathered several plain all]
  cases joined : Value.concatenate made.value with
  | ok value => exact ⟨value, rfl⟩
  | error fault =>
    obtain ⟨left, right, rfl⟩ := Value.mismatch_of_concatenate joined
    exact absurd joined (joins.2.2 several plain all includer session after made gathered left right)

mutual

/-- What has a value goes together, wherever it is run. -/
private theorem Piece.concatenates_of_run {piece : Piece} {session after : Session} {made : Made Value}
    (ran : piece.run includer session = .ok made after) : piece.Concatenates := by
  cases piece with
  | text | reference | broken => trivial
  | object fields =>
    obtain ⟨inside, middle, ran, _⟩ := Run.ok_of_bind ran
    exact Fields.concatenates_of_run ran
  | array elements =>
    obtain ⟨inside, middle, ran, _⟩ := Run.ok_of_bind ran
    exact Elements.concatenates_of_run ran

private theorem Pieces.concatenates_of_run {pieces : Pieces} {session after : Session}
    {made : Made (List Value)}
    (ran : pieces.run includer session = .ok made after) : pieces.Concatenates := by
  cases pieces with
  | none => trivial
  | more space first others =>
    obtain ⟨own, middle, firsts, ran⟩ := Run.ok_of_bind ran
    obtain ⟨further, last, rest, _⟩ := Run.ok_of_bind ran
    exact ⟨Piece.concatenates_of_run firsts, Pieces.concatenates_of_run rest⟩

private theorem Phrase.concatenates_of_run {phrase : Phrase} {session after : Session} {made : Made Value}
    (ran : phrase.run includer session = .ok made after) : phrase.Concatenates := by
  obtain ⟨first, others⟩ := phrase
  obtain ⟨parts, middle, gathered, ran⟩ := Run.ok_of_bind ran
  obtain ⟨value, last, joined, _⟩ := Run.ok_of_bind ran
  obtain ⟨own, between, firsts, ran⟩ := Run.ok_of_bind gathered
  obtain ⟨further, behind, rest, _⟩ := Run.ok_of_bind ran
  refine ⟨Piece.concatenates_of_run firsts, Pieces.concatenates_of_run rest, ?_⟩
  intro several plain all other start finish made regathered left right failed
  have joined := (Run.ok_of_ofExcept joined).1
  rw [Phrase.joinPieces_of_parts _ gathered several plain all] at joined
  have faces : parts.value.map Value.face = made.value.map Value.face :=
    (Phrase.faces_of_parts gathered).trans (Phrase.faces_of_parts regathered).symm
  obtain ⟨result, done⟩ := Value.concatenate_of_faces faces joined
  rw [failed] at done
  cases done

private theorem Field.concatenates_of_run {field : Field} {session after : Session} {made : Made Entry}
    (ran : field.run includer session = .ok made after) : field.Concatenates := by
  cases field with
  | inclusion | broken => trivial
  | assign path phrase | append path phrase =>
    obtain ⟨value, middle, ran, _⟩ := Run.ok_of_bind ran
    exact Phrase.concatenates_of_run ran

private theorem Fields.concatenates_of_run {fields : Fields} {session after : Session}
    {made : Made (List Entry)}
    (ran : fields.run includer session = .ok made after) : fields.Concatenates := by
  cases fields with
  | none => trivial
  | more first others =>
    obtain ⟨own, middle, firsts, ran⟩ := Run.ok_of_bind ran
    obtain ⟨further, last, rest, _⟩ := Run.ok_of_bind ran
    exact ⟨Field.concatenates_of_run firsts, Fields.concatenates_of_run rest⟩

private theorem Elements.concatenates_of_run {elements : Elements} {session after : Session}
    {made : Made (List Value)} (ran : elements.run includer session = .ok made after) :
    elements.Concatenates := by
  cases elements with
  | none => trivial
  | more first others =>
    obtain ⟨own, middle, firsts, ran⟩ := Run.ok_of_bind ran
    obtain ⟨further, last, rest, _⟩ := Run.ok_of_bind ran
    exact ⟨Phrase.concatenates_of_run firsts, Elements.concatenates_of_run rest⟩

end

variable {lexemes : List Lexeme}

mutual

/-- What goes together has a value, and no directive is met on the way to it. -/
private theorem Piece.run_of_concatenates {piece : Piece} {lexemes : List Lexeme}
    (spells : piece.Spells False lexemes) (joins : piece.Concatenates) (includer : Includer)
    (session : Session) : ∃ made after, piece.run includer session = .ok made after := by
  cases spells with
  | word | quoted | reference => exact ⟨_, _, rfl⟩
  | object opens inside closes =>
    obtain ⟨made, after, ran⟩ := Fields.run_of_concatenates inside joins includer session
    exact ⟨_, _, Run.bind_of_ok ran rfl⟩
  | array opens inside closes =>
    obtain ⟨made, after, ran⟩ := Elements.run_of_concatenates inside joins includer session
    exact ⟨_, _, Run.bind_of_ok ran rfl⟩

private theorem Pieces.run_of_concatenates {pieces : Pieces} {lexemes : List Lexeme}
    (spells : pieces.Spells False lexemes) (joins : pieces.Concatenates) (includer : Includer)
    (session : Session) : ∃ made after, pieces.run includer session = .ok made after := by
  cases spells with
  | none => exact ⟨_, _, rfl⟩
  | more spelled further =>
    obtain ⟨made, middle, first⟩ := Piece.run_of_concatenates spelled joins.1 includer session
    obtain ⟨others, after, rest⟩ := Pieces.run_of_concatenates further joins.2 includer middle
    exact ⟨_, _, Run.bind_of_ok first (Run.bind_of_ok rest rfl)⟩

private theorem Phrase.run_of_concatenates {phrase : Phrase} {lexemes : List Lexeme}
    (spells : phrase.Spells False lexemes) (joins : phrase.Concatenates) (includer : Includer)
    (session : Session) : ∃ made after, phrase.run includer session = .ok made after := by
  cases spells with
  | @mk first others own behind spelled further =>
    obtain ⟨made, middle, firsts⟩ := Piece.run_of_concatenates spelled joins.1 includer session
    obtain ⟨values, after, rest⟩ := Pieces.run_of_concatenates further joins.2.1 includer middle
    have gathered : (Phrase.mk first others).parts includer session = .ok _ after :=
      Run.bind_of_ok firsts (Run.bind_of_ok rest rfl)
    obtain ⟨value, joined⟩ := Phrase.joinPieces_of_concatenates first.isBare gathered joins
    exact ⟨_, _, Run.bind_of_ok gathered (Run.bind_of_ok (Run.ofExcept_of_ok joined) rfl)⟩

private theorem Field.run_of_concatenates {field : Field} {lexemes : List Lexeme}
    (spells : field.Spells False lexemes) (joins : field.Concatenates) (includer : Includer)
    (session : Session) : ∃ made after, field.run includer session = .ok made after := by
  cases spells with
  | assign key marked newlines spelled | append key marked newlines spelled | nested key opens spelled =>
    obtain ⟨made, after, ran⟩ := Phrase.run_of_concatenates spelled joins includer session
    exact ⟨_, _, Run.bind_of_ok ran rfl⟩
  | inclusion admitted begins directs => exact admitted.elim

private theorem Fields.run_of_concatenates {fields : Fields} {lexemes : List Lexeme}
    (spells : fields.Spells False lexemes) (joins : fields.Concatenates) (includer : Includer)
    (session : Session) : ∃ made after, fields.run includer session = .ok made after := by
  cases spells with
  | none separators => exact ⟨_, _, rfl⟩
  | more separators spelled further parted =>
    obtain ⟨made, middle, first⟩ := Field.run_of_concatenates spelled joins.1 includer session
    obtain ⟨others, after, rest⟩ := Fields.run_of_concatenates further joins.2 includer middle
    exact ⟨_, _, Run.bind_of_ok first (Run.bind_of_ok rest rfl)⟩

private theorem Elements.run_of_concatenates {elements : Elements} {lexemes : List Lexeme}
    (spells : elements.Spells False lexemes) (joins : elements.Concatenates) (includer : Includer)
    (session : Session) : ∃ made after, elements.run includer session = .ok made after := by
  cases spells with
  | none separators => exact ⟨_, _, rfl⟩
  | more separators spelled further parted =>
    obtain ⟨made, middle, first⟩ := Phrase.run_of_concatenates spelled joins.1 includer session
    obtain ⟨others, after, rest⟩ := Elements.run_of_concatenates further joins.2 includer middle
    exact ⟨_, _, Run.bind_of_ok first (Run.bind_of_ok rest rfl)⟩

end

private theorem Derives.run_of_concatenates {fields : Fields} (derives : Derives False fields lexemes)
    (joins : fields.Concatenates) (includer : Includer) (session : Session) :
    ∃ made after, fields.run includer session = .ok made after := by
  cases derives with
  | braced newlines opens inside closes separators ends =>
    exact Fields.run_of_concatenates inside joins includer session
  | bare spelled ends => exact Fields.run_of_concatenates spelled joins includer session

end Grammar

/-- A text without directives is accepted, whoever would answer them and whatever the session, just
when its lexemes are derived and the pieces of its values go together. -/
theorem parse_accepts_iff_derives {text : String} {lexemes : List Lexeme}
    (lexed : Lexed (.ofText text) lexemes)
    (plain : ∀ lexeme ∈ lexemes, lexeme.token ≠ .unquoted Directive.keyword)
    (includer : Includer) (session : Session) :
    (∃ document, ((parse includer text).outcome session).1 = .ok document) ↔
      ∃ fields : Grammar.Fields, Grammar.Derives False fields lexemes ∧ fields.Concatenates := by
  obtain ⟨front, last, rfl, ends, read⟩ := lexed.read
  have whole : parse includer text = (Stream.prepend front (.ended last)).document includer := by
    rw [parse, Stream.ofText, read]
    rfl
  have proper : (Stream.prepend front (.ended last)).Proper False :=
    ((Stream.read_proper _).2 _ read).grant fun lexeme member keyword =>
      plain lexeme (List.mem_append_left _ member) keyword
  rw [whole]
  constructor
  · rintro ⟨document, done⟩
    obtain ⟨after, ran⟩ := Run.ok_of_outcome done
    rcases Stream.document_progress proper with ⟨fields, taken, other, same, derives⟩ | ⟨fields, failed⟩
    · obtain ⟨rfl, rfl⟩ := Stream.prepend_ended_inj same
      rw [Stream.document_reads False.elim derives] at ran
      obtain ⟨made, middle, inside, _⟩ := Run.ok_of_bind ran
      exact ⟨fields, derives, Grammar.Fields.concatenates_of_run inside⟩
    · obtain ⟨fault, _, stuck, _⟩ := failed includer False.elim session
      cases ran.symm.trans stuck
  · rintro ⟨fields, derives, joins⟩
    obtain ⟨made, after, ran⟩ := Grammar.Derives.run_of_concatenates derives joins includer session
    rw [Stream.document_reads False.elim derives]
    exact ⟨_, Run.outcome_of_ok (Run.bind_of_ok ran rfl)⟩

/-- Fields in braces are derived, with pieces side by side in them. Pieces that do not go together
are not, nor is a brace that closes nothing. -/
theorem parse_accepts_nested_fields :
    let accepts (text : String) := ∃ fields : Grammar.Fields,
      Grammar.Derives False fields (Cursor.ofText text).lexemes ∧ fields.Concatenates
    accepts "\na \x7b b.\"c.d\" : 1 2, e += [x\n] \x7d \n f \x7b\x7d" ∧ ¬accepts "a = 1 [2]" ∧
      ¬accepts "a = 1 \x7d" := by
  have accepts : ∀ text, Lexed (.ofText text) (Cursor.ofText text).lexemes →
      (∀ lexeme ∈ (Cursor.ofText text).lexemes, lexeme.token ≠ .unquoted Directive.keyword) →
      ((((parse (fun _ => pure .empty) text).outcome .start).1.isOk = true) ↔ ∃ fields : Grammar.Fields,
        Grammar.Derives False fields (Cursor.ofText text).lexemes ∧ fields.Concatenates) := by
    intro text lexed plain
    rw [← parse_accepts_iff_derives lexed plain (fun _ => pure .empty) .start]
    exact ⟨ok_of_isOk, fun ⟨document, done⟩ => by rw [done]; rfl⟩
  refine ⟨?_, ?_, ?_⟩
  · exact (accepts _ (by decide +kernel) (by decide +kernel)).mp (by decide +kernel)
  · exact fun derived => absurd ((accepts _ (by decide +kernel) (by decide +kernel)).mpr derived) (by decide +kernel)
  · exact fun derived => absurd ((accepts _ (by decide +kernel) (by decide +kernel)).mpr derived) (by decide +kernel)

end Hocon
