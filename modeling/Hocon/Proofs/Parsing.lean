import Hocon.Document
import Hocon.Proofs.Spelling

namespace Hocon

/-- A run that ends well with a value and leaves these tokens. It does nothing else: no
number is given, nothing is noted, and no directive is handed over. -/
def Parses {α : Type} {limit : Nat} (run : Run (Parsed α limit)) (value : α)
    (tokens : List Token) : Prop :=
  ∃ rest within, run = pure ⟨value, [], rest, within⟩ ∧ rest.Spells tokens

namespace Stream

variable {includer : Includer} {stream : Stream} {gap inner more tokens : List Token}

theorem parses_text {token : Token} {text : String}
    (scalar : token = .unquoted text ∨ token = .quoted text)
    (spells : stream.Spells (token :: tokens)) :
    Parses (stream.piece includer) (.text text) tokens := by
  obtain ⟨lexeme, next, rfl, same, further⟩ := spells.exists_more
  refine ⟨next, length_lt_more lexeme next, ?_, further⟩
  rw [piece]
  rcases scalar with rfl | rfl
  · simp only [next?, Run.ofExcept, pure_bind, same]
  · simp only [next?, Run.ofExcept, pure_bind, same]

theorem parses_object {entries : List Entry} (spells : stream.Spells (.leftBrace :: inner))
    (inside : ∀ next : Stream, next.Spells inner → Parses (next.fields includer .brace) entries tokens) :
    Parses (stream.piece includer) (.object (Entry.build entries)) tokens := by
  obtain ⟨lexeme, next, rfl, same, further⟩ := spells.exists_more
  obtain ⟨rest, within, parsed, left⟩ := inside next further
  refine ⟨rest, lt_of_le within (length_lt_more lexeme next), ?_, left⟩
  rw [piece]
  simp only [next?, Run.ofExcept, pure_bind, same, parsed]

theorem parses_array {elements : List Value} (spells : stream.Spells (.leftBracket :: inner))
    (inside : ∀ (opened : Position) (next : Stream), next.Spells inner →
      Parses (next.items includer opened) elements tokens) :
    Parses (stream.piece includer) (.array elements) tokens := by
  obtain ⟨lexeme, next, rfl, same, further⟩ := spells.exists_more
  obtain ⟨rest, within, parsed, left⟩ := inside lexeme.start next further
  refine ⟨rest, lt_of_le within (length_lt_more lexeme next), ?_, left⟩
  rw [piece]
  simp only [next?, Run.ofExcept, pure_bind, same, parsed]

theorem parses_single {piece value : Value} (first : Parses (stream.piece includer) piece tokens)
    (ends : (tokens.headD .endOfText).startsValue = false)
    (joined : joinPieces stream.token.isBare [piece] = .ok value) :
    Parses (stream.value includer) value tokens := by
  obtain ⟨rest, within, parsed, left⟩ := first
  have none : rest.pieces includer = pure ⟨[], [], rest, rest.length_lt_succ⟩ := by
    rw [pieces, left.token_eq, ends]
    rfl
  refine ⟨rest, lt_of_le rest.length_lt_succ within, ?_, left⟩
  rw [Stream.value]
  simp only [parsed, pure_bind, none, joined, Run.ofExcept, List.append_nil]

theorem parses_items_end {opened : Position} (separators : ∀ token ∈ gap, token.isSeparator = true)
    (spells : stream.Spells (gap ++ .rightBracket :: tokens)) :
    Parses (stream.items includer opened) [] tokens := by
  have kept : ∀ token ∈ (Token.rightBracket :: tokens).head?, token.isSeparator = false := by
    rintro token ⟨⟩
    rfl
  obtain ⟨front, skipped, dropped, left⟩ := spells.dropWhile_eq separators kept
  obtain ⟨lexeme, next, rfl, same, further⟩ := left.exists_more
  refine ⟨next, lt_succ_of_lt (lt_of_lt_of_le (length_lt_more lexeme next) skipped), ?_, further⟩
  rw [items, dropped]
  obtain ⟨space, start, token⟩ := lexeme
  cases same
  rfl

private theorem isSeparator_of_starts (starts : (inner.headD .endOfText).startsValue = true) :
    ∀ token ∈ inner.head?, token.isSeparator = false := by
  intro token head
  cases inner with
  | nil => cases head
  | cons other inner =>
    cases head
    cases token <;> first | rfl | cases starts

theorem parses_items_more {opened : Position} {first : Value} {others : List Value}
    (separators : ∀ token ∈ gap, token.isSeparator = true) (spells : stream.Spells (gap ++ inner))
    (starts : (inner.headD .endOfText).startsValue = true)
    (element : ∀ front : Stream, front.Spells inner → Parses (front.value includer) first more)
    (ends : more.headD .endOfText ∈ [.comma, .newline, .rightBracket])
    (further : ∀ next : Stream, next.Spells more → Parses (next.items includer opened) others tokens) :
    Parses (stream.items includer opened) (first :: others) tokens := by
  obtain ⟨front, skipped, dropped, left⟩ :=
    spells.dropWhile_eq separators (isSeparator_of_starts starts)
  obtain ⟨next, within, parsed, behind⟩ := element front left
  obtain ⟨rest, past, finished, remaining⟩ := further next behind
  have ended : next.endOfElement = .ok () := by
    rw [endOfElement, behind.token_eq]
    simp only [List.mem_cons, List.not_mem_nil, or_false] at ends
    rcases ends with same | same | same <;> rw [same]
  refine ⟨rest, lt_succ_of_le past within skipped, ?_, remaining⟩
  rw [items, dropped]
  cases inner with
  | nil => cases starts
  | cons token inner =>
    obtain ⟨lexeme, following, rfl, rfl, _⟩ := left.exists_more
    obtain ⟨space, start, token⟩ := lexeme
    cases token <;> first
      | exact absurd starts Bool.false_ne_true
      | simp only [Run.ofExcept, pure_bind, next?, parsed, ended, finished, List.append_nil]

theorem parses_fields_end (separators : ∀ token ∈ gap, token.isSeparator = true)
    (spells : stream.Spells (gap ++ .rightBrace :: tokens)) :
    Parses (stream.fields includer .brace) [] tokens := by
  have kept : ∀ token ∈ (Token.rightBrace :: tokens).head?, token.isSeparator = false := by
    rintro token ⟨⟩
    rfl
  obtain ⟨front, skipped, dropped, left⟩ := spells.dropWhile_eq separators kept
  obtain ⟨lexeme, next, rfl, same, further⟩ := left.exists_more
  refine ⟨next, lt_succ_of_lt (lt_of_lt_of_le (length_lt_more lexeme next) skipped), ?_, further⟩
  rw [fields, dropped]
  simp only [Run.ofExcept, pure_bind, next?, same, and_self, if_true]

/-- One more field, in front of a separator or the closing brace. -/
theorem parses_fields_more {key : String} {first : Entry} {others : List Entry}
    (separators : ∀ token ∈ gap, token.isSeparator = true)
    (spells : stream.Spells (gap ++ .quoted key :: inner))
    (field : ∀ front : Stream, front.Spells (.quoted key :: inner) →
      Parses (front.entry includer) first more)
    (ends : more.headD .endOfText ∈ [.comma, .newline, .rightBrace])
    (further : ∀ next : Stream, next.Spells more → Parses (next.fields includer .brace) others tokens) :
    Parses (stream.fields includer .brace) (first :: others) tokens := by
  have kept : ∀ token ∈ (Token.quoted key :: inner).head?, token.isSeparator = false := by
    rintro token ⟨⟩
    rfl
  obtain ⟨front, skipped, dropped, left⟩ := spells.dropWhile_eq separators kept
  obtain ⟨next, within, parsed, behind⟩ := field front left
  obtain ⟨rest, past, finished, remaining⟩ := further next behind
  have ended : next.endOfField .brace = .ok () := by
    rw [endOfField, behind.token_eq]
    simp only [List.mem_cons, List.not_mem_nil, or_false] at ends
    rcases ends with same | same | same <;> rw [same]
  refine ⟨rest, lt_succ_of_le past within skipped, ?_, remaining⟩
  obtain ⟨lexeme, following, rfl, same, _⟩ := left.exists_more
  rw [fields, dropped]
  simp only [Run.ofExcept, pure_bind, next?, same, reduceCtorEq, and_false, if_false, parsed, ended,
    finished, List.append_nil]

private theorem key_quoted {text : String} (start : Position)
    (spells : stream.Spells (.quoted text :: .colon :: tokens)) :
    ∃ rest within, stream.key start .empty false = .ok ⟨⟨text, []⟩, rest, within⟩ ∧
      rest.Spells (.colon :: tokens) := by
  obtain ⟨lexeme, next, rfl, same, further⟩ := spells.exists_more
  have whole : (KeyPath.Builder.empty.append text).path? = some ⟨text, []⟩ := by
    simp [KeyPath.Builder.path?, KeyPath.Builder.isBlankSegment, KeyPath.Builder.append,
      KeyPath.Builder.empty, KeyPath.snoc]
  have finished : next.key start (KeyPath.Builder.empty.append text) true =
      .ok ⟨⟨text, []⟩, next, next.length_lt_succ⟩ := by
    obtain ⟨mark, behind, rfl, colon, _⟩ := further.exists_more
    rw [key]
    simp only [next?, colon, whole, ite_self]
  refine ⟨next, lt_succ_of_lt (length_lt_more lexeme next), ?_, further⟩
  rw [key]
  simp only [next?, Bool.false_and, Bool.false_eq_true, if_false, same, bind, Except.bind, finished]
  rfl

private theorem parses_assignment (start : Position) (path : KeyPath) {value : Value}
    (newlines : ∀ token ∈ gap, token = .newline) (spells : stream.Spells (.colon :: (gap ++ inner)))
    (starts : (inner.headD .endOfText).startsValue = true)
    (assigned : ∀ front : Stream, front.Spells inner → Parses (front.value includer) value tokens) :
    Parses (stream.assignment includer start path) (.assign path value) tokens := by
  have dropped : ∀ token ∈ gap, (token == .newline) = true :=
    fun token member => by rw [newlines token member]; rfl
  have kept : ∀ token ∈ inner.head?, (token == .newline) = false := by
    intro token head
    refine beq_eq_false_iff_ne.mpr ?_
    rintro rfl
    cases isSeparator_of_starts starts _ head
  obtain ⟨⟨space, place, token⟩, next, rfl, rfl, behind⟩ := spells.exists_more
  obtain ⟨front, skipped, done, left⟩ := behind.dropWhile_eq dropped kept
  obtain ⟨rest, within, parsed, remaining⟩ := assigned front left
  refine ⟨rest, lt_of_lt (lt_of_lt_of_le within skipped) (length_lt_more _ next), ?_, remaining⟩
  rw [assignment]
  simp only [next?, Stream.assigned, Run.ofExcept, pure_bind, done, parsed]

/-- A field with a quoted key is a field, even if the key is the word that begins a directive. -/
theorem parses_entry {key : String} {value : Value} (newlines : ∀ token ∈ gap, token = .newline)
    (spells : stream.Spells (.quoted key :: .colon :: (gap ++ inner)))
    (starts : (inner.headD .endOfText).startsValue = true)
    (assigned : ∀ front : Stream, front.Spells inner → Parses (front.value includer) value tokens) :
    Parses (stream.entry includer) (.assign ⟨key, []⟩ value) tokens := by
  obtain ⟨⟨space, start, token⟩, next, rfl, rfl, _⟩ := spells.exists_more
  obtain ⟨marked, before, named, ahead⟩ := key_quoted start spells
  obtain ⟨rest, within, parsed, remaining⟩ :=
    parses_assignment start ⟨key, []⟩ newlines ahead starts assigned
  refine ⟨rest, lt_of_lt_of_le within before, ?_, remaining⟩
  rw [entry]
  simp only [next?, named, Run.ofExcept, pure_bind, parsed]

/-- A document between braces with nothing but newlines around them. -/
theorem document_of_fields {entries : List Entry} {lead behind : List Token}
    (newlines : ∀ token ∈ lead ++ behind, token = .newline)
    (spells : stream.Spells (lead ++ .leftBrace :: inner))
    (inside : ∀ next : Stream, next.Spells inner → Parses (next.fields includer .brace) entries behind) :
    stream.document includer = pure ⟨Entry.build entries, []⟩ := by
  obtain ⟨before, after⟩ := List.forall_mem_append.mp newlines
  have dropped : ∀ token ∈ lead, (token == .newline) = true :=
    fun token member => by rw [before token member]; rfl
  have kept : ∀ token ∈ (Token.leftBrace :: inner).head?, (token == .newline) = false := by
    rintro token ⟨⟩
    rfl
  obtain ⟨front, skipped, done, left⟩ := spells.dropWhile_eq dropped kept
  obtain ⟨⟨space, start, token⟩, next, rfl, rfl, further⟩ := left.exists_more
  obtain ⟨follows, within, parsed, remaining⟩ := inside next further
  have separators : ∀ token ∈ behind, token.isSeparator = true :=
    fun token member => by rw [after token member]; rfl
  obtain ⟨rest, past, finished, empty⟩ :=
    Spells.dropWhile_eq (show follows.Spells (behind ++ []) by simpa using remaining) separators (by simp)
  have ended : rest.token = .endOfText := empty.token_eq
  rw [document]
  simp only [Run.ofExcept, pure_bind, done, next?, parsed, finished, ended, if_true]

end Stream
end Hocon
