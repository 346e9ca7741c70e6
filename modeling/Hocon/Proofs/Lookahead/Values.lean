import Hocon.Proofs.Grammar.Acceptance
import Hocon.Proofs.Lookahead.Keys
import Hocon.Proofs.Merging

namespace Hocon

/-- The answers are objects, and their faults blame none that is not. -/
structure Includer.Clean (includer : Includer) : Prop where
  objects : includer.Objects
  own : ∀ {directive session fault after}, includer directive session = .error fault after →
    fault.blamesAnswer = false

/-- The token that closes. -/
def Closing.token : Closing → Token
  | .brace => .rightBrace
  | .endOfText => .endOfText

namespace Lookahead

section Paths

private theorem setPath_eq (fields : Object) (path : KeyPath) (value : Value) :
    setPath fields path.toList value = pure (fields.set path value) := rfl

private theorem appendPath_eq_appendAt (value : Value) (fields : Object) (key : String) (rest : List String) :
    appendPath value fields (key :: rest) = pure (Object.appendAt value fields key rest) := by
  induction rest generalizing fields key with
  | nil => rfl
  | cons next rest ih =>
    rw [appendPath, Object.appendAt]
    suffices descends : ∀ inner change,
        change (fields.lookup key) = .object (Object.appendAt value inner next rest) →
        (do
          let grown ← appendPath value inner (next :: rest)
          return Object.insert fields key (.object grown)) =
            (pure (Object.update fields key change) : Parsing Object) by
      cases found : fields.lookup key with
      | none => exact descends [] _ (by rw [found])
      | some old => cases old <;> exact descends _ _ (by rw [found])
    intro inner change made
    rw [ih, pure_bind]
    exact congrArg pure (Object.update_congr made.symm)

private theorem appendPath_eq (fields : Object) (path : KeyPath) (value : Value) :
    appendPath value fields path.toList = pure (fields.append path value) :=
  appendPath_eq_appendAt value fields path.first path.rest

end Paths

variable {includer : Includer} {parser : Parser} {stream : Stream} {limit bound : Nat}

/-- Directives are answered as an includer answers them. -/
def Answering.of (includer : Includer) : Answering := fun directive => halting (includer directive)

/-- A part of the parser that reads what a run reads off the stream. -/
abbrev Reads {α β : Type} {length : Nat} (includer : Includer) (parser : Parser) (stream : Stream)
    (parsing : Parsing α) (run : Run (Parsed β length)) (alike : α → β → Prop) : Prop :=
  Follows includer.Clean parser parsing run fun result made later =>
    alike result made.value ∧ Moved parser stream made.references made.rest later

/-- A parser of the values in streams below a bound. -/
def ReadsValues (includer : Includer) (inner : Parsing Value) (bound : Nat) : Prop :=
  ∀ {parser stream}, Holds parser stream → stream.length < bound →
    Reads includer parser stream inner (stream.value includer) Eq

section Fields

private theorem Follows.opensDirective {β γ : Type} {next : Bool → Parsing β} {run : Run γ}
    {last : β → γ → Parser → Prop} (holds : Holds parser stream)
    (goes : Follows includer.Clean parser (next stream.opensDirective) run last) :
    Follows includer.Clean parser (Lookahead.opensDirective >>= next) run last := by
  have done : Lookahead.opensDirective parser = .ok stream.opensDirective parser := by
    unfold Lookahead.opensDirective Stream.opensDirective
    simp only [Bind.bind, EStateM.bind, holds.isSpaced, holds.peek]
    cases stream.token <;> cases stream.ahead.isSpaced <;> rfl
  exact bind_left done rfl goes

private theorem reads_inclusion (fields : Object) (holds : Holds parser stream)
    (enough : stream.length < limit) :
    Reads includer parser stream (includeSpec limit >>= includeInto (.of includer) fields)
      (stream.inclusion includer) fun result entry => result = entry.apply fields := by
  unfold Stream.inclusion
  refine (follows_includeSpec holds enough).bind ?_
  rintro _ ⟨directive, rest, within⟩ later ⟨rfl, moved⟩
  unfold includeInto
  refine .place moved.holds (.lift_then (fun _ _ _ failed => by cases failed) ?_)
  intro _ noted _
  refine .lift_then (fun cleanly _ _ failed => cleanly.own failed) ?_
  intro root answered done
  cases found : root.value with
  | object incoming => exact .bind_left rfl rfl (.pure ⟨rfl, moved.onward root.references answered⟩)
  | _ =>
    refine .fail fun cleanly => ?_
    obtain ⟨fields, object⟩ := cleanly.objects done
    rw [object] at found
    cases found

variable {inner : Parsing Value}

private theorem reads_markedValue (reads : ReadsValues includer inner bound) (fits : bound ≤ limit)
    (holds : Holds parser stream) (enough : stream.length < bound) {lexeme : Lexeme}
    {step : Except Fault stream.Shorter} (going : stream.next? = some (lexeme, step)) :
    Reads includer parser stream (markedValue limit inner) (Stream.assigned includer stream step) Eq := by
  unfold markedValue Stream.assigned
  refine (Follows.advance holds going).bind ?_
  rintro _ ⟨next, behind⟩ later (moved : Moved parser stream [] next later)
  refine (follows_skip rfl moved.holds (by omega)).bind ?_
  rintro _ ⟨front, skipped⟩ last (past : Moved later next [] front last)
  refine (reads past.holds (by omega)).finish ?_
  exact fun _ _ _ read => ⟨read.1, (moved.trans past).trans read.2⟩

private theorem reads_fieldValue (reads : ReadsValues includer inner bound) (fits : bound ≤ limit)
    (holds : Holds parser stream) (enough : stream.length < bound) (fields : Object) (path : KeyPath)
    (start : Position) :
    Reads includer parser stream (fieldValue limit inner fields path.toList start)
      (Stream.assignment includer start path stream) fun result entry => result = entry.apply fields := by
  unfold fieldValue
  refine .peek holds ?_
  by_cases mark : stream.token.isMark = true
  case neg =>
    rw [Stream.assignment_other (by simpa using mark)]
    suffices refused : Follows includer.Clean parser
        (fail (.noValueAfterKey path start) : Parsing Object) _ _ by
      cases token : stream.token <;> simp only [token, Token.isMark, not_true] at mark <;> exact refused
    exact .fail fun _ => rfl
  cases going : stream.next? with
  | none =>
    rw [holds.ended going] at mark
    cases mark
  | some found =>
    have first := Stream.token_of_next? going
    have assigned (make : Value → Entry) (change : Value → Parsing Object)
        (changes : ∀ value, change value = pure ((make value).apply fields)) :
        Reads includer parser stream (markedValue limit inner >>= change) (do
          let found ← Stream.assigned includer stream found.2
          return ⟨make found.value, found.references, found.rest, found.within⟩)
          fun result entry => result = entry.apply fields := by
      refine (reads_markedValue reads fits holds enough going).bind ?_
      rintro _ found later ⟨rfl, moved⟩
      rw [changes]
      exact .pure ⟨rfl, moved⟩
    cases token : stream.token <;> simp only [token, Token.isMark, Bool.false_eq_true] at mark
    case colon =>
      rw [Stream.assignment_assign going (.inl (first ▸ token))]
      exact assigned _ _ fun value => setPath_eq fields path value
    case equals =>
      rw [Stream.assignment_assign going (.inr (first ▸ token))]
      exact assigned _ _ fun value => setPath_eq fields path value
    case plusEquals =>
      rw [Stream.assignment_append going (first ▸ token)]
      exact assigned _ _ fun value => appendPath_eq fields path value
    case leftBrace =>
      rw [Stream.assignment_nested going (first ▸ token)]
      refine (reads holds enough).bind ?_
      rintro _ found later ⟨rfl, moved⟩
      exact .pure ⟨rfl, moved⟩

/-- A field with a key that is still to be read, or goes on, in a stream that may itself lie in a longer one. -/
private theorem reads_keyed (reads : ReadsValues includer inner bound) (fits : bound ≤ limit)
    (holds : Holds parser stream) (enough : stream.length < bound) (fields : Object)
    (builder : KeyPath.Builder) (begun : Bool) (start : Position) {length : Nat}
    (below : ∀ {rest : Stream}, rest.length < stream.length → rest.length < length) :
    Reads includer parser stream
      (do
        let path ← readKey limit builder begun
        fieldValue limit inner fields path start)
      (do
        let ⟨path, named, left⟩ ← Run.ofExcept (stream.key stream.start builder begun)
        let ⟨found, references, rest, within⟩ ← Stream.assignment includer start path named
        return (⟨found, references, rest, below (Stream.lt_of_lt_of_le within left)⟩ : Parsed Entry length))
      fun result entry => result = entry.apply fields := by
  refine (follows_readKey holds (by omega)).bind ?_
  rintro _ ⟨path, named, left⟩ later ⟨rfl, moved⟩
  have moved : Moved parser stream [] named later := moved
  refine (reads_fieldValue reads fits moved.holds (by omega) fields path start).finish ?_
  exact fun _ _ _ read => ⟨read.1, moved.trans read.2⟩

private theorem reads_field (reads : ReadsValues includer inner bound) (fits : bound ≤ limit)
    (holds : Holds parser stream) (enough : stream.length < bound) (fields : Object) :
    Reads includer parser stream (field limit inner fields)
      (do
        let ⟨path, named, left⟩ ← Run.ofExcept (stream.key stream.start .empty false)
        let ⟨found, references, rest, within⟩ ← Stream.assignment includer stream.start path named
        return (⟨found, references, rest, Stream.lt_of_lt_of_le within left⟩ : Parsed Entry stream.length))
      fun result entry => result = entry.apply fields :=
  .place holds (reads_keyed reads fits holds enough fields .empty false stream.start id)

private theorem reads_includeOrField (reads : ReadsValues includer inner bound) (fits : bound ≤ limit)
    (holds : Holds parser stream) (enough : stream.length < bound) (fields : Object) {lexeme : Lexeme}
    {step : Except Fault stream.Shorter} (going : stream.next? = some (lexeme, step))
    (keyword : lexeme.token = .unquoted Directive.keyword) :
    Reads includer parser stream (includeOrField limit (.of includer) inner fields) (stream.entry includer)
      fun result entry => result = entry.apply fields := by
  have placed : stream.start = lexeme.start := Stream.start_of_next? going
  obtain ⟨space, start, token⟩ := lexeme
  cases keyword
  unfold includeOrField
  rw [Stream.entry]
  simp only [going, if_true]
  refine .place holds ?_
  rw [placed]
  refine (Follows.advance holds going).bind ?_
  rintro _ ⟨next, behind⟩ later (moved : Moved parser stream [] next later)
  refine .opensDirective moved.holds ?_
  dsimp only
  split
  · refine (reads_inclusion fields moved.holds (by omega)).finish ?_
    exact fun _ _ _ read => ⟨read.1, moved.trans read.2⟩
  · refine (reads_keyed reads fits moved.holds (by omega) fields ⟨[], Directive.keyword, false⟩ true start
      (Stream.lt_of_lt · behind)).weaken ?_
    exact fun _ _ _ read => ⟨read.1, moved.trans read.2⟩

private theorem readEntry_other {answering : Answering} {fields : Object} {token : Token}
    (other : token.isWord = false) (inside : token ≠ .endOfText) :
    readEntry limit answering inner fields (some token) =
      place >>= fun start => fail (.noKey token start) := by
  cases token <;> simp only [Token.isWord, Bool.true_eq_false, ne_eq, not_true] at other inside <;> rfl

/-- One field or directive is done to the fields. -/
private theorem reads_entry (reads : ReadsValues includer inner bound) (fits : bound ≤ limit)
    (holds : Holds parser stream) (enough : stream.length < bound) (fields : Object) {lexeme : Lexeme}
    {step : Except Fault stream.Shorter} (going : stream.next? = some (lexeme, step)) :
    Reads includer parser stream (readEntry limit (.of includer) inner fields (some stream.token))
      (stream.entry includer) fun result entry => result = entry.apply fields := by
  by_cases word : stream.token.isWord = true
  case neg =>
    have other : stream.token.isWord = false := by simpa using word
    rw [Stream.entry_other other, readEntry_other other (holds.going going).1]
    exact .place holds (.fail fun _ => rfl)
  have named := Stream.token_of_next? going
  have placed := Stream.start_of_next? going
  obtain ⟨space, start, token⟩ := lexeme
  have keyed := reads_field reads fits holds enough fields
  rw [placed] at keyed
  rw [named] at word ⊢
  cases token <;> simp only [Token.isWord, Bool.false_eq_true] at word
  case quoted text =>
    rw [Stream.entry]
    simp only [going]
    exact keyed
  case unquoted text =>
    unfold readEntry
    by_cases keyword : text = Directive.keyword
    · subst keyword
      exact reads_includeOrField reads fits holds enough fields going rfl
    · rw [Stream.entry]
      simp only [going, if_neg keyword]
      exact keyed

private theorem follows_endOfField (holds : Holds parser stream) (closing : Closing) :
    Follows includer.Clean parser (endOfField closing.token) (Run.ofExcept (stream.endOfField closing))
      fun _ _ later => later = parser := by
  unfold endOfField Stream.endOfField
  refine .peek holds ?_
  cases stream.token <;> cases closing <;> first | exact .pure rfl | exact .place holds (.fail fun _ => rfl)

/-- The fields of an object are done to what the object already holds. -/
theorem reads_body (reads : ReadsValues includer inner bound) (fits : bound ≤ limit) {fuel : Nat}
    (holds : Holds parser stream) (enough : stream.length < bound) (more : stream.length < fuel)
    (closing : Closing) (fields : Object) :
    Reads includer parser stream (loop (bodyPass limit (.of includer) inner closing.token) fuel fields)
      (stream.fields includer closing) fun result entries => result = entries.foldl Entry.apply fields := by
  -- By induction on the passes. One that goes on leaves a shorter stream, and so has taken a token.
  induction fuel generalizing parser stream fields with
  | zero => exact absurd more (Nat.not_lt_zero _)
  | succ fuel ih =>
    refine .unroll ?_
    rw [bodyPass, bind_assoc, Stream.fields]
    refine (follows_skip rfl holds (by omega)).bind ?_
    rintro _ ⟨front, skipped⟩ later (moved : Moved parser stream [] front later)
    rw [bind_assoc]
    refine .peek moved.holds ?_
    dsimp only
    cases going : front.next? with
    | none =>
      rw [moved.holds.ended going]
      cases closing with
      | endOfText => exact .pure ⟨rfl, moved⟩
      | brace =>
        rw [if_neg (by decide), bind_assoc, readEntry, bind_assoc]
        refine .place moved.holds ?_
        exact .fail fun _ => rfl
    | some found =>
      obtain ⟨lexeme, step⟩ := found
      have first : front.token = lexeme.token := Stream.token_of_next? going
      by_cases closes : closing = .brace ∧ lexeme.token = .rightBrace
      · obtain ⟨rfl, closer⟩ := closes
        rw [first, closer, if_pos (by rfl), if_pos (by decide), bind_assoc]
        simp only [closer, and_self, if_true]
        refine (Follows.advance moved.holds going).bind ?_
        exact fun _ _ _ behind => .pure ⟨rfl, moved.trans behind⟩
      · have inside : some front.token ≠ some closing.token := by
          intro same
          have same := Option.some.inj same
          cases closing with
          | brace => exact closes ⟨rfl, first ▸ same⟩
          | endOfText => exact (moved.holds.going going).1 same
        rw [if_neg inside, bind_assoc]
        simp only [if_neg closes]
        refine (reads_entry reads fits moved.holds (by omega) fields going).bind ?_
        rintro _ ⟨entry, references, next, within⟩ past ⟨rfl, behind⟩
        have behind : Moved later front references next past := behind
        rw [bind_assoc]
        refine (follows_endOfField behind.holds closing).bind ?_
        rintro _ _ _ rfl
        rw [pure_bind]
        refine .again ((moved.trans behind).taken_lt (by omega)) ?_
        refine (ih behind.holds (by omega) (by omega) _).finish ?_
        exact fun _ _ _ read => ⟨read.1, (moved.trans behind).trans read.2⟩

end Fields

section Pieces

variable {inner : Parsing Value}

private theorem follows_endOfElement (holds : Holds parser stream) :
    Follows includer.Clean parser endOfElement (Run.ofExcept stream.endOfElement)
      fun _ _ later => later = parser := by
  unfold endOfElement Stream.endOfElement
  refine .peek holds ?_
  cases stream.token <;> first | exact .pure rfl | exact .place holds (.fail fun _ => rfl)

private theorem reads_items (reads : ReadsValues includer inner bound) (fits : bound ≤ limit) {fuel : Nat}
    (holds : Holds parser stream) (enough : stream.length < bound) (more : stream.length < fuel)
    (opened : Position) (elements : List Value) :
    Reads includer parser stream (loop (itemPass limit inner opened) fuel elements)
      (stream.items includer opened) fun result others => result = elements ++ others := by
  induction fuel generalizing parser stream elements with
  | zero => exact absurd more (Nat.not_lt_zero _)
  | succ fuel ih =>
    refine .unroll ?_
    rw [itemPass, bind_assoc, Stream.items]
    refine (follows_skip rfl holds (by omega)).bind ?_
    rintro _ ⟨front, skipped⟩ later (moved : Moved parser stream [] front later)
    rw [bind_assoc]
    refine .peek moved.holds ?_
    dsimp only
    cases going : front.next? with
    | none =>
      rw [moved.holds.ended going]
      exact .fail fun _ => rfl
    | some found =>
      obtain ⟨⟨space, start, token⟩, step⟩ := found
      have first : front.token = token := Stream.token_of_next? going
      have proper := (moved.holds.going going).1
      rw [first] at proper ⊢
      by_cases closer : token = .rightBracket
      · subst closer
        rw [bind_assoc]
        refine (Follows.advance moved.holds going).bind ?_
        exact fun _ _ _ behind => .pure ⟨(List.append_nil _).symm, moved.trans behind⟩
      suffices onward : Follows includer.Clean later
          ((do
            let element ← inner
            endOfElement
            return .again (elements ++ [element])) >>=
              Follows.settle (itemPass limit inner opened) fuel parser.taken pure) _ _ by
        cases token <;> first | exact absurd rfl proper | exact absurd rfl closer | exact onward
      rw [bind_assoc]
      refine (reads moved.holds (by omega)).bind ?_
      rintro _ ⟨element, references, next, within⟩ past ⟨rfl, behind⟩
      have behind : Moved later front references next past := behind
      rw [bind_assoc]
      refine (follows_endOfElement behind.holds).bind ?_
      rintro _ _ _ rfl
      rw [pure_bind]
      refine .again ((moved.trans behind).taken_lt (by omega)) ?_
      refine (ih behind.holds (by omega) (by omega) _).finish ?_
      rintro _ _ _ ⟨rfl, final⟩
      exact ⟨List.append_assoc .., (moved.trans behind).trans final⟩

private theorem reads_newReference (holds : Holds parser stream) (path : List String) (optional : Bool)
    (start : Position) {length : Nat} (within : stream.length < length) :
    Reads includer parser stream (newReference path optional start)
      (do
        let id ← Run.freshId
        let target := ⟨id, path, optional, start⟩
        return (⟨.reference target, [target], stream, within⟩ : Parsed Value length))
      fun result made => result = made ∧ result.isReference = true := by
  unfold newReference
  refine .lift_then (fun _ _ _ failed => by cases failed) ?_
  intro id numbered _
  exact .bind_left rfl rfl (.pure ⟨⟨rfl, rfl⟩, (Moved.refl holds).onward _ numbered⟩)

/-- The token ahead says which branch reads a piece, and it is the token that is taken there. -/
private theorem reads_piece (reads : ReadsValues includer inner bound) (fits : bound < limit)
    (holds : Holds parser stream) (enough : stream.length ≤ bound) (starts : stream.token.startsValue = true) :
    Reads includer parser stream (readPiece limit (.of includer) inner (some stream.token))
      (stream.piece includer) fun result made => result = made ∧
        (result.isReference = true ↔ ∃ path optional, stream.token = .reference path optional) := by
  cases going : stream.next? with
  | none =>
    rw [holds.ended going] at starts
    cases starts
  | some found =>
  obtain ⟨⟨space, start, token⟩, step⟩ := found
  have first : stream.token = token := Stream.token_of_next? going
  have placed : stream.start = start := Stream.start_of_next? going
  rw [Stream.piece]
  simp only [going]
  -- The branch is chosen by the token of the stream, and that is what the parser takes in it.
  rw [first] at starts ⊢
  cases token <;> simp only [Token.startsValue, Bool.false_eq_true] at starts
  case unquoted text | quoted text =>
    refine (Follows.bump holds going).bind ?_
    rintro _ next later ⟨rfl, moved⟩
    rw [first]
    exact .pure ⟨⟨rfl, by simp [Value.isReference, Value.kind]⟩, moved⟩
  case reference path optional =>
    refine .place holds ((Follows.bump holds going).bind ?_)
    rintro _ ⟨next, behind⟩ later ⟨rfl, moved⟩
    rw [first, placed]
    refine (reads_newReference moved.holds path.toList optional start behind).weaken ?_
    rintro _ _ _ ⟨⟨same, refers⟩, final⟩
    exact ⟨⟨same, by simp [refers]⟩, moved.trans final⟩
  case leftBrace =>
    unfold readPiece objectValue expect
    rw [bind_assoc]
    refine .place holds ?_
    rw [bind_assoc]
    refine (Follows.bump holds going).bind ?_
    rintro _ ⟨next, behind⟩ later ⟨rfl, (moved : Moved parser stream [] next later)⟩
    rw [if_neg (by simp [first]), pure_bind]
    refine Follows.bind (reads_body reads (by omega) moved.holds (by omega) (by omega) .brace []) ?_
    rintro _ ⟨entries, references, rest, past⟩ last ⟨rfl, final⟩
    exact .pure ⟨⟨rfl, by simp [Value.isReference, Value.kind]⟩, moved.trans final⟩
  case leftBracket =>
    unfold readPiece arrayValue
    refine .place holds ((Follows.advance holds going).bind ?_)
    rintro _ ⟨next, behind⟩ later (moved : Moved parser stream [] next later)
    rw [placed]
    refine Follows.bind (reads_items reads (by omega) moved.holds (by omega) (by omega) start []) ?_
    rintro _ ⟨elements, references, rest, past⟩ last ⟨rfl, final⟩
    exact .pure ⟨⟨rfl, by simp [Value.isReference, Value.kind]⟩, moved.trans final⟩

/-- These pieces, the first one bare or not. -/
def Gathered.of (bare : Bool) (pieces : List Value) : Gathered :=
  ⟨pieces, pieces.any Value.isReference, bare⟩

private theorem Gathered.hasReference_add (found : Gathered) {token : Token} {piece : Value} (space : String)
    (refers : piece.isReference = true ↔ ∃ path optional, token = .reference path optional) :
    (found.add (some token) space piece).hasReference = (found.hasReference || piece.isReference) := by
  cases token
  case reference path optional =>
    rw [refers.mpr ⟨path, optional, rfl⟩]
    exact (Bool.or_true _).symm
  all_goals
    have plain : piece.isReference = false := by simpa using refers
    rw [plain]
    exact (Bool.or_false _).symm

private theorem Gathered.add_none {token : Token} {piece : Value} (space : String)
    (refers : piece.isReference = true ↔ ∃ path optional, token = .reference path optional) :
    Gathered.none.add (some token) space piece = .of token.isBare [piece] := by
  show (⟨[piece], (none.add (some token) space piece).hasReference, token.isBare⟩ : Gathered) = _
  rw [hasReference_add none space refers]
  simp [none, of]

private theorem Gathered.add_of {token : Token} {piece : Value} {pieces : List Value} (bare : Bool)
    (space : String)
    (more : pieces ≠ [])
    (refers : piece.isReference = true ↔ ∃ path optional, token = .reference path optional) :
    (Gathered.of bare pieces).add (some token) space piece =
      .of bare (pieces ++ ((if space != "" then [.text space] else []) ++ [piece])) := by
  have begun : pieces.isEmpty = false := by simpa using more
  have blank : (if space != "" then [Value.text space] else []).any Value.isReference = false := by
    split <;> rfl
  show (⟨pieces ++ (if !pieces.isEmpty && space != "" then [.text space] else []) ++ [piece],
    ((of bare pieces).add (some token) space piece).hasReference,
    if pieces.isEmpty then token.isBare else bare⟩ : Gathered) = _
  rw [hasReference_add (of bare pieces) space refers, begun]
  simp only [of, Bool.not_false, Bool.true_and, Bool.false_eq_true, if_false, List.append_assoc, List.any_append,
    List.any_cons, List.any_nil, Bool.or_false, blank, Bool.false_or]

private theorem reads_pieces (reads : ReadsValues includer inner bound) (fits : bound < limit) {fuel : Nat}
    (holds : Holds parser stream) (enough : stream.length ≤ bound) (more : stream.length < fuel)
    (bare : Bool) {pieces : List Value} (some : pieces ≠ []) :
    Reads includer parser stream (loop (piecePass limit (.of includer) inner) fuel (.of bare pieces))
      (stream.pieces includer) fun result further => result = .of bare (pieces ++ further) := by
  induction fuel generalizing parser stream pieces with
  | zero => exact absurd more (Nat.not_lt_zero _)
  | succ fuel ih =>
    refine .unroll ?_
    rw [piecePass, bind_assoc]
    refine .peek holds ?_
    cases starts : stream.token.startsValue with
    | false =>
      rw [Stream.pieces_none starts, Option.any_some, starts]
      exact .pure ⟨congrArg _ (List.append_nil _).symm, .refl holds⟩
    | true =>
      rw [Stream.pieces_more starts, Option.any_some, if_pos starts, bind_assoc]
      refine .bind_left rfl rfl ?_
      rw [bind_assoc]
      refine (reads_piece reads fits holds enough starts).bind ?_
      rintro _ ⟨piece, references, next, within⟩ later ⟨⟨rfl, refers⟩, moved⟩
      have moved : Moved parser stream references next later := moved
      rw [pure_bind, Gathered.add_of bare _ some refers, holds.space]
      refine .again (moved.taken_lt within) ?_
      refine (ih moved.holds (by omega) (by omega) (by simp)).finish ?_
      rintro _ ⟨further, _, _, _⟩ _ ⟨rfl, final⟩
      exact ⟨by simp, moved.trans final⟩

private theorem closeValue_of (start : Position) (bare : Bool) {pieces : List Value} (more : pieces ≠ []) :
    closeValue start (.of bare pieces) = lift (Run.ofExcept (joinPieces bare pieces)) := by
  obtain _ | ⟨first, _ | ⟨second, rest⟩⟩ := pieces
  · exact absurd rfl more
  · by_cases null : bare = true ∧ first = .text "null"
    · obtain ⟨rfl, rfl⟩ := null
      rfl
    rw [joinPieces_alone fun begun same => null ⟨begun, same⟩]
    cases first with
    | text content =>
      have kept : (bare && content == "null") = false := by simpa using null
      show (pure (if bare && content == "null" then _ else _) : Parsing Value) = _
      rw [kept]
      rfl
    | _ => rfl
  · rw [Grammar.joinPieces_several]
    calc
      _ = if (first :: second :: rest).any Value.isReference then pure (.concat (first :: second :: rest))
          else lift (Run.ofExcept (Value.concatenate (first :: second :: rest))) := by cases first <;> rfl
      _ = _ := by split <;> rfl

/-- Where no value begins, a token is taken all the same, and then refused. -/
private theorem refuses_piece (holds : Holds parser stream) (other : stream.token.startsValue = false) :
    Follows includer.Clean parser (closeValue stream.start .none) (stream.piece includer)
      fun _ _ _ => False := by
  show Follows includer.Clean parser (bump >>= fun token => fail (.noValue token stream.start)) _ _
  rw [Stream.piece]
  cases going : stream.next? with
  | none => exact .bump_ended holds going fun _ _ => .fail fun _ => rfl
  | some found =>
    obtain ⟨⟨space, start, token⟩, step⟩ := found
    have first : stream.token = token := Stream.token_of_next? going
    have placed : stream.start = start := Stream.start_of_next? going
    refine (Follows.bump holds going).bind ?_
    rintro _ next later ⟨rfl, moved⟩
    rw [first] at other ⊢
    cases token <;> simp only [Token.startsValue, Bool.true_eq_false] at other <;> rw [placed] <;>
      exact .fail fun _ => rfl

private theorem reads_value (reads : ReadsValues includer inner bound) (fits : bound < limit)
    (holds : Holds parser stream) (enough : stream.length ≤ bound) :
    Reads includer parser stream (value limit (.of includer) inner) (stream.value includer) Eq := by
  unfold value
  refine .place holds ?_
  obtain ⟨limit, rfl⟩ : ∃ fuel, limit = fuel + 1 := ⟨limit - 1, by omega⟩
  refine .unroll_then ?_
  rw [piecePass, bind_assoc]
  refine .peek holds ?_
  cases starts : stream.token.startsValue with
  | false =>
    rw [Stream.value_eq, Option.any_some, starts]
    show Follows includer.Clean parser (closeValue stream.start .none) _ _
    rw [← bind_pure (closeValue stream.start .none)]
    exact (refuses_piece holds starts).bind fun _ _ _ none => none.elim
  | true =>
    rw [Stream.value_eq, Option.any_some, if_pos starts, bind_assoc]
    refine .bind_left rfl rfl ?_
    rw [bind_assoc]
    refine (reads_piece reads fits holds enough starts).bind ?_
    rintro _ ⟨piece, references, next, within⟩ later ⟨⟨rfl, refers⟩, moved⟩
    have moved : Moved parser stream references next later := moved
    rw [pure_bind, Gathered.add_none _ refers]
    refine .again_then (moved.taken_lt within) ?_
    refine Follows.bind (reads_pieces reads fits moved.holds (by omega) (by omega) _ (List.cons_ne_nil _ _)) ?_
    rintro _ ⟨others, further, rest, past⟩ last ⟨rfl, final⟩
    rw [closeValue_of _ _ (by simp), ← bind_pure (lift _)]
    refine .ofExcept ?_ fun joined => .pure ⟨rfl, moved.trans final⟩
    intro fault failed
    obtain ⟨left, right, rfl⟩ := mismatch_of_joinPieces failed
    rfl

/-- Values inside each other are read if their depth is within their tokens. -/
theorem reads_nested (depth : Nat) (fits : depth ≤ limit) :
    ReadsValues includer (nested limit (.of includer) depth) depth := by
  induction depth with
  | zero => exact fun _ none => absurd none (Nat.not_lt_zero _)
  | succ depth ih =>
    -- A value inside another is behind the token that opens it, so one depth less is enough for it.
    intro parser stream holds enough
    exact reads_value (ih (by omega)) fits holds (by omega)

end Pieces

end Lookahead
end Hocon
