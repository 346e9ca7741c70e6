import Hocon.Proofs.Grammar.Tree
import Mathlib.Data.List.TakeWhile

namespace Hocon

/-- Answers are objects. -/
def Includer.Objects (includer : Includer) : Prop :=
  ∀ {directive : Directive} {session after : Session} {root : Root},
    includer directive session = .ok root after → ∃ fields, root.value = .object fields

namespace Grammar

/-- A part of the parser that does what a run does, and leaves this rest. -/
def Reads {α : Type} {limit : Nat} (read : Run (Parsed α limit)) (run : Run (Made α))
    (rest : Stream) : Prop :=
  ∃ within, read = run >>= fun made => pure ⟨made.value, made.references, rest, within⟩

/-- Where fields end, and what is left behind what closes them. -/
inductive Closes : Closing → Stream → Stream → Prop where
  | brace {closer : Lexeme} {rest : Stream} (token : closer.token = .rightBrace) :
      Closes .brace (.more closer rest) rest
  | endOfText {last : Lexeme} (token : last.token = .endOfText) :
      Closes .endOfText (.ended last) (.ended last)

end Grammar

namespace Stream

open Grammar

variable {directives : Prop} {includer : Includer} {closing : Closing} {opened : Position}
  {lexeme : Lexeme} {lexemes : List Lexeme} {front next rest stream : Stream}

private theorem piece_text {content : String}
    (token : lexeme.token = .unquoted content ∨ lexeme.token = .quoted content) :
    (Stream.more lexeme next).piece includer =
      pure ⟨.text content, [], next, length_lt_more lexeme next⟩ := by
  rw [piece]
  rcases token with token | token <;> simp only [next?, Run.ofExcept, pure_bind, token]

private theorem piece_reference {path : KeyPath} {optional : Bool}
    (token : lexeme.token = .reference path optional) :
    (Stream.more lexeme next).piece includer = do
      let id ← Run.freshId
      let target := ⟨id, path.toList, optional, lexeme.start⟩
      return ⟨.reference target, [target], next, length_lt_more lexeme next⟩ := by
  rw [piece]
  simp only [next?, Run.ofExcept, pure_bind, token]

theorem piece_object (token : lexeme.token = .leftBrace) :
    (Stream.more lexeme next).piece includer = do
      let found ← next.fields includer .brace
      return ⟨.object (Entry.build found.value), found.references, found.rest,
        lt_of_le found.within (length_lt_more lexeme next)⟩ := by
  rw [piece]
  simp only [next?, Run.ofExcept, pure_bind, token]

theorem piece_array (token : lexeme.token = .leftBracket) :
    (Stream.more lexeme next).piece includer = do
      let found ← next.items includer lexeme.start
      return ⟨.array found.value, found.references, found.rest,
        lt_of_le found.within (length_lt_more lexeme next)⟩ := by
  rw [piece]
  simp only [next?, Run.ofExcept, pure_bind, token]

theorem pieces_none (ends : stream.token.startsValue = false) :
    stream.pieces includer = pure ⟨[], [], stream, stream.length_lt_succ⟩ := by
  rw [pieces, ends]
  rfl

theorem pieces_more (starts : stream.token.startsValue = true) :
    stream.pieces includer = do
      let first ← stream.piece includer
      let others ← first.rest.pieces includer
      let blank := if stream.ahead.space != "" then [Value.text stream.ahead.space] else []
      return ⟨blank ++ first.value :: others.value, first.references ++ others.references,
        others.rest, lt_succ_of_lt (lt_of_le others.within first.within)⟩ := by
  rw [pieces, starts]
  rfl

private theorem fields_ended (dropped : ∃ skipped, stream.dropWhile Token.isSeparator = .ok ⟨front, skipped⟩)
    (ended : front.next? = none) :
    ∃ within, stream.fields includer .endOfText = pure ⟨[], [], front, within⟩ := by
  obtain ⟨skipped, dropped⟩ := dropped
  refine ⟨skipped, ?_⟩
  rw [fields, dropped]
  simp only [Run.ofExcept, pure_bind, ended]

private theorem fields_closed
    (dropped : ∃ skipped, stream.dropWhile Token.isSeparator = .ok ⟨.more lexeme rest, skipped⟩)
    (closer : lexeme.token = .rightBrace) :
    ∃ within, stream.fields includer .brace = pure ⟨[], [], rest, within⟩ := by
  obtain ⟨skipped, dropped⟩ := dropped
  refine ⟨lt_succ_of_lt (lt_of_lt_of_le (length_lt_more lexeme rest) skipped), ?_⟩
  rw [fields, dropped]
  simp only [Run.ofExcept, pure_bind, next?, closer, and_self, if_true]

theorem fields_more {step : Except Fault front.Shorter} {skipped : front.length < stream.length + 1}
    (dropped : stream.dropWhile Token.isSeparator = .ok ⟨front, skipped⟩)
    (going : front.next? = some (lexeme, step))
    (inside : ¬(closing = .brace ∧ lexeme.token = .rightBrace)) :
    stream.fields includer closing = do
      let first ← front.entry includer
      Run.ofExcept (first.rest.endOfField closing)
      let others ← first.rest.fields includer closing
      return ⟨first.value :: others.value, first.references ++ others.references, others.rest,
        lt_succ_of_le others.within first.within skipped⟩ := by
  rw [fields, dropped]
  simp only [Run.ofExcept, pure_bind, going, if_neg inside]

private theorem items_closed
    (dropped : ∃ skipped, stream.dropWhile Token.isSeparator = .ok ⟨.more lexeme rest, skipped⟩)
    (closer : lexeme.token = .rightBracket) :
    ∃ within, stream.items includer opened = pure ⟨[], [], rest, within⟩ := by
  obtain ⟨skipped, dropped⟩ := dropped
  refine ⟨lt_succ_of_lt (lt_of_lt_of_le (length_lt_more lexeme rest) skipped), ?_⟩
  rw [items, dropped]
  obtain ⟨space, start, token⟩ := lexeme
  cases closer
  simp only [Run.ofExcept, pure_bind, next?]

theorem items_more {step : Except Fault front.Shorter} {skipped : front.length < stream.length + 1}
    (dropped : stream.dropWhile Token.isSeparator = .ok ⟨front, skipped⟩)
    (going : front.next? = some (lexeme, step)) (inside : lexeme.token ≠ .rightBracket) :
    stream.items includer opened = do
      let first ← front.value includer
      Run.ofExcept first.rest.endOfElement
      let others ← first.rest.items includer opened
      return ⟨first.value :: others.value, first.references ++ others.references, others.rest,
        lt_succ_of_le others.within first.within skipped⟩ := by
  rw [items, dropped]
  simp only [Run.ofExcept, pure_bind, going]
  split
  · contradiction
  · rename_i found
    cases found
    exact absurd rfl inside
  · rfl

theorem value_eq : stream.value includer = do
    let first ← stream.piece includer
    let others ← first.rest.pieces includer
    let joined ← Run.ofExcept (joinPieces stream.token.isBare (first.value :: others.value))
    return ⟨joined, first.references ++ others.references, others.rest,
      lt_of_le others.within first.within⟩ := by
  rw [value]

theorem assigned_eq {step : Except Fault stream.Shorter} {behind : next.length < stream.length}
    {skipped : front.length < next.length + 1} (taken : step = .ok ⟨next, behind⟩)
    (dropped : next.dropWhile (· == .newline) = .ok ⟨front, skipped⟩) :
    assigned includer stream step = do
      let found ← front.value includer
      return ⟨found.value, found.references, found.rest,
        lt_of_lt (lt_of_lt_of_le found.within skipped) behind⟩ := by
  rw [assigned, taken]
  simp only [Run.ofExcept, pure_bind, dropped]

theorem assignment_assign {start : Position} {path : KeyPath} {step : Except Fault stream.Shorter}
    (going : stream.next? = some (lexeme, step)) (mark : lexeme.token = .colon ∨ lexeme.token = .equals) :
    assignment includer start path stream = do
      let found ← assigned includer stream step
      return ⟨.assign path found.value, found.references, found.rest, found.within⟩ := by
  rw [assignment, going]
  obtain ⟨space, place, token⟩ := lexeme
  rcases mark with rfl | rfl <;> rfl

theorem assignment_append {start : Position} {path : KeyPath} {step : Except Fault stream.Shorter}
    (going : stream.next? = some (lexeme, step)) (mark : lexeme.token = .plusEquals) :
    assignment includer start path stream = do
      let found ← assigned includer stream step
      return ⟨.append path found.value, found.references, found.rest, found.within⟩ := by
  rw [assignment, going]
  obtain ⟨space, place, token⟩ := lexeme
  cases mark
  rfl

theorem assignment_nested {start : Position} {path : KeyPath} {step : Except Fault stream.Shorter}
    (going : stream.next? = some (lexeme, step)) (brace : lexeme.token = .leftBrace) :
    assignment includer start path stream = do
      let found ← stream.value includer
      return ⟨.assign path found.value, found.references, found.rest, found.within⟩ := by
  rw [assignment, going]
  obtain ⟨space, place, token⟩ := lexeme
  cases brace
  rfl

theorem entry_directive (keyword : lexeme.token = .unquoted Directive.keyword)
    (opens : next.opensDirective = true) :
    (Stream.more lexeme next).entry includer = do
      let found ← next.inclusion includer
      return ⟨found.value, found.references, found.rest,
        lt_of_lt found.within (length_lt_more lexeme next)⟩ := by
  rw [entry]
  obtain ⟨space, start, token⟩ := lexeme
  cases keyword
  simp only [next?, if_true, Run.ofExcept, pure_bind, opens]

/-- A key is read from its first word, also where that is the one that begins directives. -/
theorem entry_key (word : lexeme.token.isWord = true)
    (plain : lexeme.token = .unquoted Directive.keyword → next.opensDirective = false) :
    ∃ place, ∀ includer, (Stream.more lexeme next).entry includer =
      match KeyPath.Builder.empty.take? (atoms lexeme.token) with
      | none => throw (.emptyKeySegment lexeme.start)
      | some builder => do
        let named ← Run.ofExcept (next.key place builder true)
        let found ← assignment includer lexeme.start named.value named.rest
        return ⟨found.value, found.references, found.rest,
          lt_of_lt (lt_of_lt_of_le found.within named.within) (length_lt_more lexeme next)⟩ := by
  have keyed : (∀ includer, (Stream.more lexeme next).entry includer = do
        let named ← Run.ofExcept ((Stream.more lexeme next).key lexeme.start .empty false)
        let found ← assignment includer lexeme.start named.value named.rest
        return ⟨found.value, found.references, found.rest, lt_of_lt_of_le found.within named.within⟩) →
      ∃ place, ∀ includer, (Stream.more lexeme next).entry includer =
        match KeyPath.Builder.empty.take? (atoms lexeme.token) with
        | none => throw (.emptyKeySegment lexeme.start)
        | some builder => do
          let named ← Run.ofExcept (next.key place builder true)
          let found ← assignment includer lexeme.start named.value named.rest
          return ⟨found.value, found.references, found.rest,
            lt_of_lt (lt_of_lt_of_le found.within named.within) (length_lt_more lexeme next)⟩ := by
    intro whole
    refine ⟨lexeme.start, fun includer => (whole includer).trans ?_⟩
    rw [key_more word fun begun => absurd begun (by simp)]
    cases KeyPath.Builder.empty.take? (atoms lexeme.token) with
    | none => rfl
    | some builder =>
      dsimp only
      cases next.key lexeme.start builder true <;> rfl
  obtain ⟨space, start, token⟩ := lexeme
  cases token <;> simp only [Token.isWord, Bool.false_eq_true] at word
  case quoted text => exact keyed fun includer => by rw [entry]; rfl
  case unquoted text =>
    by_cases keyword : text = Directive.keyword
    · subst keyword
      have begun : KeyPath.Builder.empty.take? (atoms (.unquoted Directive.keyword)) =
          some ⟨[], Directive.keyword, false⟩ := by decide +kernel
      refine ⟨next.start, fun includer => ?_⟩
      rw [entry, begun]
      simp only [next?, if_true, Run.ofExcept, pure_bind, plain rfl, Bool.false_eq_true, if_false]
    · refine keyed fun includer => ?_
      rw [entry]
      simp only [next?, if_neg keyword]

/-- A directive is handed over as it was read. -/
theorem inclusion_reads {directive : Directive} {keyword : Lexeme} (objects : includer.Objects)
    (begins : keyword.token = .unquoted Directive.keyword) (directs : Directs lexemes directive)
    (rest : Stream) : Reads ((prepend (keyword :: lexemes) rest).entry includer)
      ((Field.inclusion directive).run includer) rest := by
  obtain ⟨opens, within, read⟩ := directs rest
  rw [prepend_cons]
  refine ⟨lt_of_lt within (length_lt_more keyword _), ?_⟩
  rw [entry_directive begins opens, inclusion, read, Field.run]
  simp only [Run.ofExcept, pure_bind, bind_assoc]
  congr 1
  funext _
  funext session
  simp only [bind, EStateM.bind]
  cases answered : includer directive session with
  | error fault after => rfl
  | ok root after =>
    obtain ⟨fields, object⟩ := objects answered
    obtain ⟨value, references⟩ := root
    cases object
    rfl

private theorem endOfField_prepend (parted : ∀ lexeme ∈ lexemes.head?, lexeme.token.isSeparator = true)
    (closes : Closes closing stream rest) :
    (prepend lexemes stream).endOfField closing = .ok () ∧
      (prepend lexemes stream).token.startsValue = false := by
  cases lexemes with
  | nil =>
    cases closes with
    | brace closer => simp [endOfField, token, ahead, closer, Token.startsValue]
    | endOfText last => simp [endOfField, token, ahead, last, Token.startsValue]
  | cons lexeme lexemes =>
    have first : lexeme.token.isSeparator = true := parted lexeme rfl
    cases separator : lexeme.token <;> simp [separator, Token.isSeparator] at first
    all_goals simp [endOfField, token, ahead, separator, Token.startsValue]

private theorem endOfElement_prepend (rest : Stream)
    (parted : ∀ lexeme ∈ lexemes.head?, lexeme.token.isSeparator = true)
    (closes : lexeme.token = .rightBracket) :
    (prepend lexemes (.more lexeme rest)).endOfElement = .ok () ∧
      (prepend lexemes (.more lexeme rest)).token.startsValue = false := by
  cases lexemes with
  | nil => simp [endOfElement, token, ahead, closes, Token.startsValue]
  | cons first lexemes =>
    have first_separates : first.token.isSeparator = true := parted first rfl
    cases separator : first.token <;> simp [separator, Token.isSeparator] at first_separates
    all_goals simp [endOfElement, token, ahead, separator, Token.startsValue]

/-- Adjacent words go on with a key, so no directive begins with them. -/
private theorem opensDirective_prepend (adjacent : ∀ lexeme ∈ lexemes, lexeme.isSpaced = false)
    (other : rest.token.isWord = false) : (prepend lexemes rest).opensDirective = false := by
  cases lexemes with
  | nil =>
    have other : rest.ahead.token.isWord = false := other
    cases token : rest.ahead.token <;> simp [token, Token.isWord] at other
    all_goals simp [opensDirective, Stream.token, token]
  | cons next others =>
    have adjacent := adjacent next List.mem_cons_self
    simp [opensDirective, ahead, adjacent]

private theorem entry_named {name : List Lexeme} {path : KeyPath} (key : Grammar.Key name path)
    (rest : Stream) (other : rest.token.isWord = false) : ∃ start within, (prepend name rest).entry includer = do
      let found ← assignment includer start path rest
      return ⟨found.value, found.references, found.rest, lt_of_lt_of_le found.within within⟩ := by
  obtain ⟨first, others, rfl, word⟩ := key.begins
  obtain ⟨_, words, made⟩ := Grammar.key_cons_iff.mp key
  have plain := opensDirective_prepend (fun lexeme member => (words lexeme member).2) other
  obtain ⟨place, read⟩ := entry_key word fun _ => plain
  cases taken : KeyPath.Builder.empty.take? (atoms first.token) with
  | none => simp [taken] at made
  | some builder =>
    rw [taken] at made
    have ends : rest.token.isWord = true → rest.ahead.isSpaced = true :=
      fun word => absurd (word.symm.trans other) (by simp)
    have named : ∃ within, (prepend others rest).key place builder true = .ok ⟨path, rest, within⟩ :=
      key_prepend words ends made
    obtain ⟨within, named⟩ := named
    rw [prepend_cons]
    refine ⟨first.start, lt_succ_of_lt (lt_of_le within (length_lt_more first _)), ?_⟩
    rw [read, taken]
    simp only [named, Run.ofExcept, pure_bind]

/-- Words that leave a segment without content are no key, and nothing else either. -/
theorem entry_unnamed {first : Lexeme} {others : List Lexeme} (word : first.token.isWord = true)
    (words : ∀ lexeme ∈ others, lexeme.token.isWord = true ∧ lexeme.isSpaced = false)
    (empty : [] ∈ segments (first :: others)) (other : rest.token.isWord = false) :
    ∃ place, ∀ includer, (prepend (first :: others) rest).entry includer = throw (.emptyKeySegment place) := by
  have none := Grammar.path_eq_none empty
  rw [List.flatMap_cons, KeyPath.Builder.take?_append] at none
  have plain := opensDirective_prepend (fun lexeme member => (words lexeme member).2) other
  obtain ⟨place, read⟩ := entry_key word fun _ => plain
  cases taken : KeyPath.Builder.empty.take? (atoms first.token) with
  | none =>
    refine ⟨first.start, fun includer => ?_⟩
    rw [prepend_cons, read, taken]
  | some builder =>
    rw [taken] at none
    have ends : rest.token.isWord = true → rest.ahead.isSpaced = true :=
      fun word => absurd (word.symm.trans other) (by simp)
    refine ⟨place, fun includer => ?_⟩
    rw [prepend_cons, read, taken]
    simp only [key_prepend_none words ends none]
    rfl

private theorem assigned_reads {run : Run (Made Value)} {mark : Lexeme} {gap : List Lexeme}
    (front : Stream) (newlines : ∀ lexeme ∈ gap, lexeme.token = .newline) (starts : front.token.startsValue = true)
    (read : Reads (front.value includer) run rest) :
    Reads (assigned includer (.more mark (prepend gap front))
      (.ok ⟨prepend gap front, length_lt_more mark _⟩)) run rest := by
  have kept : (front.token == .newline) = false := by
    cases token : front.token <;> simp [token, Token.startsValue] at starts ⊢
  have dropped : ∃ skipped, (prepend gap front).dropWhile (· == .newline) = .ok ⟨front, skipped⟩ :=
    dropWhile_prepend (fun lexeme member => by simp [newlines lexeme member]) kept
  obtain ⟨skipped, dropped⟩ := dropped
  obtain ⟨within, read⟩ := read
  refine ⟨lt_of_lt (lt_of_lt_of_le within skipped) (length_lt_more mark _), ?_⟩
  rw [assigned_eq rfl dropped, read]
  simp only [bind_assoc, pure_bind]

/-- A field of a key, a mark and a value, whatever the mark makes of the value. -/
private theorem marked_reads {run : Run (Made Value)} {make : Value → Entry} {name gap : List Lexeme}
    {mark : Lexeme} {path : KeyPath} (key : Grammar.Key name path) (other : mark.token.isWord = false)
    (newlines : ∀ lexeme ∈ gap, lexeme.token = .newline) (starts : front.token.startsValue = true)
    (read : Reads (front.value includer) run rest)
    (marks : ∀ start, assignment includer start path (.more mark (prepend gap front)) = do
      let found ← assigned includer (.more mark (prepend gap front))
        (.ok ⟨prepend gap front, length_lt_more mark _⟩)
      return ⟨make found.value, found.references, found.rest, found.within⟩) :
    Reads ((prepend (name ++ mark :: gap) front).entry includer)
      (run >>= fun made => pure ⟨make made.value, made.references⟩) rest := by
  obtain ⟨within, read⟩ := assigned_reads front newlines starts read
  have shape : prepend (name ++ mark :: gap) front = prepend name (.more mark (prepend gap front)) := by simp
  rw [shape]
  obtain ⟨start, left, named⟩ := entry_named key (.more mark (prepend gap front)) other
  refine ⟨lt_of_lt_of_le within left, ?_⟩
  rw [named, marks, read]
  simp only [bind_assoc, pure_bind]

mutual

theorem piece_reads (answers : directives → includer.Objects) {piece : Piece}
    {lexemes : List Lexeme} (spells : piece.Spells directives lexemes) (rest : Stream) :
    Reads ((prepend lexemes rest).piece includer) (piece.run includer) rest := by
  cases spells with
  | word token => exact ⟨_, piece_text (.inl token)⟩
  | quoted token => exact ⟨_, piece_text (.inr token)⟩
  | @reference lexeme path optional token =>
    rw [prepend_cons, prepend_nil]
    refine ⟨length_lt_more lexeme rest, ?_⟩
    rw [piece_reference token, Piece.run]
    simp only [bind_assoc, pure_bind]
  | @object opened closed fields inner opens inside closes =>
    have shape : prepend (opened :: inner ++ [closed]) rest =
        .more opened (prepend inner (.more closed rest)) := by simp
    obtain ⟨within, read⟩ := fields_reads answers inside (.brace closes)
    rw [shape]
    refine ⟨lt_of_le within (length_lt_more opened _), ?_⟩
    rw [piece_object opens, read, Piece.run]
    simp only [bind_assoc, pure_bind]
  | @array opened closed elements inner opens inside closes =>
    have shape : prepend (opened :: inner ++ [closed]) rest =
        .more opened (prepend inner (.more closed rest)) := by simp
    obtain ⟨within, read⟩ := items_reads answers inside opened.start closes rest
    rw [shape]
    refine ⟨lt_of_le within (length_lt_more opened _), ?_⟩
    rw [piece_array opens, read, Piece.run]
    simp only [bind_assoc, pure_bind]

private theorem pieces_reads (answers : directives → includer.Objects) {pieces : Pieces}
    {lexemes : List Lexeme} (spells : pieces.Spells directives lexemes) (rest : Stream)
    (ends : rest.token.startsValue = false) :
    Reads ((prepend lexemes rest).pieces includer) (pieces.run includer) rest := by
  cases spells with
  | none => exact ⟨_, pieces_none ends⟩
  | @more first others lexeme own behind spelled further =>
    obtain ⟨_, _, same, starts, _⟩ := spelled.begins
    cases same
    obtain ⟨within, read⟩ := piece_reads answers spelled (prepend behind rest)
    obtain ⟨past, left⟩ := pieces_reads answers further rest ends
    rw [prepend_append]
    refine ⟨lt_succ_of_lt (lt_of_le past within), ?_⟩
    have starts : (prepend (lexeme :: own) (prepend behind rest)).token.startsValue = true := starts
    rw [pieces_more starts, read, Pieces.run]
    simp only [bind_assoc, pure_bind, left]
    rfl

theorem value_reads (answers : directives → includer.Objects) {phrase : Phrase}
    {lexemes : List Lexeme} (spells : phrase.Spells directives lexemes) (rest : Stream)
    (ends : rest.token.startsValue = false) :
    Reads ((prepend lexemes rest).value includer) (phrase.run includer) rest := by
  obtain ⟨_, _, same, _, bare⟩ := spells.begins
  cases spells with
  | @mk first others own behind spelled further =>
    have token : (prepend (own ++ behind) rest).token.isBare = (Phrase.mk first others).isBare := by
      rw [bare, same]
      rfl
    obtain ⟨within, read⟩ := piece_reads answers spelled (prepend behind rest)
    obtain ⟨past, left⟩ := pieces_reads answers further rest ends
    rw [prepend_append] at token ⊢
    refine ⟨lt_of_le past within, ?_⟩
    rw [value_eq, token, read, Phrase.run, join, Phrase.parts]
    simp only [bind_assoc, pure_bind, left]

theorem field_reads (answers : directives → includer.Objects) {field : Field}
    {lexemes : List Lexeme} (spells : field.Spells directives lexemes) (rest : Stream)
    (ends : rest.token.startsValue = false) :
    Reads ((prepend lexemes rest).entry includer) (field.run includer) rest := by
  cases spells with
  | @assign path phrase name gap own mark key marked newlines spelled =>
    have other : mark.token.isWord = false := by rcases marked with mark | mark <;> rw [mark] <;> rfl
    have read := value_reads answers spelled rest ends
    obtain ⟨lexeme, others, rfl, starts, _⟩ := spelled.begins
    rw [prepend_append, Field.run]
    exact marked_reads key other newlines starts read fun start => assignment_assign rfl marked
  | @append path phrase name gap own mark key marked newlines spelled =>
    have other : mark.token.isWord = false := by rw [marked]; rfl
    have read := value_reads answers spelled rest ends
    obtain ⟨lexeme, others, rfl, starts, _⟩ := spelled.begins
    rw [prepend_append, Field.run]
    exact marked_reads key other newlines starts read fun start => assignment_append rfl marked
  | @nested path phrase name own brace key opens spelled =>
    have other : brace.token.isWord = false := by rw [opens]; rfl
    obtain ⟨within, read⟩ := value_reads answers spelled rest ends
    rw [prepend_append]
    obtain ⟨start, left, named⟩ := entry_named key (prepend (brace :: own) rest) other
    refine ⟨lt_of_lt_of_le within left, ?_⟩
    rw [named, assignment_nested rfl opens, read, Field.run, Phrase.run]
    simp only [bind_assoc, pure_bind]
  | inclusion admitted begins directs =>
    exact inclusion_reads (answers admitted) begins directs rest

theorem fields_reads (answers : directives → includer.Objects) {fields : Fields}
    {lexemes : List Lexeme} {closing : Closing} {stream rest : Stream}
    (spells : fields.Spells directives lexemes) (closes : Closes closing stream rest) :
    Reads ((prepend lexemes stream).fields includer closing) (fields.run includer) rest := by
  cases spells with
  | none separators =>
    rw [Fields.run]
    cases closes with
    | brace closer =>
      exact fields_closed (dropWhile_prepend separators (by simp [token, ahead, closer, Token.isSeparator])) closer
    | endOfText last =>
      exact fields_ended (dropWhile_prepend separators (by simp [token, ahead, last, Token.isSeparator])) rfl
  | @more first others gap own behind separators spelled further parted =>
    obtain ⟨ended, stops⟩ := endOfField_prepend parted closes
    obtain ⟨within, read⟩ := field_reads answers spelled (prepend behind stream) stops
    obtain ⟨past, left⟩ := fields_reads answers further closes
    obtain ⟨lexeme, own, rfl, word⟩ := spelled.begins
    have kept : (prepend (lexeme :: own) (prepend behind stream)).token.isSeparator = false := by
      cases token : lexeme.token <;> simp [token, Token.isWord] at word
      all_goals simp [Stream.token, ahead, token, Token.isSeparator]
    have inside : ¬(closing = .brace ∧ lexeme.token = .rightBrace) := by
      rintro ⟨_, brace⟩
      simp [brace, Token.isWord] at word
    obtain ⟨skipped, dropped⟩ := dropWhile_prepend separators kept
    rw [prepend_append, prepend_append]
    refine ⟨lt_succ_of_le past within skipped, ?_⟩
    rw [fields_more dropped rfl inside, read, Fields.run]
    simp only [bind_assoc, pure_bind, Run.ofExcept, ended, left]

private theorem items_reads (answers : directives → includer.Objects) {elements : Elements}
    {lexemes : List Lexeme} {lexeme : Lexeme} (spells : elements.Spells directives lexemes)
    (opened : Position) (closes : lexeme.token = .rightBracket) (rest : Stream) :
    Reads ((prepend lexemes (.more lexeme rest)).items includer opened) (elements.run includer) rest := by
  cases spells with
  | none separators =>
    rw [Elements.run]
    exact items_closed (dropWhile_prepend separators (by simp [token, ahead, closes, Token.isSeparator])) closes
  | @more first others gap own behind separators spelled further parted =>
    obtain ⟨ended, stops⟩ := endOfElement_prepend rest parted closes
    obtain ⟨within, read⟩ := value_reads answers spelled (prepend behind (.more lexeme rest)) stops
    obtain ⟨past, left⟩ := items_reads answers further opened closes rest
    obtain ⟨begin, own, rfl, starts, _⟩ := spelled.begins
    have kept : (prepend (begin :: own) (prepend behind (.more lexeme rest))).token.isSeparator = false := by
      cases token : begin.token <;> simp [token, Token.startsValue] at starts
      all_goals simp [Stream.token, ahead, token, Token.isSeparator]
    have inside : begin.token ≠ .rightBracket := by
      intro bracket
      simp [bracket, Token.startsValue] at starts
    obtain ⟨skipped, dropped⟩ := dropWhile_prepend separators kept
    rw [prepend_append, prepend_append]
    refine ⟨lt_succ_of_le past within skipped, ?_⟩
    rw [items_more dropped rfl inside, read, Elements.run, Phrase.run]
    simp only [bind_assoc, pure_bind, Run.ofExcept, ended, left]

end

theorem document_braced {opened : Lexeme} {skipped : (more opened next).length < stream.length + 1}
    (dropped : stream.dropWhile (· == .newline) = .ok ⟨.more opened next, skipped⟩)
    (opens : opened.token = .leftBrace) : stream.document includer = (do
      let inside ← next.fields includer .brace
      let behind ← Run.ofExcept (inside.rest.dropWhile Token.isSeparator)
      if behind.val.token = .endOfText then return ⟨Entry.build inside.value, inside.references⟩
      else throw (.textAfterDocument behind.val.token behind.val.start)) := by
  rw [document, dropped]
  obtain ⟨space, start, token⟩ := opened
  cases opens
  rfl

/-- What is left to read of a document behind the brace that closes its fields. -/
theorem document_braced_reads (answers : directives → includer.Objects) {fields : Fields}
    {inner : List Lexeme} {opened closer : Lexeme}
    {skipped : (more opened (prepend inner (more closer rest))).length < stream.length + 1}
    (dropped : stream.dropWhile (· == .newline) = .ok ⟨.more opened (prepend inner (.more closer rest)), skipped⟩)
    (opens : opened.token = .leftBrace) (spelled : fields.Spells directives inner)
    (closed : closer.token = .rightBrace) :
    stream.document includer = (do
      let inside ← fields.run includer
      let behind ← Run.ofExcept (rest.dropWhile Token.isSeparator)
      if behind.val.token = .endOfText then return ⟨Entry.build inside.value, inside.references⟩
      else throw (.textAfterDocument behind.val.token behind.val.start)) := by
  obtain ⟨within, read⟩ := fields_reads answers spelled (.brace closed)
  rw [document_braced dropped opens, read]
  simp only [bind_assoc, pure_bind]

theorem ahead_of_next? {step : Except Fault stream.Shorter}
    (going : stream.next? = some (lexeme, step)) : stream.ahead = lexeme := by
  cases stream <;> cases going <;> rfl

theorem document_bare {skipped : front.length < stream.length + 1}
    (dropped : stream.dropWhile (· == .newline) = .ok ⟨front, skipped⟩)
    (bare : front.token ≠ .leftBrace ∧ front.token ≠ .leftBracket) :
    stream.document includer = do
      let inside ← front.fields includer .endOfText
      return ⟨Entry.build inside.value, inside.references⟩ := by
  rw [document, dropped]
  simp only [Run.ofExcept, pure_bind]
  split
  case h_1 found => exact absurd (congrArg Lexeme.token (ahead_of_next? found)) bare.1
  case h_2 found => exact absurd (congrArg Lexeme.token (ahead_of_next? found)) bare.2
  case h_3 => rfl

/-- Where the first key is refused, so is the document. -/
theorem document_refused {fault : Fault} (word : lexeme.token.isWord = true)
    (refused : (Stream.more lexeme next).entry includer = throw fault) :
    (Stream.more lexeme next).document includer = throw fault := by
  have newline : ((Stream.more lexeme next).token == .newline) = false := by
    cases token : lexeme.token <;> simp_all [Stream.token, ahead, Token.isWord]
  have separator : (Stream.more lexeme next).token.isSeparator = false := by
    cases token : lexeme.token <;> simp_all [Stream.token, ahead, Token.isWord, Token.isSeparator]
  have opens : lexeme.token ≠ .leftBrace ∧ lexeme.token ≠ .leftBracket := by
    cases token : lexeme.token <;> simp_all [Token.isWord]
  rw [document_bare (dropWhile_of_kept newline) opens, fields_more (dropWhile_of_kept separator) rfl (by simp),
    refused]
  rfl

/-- Separators are newlines, and then nothing or a comma and more of them. -/
private theorem newlines_cut {gap : List Lexeme}
    (separators : ∀ lexeme ∈ gap, lexeme.token.isSeparator = true) :
    ∃ front back, gap = front ++ back ∧ (∀ lexeme ∈ front, lexeme.token = .newline) ∧
      (∀ lexeme ∈ back, lexeme.token.isSeparator = true) ∧ ∀ lexeme ∈ back.head?, lexeme.token = .comma := by
  refine ⟨gap.takeWhile (·.token == .newline), gap.dropWhile (·.token == .newline),
    (List.takeWhile_append_dropWhile).symm, ?_, ?_, ?_⟩
  · intro lexeme member
    simpa using List.mem_takeWhile_imp member
  · exact fun lexeme member => separators lexeme ((List.dropWhile_sublist _).mem member)
  · intro lexeme head
    have kept := List.head?_dropWhile_not (·.token == .newline) gap
    have separator := separators lexeme
      ((List.dropWhile_sublist _).mem (List.mem_of_mem_head? head))
    rw [Option.mem_def] at head
    rw [head] at kept
    cases token : lexeme.token <;> simp_all [Token.isSeparator]

private theorem fields_after_newlines {fields : Fields} (spells : fields.Spells directives lexemes) :
    ∃ gap inner, lexemes = gap ++ inner ∧ (∀ lexeme ∈ gap, lexeme.token = .newline) ∧
      fields.Spells directives inner ∧ ∀ lexeme ∈ inner.head?,
        lexeme.token ≠ .newline ∧ lexeme.token ≠ .leftBrace ∧ lexeme.token ≠ .leftBracket := by
  cases spells with
  | none separators =>
    obtain ⟨front, back, rfl, newlines, others, comma⟩ := newlines_cut separators
    refine ⟨front, back, rfl, newlines, .none others, fun lexeme head => ?_⟩
    simp [comma lexeme head]
  | @more first further gap own behind separators spelled others parted =>
    obtain ⟨front, back, rfl, newlines, left, comma⟩ := newlines_cut separators
    refine ⟨front, back ++ own ++ behind, by simp, newlines, .more left spelled others parted, ?_⟩
    intro lexeme head
    cases back with
    | cons begin back =>
      have same : begin = lexeme := by simpa using head
      subst same
      simp [comma begin rfl]
    | nil =>
      obtain ⟨begin, own, rfl, word⟩ := spelled.begins
      have same : begin = lexeme := by simpa using head
      subst same
      cases token : begin.token <;> simp [token, Token.isWord] at word ⊢

/-- A derived text is read as the document of its tree. -/
theorem document_reads {fields : Fields} {last : Lexeme} (answers : directives → includer.Objects)
    (derives : Derives directives fields (lexemes ++ [last])) :
    (prepend lexemes (.ended last)).document includer = fields.document includer := by
  generalize whole : lexemes ++ [last] = all at derives
  cases derives with
  | @braced before inner behind opened closed final newlines opens inside closes separators ends =>
    obtain ⟨rfl, final_eq⟩ := List.append_inj' whole rfl
    obtain rfl : last = final := List.singleton_inj.mp final_eq
    have shape : prepend (before ++ opened :: inner ++ closed :: behind) (.ended last) =
        prepend before (.more opened (prepend inner (.more closed (prepend behind (.ended last))))) := by
      simp
    have kept : (opened.token == .newline) = false := by rw [opens]; rfl
    have dropped : ∃ skipped, (prepend before (.more opened (prepend inner
        (.more closed (prepend behind (.ended last)))))).dropWhile (· == .newline) = .ok ⟨_, skipped⟩ :=
      dropWhile_prepend (fun lexeme member => by simp [newlines lexeme member]) kept
    obtain ⟨skipped, dropped⟩ := dropped
    have closing : (Stream.ended last).token.isSeparator = false := by simp [ends, Token.isSeparator]
    obtain ⟨past, finished⟩ := dropWhile_prepend separators closing
    have last_ends : (Stream.ended last).token = .endOfText := ends
    rw [shape, document_braced_reads answers dropped opens inside closes, finished, Fields.document]
    simp only [pure_bind, Run.ofExcept, last_ends, if_true]
  | @bare inner final spelled ends =>
    obtain ⟨rfl, final_eq⟩ := List.append_inj' whole rfl
    obtain rfl : last = final := List.singleton_inj.mp final_eq
    obtain ⟨gap, inner, rfl, newlines, spelled, begins⟩ := fields_after_newlines spelled
    have first : (prepend inner (.ended last)).token ≠ .newline ∧
        (prepend inner (.ended last)).token ≠ .leftBrace ∧
        (prepend inner (.ended last)).token ≠ .leftBracket := by
      cases inner with
      | nil => simp [ends]
      | cons lexeme inner => exact begins lexeme rfl
    have kept : ((prepend inner (.ended last)).token == .newline) = false := by simpa using first.1
    have dropped : ∃ skipped, (prepend gap (prepend inner (.ended last))).dropWhile (· == .newline) =
        .ok ⟨_, skipped⟩ :=
      dropWhile_prepend (fun lexeme member => by simp [newlines lexeme member]) kept
    obtain ⟨skipped, dropped⟩ := dropped
    obtain ⟨within, read⟩ := fields_reads answers spelled (.endOfText ends)
    rw [prepend_append, document_bare dropped first.2, read, Fields.document]
    simp only [bind_assoc, pure_bind]

end Stream
end Hocon
