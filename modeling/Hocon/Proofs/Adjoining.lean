import Hocon.Proofs.Grammar.Mixing
import Hocon.Proofs.Restyling

namespace Hocon

open Value (rename)

/-- Two values of one kind put together: arrays one behind the other, objects merged. -/
inductive Value.Adjoined : Value → Value → Value → Prop where
  | arrays (items others : List Value) : Adjoined (.array items) (.array others) (.array (items ++ others))
  | objects (fields others : Object) :
      Adjoined (.object fields) (.object others) (.object (Object.merge fields others))

/-- A text that is one array or one object from its first character to its last. Wherever it is
read it makes this value, in which nothing is pending. -/
structure Literal (includer : Includer) (text : List Char) (value : Value) where
  bracket : Char
  inner : List Char
  opened : Lexeme
  lexemes : List Lexeme
  piece : Grammar.Piece
  written : text = bracket :: inner
  opens : Cursor.symbol? bracket = some opened.token
  reached : Reaches inner (lexemes.map Lexeme.mark) []
  spelled : piece.Spells True (opened :: lexemes)
  made : ∀ session, ∃ after, piece.run includer session = .ok ⟨value, []⟩ after
  resolved : value.containsPending = false

/-- A text that is a key and the mark behind it. -/
structure Heading (text : List Char) (path : KeyPath) where
  lexeme : Lexeme
  others : List Lexeme
  mark : Lexeme
  key : Grammar.Key (lexeme :: others) path
  marked : mark.token = .colon ∨ mark.token = .equals
  reached : Reaches text ((lexeme :: others ++ [mark]).map Lexeme.mark) []

private theorem Text.isAllWhite_ofList (blanks : List Char) :
    Text.isAllWhite (String.ofList blanks) = blanks.all Text.isWhite := by
  rw [Text.isAllWhite, String.toList_ofList]

private theorem Text.all_isWhite_iff {blanks : List Char} (blank : ∀ c ∈ blanks, isBlank c = true) :
    blanks.all isWhite = true ↔ '\uFEFF' ∉ blanks := by
  rw [List.all_eq_true]
  constructor
  · intro white member
    exact absurd (white _ member) (by decide)
  · intro absent c member
    have own := blank c member
    simp only [isBlank, Bool.and_eq_true, Bool.or_eq_true, beq_iff_eq] at own
    rcases own.2 with white | rfl
    · exact white
    · exact absurd member absent

namespace Value

variable {first second joined : Value}

private theorem Adjoined.append (adjoined : Adjoined first second joined) :
    append first second = .ok joined := by
  cases adjoined <;> rfl

/-- Behind an array or an object blank text does not count. -/
private theorem significant_cons {rest : List Value} (bulky : (first.isObject || first.isArray) = true) :
    significant (first :: rest) = (first :: rest).filter fun piece => !piece.isBlank := by
  rw [significant, List.any_cons, bulky, Bool.true_or, if_pos rfl]

/-- Blanks between two values of one kind count unless they are white space. -/
private theorem Adjoined.concatenate (adjoined : Adjoined first second joined) (space : String) :
    concatenate (first :: ((if space != "" then [.text space] else []) ++ [second])) =
      if Text.isAllWhite space then .ok joined else .error (.concatMismatch first.kind .text) := by
  have bulky : (first.isObject || first.isArray) = true := by cases adjoined <;> rfl
  have solid : first.isBlank = false ∧ second.isBlank = false := by cases adjoined <;> exact ⟨rfl, rfl⟩
  unfold Value.concatenate
  rw [significant_cons bulky, List.filter_cons_of_pos (by rw [solid.1]; rfl), List.filter_append,
    List.filter_cons_of_pos (by rw [solid.2]; rfl), List.filter_nil]
  cases white : Text.isAllWhite space with
  | true =>
    have passed : (if space != "" then [Value.text space] else []).filter (fun piece => !piece.isBlank) = [] := by
      split
      · exact List.filter_cons_of_neg (by rw [isBlank, white]; decide)
      · rfl
    rw [passed]
    exact congrArg (· >>= pure) adjoined.append
  | false =>
    have written : (space != "") = true := by
      rw [bne_iff_ne]
      rintro rfl
      cases white
    rw [if_pos written, List.filter_cons_of_pos (by rw [isBlank, white]; rfl)]
    cases adjoined <;> rfl

private theorem Adjoined.joinPieces (adjoined : Adjoined first second joined) (bare : Bool) (space : String) :
    joinPieces bare (first :: ((if space != "" then [.text space] else []) ++ [second])) =
      if Text.isAllWhite space then .ok joined else .error (.concatMismatch first.kind .text) := by
  rw [← adjoined.concatenate]
  cases adjoined <;> split <;> rfl

end Value

private theorem Grammar.closes_not_word {token : Token} (closes : token.closes = true) :
    token.isWord = false := by
  cases token <;> first | rfl | cases closes

private theorem Reaches.followed {text : List Char} {marks : List Mark} (reaches : Reaches text marks [])
    (firm : ∀ mark ∈ marks.getLast?, mark.token.isWord = false) (other : List Char) :
    Reaches (text ++ other) marks other := by
  obtain ⟨used, rfl, _, _, others⟩ := reaches.front
  rw [List.append_nil]
  refine (others other fun mark member word => ?_).2
  rw [firm mark member] at word
  cases word

private theorem Grammar.Piece.made_of_unplaced {includer : Includer} {piece other : Piece} {value : Value}
    {session after : Session} (alike : piece.unplaced = other.unplaced)
    (resolved : value.containsPending = false) (ran : other.run includer session = .ok ⟨value, []⟩ after) :
    ∃ after, piece.run includer session = .ok ⟨value, []⟩ after := by
  have beside (piece : Piece) : Parallel Eq (Made.viewValue Reference.unplaced)
      (piece.run includer) (piece.unplaced.run includer) :=
    piece.parallel Reference.blurs_unplaced fun _ _ => .refl _ _
  have first := beside other
  rw [← alike] at first
  have parallel := first.trans Reference.blurs_unplaced.equivalence
    ((beside piece).symm Reference.blurs_unplaced.equivalence)
  obtain ⟨made, behind, reran, view, _⟩ := parallel.ok_of_ok rfl ran
  obtain ⟨values, references⟩ := Prod.mk.inj view
  have settled : made.value.containsPending = false := by
    rw [← Value.containsPending_rename, ← values, Value.containsPending_rename, resolved]
  rw [Value.rename_of_resolved _ _ resolved, Value.rename_of_resolved _ _ settled] at values
  have none : made.references = [] := by simpa using references.symm
  refine ⟨behind, ?_⟩
  rw [reran, values, ← none]

namespace Literal

variable {includer : Includer} {text : List Char} {value : Value}

private theorem closes (literal : Literal includer text value) :
    ∀ mark ∈ (literal.lexemes.map Lexeme.mark).getLast?, mark.token.closes = true := by
  have symbol := literal.opens
  have spelled := literal.spelled
  generalize literal.lexemes = lexemes at spelled
  generalize literal.piece = piece at spelled
  cases spelled with
  | word token | quoted token | reference token =>
    rw [token] at symbol
    unfold Cursor.symbol? at symbol
    split at symbol <;> cases symbol
  | object opens inside closes | array opens inside closes =>
    intro mark member
    rw [List.append_eq, List.map_append, List.map_singleton, List.getLast?_append, List.getLast?_singleton,
      Option.some_or] at member
    cases member
    exact (congrArg Token.closes closes).trans rfl

private theorem reaches (literal : Literal includer text value) {blanks : List Char}
    (blank : ∀ c ∈ blanks, Text.isBlank c = true) (rest : List Char) :
    Reaches (blanks ++ text ++ rest)
      (⟨String.ofList blanks, literal.opened.token⟩ :: literal.lexemes.map Lexeme.mark) rest := by
  have inside : Reaches (literal.inner ++ rest) (literal.lexemes.map Lexeme.mark) rest :=
    literal.reached.followed
      (fun mark member => Grammar.closes_not_word (literal.closes mark member)) rest
  have whole : blanks ++ text ++ rest = blanks ++ literal.bracket :: (literal.inner ++ rest) := by
    conv_lhs => rw [literal.written]
    simp
  rw [whole]
  exact .step (.symbol blank literal.opens _) inside

/-- The same marks elsewhere make the same value, for nothing in it has a place. -/
private theorem moved (literal : Literal includer text value) {space : String} {instead : List Lexeme}
    (alike : instead.map Lexeme.mark = ⟨space, literal.opened.token⟩ :: literal.lexemes.map Lexeme.mark) :
    ∃ (opened : Lexeme) (inner : List Lexeme) (piece : Grammar.Piece), instead = opened :: inner ∧
      opened.space = space ∧ piece.Spells True (opened :: inner) ∧
      ∀ session, ∃ after, piece.run includer session = .ok ⟨value, []⟩ after := by
  obtain ⟨opened, inner, rfl, opened_mark, inner_marks⟩ := List.map_eq_cons_iff.mp alike
  have relaid : Grammar.Relaid literal.opened.token ((literal.lexemes ++ []).map Lexeme.mark)
      (inner.map Lexeme.mark) := by
    rw [List.append_nil, inner_marks]
    exact .refl fun mark member => (Grammar.closes_proper (literal.closes mark member)).1
  obtain ⟨piece, own, further, rfl, spelled, unplaced, prior, _, left⟩ :=
    literal.spelled.relaid (congrArg Mark.token opened_mark) relaid
  obtain rfl := left.eq_nil
  refine ⟨opened, _, piece, rfl, congrArg Mark.space opened_mark, by simpa using spelled, fun session => ?_⟩
  obtain ⟨after, ran⟩ := literal.made session
  exact Grammar.Piece.made_of_unplaced unplaced literal.resolved ran

end Literal

section Document

open Grammar

variable {includer : Includer} {head lead run : List Char} {first second : List Char} {path : KeyPath}
  {one other joined : Value}

private theorem Heading.reaches (heading : Heading head path) (rest : List Char) :
    Reaches (head ++ rest) ((heading.lexeme :: heading.others ++ [heading.mark]).map Lexeme.mark) rest := by
  refine heading.reached.followed (fun mark member => ?_) rest
  rw [List.map_append, List.map_singleton, List.getLast?_append, List.getLast?_singleton,
    Option.some_or] at member
  cases member
  show heading.mark.token.isWord = false
  rcases heading.marked with colon | equals
  · rw [colon]; rfl
  · rw [equals]; rfl

private theorem Heading.moved (heading : Heading head path) {instead : List Lexeme}
    (alike : instead.map Lexeme.mark = (heading.lexeme :: heading.others ++ [heading.mark]).map Lexeme.mark) :
    ∃ words mark, instead = words ++ [mark] ∧ Key words path ∧ (mark.token = .colon ∨ mark.token = .equals) := by
  rw [List.map_append] at alike
  obtain ⟨words, marks, rfl, words_marks, marks_marks⟩ := List.map_eq_append_iff.mp alike
  obtain ⟨word, words, rfl, word_mark, words_marks⟩ := List.map_eq_cons_iff.mp words_marks
  obtain ⟨mark, none, rfl, mark_mark, none_marks⟩ := List.map_eq_cons_iff.mp marks_marks
  obtain rfl := List.map_eq_nil_iff.mp none_marks
  refine ⟨_, mark, rfl, heading.key.moved (congrArg Mark.token word_mark) words_marks, ?_⟩
  rw [show mark.token = heading.mark.token from congrArg Mark.token mark_mark]
  exact heading.marked

private theorem parse_adjoining_pieces (objects : includer.Objects) (heading : Heading head path)
    (before : ∀ c ∈ lead, Text.isBlank c = true) (between : ∀ c ∈ run, Text.isBlank c = true)
    (left : Literal includer first one) (right : Literal includer second other) :
    ∃ piece more : Piece,
      parse includer (String.ofList (head ++ lead ++ first ++ run ++ second)) = Fields.document includer
        (.more (.assign path (.mk piece (.more (String.ofList run) more .none))) .none) ∧
      (∀ session, ∃ after, piece.run includer session = .ok ⟨one, []⟩ after) ∧
      ∀ session, ∃ after, more.run includer session = .ok ⟨other, []⟩ after := by
  have reached := (heading.reaches (lead ++ first ++ (run ++ second ++ []))).append
    ((left.reaches before (run ++ second ++ [])).append (right.reaches between []))
  have marked : Marked (head ++ (lead ++ first ++ (run ++ second ++ []))) _ := ⟨[], reached, rfl⟩
  obtain ⟨front, last, marks, ends, read⟩ := marked.read .origin
  obtain ⟨heads, values, rfl, named, marks⟩ := List.map_eq_append_iff.mp marks
  obtain ⟨lefts, rights, rfl, lefts_marks, rights_marks⟩ := List.map_eq_append_iff.mp marks
  obtain ⟨words, assign, rfl, key, mark⟩ := heading.moved named
  obtain ⟨opened, inner, piece, rfl, _, spelled, made⟩ := left.moved lefts_marks
  obtain ⟨again, further, more, rfl, space, respelled, remade⟩ := right.moved rights_marks
  have phrase : Phrase.Spells True (.mk piece (.more (String.ofList run) more .none))
      (opened :: inner ++ (again :: further ++ [])) := by
    rw [← space]
    exact .mk spelled (.more respelled .none)
  have field : Field.Spells True (.assign path _) (_ ++ assign :: [] ++ _) :=
    .assign key mark (by simp) phrase
  have fields : Fields.Spells True (.more (.assign path _) .none) ([] ++ _ ++ []) :=
    .more (by simp) field (.none (by simp)) (by simp)
  refine ⟨piece, more, ?_, made, remade⟩
  rw [← Stream.document_reads (fun _ => objects) (.bare fields ends), parse, Stream.ofText, Cursor.ofText,
    String.toList_ofList]
  simp only [List.append_assoc, List.append_nil, List.nil_append] at read ⊢
  rw [read]
  rfl

private theorem outcome_of_parts {phrase : Phrase} {session after : Session} {parts : Made (List Value)}
    (gathered : phrase.parts includer session = .ok parts after) :
    ((Fields.document includer (.more (.assign path phrase) .none)).outcome session).1 =
      (joinPieces phrase.isBare parts.value).map fun value =>
        ⟨Entry.build [.assign path value], parts.references⟩ := by
  rw [Fields.document, Fields.run, Field.run, join]
  cases joined : joinPieces phrase.isBare parts.value with
  | ok value =>
    simp only [Run.outcome, bind, EStateM.bind, gathered, joined, Run.ofExcept, pure, EStateM.pure, Fields.run,
      List.append_nil, Except.map]
  | error fault =>
    simp only [Run.outcome, bind, EStateM.bind, gathered, joined, Run.ofExcept, Except.map]
    rfl

/-- Two arrays, or two objects, with blanks between them make one value, unless a byte order mark
is among the blanks: then the blanks are a text that does not go with the first. -/
theorem parse_adjoining (objects : includer.Objects) (heading : Heading head path)
    (before : ∀ c ∈ lead, Text.isBlank c = true) (between : ∀ c ∈ run, Text.isBlank c = true)
    (left : Literal includer first one) (right : Literal includer second other)
    (adjoined : Value.Adjoined one other joined) (session : Session) :
    ((parse includer (String.ofList (head ++ lead ++ first ++ run ++ second))).outcome session).1 =
      if '\uFEFF' ∈ run then .error (.concatMismatch one.kind .text)
      else .ok ⟨[(path.first, Object.nest path.rest joined)], []⟩ := by
  obtain ⟨piece, more, whole, made, remade⟩ := parse_adjoining_pieces objects heading before between left right
  obtain ⟨middle, ran⟩ := made session
  obtain ⟨after, reran⟩ := remade middle
  have gathered : (Phrase.mk piece (.more (String.ofList run) more .none)).parts includer session =
      .ok ⟨one :: ((if String.ofList run != "" then [.text (String.ofList run)] else []) ++ [other]), []⟩ after :=
    Run.bind_of_ok ran (Run.bind_of_ok (Run.bind_of_ok reran rfl) rfl)
  have joins := adjoined.joinPieces piece.isBare (String.ofList run)
  rw [Text.isAllWhite_ofList] at joins
  rw [whole, outcome_of_parts gathered, Phrase.isBare, joins]
  have passed := Text.all_isWhite_iff between
  by_cases mark : '\uFEFF' ∈ run
  · rw [if_pos mark, if_neg fun white => passed.mp white mark]
    rfl
  · rw [if_neg mark, if_pos (passed.mpr mark), ← Object.build_assign]
    rfl

end Document

/-- An array of one digit, as it is written. -/
def Literal.digit : Literal .silent "[1]".toList (.array [.text "1"]) where
  bracket := '['
  inner := "1]".toList
  opened := ⟨"", .origin, .leftBracket⟩
  lexemes := [⟨"", .origin, .unquoted "1"⟩, ⟨"", .origin, .rightBracket⟩]
  piece := .array (.more (.mk (.text true "1") .none) .none)
  written := by decide
  opens := rfl
  reached := by
    have taken : Cursor.taken 2 ⟨.origin, "1]".toList⟩ =
        some ([⟨"", .unquoted "1"⟩, ⟨"", .rightBracket⟩], []) := by decide +kernel
    exact reaches_of_taken taken
  spelled := .single rfl rfl rfl
  made session := ⟨session, rfl⟩
  resolved := rfl

/-- A key and an equals sign. -/
def Heading.plain : Heading "a =".toList ⟨"a", []⟩ where
  lexeme := ⟨"", .origin, .unquoted "a"⟩
  others := []
  mark := ⟨" ", .origin, .equals⟩
  key := ⟨by decide, by decide, by decide, by decide, by decide⟩
  marked := .inr rfl
  reached := by
    have taken : Cursor.taken 2 ⟨.origin, "a =".toList⟩ =
        some ([⟨"", .unquoted "a"⟩, ⟨" ", .equals⟩], []) := by decide +kernel
    exact reaches_of_taken taken

/-- A tabulator and an ideographic space between two arrays. -/
theorem arrays_adjoin :
    let run := ['\t', '\u3000']
    Includer.silent.Objects ∧ (∀ c ∈ [' '], Text.isBlank c = true) ∧ (∀ c ∈ run, Text.isBlank c = true) ∧
      Value.Adjoined (.array [.text "1"]) (.array [.text "1"]) (.array [.text "1", .text "1"]) ∧
      ((parse .silent (String.ofList ("a =".toList ++ [' '] ++ "[1]".toList ++ run ++
        "[1]".toList))).outcome .start).1 = .ok ⟨[("a", .array [.text "1", .text "1"])], []⟩ := by
  intro run
  have lead : ∀ c ∈ [' '], Text.isBlank c = true := List.all_eq_true.mp rfl
  have between : ∀ c ∈ run, Text.isBlank c = true := List.all_eq_true.mp rfl
  have adjoined : Value.Adjoined (.array [.text "1"]) (.array [.text "1"]) (.array [.text "1", .text "1"]) :=
    .arrays _ _
  have parsed := parse_adjoining Includer.silent_objects .plain lead between .digit .digit adjoined .start
  rw [if_neg (by decide)] at parsed
  exact ⟨Includer.silent_objects, lead, between, adjoined, parsed⟩

/-- Blanks may part two arrays so that they are refused: a byte order mark does. -/
theorem arrays_not_always_adjoin :
    ¬ ∀ {includer : Includer} {head lead run first second : List Char} {path : KeyPath}
        {one other joined : Value}, includer.Objects → Heading head path →
      (∀ c ∈ lead, Text.isBlank c = true) → (∀ c ∈ run, Text.isBlank c = true) → run ≠ [] →
      Literal includer first one → Literal includer second other → Value.Adjoined one other joined →
      ((parse includer (String.ofList (head ++ lead ++ first ++ run ++ second))).outcome .start).1 =
        .ok ⟨[(path.first, Object.nest path.rest joined)], []⟩ := by
  intro always
  have refused : ((parse .silent (String.ofList ("a =".toList ++ [' '] ++ "[1]".toList ++ ['\uFEFF'] ++
      "[1]".toList))).outcome .start).1.isOk = false := by decide +kernel
  have lead : ∀ c ∈ [' '], Text.isBlank c = true := List.all_eq_true.mp rfl
  have between : ∀ c ∈ ['\uFEFF'], Text.isBlank c = true := List.all_eq_true.mp rfl
  have joined := always Includer.silent_objects .plain lead between (List.cons_ne_nil _ _) .digit .digit
    (.arrays _ _)
  rw [joined] at refused
  cases refused

end Hocon
