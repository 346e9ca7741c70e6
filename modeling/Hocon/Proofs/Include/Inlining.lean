import Hocon.Proofs.Grammar.Distinct
import Hocon.Proofs.Grammar.Layout
import Hocon.Proofs.Include.Guarding
import Hocon.Value.Equality

/-! Directives against the fields that they stand for. What is included is built by itself and then
merged in, which comes to the same as its fields in the place of the directive as long as they blend
with those in front of them. -/
namespace Hocon

/-- The reference without its number and its place. -/
def Reference.anonymous (reference : Reference) : Reference :=
  ⟨0, reference.path, reference.optional, .origin⟩

/-- What the fields of a text without braces do, with nothing for an answer. -/
def entriesOf (text : String) : List Entry :=
  let read : Run (List Entry) := do
    let stream ← Run.ofExcept (Stream.ofText text)
    let found ← stream.fields .silent .endOfText
    return found.value
  match read .start with
  | .ok entries _ => entries
  | .error .. => []

/-- A document by itself that may be written among others. -/
structure Passage (text : String) : Prop where
  parses : ((parse .silent text).outcome .start).1.isOk = true
  braceless : isBraced text = false
  plain : directivesOf text = []
  ends : text.toList.getLast? = some '\n'

namespace Grammar

variable {directives : Prop} {lexemes others : List Lexeme} {includer : Includer}

/-- These fields, and others behind them. -/
def Fields.append : Fields → Fields → Fields
  | .none, further => further
  | .more first rest, further => .more first (rest.append further)

private theorem Fields.run_append (first further : Fields) : (first.append further).run includer = do
    let made ← first.run includer
    let more ← further.run includer
    return ⟨made.value ++ more.value, made.references ++ more.references⟩ := by
  cases first with
  | none => simp [append, run]
  | more field rest =>
    simp only [append, run, Fields.run_append rest further, bind_assoc, pure_bind, List.cons_append,
      List.append_assoc]

/-- Lexemes whose last one ends a value. -/
def EndsValue (lexemes : List Lexeme) : Prop := ∀ lexeme ∈ lexemes.getLast?, lexeme.token.endsValue = true

private theorem EndsValue.append (here : EndsValue lexemes) (behind : EndsValue others) :
    EndsValue (lexemes ++ others) := by
  intro lexeme member
  rw [List.getLast?_append] at member
  cases last : others.getLast? with
  | none => exact here lexeme (by simpa [last] using member)
  | some final => exact behind lexeme (by simpa [last] using member)

private theorem EndsValue.behind (behind : EndsValue others) (some : others ≠ []) :
    EndsValue (lexemes ++ others) := by
  intro lexeme member
  rw [List.getLast?_append_of_ne_nil _ some] at member
  exact behind lexeme member

private theorem EndsValue.singleton {lexeme : Lexeme} (ends : lexeme.token.endsValue = true) :
    EndsValue [lexeme] := by
  simpa [EndsValue] using ends

private theorem EndsValue.of_words (words : ∀ lexeme ∈ lexemes, lexeme.token.isWord = true) :
    EndsValue lexemes :=
  fun lexeme member => isWord_endsValue (words lexeme (List.mem_of_getLast? member))

private theorem Piece.Spells.ends {piece : Piece} (spells : piece.Spells directives lexemes) :
    EndsValue lexemes := by
  cases spells with
  | word token | quoted token | reference token => exact .singleton (by rw [token]; rfl)
  | object opens inside closes | array opens inside closes =>
    exact (EndsValue.singleton (by rw [closes]; rfl)).behind (List.cons_ne_nil _ _)

private theorem Pieces.Spells.ends {pieces : Pieces} {lexemes : List Lexeme}
    (spells : pieces.Spells directives lexemes) :
    EndsValue lexemes := by
  cases spells with
  | none => exact nofun
  | more spelled further => exact spelled.ends.append further.ends

private theorem Phrase.Spells.ends {phrase : Phrase} (spells : phrase.Spells directives lexemes) :
    EndsValue lexemes := by
  cases spells with
  | mk spelled further => exact spelled.ends.append further.ends

private theorem Phrase.Spells.ne_nil {phrase : Phrase} (spells : phrase.Spells directives lexemes) :
    lexemes ≠ [] := by
  obtain ⟨_, _, rfl, _⟩ := spells.begins
  exact List.cons_ne_nil _ _

private theorem Field.Spells.ends {field : Field} (spells : field.Spells directives lexemes) :
    EndsValue lexemes := by
  cases spells with
  | assign key marked newlines spelled | append key marked newlines spelled =>
    exact spelled.ends.behind spelled.ne_nil
  | nested key opens spelled => exact spelled.ends.behind spelled.ne_nil
  | inclusion admitted begins directs =>
    refine .of_words (List.forall_mem_cons.mpr ⟨?_, directs.words.2⟩)
    rw [begins]
    rfl

private theorem Fields.Spells.append {first further : Fields} {lexemes : List Lexeme}
    (spells : first.Spells directives lexemes)
    (parted : ∀ lexeme ∈ lexemes.getLast?, lexeme.token.isSeparator = true)
    (again : further.Spells directives others) : (first.append further).Spells directives (lexemes ++ others) := by
  cases spells with
  | none separators => exact again.behind separators
  | @more field rest gap own behind separators spelled follows apart =>
    have some : behind ≠ [] := by
      rintro rfl
      obtain ⟨begin', own, rfl, _⟩ := spelled.begins
      have last : ∃ lexeme, (begin' :: own).getLast? = some lexeme := ⟨_, List.getLast?_eq_some_getLast (by simp)⟩
      obtain ⟨lexeme, last⟩ := last
      have ends := spelled.ends lexeme last
      have separator := parted lexeme (by simpa using last)
      cases token : lexeme.token <;> simp [token, Token.endsValue, Token.isSeparator] at ends separator
    rw [List.append_assoc]
    refine .more separators spelled (append follows (fun lexeme member => parted lexeme ?_) again) ?_
    · rwa [List.getLast?_append_of_ne_nil _ some]
    · rwa [List.head?_append_of_ne_nil _ some]

end Grammar

open Grammar

/-- Behind such marks any text may follow, and they are read there as fields that make what looks so. -/
structure Embeds (includer : Includer) (text : List Char) (marks : List Mark) (entries : List Entry)
    (references : List Reference) : Prop where
  reaches : ∀ rest, Reaches (text ++ rest) marks rest
  parted : ∀ mark ∈ marks.getLast?, mark.token = .newline
  made : ∀ lexemes : List Lexeme, lexemes.map Lexeme.mark = marks → ∃ fields : Fields,
    fields.Spells True lexemes ∧ ∀ session, ∃ made after, fields.run includer session = .ok made after ∧
      made.viewEntries Reference.anonymous = (entries, references)

namespace Embeds

variable {includer : Includer} {text further : List Char} {marks more : List Mark} {entries others : List Entry}
  {references remaining : List Reference}

private theorem append (first : Embeds includer text marks entries references)
    (second : Embeds includer further more others remaining) :
    Embeds includer (text ++ further) (marks ++ more) (entries ++ others) (references ++ remaining) where
  reaches rest := by
    rw [List.append_assoc]
    exact (first.reaches _).append (second.reaches rest)
  parted mark member := by
    rw [List.getLast?_append] at member
    cases last : more.getLast? with
    | none => exact first.parted mark (by simpa [last] using member)
    | some final => exact second.parted mark (by simpa [last] using member)
  made lexemes same := by
    obtain ⟨front, back, rfl, rfl, rfl⟩ := List.map_eq_append_iff.mp same
    obtain ⟨fields, spelled, runs⟩ := first.made front rfl
    obtain ⟨again, respelled, reruns⟩ := second.made back rfl
    have parted : ∀ lexeme ∈ front.getLast?, lexeme.token.isSeparator = true := by
      intro lexeme member
      have newline : lexeme.token = .newline :=
        first.parted lexeme.mark (by simp [List.getLast?_map, Option.mem_def.mp member])
      rw [newline]
      rfl
    refine ⟨fields.append again, spelled.append parted respelled, fun session => ?_⟩
    obtain ⟨made, middle, ran, look⟩ := runs session
    obtain ⟨beyond, after, reran, alike⟩ := reruns middle
    refine ⟨⟨made.value ++ beyond.value, made.references ++ beyond.references⟩, after, ?_, ?_⟩
    · rw [Fields.run_append]
      exact Run.bind_of_ok ran (Run.bind_of_ok reran rfl)
    · obtain ⟨rfl, rfl⟩ := Prod.mk.inj look
      obtain ⟨rfl, rfl⟩ := Prod.mk.inj alike
      simp only [Made.viewEntries, List.map_append]

/-- By itself such a text is read as the document of what it makes. -/
private theorem parse {text : String} (embeds : Embeds includer.guarded text.toList marks entries references)
    (session : Session) : ∃ document after, parse includer text session = .ok document after ∧
      Value.renameFields Reference.anonymous document.fields = Entry.build entries ∧
      document.references.map Reference.anonymous = references := by
  have marked : Marked text.toList marks := ⟨[], by simpa using embeds.reaches [], rfl⟩
  obtain ⟨front, last, rfl, ends, read⟩ := marked.read .origin
  obtain ⟨fields, spelled, runs⟩ := embeds.made front rfl
  obtain ⟨made, after, ran, look⟩ := runs session
  obtain ⟨rfl, rfl⟩ := Prod.mk.inj look
  have parsed := (parse_iff_tree read (.bare spelled ends)).mpr (Run.bind_of_ok ran rfl)
  exact ⟨_, after, parsed, Entry.rename_build _ _, rfl⟩

end Embeds

theorem entriesOf_of_read {text : String} {lexemes : List Lexeme} {last : Lexeme} {fields : Fields}
    {made : Made (List Entry)} {after : Session} (read : Stream.ofText text = .ok (.prepend lexemes (.ended last)))
    (spelled : fields.Spells True lexemes) (ends : last.token = .endOfText)
    (ran : fields.run .silent .start = .ok made after) : entriesOf text = made.value := by
  obtain ⟨_, reads⟩ := Stream.fields_reads (fun _ => Includer.silent_objects) spelled (.endOfText ends)
  have whole : (do
      let stream ← Run.ofExcept (Stream.ofText text)
      let found ← stream.fields .silent .endOfText
      return found.value : Run (List Entry)) .start = .ok made.value after := by
    rw [read]
    refine Run.bind_of_ok rfl ?_
    rw [reads, bind_assoc]
    exact Run.bind_of_ok ran rfl
  rw [entriesOf, whole]

namespace Passage

variable {text : String}

/-- A passage is read as fields, with no directive among them. -/
theorem outline (passage : Passage text) : ∃ (lexemes : List Lexeme) (last : Lexeme) (fields : Fields)
    (made : Made (List Entry)) (after : Session),
    Stream.ofText text = .ok (.prepend lexemes (.ended last)) ∧ last.token = .endOfText ∧
      fields.Spells True lexemes ∧ fields.run .silent .start = .ok made after ∧ fields.directives = [] := by
  obtain ⟨document, parsed⟩ := ok_of_isOk passage.parses
  obtain ⟨after, parsed⟩ := Run.ok_of_outcome parsed
  obtain ⟨fields, lexemes, last, read, derives, ran⟩ := tree_of_parse parsed
  obtain ⟨made, final, inside, done⟩ := Run.ok_of_bind ran
  cases done
  have asked : after.asked = fields.directives := Fields.asked_of_run inside
  have plain := passage.plain
  rw [directivesOf, Run.outcome, parsed] at plain
  obtain ⟨spelled, ends⟩ := derives.bare_of_read read passage.braceless
  exact ⟨lexemes, last, fields, made, after, read, ends, spelled, inside, asked ▸ plain⟩

private theorem keysDistinct (passage : Passage text) :
    ∀ entry ∈ entriesOf text, entry.keysDistinct = true := by
  obtain ⟨lexemes, last, fields, made, after, read, ends, spelled, ran, _⟩ := passage.outline
  rw [entriesOf_of_read read spelled ends ran]
  refine Fields.distinct_of_run (fun {directive session after root} answered => ?_) ran
  cases answered
  rfl

private theorem blurs : Blurs (fun _ _ => True) Reference.anonymous where
  equivalence := ⟨fun _ => trivial, fun _ => trivial, fun _ _ => trivial⟩
  reference _ _ _ _ _ := rfl
  next _ := trivial

private theorem embeds (passage : Passage text) : ∃ marks references, ∀ includer,
    Embeds includer text.toList marks ((entriesOf text).map (Entry.rename Reference.anonymous)) references := by
  obtain ⟨lexemes, last, fields, made, after, read, ends, spelled, ran, plain⟩ := passage.outline
  rw [entriesOf_of_read read spelled ends ran]
  obtain ⟨newline, reaches⟩ := (marked_of_read read).followed passage.ends
  refine ⟨lexemes.map Lexeme.mark, made.references.map Reference.anonymous, fun includer => ⟨reaches, newline, ?_⟩⟩
  intro others same
  obtain ⟨again, respelled, unplaced⟩ := spelled.moved same
  refine ⟨again, respelled, fun session => ?_⟩
  have parallel : Parallel _ _ (fields.run .silent) (again.run includer) :=
    Fields.parallel_of_unplaced blurs unplaced fun directive member => by
      rw [plain] at member
      cases member
  obtain ⟨mirrored, behind, rerun, look, _⟩ := parallel.ok_of_ok trivial ran
  exact ⟨mirrored, behind, rerun, look.symm⟩

end Passage

/-- A directive on a line of its own. -/
def includeLine : String := "include \"f\"\n"

/-- A directive on a line of its own may be written among fields as well. -/
private theorem includeLine_embeds {includer : Includer} {fields : Object} {references : List Reference}
    (answers : ∀ session, ∃ document after, includer ⟨"f", false⟩ session = .ok (Document.root document) after ∧
      Value.renameFields Reference.anonymous document.fields = fields ∧
      document.references.map Reference.anonymous = references) :
    ∃ marks, Embeds includer includeLine.toList marks [.included fields] references := by
  have lexed : Lexed (.ofText includeLine) (Cursor.ofText includeLine).lexemes := by decide +kernel
  have marks : (Cursor.ofText includeLine).lexemes.map Lexeme.mark =
      [⟨"", .unquoted Directive.keyword⟩, ⟨" ", .quoted "f"⟩, ⟨"", .newline⟩] ++ [⟨"", .endOfText⟩] := by
    decide +kernel
  obtain ⟨front, last, whole, ends, read⟩ := lexed.read
  rw [whole, List.map_append] at marks
  obtain ⟨same, _⟩ := List.append_inj' marks rfl
  obtain ⟨newline, reaches⟩ := (marked_of_read read).followed (by decide)
  refine ⟨front.map Lexeme.mark, reaches, newline, fun lexemes alike => ?_⟩
  obtain ⟨keyword, pattern, closer, rfl, first, second, third⟩ : ∃ keyword pattern closer,
      lexemes = [keyword, pattern, closer] ∧ keyword.mark = ⟨"", .unquoted Directive.keyword⟩ ∧
        pattern.mark = ⟨" ", .quoted "f"⟩ ∧ closer.mark = ⟨"", .newline⟩ := by
    simpa [List.map_eq_cons_iff] using alike.trans same
  have directs : Directs [pattern] ⟨"f", false⟩ := by
    obtain ⟨space, start, token⟩ := pattern
    obtain ⟨rfl, rfl⟩ := Mark.mk.inj second
    exact fun rest => ⟨rfl, _, Stream.directive_quoted rfl⟩
  have closes : closer.token.isSeparator = true := congrArg (fun mark => mark.token.isSeparator) third
  have spelled : (Fields.more (.inclusion ⟨"f", false⟩) .none).Spells True ([] ++ [keyword, pattern] ++ [closer]) :=
    .more (by simp) (.inclusion trivial (congrArg Mark.token first) directs) (.none (by simpa using closes))
      (by simpa using closes)
  refine ⟨_, spelled, fun session => ?_⟩
  obtain ⟨document, after, answered, rfl, rfl⟩ :=
    answers { session with notes := .asked ⟨"f", false⟩ :: session.notes }
  have ran : (Field.inclusion ⟨"f", false⟩).run includer session =
      .ok ⟨.included document.fields, document.references⟩ after :=
    Run.bind_of_ok rfl (Run.bind_of_ok answered rfl)
  exact ⟨_, after, Run.bind_of_ok ran rfl, by simp [Made.viewEntries, Entry.rename]⟩

/-- A directive acts as the fields that it stands for, where these blend with the fields in front of
them. The references that are read are the same in any case, but for their numbers and places. -/
theorem parse_inlines_include {first file last : String} (before : Passage first) (inside : Passage file)
    (behind : Passage last) {includer : Includer}
    (answers : ∀ session, ∃ document after, includer ⟨"f", false⟩ session = .ok (Document.root document) after ∧
      ∃ other begin' finish, parse other file begin' = .ok document finish)
    (other : Includer) (session begin' : Session) :
    ∃ document after inline finish,
      parse includer (first ++ "include \"f\"\n" ++ last) session = .ok document after ∧
      parse other (first ++ file ++ last) begin' = .ok inline finish ∧
      document.references.map Reference.anonymous = inline.references.map Reference.anonymous ∧
      (Entry.Blend (Entry.build (entriesOf first)) (entriesOf file) →
        document.root.value.rename Reference.anonymous = inline.root.value.rename Reference.anonymous) := by
  obtain ⟨marks, own, embeds⟩ := before.embeds
  obtain ⟨inner, added, inlined⟩ := inside.embeds
  obtain ⟨further, remaining, follows⟩ := behind.embeds
  obtain ⟨line, included⟩ := includeLine_embeds fun session => by
    obtain ⟨document, after, answered, other, begin', finish, parsed⟩ := answers session
    obtain ⟨again, _, reparsed, fields, references⟩ := (inlined other.guarded).parse begin'
    cases parsed.symm.trans reparsed
    have asked : includer.guarded ⟨"f", false⟩ session = .ok (Document.root document) after :=
      Run.bind_of_ok answered rfl
    exact ⟨document, after, asked, fields, references⟩
  have whole := ((embeds includer.guarded).append included).append (follows _)
  have flat := ((embeds other.guarded).append (inlined _)).append (follows _)
  rw [← String.toList_append, ← String.toList_append] at whole flat
  obtain ⟨document, after, parsed, fields, references⟩ := whole.parse session
  obtain ⟨inline, finish, reparsed, others, again⟩ := flat.parse begin'
  refine ⟨document, after, inline, finish, parsed, reparsed, references.trans again.symm, fun blend => ?_⟩
  have merged := Entry.foldl_apply_eq_merge inside.keysDistinct blend
  have renamed := congrArg (Value.renameFields Reference.anonymous) merged
  rw [Entry.rename_foldl_apply, Object.rename_merge, Entry.rename_build, Entry.rename_build] at renamed
  have same : Value.renameFields Reference.anonymous document.fields =
      Value.renameFields Reference.anonymous inline.fields := by
    rw [fields, others, Entry.build_append, Entry.build_append, Entry.build_append, Entry.build_append, renamed]
    rfl
  exact congrArg Value.object same

/-- Answers every directive with the document of a text. -/
def Includer.ofText (text : String) : Includer := fun _ => do return (← parse .silent text).root

private theorem Passage.answers {text : String} (passage : Passage text) (directive : Directive)
    (session : Session) :
    ∃ document after, Includer.ofText text directive session = .ok (Document.root document) after ∧
      ∃ other begin' finish, parse other text begin' = .ok document finish := by
  obtain ⟨marks, references, embeds⟩ := passage.embeds
  obtain ⟨document, after, parsed, _⟩ := (embeds Includer.silent.guarded).parse session
  exact ⟨document, after, Run.bind_of_ok parsed rfl, _, _, _, parsed⟩

/-- Beside fields of other keys a directive acts as the fields that it stands for. -/
theorem include_inlined_beside_others :
    let first := "a = 1\n"
    let file := "l += 3\nb \x7b d = $\x7ba\x7d \x7d\n"
    let last := "l += $\x7b?z\x7d\n"
    (Passage first ∧ Passage file ∧ Passage last ∧ Entry.Blend (Entry.build (entriesOf first)) (entriesOf file)) ∧
    ∃ document after inline finish,
      parse (.ofText file) (first ++ "include \"f\"\n" ++ last) .start = .ok document after ∧
      parse .silent (first ++ file ++ last) .start = .ok inline finish ∧
      document.references.map Reference.anonymous = inline.references.map Reference.anonymous ∧
      document.root.value.rename Reference.anonymous = inline.root.value.rename Reference.anonymous := by
  intro first file last
  have before : Passage first := ⟨by decide +kernel, by decide +kernel, by decide +kernel, by decide +kernel⟩
  have inside : Passage file := ⟨by decide +kernel, by decide +kernel, by decide +kernel, by decide +kernel⟩
  have behind : Passage last := ⟨by decide +kernel, by decide +kernel, by decide +kernel, by decide +kernel⟩
  have blend : Entry.Blend (Entry.build (entriesOf first)) (entriesOf file) :=
    .of_apart inside.keysDistinct (by decide +kernel)
  obtain ⟨document, after, inline, finish, parsed, reparsed, references, same⟩ :=
    parse_inlines_include before inside behind (inside.answers _) .silent .start .start
  exact ⟨⟨before, inside, behind, blend⟩, document, after, inline, finish, parsed, reparsed, references, same blend⟩

/-- An element that is added in a file of its own is no element of the array in front of the directive. -/
theorem include_not_always_inlined :
    ¬∀ {first file last : String} {includer : Includer}, Passage first → Passage file → Passage last →
      (∀ session, ∃ document after, includer ⟨"f", false⟩ session = .ok (Document.root document) after ∧
        ∃ other begin' finish, parse other file begin' = .ok document finish) →
      ∃ document after inline finish,
        parse includer (first ++ "include \"f\"\n" ++ last) .start = .ok document after ∧
        parse includer (first ++ file ++ last) .start = .ok inline finish ∧
        document.root.value.rename Reference.anonymous = inline.root.value.rename Reference.anonymous := by
  intro always
  let look (text : String) : Option Value :=
    ((parse (.ofText "a += 2\n") text).outcome .start).1.toOption.map fun document =>
      document.root.value.rename Reference.anonymous
  have differs : look "a = [1]\ninclude \"f\"\nb = 1\n" ≠ look "a = [1]\na += 2\nb = 1\n" := by decide +kernel
  have before : Passage "a = [1]\n" := ⟨by decide +kernel, by decide +kernel, by decide +kernel, by decide +kernel⟩
  have inside : Passage "a += 2\n" := ⟨by decide +kernel, by decide +kernel, by decide +kernel, by decide +kernel⟩
  have behind : Passage "b = 1\n" := ⟨by decide +kernel, by decide +kernel, by decide +kernel, by decide +kernel⟩
  obtain ⟨document, after, inline, finish, parsed, reparsed, same⟩ := always before inside behind (inside.answers _)
  have seen : ∀ {text : String} {document : Document} {after : Session},
      parse (.ofText "a += 2\n") text .start = .ok document after →
        look text = some (document.root.value.rename Reference.anonymous) := by
    intro text document after parsed
    simp only [look, Run.outcome_of_ok parsed, Except.toOption, Option.map_some]
  exact differs ((seen parsed).trans ((congrArg some same).trans (seen reparsed).symm))

end Hocon
