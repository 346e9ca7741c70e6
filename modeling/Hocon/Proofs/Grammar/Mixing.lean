import Hocon.Proofs.Grammar.Parallel

/-! Pieces that do not go together. A derived text whose directives are answered is refused for one
reason alone: somewhere in it, at any depth, an array or an object stands beside a text that is not
blank or beside one of the other kind, with no reference to wait for. -/
namespace Hocon

namespace Grammar

def Phrase.faces : Phrase → List (Kind × String)
  | .mk first others => first.face :: others.faces

def Pieces.toList : Pieces → List Piece
  | .none => []
  | .more _ first others => first :: others.toList

/-- The pieces as they are written, without the blanks between them. -/
def Phrase.pieces : Phrase → List Piece
  | .mk first others => first :: others.toList

/-- The pieces of a value do not go together, and none of them is a reference. -/
def Phrase.Clashes (phrase : Phrase) : Prop :=
  (∀ face ∈ phrase.faces, face.1 ≠ .reference) ∧ Value.Clash phrase.faces

mutual

/-- The values in a tree at any depth, those inside of a value before itself. -/
def Piece.phrases : Piece → List Phrase
  | .object fields => fields.phrases
  | .array elements => elements.phrases
  | .text .. | .reference .. | .broken .. => []

def Pieces.phrases : Pieces → List Phrase
  | .none => []
  | .more _ first others => first.phrases ++ others.phrases

def Phrase.phrases : Phrase → List Phrase
  | .mk first others => first.phrases ++ others.phrases ++ [.mk first others]

def Field.phrases : Field → List Phrase
  | .assign _ phrase | .append _ phrase => phrase.phrases
  | .inclusion _ | .broken .. => []

def Fields.phrases : Fields → List Phrase
  | .none => []
  | .more first others => first.phrases ++ others.phrases

def Elements.phrases : Elements → List Phrase
  | .none => []
  | .more first others => first.phrases ++ others.phrases

end

/-- A run ends well if none of these values clashes; if one does, that is its fault. -/
def Mixes {α : Type} (phrases : List Phrase) (run : Run α) : Prop :=
  ∀ session, match run session with
    | .ok _ _ => ∀ phrase ∈ phrases, ¬ phrase.Clashes
    | .error fault _ => (∃ left right, fault = .concatMismatch left right) ∧
        ∃ phrase ∈ phrases, phrase.Clashes

namespace Mixes

variable {α β : Type} {phrases more : List Phrase}

private theorem pure (result : α) : Mixes [] (pure result : Run α) :=
  fun _ => by simp [Pure.pure, EStateM.pure]

private theorem of_ok {run : Run α} (done : ∀ session, ∃ result after, run session = .ok result after) :
    Mixes [] run := by
  intro session
  obtain ⟨result, after, ran⟩ := done session
  simp [ran]

private theorem bind {run : Run α} {next : α → Run β} (first : Mixes phrases run)
    (second : ∀ session result after, run session = .ok result after → Mixes more (next result)) :
    Mixes (phrases ++ more) (run >>= next) := by
  intro session
  have begun := first session
  cases ran : run session with
  | error fault after =>
    rw [ran] at begun
    obtain ⟨mismatch, phrase, member, clashes⟩ := begun
    simpa only [Bind.bind, EStateM.bind, ran] using
      ⟨mismatch, phrase, List.mem_append_left more member, clashes⟩
  | ok result after =>
    rw [ran] at begun
    have going := second session result after ran after
    simp only [Bind.bind, EStateM.bind, ran]
    cases further : next result after with
    | ok final last =>
      rw [further] at going
      exact List.forall_mem_append.mpr ⟨begun, going⟩
    | error fault last =>
      rw [further] at going
      obtain ⟨mismatch, phrase, member, clashes⟩ := going
      exact ⟨mismatch, phrase, List.mem_append_right phrases member, clashes⟩

private theorem finish {run : Run α} {last : α → β} (first : Mixes phrases run) :
    Mixes phrases (run >>= fun result => Pure.pure (last result)) := by
  have done := first.bind fun _ result _ _ => pure (last result)
  rwa [List.append_nil] at done

end Mixes

variable {includer : Includer} {session after : Session}

private theorem Phrase.free_of_references {first : Piece} {others : Pieces} :
    (∀ face ∈ (Phrase.mk first others).faces, face.1 ≠ .reference) ↔
      first.isReference = false ∧ others.hasReference = false := by
  rw [← first.isReference_face, ← others.hasReference_faces, List.any_eq_false]
  simp only [Phrase.faces, List.forall_mem_cons, beq_iff_eq, beq_eq_false_iff_ne, ne_eq]

/-- What stands alone, or beside a reference, does not clash. -/
private theorem Phrase.not_clashes {first : Piece} {others : Pieces}
    (waits : others = .none ∨ first.isReference = true ∨ others.hasReference = true) :
    ¬ (Phrase.mk first others).Clashes := by
  rintro ⟨plain, bulky, member, other, another, clash⟩
  rcases waits with rfl | waits
  · simp only [Phrase.faces, Pieces.faces, List.mem_singleton] at member another
    subst member another
    rcases clash with ⟨array, object⟩ | ⟨structured, text, _⟩
    · cases array.symm.trans object
    · simp [text] at structured
  · obtain ⟨apart, none⟩ := free_of_references.mp plain
    simp [apart, none] at waits

private theorem Phrase.joinPieces_ok_iff {first : Piece} {others : Pieces} {made : Made (List Value)}
    (bare : Bool)
    (gathered : (Phrase.mk first others).parts includer session = .ok made after)
    (sound : ∀ face ∈ (Phrase.mk first others).faces, face.1 = .reference ∨ face.1.Joinable) :
    (∃ value, joinPieces bare made.value = .ok value) ↔ ¬ (Phrase.mk first others).Clashes := by
  by_cases waits : others = .none ∨ first.isReference = true ∨ others.hasReference = true
  · exact iff_of_true (joinPieces_some bare gathered waits) (not_clashes waits)
  · obtain ⟨several, plain, all⟩ :
        others ≠ .none ∧ first.isReference = false ∧ others.hasReference = false := by simpa using waits
    have faces := faces_of_parts gathered
    have free := free_of_references.mpr ⟨plain, all⟩
    have joinable : ∀ piece ∈ made.value, piece.kind.Joinable := by
      intro piece member
      have face : piece.face ∈ (Phrase.mk first others).faces := by
        rw [Phrase.faces, ← faces]
        exact List.mem_map_of_mem member
      rw [← Value.kind_face]
      exact (sound _ face).resolve_left (free _ face)
    rw [joinPieces_of_parts bare gathered several plain all,
      Value.concatenate_ok_iff_not_clash joinable, faces]
    exact ⟨fun apart clashes => apart clashes.2, fun apart clash => apart ⟨free, clash⟩⟩

section Spelled

variable {directives : Prop} {lexemes : List Lexeme}

private theorem Piece.Spells.sound {piece : Piece} (spells : piece.Spells directives lexemes) :
    piece.face.1 = .reference ∨ piece.face.1.Joinable := by
  cases spells with
  | word | quoted => exact .inr (.inl rfl)
  | reference => exact .inl rfl
  | array => exact .inr (.inr (.inl rfl))
  | object => exact .inr (.inr (.inr rfl))

private theorem Pieces.Spells.sound {pieces : Pieces} {lexemes : List Lexeme}
    (spells : pieces.Spells directives lexemes) :
    ∀ face ∈ pieces.faces, face.1 = .reference ∨ face.1.Joinable := by
  cases spells with
  | none => simp [Pieces.faces]
  | @more first others lexeme own behind spelled further =>
    refine List.forall_mem_append.mpr ⟨?_, List.forall_mem_cons.mpr ⟨spelled.sound, further.sound⟩⟩
    intro face member
    split at member
    · obtain rfl := List.mem_singleton.mp member
      exact .inr (.inl rfl)
    · cases member

/-- Each of these directives is answered, whatever came before. -/
def AnswersAll (includer : Includer) (directives : List Directive) : Prop :=
  ∀ directive ∈ directives, ∀ session, ∃ root after, includer directive session = .ok root after

private theorem AnswersAll.split {first second : List Directive}
    (answers : AnswersAll includer (first ++ second)) :
    AnswersAll includer first ∧ AnswersAll includer second := List.forall_mem_append.mp answers

private theorem Phrase.join_mixes {first : Piece} {others : Pieces}
    (sound : ∀ face ∈ (Phrase.mk first others).faces, face.1 = .reference ∨ face.1.Joinable)
    (gathers : Mixes (first.phrases ++ others.phrases) ((Phrase.mk first others).parts includer)) :
    Mixes (Phrase.mk first others).phrases ((Phrase.mk first others).run includer) := by
  refine gathers.bind fun session made after gathered => Mixes.finish fun _ => ?_
  have joins := joinPieces_ok_iff (Phrase.mk first others).isBare gathered sound
  cases joined : joinPieces (Phrase.mk first others).isBare made.value with
  | ok value =>
    have apart := joins.mp ⟨value, joined⟩
    simpa [Run.ofExcept, pure, EStateM.pure] using apart
  | error fault =>
    have clashes : (Phrase.mk first others).Clashes := by
      by_contra apart
      obtain ⟨value, done⟩ := joins.mpr apart
      cases joined.symm.trans done
    exact ⟨mismatch_of_joinPieces joined, _, List.mem_singleton_self _, clashes⟩

mutual

/-- What is spelled, and answered where it asks, fails for nothing but values that clash. -/
private theorem Piece.Spells.mixes {piece : Piece} {lexemes : List Lexeme} (objects : includer.Objects)
    (spells : piece.Spells directives lexemes) (answers : AnswersAll includer piece.directives) :
    Mixes piece.phrases (piece.run includer) := by
  cases spells with
  | word | quoted => exact .pure _
  | reference => exact .of_ok fun _ => ⟨_, _, rfl⟩
  | object opens inside closes => exact (inside.mixes objects answers).finish
  | array opens inside closes => exact (inside.mixes objects answers).finish

private theorem Pieces.Spells.mixes {pieces : Pieces} {lexemes : List Lexeme} (objects : includer.Objects)
    (spells : pieces.Spells directives lexemes) (answers : AnswersAll includer pieces.directives) :
    Mixes pieces.phrases (pieces.run includer) := by
  cases spells with
  | none => exact .pure _
  | more spelled further =>
    obtain ⟨own, behind⟩ := answers.split
    exact (spelled.mixes objects own).bind fun _ _ _ _ => (further.mixes objects behind).finish

private theorem Phrase.Spells.mixes {phrase : Phrase} {lexemes : List Lexeme} (objects : includer.Objects)
    (spells : phrase.Spells directives lexemes) (answers : AnswersAll includer phrase.directives) :
    Mixes phrase.phrases (phrase.run includer) := by
  cases spells with
  | mk spelled further =>
    obtain ⟨own, behind⟩ := answers.split
    refine Phrase.join_mixes (List.forall_mem_cons.mpr ⟨spelled.sound, further.sound⟩) ?_
    exact (spelled.mixes objects own).bind fun _ _ _ _ => (further.mixes objects behind).finish

private theorem Field.Spells.mixes {field : Field} {lexemes : List Lexeme} (objects : includer.Objects)
    (spells : field.Spells directives lexemes) (answers : AnswersAll includer field.directives) :
    Mixes field.phrases (field.run includer) := by
  cases spells with
  | assign key marked newlines spelled | append key marked newlines spelled | nested key opens spelled =>
    exact (spelled.mixes objects answers).finish
  | @inclusion directive keyword own admitted begins directs =>
    refine .of_ok fun session => ?_
    obtain ⟨root, after, answered⟩ := answers directive (List.mem_singleton_self directive)
      { session with notes := .asked directive :: session.notes }
    obtain ⟨fields, whole⟩ := objects answered
    have given : Run.ofExcept root.value.asObject after = .ok fields after :=
      Run.ofExcept_of_ok (by rw [whole]; rfl)
    exact ⟨_, _, Run.bind_of_ok rfl (Run.bind_of_ok answered (Run.bind_of_ok given rfl))⟩

private theorem Fields.Spells.mixes {fields : Fields} {lexemes : List Lexeme} (objects : includer.Objects)
    (spells : fields.Spells directives lexemes) (answers : AnswersAll includer fields.directives) :
    Mixes fields.phrases (fields.run includer) := by
  cases spells with
  | none separators => exact .pure _
  | more separators spelled further parted =>
    obtain ⟨own, behind⟩ := answers.split
    exact (spelled.mixes objects own).bind fun _ _ _ _ => (further.mixes objects behind).finish

private theorem Elements.Spells.mixes {elements : Elements} {lexemes : List Lexeme} (objects : includer.Objects)
    (spells : elements.Spells directives lexemes) (answers : AnswersAll includer elements.directives) :
    Mixes elements.phrases (elements.run includer) := by
  cases spells with
  | none separators => exact .pure _
  | more separators spelled further parted =>
    obtain ⟨own, behind⟩ := answers.split
    exact (spelled.mixes objects own).bind fun _ _ _ _ => (further.mixes objects behind).finish

end

private theorem Derives.mixes {fields : Fields} (objects : includer.Objects)
    (derives : Derives directives fields lexemes) (answers : AnswersAll includer fields.directives) :
    Mixes fields.phrases (fields.document includer) := by
  cases derives with
  | braced newlines opens inside closes separators ends => exact (inside.mixes objects answers).finish
  | bare spelled ends => exact (spelled.mixes objects answers).finish

end Spelled

end Grammar

/-- A derived text whose directives are answered is refused for a mismatch just when an array or an
object of it stands beside a text that is not blank, quoted or not, or beside one of the other kind. -/
theorem parse_mismatch_iff_clashes {text : String} {lexemes : List Lexeme} {fields : Grammar.Fields}
    {includer : Includer} (objects : includer.Objects) (lexed : Lexed (.ofText text) lexemes)
    (derives : Grammar.Derives True fields lexemes)
    (answers : Grammar.AnswersAll includer fields.directives) (session : Session) :
    (∃ left right, ((parse includer text).outcome session).1 = .error (.concatMismatch left right)) ↔
      ∃ phrase ∈ fields.phrases, phrase.Clashes := by
  obtain ⟨front, last, rfl, ends, read⟩ := lexed.read
  have whole : parse includer text = fields.document includer := by
    rw [parse, Stream.ofText, read, ← Stream.document_reads (fun _ => objects) derives]
    rfl
  have mixes := derives.mixes objects answers session
  rw [whole, Run.outcome]
  cases ran : fields.document includer session with
  | ok document after =>
    rw [ran] at mixes
    constructor
    · rintro ⟨_, _, ⟨⟩⟩
    · rintro ⟨phrase, member, clashes⟩
      exact absurd clashes (mixes phrase member)
  | error fault after =>
    rw [ran] at mixes
    obtain ⟨⟨left, right, rfl⟩, clash⟩ := mixes
    exact ⟨fun _ => clash, fun _ => ⟨left, right, rfl⟩⟩

namespace Grammar

/-- A field of two arrays with a quoted text between them. -/
def between (content : String) : Fields :=
  .more (.assign ⟨"a", []⟩ (.mk (.array (.more (.mk (.text true "1") .none) .none))
    (.more " " (.text false content) (.more " " (.array (.more (.mk (.text true "2") .none) .none)) .none)))) .none

/-- How it is written, the text being as wide as this between its quotes. -/
def betweenLexemes (content : String) (width : Nat) : List Lexeme :=
  [⟨"", ⟨1, 1⟩, .unquoted "a"⟩, ⟨" ", ⟨1, 3⟩, .equals⟩, ⟨" ", ⟨1, 5⟩, .leftBracket⟩,
    ⟨"", ⟨1, 6⟩, .unquoted "1"⟩, ⟨"", ⟨1, 7⟩, .rightBracket⟩, ⟨" ", ⟨1, 9⟩, .quoted content⟩,
    ⟨" ", ⟨1, width + 12⟩, .leftBracket⟩, ⟨"", ⟨1, width + 13⟩, .unquoted "2"⟩,
    ⟨"", ⟨1, width + 14⟩, .rightBracket⟩, ⟨"", ⟨1, width + 15⟩, .endOfText⟩]

theorem Piece.Spells.single {opened word closed : Lexeme} {content : String}
    (opens : opened.token = .leftBracket) (token : word.token = .unquoted content)
    (closes : closed.token = .rightBracket) :
    Piece.Spells True (.array (.more (.mk (.text true content) .none) .none)) [opened, word, closed] := by
  have inside : Elements.Spells True (.more (.mk (.text true content) .none) .none) ([] ++ ([word] ++ []) ++ []) :=
    .more (by simp) (.mk (.word token) .none) (.none (by simp)) (by simp)
  exact .array opens inside closes

private theorem derives_between (content : String) (width : Nat) :
    Derives True (between content) (betweenLexemes content width) := by
  have key : Key [⟨"", ⟨1, 1⟩, .unquoted "a"⟩] ⟨"a", []⟩ :=
    ⟨by decide, by decide, by decide, by decide, by decide⟩
  have first : Piece.Spells True _
      [⟨" ", ⟨1, 5⟩, .leftBracket⟩, ⟨"", ⟨1, 6⟩, .unquoted "1"⟩, ⟨"", ⟨1, 7⟩, .rightBracket⟩] :=
    .single rfl rfl rfl
  have second : Piece.Spells True _ [⟨" ", ⟨1, width + 12⟩, .leftBracket⟩,
      ⟨"", ⟨1, width + 13⟩, .unquoted "2"⟩, ⟨"", ⟨1, width + 14⟩, .rightBracket⟩] := .single rfl rfl rfl
  have quoted : Piece.Spells True (.text false content) [⟨" ", ⟨1, 9⟩, .quoted content⟩] := .quoted rfl
  have value := Phrase.Spells.mk first (.more quoted (.more second .none))
  have field : Field.Spells True (.assign ⟨"a", []⟩ _) (_ ++ ⟨" ", ⟨1, 3⟩, .equals⟩ :: [] ++ _) :=
    .assign key (.inr rfl) (by simp) value
  have fields : Fields.Spells True (between content) ([] ++ _ ++ []) :=
    .more (by simp) field (.none (by simp)) (by simp)
  exact .bare fields rfl

end Grammar

/-- A word in quotes does not go with the arrays around it. -/
theorem quoted_word_refused :
    Includer.silent.Objects ∧
      Lexed (.ofText "a = [1] \"x\" [2]") (Grammar.betweenLexemes "x" 1) ∧
      Grammar.Derives True (Grammar.between "x") (Grammar.betweenLexemes "x" 1) ∧
      Grammar.AnswersAll .silent (Grammar.between "x").directives ∧
      (∃ phrase ∈ (Grammar.between "x").phrases, phrase.Clashes) ∧
      ∃ left right, ((parse .silent "a = [1] \"x\" [2]").outcome .start).1 =
        .error (.concatMismatch left right) := by
  have lexed : Lexed (.ofText "a = [1] \"x\" [2]") (Grammar.betweenLexemes "x" 1) := by decide +kernel
  have answers : Grammar.AnswersAll .silent (Grammar.between "x").directives := nofun
  have clash : ∃ phrase ∈ (Grammar.between "x").phrases, phrase.Clashes := by
    refine ⟨_, List.mem_append_left _ (List.mem_append_right _ (List.mem_singleton_self _)), ?_, ?_⟩
    · decide
    · exact ⟨(.array, ""), by decide, (.text, "x"), by decide, .inr ⟨.inl rfl, rfl, by decide⟩⟩
  exact ⟨Includer.silent_objects, lexed, Grammar.derives_between "x" 1, answers, clash,
    (parse_mismatch_iff_clashes Includer.silent_objects lexed (Grammar.derives_between "x" 1) answers
      .start).mpr clash⟩

/-- A text in quotes that is empty does: it is taken for the blanks between the arrays. -/
theorem quoted_text_not_always_refused :
    ¬ ∀ {text : String} {lexemes : List Lexeme} {fields : Grammar.Fields} {phrase : Grammar.Phrase}
        {content : String},
      Lexed (.ofText text) lexemes → Grammar.Derives True fields lexemes → fields.directives = [] →
        phrase ∈ fields.phrases → (∀ piece ∈ phrase.pieces, piece.isReference = false) →
        (∃ piece ∈ phrase.pieces, piece.face.1 = .array ∨ piece.face.1 = .object) →
        .text false content ∈ phrase.pieces →
        ∃ left right, ((parse .silent text).outcome .start).1 = .error (.concatMismatch left right) := by
  intro always
  have lexed : Lexed (.ofText "a = [1] \"\" [2]") (Grammar.betweenLexemes "" 0) := by decide +kernel
  have accepted : ((parse .silent "a = [1] \"\" [2]").outcome .start).1.isOk = true := by decide +kernel
  obtain ⟨left, right, refused⟩ := always lexed (Grammar.derives_between "" 0) rfl
    (List.mem_append_left _ (List.mem_append_right _ (List.mem_singleton_self _)))
    (by decide) ⟨_, .head _, .inl rfl⟩ (.tail _ (.head _))
  rw [refused] at accepted
  cases accepted

end Hocon
