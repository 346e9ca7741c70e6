import Hocon.Proofs.Grammar.Directing
import Hocon.Proofs.Places

namespace Hocon

/-- A reference that is written at a place, or a directive. -/
inductive Stop where
  | reference (path : KeyPath) (optional : Bool) (place : Position)
  | inclusion (directive : Directive)
deriving DecidableEq

/-- Where a reference is written. -/
def Stop.place? : Stop → Option Position
  | .reference _ _ place => some place
  | .inclusion _ => none

def Token.isReference : Token → Bool
  | .reference _ _ => true
  | _ => false

namespace Grammar

mutual

/-- The stops of a tree from its front to its end. -/
def Piece.stops : Piece → List Stop
  | .text _ _ | .broken _ _ => []
  | .reference path optional place => [.reference path optional place]
  | .object fields => fields.stops
  | .array elements => elements.stops

def Pieces.stops : Pieces → List Stop
  | .none => []
  | .more _ first others => first.stops ++ others.stops

def Phrase.stops : Phrase → List Stop
  | .mk first others => first.stops ++ others.stops

def Field.stops : Field → List Stop
  | .assign _ phrase | .append _ phrase => phrase.stops
  | .inclusion directive => [.inclusion directive]
  | .broken _ _ => []

def Fields.stops : Fields → List Stop
  | .none => []
  | .more first others => first.stops ++ others.stops

def Elements.stops : Elements → List Stop
  | .none => []
  | .more first others => first.stops ++ others.stops

end

/-- Reading these lexemes from start to end meets these stops: every reference among them, and
directives. -/
inductive Meets : List Lexeme → List Stop → Prop where
  | none : Meets [] []
  | reference {lexeme : Lexeme} {path : KeyPath} {optional : Bool} {lexemes : List Lexeme} {stops : List Stop}
      (token : lexeme.token = .reference path optional) (further : Meets lexemes stops) :
      Meets (lexeme :: lexemes) (.reference path optional lexeme.start :: stops)
  | inclusion {keyword : Lexeme} {own lexemes : List Lexeme} {directive : Directive} {stops : List Stop}
      (begins : keyword.token = .unquoted Directive.keyword) (directs : Directs own directive)
      (further : Meets lexemes stops) : Meets (keyword :: own ++ lexemes) (.inclusion directive :: stops)
  | other {lexeme : Lexeme} {lexemes : List Lexeme} {stops : List Stop} (plain : lexeme.token.isReference = false)
      (further : Meets lexemes stops) : Meets (lexeme :: lexemes) stops

namespace Meets

variable {lexemes others : List Lexeme} {stops more : List Stop}

private theorem append (meets : Meets lexemes stops) (further : Meets others more) :
    Meets (lexemes ++ others) (stops ++ more) := by
  induction meets with
  | none => exact further
  | reference token _ ih => exact .reference token ih
  | @inclusion keyword own lexemes directive stops begins directs _ ih =>
    have whole : keyword :: own ++ lexemes ++ others = keyword :: own ++ (lexemes ++ others) := by simp
    rw [whole]
    exact .inclusion begins directs ih
  | other plain _ ih => exact .other plain ih

private theorem plain (plain : ∀ lexeme ∈ lexemes, lexeme.token.isReference = false) : Meets lexemes [] := by
  induction lexemes with
  | nil => exact .none
  | cons lexeme lexemes ih =>
    obtain ⟨first, plain⟩ := List.forall_mem_cons.mp plain
    exact .other first (ih plain)

private theorem behind (gap : ∀ lexeme ∈ others, lexeme.token.isReference = false)
    (meets : Meets lexemes stops) :
    Meets (others ++ lexemes) stops := (plain gap).append meets

private theorem before (meets : Meets lexemes stops)
    (gap : ∀ lexeme ∈ others, lexeme.token.isReference = false) :
    Meets (lexemes ++ others) stops := by simpa using meets.append (plain gap)

/-- The references that are met are among the lexemes, in their order. -/
theorem places (meets : Meets lexemes stops) : (stops.filterMap Stop.place?).Sublist (lexemes.map (·.start)) := by
  induction meets with
  | none => exact .slnil
  | reference token _ ih => exact ih.cons_cons _
  | @inclusion keyword own _ _ _ _ _ _ ih =>
    rw [List.map_append]
    exact ih.trans (List.sublist_append_right _ _)
  | other _ _ ih => exact ih.cons _

theorem mem {path : KeyPath} {optional : Bool} {place : Position} (meets : Meets lexemes stops)
    (member : .reference path optional place ∈ stops) :
    ∃ lexeme ∈ lexemes, lexeme.token = .reference path optional ∧ lexeme.start = place := by
  induction meets with
  | none => cases member
  | @reference lexeme _ _ _ _ token _ ih =>
    rcases List.mem_cons.mp member with same | further
    · cases same
      exact ⟨lexeme, List.mem_cons_self, token, rfl⟩
    · obtain ⟨found, among, meant⟩ := ih further
      exact ⟨found, List.mem_cons_of_mem _ among, meant⟩
  | inclusion _ _ _ ih =>
    obtain ⟨found, among, meant⟩ := ih ((List.mem_cons.mp member).resolve_left nofun)
    exact ⟨found, List.mem_append_right _ among, meant⟩
  | other _ _ ih =>
    obtain ⟨found, among, meant⟩ := ih member
    exact ⟨found, List.mem_cons_of_mem _ among, meant⟩

end Meets

private theorem isReference_of_isSeparator {token : Token} (separator : token.isSeparator = true) :
    token.isReference = false := by cases token <;> first | rfl | cases separator

private theorem isReference_of_isWord {token : Token} (word : token.isWord = true) :
    token.isReference = false := by
  cases token <;> first | rfl | cases word

private theorem marked_plain {name gap : List Lexeme} {mark : Lexeme}
    (words : ∀ lexeme ∈ name, lexeme.token.isWord = true)
    (marked : mark.token.isReference = false) (newlines : ∀ lexeme ∈ gap, lexeme.token = .newline) :
    ∀ lexeme ∈ name ++ mark :: gap, lexeme.token.isReference = false := by
  refine List.forall_mem_append.mpr ⟨fun lexeme member => isReference_of_isWord (words lexeme member), ?_⟩
  exact List.forall_mem_cons.mpr ⟨marked, fun lexeme member => by rw [newlines lexeme member]; rfl⟩

section Spelling

variable {directives : Prop}

mutual

/-- What a tree spells is met in the order of the tree. -/
private theorem Piece.Spells.meets {piece : Piece} {lexemes : List Lexeme}
    (spells : piece.Spells directives lexemes) :
    Meets lexemes piece.stops := by
  cases spells with
  | word token => exact .other (by rw [token]; rfl) .none
  | quoted token => exact .other (by rw [token]; rfl) .none
  | reference token => exact .reference token .none
  | object opens inside closes =>
    rw [List.cons_append]
    exact .other (by rw [opens]; rfl) ((Fields.Spells.meets inside).before (by simp [closes, Token.isReference]))
  | array opens inside closes =>
    rw [List.cons_append]
    exact .other (by rw [opens]; rfl) ((Elements.Spells.meets inside).before (by simp [closes, Token.isReference]))

private theorem Pieces.Spells.meets {pieces : Pieces} {lexemes : List Lexeme}
    (spells : pieces.Spells directives lexemes) :
    Meets lexemes pieces.stops := by
  cases spells with
  | none => exact .none
  | more spelled further => exact (Piece.Spells.meets spelled).append (Pieces.Spells.meets further)

private theorem Phrase.Spells.meets {phrase : Phrase} {lexemes : List Lexeme}
    (spells : phrase.Spells directives lexemes) :
    Meets lexemes phrase.stops := by
  cases spells with
  | mk spelled further => exact (Piece.Spells.meets spelled).append (Pieces.Spells.meets further)

private theorem Field.Spells.meets {field : Field} {lexemes : List Lexeme}
    (spells : field.Spells directives lexemes) :
    Meets lexemes field.stops := by
  cases spells with
  | assign key marked newlines spelled =>
    refine (Phrase.Spells.meets spelled).behind (marked_plain key.words ?_ newlines)
    rcases marked with token | token <;> rw [token] <;> rfl
  | append key marked newlines spelled =>
    exact (Phrase.Spells.meets spelled).behind (marked_plain key.words (by rw [marked]; rfl) newlines)
  | nested key opens spelled =>
    exact (Phrase.Spells.meets spelled).behind fun lexeme member => isReference_of_isWord (key.words lexeme member)
  | @inclusion directive keyword own admitted begins directs =>
    rw [← List.append_nil (keyword :: own)]
    exact .inclusion begins directs .none

private theorem Fields.Spells.meets {fields : Fields} {lexemes : List Lexeme}
    (spells : fields.Spells directives lexemes) :
    Meets lexemes fields.stops := by
  cases spells with
  | none separators => exact .plain fun lexeme member => isReference_of_isSeparator (separators lexeme member)
  | more separators spelled further parted =>
    rw [List.append_assoc]
    exact ((Field.Spells.meets spelled).append (Fields.Spells.meets further)).behind fun lexeme member =>
      isReference_of_isSeparator (separators lexeme member)

private theorem Elements.Spells.meets {elements : Elements} {lexemes : List Lexeme}
    (spells : elements.Spells directives lexemes) : Meets lexemes elements.stops := by
  cases spells with
  | none separators => exact .plain fun lexeme member => isReference_of_isSeparator (separators lexeme member)
  | more separators spelled further parted =>
    rw [List.append_assoc]
    exact ((Phrase.Spells.meets spelled).append (Elements.Spells.meets further)).behind fun lexeme member =>
      isReference_of_isSeparator (separators lexeme member)

end

theorem Derives.meets {fields : Fields} {lexemes : List Lexeme} (derives : Derives directives fields lexemes) :
    Meets lexemes fields.stops := by
  cases derives with
  | @braced before inner behind opened closed last newlines opens inside closes separators ends =>
    have front : ∀ lexeme ∈ before ++ [opened], lexeme.token.isReference = false := by
      refine List.forall_mem_append.mpr ⟨fun lexeme member => ?_, by simp [opens, Token.isReference]⟩
      rw [newlines lexeme member]
      rfl
    have back : ∀ lexeme ∈ closed :: behind ++ [last], lexeme.token.isReference = false := by
      refine List.forall_mem_append.mpr ⟨List.forall_mem_cons.mpr ⟨by rw [closes]; rfl, fun lexeme member => ?_⟩,
        by simp [ends, Token.isReference]⟩
      exact isReference_of_isSeparator (separators lexeme member)
    have whole : before ++ opened :: inner ++ closed :: behind ++ [last] =
        before ++ [opened] ++ (inner ++ (closed :: behind ++ [last])) := by simp
    rw [whole]
    exact (inside.meets.before back).behind front
  | bare spelled ends => exact spelled.meets.before (by simp [ends, Token.isReference])

end Spelling

/-- The references of stops one behind the other. A directive stands for those of an answer to it. -/
inductive Yields (includer : Includer) : List Stop → List Reference → Prop where
  | none : Yields includer [] []
  | reference {path : KeyPath} {optional : Bool} {place : Position} {stops : List Stop} {references : List Reference}
      (id : Nat) (further : Yields includer stops references) :
      Yields includer (.reference path optional place :: stops) (⟨id, path.toList, optional, place⟩ :: references)
  | inclusion {directive : Directive} {session after : Session} {root : Root} {stops : List Stop}
      {references : List Reference} (answered : includer directive session = .ok root after)
      (further : Yields includer stops references) :
      Yields includer (.inclusion directive :: stops) (root.references ++ references)

section Running

variable {includer : Includer}

private theorem Yields.append {stops more : List Stop} {own references : List Reference}
    (yields : Yields includer stops own)
    (further : Yields includer more references) : Yields includer (stops ++ more) (own ++ references) := by
  induction yields with
  | none => exact further
  | reference id _ ih => exact .reference id ih
  | inclusion answered _ ih =>
    rw [List.append_assoc]
    exact .inclusion answered ih

private theorem join_yields {bare : Bool} {parts : Run (Made (List Value))} {stops : List Stop}
    {session after : Session}
    {made : Made Value}
    (yields : ∀ {values middle}, parts session = .ok values middle → Yields includer stops values.references)
    (ran : join bare parts session = .ok made after) : Yields includer stops made.references := by
  obtain ⟨values, middle, gathered, ran⟩ := Run.ok_of_bind ran
  obtain ⟨value, last, whole, done⟩ := Run.ok_of_bind ran
  cases done
  exact yields gathered

mutual

/-- Running a tree makes its references in the order of its stops. -/
private theorem Piece.yields {piece : Piece} {session after : Session} {made : Made Value}
    (ran : piece.run includer session = .ok made after) : Yields includer piece.stops made.references := by
  cases piece with
  | text bare content =>
    cases ran
    exact .none
  | reference path optional place =>
    cases ran
    exact .reference session.nextId .none
  | object fields =>
    obtain ⟨inside, middle, ran, done⟩ := Run.ok_of_bind ran
    cases done
    exact Fields.yields ran
  | array elements =>
    obtain ⟨inside, middle, ran, done⟩ := Run.ok_of_bind ran
    cases done
    exact Elements.yields ran
  | broken fault own => cases ran

private theorem Pieces.yields {pieces : Pieces} {session after : Session} {made : Made (List Value)}
    (ran : pieces.run includer session = .ok made after) : Yields includer pieces.stops made.references := by
  cases pieces with
  | none =>
    cases ran
    exact .none
  | more space first others =>
    obtain ⟨own, middle, firsts, ran⟩ := Run.ok_of_bind ran
    obtain ⟨further, last, rest, ran⟩ := Run.ok_of_bind ran
    cases ran
    exact (Piece.yields firsts).append (Pieces.yields rest)

private theorem Phrase.yields {phrase : Phrase} {session after : Session} {made : Made (List Value)}
    (ran : phrase.parts includer session = .ok made after) : Yields includer phrase.stops made.references := by
  cases phrase with
  | mk first others =>
    obtain ⟨own, middle, firsts, ran⟩ := Run.ok_of_bind ran
    obtain ⟨further, last, rest, ran⟩ := Run.ok_of_bind ran
    cases ran
    exact (Piece.yields firsts).append (Pieces.yields rest)

private theorem Field.yields {field : Field} {session after : Session} {made : Made Entry}
    (ran : field.run includer session = .ok made after) : Yields includer field.stops made.references := by
  cases field with
  | assign path phrase | append path phrase =>
    obtain ⟨value, middle, ran, done⟩ := Run.ok_of_bind ran
    cases done
    exact join_yields Phrase.yields ran
  | inclusion directive =>
    obtain ⟨_, middle, noted, ran⟩ := Run.ok_of_bind ran
    obtain ⟨root, last, answered, ran⟩ := Run.ok_of_bind ran
    obtain ⟨fields, _, asked, done⟩ := Run.ok_of_bind ran
    cases done
    rw [← List.append_nil root.references]
    exact .inclusion answered .none
  | broken fault own => cases ran

theorem Fields.yields {fields : Fields} {session after : Session} {made : Made (List Entry)}
    (ran : fields.run includer session = .ok made after) : Yields includer fields.stops made.references := by
  cases fields with
  | none =>
    cases ran
    exact .none
  | more first others =>
    obtain ⟨own, middle, firsts, ran⟩ := Run.ok_of_bind ran
    obtain ⟨further, last, rest, ran⟩ := Run.ok_of_bind ran
    cases ran
    exact (Field.yields firsts).append (Fields.yields rest)

private theorem Elements.yields {elements : Elements} {session after : Session} {made : Made (List Value)}
    (ran : elements.run includer session = .ok made after) : Yields includer elements.stops made.references := by
  cases elements with
  | none =>
    cases ran
    exact .none
  | more first others =>
    obtain ⟨own, middle, firsts, ran⟩ := Run.ok_of_bind ran
    obtain ⟨further, last, rest, ran⟩ := Run.ok_of_bind ran
    cases ran
    exact (join_yields Phrase.yields firsts).append (Elements.yields rest)

end

end Running
end Grammar
end Hocon
