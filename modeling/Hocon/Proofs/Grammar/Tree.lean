import Hocon.Document
import Hocon.Proofs.Grammar.Key

/-! The syntax of documents: trees, what it means to run one, and which lexemes spell it. A
text that cannot be read to its end has a tree as far as it goes, which ends in its fault. -/
namespace Hocon

namespace Grammar

mutual

/-- A piece of a value, or the fault in its place. -/
inductive Piece where
  | text (bare : Bool) (content : String)
  | reference (path : KeyPath) (optional : Bool) (place : Position)
  | object (fields : Fields)
  | array (elements : Elements)
  | broken (fault : Fault) (own : fault.Local)

/-- Pieces behind another one, with the blanks in front of each. -/
inductive Pieces where
  | none
  | more (space : String) (first : Piece) (others : Pieces)

/-- The pieces of one value. -/
inductive Phrase where
  | mk (first : Piece) (others : Pieces)

inductive Field where
  | assign (path : KeyPath) (phrase : Phrase)
  | append (path : KeyPath) (phrase : Phrase)
  | inclusion (directive : Directive)
  | broken (fault : Fault) (own : fault.Local)

inductive Fields where
  | none
  | more (first : Field) (others : Fields)

inductive Elements where
  | none
  | more (first : Phrase) (others : Elements)

end

/-- A value, or several, with the references in them. -/
structure Made (α : Type) where
  value : α
  references : List Reference

def Piece.isBare : Piece → Bool
  | .text bare _ => bare
  | _ => false

def Phrase.isBare : Phrase → Bool
  | .mk first _ => first.isBare

/-- One value from its parts. -/
def join (bare : Bool) (parts : Run (Made (List Value))) : Run (Made Value) := do
  let made ← parts
  let value ← Run.ofExcept (joinPieces bare made.value)
  return ⟨value, made.references⟩

mutual

/-- Run a tree: number its references and hand over its directives as they come. -/
def Piece.run (includer : Includer) : Piece → Run (Made Value)
  | .text _ content => return ⟨.text content, []⟩
  | .reference path optional place => do
    let id ← Run.freshId
    let target := ⟨id, path.toList, optional, place⟩
    return ⟨.reference target, [target]⟩
  | .object fields => do
    let made ← fields.run includer
    return ⟨.object (Entry.build made.value), made.references⟩
  | .array elements => do
    let made ← elements.run includer
    return ⟨.array made.value, made.references⟩
  | .broken fault _ => throw fault

def Pieces.run (includer : Includer) : Pieces → Run (Made (List Value))
  | .none => return ⟨[], []⟩
  | .more space first others => do
    let made ← first.run includer
    let further ← others.run includer
    let blank := if space != "" then [Value.text space] else []
    return ⟨blank ++ made.value :: further.value, made.references ++ further.references⟩

/-- The parts of a value before they are joined. -/
def Phrase.parts (includer : Includer) : Phrase → Run (Made (List Value))
  | .mk first others => do
    let made ← first.run includer
    let further ← others.run includer
    return ⟨made.value :: further.value, made.references ++ further.references⟩

def Field.run (includer : Includer) : Field → Run (Made Entry)
  | .assign path phrase => do
    let made ← join phrase.isBare (phrase.parts includer)
    return ⟨.assign path made.value, made.references⟩
  | .append path phrase => do
    let made ← join phrase.isBare (phrase.parts includer)
    return ⟨.append path made.value, made.references⟩
  | .inclusion directive => do
    Run.note (.asked directive)
    let root ← includer directive
    let fields ← Run.ofExcept root.value.asObject
    return ⟨.included fields, root.references⟩
  | .broken fault _ => throw fault

def Fields.run (includer : Includer) : Fields → Run (Made (List Entry))
  | .none => return ⟨[], []⟩
  | .more first others => do
    let made ← first.run includer
    let further ← others.run includer
    return ⟨made.value :: further.value, made.references ++ further.references⟩

def Elements.run (includer : Includer) : Elements → Run (Made (List Value))
  | .none => return ⟨[], []⟩
  | .more first others => do
    let made ← join first.isBare (first.parts includer)
    let further ← others.run includer
    return ⟨made.value :: further.value, made.references ++ further.references⟩

end

def Phrase.run (includer : Includer) (phrase : Phrase) : Run (Made Value) :=
  join phrase.isBare (phrase.parts includer)

/-- The document of these fields. -/
def Fields.document (includer : Includer) (fields : Fields) : Run Document := do
  let made ← fields.run includer
  return ⟨Entry.build made.value, made.references⟩

/-- These fields, and a fault behind them. -/
def Fields.cut (fault : Fault) (own : fault.Local) : Fields → Fields
  | .none => .more (.broken fault own) .none
  | .more first others => .more first (others.cut fault own)

private theorem throw_bind {α β : Type} (fault : Fault) (next : α → Run β) :
    ((throw fault : Run α) >>= next) = throw fault := rfl

theorem Fields.run_cut (includer : Includer) (fault : Fault) (own : fault.Local) (fields : Fields) :
    (fields.cut fault own).run includer = fields.run includer >>= fun _ => throw fault := by
  cases fields with
  | none => simp only [cut, run, Field.run, throw_bind, pure_bind]
  | more first others =>
    have ih := run_cut includer fault own others
    simp only [cut, run, ih, bind_assoc, throw_bind, pure_bind]

/-- Lexemes that are read as a directive behind its keyword, whatever follows them. -/
def Directs (lexemes : List Lexeme) (directive : Directive) : Prop :=
  ∀ rest, (Stream.prepend lexemes rest).opensDirective = true ∧
    ∃ within, (Stream.prepend lexemes rest).directive = .ok ⟨directive, rest, within⟩

section Spelling

variable (directives : Prop)

mutual

/-- A piece is a word or a quoted text, a reference, fields between braces, or elements between
brackets. -/
inductive Piece.Spells : Piece → List Lexeme → Prop where
  | word {lexeme : Lexeme} {content : String} (token : lexeme.token = .unquoted content) :
      Piece.Spells (.text true content) [lexeme]
  | quoted {lexeme : Lexeme} {content : String} (token : lexeme.token = .quoted content) :
      Piece.Spells (.text false content) [lexeme]
  | reference {lexeme : Lexeme} {path : KeyPath} {optional : Bool}
      (token : lexeme.token = .reference path optional) :
      Piece.Spells (.reference path optional lexeme.start) [lexeme]
  | object {opened closed : Lexeme} {fields : Fields} {inner : List Lexeme}
      (opens : opened.token = .leftBrace) (inside : fields.Spells inner)
      (closes : closed.token = .rightBrace) : Piece.Spells (.object fields) (opened :: inner ++ [closed])
  | array {opened closed : Lexeme} {elements : Elements} {inner : List Lexeme}
      (opens : opened.token = .leftBracket) (inside : elements.Spells inner)
      (closes : closed.token = .rightBracket) : Piece.Spells (.array elements) (opened :: inner ++ [closed])

inductive Pieces.Spells : Pieces → List Lexeme → Prop where
  | none : Pieces.Spells .none []
  | more {first : Piece} {others : Pieces} {lexeme : Lexeme} {own behind : List Lexeme}
      (spelled : first.Spells (lexeme :: own)) (further : others.Spells behind) :
      Pieces.Spells (.more lexeme.space first others) (lexeme :: own ++ behind)

/-- A value is one piece or more. Separators, what closes, and the end of the text start no piece, so
where a value stands in a document it takes all the pieces that there are. -/
inductive Phrase.Spells : Phrase → List Lexeme → Prop where
  | mk {first : Piece} {others : Pieces} {own behind : List Lexeme}
      (spelled : first.Spells own) (further : others.Spells behind) :
      Phrase.Spells (.mk first others) (own ++ behind)

/-- A field is a key, a mark, newlines and a value, or a key and a value that begins with a
brace. Neither a mark nor a brace is a word, so the key takes all the words there are. Where
directives are admitted, a field may be one. -/
inductive Field.Spells : Field → List Lexeme → Prop where
  | assign {path : KeyPath} {phrase : Phrase} {name gap own : List Lexeme} {mark : Lexeme}
      (key : Key name path) (marked : mark.token = .colon ∨ mark.token = .equals)
      (newlines : ∀ lexeme ∈ gap, lexeme.token = .newline) (spelled : phrase.Spells own) :
      Field.Spells (.assign path phrase) (name ++ mark :: gap ++ own)
  | append {path : KeyPath} {phrase : Phrase} {name gap own : List Lexeme} {mark : Lexeme}
      (key : Key name path) (marked : mark.token = .plusEquals)
      (newlines : ∀ lexeme ∈ gap, lexeme.token = .newline) (spelled : phrase.Spells own) :
      Field.Spells (.append path phrase) (name ++ mark :: gap ++ own)
  | nested {path : KeyPath} {phrase : Phrase} {name own : List Lexeme} {brace : Lexeme}
      (key : Key name path) (opens : brace.token = .leftBrace)
      (spelled : phrase.Spells (brace :: own)) : Field.Spells (.assign path phrase) (name ++ brace :: own)
  | inclusion {directive : Directive} {keyword : Lexeme} {own : List Lexeme} (admitted : directives)
      (begins : keyword.token = .unquoted Directive.keyword) (directs : Directs own directive) :
      Field.Spells (.inclusion directive) (keyword :: own)

/-- Fields stand between separators, at least one between two of them. -/
inductive Fields.Spells : Fields → List Lexeme → Prop where
  | none {gap : List Lexeme} (separators : ∀ lexeme ∈ gap, lexeme.token.isSeparator = true) :
      Fields.Spells .none gap
  | more {first : Field} {others : Fields} {gap own behind : List Lexeme}
      (separators : ∀ lexeme ∈ gap, lexeme.token.isSeparator = true)
      (spelled : first.Spells own) (further : others.Spells behind)
      (parted : ∀ lexeme ∈ behind.head?, lexeme.token.isSeparator = true) :
      Fields.Spells (.more first others) (gap ++ own ++ behind)

/-- Elements stand between separators as fields do. -/
inductive Elements.Spells : Elements → List Lexeme → Prop where
  | none {gap : List Lexeme} (separators : ∀ lexeme ∈ gap, lexeme.token.isSeparator = true) :
      Elements.Spells .none gap
  | more {first : Phrase} {others : Elements} {gap own behind : List Lexeme}
      (separators : ∀ lexeme ∈ gap, lexeme.token.isSeparator = true)
      (spelled : first.Spells own) (further : others.Spells behind)
      (parted : ∀ lexeme ∈ behind.head?, lexeme.token.isSeparator = true) :
      Elements.Spells (.more first others) (gap ++ own ++ behind)

end

end Spelling

variable {directives : Prop} {lexemes : List Lexeme}

/-- A document is fields up to the end of the text. They may stand between braces, with newlines
before and separators behind. -/
inductive Derives (directives : Prop) : Fields → List Lexeme → Prop where
  | braced {fields : Fields} {before inner behind : List Lexeme} {opened closed last : Lexeme}
      (newlines : ∀ lexeme ∈ before, lexeme.token = .newline) (opens : opened.token = .leftBrace)
      (inside : fields.Spells directives inner) (closes : closed.token = .rightBrace)
      (separators : ∀ lexeme ∈ behind, lexeme.token.isSeparator = true)
      (ends : last.token = .endOfText) :
      Derives directives fields (before ++ opened :: inner ++ closed :: behind ++ [last])
  | bare {fields : Fields} {inner : List Lexeme} {last : Lexeme}
      (spelled : fields.Spells directives inner) (ends : last.token = .endOfText) :
      Derives directives fields (inner ++ [last])

theorem Piece.Spells.begins {piece : Piece} (spells : piece.Spells directives lexemes) :
    ∃ lexeme others, lexemes = lexeme :: others ∧ lexeme.token.startsValue = true ∧
      piece.isBare = lexeme.token.isBare := by
  cases spells with
  | word token => exact ⟨_, _, rfl, by rw [token]; rfl, by rw [token]; rfl⟩
  | quoted token => exact ⟨_, _, rfl, by rw [token]; rfl, by rw [token]; rfl⟩
  | reference token => exact ⟨_, _, rfl, by rw [token]; rfl, by rw [token]; rfl⟩
  | object opens inside closes => exact ⟨_, _, rfl, by rw [opens]; rfl, by rw [opens]; rfl⟩
  | array opens inside closes => exact ⟨_, _, rfl, by rw [opens]; rfl, by rw [opens]; rfl⟩

theorem Phrase.Spells.begins {phrase : Phrase} (spells : phrase.Spells directives lexemes) :
    ∃ lexeme others, lexemes = lexeme :: others ∧ lexeme.token.startsValue = true ∧
      phrase.isBare = lexeme.token.isBare := by
  obtain ⟨spelled, _⟩ := spells
  obtain ⟨lexeme, others, rfl, starts, bare⟩ := spelled.begins
  exact ⟨lexeme, _, rfl, starts, bare⟩

theorem Key.begins {path : KeyPath} (key : Key lexemes path) :
    ∃ lexeme others, lexemes = lexeme :: others ∧ lexeme.token.isWord = true := by
  obtain ⟨lexeme, others, rfl⟩ := List.exists_cons_of_ne_nil key.begun
  exact ⟨lexeme, others, rfl, key.words lexeme List.mem_cons_self⟩

theorem Field.Spells.begins {field : Field} (spells : field.Spells directives lexemes) :
    ∃ lexeme others, lexemes = lexeme :: others ∧ lexeme.token.isWord = true := by
  cases spells with
  | assign key marked newlines spelled | append key marked newlines spelled | nested key opens spelled =>
    obtain ⟨lexeme, others, rfl, word⟩ := key.begins
    exact ⟨lexeme, _, rfl, word⟩
  | inclusion admitted begins directs => exact ⟨_, _, rfl, by rw [begins]; rfl⟩

/-- Fields begin with a separator or with a key. -/
theorem Fields.Spells.begins {fields : Fields} (spells : fields.Spells directives lexemes) :
    ∀ lexeme ∈ lexemes.head?, lexeme.token.isSeparator = true ∨ lexeme.token.isWord = true := by
  intro lexeme head
  cases spells with
  | none separators => exact .inl (separators lexeme (List.mem_of_mem_head? head))
  | @more first others gap own behind separators spelled further parted =>
    cases gap with
    | cons begin gap =>
      have same : begin = lexeme := by simpa using head
      exact .inl (separators lexeme (same ▸ List.mem_cons_self))
    | nil =>
      obtain ⟨begin, own, rfl, word⟩ := spelled.begins
      have same : begin = lexeme := by simpa using head
      exact .inr (same ▸ word)

/-- More separators may stand in front of fields. -/
theorem Fields.Spells.behind {fields : Fields} {gap : List Lexeme}
    (spells : fields.Spells directives lexemes) (added : ∀ lexeme ∈ gap, lexeme.token.isSeparator = true) :
    fields.Spells directives (gap ++ lexemes) := by
  cases spells with
  | none separators => exact .none (List.forall_mem_append.mpr ⟨added, separators⟩)
  | @more first others inner own behind separators spelled further parted =>
    have whole : gap ++ (inner ++ own ++ behind) = (gap ++ inner) ++ own ++ behind := by simp
    rw [whole]
    exact .more (List.forall_mem_append.mpr ⟨added, separators⟩) spelled further parted

theorem Elements.Spells.begins {elements : Elements} (spells : elements.Spells directives lexemes) :
    ∀ lexeme ∈ lexemes.head?, lexeme.token.isSeparator = true ∨ lexeme.token.startsValue = true := by
  intro lexeme head
  cases spells with
  | none separators => exact .inl (separators lexeme (List.mem_of_mem_head? head))
  | @more first others gap own behind separators spelled further parted =>
    cases gap with
    | cons begin gap =>
      have same : begin = lexeme := by simpa using head
      exact .inl (separators lexeme (same ▸ List.mem_cons_self))
    | nil =>
      obtain ⟨begin, own, rfl, starts, _⟩ := spelled.begins
      have same : begin = lexeme := by simpa using head
      exact .inr (same ▸ starts)

end Grammar
end Hocon
