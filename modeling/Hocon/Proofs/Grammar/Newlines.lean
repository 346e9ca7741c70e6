import Hocon.Proofs.Grammar.Directing

namespace Hocon

/-- What counts of a lexeme. Newlines are all alike. -/
def Lexeme.core (lexeme : Lexeme) : Lexeme := if lexeme.token = .newline then ⟨"", .origin, .newline⟩ else lexeme

namespace Lexeme

variable {lexeme other : Lexeme} {lexemes others : List Lexeme}

@[simp] theorem core_token (lexeme : Lexeme) : lexeme.core.token = lexeme.token := by
  unfold core
  split
  case isTrue newline => rw [newline]
  case isFalse => rfl

private theorem token_of_core (same : other.core = lexeme.core) : other.token = lexeme.token := by
  rw [← other.core_token, same, core_token]

private theorem eq_of_core (same : other.core = lexeme.core) (solid : lexeme.token ≠ .newline) :
    other = lexeme := by
  have again : other.token ≠ .newline := token_of_core same ▸ solid
  rwa [core, core, if_neg solid, if_neg again] at same

private theorem eq_of_cores (same : others.map core = lexemes.map core)
    (solid : ∀ lexeme ∈ lexemes, lexeme.token ≠ .newline) : others = lexemes := by
  induction lexemes generalizing others with
  | nil => exact List.map_eq_nil_iff.mp same
  | cons lexeme lexemes ih =>
    obtain ⟨first, solid⟩ := List.forall_mem_cons.mp solid
    obtain ⟨other, others, rfl, alike, same⟩ := List.map_eq_cons_iff.mp same
    rw [eq_of_core alike first, ih same solid]

private theorem forall_of_cores (kind : Token → Prop) (same : others.map core = lexemes.map core)
    (all : ∀ lexeme ∈ lexemes, kind lexeme.token) : ∀ other ∈ others, kind other.token := by
  intro other member
  obtain ⟨lexeme, inside, alike⟩ := List.mem_map.mp (same ▸ List.mem_map_of_mem member)
  exact token_of_core alike.symm ▸ all lexeme inside

private theorem head_of_cores (kind : Token → Prop) (same : others.map core = lexemes.map core)
    (first : ∀ lexeme ∈ lexemes.head?, kind lexeme.token) : ∀ other ∈ others.head?, kind other.token := by
  intro other head
  cases others with
  | nil => cases head
  | cons begin others =>
    obtain rfl : begin = other := by simpa using head
    obtain ⟨lexeme, lexemes, rfl, alike, _⟩ := List.map_eq_cons_iff.mp same.symm
    exact token_of_core alike ▸ first lexeme rfl

end Lexeme

namespace Grammar

variable {directives : Prop}

private theorem words_solid {lexemes : List Lexeme} (words : ∀ lexeme ∈ lexemes, lexeme.token.isWord = true) :
    ∀ lexeme ∈ lexemes, lexeme.token ≠ .newline := by
  intro lexeme member newline
  cases newline ▸ words lexeme member

/-- Only the newlines and the value behind a mark may change. -/
private theorem marked_of_cores {name gap own others : List Lexeme} {mark : Lexeme}
    (words : ∀ lexeme ∈ name, lexeme.token.isWord = true) (solid : mark.token ≠ .newline)
    (newlines : ∀ lexeme ∈ gap, lexeme.token = .newline)
    (same : others.map Lexeme.core = (name ++ mark :: gap ++ own).map Lexeme.core) :
    ∃ other value, others = name ++ mark :: other ++ value ∧ (∀ lexeme ∈ other, lexeme.token = .newline) ∧
      value.map Lexeme.core = own.map Lexeme.core := by
  simp only [List.map_append, List.map_cons, List.append_assoc, List.cons_append] at same
  obtain ⟨named, behind, rfl, front, marked⟩ := List.map_eq_append_iff.mp same
  obtain ⟨image, behind, rfl, alike, further⟩ := List.map_eq_cons_iff.mp marked
  obtain ⟨other, value, rfl, between, left⟩ := List.map_eq_append_iff.mp further
  obtain rfl := Lexeme.eq_of_cores front (words_solid words)
  obtain rfl := Lexeme.eq_of_core alike solid
  exact ⟨other, value, by simp, Lexeme.forall_of_cores (· = .newline) between newlines, left⟩

mutual

private theorem Piece.Spells.of_cores {piece : Piece} {lexemes others : List Lexeme}
    (spells : piece.Spells directives lexemes) (same : others.map Lexeme.core = lexemes.map Lexeme.core) :
    piece.Spells directives others := by
  cases spells with
  | word token =>
    rw [Lexeme.eq_of_cores same (by simp [token])]
    exact .word token
  | quoted token =>
    rw [Lexeme.eq_of_cores same (by simp [token])]
    exact .quoted token
  | reference token =>
    rw [Lexeme.eq_of_cores same (by simp [token])]
    exact .reference token
  | object opens inside closes =>
    rw [List.cons_append, List.map_cons, List.map_append] at same
    obtain ⟨opened, more, rfl, begins, same⟩ := List.map_eq_cons_iff.mp same
    obtain ⟨inner, closed, rfl, within, ends⟩ := List.map_eq_append_iff.mp same
    rw [Lexeme.eq_of_core begins (by simp [opens]), Lexeme.eq_of_cores ends (by simp [closes])]
    exact .object opens (Fields.Spells.of_cores inside within) closes
  | array opens inside closes =>
    rw [List.cons_append, List.map_cons, List.map_append] at same
    obtain ⟨opened, more, rfl, begins, same⟩ := List.map_eq_cons_iff.mp same
    obtain ⟨inner, closed, rfl, within, ends⟩ := List.map_eq_append_iff.mp same
    rw [Lexeme.eq_of_core begins (by simp [opens]), Lexeme.eq_of_cores ends (by simp [closes])]
    exact .array opens (Elements.Spells.of_cores inside within) closes

private theorem Pieces.Spells.of_cores {pieces : Pieces} {lexemes others : List Lexeme}
    (spells : pieces.Spells directives lexemes) (same : others.map Lexeme.core = lexemes.map Lexeme.core) :
    pieces.Spells directives others := by
  cases spells with
  | none =>
    obtain rfl := List.map_eq_nil_iff.mp same
    exact .none
  | @more first rest lexeme own behind spelled further =>
    rw [List.map_append] at same
    obtain ⟨front, left, rfl, near, far⟩ := List.map_eq_append_iff.mp same
    obtain ⟨_, _, begins, starts, _⟩ := spelled.begins
    obtain ⟨rfl, rfl⟩ := List.cons.inj begins
    obtain ⟨image, others, rfl, alike, near⟩ := List.map_eq_cons_iff.mp near
    obtain rfl : image = lexeme := Lexeme.eq_of_core alike fun newline => by cases newline ▸ starts
    exact .more (spelled.of_cores (by simp [near])) (further.of_cores far)

private theorem Phrase.Spells.of_cores {phrase : Phrase} {lexemes others : List Lexeme}
    (spells : phrase.Spells directives lexemes) (same : others.map Lexeme.core = lexemes.map Lexeme.core) :
    phrase.Spells directives others := by
  cases spells with
  | mk spelled further =>
    rw [List.map_append] at same
    obtain ⟨front, left, rfl, near, far⟩ := List.map_eq_append_iff.mp same
    exact .mk (spelled.of_cores near) (further.of_cores far)

private theorem Field.Spells.of_cores {field : Field} {lexemes others : List Lexeme}
    (spells : field.Spells directives lexemes) (same : others.map Lexeme.core = lexemes.map Lexeme.core) :
    field.Spells directives others := by
  cases spells with
  | @assign path phrase name gap own mark key marked newlines spelled =>
    have solid : mark.token ≠ .newline := by rcases marked with token | token <;> simp [token]
    obtain ⟨other, value, rfl, between, left⟩ := marked_of_cores key.words solid newlines same
    exact .assign key marked between (spelled.of_cores left)
  | @append path phrase name gap own mark key marked newlines spelled =>
    obtain ⟨other, value, rfl, between, left⟩ := marked_of_cores key.words (by simp [marked]) newlines same
    exact .append key marked between (spelled.of_cores left)
  | @nested path phrase name own brace key opens spelled =>
    rw [List.map_append] at same
    obtain ⟨named, value, rfl, words, within⟩ := List.map_eq_append_iff.mp same
    obtain rfl := Lexeme.eq_of_cores words (words_solid key.words)
    obtain ⟨image, value, rfl, alike, _⟩ := List.map_eq_cons_iff.mp within
    obtain rfl := Lexeme.eq_of_core alike (by simp [opens])
    exact .nested key opens (spelled.of_cores within)
  | @inclusion directive keyword own admitted begins directs =>
    have solid : ∀ lexeme ∈ keyword :: own, lexeme.token ≠ .newline :=
      List.forall_mem_cons.mpr ⟨by simp [begins], words_solid directs.words.2⟩
    rw [Lexeme.eq_of_cores same solid]
    exact .inclusion admitted begins directs

private theorem Fields.Spells.of_cores {fields : Fields} {lexemes others : List Lexeme}
    (spells : fields.Spells directives lexemes) (same : others.map Lexeme.core = lexemes.map Lexeme.core) :
    fields.Spells directives others := by
  cases spells with
  | none separators => exact .none (Lexeme.forall_of_cores (·.isSeparator = true) same separators)
  | more separators spelled further parted =>
    rw [List.map_append, List.map_append] at same
    obtain ⟨front, behind, rfl, near, far⟩ := List.map_eq_append_iff.mp same
    obtain ⟨gap, own, rfl, between, inside⟩ := List.map_eq_append_iff.mp near
    exact .more (Lexeme.forall_of_cores (·.isSeparator = true) between separators) (spelled.of_cores inside)
      (further.of_cores far) (Lexeme.head_of_cores (·.isSeparator = true) far parted)

private theorem Elements.Spells.of_cores {elements : Elements} {lexemes others : List Lexeme}
    (spells : elements.Spells directives lexemes) (same : others.map Lexeme.core = lexemes.map Lexeme.core) :
    elements.Spells directives others := by
  cases spells with
  | none separators => exact .none (Lexeme.forall_of_cores (·.isSeparator = true) same separators)
  | more separators spelled further parted =>
    rw [List.map_append, List.map_append] at same
    obtain ⟨front, behind, rfl, near, far⟩ := List.map_eq_append_iff.mp same
    obtain ⟨gap, own, rfl, between, inside⟩ := List.map_eq_append_iff.mp near
    exact .more (Lexeme.forall_of_cores (·.isSeparator = true) between separators) (spelled.of_cores inside)
      (further.of_cores far) (Lexeme.head_of_cores (·.isSeparator = true) far parted)

end

/-- A document is of the same tree whatever newlines look like. -/
theorem Derives.of_cores {fields : Fields} {lexemes others : List Lexeme}
    (derives : Derives directives fields lexemes) (same : others.map Lexeme.core = lexemes.map Lexeme.core) :
    Derives directives fields others := by
  cases derives with
  | @braced before inner behind opened closed last newlines opens inside closes separators ends =>
    simp only [List.map_append, List.map_cons, List.append_assoc, List.cons_append] at same
    obtain ⟨gap, rest, rfl, front, same⟩ := List.map_eq_append_iff.mp same
    obtain ⟨brace, rest, rfl, begins, same⟩ := List.map_eq_cons_iff.mp same
    obtain ⟨own, rest, rfl, within, same⟩ := List.map_eq_append_iff.mp same
    obtain ⟨closer, rest, rfl, closing, same⟩ := List.map_eq_cons_iff.mp same
    obtain ⟨more, final, rfl, after, same⟩ := List.map_eq_append_iff.mp same
    obtain rfl : final = [last] := Lexeme.eq_of_cores same (by simp [ends])
    have whole : gap ++ brace :: (own ++ closer :: (more ++ [last])) =
        gap ++ brace :: own ++ closer :: more ++ [last] := by simp
    rw [whole]
    exact .braced (Lexeme.forall_of_cores (· = .newline) front newlines) (Lexeme.token_of_core begins ▸ opens)
      (inside.of_cores within) (Lexeme.token_of_core closing ▸ closes)
      (Lexeme.forall_of_cores (·.isSeparator = true) after separators) ends
  | bare spelled ends =>
    rw [List.map_append] at same
    obtain ⟨inner, final, rfl, within, same⟩ := List.map_eq_append_iff.mp same
    obtain rfl := Lexeme.eq_of_cores same (by simp [ends])
    exact .bare (spelled.of_cores within) ends

end Grammar
end Hocon
