import Hocon.Stream

/-! Texts by their tokens. Where a token stands and what blanks precede it is left aside:
a stream spells a list of tokens, and a text lexes to one wherever it is read. -/
namespace Hocon

/-- A stream that goes through these tokens to the end of its text. -/
inductive Stream.Spells : Stream → List Token → Prop where
  | ended {last : Lexeme} (ended : last.token = .endOfText) : Spells (.ended last) []
  | more {lexeme : Lexeme} {next : Stream} {tokens : List Token} (further : Spells next tokens) :
      Spells (.more lexeme next) (lexeme.token :: tokens)

namespace Stream

theorem Spells.token_eq {stream : Stream} {tokens : List Token} (spells : stream.Spells tokens) :
    stream.token = tokens.headD .endOfText := by
  cases spells with
  | ended finished => exact finished
  | more further => rfl

theorem Spells.exists_more {stream : Stream} {token : Token} {tokens : List Token}
    (spells : stream.Spells (token :: tokens)) :
    ∃ lexeme next, stream = .more lexeme next ∧ lexeme.token = token ∧ next.Spells tokens := by
  cases spells with
  | @more lexeme next _ further => exact ⟨lexeme, next, rfl, rfl, further⟩

private theorem Spells.unique {stream : Stream} {tokens others : List Token} (first : stream.Spells tokens)
    (second : stream.Spells others) : tokens = others := by
  induction first generalizing others with
  | ended =>
    cases second
    rfl
  | more _ ih =>
    cases second with
    | more further => rw [ih further]

/-- Tokens at the front that are dropped, up to one that is kept or the end. -/
theorem Spells.dropWhile_eq {drop : Token → Bool} {gap tokens : List Token} {stream : Stream}
    (spells : stream.Spells (gap ++ tokens)) (dropped : ∀ token ∈ gap, drop token = true)
    (kept : ∀ token ∈ tokens.head?, drop token = false) :
    ∃ rest within, stream.dropWhile drop = .ok ⟨rest, within⟩ ∧ rest.Spells tokens := by
  induction gap generalizing stream with
  | nil =>
    refine ⟨stream, length_lt_succ _, ?_, spells⟩
    cases spells with
    | ended finished => rfl
    | @more lexeme next _ further => simp [Stream.dropWhile, kept lexeme.token rfl]
  | cons token gap ih =>
    obtain ⟨lexeme, next, rfl, rfl, further⟩ := spells.exists_more
    obtain ⟨rest, within, done, left⟩ := ih further
      (fun token member => dropped token (List.mem_cons_of_mem _ member))
    refine ⟨rest, lt_succ_of_lt within, ?_, left⟩
    simp [Stream.dropWhile, dropped lexeme.token List.mem_cons_self, done, Except.map]

/-- Reading from a cursor in one equation: only what the first step met counts, and where
reading stands after it. -/
theorem read_eq (cursor : Cursor) :
    Stream.read cursor =
      match cursor.read.scan.outcome with
      | .error fault => .error fault
      | .ok .endOfText => .ok (.ended ⟨cursor.read.space, cursor.read.start, .endOfText⟩)
      | .ok token =>
        match Stream.read cursor.read.scan.after with
        | .error fault => .ok (.broken ⟨cursor.read.space, cursor.read.start, token⟩ fault)
        | .ok next => .ok (.more ⟨cursor.read.space, cursor.read.start, token⟩ next) := by
  rw [Stream.read]
  split
  case h_1 ended =>
    simp only [Reading.isEnd] at ended
    split at ended
    case h_1 scanned => simp only [scanned]
    case h_2 => cases ended
  case h_2 going =>
    simp only [Reading.isEnd] at going
    split at going
    case h_1 => cases going
    case h_2 other =>
      cases scanned : cursor.read.scan.outcome with
      | error fault => rfl
      | ok token => cases token <;> first | rfl | exact absurd scanned other

theorem read_more {cursor after : Cursor} {token : Token} {next : Stream}
    (scanned : cursor.read.scan = ⟨.ok token, after⟩) (proper : token ≠ .endOfText)
    (further : Stream.read after = .ok next) :
    Stream.read cursor = .ok (.more ⟨cursor.read.space, cursor.read.start, token⟩ next) := by
  rw [read_eq]
  simp only [scanned, further]

/-- A stream that goes on begins with what was met first. -/
theorem scan_of_more {cursor : Cursor} {lexeme : Lexeme} {next : Stream}
    (read : Stream.read cursor = .ok (.more lexeme next)) :
    cursor.read.scan.outcome = .ok lexeme.token ∧ lexeme.token ≠ .endOfText ∧
      lexeme = ⟨cursor.read.space, cursor.read.start, lexeme.token⟩ ∧ Stream.read cursor.read.scan.after = .ok next := by
  rw [read_eq] at read
  cases scanned : cursor.read.scan.outcome with
  | error fault => simp [scanned] at read
  | ok token =>
    by_cases ended : token = .endOfText
    · subst ended
      simp [scanned] at read
    · cases further : Stream.read cursor.read.scan.after with
      | error fault => simp [scanned, further] at read
      | ok stream =>
        simp only [scanned, further, Except.ok.injEq, Stream.more.injEq] at read
        obtain ⟨rfl, rfl⟩ := read
        exact ⟨rfl, ended, rfl, rfl⟩

theorem scan_of_ended {cursor : Cursor} {last : Lexeme} (read : Stream.read cursor = .ok (.ended last)) :
    cursor.read.scan.outcome = .ok .endOfText ∧ last = ⟨cursor.read.space, cursor.read.start, .endOfText⟩ := by
  rw [read_eq] at read
  cases scanned : cursor.read.scan.outcome with
  | error fault => simp [scanned] at read
  | ok token =>
    by_cases ended : token = .endOfText
    · subst ended
      simp only [scanned, Except.ok.injEq, Stream.ended.injEq] at read
      exact ⟨rfl, read.symm⟩
    · cases further : Stream.read cursor.read.scan.after <;> simp [scanned, further] at read

/-- Streams from places where the same is met spell the same. -/
private theorem spells_of_scan_eq {first second : Cursor} {stream : Stream} {tokens : List Token}
    (same : first.read.scan = second.read.scan) (read : Stream.read first = .ok stream)
    (spells : stream.Spells tokens) :
    ∃ other, Stream.read second = .ok other ∧ other.Spells tokens := by
  rw [read_eq, same] at read
  rw [read_eq]
  cases scanned : second.read.scan.outcome with
  | error fault => simp [scanned] at read
  | ok token =>
    by_cases ended : token = .endOfText
    · subst ended
      simp only [scanned, Except.ok.injEq] at read ⊢
      subst read
      cases spells with
      | ended => exact ⟨_, rfl, .ended rfl⟩
    · cases further : Stream.read second.read.scan.after with
      | error fault =>
        simp only [scanned, further, Except.ok.injEq] at read
        subst read
        cases spells
      | ok next =>
        simp only [scanned, further, Except.ok.injEq] at read ⊢
        subst read
        cases spells with
        | more onward => exact ⟨_, rfl, .more onward⟩

end Stream

/-- A text that reads as these tokens wherever it stands. -/
def Lexes (text : List Char) (tokens : List Token) : Prop :=
  ∀ place, ∃ stream, Stream.read ⟨place, text⟩ = .ok stream ∧ stream.Spells tokens

namespace Lexes

variable {text rest : List Char} {tokens : List Token} {token : Token}

theorem nil : Lexes [] [] := by
  intro place
  exact ⟨_, Stream.read_eq _, .ended rfl⟩

/-- A text has one list of tokens at most. -/
theorem unique {others : List Token} (first : Lexes text tokens) (second : Lexes text others) :
    tokens = others := by
  obtain ⟨stream, read, spells⟩ := first .origin
  obtain ⟨other, reread, respells⟩ := second .origin
  obtain rfl := Except.ok.inj (read.symm.trans reread)
  exact spells.unique respells

/-- Text that begins with neither a blank nor a comment is not skipped. -/
theorem skip_eq {place : Position} {c : Char} (solid : Text.isBlank c = false)
    (code : startsComment (c :: text) = false) :
    (⟨place, c :: text⟩ : Cursor).skip = ⟨place, c :: text⟩ := by
  simp [Cursor.skip, Cursor.past, Cursor.blanks, Cursor.remark, solid, comment, code]

private theorem cons {c : Char} (solid : Text.isBlank c = false) (code : startsComment (c :: text) = false)
    (proper : token ≠ .endOfText)
    (scanned : ∀ place, ∃ after, Cursor.token place (c :: text) = ⟨.ok token, ⟨after, rest⟩⟩)
    (further : Lexes rest tokens) : Lexes (c :: text) (token :: tokens) := by
  intro place
  obtain ⟨after, scanned⟩ := scanned place
  obtain ⟨next, read, spells⟩ := further after
  refine ⟨_, Stream.read_more ?_ proper read, .more spells⟩
  simp only [Cursor.read, skip_eq solid code, scanned]

/-- A blank in front belongs to the token behind it. -/
theorem blank {c : Char} (blank : Text.isBlank c = true) (further : Lexes text tokens) :
    Lexes (c :: text) tokens := by
  intro place
  obtain ⟨stream, read, spells⟩ := further (place.after c)
  refine Stream.spells_of_scan_eq ?_ read spells
  simp [Cursor.read, Cursor.skip, Cursor.past, Cursor.blanks, Cursor.remark, blank]

theorem blanks {space : List Char} (blank : ∀ c ∈ space, Text.isBlank c = true)
    (further : Lexes text tokens) : Lexes (space ++ text) tokens := by
  induction space with
  | nil => exact further
  | cons c more ih =>
    exact .blank (blank c List.mem_cons_self)
      (ih fun d member => blank d (List.mem_cons_of_mem c member))

theorem symbol {c : Char} (known : Cursor.symbol? c = some token) (further : Lexes text tokens) :
    Lexes (c :: text) (token :: tokens) := by
  unfold Cursor.symbol? at known
  split at known
  case h_9 => cases known
  all_goals
    cases known
    exact .cons rfl rfl (by simp) (fun place => ⟨place.after _, rfl⟩) further

/-- Text that a word or a quoted text may stand before: if it does not end there, a mark
follows that is no quote. -/
def Bounded (text : List Char) : Prop := ∀ c ∈ text.head?, isForbidden c = true ∧ c ≠ '"'

theorem bounded_of_symbol {c : Char} (known : Cursor.symbol? c = some token) (text : List Char) :
    Bounded (c :: text) := by
  rintro d ⟨⟩
  unfold Cursor.symbol? at known
  split at known
  case h_9 => cases known
  all_goals exact ⟨by decide, by decide⟩

/-- A character that has a place in words, and begins no comment. -/
def Plain (c : Char) : Prop := isForbidden c = false ∧ c ≠ '/'

instance (c : Char) : Decidable (Plain c) := inferInstanceAs (Decidable (_ ∧ _))

private theorem Plain.code {c : Char} (plain : Plain c) (text : List Char) :
    startsComment (c :: text) = false := by
  unfold startsComment
  split
  case h_1 same => cases same; exact absurd plain.1 (by decide)
  case h_2 same => cases same; exact absurd rfl plain.2
  case h_3 => rfl

private theorem Plain.solid {c : Char} (plain : Plain c) : Text.isBlank c = false := by
  have outside := plain.1
  simp only [isForbidden, Bool.or_eq_false_iff] at outside
  simp [Text.isBlank, outside.1.2, outside.2]

theorem word_eq {letters : List Char} (plain : ∀ c ∈ letters, Plain c) (bounded : Bounded rest) :
    word (letters ++ rest) = (letters, rest) := by
  induction letters with
  | nil =>
    cases rest with
    | nil => rfl
    | cons c more => simp [word, (bounded c rfl).1]
  | cons c more ih =>
    have first := plain c List.mem_cons_self
    have others := ih fun d member => plain d (List.mem_cons_of_mem c member)
    simp [word, first.1, first.code, others]

theorem token_of_letter {c : Char} (letter : isForbidden c = false) (place : Position) (text : List Char) :
    Cursor.token place (c :: text) =
      .ok (.unquoted (String.ofList (word (c :: text)).1)) (place.past (word (c :: text)).1)
        (word (c :: text)).2 := by
  have known : Cursor.symbol? c = none := by
    unfold Cursor.symbol?
    split <;> first | rfl | exact absurd letter (by decide)
  unfold Cursor.token
  split
  case h_6 same => cases same; simp [known, letter]
  all_goals
    rename_i same
    cases same
    try exact absurd letter (by decide)

theorem unquoted {c : Char} {letters : List Char} (plain : ∀ d ∈ c :: letters, Plain d)
    (bounded : Bounded rest) (further : Lexes rest tokens) :
    Lexes (c :: letters ++ rest) (.unquoted (String.ofList (c :: letters)) :: tokens) := by
  have first := plain c List.mem_cons_self
  rw [List.cons_append]
  refine .cons first.solid (first.code _) (by simp) (fun place => ⟨place.past (c :: letters), ?_⟩) further
  rw [token_of_letter first.1, ← List.cons_append, word_eq plain bounded]
  rfl

theorem token_of_quote {body : List Char} (single : ∀ more, body ≠ '"' :: '"' :: more)
    (place : Position) :
    Cursor.token place ('"' :: body) =
      (Scan.quoted place.ahead (place.after '"') body).map (.quoted ∘ String.ofList) := by
  unfold Cursor.token
  split
  case h_4 same =>
    cases same
    exact absurd rfl (single _)
  case h_5 same =>
    cases same
    rfl
  case h_6 other same =>
    cases same
    exact absurd rfl other
  all_goals
    rename_i same
    cases same

/-- A quoted text, by what it decodes to, where no three quotes begin it. -/
theorem quoted {body decoded : List Char} (single : ∀ more, body ≠ '"' :: '"' :: more)
    (scanned : ∀ opened place, ∃ after,
      Scan.quoted opened place body = ⟨.ok decoded, ⟨after, text⟩⟩)
    (further : Lexes text tokens) :
    Lexes ('"' :: body) (.quoted (String.ofList decoded) :: tokens) := by
  refine .cons rfl rfl (by simp) (fun place => ?_) further
  obtain ⟨after, scanned⟩ := scanned place.ahead (place.after '"')
  refine ⟨after, ?_⟩
  rw [token_of_quote single, scanned]
  rfl

end Lexes
end Hocon
