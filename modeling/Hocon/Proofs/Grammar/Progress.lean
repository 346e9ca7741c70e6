import Hocon.Proofs.Grammar.Directive
import Hocon.Proofs.Grammar.Reading

/-! Whatever a stream holds, each part of the parser either takes lexemes that spell a tree, or
fails as a tree does that ends in its fault. Which tree it is depends on the stream alone, not on
how directives are answered. -/
namespace Hocon

namespace Grammar

/-- Two runs that fail in the same way, whatever the session. -/
def FailsAlike {α β : Type} (first : Run α) (second : Run β) : Prop :=
  ∀ session, ∃ fault after, first session = .error fault after ∧ second session = .error fault after

namespace FailsAlike

variable {α β γ δ : Type} {first : Run α} {second : Run β}

private theorem throw (fault : Fault) : FailsAlike (throw fault : Run α) (throw fault : Run β) :=
  fun session => ⟨fault, session, rfl, rfl⟩

private theorem bind {next : α → Run γ} {last : β → Run δ} (alike : FailsAlike first second) :
    FailsAlike (first >>= next) (second >>= last) := by
  intro session
  obtain ⟨fault, after, failed, same⟩ := alike session
  exact ⟨fault, after, by simp only [Bind.bind, EStateM.bind, failed],
    by simp only [Bind.bind, EStateM.bind, same]⟩

private theorem bind_left {next : α → Run γ} (alike : FailsAlike first second) :
    FailsAlike (first >>= next) second := by
  intro session
  obtain ⟨fault, after, failed, same⟩ := alike session
  exact ⟨fault, after, by simp only [Bind.bind, EStateM.bind, failed], same⟩

/-- The same beginning, behind which both fail. -/
private theorem behind (begin' : Run α) {next : α → Run γ} {last : α → Run δ}
    (alike : ∀ made, FailsAlike (next made) (last made)) : FailsAlike (begin' >>= next) (begin' >>= last) := by
  intro session
  cases ran : begin' session with
  | error fault after =>
    exact ⟨fault, after, by simp only [Bind.bind, EStateM.bind, ran],
      by simp only [Bind.bind, EStateM.bind, ran]⟩
  | ok made middle =>
    obtain ⟨fault, after, failed, same⟩ := alike made middle
    exact ⟨fault, after, by simpa only [Bind.bind, EStateM.bind, ran] using failed,
      by simpa only [Bind.bind, EStateM.bind, ran] using same⟩

end FailsAlike

/-- A part of the parser that fails as some tree does, however directives are answered. -/
def Stuck (directives : Prop) {α β τ : Type} (read : Includer → Run α) (run : Includer → τ → Run β) : Prop :=
  ∃ tree, ∀ includer : Includer, (directives → includer.Objects) →
    FailsAlike (read includer) (run includer tree)

private theorem Stuck.intro {directives : Prop} {α β τ : Type} {read : Includer → Run α}
    {run : Includer → τ → Run β} (tree : τ) (alike : ∀ includer : Includer, (directives → includer.Objects) →
      FailsAlike (read includer) (run includer tree)) : Stuck directives read run := ⟨tree, alike⟩

private theorem Stuck.of_throw {directives : Prop} {α β τ : Type} {read : Includer → Run α}
    {run : Includer → τ → Run β} {fault : Fault} (tree : τ) (failed : ∀ includer, read includer = throw fault)
    (ends : ∀ includer, run includer tree = throw fault) : Stuck directives read run :=
  ⟨tree, fun includer _ => by
    rw [failed, ends]
    exact .throw fault⟩

end Grammar

namespace Stream

open Grammar

variable {directives : Prop} {includer : Includer} {closing : Closing} {opened : Position}
  {lexeme : Lexeme} {fault : Fault} {front next rest stream : Stream}

private theorem piece_other (proper : stream.Proper directives) (other : stream.token.startsValue = false) :
    ∃ fault, fault.Local ∧ ∀ includer, stream.piece includer = throw fault := by
  cases stream with
  | ended last => 
    refine ⟨.noValue .endOfText last.start, rfl, fun includer => ?_⟩
    rw [piece]
    rfl
  | broken lexeme fault =>
    refine ⟨fault, proper.2.2, fun includer => ?_⟩
    rw [piece]
    rfl
  | more lexeme next =>
    refine ⟨.noValue lexeme.token lexeme.start, rfl, fun includer => ?_⟩
    rw [piece]
    cases token : lexeme.token <;> simp only [token_more, token, Token.startsValue, Bool.true_eq_false] at other
    all_goals simp only [next?, token]; rfl

private theorem piece_broken : (Stream.broken lexeme fault).piece includer = throw fault := by
  rw [piece]
  rfl

private theorem fields_undropped (failed : stream.dropWhile Token.isSeparator = .error fault) :
    stream.fields includer closing = throw fault := by
  rw [fields, failed]
  rfl

private theorem fields_unclosed {last : Lexeme} {skipped : (ended last).length < stream.length + 1}
    (dropped : stream.dropWhile Token.isSeparator = .ok ⟨.ended last, skipped⟩) :
    stream.fields includer .brace = throw (.unclosedObject last.start) := by
  rw [fields, dropped]
  rfl

private theorem fields_cut {skipped : (broken lexeme fault).length < stream.length + 1}
    (dropped : stream.dropWhile Token.isSeparator = .ok ⟨.broken lexeme fault, skipped⟩)
    (closer : lexeme.token = .rightBrace) : stream.fields includer .brace = throw fault := by
  rw [fields, dropped]
  simp only [Run.ofExcept, pure_bind, next?, closer, and_self, if_true]
  rfl

private theorem items_undropped (failed : stream.dropWhile Token.isSeparator = .error fault) :
    stream.items includer opened = throw fault := by
  rw [items, failed]
  rfl

private theorem items_unclosed {last : Lexeme} {skipped : (ended last).length < stream.length + 1}
    (dropped : stream.dropWhile Token.isSeparator = .ok ⟨.ended last, skipped⟩) :
    stream.items includer opened = throw (.unclosedArray opened) := by
  rw [items, dropped]
  rfl

private theorem items_cut {skipped : (broken lexeme fault).length < stream.length + 1}
    (dropped : stream.dropWhile Token.isSeparator = .ok ⟨.broken lexeme fault, skipped⟩)
    (closer : lexeme.token = .rightBracket) : stream.items includer opened = throw fault := by
  rw [items, dropped]
  obtain ⟨space, start, token⟩ := lexeme
  cases closer
  rfl

theorem entry_other (other : stream.token.isWord = false) :
    stream.entry includer = throw (.noKey stream.token stream.start) := by
  have apart : ∀ {lexeme : Lexeme} {step : Except Fault stream.Shorter},
      stream.next? = some (lexeme, step) → lexeme.token.isWord = false := by
    intro lexeme step going
    rw [← ahead_of_next? going]
    exact other
  rw [entry]
  split
  case h_1 going => exact absurd (apart going) (by simp [Token.isWord])
  case h_2 going => exact absurd (apart going) (by simp [Token.isWord])
  case h_3 => rfl

private theorem entry_broken (proper : (broken lexeme fault).Proper directives) :
    ∃ cause, cause.Local ∧ ∀ includer, (Stream.broken lexeme fault).entry includer = throw cause := by
  by_cases word : lexeme.token.isWord = true
  case neg =>
    exact ⟨.noKey lexeme.token lexeme.start, rfl, fun includer => entry_other (by simpa using word)⟩
  refine ⟨fault, proper.2.2, fun includer => ?_⟩
  have failed : ∀ start, (Stream.broken lexeme fault).key start .empty false = .error fault :=
    fun start => key_broken word fun begun => absurd begun (by simp)
  rw [entry]
  obtain ⟨space, start, token⟩ := lexeme
  cases token <;> simp only [Token.isWord, Bool.false_eq_true] at word
  case quoted text =>
    simp only [next?, failed]
    rfl
  case unquoted text =>
    simp only [next?, failed]
    split <;> rfl

private theorem assigned_undropped {step : Except Fault stream.Shorter} (failed : step = .error fault ∨
    ∃ next, step = .ok next ∧ next.val.dropWhile (· == .newline) = .error fault) :
    assigned includer stream step = throw fault := by
  rw [assigned]
  rcases failed with rfl | ⟨next, rfl, failed⟩
  · rfl
  · simp only [Run.ofExcept, pure_bind, failed]
    rfl

theorem assignment_other {start : Position} {path : KeyPath} (other : stream.token.isMark = false) :
    assignment includer start path stream = throw (.noValueAfterKey path start) := by
  have apart : ∀ {lexeme : Lexeme} {step : Except Fault stream.Shorter},
      stream.next? = some (lexeme, step) → lexeme.token.isMark = false := by
    intro lexeme step going
    rw [← ahead_of_next? going]
    exact other
  rw [assignment]
  split
  case h_5 => rfl
  all_goals
    rename_i going
    exact absurd (apart going) (by simp [Token.isMark])

private theorem lt_of_prepend {taken : List Lexeme} (same : stream = prepend taken rest) (some : taken ≠ []) :
    rest.length < stream.length := by
  rw [same, length_prepend]
  have := List.length_pos_iff.mpr some
  omega

private theorem le_of_prepend {taken : List Lexeme} (same : stream = prepend taken rest) :
    rest.length ≤ stream.length := by
  rw [same, length_prepend]
  omega

private theorem endOfElement_local (failed : stream.endOfElement = .error fault) : fault.Local := by
  unfold endOfElement at failed
  split at failed <;> cases failed
  exact rfl

private theorem endOfField_local (failed : stream.endOfField closing = .error fault) : fault.Local := by
  unfold endOfField at failed
  split at failed
  case h_4 => split at failed <;> cases failed; exact rfl
  all_goals cases failed
  exact rfl

private theorem parted_of_endOfElement {elements : Elements} {behind : List Lexeme}
    (spells : elements.Spells directives behind) (ended : (prepend behind stream).endOfElement = .ok ()) :
    ∀ lexeme ∈ behind.head?, lexeme.token.isSeparator = true := by
  intro lexeme head
  refine (spells.begins lexeme head).resolve_right fun starts => ?_
  cases behind with
  | nil => cases head
  | cons first behind =>
    cases head
    cases token : lexeme.token <;> simp [token, Token.startsValue] at starts
    all_goals simp [endOfElement, token] at ended

private theorem parted_of_endOfField {fields : Fields} {behind : List Lexeme}
    (spells : fields.Spells directives behind) (ended : (prepend behind stream).endOfField closing = .ok ()) :
    ∀ lexeme ∈ behind.head?, lexeme.token.isSeparator = true := by
  intro lexeme head
  refine (spells.begins lexeme head).resolve_right fun word => ?_
  cases behind with
  | nil => cases head
  | cons first behind =>
    cases head
    cases token : lexeme.token <;> simp [token, Token.isWord] at word
    all_goals simp [endOfField, token] at ended

private theorem items_begin (opened : Position) (proper : stream.Proper directives) :
    Stuck directives (fun includer => stream.items includer opened) Elements.run ∨
    ∃ gap front, stream = prepend gap front ∧ (∀ lexeme ∈ gap, lexeme.token.isSeparator = true) ∧
      ((∃ closer rest, front = .more closer rest ∧ closer.token = .rightBracket) ∨
        ∃ lexeme step skipped, front.next? = some (lexeme, step) ∧ lexeme.token ≠ .rightBracket ∧
          stream.dropWhile Token.isSeparator = .ok ⟨front, skipped⟩) := by
  have stuck : ∀ fault, fault.Local → (∀ includer, stream.items includer opened = throw fault) →
      Stuck directives (fun includer => stream.items includer opened) Elements.run :=
    fun fault own failed => .of_throw (.more (.mk (.broken fault own) .none) .none) failed fun _ => rfl
  rcases dropWhile_cases Token.isSeparator proper rfl with
    ⟨fault, own, failed⟩ | ⟨gap, front, skipped, same, dropped, kept, done⟩
  · exact .inl (stuck fault own fun includer => items_undropped failed)
  have proper : front.Proper directives := (same ▸ proper).behind
  cases front with
  | ended last => exact .inl (stuck (.unclosedArray opened) rfl fun includer => items_unclosed done)
  | broken lexeme fault =>
    by_cases closer : lexeme.token = .rightBracket
    · exact .inl (stuck fault proper.2.2 fun includer => items_cut done closer)
    · exact .inr ⟨gap, _, same, dropped, .inr ⟨lexeme, _, skipped, rfl, closer, done⟩⟩
  | more lexeme next =>
    by_cases closer : lexeme.token = .rightBracket
    · exact .inr ⟨gap, _, same, dropped, .inl ⟨lexeme, next, rfl, closer⟩⟩
    · exact .inr ⟨gap, _, same, dropped, .inr ⟨lexeme, _, skipped, rfl, closer, done⟩⟩

private theorem fields_begin (closing : Closing) (proper : stream.Proper directives) :
    Stuck directives (fun includer => stream.fields includer closing) Fields.run ∨
    ∃ gap front, stream = prepend gap front ∧ (∀ lexeme ∈ gap, lexeme.token.isSeparator = true) ∧
      ((∃ rest, Closes closing front rest) ∨
        ∃ lexeme step skipped, front.next? = some (lexeme, step) ∧
          ¬(closing = .brace ∧ lexeme.token = .rightBrace) ∧
          stream.dropWhile Token.isSeparator = .ok ⟨front, skipped⟩) := by
  have stuck : ∀ fault, fault.Local → (∀ includer, stream.fields includer closing = throw fault) →
      Stuck directives (fun includer => stream.fields includer closing) Fields.run :=
    fun fault own failed => .of_throw (.more (.broken fault own) .none) failed fun _ => rfl
  rcases dropWhile_cases Token.isSeparator proper rfl with
    ⟨fault, own, failed⟩ | ⟨gap, front, skipped, same, dropped, kept, done⟩
  · exact .inl (stuck fault own fun includer => fields_undropped failed)
  have proper : front.Proper directives := (same ▸ proper).behind
  cases front with
  | ended last =>
    cases closing with
    | brace => exact .inl (stuck (.unclosedObject last.start) rfl fun includer => fields_unclosed done)
    | endOfText => exact .inr ⟨gap, _, same, dropped, .inl ⟨_, .endOfText proper⟩⟩
  | broken lexeme fault =>
    by_cases closer : closing = .brace ∧ lexeme.token = .rightBrace
    · obtain ⟨rfl, closer⟩ := closer
      exact .inl (stuck fault proper.2.2 fun includer => fields_cut done closer)
    · exact .inr ⟨gap, _, same, dropped, .inr ⟨lexeme, _, skipped, rfl, closer, done⟩⟩
  | more lexeme next =>
    by_cases closer : closing = .brace ∧ lexeme.token = .rightBrace
    · obtain ⟨rfl, closer⟩ := closer
      exact .inr ⟨gap, _, same, dropped, .inl ⟨next, .brace closer⟩⟩
    · exact .inr ⟨gap, _, same, dropped, .inr ⟨lexeme, _, skipped, rfl, closer, done⟩⟩

private theorem inclusion_progress (proper : (more lexeme next).Proper directives)
    (begins : lexeme.token = .unquoted Directive.keyword) (opens : next.opensDirective = true) :
    (∃ (field : Field) (taken : List Lexeme) (rest : Stream), .more lexeme next = prepend taken rest ∧
      field.Spells directives taken ∧ ∀ includer : Includer, (directives → includer.Objects) →
        Reads ((more lexeme next).entry includer) (field.run includer) rest) ∨
    Stuck directives (fun includer => (more lexeme next).entry includer) Field.run := by
  rcases directive_cases proper.2.2 with
    ⟨fault, own, failed⟩ | ⟨directive, first, others, rest, within, read, left, always⟩
  · refine .inr (.of_throw (.broken fault own) (fun includer => ?_) fun _ => rfl)
    rw [entry_directive begins opens, inclusion, failed]
    rfl
  · subst left
    have directs : Directs (first :: others) directive := fun other => ⟨opens, always other⟩
    have admitted := proper.2.1 begins
    exact .inl ⟨.inclusion directive, lexeme :: first :: others, rest, rfl, .inclusion admitted begins directs,
      fun includer answers => inclusion_reads (answers admitted) begins directs rest⟩

/-- What is no directive begins with a key. -/
private theorem entry_begin (proper : (more lexeme next).Proper directives) (word : lexeme.token.isWord = true)
    (plain : lexeme.token = .unquoted Directive.keyword → next.opensDirective = false) :
    Stuck directives (fun includer => (more lexeme next).entry includer) Field.run ∨
    ∃ path others behind, next = prepend others behind ∧ Grammar.Key (lexeme :: others) path ∧
      ∃ within, ∀ includer : Includer, (more lexeme next).entry includer = do
        let found ← assignment includer lexeme.start path behind
        return ⟨found.value, found.references, found.rest, lt_of_lt_of_le found.within within⟩ := by
  obtain ⟨place, read⟩ := entry_key word plain
  cases taken : KeyPath.Builder.empty.take? (atoms lexeme.token) with
  | none =>
    refine .inl (.of_throw (.broken (.emptyKeySegment lexeme.start) rfl) (fun includer => ?_) fun _ => rfl)
    rw [read, taken]
  | some builder =>
  cases named : next.key place builder true with
  | error fault =>
    refine .inl (.of_throw (.broken fault (key_local proper.2.2 named)) (fun includer => ?_) fun _ => rfl)
    rw [read, taken]
    simp only [named]
    rfl
  | ok found =>
    obtain ⟨path, behind, within⟩ := found
    obtain ⟨others, same, words, made⟩ := key_taken proper.2.2 named
    have key : Grammar.Key (lexeme :: others) path :=
      Grammar.key_cons_iff.mpr ⟨word, words, by rw [taken]; exact made⟩
    refine .inr ⟨path, others, behind, same, key, lt_succ_of_lt (lt_of_le within (length_lt_more lexeme next)),
      fun includer => ?_⟩
    rw [read, taken]
    simp only [named, Run.ofExcept, pure_bind]

mutual

private theorem piece_progress (stream : Stream) (proper : stream.Proper directives) :
    (∃ (piece : Piece) (taken : List Lexeme) (rest : Stream),
      stream = prepend taken rest ∧ piece.Spells directives taken) ∨
    Stuck directives (fun includer => stream.piece includer) Piece.run := by
  by_cases starts : stream.token.startsValue = true
  case neg =>
    obtain ⟨fault, own, failed⟩ := piece_other proper (by simpa using starts)
    exact .inr (.of_throw (.broken fault own) failed fun _ => rfl)
  cases shape : stream with
  | ended last =>
    have last : last.token = .endOfText := by rw [shape] at proper; exact proper
    simp [shape, last, Token.startsValue] at starts
  | broken lexeme fault =>
    rw [shape] at proper
    exact .inr (.of_throw (.broken fault proper.2.2) (fun includer => piece_broken) fun _ => rfl)
  | more lexeme next =>
    have shorter : next.length < stream.length := shape ▸ length_lt_more lexeme next
    have proper : next.Proper directives := by
      rw [shape] at proper
      exact proper.2.2
    cases token : lexeme.token <;>
      simp only [shape, token_more, token, Token.startsValue, Bool.false_eq_true] at starts
    case unquoted content => exact .inl ⟨_, [lexeme], next, rfl, .word token⟩
    case quoted content => exact .inl ⟨_, [lexeme], next, rfl, .quoted token⟩
    case reference path optional => exact .inl ⟨_, [lexeme], next, rfl, .reference token⟩
    case leftBrace =>
      rcases fields_progress .brace next proper with
        ⟨fields, taken, last, rest, same, spelled, closes⟩ | ⟨fields, failed⟩
      · cases closes with
        | @brace closer _ closed =>
          refine .inl ⟨.object fields, lexeme :: taken ++ [closer], rest, ?_, .object token spelled closed⟩
          simp [same]
      · refine .inr (.intro (.object fields) fun includer answers => ?_)
        rw [piece_object token, Piece.run]
        exact (failed includer answers).bind
    case leftBracket =>
      rcases items_progress lexeme.start next proper with
        ⟨elements, taken, closer, rest, same, spelled, closed⟩ | ⟨elements, failed⟩
      · refine .inl ⟨.array elements, lexeme :: taken ++ [closer], rest, ?_, .array token spelled closed⟩
        simp [same]
      · refine .inr (.intro (.array elements) fun includer answers => ?_)
        rw [piece_array token, Piece.run]
        exact (failed includer answers).bind
termination_by 5 * stream.length

private theorem pieces_progress (stream : Stream) (proper : stream.Proper directives) :
    (∃ (pieces : Pieces) (taken : List Lexeme) (rest : Stream), stream = prepend taken rest ∧
      pieces.Spells directives taken ∧ rest.token.startsValue = false) ∨
    Stuck directives (fun includer => stream.pieces includer) Pieces.run := by
  by_cases starts : stream.token.startsValue = true
  case neg => exact .inl ⟨.none, [], stream, rfl, .none, by simpa using starts⟩
  rcases piece_progress stream proper with ⟨piece, taken, next, same, spelled⟩ | ⟨piece, failed⟩
  case inr =>
    refine .inr (.intro (.more stream.ahead.space piece .none) fun includer answers => ?_)
    rw [pieces_more starts, Pieces.run]
    exact (failed includer answers).bind
  obtain ⟨lexeme, own, rfl, _, _⟩ := spelled.begins
  have shorter := lt_of_prepend same (by simp)
  rcases pieces_progress next (same ▸ proper).behind with
    ⟨pieces, behind, rest, left, further, ends⟩ | ⟨pieces, failed⟩
  · refine .inl ⟨.more lexeme.space piece pieces, lexeme :: own ++ behind, rest, ?_, .more spelled further, ends⟩
    rw [same, left, prepend_append]
  · refine .inr (.intro (.more lexeme.space piece pieces) fun includer answers => ?_)
    obtain ⟨within, read⟩ := piece_reads answers spelled next
    rw [pieces_more starts, Pieces.run]
    subst same
    rw [read]
    simp only [bind_assoc, pure_bind]
    exact .behind _ fun made => (failed includer answers).bind
termination_by 5 * stream.length + 1

private theorem value_progress (stream : Stream) (proper : stream.Proper directives) :
    (∃ (phrase : Phrase) (taken : List Lexeme) (rest : Stream), stream = prepend taken rest ∧
      phrase.Spells directives taken ∧ rest.token.startsValue = false) ∨
    Stuck directives (fun includer => stream.value includer) Phrase.run := by
  rcases piece_progress stream proper with ⟨piece, taken, next, same, spelled⟩ | ⟨piece, failed⟩
  case inr =>
    refine .inr (.intro (.mk piece .none) fun includer answers => ?_)
    rw [value_eq, Phrase.run, join, Phrase.parts]
    simp only [bind_assoc, pure_bind]
    exact (failed includer answers).bind
  obtain ⟨lexeme, own, rfl, _, _⟩ := spelled.begins
  have shorter := lt_of_prepend same (by simp)
  rcases pieces_progress next (same ▸ proper).behind with
    ⟨pieces, behind, rest, left, further, ends⟩ | ⟨pieces, failed⟩
  · refine .inl ⟨.mk piece pieces, lexeme :: own ++ behind, rest, ?_, .mk spelled further, ends⟩
    rw [same, left, prepend_append]
  · refine .inr (.intro (.mk piece pieces) fun includer answers => ?_)
    obtain ⟨within, read⟩ := piece_reads answers spelled next
    rw [value_eq, Phrase.run, join, Phrase.parts]
    subst same
    rw [read]
    simp only [bind_assoc, pure_bind]
    exact .behind _ fun made => (failed includer answers).bind
termination_by 5 * stream.length + 1

private theorem items_progress (opened : Position) (stream : Stream) (proper : stream.Proper directives) :
    (∃ (elements : Elements) (taken : List Lexeme) (closer : Lexeme) (rest : Stream),
      stream = prepend taken (.more closer rest) ∧ elements.Spells directives taken ∧
      closer.token = .rightBracket) ∨
    Stuck directives (fun includer => stream.items includer opened) Elements.run := by
  rcases items_begin opened proper with stuck |
    ⟨gap, front, same, dropped, ⟨closer, rest, rfl, closed⟩ | ⟨lexeme, step, skipped, going, closer, done⟩⟩
  · exact .inr stuck
  · exact .inl ⟨.none, gap, closer, rest, same, .none dropped, closed⟩
  have shorter := le_of_prepend same
  have proper : front.Proper directives := (same ▸ proper).behind
  rcases value_progress front proper with ⟨phrase, own, next, left, spelled, stops⟩ | ⟨phrase, failed⟩
  case inr =>
    refine .inr (.intro (.more phrase .none) fun includer answers => ?_)
    rw [items_more done going closer, Elements.run]
    exact (failed includer answers).bind
  cases ended : next.endOfElement with
  | error fault =>
    refine .inr (.intro (.more phrase (.more (.mk (.broken fault (endOfElement_local ended)) .none) .none))
      fun includer answers => ?_)
    obtain ⟨within, read⟩ := value_reads answers spelled next stops
    rw [items_more done going closer, Elements.run]
    subst left
    rw [read]
    simp only [bind_assoc, pure_bind, ended]
    exact .behind _ fun made => .throw fault
  | ok =>
    obtain ⟨first, own, rfl, _, _⟩ := spelled.begins
    have past := lt_of_prepend left (by simp)
    rcases items_progress opened next (left ▸ proper).behind with
      ⟨elements, behind, closer, rest, more, further, closed⟩ | ⟨elements, failed⟩
    · refine .inl ⟨.more phrase elements, gap ++ (first :: own) ++ behind, closer, rest, ?_,
        .more dropped spelled further (parted_of_endOfElement further (more ▸ ended)), closed⟩
      rw [same, left, more, prepend_append, prepend_append]
    · refine .inr (.intro (.more phrase elements) fun includer answers => ?_)
      obtain ⟨within, read⟩ := value_reads answers spelled next stops
      rw [items_more done going closer, Elements.run]
      subst left
      rw [read]
      simp only [bind_assoc, pure_bind, ended]
      exact .behind _ fun made => (failed includer answers).bind
termination_by 5 * stream.length + 4

private theorem assigned_progress {lexeme : Lexeme} (stream : Stream) (step : Except Fault stream.Shorter)
    (going : stream.next? = some (lexeme, step)) (proper : stream.Proper directives) :
    (∃ (phrase : Phrase) (gap own : List Lexeme) (rest : Stream),
      stream = prepend (lexeme :: gap ++ own) rest ∧ (∀ lexeme ∈ gap, lexeme.token = .newline) ∧
      phrase.Spells directives own ∧ rest.token.startsValue = false) ∨
    Stuck directives (fun includer => assigned includer stream step) Phrase.run := by
  have stuck : ∀ fault, fault.Local → (∀ includer, assigned includer stream step = throw fault) →
      Stuck directives (fun includer => assigned includer stream step) Phrase.run :=
    fun fault own failed => .of_throw (.mk (.broken fault own) .none) failed fun _ => rfl
  cases step with
  | error fault =>
    refine .inr (stuck fault ?_ fun includer => assigned_undropped (.inl rfl))
    cases stream <;> cases going
    exact proper.2.2
  | ok taken =>
    obtain ⟨next, behind⟩ := taken
    have shape : stream = .more lexeme next := by cases stream <;> cases going; rfl
    have proper : next.Proper directives := by
      rw [shape] at proper
      exact proper.2.2
    rcases dropWhile_cases (· == .newline) proper rfl with
      ⟨fault, own, failed⟩ | ⟨gap, front, skipped, same, dropped, kept, done⟩
    · exact .inr (stuck fault own fun includer => assigned_undropped (.inr ⟨_, rfl, failed⟩))
    have shorter := le_of_prepend same
    rcases value_progress front (same ▸ proper).behind with
      ⟨phrase, own, rest, left, spelled, stops⟩ | ⟨phrase, failed⟩
    · refine .inl ⟨phrase, gap, own, rest, ?_, fun lexeme member => by simpa using dropped lexeme member,
        spelled, stops⟩
      rw [shape, same, left, ← prepend_append]
      rfl
    · refine .inr (.intro phrase fun includer answers => ?_)
      rw [assigned_eq rfl done]
      exact (failed includer answers).bind_left
termination_by 5 * stream.length

private theorem assignment_progress {name : List Lexeme} {path : KeyPath} (key : Grammar.Key name path)
    (start : Position) (stream : Stream) (proper : stream.Proper directives) :
    (∃ (field : Field) (taken : List Lexeme) (rest : Stream), stream = prepend taken rest ∧
      field.Spells directives (name ++ taken) ∧ rest.token.startsValue = false) ∨
    Stuck directives (fun includer => assignment includer start path stream) Field.run := by
  by_cases mark : stream.token.isMark = true
  case neg =>
    exact .inr (.of_throw (.broken (.noValueAfterKey path start) rfl)
      (fun includer => assignment_other (by simpa using mark)) fun _ => rfl)
  cases going : stream.next? with
  | none =>
    cases stream with
    | ended last =>
      have last : last.token = .endOfText := proper
      simp [last, Token.isMark] at mark
    | broken lexeme fault => cases going
    | more lexeme next => cases going
  | some found =>
  obtain ⟨lexeme, step⟩ := found
  have ahead : lexeme.token = stream.token := congrArg Lexeme.token (ahead_of_next? going).symm
  rw [← ahead] at mark
  by_cases brace : lexeme.token = .leftBrace
  · rcases value_progress stream proper with ⟨phrase, own, rest, left, spelled, stops⟩ | ⟨phrase, failed⟩
    · obtain ⟨first, own, rfl, _, _⟩ := spelled.begins
      have same : first.token = .leftBrace := by
        rw [← brace, ahead, left]
        rfl
      exact .inl ⟨.assign path phrase, first :: own, rest, left, .nested key same spelled, stops⟩
    · refine .inr (.intro (.assign path phrase) fun includer answers => ?_)
      rw [assignment_nested going brace, Field.run]
      exact (failed includer answers).bind
  have assigns : (lexeme.token = .colon ∨ lexeme.token = .equals) ∨ lexeme.token = .plusEquals := by
    cases token : lexeme.token <;> simp [token, Token.isMark] at mark brace ⊢
  rcases assigned_progress stream step going proper with
    ⟨phrase, gap, own, rest, left, newlines, spelled, stops⟩ | ⟨phrase, failed⟩
  · have joined : name ++ (lexeme :: gap ++ own) = name ++ lexeme :: gap ++ own := by simp
    rcases assigns with mark | mark
    · exact .inl ⟨.assign path phrase, lexeme :: gap ++ own, rest, left,
        joined ▸ .assign key mark newlines spelled, stops⟩
    · exact .inl ⟨.append path phrase, lexeme :: gap ++ own, rest, left,
        joined ▸ .append key mark newlines spelled, stops⟩
  · rcases assigns with mark | mark
    · refine .inr (.intro (.assign path phrase) fun includer answers => ?_)
      rw [assignment_assign going mark, Field.run]
      exact (failed includer answers).bind
    · refine .inr (.intro (.append path phrase) fun includer answers => ?_)
      rw [assignment_append going mark, Field.run]
      exact (failed includer answers).bind
termination_by 5 * stream.length + 2

private theorem entry_progress (stream : Stream) (proper : stream.Proper directives) :
    (∃ (field : Field) (taken : List Lexeme) (rest : Stream), stream = prepend taken rest ∧
      field.Spells directives taken ∧ ∀ includer : Includer, (directives → includer.Objects) →
        Reads (stream.entry includer) (field.run includer) rest) ∨
    Stuck directives (fun includer => stream.entry includer) Field.run := by
  by_cases word : stream.token.isWord = true
  case neg =>
    exact .inr (.of_throw (.broken (.noKey stream.token stream.start) rfl)
      (fun includer => entry_other (by simpa using word)) fun _ => rfl)
  cases shape : stream with
  | ended last =>
    have last : last.token = .endOfText := by rw [shape] at proper; exact proper
    simp [shape, last, Token.isWord] at word
  | broken lexeme fault =>
    obtain ⟨fault, own, failed⟩ := entry_broken (shape ▸ proper)
    exact .inr (.of_throw (.broken fault own) failed fun _ => rfl)
  | more lexeme next =>
    have shorter : next.length < stream.length := shape ▸ length_lt_more lexeme next
    rw [shape] at word proper
    by_cases directs : lexeme.token = .unquoted Directive.keyword ∧ next.opensDirective = true
    · exact inclusion_progress proper directs.1 directs.2
    have plain : lexeme.token = .unquoted Directive.keyword → next.opensDirective = false := by
      simpa using directs
    rcases entry_begin proper word plain with stuck | ⟨path, others, behind, same, key, within, read⟩
    · exact .inr stuck
    have past := le_of_prepend same
    rcases assignment_progress key lexeme.start behind (same ▸ proper.2.2).behind with
      ⟨field, own, rest, left, spelled, stops⟩ | ⟨field, failed⟩
    · have whole : Stream.more lexeme next = prepend (lexeme :: others ++ own) rest := by
        rw [same, left, ← prepend_append]
        rfl
      refine .inl ⟨field, lexeme :: others ++ own, rest, whole, spelled, fun includer answers => ?_⟩
      rw [whole]
      exact field_reads answers spelled rest stops
    · refine .inr (.intro field fun includer answers => ?_)
      rw [read]
      exact (failed includer answers).bind_left
termination_by 5 * stream.length + 3

private theorem fields_progress (closing : Closing) (stream : Stream) (proper : stream.Proper directives) :
    (∃ (fields : Fields) (taken : List Lexeme) (last rest : Stream), stream = prepend taken last ∧
      fields.Spells directives taken ∧ Closes closing last rest) ∨
    Stuck directives (fun includer => stream.fields includer closing) Fields.run := by
  rcases fields_begin closing proper with stuck |
    ⟨gap, front, same, dropped, ⟨rest, closes⟩ | ⟨lexeme, step, skipped, going, closer, done⟩⟩
  · exact .inr stuck
  · exact .inl ⟨.none, gap, front, rest, same, .none dropped, closes⟩
  have shorter := le_of_prepend same
  have proper : front.Proper directives := (same ▸ proper).behind
  rcases entry_progress front proper with ⟨field, own, next, left, spelled, reads⟩ | ⟨field, failed⟩
  case inr =>
    refine .inr (.intro (.more field .none) fun includer answers => ?_)
    rw [fields_more done going closer, Fields.run]
    exact (failed includer answers).bind
  cases ended : next.endOfField closing with
  | error fault =>
    refine .inr (.intro (.more field (.more (.broken fault (endOfField_local ended)) .none))
      fun includer answers => ?_)
    obtain ⟨within, read⟩ := reads includer answers
    rw [fields_more done going closer, Fields.run, read]
    simp only [bind_assoc, pure_bind, ended]
    exact .behind _ fun made => .throw fault
  | ok =>
    obtain ⟨first, own, rfl, _⟩ := spelled.begins
    have past := lt_of_prepend left (by simp)
    rcases fields_progress closing next (left ▸ proper).behind with
      ⟨fields, behind, last, rest, more, further, closed⟩ | ⟨fields, failed⟩
    · refine .inl ⟨.more field fields, gap ++ (first :: own) ++ behind, last, rest, ?_,
        .more dropped spelled further (parted_of_endOfField further (more ▸ ended)), closed⟩
      rw [same, left, more, prepend_append, prepend_append]
    · refine .inr (.intro (.more field fields) fun includer answers => ?_)
      obtain ⟨within, read⟩ := reads includer answers
      rw [fields_more done going closer, Fields.run, read]
      simp only [bind_assoc, pure_bind, ended]
      exact .behind _ fun made => (failed includer answers).bind
termination_by 5 * stream.length + 4

end

private theorem document_undropped (failed : stream.dropWhile (· == .newline) = .error fault) :
    stream.document includer = throw fault := by
  rw [document, failed]
  rfl

private theorem document_array {step : Except Fault front.Shorter} {skipped : front.length < stream.length + 1}
    (dropped : stream.dropWhile (· == .newline) = .ok ⟨front, skipped⟩)
    (going : front.next? = some (lexeme, step)) (array : lexeme.token = .leftBracket) :
    stream.document includer = throw (.arrayDocument lexeme.start) := by
  rw [document, dropped]
  simp only [Run.ofExcept, pure_bind, going]
  obtain ⟨space, start, token⟩ := lexeme
  cases array
  rfl

private theorem document_cut {skipped : (broken lexeme fault).length < stream.length + 1}
    (dropped : stream.dropWhile (· == .newline) = .ok ⟨.broken lexeme fault, skipped⟩)
    (opens : lexeme.token = .leftBrace) : stream.document includer = throw fault := by
  rw [document, dropped]
  obtain ⟨space, start, token⟩ := lexeme
  cases opens
  rfl

private theorem document_progress_braced {gap : List Lexeme}
    {skipped : (more lexeme next).length < stream.length + 1}
    (same : stream = prepend gap (more lexeme next)) (newlines : ∀ lexeme ∈ gap, lexeme.token = .newline)
    (done : stream.dropWhile (· == .newline) = .ok ⟨.more lexeme next, skipped⟩)
    (opens : lexeme.token = .leftBrace) (proper : next.Proper directives) :
    (∃ (fields : Fields) (taken : List Lexeme) (last : Lexeme), stream = prepend taken (.ended last) ∧
      Derives directives fields (taken ++ [last])) ∨
    Stuck directives (fun includer => stream.document includer) Fields.document := by
  rcases fields_progress .brace next proper with
    ⟨fields, taken, _, rest, left, spelled, closes⟩ | ⟨fields, failed⟩
  case inr =>
    refine .inr (.intro fields fun includer answers => ?_)
    rw [document_braced done opens, Fields.document]
    exact (failed includer answers).bind
  cases closes with
  | @brace closer _ closed =>
  subst left
  have read : ∀ includer : Includer, (directives → includer.Objects) → _ :=
    fun includer answers => document_braced_reads answers done opens spelled closed
  have cut : ∀ fault, fault.Local → (∀ includer : Includer, (directives → includer.Objects) →
      stream.document includer = fields.run includer >>= fun _ => throw fault) →
      Stuck directives (fun includer => stream.document includer) Fields.document := by
    intro fault own failed
    refine .intro (fields.cut fault own) fun includer answers => ?_
    rw [failed includer answers, Fields.document, Fields.run_cut, bind_assoc]
    exact .behind _ fun _ => .throw fault
  rcases dropWhile_cases Token.isSeparator proper.behind.2.2 rfl with
    ⟨fault, own, failed⟩ | ⟨others, behind, past, remains, separators, _, finished⟩
  · refine .inr (cut fault own fun includer answers => ?_)
    rw [read includer answers, failed]
    rfl
  by_cases ends : behind.token = .endOfText
  case neg =>
    refine .inr (cut (.textAfterDocument behind.token behind.start) rfl
      fun includer answers => ?_)
    rw [read includer answers, finished]
    simp only [Run.ofExcept, pure_bind, if_neg ends]
  have proper : behind.Proper directives := (remains ▸ proper.behind.2.2).behind
  cases behind with
  | ended last =>
    refine .inl ⟨fields, gap ++ lexeme :: taken ++ closer :: others, last, ?_,
      .braced newlines opens spelled closed separators ends⟩
    rw [same, remains]
    simp
  | broken last fault => exact absurd ends proper.1
  | more last further => exact absurd ends proper.1

/-- A document is derived, or fails as the document of a tree does. -/
theorem document_progress (proper : stream.Proper directives) :
    (∃ (fields : Fields) (taken : List Lexeme) (last : Lexeme), stream = prepend taken (.ended last) ∧
      Derives directives fields (taken ++ [last])) ∨
    Stuck directives (fun includer => stream.document includer) Fields.document := by
  have stuck : ∀ fault, fault.Local → (∀ includer, stream.document includer = throw fault) →
      Stuck directives (fun includer => stream.document includer) Fields.document :=
    fun fault own failed => .of_throw (.more (.broken fault own) .none) failed fun _ => rfl
  rcases dropWhile_cases (· == .newline) proper rfl with
    ⟨fault, own, failed⟩ | ⟨gap, front, skipped, same, dropped, kept, done⟩
  · exact .inr (stuck fault own fun includer => document_undropped failed)
  have proper : front.Proper directives := (same ▸ proper).behind
  have newlines : ∀ lexeme ∈ gap, lexeme.token = .newline :=
    fun lexeme member => by simpa using dropped lexeme member
  by_cases array : front.token = .leftBracket
  · cases going : front.next? with
    | none =>
      cases front with
      | ended last =>
        have last : last.token = .endOfText := proper
        simp [last] at array
      | broken lexeme fault => cases going
      | more lexeme next => cases going
    | some found =>
      obtain ⟨lexeme, step⟩ := found
      rw [token, ahead_of_next? going] at array
      exact .inr (stuck (.arrayDocument lexeme.start) rfl
        fun includer => document_array done going array)
  by_cases opens : front.token = .leftBrace
  · cases front with
    | ended last =>
      have last : last.token = .endOfText := proper
      simp [last] at opens
    | broken lexeme fault => exact .inr (stuck fault proper.2.2 fun includer => document_cut done opens)
    | more lexeme next => exact document_progress_braced same newlines done opens proper.2.2
  rcases fields_progress .endOfText front proper with
    ⟨fields, taken, _, _, left, spelled, closes⟩ | ⟨fields, failed⟩
  · have separators : ∀ lexeme ∈ gap, lexeme.token.isSeparator = true :=
      fun lexeme member => by rw [newlines lexeme member]; rfl
    cases closes with
    | @endOfText last ends =>
      refine .inl ⟨fields, gap ++ taken, last, ?_, .bare (spelled.behind separators) ends⟩
      rw [same, left, prepend_append]
  · refine .inr (.intro fields fun includer answers => ?_)
    rw [document_bare done ⟨opens, array⟩, Fields.document]
    exact (failed includer answers).bind

end Stream

/-- Whatever a text holds, it is read as a tree is run, and which tree that is does not depend on
how directives are answered. -/
theorem parse_outline (text : String) : ∃ fields : Grammar.Fields, ∀ includer : Includer,
    includer.Objects → parse includer text = fields.document includer := by
  obtain ⟨own, proper⟩ := Stream.read_proper (.ofText text)
  cases read : Stream.read (.ofText text) with
  | error fault =>
    refine ⟨.more (.broken fault (own fault read)) .none, fun includer _ => ?_⟩
    rw [parse, Stream.ofText, read]
    rfl
  | ok stream =>
    rcases Stream.document_progress (proper stream read) with
      ⟨fields, taken, last, rfl, derives⟩ | ⟨fields, failed⟩
    · refine ⟨fields, fun includer objects => ?_⟩
      rw [parse, Stream.ofText, read, ← Stream.document_reads (fun _ => objects) derives]
      rfl
    · refine ⟨fields, fun includer objects => ?_⟩
      rw [parse, Stream.ofText, read]
      funext session
      obtain ⟨fault, after, failed, same⟩ := failed includer (fun _ => objects) session
      rw [same]
      exact failed

end Hocon
