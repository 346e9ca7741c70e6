import Hocon.Document.Directive
import Hocon.Proofs.Faults
import Hocon.Proofs.Spelling

namespace Hocon

namespace Stream

/-- A stream behind these lexemes. -/
def prepend (lexemes : List Lexeme) (rest : Stream) : Stream := lexemes.foldr .more rest

variable {lexemes others gap : List Lexeme} {rest stream : Stream} {drop : Token → Bool}

@[simp] theorem prepend_nil : prepend [] rest = rest := rfl

@[simp] theorem prepend_cons {lexeme : Lexeme} :
    prepend (lexeme :: lexemes) rest = .more lexeme (prepend lexemes rest) := rfl

@[simp] theorem token_ended {last : Lexeme} : (ended last).token = last.token := rfl

@[simp] theorem token_broken {lexeme : Lexeme} {fault : Fault} :
    (broken lexeme fault).token = lexeme.token := rfl

@[simp] theorem token_more {lexeme : Lexeme} : (more lexeme stream).token = lexeme.token := rfl

@[simp] theorem prepend_append :
    prepend (lexemes ++ others) rest = prepend lexemes (prepend others rest) :=
  List.foldr_append

theorem length_prepend : (prepend lexemes rest).length = lexemes.length + rest.length := by
  induction lexemes with
  | nil => simp
  | cons lexeme lexemes ih =>
    simp only [prepend_cons, length, ih, List.length_cons]
    omega

theorem prepend_ended_inj {last end' : Lexeme}
    (same : prepend lexemes (.ended last) = prepend others (.ended end')) :
    lexemes = others ∧ last = end' := by
  induction lexemes generalizing others with
  | nil =>
    cases others with
    | nil =>
      cases same
      exact ⟨rfl, rfl⟩
    | cons other others => cases same
  | cons lexeme lexemes ih =>
    cases others with
    | nil => cases same
    | cons other others =>
      simp only [prepend_cons, more.injEq] at same
      obtain ⟨rfl, behind⟩ := same
      obtain ⟨rfl, rfl⟩ := ih behind
      exact ⟨rfl, rfl⟩

/-- A stream as texts give it: its end, and that alone, is the end of the text, and its fault needs
no file. The word that begins directives is met only where `directives` are admitted. -/
def Proper (directives : Prop) : Stream → Prop
  | .ended last => last.token = .endOfText
  | .broken lexeme fault =>
    lexeme.token ≠ .endOfText ∧ (lexeme.token = .unquoted Directive.keyword → directives) ∧ fault.Local
  | .more lexeme next =>
    lexeme.token ≠ .endOfText ∧ (lexeme.token = .unquoted Directive.keyword → directives) ∧
      next.Proper directives

variable {directives : Prop}

/-- Directives are admitted as far as words that begin them are met. -/
theorem Proper.grant {last : Lexeme} (proper : (prepend lexemes (.ended last)).Proper True)
    (admitted : ∀ lexeme ∈ lexemes, lexeme.token = .unquoted Directive.keyword → directives) :
    (prepend lexemes (.ended last)).Proper directives := by
  induction lexemes with
  | nil => exact proper
  | cons lexeme lexemes ih =>
    obtain ⟨inside, _, behind⟩ := proper
    obtain ⟨first, others⟩ := List.forall_mem_cons.mp admitted
    exact ⟨inside, first, ih behind others⟩

theorem Proper.behind (proper : (Stream.prepend lexemes rest).Proper directives) :
    rest.Proper directives := by
  induction lexemes with
  | nil => exact proper
  | cons lexeme lexemes ih => exact ih proper.2.2

/-- What is read from a text is a stream as texts give it, and so is a fault at its front. -/
theorem read_proper (cursor : Cursor) :
    (∀ fault, Stream.read cursor = .error fault → fault.Local) ∧
      ∀ stream, Stream.read cursor = .ok stream → stream.Proper True := by
  cases scanned : cursor.read.scan.outcome with
  | error fault =>
    have whole : Stream.read cursor = .error fault := by simp only [read_eq cursor, scanned]
    have own : fault.Local := Cursor.token_local _ _ fault scanned
    rw [whole]
    exact ⟨fun _ failed => Except.error.inj failed ▸ own, nofun⟩
  | ok token =>
    by_cases ended : token = .endOfText
    · subst ended
      have whole : Stream.read cursor = .ok (.ended ⟨cursor.read.space, cursor.read.start, .endOfText⟩) := by
        simp only [read_eq cursor, scanned]
      rw [whole]
      exact ⟨nofun, fun _ done => Except.ok.inj done ▸ rfl⟩
    · have going : cursor.read.isEnd = false := by
        unfold Reading.isEnd
        split
        case h_1 same => exact absurd (Except.ok.inj (scanned.symm.trans same)) ended
        case h_2 => rfl
      have shorter := cursor.read_shorter going
      obtain ⟨own, proper⟩ := read_proper cursor.read.scan.after
      cases further : Stream.read cursor.read.scan.after with
      | error fault =>
        have whole : Stream.read cursor = .ok (.broken ⟨cursor.read.space, cursor.read.start, token⟩ fault) := by
          simp only [read_eq cursor, scanned, further]
        rw [whole]
        exact ⟨nofun, fun _ done => Except.ok.inj done ▸ ⟨ended, fun _ => trivial, own fault further⟩⟩
      | ok next =>
        have whole : Stream.read cursor = .ok (.more ⟨cursor.read.space, cursor.read.start, token⟩ next) :=
          read_more (by rw [← scanned]) ended further
        rw [whole]
        exact ⟨nofun, fun _ done => Except.ok.inj done ▸ ⟨ended, fun _ => trivial, proper next further⟩⟩
termination_by cursor.rest.length

theorem dropWhile_of_kept (kept : drop rest.token = false) :
    rest.dropWhile drop = .ok ⟨rest, rest.length_lt_succ⟩ := by
  cases rest with
  | ended last => rfl
  | broken lexeme fault =>
    have kept : drop lexeme.token = false := kept
    simp [dropWhile, kept]
  | more lexeme next =>
    have kept : drop lexeme.token = false := kept
    simp [dropWhile, kept]

theorem dropWhile_prepend (dropped : ∀ lexeme ∈ gap, drop lexeme.token = true)
    (kept : drop rest.token = false) :
    ∃ within, (prepend gap rest).dropWhile drop = .ok ⟨rest, within⟩ := by
  induction gap with
  | nil => exact ⟨_, dropWhile_of_kept kept⟩
  | cons lexeme gap ih =>
    obtain ⟨first, others⟩ := List.forall_mem_cons.mp dropped
    obtain ⟨within, done⟩ := ih others
    refine ⟨lt_succ_of_lt within, ?_⟩
    simp [dropWhile, first, done, Except.map]

/-- Dropping fails, or it leaves a stream that begins with what is kept. -/
theorem dropWhile_cases (drop : Token → Bool) (proper : stream.Proper directives) (atEnd : drop .endOfText = false) :
    (∃ fault, fault.Local ∧ stream.dropWhile drop = .error fault) ∨
      ∃ gap rest within, stream = prepend gap rest ∧ (∀ lexeme ∈ gap, drop lexeme.token = true) ∧
        drop rest.token = false ∧ stream.dropWhile drop = .ok ⟨rest, within⟩ := by
  have stays : ∀ {stream : Stream}, drop stream.token = false →
      ∃ gap rest within, stream = prepend gap rest ∧ (∀ lexeme ∈ gap, drop lexeme.token = true) ∧
        drop rest.token = false ∧ stream.dropWhile drop = .ok ⟨rest, within⟩ :=
    fun {stream} kept => ⟨[], stream, _, rfl, by simp, kept, dropWhile_of_kept kept⟩
  induction stream with
  | ended last =>
    have last : last.token = .endOfText := proper
    exact .inr (stays (by rw [← atEnd, ← last]; rfl))
  | broken lexeme fault =>
    cases kept : drop lexeme.token with
    | true => exact .inl ⟨fault, proper.2.2, by simp [dropWhile, kept]⟩
    | false => exact .inr (stays kept)
  | more lexeme next ih =>
    cases kept : drop lexeme.token with
    | false => exact .inr (stays kept)
    | true =>
      rcases ih proper.2.2 with ⟨fault, own, failed⟩ | ⟨gap, rest, within, rfl, dropped, first, done⟩
      · exact .inl ⟨fault, own, by simp [dropWhile, kept, failed, Except.map]⟩
      · refine .inr ⟨lexeme :: gap, rest, lt_succ_of_lt within, rfl, ?_, first, ?_⟩
        · exact List.forall_mem_cons.mpr ⟨kept, dropped⟩
        · simp [dropWhile, kept, done, Except.map]

end Stream

/-- What one step of reading met, unless it was a fault. -/
def Reading.lexeme? (reading : Reading) : Option Lexeme :=
  match reading.scan.outcome with
  | .ok token => some ⟨reading.space, reading.start, token⟩
  | .error _ => none

/-- The lexemes of a text, as far as they can be read. -/
def Cursor.lexemes (cursor : Cursor) : List Lexeme := cursor.readAll.filterMap Reading.lexeme?

/-- A text that is read to its end without a fault, by these lexemes. -/
def Lexed (cursor : Cursor) (lexemes : List Lexeme) : Prop :=
  cursor.readAll.map Reading.lexeme? = lexemes.map some

instance (cursor : Cursor) (lexemes : List Lexeme) : Decidable (Lexed cursor lexemes) :=
  inferInstanceAs (Decidable (_ = _))

/-- What is read without a fault is a stream of its lexemes, the end of the text being the last. -/
theorem Lexed.read {cursor : Cursor} {lexemes : List Lexeme} (lexed : Lexed cursor lexemes) :
    ∃ front last, lexemes = front ++ [last] ∧ last.token = .endOfText ∧
      Stream.read cursor = .ok (.prepend front (.ended last)) := by
  unfold Lexed at lexed
  rw [Cursor.readAll] at lexed
  split at lexed
  case h_1 ended =>
    obtain ⟨last, rfl⟩ : ∃ last, lexemes = [last] := by
      cases lexemes with
      | nil => cases lexed
      | cons last others =>
        cases others with
        | nil => exact ⟨last, rfl⟩
        | cons other others => simp at lexed
    simp only [Reading.isEnd] at ended
    split at ended
    case h_2 => cases ended
    case h_1 scanned =>
      simp only [Reading.lexeme?, scanned, List.map_cons, List.map_nil, List.cons.injEq, and_true,
        Option.some.injEq] at lexed
      subst lexed
      exact ⟨[], _, rfl, rfl, by simp [Stream.read_eq cursor, scanned]⟩
  case h_2 going =>
    have shorter := cursor.read_shorter going
    cases lexemes with
    | nil => cases lexed
    | cons lexeme others =>
      simp only [List.map_cons, List.cons.injEq] at lexed
      obtain ⟨first, behind⟩ := lexed
      have behind : Lexed cursor.read.after others := behind
      obtain ⟨front, last, rfl, ends, done⟩ := behind.read
      simp only [Reading.lexeme?] at first
      split at first
      case h_2 => cases first
      case h_1 token scanned =>
        cases first
        have proper : token ≠ .endOfText := by
          rintro rfl
          simp [Reading.isEnd, scanned] at going
        exact ⟨_ :: front, last, rfl, ends, Stream.read_more (by rw [← scanned]; rfl) proper done⟩
termination_by cursor.rest.length

theorem Lexed.of_read {cursor : Cursor} {front : List Lexeme} {last : Lexeme}
    (read : Stream.read cursor = .ok (.prepend front (.ended last))) : Lexed cursor (front ++ [last]) := by
  unfold Lexed
  induction front generalizing cursor with
  | nil =>
    obtain ⟨scanned, rfl⟩ := Stream.scan_of_ended read
    have ended : cursor.read.isEnd = true := by simp [Reading.isEnd, scanned]
    rw [Cursor.readAll]
    split
    case h_1 => simp [Reading.lexeme?, scanned]
    case h_2 going => cases ended.symm.trans going
  | cons lexeme front ih =>
    obtain ⟨scanned, proper, whole, further⟩ := Stream.scan_of_more read
    rw [Cursor.readAll]
    split
    case h_1 ended =>
      simp only [Reading.isEnd, scanned] at ended
      split at ended
      case h_1 same => exact absurd (Except.ok.inj same) proper
      case h_2 => cases ended
    case h_2 =>
      have first : cursor.read.lexeme? = some lexeme := by
        rw [Reading.lexeme?, scanned, whole]
      rw [List.map_cons, first, List.cons_append, List.map_cons]
      exact congrArg _ (ih further)

end Hocon
