import Hocon.Proofs.Grammar.Lexemes

namespace Hocon

private theorem Directive.isRequired_local {start : Position} {words : List String} {fault : Fault}
    (failed : isRequired start words = .error fault) : fault.Local := by
  induction words with
  | nil => cases failed
  | cons word rest ih =>
    rw [isRequired] at failed
    split at failed
    · cases further : isRequired start rest with
      | error cause =>
        rw [further] at failed
        cases failed
        exact ih further
      | ok required =>
        rw [further] at failed
        cases failed
    · split at failed
      · exact ih failed
      · split at failed <;> cases failed <;> exact rfl

namespace Stream

variable {directives : Prop} {lexeme : Lexeme} {stream next : Stream}

/-- Whether a word closes parentheses, and no more than are missing. -/
def closesOf (missing : Nat) : Token → Bool
  | .unquoted word => word.toList.all (· == ')') && word.length ≤ missing
  | _ => false

/-- Nothing more is taken when nothing is missing, nor where no parentheses are closed. -/
theorem closing_stop {missing : Nat} (stream : Stream)
    (stops : missing = 0 ∨ closesOf missing stream.token = false) :
    stream.closing missing = .ok ⟨missing, stream, stream.length_lt_succ⟩ := by
  rw [closing]
  split
  case isTrue => rfl
  case isFalse more =>
    have stops : closesOf missing stream.token = false := stops.resolve_left more
    cases stream with
    | ended last => rfl
    | broken lexeme fault =>
      cases token : lexeme.token <;> simp only [next?, token]
      case unquoted word =>
        have other : (word.toList.all (· == ')') && word.length ≤ missing) = false := by
          simpa only [Stream.token, ahead, token, closesOf] using stops
        simp only [other, Bool.false_eq_true, if_false]
    | more lexeme next =>
      cases token : lexeme.token <;> simp only [next?, token]
      case unquoted word =>
        have other : (word.toList.all (· == ')') && word.length ≤ missing) = false := by
          simpa only [Stream.token, ahead, token, closesOf] using stops
        simp only [other, Bool.false_eq_true, if_false]

/-- How many parentheses a word closes. -/
def closedBy : Token → Nat
  | .unquoted word => word.length
  | _ => 0

theorem closing_more {missing : Nat} (opened : missing ≠ 0) (closes : closesOf missing lexeme.token = true) :
    (∀ fault, (Stream.broken lexeme fault).closing missing = .error fault) ∧
      ∀ next : Stream, (Stream.more lexeme next).closing missing =
        (next.closing (missing - closedBy lexeme.token)).map fun taken =>
          ⟨taken.value, taken.rest, lt_succ_of_lt (lt_of_le taken.within (length_lt_more lexeme next))⟩ := by
  cases token : lexeme.token <;> simp only [token, closesOf, Bool.false_eq_true] at closes
  case unquoted word =>
    refine ⟨fun fault => ?_, fun next => ?_⟩
    · rw [closing]
      simp only [if_neg opened, next?, token, closes, if_true]
      rfl
    · rw [closing]
      simp only [if_neg opened, next?, token, closes, if_true, closedBy, bind, Except.bind]
      cases next.closing (missing - word.length) <;> rfl

/-- Closing parentheses that are taken whatever follows them, if none are left missing. -/
def Balances (missing : Nat) (stream : Stream) : Prop :=
  ∃ left rest within, stream.closing missing = .ok ⟨left, rest, within⟩ ∧
    (left = 0 → ∃ closers, stream = prepend closers rest ∧
      ∀ other, ∃ within, (prepend closers other).closing missing = .ok ⟨0, other, within⟩)

private theorem Balances.stop {missing : Nat} (stream : Stream)
    (stops : missing = 0 ∨ closesOf missing stream.token = false) : Balances missing stream := by
  refine ⟨missing, stream, _, closing_stop stream stops, ?_⟩
  rintro rfl
  exact ⟨[], rfl, fun other => ⟨_, closing_stop other (.inl rfl)⟩⟩

private theorem closing_cases (proper : stream.Proper directives) (missing : Nat) :
    (∃ fault, fault.Local ∧ stream.closing missing = .error fault) ∨ Balances missing stream := by
  induction stream generalizing missing with
  | ended last =>
    have last : last.token = .endOfText := proper
    exact .inr (.stop _ (.inr (by simp [last, closesOf])))
  | broken lexeme fault =>
    by_cases goes : missing ≠ 0 ∧ closesOf missing lexeme.token = true
    · obtain ⟨fails, _⟩ := closing_more goes.1 goes.2
      exact .inl ⟨fault, proper.2.2, fails fault⟩
    · exact .inr (.stop _ (by simpa [Decidable.or_iff_not_imp_left] using goes))
  | more lexeme next ih =>
    by_cases goes : missing ≠ 0 ∧ closesOf missing lexeme.token = true
    · obtain ⟨_, goes⟩ := closing_more goes.1 goes.2
      rcases ih proper.2.2 _ with ⟨fault, own, failed⟩ | ⟨left, rest, within, done, settled⟩
      · exact .inl ⟨fault, own, by rw [goes, failed]; rfl⟩
      · refine .inr ⟨left, rest, lt_succ_of_lt (lt_of_le within (length_lt_more lexeme next)), ?_, ?_⟩
        · rw [goes, done]
          rfl
        · intro zero
          obtain ⟨closers, rfl, always⟩ := settled zero
          refine ⟨lexeme :: closers, rfl, fun other => ?_⟩
          obtain ⟨past, done⟩ := always other
          rw [prepend_cons]
          exact ⟨lt_succ_of_lt (lt_of_le past (length_lt_more lexeme _)), by rw [goes, done]; rfl⟩
    · exact .inr (.stop _ (by simpa [Decidable.or_iff_not_imp_left] using goes))

theorem directive_quoted {pattern : String} (token : lexeme.token = .quoted pattern) :
    (Stream.more lexeme next).directive = .ok ⟨⟨pattern, false⟩, next, length_lt_more lexeme next⟩ := by
  obtain ⟨space, start, token⟩ := lexeme
  cases token
  simp only [directive, qualifiers, next?, Directive.isRequired, List.length_nil, bind, Except.bind,
    closing_stop next (.inl rfl), if_true]
  rfl

theorem directive_word {word : String} (token : lexeme.token = .unquoted word) :
    (Stream.more lexeme next).directive = (do
      let required ← Directive.isRequired lexeme.start (Directive.qualifiers word)
      match next.next? with
      | none => throw (.noFileName .endOfText lexeme.start)
      | some (second, step) =>
        let ⟨behind, past⟩ ← step
        match second.token with
        | .quoted pattern =>
          let ⟨missing, rest, within⟩ ← behind.closing (Directive.qualifiers word).length
          if missing = 0 then
            return ⟨⟨pattern, required⟩, rest, lt_of_lt (lt_of_le within past) (length_lt_more lexeme next)⟩
          else throw (.unbalancedQualifiers lexeme.start)
        | token => throw (.noFileName token lexeme.start)) := by
  obtain ⟨space, start, token⟩ := lexeme
  cases token
  have front : (Stream.more ⟨space, start, .unquoted word⟩ next).qualifiers =
      .ok ⟨Directive.qualifiers word, next, lt_succ_of_lt (length_lt_more _ next)⟩ := by
    rw [qualifiers]
    rfl
  rw [directive, front]
  rfl

theorem directive_qualified {second : Lexeme} {word pattern : String} {required : Bool} {rest : Stream}
    {within : rest.length < next.length + 1} (token : lexeme.token = .unquoted word)
    (known : Directive.isRequired lexeme.start (Directive.qualifiers word) = .ok required)
    (quoted : second.token = .quoted pattern)
    (done : next.closing (Directive.qualifiers word).length = .ok ⟨0, rest, within⟩) :
    ∃ within, (Stream.more lexeme (.more second next)).directive =
      .ok ⟨⟨pattern, required⟩, rest, within⟩ := by
  refine ⟨lt_of_lt (lt_of_le within (length_lt_more second _)) (length_lt_more lexeme _), ?_⟩
  rw [directive_word token]
  simp only [known, next?, quoted, done, bind, Except.bind, if_true]
  rfl

/-- A directive is read, and is the same whatever follows its lexemes. -/
def Steady (stream : Stream) : Prop :=
  ∃ directive first others rest within, stream.directive = .ok ⟨directive, rest, within⟩ ∧
    stream = prepend (first :: others) rest ∧ ∀ other, ∃ within,
      (prepend (first :: others) other).directive = .ok ⟨directive, other, within⟩

private theorem qualified_cases {second : Lexeme} {word pattern : String} {required : Bool}
    (proper : next.Proper directives) (token : lexeme.token = .unquoted word)
    (known : Directive.isRequired lexeme.start (Directive.qualifiers word) = .ok required)
    (quoted : second.token = .quoted pattern) :
    (∃ fault, fault.Local ∧ (more lexeme (more second next)).directive = .error fault) ∨
      (more lexeme (more second next)).Steady := by
  rcases closing_cases proper (Directive.qualifiers word).length with
    ⟨fault, own, failed⟩ | ⟨left, rest, within, done, settled⟩
  · refine .inl ⟨fault, own, ?_⟩
    rw [directive_word token]
    simp only [known, next?, quoted, failed, bind, Except.bind]
  by_cases zero : left = 0
  · subst zero
    obtain ⟨closers, rfl, always⟩ := settled rfl
    obtain ⟨_, read⟩ := directive_qualified token known quoted done
    refine .inr ⟨_, lexeme, second :: closers, rest, _, read, rfl, fun other => ?_⟩
    obtain ⟨_, done⟩ := always other
    exact directive_qualified token known quoted done
  · refine .inl ⟨.unbalancedQualifiers lexeme.start, rfl, ?_⟩
    rw [directive_word token]
    simp only [known, next?, quoted, done, bind, Except.bind, if_neg zero]
    rfl

private theorem directive_word_cases {word : String} (proper : next.Proper directives)
    (token : lexeme.token = .unquoted word) :
    (∃ fault, fault.Local ∧ (more lexeme next).directive = .error fault) ∨ (more lexeme next).Steady := by
  cases known : Directive.isRequired lexeme.start (Directive.qualifiers word) with
  | error fault =>
    refine .inl ⟨fault, Directive.isRequired_local known, ?_⟩
    rw [directive_word token, known]
    rfl
  | ok required =>
  cases next with
  | ended last =>
    refine .inl ⟨.noFileName .endOfText lexeme.start, rfl, ?_⟩
    rw [directive_word token, known]
    rfl
  | broken second fault =>
    refine .inl ⟨fault, proper.2.2, ?_⟩
    rw [directive_word token, known]
    rfl
  | more second behind =>
  by_cases quoted : ∃ pattern, second.token = .quoted pattern
  · obtain ⟨pattern, quoted⟩ := quoted
    exact qualified_cases proper.2.2 token known quoted
  · refine .inl ⟨.noFileName second.token lexeme.start, rfl, ?_⟩
    rw [directive_word token]
    simp only [known, next?, bind, Except.bind]
    split
    case h_1 pattern same => exact absurd ⟨pattern, same⟩ quoted
    case h_2 => rfl

/-- A directive cannot be read, or it is the same whatever follows its lexemes. -/
theorem directive_cases (proper : stream.Proper directives) :
    (∃ fault, fault.Local ∧ stream.directive = .error fault) ∨ stream.Steady := by
  cases stream with
  | ended last => exact .inl ⟨.noFileName .endOfText last.start, rfl, rfl⟩
  | broken lexeme fault =>
    refine .inl ⟨fault, proper.2.2, ?_⟩
    obtain ⟨space, start, token⟩ := lexeme
    cases token <;> rfl
  | more lexeme next =>
    cases token : lexeme.token
    case quoted pattern =>
      refine .inr ⟨_, lexeme, [], next, _, directive_quoted token, rfl, fun other => ?_⟩
      exact ⟨_, directive_quoted token⟩
    case unquoted word => exact directive_word_cases proper.2.2 token
    all_goals
      refine .inl ⟨.noFileName lexeme.token lexeme.start, rfl, ?_⟩
      obtain ⟨space, start, token⟩ := lexeme
      cases token
      rfl

end Stream
end Hocon
