import Hocon.Proofs.Grammar.Directive
import Hocon.Proofs.Grammar.Tree
import Hocon.Proofs.Marks
import Hocon.Proofs.Run

namespace Hocon

private theorem Directive.isRequired_of_ok {start other : Position} {words : List String} {required : Bool}
    (known : isRequired start words = .ok required) : isRequired other words = .ok required := by
  induction words generalizing required with
  | nil => exact known
  | cons word rest ih =>
    rw [isRequired] at known ⊢
    split at known
    case isTrue same =>
      cases further : isRequired start rest with
      | error fault =>
        rw [further] at known
        cases known
      | ok inner =>
        rw [further] at known
        rw [if_pos same, ih further]
        exact known
    case isFalse apart =>
      rw [if_neg apart]
      split at known
      case isTrue same => rw [if_pos same, ih known]
      case isFalse => split at known <;> cases known

namespace Stream

variable {rest : Stream}

private theorem closing_cons {lexeme : Lexeme} {next : Stream} {missing : Nat} {within : _}
    (done : (more lexeme next).closing missing = .ok ⟨0, rest, within⟩)
    (shorter : rest.length < (more lexeme next).length) :
    missing ≠ 0 ∧ closesOf missing lexeme.token = true ∧
      ∃ within, next.closing (missing - closedBy lexeme.token) = .ok ⟨0, rest, within⟩ := by
  by_cases goes : missing ≠ 0 ∧ closesOf missing lexeme.token = true
  · refine ⟨goes.1, goes.2, ?_⟩
    rw [(closing_more goes.1 goes.2).2] at done
    cases further : next.closing (missing - closedBy lexeme.token) with
    | error fault =>
      rw [further] at done
      cases done
    | ok taken =>
      rw [further] at done
      obtain ⟨left, behind, past⟩ := taken
      simp only [Except.map, Except.ok.injEq, Taken.mk.injEq] at done
      obtain ⟨rfl, rfl, _⟩ := done
      exact ⟨past, rfl⟩
  · rw [closing_stop _ (by simpa [Decidable.or_iff_not_imp_left] using goes)] at done
    simp only [Except.ok.injEq, Taken.mk.injEq] at done
    rw [← done.2] at shorter
    exact absurd shorter (Nat.lt_irrefl _)

private theorem closing_nil {stream : Stream} {missing : Nat} {within : _}
    (done : stream.closing missing = .ok ⟨0, stream, within⟩) : missing = 0 := by
  by_contra opened
  by_cases closes : closesOf missing stream.token = true
  case neg =>
    rw [closing_stop _ (.inr (by simpa using closes))] at done
    simp only [Except.ok.injEq, Taken.mk.injEq] at done
    exact opened done.1
  cases stream with
  | ended last =>
    rw [closing] at done
    simp only [if_neg opened, next?, Except.ok.injEq, Taken.mk.injEq] at done
    exact opened done.1
  | broken lexeme fault =>
    rw [(closing_more opened (show closesOf missing lexeme.token = true from closes)).1] at done
    cases done
  | more lexeme next =>
    rw [(closing_more opened (show closesOf missing lexeme.token = true from closes)).2] at done
    cases further : next.closing (missing - closedBy lexeme.token) with
    | error fault =>
      rw [further] at done
      cases done
    | ok taken =>
      rw [further] at done
      simp only [Except.map, Except.ok.injEq, Taken.mk.injEq] at done
      have within := taken.within
      rw [done.2, length] at within
      exact absurd within (Nat.lt_irrefl _)

/-- Closing parentheses that leave nothing missing are words, and close as many at other places. -/
private theorem closing_steady {closers : List Lexeme} {missing : Nat} {within : _}
    (done : (prepend closers rest).closing missing = .ok ⟨0, rest, within⟩) :
    (∀ lexeme ∈ closers, lexeme.token.isWord = true) ∧
      ∀ others : List Lexeme, others.map Lexeme.token = closers.map Lexeme.token →
        ∀ rest, ∃ within, (prepend others rest).closing missing = .ok ⟨0, rest, within⟩ := by
  induction closers generalizing missing with
  | nil =>
    obtain rfl := closing_nil done
    refine ⟨by simp, fun others same rest => ?_⟩
    obtain rfl : others = [] := by simpa using same
    exact ⟨_, closing_stop rest (.inl rfl)⟩
  | cons lexeme closers ih =>
    have shorter : rest.length < (more lexeme (prepend closers rest)).length := by
      rw [length, length_prepend]
      omega
    obtain ⟨opened, closes, _, further⟩ := closing_cons done shorter
    obtain ⟨words, steady⟩ := ih further
    have word : lexeme.token.isWord = true := by
      cases token : lexeme.token <;> first | rfl | simp only [token, closesOf, Bool.false_eq_true] at closes
    refine ⟨List.forall_mem_cons.mpr ⟨word, words⟩, fun others same rest => ?_⟩
    cases others with
    | nil => cases same
    | cons other others =>
      obtain ⟨first, same⟩ := List.cons.inj same
      obtain ⟨within, done⟩ := steady others same rest
      rw [← first] at closes done
      rw [prepend_cons, (closing_more opened closes).2, done]
      exact ⟨_, rfl⟩

private theorem directive_bare {lexeme : Lexeme} {next : Stream} (other : lexeme.token.isWord = false) :
    (more lexeme next).directive = .error (.noFileName lexeme.token lexeme.start) := by
  obtain ⟨space, start, token⟩ := lexeme
  cases token <;> first | rfl | cases other

/-- Behind a word of qualifiers stand a quoted pattern and what closes them. -/
theorem directive_word_ok {lexeme : Lexeme} {next : Stream} {word : String} {directive : Directive} {within : _}
    (token : lexeme.token = .unquoted word)
    (done : (more lexeme next).directive = .ok ⟨directive, rest, within⟩) :
    ∃ required second behind, next = more second behind ∧ second.token = .quoted directive.pattern ∧
      Directive.isRequired lexeme.start (Directive.qualifiers word) = .ok required ∧
      directive.required = required ∧
      ∃ within, behind.closing (Directive.qualifiers word).length = .ok ⟨0, rest, within⟩ := by
  rw [directive_word token] at done
  obtain ⟨required, known, done⟩ := ok_of_bind done
  cases next with
  | ended last => cases done
  | broken second fault => cases done
  | more second behind =>
    simp only [next?, bind, Except.bind] at done
    split at done
    case h_2 => cases done
    case h_1 pattern quoted =>
    cases closed : behind.closing (Directive.qualifiers word).length with
    | error fault =>
      rw [closed] at done
      cases done
    | ok taken =>
      obtain ⟨missing, left, past⟩ := taken
      simp only [closed] at done
      split at done
      case isFalse => cases done
      case isTrue none =>
        cases done
        subst none
        exact ⟨required, second, behind, rfl, quoted, known, rfl, past, closed⟩

private theorem directive_steady {own : List Lexeme} {directive : Directive} {within : _}
    (done : (prepend own rest).directive = .ok ⟨directive, rest, within⟩) (ended : rest.token.isWord = false) :
    own ≠ [] ∧ (∀ lexeme ∈ own, lexeme.token.isWord = true) ∧
      ∀ others : List Lexeme, others.map Lexeme.token = own.map Lexeme.token →
        ∀ rest, ∃ within, (prepend others rest).directive = .ok ⟨directive, rest, within⟩ := by
  cases own with
  | nil => exact absurd within (Nat.lt_irrefl _)
  | cons lexeme own =>
  refine ⟨List.cons_ne_nil _ _, ?_⟩
  cases token : lexeme.token with
  | quoted pattern =>
    have done := (directive_quoted token).symm.trans done
    obtain ⟨rfl, left⟩ := Taken.mk.inj (Except.ok.inj done)
    obtain rfl : own = [] := by
      have lengths : (prepend own rest).length = rest.length := congrArg length left
      rw [length_prepend] at lengths
      exact List.length_eq_zero_iff.mp (by omega)
    refine ⟨by simp [token, Token.isWord], fun others same rest => ?_⟩
    obtain ⟨other, rfl, first⟩ : ∃ other, others = [other] ∧ other.token = lexeme.token := by
      simpa [List.map_eq_singleton_iff] using same
    exact ⟨_, directive_quoted (first.trans token)⟩
  | unquoted word =>
    obtain ⟨required, second, behind, next, quoted, known, rfl, _, closed⟩ := directive_word_ok token done
    cases own with
    | nil =>
      obtain rfl : rest = more second behind := next
      simp [quoted, Token.isWord] at ended
    | cons pattern closers =>
    obtain ⟨rfl, rfl⟩ := more.inj next
    obtain ⟨words, steady⟩ := closing_steady closed
    refine ⟨?_, fun others same rest => ?_⟩
    · simp only [List.forall_mem_cons, token, quoted, Token.isWord, true_and]
      exact words
    simp only [List.map_cons, List.map_eq_cons_iff] at same
    obtain ⟨first, _, rfl, begins, other, others, rfl, named, same⟩ := same
    obtain ⟨_, done⟩ := steady others same rest
    exact directive_qualified (begins.trans token) (Directive.isRequired_of_ok known) (named.trans quoted) done
  | _ => cases (directive_bare (by rw [token]; rfl)).symm.trans done

end Stream

namespace Grammar

variable {own others : List Lexeme} {directive : Directive}

/-- What is read as a directive is words. -/
theorem Directs.words (directs : Directs own directive) :
    own ≠ [] ∧ ∀ lexeme ∈ own, lexeme.token.isWord = true := by
  obtain ⟨_, _, done⟩ := directs (.ended ⟨"", .origin, .endOfText⟩)
  obtain ⟨some, words, _⟩ := Stream.directive_steady done rfl
  exact ⟨some, words⟩

theorem Directs.moved (directs : Directs own directive) (same : others.map Lexeme.mark = own.map Lexeme.mark) :
    Directs others directive := by
  obtain ⟨opens, _, done⟩ := directs (.ended ⟨"", .origin, .endOfText⟩)
  obtain ⟨some, _, steady⟩ := Stream.directive_steady done rfl
  have tokens : others.map Lexeme.token = own.map Lexeme.token := by
    simpa [Lexeme.mark, Function.comp_def] using congrArg (List.map Mark.token) same
  intro rest
  refine ⟨?_, steady others tokens rest⟩
  match own, others, some, same with
  | first :: own, other :: others, _, same =>
    obtain ⟨space, token⟩ := Mark.mk.inj (List.cons.inj same).1
    simpa only [Stream.prepend_cons, Stream.opensDirective, Stream.ahead, Stream.token_more, Lexeme.isSpaced,
      space, token] using opens

end Grammar
end Hocon
