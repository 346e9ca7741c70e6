import Hocon.Proofs.Grammar.Directive
import Hocon.Proofs.Lookahead.Following

namespace Hocon

private theorem Directive.not_blamesAnswer_of_isRequired {start : Position} {words : List String}
    {fault : Fault}
    (failed : isRequired start words = .error fault) : fault.blamesAnswer = false := by
  induction words with
  | nil => cases failed
  | cons word rest ih =>
    rw [isRequired] at failed
    split at failed
    · cases further : isRequired start rest with
      | error cause =>
        rw [further] at failed
        cases failed
        exact ih further
      | ok required =>
        rw [further] at failed
        cases failed
    · split at failed
      · exact ih failed
      · split at failed <;> cases failed <;> rfl

namespace Stream

open Grammar (atoms)

variable {stream : Stream} {lexeme : Lexeme} {step : Except Fault stream.Shorter}

/-- What is behind a part of a key, and the key with that part. -/
def keyPart (stream : Stream) (start : Position) (builder : KeyPath.Builder)
    (step : Except Fault stream.Shorter) : Run (stream.Shorter × KeyPath.Builder) := do
  let next ← Run.ofExcept step
  match builder.take? (atoms stream.token) with
  | some longer => return (next, longer)
  | none => throw (.emptyKeySegment start)

private theorem key_next {start : Position} {builder : KeyPath.Builder} {begun : Bool}
    (going : stream.next? = some (lexeme, step)) (word : stream.token.isWord = true)
    (adjacent : begun = true → stream.ahead.isSpaced = false) :
    Run.ofExcept (stream.key start builder begun) = (do
      let part ← stream.keyPart start builder step
      let taken ← Run.ofExcept (part.1.val.key start part.2 true)
      return ⟨taken.value, taken.rest, lt_succ_of_lt (lt_of_le taken.within part.1.property)⟩) := by
  cases stream with
  | ended last => cases going
  | broken lexeme fault =>
    cases going
    have word : lexeme.token.isWord = true := word
    rw [key_broken word adjacent]
    rfl
  | more lexeme next =>
    cases going
    have word : lexeme.token.isWord = true := word
    have same : builder.take? (atoms (more lexeme next).token) = builder.take? (atoms lexeme.token) := rfl
    rw [key_more word adjacent, keyPart, same]
    cases builder.take? (atoms lexeme.token) with
    | none => rfl
    | some longer => exact Run.ofExcept_map _ _

private theorem closing_next {missing : Nat} (going : stream.next? = some (lexeme, step)) (opened : missing ≠ 0)
    (closes : closesOf missing stream.token = true) :
    Run.ofExcept (stream.closing missing) = (do
      let next ← Run.ofExcept step
      let taken ← Run.ofExcept (next.val.closing (missing - closedBy stream.token))
      return ⟨taken.value, taken.rest, lt_succ_of_lt (lt_of_le taken.within next.property)⟩) := by
  cases stream with
  | ended last => cases going
  | broken lexeme fault =>
    cases going
    have closes : closesOf missing lexeme.token = true := closes
    rw [(closing_more opened closes).1 fault]
    rfl
  | more lexeme next =>
    cases going
    have closes : closesOf missing lexeme.token = true := closes
    rw [(closing_more opened closes).2 next, Run.ofExcept_map]
    rfl

end Stream

namespace Lookahead

open Grammar (atoms)

variable {clean : Prop} {parser : Parser} {stream : Stream} {start : Position} {builder : KeyPath.Builder}
  {begun : Bool} {limit fuel missing : Nat}

/-- The keys that are left of a builder are those of its path. -/
private theorem follows_closeKey (holds : Holds parser stream)
    (ends : stream.token.isWord = true → begun = true ∧ stream.ahead.isSpaced = true) :
    Follows clean parser (closeKey start builder) (Run.ofExcept (stream.key start builder begun))
      fun path taken later => path = taken.value.toList ∧ Moved parser stream [] taken.rest later := by
  rw [Stream.key_end stream ends]
  unfold closeKey KeyPath.Builder.dot? KeyPath.Builder.path?
  by_cases blank : builder.isBlankSegment = true
  · simp only [blank, if_true]
    exact .fail fun _ => rfl
  · simp only [blank]
    exact .pure ⟨(KeyPath.toList_snoc _ _).symm, .refl holds⟩

private theorem follows_keyPart (holds : Holds parser stream) {lexeme : Lexeme}
    {step : Except Fault stream.Shorter}
    (going : stream.next? = some (lexeme, step)) (word : stream.token.isWord = true) :
    Follows clean parser (keyPart start builder) (stream.keyPart start builder step) fun longer part later =>
      longer = part.2 ∧ Moved parser stream [] part.1.val later := by
  unfold keyPart Stream.keyPart
  refine (Follows.bump holds going).bind ?_
  rintro _ next later ⟨rfl, moved⟩
  cases token : stream.token <;> simp only [token, Token.isWord, Bool.false_eq_true] at word
  case quoted text => exact .pure ⟨rfl, moved⟩
  case unquoted text =>
    simp only [atoms, ← KeyPath.Builder.word?_eq_take?]
    cases builder.word? text.toList with
    | none => exact .fail fun _ => rfl
    | some longer => exact .pure ⟨rfl, moved⟩

private theorem follows_keyLoop (holds : Holds parser stream) (enough : stream.length < fuel) :
    Follows clean parser (loop (keyPass start) fuel (builder, begun) >>= closeKey start)
      (Run.ofExcept (stream.key start builder begun)) fun path taken later =>
        path = taken.value.toList ∧ Moved parser stream [] taken.rest later := by
  induction fuel generalizing parser stream builder begun with
  | zero => exact absurd enough (Nat.not_lt_zero _)
  | succ fuel ih =>
    refine .unroll_then ?_
    rw [keyPass, bind_assoc]
    refine .isSpaced holds ?_
    by_cases parted : (begun && stream.ahead.isSpaced) = true
    · simp only [parted, if_true, pure_bind]
      exact follows_closeKey holds fun _ => by simpa using parted
    have touches : begun = true → stream.ahead.isSpaced = false := by
      rintro rfl
      simpa using parted
    rw [if_neg parted, bind_assoc]
    refine .peek holds ?_
    by_cases word : stream.token.isWord = true
    · cases going : stream.next? with
      | none =>
        rw [holds.ended going] at word
        cases word
      | some found =>
        rw [Stream.key_next going word touches]
        suffices part : Follows clean parser
            ((do let builder ← keyPart start builder; return .again (builder, true)) >>=
              Follows.settle (keyPass start) fuel parser.taken (closeKey start)) _ _ by
          cases token : stream.token <;> simp only [token, Token.isWord, Bool.false_eq_true] at word <;>
            exact part
        rw [bind_assoc]
        refine (follows_keyPart holds going word).bind ?_
        rintro longer part later ⟨rfl, moved⟩
        rw [pure_bind]
        refine .again_then (moved.taken_lt part.1.property) ?_
        refine (ih moved.holds (Nat.lt_of_lt_of_le part.1.property (Nat.le_of_lt_succ enough))).finish ?_
        exact fun _ _ _ read => ⟨read.1, moved.trans read.2⟩
    · suffices ends : Follows clean parser (closeKey start builder) _ _ by
        cases token : stream.token <;> simp only [token, Token.isWord, not_true] at word <;> exact ends
      exact follows_closeKey holds fun other => absurd other word

/-- A key is read as its keys, from where it starts. -/
theorem follows_readKey (holds : Holds parser stream) (enough : stream.length < limit) :
    Follows clean parser (readKey limit builder begun) (Run.ofExcept (stream.key stream.start builder begun))
      fun path taken later => path = taken.value.toList ∧ Moved parser stream [] taken.rest later :=
  .place holds (follows_keyLoop holds enough)

private theorem follows_closers (holds : Holds parser stream) (enough : stream.length < fuel) :
    Follows clean parser (loop closerPass fuel missing) (Run.ofExcept (stream.closing missing))
      fun left taken later => left = taken.value ∧ Moved parser stream [] taken.rest later := by
  induction fuel generalizing parser stream missing with
  | zero => exact absurd enough (Nat.not_lt_zero _)
  | succ fuel ih =>
    refine .unroll ?_
    rw [closerPass]
    by_cases done : missing = 0
    · rw [if_pos done, pure_bind, Stream.closing_stop stream (.inl done)]
      exact .pure ⟨rfl, .refl holds⟩
    rw [if_neg done, bind_assoc]
    refine .peek holds ?_
    by_cases closes : Stream.closesOf missing stream.token = true
    · cases going : stream.next? with
      | none =>
        rw [holds.ended going] at closes
        cases closes
      | some found =>
        rw [Stream.closing_next going done closes]
        cases token : stream.token <;> simp only [token, Stream.closesOf, Bool.false_eq_true] at closes
        case unquoted word =>
          obtain ⟨parentheses, fits⟩ : word.toList.all (· == ')') = true ∧ ¬missing < word.length := by
            simpa using closes
          simp only [parentheses, if_true, if_neg fits, bind_assoc, pure_bind, Stream.closedBy]
          refine (Follows.advance holds going).bind fun _ next later moved => ?_
          refine .again (moved.taken_lt next.property) ?_
          refine (ih moved.holds (Nat.lt_of_lt_of_le next.property (Nat.le_of_lt_succ enough))).finish ?_
          exact fun _ _ _ read => ⟨read.1, moved.trans read.2⟩
    · rw [Stream.closing_stop stream (.inr (Bool.eq_false_iff.mpr closes))]
      suffices stays : Follows clean parser (pure missing : Parsing Nat) _ _ by
        cases token : stream.token
        case unquoted word =>
          rw [token] at closes
          cases parentheses : word.toList.all (· == ')') with
          | true =>
            have exceeds : missing < word.length := by simpa [Stream.closesOf, parentheses] using closes
            simpa only [parentheses, exceeds, if_true, pure_bind, Follows.settle_finished] using stays
          | false =>
            simpa only [parentheses, Bool.false_eq_true, if_false, pure_bind, Follows.settle_finished]
              using stays
        all_goals exact stays
      exact .pure ⟨rfl, .refl holds⟩

private theorem follows_readQualifiers (holds : Holds parser stream) :
    Follows clean parser readQualifiers (Run.ofExcept stream.qualifiers)
      fun words taken later => words = taken.value ∧ Moved parser stream [] taken.rest later := by
  unfold readQualifiers
  refine .peek holds ?_
  cases going : stream.next? with
  | none =>
    have token := holds.ended going
    rw [Stream.qualifiers]
    simp only [token, going]
    exact .pure ⟨rfl, .refl holds⟩
  | some found =>
    obtain ⟨⟨space, start, token⟩, step⟩ := found
    have first : stream.token = token := Stream.token_of_next? going
    rw [Stream.qualifiers, first]
    simp only [going]
    cases token
    case unquoted word =>
      simp only [Run.ofExcept_bind]
      exact (Follows.advance holds going).bind fun _ next later moved => .pure ⟨rfl, moved⟩
    all_goals exact .pure ⟨rfl, .refl holds⟩

/-- A directive is read as the stream gives it. -/
theorem follows_includeSpec (holds : Holds parser stream) (enough : stream.length < limit) :
    Follows clean parser (includeSpec limit) (Run.ofExcept stream.directive)
      fun directive taken later => directive = taken.value ∧ Moved parser stream [] taken.rest later := by
  unfold includeSpec Stream.directive
  refine .place holds ?_
  rw [Run.ofExcept_bind]
  refine (follows_readQualifiers holds).bind ?_
  rintro _ ⟨words, named, left⟩ later ⟨rfl, moved⟩
  dsimp only
  rw [Run.ofExcept_bind]
  refine .ofExcept Directive.not_blamesAnswer_of_isRequired fun required => ?_
  cases going : named.next? with
  | none =>
    refine .bump_ended moved.holds going fun last same => ?_
    exact .fail fun _ => rfl
  | some found =>
    obtain ⟨⟨space, start, token⟩, step⟩ := found
    have first : named.token = token := Stream.token_of_next? going
    rw [Run.ofExcept_bind]
    refine (Follows.bump moved.holds going).bind ?_
    rintro _ next past ⟨rfl, behind⟩
    rw [first]
    cases token
    case quoted pattern =>
      dsimp only
      rw [Run.ofExcept_bind]
      have shorter : next.val.length < named.length := next.property
      refine (follows_closers behind.holds (by omega)).bind ?_
      rintro missing taken last ⟨rfl, closed⟩
      dsimp only
      split
      · exact .pure ⟨rfl, (moved.trans behind).trans closed⟩
      · exact .fail fun _ => rfl
    all_goals exact .fail fun _ => rfl

end Lookahead
end Hocon
