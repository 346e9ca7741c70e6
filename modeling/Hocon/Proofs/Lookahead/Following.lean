import Hocon.Proofs.Grammar.Reading
import Hocon.Proofs.Lookahead.Parser

/-! A parser beside a stream. It holds the front of the stream, and each part of it follows the run that reads
the stream: it comes to what the run comes to and is then before the rest of the stream. The tokens it has taken
and those still to come always make up the same number, so what is shorter in the stream was taken. -/
namespace Hocon

/-- A fault that says of an answer that it is no object. -/
def Fault.blamesAnswer : Fault → Bool
  | .includedNotObject .. => true
  | _ => false

private theorem Fault.not_blamesAnswer_of_isLexical {fault : Fault} (lexical : fault.isLexical = true) :
    fault.blamesAnswer = false := by
  cases fault <;> first | rfl | cases lexical

theorem Run.ofExcept_map {α β : Type} (outcome : Except Fault α) (make : α → β) :
    Run.ofExcept (outcome.map make) = Run.ofExcept outcome >>= fun made => pure (make made) := by
  cases outcome <;> rfl

theorem Run.ofExcept_bind {α β : Type} (first : Except Fault α) (next : α → Except Fault β) :
    Run.ofExcept (first >>= next) = Run.ofExcept first >>= fun made => Run.ofExcept (next made) := by
  cases first <;> rfl

theorem Stream.length_le_of_read {cursor : Cursor} {stream : Stream}
    (read : Stream.read cursor = .ok stream) : stream.length ≤ cursor.rest.length := by
  rw [Stream.read] at read
  split at read
  case h_1 =>
    cases read
    exact Nat.zero_le _
  case h_2 going =>
    have shorter := cursor.read_shorter going
    split at read
    case h_1 => cases read
    case h_2 token scanned =>
      cases further : Stream.read cursor.read.after with
      | error fault =>
        rw [further] at read
        cases read
        simp only [length]
        omega
      | ok next =>
        have behind := length_le_of_read further
        rw [further] at read
        cases read
        simp only [length]
        omega
termination_by cursor.rest.length

private theorem Stream.length_of_next? {stream : Stream} {lexeme : Lexeme} {next : stream.Shorter}
    (going : stream.next? = some (lexeme, .ok next)) : next.val.length + 1 = stream.length := by
  cases stream <;> cases going
  rfl

theorem Stream.token_of_next? {stream : Stream} {lexeme : Lexeme} {step : Except Fault stream.Shorter}
    (going : stream.next? = some (lexeme, step)) : stream.token = lexeme.token :=
  congrArg Lexeme.token (ahead_of_next? going)

theorem Stream.start_of_next? {stream : Stream} {lexeme : Lexeme} {step : Except Fault stream.Shorter}
    (going : stream.next? = some (lexeme, step)) : stream.start = lexeme.start :=
  congrArg Lexeme.start (ahead_of_next? going)

namespace Lookahead

/-- The first token of the stream is ahead, and the cursor reads what is behind it. -/
structure Holds (parser : Parser) (stream : Stream) : Prop where
  ahead : parser.ahead = some stream.token
  space : parser.space = stream.ahead.space
  start : parser.start = stream.start
  ended : stream.next? = none → stream.token = .endOfText
  going : ∀ {lexeme step}, stream.next? = some (lexeme, step) →
    stream.token ≠ .endOfText ∧ Stream.read parser.cursor = step.map (·.val)

/-- From before one stream to before the rest of it, with these references read on the way. -/
structure Moved (parser : Parser) (stream : Stream) (references : List Reference) (rest : Stream)
    (later : Parser) : Prop where
  holds : Holds later rest
  references : later.references = parser.references ++ references
  taken : later.taken + rest.length = parser.taken + stream.length

/-- The parser comes to what the run comes to. A fault in that blames no answer if answers are clean. -/
def Follows (clean : Prop) {α β : Type} (parser : Parser) (parsing : Parsing α) (run : Run β)
    (post : α → β → Parser → Prop) : Prop :=
  match run parser.session with
  | .ok made session =>
    ∃ value later, parsing parser = .ok value later ∧ later.session = session ∧ post value made later
  | .error fault session => (clean → fault.blamesAnswer = false) ∧
    ∃ later, parsing parser = .error (.fault fault) later ∧ later.session = session

variable {clean : Prop} {α β γ δ : Type} {parser middle later : Parser} {stream next rest : Stream}
  {references further : List Reference}

namespace Holds

theorem peek (holds : Holds parser stream) : peek parser = .ok (some stream.token) parser := by
  rw [← holds.ahead]
  rfl

private theorem place (holds : Holds parser stream) : place parser = .ok stream.start parser := by
  rw [← holds.start]
  rfl

theorem isSpaced (holds : Holds parser stream) : isSpaced parser = .ok stream.ahead.isSpaced parser := by
  rw [Lexeme.isSpaced, ← holds.space]
  rfl

/-- Where a parser is before a stream, references and what the session goes through do not count. -/
private theorem onward (holds : Holds parser stream) (references : List Reference) (session : Session) :
    Holds { parser with references := references, session := session } stream :=
  ⟨holds.ahead, holds.space, holds.start, holds.ended, holds.going⟩

end Holds

namespace Moved

theorem refl (holds : Holds parser stream) : Moved parser stream [] stream parser :=
  ⟨holds, (List.append_nil _).symm, rfl⟩

theorem trans (first : Moved parser stream references next middle)
    (second : Moved middle next further rest later) :
    Moved parser stream (references ++ further) rest later where
  holds := second.holds
  references := by rw [second.references, first.references, List.append_assoc]
  taken := second.taken.trans first.taken

/-- Where it is then, more references may be kept. -/
theorem onward (moved : Moved parser stream references rest later) (more : List Reference)
    (session : Session) :
    Moved parser stream (references ++ more) rest
      { later with references := later.references ++ more, session := session } where
  holds := moved.holds.onward _ _
  references := by rw [moved.references, List.append_assoc]
  taken := moved.taken

/-- What is shorter was taken. -/
theorem taken_lt (moved : Moved parser stream references rest later) (shorter : rest.length < stream.length) :
    parser.taken < later.taken := by
  have same := moved.taken
  omega

end Moved

namespace Follows

variable {parsing : Parsing α} {run : Run β} {post : α → β → Parser → Prop}

theorem pure {result : α} {made : β} (holds : post result made parser) :
    Follows clean parser (pure result) (pure made) post := ⟨result, parser, rfl, rfl, holds⟩

theorem fail {fault : Fault} (own : clean → fault.blamesAnswer = false) :
    Follows clean parser (Lookahead.fail fault : Parsing α) (throw fault : Run β) post :=
  ⟨own, parser, rfl, rfl⟩

theorem bind {next : α → Parsing γ} {further : β → Run δ} {last : γ → δ → Parser → Prop}
    (first : Follows clean parser parsing run post)
    (second : ∀ result made later, post result made later →
      Follows clean later (next result) (further made) last) :
    Follows clean parser (parsing >>= next) (run >>= further) last := by
  unfold Follows at first ⊢
  simp only [Bind.bind, EStateM.bind]
  cases ran : run parser.session with
  | error fault session =>
    rw [ran] at first
    obtain ⟨own, later, halted, same⟩ := first
    exact ⟨own, later, by rw [halted], same⟩
  | ok made session =>
    rw [ran] at first
    obtain ⟨result, later, done, rfl, holds⟩ := first
    have goes := second result made later holds
    unfold Follows at goes
    simpa only [done] using goes

theorem finish {make : β → δ} {last : α → δ → Parser → Prop}
    (follows : Follows clean parser parsing run post)
    (implied : ∀ result made later, post result made later → last result (make made) later) :
    Follows clean parser parsing (run >>= fun made => Pure.pure (make made)) last := by
  rw [← bind_pure parsing]
  exact follows.bind fun result made later holds => .pure (implied result made later holds)

theorem weaken {weaker : α → β → Parser → Prop} (follows : Follows clean parser parsing run post)
    (implied : ∀ result made later, post result made later → weaker result made later) :
    Follows clean parser parsing run weaker := by
  unfold Follows at follows ⊢
  cases ran : run parser.session with
  | error fault session => simpa only [ran] using follows
  | ok made session =>
    rw [ran] at follows
    obtain ⟨result, later, done, same, holds⟩ := follows
    exact ⟨result, later, done, same, implied result made later holds⟩

theorem bind_left {next : α → Parsing γ} {run : Run δ} {last : γ → δ → Parser → Prop} {result : α}
    {later : Parser} (done : parsing parser = .ok result later) (same : later.session = parser.session)
    (goes : Follows clean later (next result) run last) :
    Follows clean parser (parsing >>= next) run last := by
  unfold Follows at goes ⊢
  rw [same] at goes
  simpa only [Bind.bind, EStateM.bind, done] using goes

/-- What the session alone goes through. -/
theorem lift_then {run : Run α} {next : α → Parsing γ} {further : α → Run δ}
    {last : γ → δ → Parser → Prop}
    (own : clean → ∀ {fault after}, run parser.session = .error fault after →
      fault.blamesAnswer = false)
    (goes : ∀ {made after}, run parser.session = .ok made after →
      Follows clean { parser with session := after } (next made) (further made) last) :
    Follows clean parser (Lookahead.lift run >>= next) (run >>= further) last := by
  unfold Follows Lookahead.lift within halting
  simp only [Bind.bind, EStateM.bind]
  cases ran : run parser.session with
  | error fault after => exact ⟨fun cleanly => own cleanly ran, _, rfl, rfl⟩
  | ok made after => exact goes ran

/-- What may fail at once, and is the same for the parser and the run. -/
theorem ofExcept {outcome : Except Fault α} {next : α → Parsing γ} {further : α → Run δ}
    {last : γ → δ → Parser → Prop}
    (own : ∀ {fault}, outcome = .error fault → fault.blamesAnswer = false)
    (goes : ∀ made, Follows clean parser (next made) (further made) last) :
    Follows clean parser (Lookahead.lift (Run.ofExcept outcome) >>= next)
      (Run.ofExcept outcome >>= further) last := by
  cases outcome with
  | error fault => exact ⟨fun _ => own rfl, parser, rfl, rfl⟩
  | ok made => exact bind_left rfl rfl (goes made)

section Ahead

variable {next : Option Token → Parsing γ} {run : Run δ} {last : γ → δ → Parser → Prop}

theorem peek (holds : Holds parser stream) (goes : Follows clean parser (next (some stream.token)) run last) :
    Follows clean parser (Lookahead.peek >>= next) run last :=
  bind_left holds.peek rfl goes

theorem place {next : Position → Parsing γ} (holds : Holds parser stream)
    (goes : Follows clean parser (next stream.start) run last) :
    Follows clean parser (Lookahead.place >>= next) run last :=
  bind_left holds.place rfl goes

theorem isSpaced {next : Bool → Parsing γ} (holds : Holds parser stream)
    (goes : Follows clean parser (next stream.ahead.isSpaced) run last) :
    Follows clean parser (Lookahead.isSpaced >>= next) run last :=
  bind_left holds.isSpaced rfl goes

end Ahead

section Fetch

private theorem get_bind (next : Parser → Parsing γ) : (get >>= next) parser = next parser parser := rfl

private theorem modify_bind (change : Parser → Parser) (next : Unit → Parsing γ) :
    (modify change >>= next) parser = next () (change parser) := rfl

private theorem fetch_of_error {fault : Fault} (scanned : parser.cursor.read.scan.outcome = .error fault) :
    Lookahead.fetch parser =
      .error (.fault fault) { parser with cursor := parser.cursor.read.after, ahead := none } := by
  simp only [Lookahead.fetch, get_bind, modify_bind, scanned]
  rfl

private theorem fetch_of_ok {token : Token} (scanned : parser.cursor.read.scan.outcome = .ok token) :
    Lookahead.fetch parser = .ok () { parser with
      cursor := parser.cursor.read.after, ahead := some token, space := parser.cursor.read.space
      start := parser.cursor.read.start } := by
  simp only [Lookahead.fetch, get_bind, modify_bind, scanned]
  rfl

theorem fetch : Follows clean parser fetch (Run.ofExcept (Stream.read parser.cursor)) fun _ stream later =>
    Holds later stream ∧ later.references = parser.references ∧ later.taken = parser.taken ∧
      Stream.read parser.cursor = .ok stream := by
  unfold Follows
  cases scanned : parser.cursor.read.scan.outcome with
  | error fault =>
    have read : Stream.read parser.cursor = .error fault := by
      rw [Stream.read_eq]
      simp only [scanned]
    have own := Fault.not_blamesAnswer_of_isLexical (Cursor.token_lexical _ _ fault scanned)
    rw [fetch_of_error scanned, read]
    exact ⟨fun _ => own, _, rfl, rfl⟩
  | ok token =>
    rw [fetch_of_ok scanned]
    by_cases ended : token = .endOfText
    · subst ended
      have read : Stream.read parser.cursor =
          .ok (.ended ⟨parser.cursor.read.space, parser.cursor.read.start, .endOfText⟩) := by
        rw [Stream.read_eq]
        simp only [scanned]
      rw [read]
      refine ⟨(), _, rfl, rfl, ⟨rfl, rfl, rfl, fun _ => rfl, ?_⟩, rfl, rfl, rfl⟩
      intro _ _ going
      cases going
    cases further : Stream.read parser.cursor.read.scan.after with
    | error fault =>
      have read : Stream.read parser.cursor =
          .ok (.broken ⟨parser.cursor.read.space, parser.cursor.read.start, token⟩ fault) := by
        rw [Stream.read_eq]
        simp only [scanned, further]
      rw [read]
      refine ⟨(), _, rfl, rfl, ⟨rfl, rfl, rfl, fun none => (Option.some_ne_none _ none).elim, ?_⟩, rfl, rfl, rfl⟩
      intro _ _ going
      cases going
      exact ⟨ended, further⟩
    | ok next =>
      have read : Stream.read parser.cursor =
          .ok (.more ⟨parser.cursor.read.space, parser.cursor.read.start, token⟩ next) := by
        rw [Stream.read_eq]
        simp only [scanned, further]
      rw [read]
      refine ⟨(), _, rfl, rfl, ⟨rfl, rfl, rfl, fun none => (Option.some_ne_none _ none).elim, ?_⟩, rfl, rfl, rfl⟩
      intro _ _ going
      cases going
      exact ⟨ended, further⟩

end Fetch

theorem bump (holds : Holds parser stream) {lexeme : Lexeme} {step : Except Fault stream.Shorter}
    (going : stream.next? = some (lexeme, step)) :
    Follows clean parser bump (Run.ofExcept step) fun token next later =>
      token = stream.token ∧ Moved parser stream [] next.val later := by
  obtain ⟨proper, reads⟩ := holds.going going
  unfold Lookahead.bump
  refine peek holds ?_
  split
  case h_1 none => cases none
  case h_2 ended => exact absurd (Option.some.inj ended) proper
  case h_3 token same =>
    -- What is taken is the very token that was ahead. Where the next one cannot be read, the stream
    -- is broken behind this one, and none is held.
    obtain rfl := Option.some.inj same
    refine bind_left rfl rfl ?_
    have fetched : Follows clean { parser with ahead := none, taken := parser.taken + 1 } Lookahead.fetch
        (Run.ofExcept (Stream.read parser.cursor)) _ := fetch
    rw [reads] at fetched
    cases step with
    | error fault =>
      obtain ⟨own, later, halted, same⟩ := fetched
      exact ⟨own, later, by simp only [Bind.bind, EStateM.bind, halted], same⟩
    | ok next =>
      obtain ⟨_, later, done, same, behind, kept, taken, _⟩ := fetched
      refine ⟨stream.token, later, by simp only [Bind.bind, EStateM.bind, done]; rfl, same, rfl, behind, ?_, ?_⟩
      · rw [kept, List.append_nil]
      · have counted := Stream.length_of_next? going
        rw [taken]
        dsimp only
        omega

theorem advance (holds : Holds parser stream) {lexeme : Lexeme} {step : Except Fault stream.Shorter}
    (going : stream.next? = some (lexeme, step)) :
    Follows clean parser advance (Run.ofExcept step) fun _ next later =>
      Moved parser stream [] next.val later := by
  rw [← bind_pure (Run.ofExcept step)]
  exact (bump holds going).bind fun _ _ _ holds => .pure holds.2

theorem bump_ended (holds : Holds parser stream) (ended : stream.next? = none) {next : Token → Parsing γ}
    {run : Run δ} {last : γ → δ → Parser → Prop}
    (goes : ∀ later, later.session = parser.session → Follows clean later (next .endOfText) run last) :
    Follows clean parser (Lookahead.bump >>= next) run last := by
  have done : Lookahead.bump parser = .ok .endOfText { parser with space := "" } := by
    have peeked : Lookahead.peek parser = .ok (some .endOfText) parser := holds.ended ended ▸ holds.peek
    simp only [Lookahead.bump, Bind.bind, EStateM.bind, peeked]
    rfl
  exact bind_left done rfl (goes _ rfl)

section Loops

variable {σ : Type} {pass : σ → Parsing (Pass σ α)} {fuel before : Nat} {state : σ}
  {next : α → Parsing γ}

/-- What a loop does behind one of its passes, and then what is behind the loop. -/
def settle (pass : σ → Parsing (Pass σ α)) (fuel before : Nat) (next : α → Parsing γ) :
    Pass σ α → Parsing γ
  | .finished result => next result
  | .again state => do
    if before < (← get).taken then Lookahead.loop pass fuel state >>= next
    else throw .idle

@[simp] theorem settle_finished {result : α} :
    settle pass fuel before next (.finished result) = next result := rfl

/-- A loop begins with one pass. -/
theorem unroll_then {run : Run β} {post : γ → β → Parser → Prop}
    (one : Follows clean parser (pass state >>= settle pass fuel parser.taken next) run post) :
    Follows clean parser (Lookahead.loop pass (fuel + 1) state >>= next) run post := by
  rw [Lookahead.loop, bind_assoc]
  refine bind_left rfl rfl ?_
  rw [bind_assoc]
  refine (congrArg (Follows clean parser · run post) (bind_congr fun result => ?_)).mpr one
  cases result with
  | finished value => rw [pure_bind]; rfl
  | again state =>
    rw [bind_assoc]
    refine congrArg _ (funext fun later => ?_)
    split <;> rfl

theorem unroll {run : Run β} {post : α → β → Parser → Prop}
    (one : Follows clean parser (pass state >>= settle pass fuel parser.taken Pure.pure) run post) :
    Follows clean parser (Lookahead.loop pass (fuel + 1) state) run post := by
  rw [← bind_pure (Lookahead.loop pass (fuel + 1) state)]
  exact unroll_then one

/-- A loop goes on behind a pass that took something. -/
theorem again_then {run : Run β} {post : γ → β → Parser → Prop} (more : before < parser.taken)
    (goes : Follows clean parser (Lookahead.loop pass fuel state >>= next) run post) :
    Follows clean parser (settle pass fuel before next (.again state)) run post := by
  refine bind_left rfl rfl ?_
  rw [if_pos more]
  exact goes

theorem again {run : Run β} {post : α → β → Parser → Prop} (more : before < parser.taken)
    (goes : Follows clean parser (Lookahead.loop pass fuel state) run post) :
    Follows clean parser (settle pass fuel before Pure.pure (.again state)) run post :=
  again_then more (by rwa [bind_pure])

end Loops

end Follows

private theorem dropWhile_next {drop : Token → Bool} {lexeme : Lexeme} {step : Except Fault stream.Shorter}
    (going : stream.next? = some (lexeme, step)) (dropped : drop stream.token = true) :
    Run.ofExcept (stream.dropWhile drop) = (do
      let next ← Run.ofExcept step
      let front ← Run.ofExcept (next.val.dropWhile drop)
      return ⟨front.val, Stream.lt_succ_of_lt (Stream.lt_of_le front.property next.property)⟩) := by
  cases stream with
  | ended last => cases going
  | broken lexeme fault =>
    cases going
    have dropped : drop lexeme.token = true := dropped
    rw [Stream.dropWhile, if_pos dropped]
    rfl
  | more lexeme next =>
    cases going
    have dropped : drop lexeme.token = true := dropped
    rw [Stream.dropWhile, if_pos dropped, Run.ofExcept_map]
    rfl

/-- Skipping tokens is dropping them from the stream. -/
theorem follows_skip {limit : Nat} {drop : Token → Bool} (atEnd : drop .endOfText = false)
    (holds : Holds parser stream) (enough : stream.length < limit) :
    Follows clean parser (skip limit drop) (Run.ofExcept (stream.dropWhile drop)) fun _ front later =>
      Moved parser stream [] front.val later := by
  unfold skip
  induction limit generalizing parser stream with
  | zero => exact absurd enough (Nat.not_lt_zero _)
  | succ limit ih =>
    refine .unroll ?_
    unfold skipPass
    rw [bind_assoc]
    refine .peek holds ?_
    cases dropped : drop stream.token with
    | false =>
      rw [Stream.dropWhile_of_kept dropped]
      simp only [dropped, Bool.false_eq_true, if_false, pure_bind]
      exact .pure (.refl holds)
    | true =>
      cases going : stream.next? with
      | none =>
        rw [holds.ended going, atEnd] at dropped
        cases dropped
      | some found =>
        rw [dropWhile_next going dropped]
        simp only [dropped, if_true, bind_assoc, pure_bind]
        refine (Follows.advance holds going).bind fun _ next later moved => ?_
        refine .again (moved.taken_lt next.property) ?_
        refine (ih moved.holds (Nat.lt_of_lt_of_le next.property (Nat.le_of_lt_succ enough))).finish ?_
        exact fun _ _ _ behind => moved.trans behind

end Lookahead
end Hocon
