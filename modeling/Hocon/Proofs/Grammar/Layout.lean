import Hocon.Proofs.Grammar.Directing
import Hocon.Proofs.Grammar.Parallel
import Mathlib.Data.List.Forall2

/-! Layout. The separators between two tokens may be exchanged for others, as long as fields and
elements stay parted, and so may the mark behind a key. What is spelled is the same tree, wherever
its references stand. -/
namespace Hocon

namespace Token

/-- Opens fields or elements. -/
def opens : Token → Bool
  | .leftBrace | .leftBracket => true
  | _ => false

/-- Closes fields or elements. -/
def closes : Token → Bool
  | .rightBrace | .rightBracket => true
  | _ => false

/-- Ends a key or a value. -/
def endsValue : Token → Bool
  | .unquoted _ | .quoted _ | .reference .. | .rightBrace | .rightBracket => true
  | _ => false

/-- A mark between a key and its value, either of which does. -/
def assigns : Token → Bool
  | .colon | .equals => true
  | _ => false

theorem assigns_iff {token : Token} : token.assigns = true ↔ token = .colon ∨ token = .equals := by
  cases token <;> simp [assigns]

end Token

namespace Grammar

/-- Separators between two tokens that do as well as others: those themselves, any just behind what
opens or just in front of what closes, and some for some between two fields or two elements. -/
inductive Exchanged (prior next : Token) : List Token → List Token → Prop where
  | same {gap : List Token} : Exchanged prior next gap gap
  | opened {gap other : List Token} (opens : prior.opens = true) : Exchanged prior next gap other
  | closed {gap other : List Token} (closes : next.closes = true) : Exchanged prior next gap other
  | parted {gap other : List Token} (ends : prior.endsValue = true) (starts : next.startsValue = true)
      (some : gap ≠ []) (more : other ≠ []) : Exchanged prior next gap other

/-- Marks behind a token laid out anew. A colon and an equals sign stand for each other, and neither
is needed in front of a brace. Blanks stay as they are where they part two pieces or a key. -/
inductive Relaid : Token → List Mark → List Mark → Prop where
  | none {prior : Token} : Relaid prior [] []
  | token {prior : Token} {gap other marks others : List Mark} {mark mirrored : Mark}
      (separators : ∀ mark ∈ gap, mark.token.isSeparator = true)
      (exchanges : ∀ mark ∈ other, mark.token.isSeparator = true)
      (exchanged : Exchanged prior mark.token (gap.map Mark.token) (other.map Mark.token))
      (proper : mark.token.isSeparator = false)
      (same : mirrored.token = mark.token ∨ mark.token.assigns = true ∧ mirrored.token.assigns = true)
      (space : prior.endsValue = true → gap = [] → mark.token.startsValue = true →
        mirrored.space = mark.space)
      (further : Relaid mark.token marks others) : Relaid prior (gap ++ mark :: marks) (other ++ mirrored :: others)
  | dropped {prior : Token} {marks others : List Mark} {mark brace mirrored : Mark}
      (assigns : mark.token.assigns = true) (opens : brace.token = .leftBrace)
      (same : mirrored.token = .leftBrace) (further : Relaid .leftBrace marks others) :
      Relaid prior (mark :: brace :: marks) (mirrored :: others)

/-- A mark that may stand in the place of another between the same two. -/
structure Resembles (mark mirrored : Mark) : Prop where
  token : mirrored.token = mark.token
  space : mark.token.startsValue = true → mirrored.space = mark.space

/-- The last of these tokens, or the one before them. -/
def lastToken (prior : Token) (marks : List Mark) : Token := (marks.getLast?.map Mark.token).getD prior

private theorem lastToken_cons (prior : Token) (mark : Mark) (marks : List Mark) :
    lastToken prior (mark :: marks) = lastToken mark.token marks := by
  cases marks with
  | nil => rfl
  | cons next marks => simp [lastToken, List.getLast?_cons]

private theorem Relaid.behind {prior : Token} {front mirrored gap other marks others : List Mark}
    (separators : ∀ mark ∈ gap, mark.token.isSeparator = true)
    (exchanged : other.map Mark.token = gap.map Mark.token) (resembles : List.Forall₂ Resembles front mirrored)
    (proper : ∀ mark ∈ (gap ++ front).getLast?, mark.token.isSeparator = false)
    (further : Relaid (lastToken prior front) marks others) :
    Relaid prior (gap ++ front ++ marks) (other ++ mirrored ++ others) := by
  have exchanges : ∀ mark ∈ other, mark.token.isSeparator = true := by
    intro mark member
    obtain ⟨found, there, same⟩ := List.mem_map.mp (exchanged ▸ List.mem_map_of_mem member)
    rw [← same]
    exact separators found there
  induction resembles generalizing prior gap other with
  | nil =>
    cases final : gap.getLast? with
    | none =>
      obtain rfl := List.getLast?_eq_none_iff.mp final
      obtain rfl : other = [] := by simpa using exchanged
      exact further
    | some last =>
      have kept := proper last (by simpa using final)
      rw [separators last (List.mem_of_getLast? final)] at kept
      cases kept
  | @cons mark image front mirrored resembles others' ih =>
    rw [lastToken_cons] at further
    cases separator : mark.token.isSeparator with
    | true =>
      have begins : ∀ found ∈ gap ++ [mark], found.token.isSeparator = true :=
        List.forall_mem_append.mpr ⟨separators, by simpa using separator⟩
      have last : lastToken prior front = lastToken mark.token front := by
        cases front with
        | nil =>
          have kept := proper mark (by simp)
          rw [separator] at kept
          cases kept
        | cons next front => rw [lastToken_cons, lastToken_cons]
      have alike : (other ++ [image]).map Mark.token = (gap ++ [mark]).map Mark.token := by
        simp [exchanged, resembles.token]
      have images : ∀ found ∈ other ++ [image], found.token.isSeparator = true :=
        List.forall_mem_append.mpr ⟨exchanges, by simpa [resembles.token] using separator⟩
      simpa using ih begins alike (by simpa using proper) (last ▸ further) images
    | false =>
      have last : ∀ mark ∈ ([] ++ front).getLast?, mark.token.isSeparator = false := by
        intro found member
        refine proper found ?_
        cases front with
        | nil => cases member
        | cons next front => simpa [List.getLast?_append, List.getLast?_cons] using member
      have whole : Relaid mark.token ([] ++ front ++ marks) ([] ++ _ ++ others) :=
        ih (by simp) rfl last further (by simp)
      simpa using Relaid.token separators exchanges (exchanged ▸ .same) separator (.inl resembles.token)
        (fun _ _ => resembles.space) whole

theorem endsValue_not_opens {prior : Token} (ends : prior.endsValue = true) : prior.opens = false := by
  cases prior <;> first | rfl | cases ends

theorem Resembles.refl (mark : Mark) : Resembles mark mark := ⟨rfl, fun _ => rfl⟩

namespace Relaid

variable {prior : Token} {front gap again marks others : List Mark}

theorem alike (resembles : List.Forall₂ Resembles marks others)
    (proper : ∀ mark ∈ marks.getLast?, mark.token.isSeparator = false) : Relaid prior marks others := by
  have whole : Relaid prior ([] ++ marks ++ []) ([] ++ others ++ []) :=
    .behind (by simp) rfl resembles (by simpa using proper) .none
  simpa using whole

theorem refl (proper : ∀ mark ∈ marks.getLast?, mark.token.isSeparator = false) : Relaid prior marks marks :=
  .alike (List.forall₂_same.mpr fun mark _ => .refl mark) proper

theorem after (proper : (lastToken prior front).isSeparator = false)
    (further : Relaid (lastToken prior front) marks others) : Relaid prior (front ++ marks) (front ++ others) := by
  have last : ∀ mark ∈ front.getLast?, mark.token.isSeparator = false := by
    intro mark member
    rw [lastToken, Option.mem_def.mp member] at proper
    exact proper
  have whole : Relaid prior ([] ++ front ++ marks) ([] ++ front ++ others) :=
    .behind (by simp) rfl (List.forall₂_same.mpr fun mark _ => .refl mark) (by simpa using last) further
  simpa using whole

/-- Behind what opens any separators do, and any blanks in front of what follows them. -/
theorem opened {mark image : Mark} (opens : prior.opens = true)
    (separators : ∀ mark ∈ gap, mark.token.isSeparator = true)
    (exchanges : ∀ mark ∈ again, mark.token.isSeparator = true) (same : image.token = mark.token)
    (resembles : List.Forall₂ Resembles marks others)
    (proper : ∃ last ∈ (mark :: marks).getLast?, last.token.isSeparator = false) :
    Relaid prior (gap ++ mark :: marks) (again ++ image :: others) := by
  have free {P : Prop} (ends : prior.endsValue = true) : P := by
    cases (endsValue_not_opens ends).symm.trans opens
  induction resembles generalizing gap again mark image with
  | nil =>
    obtain ⟨last, member, proper⟩ := proper
    obtain rfl : mark = last := by simpa using member
    exact .token separators exchanges (.opened opens) proper (.inl same) free .none
  | @cons next mirrored marks others here further ih =>
    have kept : ∃ last ∈ (next :: marks).getLast?, last.token.isSeparator = false := by
      simpa [List.getLast?_cons] using proper
    cases separator : mark.token.isSeparator with
    | true =>
      have begins : ∀ found ∈ gap ++ [mark], found.token.isSeparator = true :=
        List.forall_mem_append.mpr ⟨separators, by simpa using separator⟩
      have images : ∀ found ∈ again ++ [image], found.token.isSeparator = true :=
        List.forall_mem_append.mpr ⟨exchanges, by simpa [same] using separator⟩
      simpa using ih begins images here.token kept
    | false =>
      refine .token separators exchanges (.opened opens) separator (.inl same) free
        (.alike (.cons here further) fun found member => ?_)
      obtain ⟨last, there, proper⟩ := kept
      obtain rfl := Option.mem_unique member there
      exact proper

end Relaid

section

variable {prior next : Token} {gap other : List Token}

private theorem startsValue_not_closes (starts : next.startsValue = true) : next.closes = false := by
  cases next <;> first | rfl | cases starts

theorem isWord_startsValue (word : next.isWord = true) : next.startsValue = true := by
  cases next <;> first | rfl | cases word

theorem isWord_endsValue (word : next.isWord = true) : next.endsValue = true := by
  cases next <;> first | rfl | cases word

theorem startsValue_proper (starts : next.startsValue = true) :
    next.isSeparator = false ∧ next.assigns = false := by
  cases next <;> first | exact ⟨rfl, rfl⟩ | cases starts

theorem closes_proper (closes : next.closes = true) : next.isSeparator = false ∧ next.assigns = false := by
  cases next <;> first | exact ⟨rfl, rfl⟩ | cases closes

private theorem Exchanged.nil (ends : prior.endsValue = true) (inner : next.closes = false)
    (exchanged : Exchanged prior next [] other) : other = [] := by
  cases exchanged with
  | same => rfl
  | opened opens => cases (endsValue_not_opens ends).symm.trans opens
  | closed closes => cases inner.symm.trans closes
  | parted _ _ some => exact absurd rfl some

private theorem Exchanged.ne_nil (ends : prior.endsValue = true) (inner : next.closes = false) (some : gap ≠ [])
    (exchanged : Exchanged prior next gap other) : other ≠ [] := by
  cases exchanged with
  | same => exact some
  | opened opens => cases (endsValue_not_opens ends).symm.trans opens
  | closed closes => cases inner.symm.trans closes
  | parted _ _ _ more => exact more

/-- Behind what neither opens nor ends anything separators stay as they are, but in front of what closes. -/
private theorem Exchanged.eq (opened : prior.opens = false)
    (ended : prior.endsValue = false ∨ next.startsValue = false)
    (inner : next.closes = false) (exchanged : Exchanged prior next gap other) : other = gap := by
  cases exchanged with
  | same => rfl
  | opened opens => cases opened.symm.trans opens
  | closed closes => cases inner.symm.trans closes
  | parted ends starts =>
    rcases ended with none | none
    · cases none.symm.trans ends
    · cases none.symm.trans starts

end

private theorem cut_inj {gap other marks others : List Mark} {mark mirrored : Mark}
    (whole : gap ++ mark :: marks = other ++ mirrored :: others)
    (separators : ∀ mark ∈ gap, mark.token.isSeparator = true) (proper : mark.token.isSeparator = false)
    (exchanges : ∀ mark ∈ other, mark.token.isSeparator = true) (kept : mirrored.token.isSeparator = false) :
    gap = other ∧ mark = mirrored ∧ marks = others := by
  induction gap generalizing other with
  | nil =>
    cases other with
    | nil => exact ⟨rfl, List.cons.inj whole⟩
    | cons first other =>
      obtain rfl : mark = first := (List.cons.inj whole).1
      cases proper.symm.trans (exchanges mark List.mem_cons_self)
  | cons first gap ih =>
    obtain ⟨separator, separators⟩ := List.forall_mem_cons.mp separators
    cases other with
    | nil =>
      obtain rfl : first = mirrored := (List.cons.inj whole).1
      cases kept.symm.trans separator
    | cons again other =>
      obtain ⟨rfl, behind⟩ := List.cons.inj whole
      obtain ⟨rfl, same⟩ := ih behind separators (List.forall_mem_cons.mp exchanges).2
      exact ⟨rfl, same⟩

namespace Relaid

variable {prior : Token} {lexeme : Lexeme} {gap rest others own behind : List Lexeme}

/-- Up to a token there are separators and that token, or it is a mark that was dropped. -/
private theorem cut (separators : ∀ lexeme ∈ gap, lexeme.token.isSeparator = true)
    (proper : lexeme.token.isSeparator = false)
    (relaid : Relaid prior ((gap ++ lexeme :: rest).map Lexeme.mark) (others.map Lexeme.mark)) :
    (∃ other mirrored further, others = other ++ mirrored :: further ∧
      (∀ lexeme ∈ other, lexeme.token.isSeparator = true) ∧
      Exchanged prior lexeme.token (gap.map Lexeme.token) (other.map Lexeme.token) ∧
      (mirrored.token = lexeme.token ∨ lexeme.token.assigns = true ∧ mirrored.token.assigns = true) ∧
      (prior.endsValue = true → gap = [] → lexeme.token.startsValue = true → mirrored.space = lexeme.space) ∧
      Relaid lexeme.token (rest.map Lexeme.mark) (further.map Lexeme.mark)) ∨
    (gap = [] ∧ lexeme.token.assigns = true ∧ ∃ brace behind mirrored further, rest = brace :: behind ∧
      others = mirrored :: further ∧ brace.token = .leftBrace ∧ mirrored.token = .leftBrace ∧
      Relaid .leftBrace (behind.map Lexeme.mark) (further.map Lexeme.mark)) := by
  have marks : ∀ mark ∈ gap.map Lexeme.mark, mark.token.isSeparator = true := by
    intro mark member
    obtain ⟨found, there, rfl⟩ := List.mem_map.mp member
    exact separators found there
  have tokens : ∀ lexemes : List Lexeme, (lexemes.map Lexeme.mark).map Mark.token = lexemes.map Lexeme.token :=
    fun lexemes => by simp [Lexeme.mark, Function.comp_def]
  rw [List.map_append, List.map_cons] at relaid
  generalize whole : gap.map Lexeme.mark ++ lexeme.mark :: rest.map Lexeme.mark = all at relaid
  generalize mirror : others.map Lexeme.mark = images at relaid
  cases relaid with
  | none => exact absurd whole (by simp)
  | @token _ spaces other _ _ mark mirrored seps exchanges exchanged kept same space further =>
    obtain ⟨rfl, rfl, rfl⟩ := cut_inj whole marks proper seps kept
    obtain ⟨front, back, rfl, rfl, again⟩ := List.map_eq_append_iff.mp mirror
    obtain ⟨image, last, rfl, rfl, rfl⟩ := List.map_eq_cons_iff.mp again
    refine .inl ⟨front, image, last, rfl, fun found member => ?_, ?_, same, ?_, further⟩
    · exact exchanges _ (List.mem_map_of_mem member)
    · rwa [tokens, tokens] at exchanged
    · exact fun ends none => space ends (by rw [none]; rfl)
  | dropped assigns opens same further =>
    have kept : ∀ token : Token, token.assigns = true → token.isSeparator = false := by
      intro token assigns
      cases token <;> first | rfl | cases assigns
    have whole : gap.map Lexeme.mark ++ lexeme.mark :: rest.map Lexeme.mark = [] ++ _ := whole
    obtain ⟨none, rfl, behind⟩ := cut_inj whole marks proper (by simp) (kept _ assigns)
    obtain ⟨brace, left, rfl, rfl, rfl⟩ := List.map_eq_cons_iff.mp behind
    obtain ⟨image, last, rfl, rfl, rfl⟩ := List.map_eq_cons_iff.mp mirror
    exact .inr ⟨List.map_eq_nil_iff.mp none, assigns, brace, left, image, last, rfl, rfl, opens, same, further⟩

private theorem next (separators : ∀ lexeme ∈ gap, lexeme.token.isSeparator = true)
    (proper : lexeme.token.isSeparator = false) (kept : lexeme.token.assigns = false)
    (relaid : Relaid prior ((gap ++ lexeme :: rest).map Lexeme.mark) (others.map Lexeme.mark)) :
    ∃ other mirrored further, others = other ++ mirrored :: further ∧
      (∀ lexeme ∈ other, lexeme.token.isSeparator = true) ∧
      Exchanged prior lexeme.token (gap.map Lexeme.token) (other.map Lexeme.token) ∧
      mirrored.token = lexeme.token ∧
      (prior.endsValue = true → gap = [] → lexeme.token.startsValue = true → mirrored.space = lexeme.space) ∧
      Relaid lexeme.token (rest.map Lexeme.mark) (further.map Lexeme.mark) := by
  rcases relaid.cut separators proper with
    ⟨other, mirrored, further, rfl, exchanges, exchanged, same, space, left⟩ | ⟨_, assigns, _⟩
  · refine ⟨other, mirrored, further, rfl, exchanges, exchanged, same.resolve_right fun assigns => ?_, space, left⟩
    cases kept.symm.trans assigns.1
  · cases kept.symm.trans assigns

private theorem adjacent (ends : prior.endsValue = true) (proper : lexeme.token.isSeparator = false)
    (inner : lexeme.token.closes = false) (kept : lexeme.token.assigns = false)
    (relaid : Relaid prior ((lexeme :: rest).map Lexeme.mark) (others.map Lexeme.mark)) :
    ∃ mirrored further, others = mirrored :: further ∧ mirrored.token = lexeme.token ∧
      (lexeme.token.startsValue = true → mirrored.space = lexeme.space) ∧
      Relaid lexeme.token (rest.map Lexeme.mark) (further.map Lexeme.mark) := by
  have relaid : Relaid prior (([] ++ lexeme :: rest).map Lexeme.mark) (others.map Lexeme.mark) := relaid
  obtain ⟨other, mirrored, further, rfl, _, exchanged, same, space, left⟩ := relaid.next (by simp) proper kept
  obtain rfl : other = [] := List.map_eq_nil_iff.mp (exchanged.nil ends inner)
  exact ⟨mirrored, further, rfl, same, space ends rfl, left⟩

private theorem assigning (ends : prior.endsValue = true) (assigns : lexeme.token.assigns = true)
    (relaid : Relaid prior ((lexeme :: rest).map Lexeme.mark) (others.map Lexeme.mark)) :
    (∃ mirrored further, others = mirrored :: further ∧ mirrored.token.assigns = true ∧
      Relaid lexeme.token (rest.map Lexeme.mark) (further.map Lexeme.mark)) ∨
    ∃ brace behind mirrored further, rest = brace :: behind ∧ others = mirrored :: further ∧
      brace.token = .leftBrace ∧ mirrored.token = .leftBrace ∧
      Relaid .leftBrace (behind.map Lexeme.mark) (further.map Lexeme.mark) := by
  obtain ⟨proper, inner⟩ : lexeme.token.isSeparator = false ∧ lexeme.token.closes = false := by
    rcases Token.assigns_iff.mp assigns with token | token <;> rw [token] <;> exact ⟨rfl, rfl⟩
  have relaid : Relaid prior (([] ++ lexeme :: rest).map Lexeme.mark) (others.map Lexeme.mark) := relaid
  rcases relaid.cut (by simp) proper with
    ⟨other, mirrored, further, rfl, _, exchanged, same, _, left⟩ | ⟨_, _, dropped⟩
  · obtain rfl : other = [] := List.map_eq_nil_iff.mp (exchanged.nil ends inner)
    refine .inl ⟨mirrored, further, rfl, ?_, left⟩
    rcases same with same | ⟨_, again⟩
    · rw [same, assigns]
    · exact again
  · exact .inr dropped

theorem eq_nil (relaid : Relaid prior [] (others.map Lexeme.mark)) : others = [] := by
  generalize whole : ([] : List Mark) = none at relaid
  generalize mirror : others.map Lexeme.mark = images at relaid
  cases relaid with
  | none => exact List.map_eq_nil_iff.mp mirror
  | token => exact absurd whole (by simp)
  | dropped => cases whole

/-- What is left behind a value. -/
def Onward (behind others : List Lexeme) : Prop :=
  ∃ prior : Token, prior.endsValue = true ∧ Relaid prior (behind.map Lexeme.mark) (others.map Lexeme.mark)

private theorem words (ends : prior.endsValue = true) (words : ∀ lexeme ∈ own, lexeme.token.isWord = true)
    (relaid : Relaid prior ((own ++ behind).map Lexeme.mark) (others.map Lexeme.mark)) :
    ∃ instead further, others = instead ++ further ∧ instead.map Lexeme.mark = own.map Lexeme.mark ∧
      Onward behind further := by
  induction own generalizing prior others with
  | nil => exact ⟨[], others, rfl, rfl, prior, ends, relaid⟩
  | cons lexeme own ih =>
    obtain ⟨word, words⟩ := List.forall_mem_cons.mp words
    have starts := isWord_startsValue word
    obtain ⟨proper, kept⟩ := startsValue_proper starts
    obtain ⟨mirrored, further, rfl, same, space, left⟩ :=
      adjacent ends proper (startsValue_not_closes starts) kept relaid
    obtain ⟨instead, more, rfl, alike, onward⟩ := ih (isWord_endsValue word) words left
    refine ⟨mirrored :: instead, more, rfl, ?_, onward⟩
    rw [List.map_cons, List.map_cons, alike, Lexeme.mark, Lexeme.mark, same, space starts]

end Relaid

/-- The same words make the same key, whatever stands in front of them. -/
theorem Key.moved {lexeme mirrored : Lexeme} {own instead : List Lexeme} {path : KeyPath}
    (key : Key (lexeme :: own) path) (same : mirrored.token = lexeme.token)
    (alike : instead.map Lexeme.mark = own.map Lexeme.mark) : Key (mirrored :: instead) path := by
  have tokens : (mirrored :: instead).map Lexeme.token = (lexeme :: own).map Lexeme.token := by
    have behind := congrArg (List.map Mark.token) alike
    simp only [List.map_map] at behind
    exact congrArg₂ List.cons same behind
  have cut : segments (mirrored :: instead) = segments (lexeme :: own) := by
    have atoms := congrArg (fun tokens => (tokens.flatMap atoms).splitOn (.bare '.')) tokens
    simpa only [segments, List.flatMap_map] using atoms
  refine ⟨List.cons_ne_nil _ _, ?_, ?_, cut ▸ key.proper, cut ▸ key.named⟩
  · have words : ∀ token ∈ (lexeme :: own).map Lexeme.token, token.isWord = true := by
      simpa using key.words
    rw [← tokens] at words
    simpa using words
  · have adjacent : ∀ mark ∈ own.map Lexeme.mark, mark.space = "" := by
      simpa [Lexeme.isSpaced, Lexeme.mark] using key.adjacent
    rw [← alike] at adjacent
    simpa [Lexeme.isSpaced, Lexeme.mark] using adjacent

private theorem Key.relaid {lexeme mirrored : Lexeme} {own behind others : List Lexeme} {path : KeyPath}
    (key : Key (lexeme :: own) path) (same : mirrored.token = lexeme.token)
    (relaid : Relaid lexeme.token ((own ++ behind).map Lexeme.mark) (others.map Lexeme.mark)) :
    ∃ named further, others = named ++ further ∧ Key (mirrored :: named) path ∧ Relaid.Onward behind further := by
  obtain ⟨word, words⟩ := List.forall_mem_cons.mp key.words
  obtain ⟨named, further, rfl, alike, onward⟩ := relaid.words (isWord_endsValue word) words
  exact ⟨named, further, rfl, key.moved same alike, onward⟩

section

variable {directives : Prop}

private theorem parted_front {prior : Token} {lexeme mirrored : Lexeme}
    {gap other own more instead last : List Lexeme}
    (ends : prior.endsValue = true) (starts : lexeme.token.startsValue = true)
    (exchanges : ∀ lexeme ∈ other, lexeme.token.isSeparator = true)
    (exchanged : Exchanged prior lexeme.token (gap.map Lexeme.token) (other.map Lexeme.token))
    (head : ∀ found ∈ (gap ++ lexeme :: own ++ more).head?, found.token.isSeparator = true) :
    ∀ found ∈ (other ++ mirrored :: instead ++ last).head?, found.token.isSeparator = true := by
  have some : gap ≠ [] := by
    rintro rfl
    have separator := head lexeme (by simp)
    rw [(startsValue_proper starts).1] at separator
    cases separator
  obtain ⟨first, other, rfl⟩ : ∃ first rest, other = first :: rest := by
    refine List.exists_cons_of_ne_nil fun none => ?_
    refine exchanged.ne_nil ends (startsValue_not_closes starts) (by simpa using some) ?_
    rw [none]
    rfl
  intro found front
  obtain rfl : first = found := by simpa using front
  exact exchanges first List.mem_cons_self

private theorem marked_value {prior : Token} {phrase : Phrase} {gap own behind others : List Lexeme}
    (opened : prior.opens = false) (ended : prior.endsValue = false)
    (newlines : ∀ lexeme ∈ gap, lexeme.token = .newline) (spells : phrase.Spells directives own)
    (relaid : Relaid prior ((gap ++ own ++ behind).map Lexeme.mark) (others.map Lexeme.mark)) :
    ∃ lexeme rest other mirrored further, own = lexeme :: rest ∧ others = other ++ mirrored :: further ∧
      (∀ lexeme ∈ other, lexeme.token = .newline) ∧ mirrored.token = lexeme.token ∧
      Relaid lexeme.token ((rest ++ behind).map Lexeme.mark) (further.map Lexeme.mark) := by
  obtain ⟨lexeme, rest, rfl, starts, _⟩ := spells.begins
  obtain ⟨proper, kept⟩ := startsValue_proper starts
  have separators : ∀ lexeme ∈ gap, lexeme.token.isSeparator = true :=
    fun lexeme member => by rw [newlines lexeme member]; rfl
  rw [List.append_assoc] at relaid
  obtain ⟨other, mirrored, further, rfl, _, exchanged, same, _, left⟩ := relaid.next separators proper kept
  refine ⟨lexeme, rest, other, mirrored, further, rfl, rfl, ?_, same, left⟩
  have tokens : ∀ token ∈ gap.map Lexeme.token, token = .newline := by simpa using newlines
  rw [← exchanged.eq opened (.inl ended) (startsValue_not_closes starts)] at tokens
  simpa using tokens

mutual

/-- What is laid out anew is spelled by the same tree, but for the places of its references. -/
theorem Piece.Spells.relaid {piece : Piece} {lexeme mirrored : Lexeme} {own behind others : List Lexeme}
    (spells : piece.Spells directives (lexeme :: own)) (same : mirrored.token = lexeme.token)
    (relaid : Relaid lexeme.token ((own ++ behind).map Lexeme.mark) (others.map Lexeme.mark)) :
    ∃ (again : Piece) (instead further : List Lexeme), others = instead ++ further ∧
      again.Spells directives (mirrored :: instead) ∧ again.unplaced = piece.unplaced ∧
      Relaid.Onward behind further := by
  cases spells with
  | word token => exact ⟨_, [], others, rfl, .word (same.trans token), rfl, _, by rw [token]; rfl, relaid⟩
  | quoted token => exact ⟨_, [], others, rfl, .quoted (same.trans token), rfl, _, by rw [token]; rfl, relaid⟩
  | reference token =>
    exact ⟨_, [], others, rfl, .reference (same.trans token), rfl, _, by rw [token]; rfl, relaid⟩
  | @object _ closed fields inner opens inside closes =>
    have closer := closes_proper (show closed.token.closes = true by rw [closes]; rfl)
    rw [List.append_eq, List.append_assoc] at relaid
    obtain ⟨again, instead, final, further, rfl, ends, spelled, unplaced, left, _⟩ :=
      Fields.Spells.relaid inside closer.1 closer.2 relaid
    refine ⟨.object again, instead ++ [final], further, by simp, ?_, congrArg Piece.object unplaced, _, ?_, left⟩
    · exact .object (same.trans opens) spelled (ends.trans closes)
    · rw [closes]
      rfl
  | @array _ closed elements inner opens inside closes =>
    have closer := closes_proper (show closed.token.closes = true by rw [closes]; rfl)
    rw [List.append_eq, List.append_assoc] at relaid
    obtain ⟨again, instead, final, further, rfl, ends, spelled, unplaced, left, _⟩ :=
      Elements.Spells.relaid inside closer.1 closer.2 relaid
    refine ⟨.array again, instead ++ [final], further, by simp, ?_, congrArg Piece.array unplaced, _, ?_, left⟩
    · exact .array (same.trans opens) spelled (ends.trans closes)
    · rw [closes]
      rfl

private theorem Pieces.Spells.relaid {pieces : Pieces} {prior : Token} {own behind others : List Lexeme}
    (spells : pieces.Spells directives own) (ends : prior.endsValue = true)
    (relaid : Relaid prior ((own ++ behind).map Lexeme.mark) (others.map Lexeme.mark)) :
    ∃ (again : Pieces) (instead further : List Lexeme), others = instead ++ further ∧
      again.Spells directives instead ∧ again.unplaced = pieces.unplaced ∧ Relaid.Onward behind further := by
  cases spells with
  | none => exact ⟨.none, [], others, rfl, .none, rfl, prior, ends, relaid⟩
  | @more first rest lexeme own left spelled further =>
    obtain ⟨_, _, begins, starts, _⟩ := spelled.begins
    obtain ⟨rfl, rfl⟩ := List.cons.inj begins
    obtain ⟨proper, kept⟩ := startsValue_proper starts
    simp only [List.cons_append, List.append_assoc] at relaid
    obtain ⟨mirrored, others, rfl, same, space, relaid⟩ :=
      relaid.adjacent ends proper (startsValue_not_closes starts) kept
    obtain ⟨again, instead, others, rfl, respelled, unplaced, _, ends, relaid⟩ := spelled.relaid same relaid
    obtain ⟨more, behind, others, rfl, all, alike, onward⟩ := further.relaid ends relaid
    refine ⟨.more mirrored.space again more, mirrored :: instead ++ behind, others, by simp,
      .more respelled all, ?_, onward⟩
    rw [Pieces.unplaced, Pieces.unplaced, unplaced, alike, space starts]

private theorem Phrase.Spells.relaid {phrase : Phrase} {lexeme mirrored : Lexeme} {own behind others : List Lexeme}
    (spells : phrase.Spells directives (lexeme :: own)) (same : mirrored.token = lexeme.token)
    (relaid : Relaid lexeme.token ((own ++ behind).map Lexeme.mark) (others.map Lexeme.mark)) :
    ∃ (again : Phrase) (instead further : List Lexeme), others = instead ++ further ∧
      again.Spells directives (mirrored :: instead) ∧ again.unplaced = phrase.unplaced ∧
      Relaid.Onward behind further := by
  generalize whole : lexeme :: own = all at spells
  cases spells with
  | @mk first rest front back spelled further =>
    obtain ⟨begin', front, rfl, starts, _⟩ := spelled.begins
    obtain ⟨rfl, rfl⟩ := List.cons.inj whole
    rw [List.append_eq, List.append_assoc] at relaid
    obtain ⟨again, instead, others, rfl, respelled, unplaced, _, ends, relaid⟩ := spelled.relaid same relaid
    obtain ⟨more, behind, others, rfl, all, alike, onward⟩ := further.relaid ends relaid
    refine ⟨.mk again more, instead ++ behind, others, by simp, .mk respelled all, ?_, onward⟩
    rw [Phrase.unplaced, Phrase.unplaced, unplaced, alike]

private theorem Field.Spells.relaid {field : Field} {lexeme mirrored : Lexeme} {own behind others : List Lexeme}
    (spells : field.Spells directives (lexeme :: own)) (same : mirrored.token = lexeme.token)
    (relaid : Relaid lexeme.token ((own ++ behind).map Lexeme.mark) (others.map Lexeme.mark)) :
    ∃ (again : Field) (instead further : List Lexeme), others = instead ++ further ∧
      again.Spells directives (mirrored :: instead) ∧ again.unplaced = field.unplaced ∧
      Relaid.Onward behind further := by
  generalize whole : lexeme :: own = all at spells
  cases spells with
  | @assign path phrase name gap value mark key marked newlines spelled =>
    obtain ⟨_, name, rfl, _⟩ := key.begins
    obtain ⟨rfl, rfl⟩ := List.cons.inj whole
    simp only [List.append_eq, List.append_assoc, List.cons_append] at relaid
    obtain ⟨named, others, rfl, moved, prior, ends, relaid⟩ := key.relaid same relaid
    have assigns := Token.assigns_iff.mpr marked
    rcases relaid.assigning ends assigns with
      ⟨image, others, rfl, again, relaid⟩ | ⟨brace, rest, image, others, begins, rfl, opens, again, relaid⟩
    · rw [← List.append_assoc] at relaid
      obtain ⟨first, rest, other, front, others, rfl, rfl, kept, same, relaid⟩ :=
        marked_value (by rcases marked with token | token <;> rw [token] <;> rfl)
          (by rcases marked with token | token <;> rw [token] <;> rfl) newlines spelled relaid
      obtain ⟨more, instead, others, rfl, respelled, unplaced, onward⟩ := spelled.relaid same relaid
      refine ⟨.assign path more, named ++ image :: other ++ front :: instead, others, by simp, ?_, ?_, onward⟩
      · exact .assign moved (Token.assigns_iff.mp again) kept respelled
      · rw [Field.unplaced, Field.unplaced, unplaced]
    · obtain ⟨first, own, rfl, starts, _⟩ := spelled.begins
      obtain rfl : gap = [] := by
        cases gap with
        | nil => rfl
        | cons newline gap =>
          obtain rfl : newline = brace := (List.cons.inj begins).1
          cases opens.symm.trans (newlines newline List.mem_cons_self)
      obtain ⟨rfl, rfl⟩ := List.cons.inj begins
      rw [← opens] at relaid
      obtain ⟨more, instead, others, rfl, respelled, unplaced, onward⟩ :=
        spelled.relaid (again.trans opens.symm) relaid
      refine ⟨.assign path more, named ++ image :: instead, others, by simp,
        .nested moved again respelled, ?_, onward⟩
      rw [Field.unplaced, Field.unplaced, unplaced]
  | @append path phrase name gap value mark key marked newlines spelled =>
    obtain ⟨_, name, rfl, _⟩ := key.begins
    obtain ⟨rfl, rfl⟩ := List.cons.inj whole
    simp only [List.append_eq, List.append_assoc, List.cons_append] at relaid
    obtain ⟨named, others, rfl, moved, prior, ends, relaid⟩ := key.relaid same relaid
    obtain ⟨image, others, rfl, again, _, relaid⟩ :=
      relaid.adjacent ends (by rw [marked]; rfl) (by rw [marked]; rfl) (by rw [marked]; rfl)
    rw [← List.append_assoc] at relaid
    obtain ⟨first, rest, other, front, others, rfl, rfl, kept, same, relaid⟩ :=
      marked_value (by rw [marked]; rfl) (by rw [marked]; rfl) newlines spelled relaid
    obtain ⟨more, instead, others, rfl, respelled, unplaced, onward⟩ := spelled.relaid same relaid
    refine ⟨.append path more, named ++ image :: other ++ front :: instead, others, by simp, ?_, ?_, onward⟩
    · exact .append moved (again.trans marked) kept respelled
    · rw [Field.unplaced, Field.unplaced, unplaced]
  | @nested path phrase name value brace key opens spelled =>
    obtain ⟨_, name, rfl, _⟩ := key.begins
    obtain ⟨rfl, rfl⟩ := List.cons.inj whole
    simp only [List.append_eq, List.append_assoc, List.cons_append] at relaid
    obtain ⟨named, others, rfl, moved, prior, ends, relaid⟩ := key.relaid same relaid
    obtain ⟨image, others, rfl, again, _, relaid⟩ :=
      relaid.adjacent ends (by rw [opens]; rfl) (by rw [opens]; rfl) (by rw [opens]; rfl)
    obtain ⟨more, instead, others, rfl, respelled, unplaced, onward⟩ := spelled.relaid again relaid
    refine ⟨.assign path more, named ++ image :: instead, others, by simp,
      .nested moved (again.trans opens) respelled, ?_, onward⟩
    rw [Field.unplaced, Field.unplaced, unplaced]
  | @inclusion directive keyword words admitted begins directs =>
    obtain ⟨rfl, rfl⟩ := List.cons.inj whole
    obtain ⟨named, others, rfl, alike, onward⟩ :=
      relaid.words (by rw [begins]; rfl) directs.words.2
    exact ⟨.inclusion directive, named, others, rfl, .inclusion admitted (same.trans begins) (directs.moved alike),
      rfl, onward⟩

private theorem Fields.Spells.relaid {fields : Fields} {prior : Token} {closer : Lexeme}
    {own behind others : List Lexeme}
    (spells : fields.Spells directives own) (proper : closer.token.isSeparator = false)
    (kept : closer.token.assigns = false)
    (relaid : Relaid prior ((own ++ closer :: behind).map Lexeme.mark) (others.map Lexeme.mark)) :
    ∃ (again : Fields) (instead : List Lexeme) (final : Lexeme) (further : List Lexeme),
      others = instead ++ final :: further ∧ final.token = closer.token ∧ again.Spells directives instead ∧
      again.unplaced = fields.unplaced ∧
      Relaid closer.token (behind.map Lexeme.mark) (further.map Lexeme.mark) ∧
      (prior.endsValue = true → (∀ lexeme ∈ own.head?, lexeme.token.isSeparator = true) →
        ∀ lexeme ∈ instead.head?, lexeme.token.isSeparator = true) := by
  cases spells with
  | none separators =>
    obtain ⟨other, final, further, rfl, exchanges, _, same, _, left⟩ := relaid.next separators proper kept
    refine ⟨.none, other, final, further, rfl, same, .none exchanges, rfl, left, fun _ _ lexeme head => ?_⟩
    exact exchanges lexeme (List.mem_of_mem_head? head)
  | @more first rest gap own back separators spelled further parted =>
    obtain ⟨lexeme, own, rfl, word⟩ := spelled.begins
    have starts := isWord_startsValue word
    simp only [List.append_assoc, List.cons_append] at relaid
    obtain ⟨other, mirrored, others, rfl, exchanges, exchanged, same, _, relaid⟩ :=
      relaid.next separators (startsValue_proper starts).1 (startsValue_proper starts).2
    obtain ⟨again, instead, others, rfl, respelled, unplaced, _, ends, relaid⟩ := spelled.relaid same relaid
    obtain ⟨more, last, final, others, rfl, closed, all, alike, left, apart⟩ := further.relaid proper kept relaid
    refine ⟨.more again more, other ++ mirrored :: instead ++ last, final, others, by simp, closed,
      .more exchanges respelled all (apart ends parted), ?_, left, fun ends head => ?_⟩
    · rw [Fields.unplaced, Fields.unplaced, unplaced, alike]
    · exact parted_front ends starts exchanges exchanged head

private theorem Elements.Spells.relaid {elements : Elements} {prior : Token} {closer : Lexeme}
    {own behind others : List Lexeme} (spells : elements.Spells directives own)
    (proper : closer.token.isSeparator = false) (kept : closer.token.assigns = false)
    (relaid : Relaid prior ((own ++ closer :: behind).map Lexeme.mark) (others.map Lexeme.mark)) :
    ∃ (again : Elements) (instead : List Lexeme) (final : Lexeme) (further : List Lexeme),
      others = instead ++ final :: further ∧ final.token = closer.token ∧ again.Spells directives instead ∧
      again.unplaced = elements.unplaced ∧
      Relaid closer.token (behind.map Lexeme.mark) (further.map Lexeme.mark) ∧
      (prior.endsValue = true → (∀ lexeme ∈ own.head?, lexeme.token.isSeparator = true) →
        ∀ lexeme ∈ instead.head?, lexeme.token.isSeparator = true) := by
  cases spells with
  | none separators =>
    obtain ⟨other, final, further, rfl, exchanges, _, same, _, left⟩ := relaid.next separators proper kept
    refine ⟨.none, other, final, further, rfl, same, .none exchanges, rfl, left, fun _ _ lexeme head => ?_⟩
    exact exchanges lexeme (List.mem_of_mem_head? head)
  | @more first rest gap own back separators spelled further parted =>
    obtain ⟨lexeme, own, rfl, starts, _⟩ := spelled.begins
    simp only [List.append_assoc, List.cons_append] at relaid
    obtain ⟨other, mirrored, others, rfl, exchanges, exchanged, same, _, relaid⟩ :=
      relaid.next separators (startsValue_proper starts).1 (startsValue_proper starts).2
    obtain ⟨again, instead, others, rfl, respelled, unplaced, _, ends, relaid⟩ := spelled.relaid same relaid
    obtain ⟨more, last, final, others, rfl, closed, all, alike, left, apart⟩ := further.relaid proper kept relaid
    refine ⟨.more again more, other ++ mirrored :: instead ++ last, final, others, by simp, closed,
      .more exchanges respelled all (apart ends parted), ?_, left, fun ends head => ?_⟩
    · rw [Elements.unplaced, Elements.unplaced, unplaced, alike]
    · exact parted_front ends starts exchanges exchanged head

end

/-- The same marks spell the same fields, but for the places of their references. -/
theorem Fields.Spells.moved {fields : Fields} {lexemes others : List Lexeme}
    (spells : fields.Spells directives lexemes) (same : others.map Lexeme.mark = lexemes.map Lexeme.mark) :
    ∃ again : Fields, again.Spells directives others ∧ again.unplaced = fields.unplaced := by
  let closer : Lexeme := ⟨"", .origin, .endOfText⟩
  have relaid : Relaid .newline ((lexemes ++ closer :: []).map Lexeme.mark)
      ((others ++ [closer]).map Lexeme.mark) := by
    rw [List.map_append, List.map_append, same]
    refine .refl fun mark member => ?_
    obtain rfl : mark = closer.mark := by simpa using member.symm
    rfl
  obtain ⟨again, instead, final, further, whole, _, respelled, unplaced, left, _⟩ := spells.relaid rfl rfl relaid
  obtain rfl := left.eq_nil
  obtain ⟨rfl, _⟩ := List.append_inj' whole rfl
  exact ⟨again, respelled, unplaced⟩

/-- A document laid out anew is one of the same tree, but for the places of its references. -/
theorem Derives.relaid {fields : Fields} {lexemes others : List Lexeme}
    (derives : Derives directives fields lexemes) (relaid : Relaid .newline (lexemes.map Lexeme.mark) (others.map Lexeme.mark)) :
    ∃ again : Fields, Derives directives again others ∧ again.unplaced = fields.unplaced := by
  cases derives with
  | @braced before inner behind opened closed last newlines opens inside closes separators ends =>
    simp only [List.append_assoc, List.cons_append] at relaid
    have gap : ∀ lexeme ∈ before, lexeme.token.isSeparator = true :=
      fun lexeme member => by rw [newlines lexeme member]; rfl
    obtain ⟨other, brace, others, rfl, _, exchanged, same, _, relaid⟩ :=
      relaid.next gap (by rw [opens]; rfl) (by rw [opens]; rfl)
    have kept : ∀ token ∈ before.map Lexeme.token, token = .newline := by simpa using newlines
    rw [← exchanged.eq rfl (.inl rfl) (by rw [opens]; rfl)] at kept
    obtain ⟨again, instead, closer, others, rfl, closed', spelled, unplaced, relaid, _⟩ :=
      inside.relaid (by rw [closes]; rfl) (by rw [closes]; rfl) relaid
    obtain ⟨more, final, others, rfl, exchanges, _, ended, _, relaid⟩ :=
      relaid.next separators (by rw [ends]; rfl) (by rw [ends]; rfl)
    obtain rfl := relaid.eq_nil
    refine ⟨again, ?_, unplaced⟩
    have whole : other ++ brace :: (instead ++ closer :: (more ++ [final])) =
        other ++ brace :: instead ++ closer :: more ++ [final] := by simp
    rw [whole]
    exact .braced (by simpa using kept) (same.trans opens) spelled (closed'.trans closes) exchanges
      (ended.trans ends)
  | @bare inner last spelled ends =>
    obtain ⟨again, instead, final, others, rfl, ended, respelled, unplaced, relaid, _⟩ :=
      spelled.relaid (by rw [ends]; rfl) (by rw [ends]; rfl) relaid
    obtain rfl := relaid.eq_nil
    exact ⟨again, .bare respelled (ended.trans ends), unplaced⟩

end

end Grammar

/-- The text is a document between braces. -/
def isBraced (text : String) : Bool :=
  match Stream.ofText text with
  | .error _ => false
  | .ok stream =>
    match stream.dropWhile (· == .newline) with
    | .error _ => false
    | .ok front => front.val.token == .leftBrace

private theorem isBraced_of_read {text : String} {before inner : List Lexeme} {opened last : Lexeme}
    (read : Stream.ofText text = .ok (.prepend (before ++ opened :: inner) (.ended last)))
    (newlines : ∀ lexeme ∈ before, lexeme.token = .newline) (opens : opened.token = .leftBrace) :
    isBraced text = true := by
  have kept : ((Stream.more opened (.prepend inner (.ended last))).token == .newline) = false := by
    rw [Stream.token_more, opens]
    rfl
  have dropped : ∃ skipped, (Stream.prepend before (.more opened (.prepend inner (.ended last)))).dropWhile
      (· == .newline) = .ok ⟨_, skipped⟩ :=
    Stream.dropWhile_prepend (fun lexeme member => by simp [newlines lexeme member]) kept
  obtain ⟨_, dropped⟩ := dropped
  rw [Stream.prepend_append, Stream.prepend_cons] at read
  simp only [isBraced, read, dropped, Stream.token_more, opens, beq_self_eq_true]

/-- The fields of a document without braces are all there is. -/
theorem Grammar.Derives.bare_of_read {text : String} {directives : Prop} {fields : Fields} {lexemes : List Lexeme}
    {last : Lexeme} (derives : Derives directives fields (lexemes ++ [last]))
    (read : Stream.ofText text = .ok (.prepend lexemes (.ended last))) (braceless : isBraced text = false) :
    fields.Spells directives lexemes ∧ last.token = .endOfText := by
  generalize whole : lexemes ++ [last] = all at derives
  cases derives with
  | @braced before inner behind opened closed end' newlines opens inside closes separators ends =>
    obtain ⟨rfl, _⟩ := List.append_inj' whole rfl
    rw [List.append_assoc, List.cons_append] at read
    cases braceless.symm.trans (isBraced_of_read read newlines opens)
  | @bare inner end' spelled ends =>
    obtain ⟨rfl, final⟩ := List.append_inj' whole rfl
    obtain rfl : last = end' := List.singleton_inj.mp final
    exact ⟨spelled, ends⟩

end Hocon
