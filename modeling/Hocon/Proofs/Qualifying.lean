import Hocon.Proofs.Grammar.Directing
import Hocon.Proofs.Include.Directives
import Hocon.Proofs.LineBreaks
import Hocon.Proofs.Splitting

namespace Hocon

namespace Directive

/-- The qualifiers that there are. -/
def known : List String := ["file", "required"]

/-- A text of qualifiers. Each is followed by a parenthesis, and more of them may stand anywhere
between the qualifiers and in front of the first. -/
inductive Qualifies : List String → List Char → Prop where
  | none : Qualifies [] []
  | parenthesis {words : List String} {text : List Char} (further : Qualifies words text) :
      Qualifies words ('(' :: text)
  | word {word : String} {words : List String} {text : List Char} (among : word ∈ known)
      (further : Qualifies words text) : Qualifies (word :: words) (word.toList ++ '(' :: text)

variable {start : Position} {words : List String} {text : List Char}

private theorem known_plain : ∀ word ∈ known, '(' ∉ word.toList ∧ word ≠ "" := by decide

private theorem qualifiers_parenthesis (text : List Char) :
    qualifiers (String.ofList ('(' :: text)) = qualifiers (String.ofList text) := by
  simp [qualifiers, Text.splitAt, Text.split]

private theorem qualifiers_word {word : List Char} (plain : '(' ∉ word) (some : word ≠ []) (text : List Char) :
    qualifiers (String.ofList (word ++ '(' :: text)) = String.ofList word :: qualifiers (String.ofList text) := by
  have some : String.ofList word ≠ "" := by simpa using some
  simp [qualifiers, Text.splitAt, Text.split_append plain, some]

private theorem Qualifies.qualifiers_eq (qualifies : Qualifies words text) :
    qualifiers (String.ofList text) = words := by
  induction qualifies with
  | none => rfl
  | parenthesis _ ih => rw [qualifiers_parenthesis, ih]
  | word among _ ih =>
    obtain ⟨plain, some⟩ := known_plain _ among
    rw [qualifiers_word plain (by simpa using some), ih, String.ofList_toList]

private theorem Qualifies.known (qualifies : Qualifies words text) : ∀ word ∈ words, word ∈ known := by
  induction qualifies with
  | none => nofun
  | parenthesis _ ih => exact ih
  | word among _ ih => exact List.forall_mem_cons.mpr ⟨among, ih⟩

/-- No more words are there than parentheses, and as many only if each parenthesis is behind a word. -/
private theorem Qualifies.opened (qualifies : Qualifies words text) :
    words.length ≤ text.count '(' ∧
      (text.count '(' = words.length ↔ text = words.flatMap fun word => word.toList ++ ['(']) := by
  induction qualifies with
  | none => simp
  | @parenthesis words text further ih =>
    rw [List.count_cons_self]
    refine ⟨by omega, iff_of_false (by omega) fun same => ?_⟩
    cases words with
    | nil => cases same
    | cons word words =>
      obtain ⟨plain, some⟩ := known_plain word (further.known word List.mem_cons_self)
      obtain ⟨c, letters, written⟩ := List.exists_cons_of_ne_nil (mt String.toList_eq_nil_iff.mp some)
      rw [written] at plain
      simp only [List.flatMap_cons, written, List.cons_append, List.cons.injEq] at same
      exact plain (same.1 ▸ List.mem_cons_self)
  | @word word words text among _ ih =>
    have none : word.toList.count '(' = 0 := List.count_eq_zero.mpr (known_plain _ among).1
    simp only [List.count_append, none, List.count_cons_self, List.length_cons, List.flatMap_cons,
      List.append_assoc, List.append_cancel_left_eq, List.singleton_append, List.cons.injEq, true_and, ← ih.2]
    omega

/-- A text that ends with a parenthesis is one of its qualifiers, if these are known. -/
private theorem qualifies_of_known {text : List Char} (opens : ∀ c ∈ text.getLast?, c = '(')
    (among : ∀ word ∈ qualifiers (String.ofList text), word ∈ known) :
    Qualifies (qualifiers (String.ofList text)) text := by
  by_cases none : text = []
  · subst none
    exact .none
  have last := opens _ (List.getLast?_eq_some_getLast none)
  obtain ⟨front, back, rfl, plain⟩ :=
    List.eq_append_cons_of_mem (List.mem_of_getLast? (last ▸ List.getLast?_eq_some_getLast none))
  have behind : ∀ c ∈ back.getLast?, c = '(' := by
    intro c member
    refine opens c ?_
    rw [List.getLast?_append, List.getLast?_cons, member]
    rfl
  by_cases some : front = []
  · subst some
    rw [List.nil_append, qualifiers_parenthesis] at among ⊢
    exact .parenthesis (qualifies_of_known behind among)
  · rw [qualifiers_word plain some] at among ⊢
    obtain ⟨first, others⟩ := List.forall_mem_cons.mp among
    have further := Qualifies.word first (qualifies_of_known behind others)
    rwa [String.toList_ofList] at further
termination_by text.length

private theorem isRequired_of_known (among : ∀ word ∈ words, word ∈ known) :
    isRequired start words = .ok (decide ("required" ∈ words)) := by
  induction words with
  | nil => rfl
  | cons word words ih =>
    obtain ⟨first, others⟩ := List.forall_mem_cons.mp among
    rw [isRequired, ih others]
    rcases List.mem_pair.mp first with rfl | rfl
    · simp
    · simp [Except.map]

private theorem known_of_isRequired {required : Bool} (done : isRequired start words = .ok required) :
    ∀ word ∈ words, word ∈ known := by
  induction words generalizing required with
  | nil => simp
  | cons word words ih =>
    rw [isRequired] at done
    split at done
    case isTrue same =>
      cases further : isRequired start words with
      | error fault =>
        rw [further] at done
        cases done
      | ok inner => exact List.forall_mem_cons.mpr ⟨by simp [known, same], ih further⟩
    case isFalse =>
      split at done
      case isTrue same => exact List.forall_mem_cons.mpr ⟨by simp [known, same], ih done⟩
      case isFalse => split at done <;> cases done

end Directive

section Lexing

variable {text blanks rest : List Char} {token : Token}

private theorem Takes.spaced (blank : ∀ c ∈ blanks, Text.isBlank c = true)
    (solid : ∀ c ∈ text.head?, Text.isBlank c = false) (code : startsComment text = false)
    (proper : token ≠ .endOfText) (scanned : ∀ place, ∃ after, Cursor.token place text = .ok token after rest) :
    Takes (blanks ++ text) ⟨String.ofList blanks, token⟩ rest where
  proper := proper
  reads place := by
    obtain ⟨after, scanned⟩ := scanned (place.past blanks)
    rw [Cursor.read_blanks blank solid code]
    exact ⟨rfl, after, scanned⟩

private theorem Takes.at_front (takes : Takes text ⟨"", token⟩ rest) (line : token ≠ .newline) :
    (∀ c ∈ text.head?, Text.isBlank c = false) ∧ startsComment text = false ∧
      ∀ place, ∃ after, Cursor.token place text = .ok token after rest := by
  have solid : ∀ c ∈ text.head?, Text.isBlank c = false := by
    intro c head
    obtain ⟨space, _⟩ := takes.reads .origin
    cases text with
    | nil => cases head
    | cons d text =>
      obtain rfl : d = c := by simpa using head
      by_contra blank
      simp [Cursor.read, Cursor.blanks, blank] at space
  have blank : ∀ c ∈ [], Text.isBlank c = true := List.forall_mem_nil _
  have begun : ∀ place, (⟨place, text⟩ : Cursor).skip.rest = text.drop (comment text).length := fun place =>
    (skip_blanks blank solid place).2
  have code : startsComment text = false := by
    by_contra code
    -- Behind a comment comes a newline or the end of the text.
    have left : text.drop (text.takeWhile (· != '\n')).length = text.dropWhile (· != '\n') := by
      have same := congrArg (List.drop (text.takeWhile (· != '\n')).length)
        (List.takeWhile_append_dropWhile (p := (· != '\n')) (l := text))
      rw [List.drop_left] at same
      exact same.symm
    obtain ⟨_, after, scanned⟩ := takes.reads .origin
    rw [Cursor.read, begun .origin, comment, if_pos (by simpa using code), left] at scanned
    cases behind : text.dropWhile (· != '\n') with
    | nil =>
      rw [behind] at scanned
      exact takes.proper (Except.ok.inj (congrArg Scan.outcome scanned)).symm
    | cons c more =>
      have newline := List.head?_dropWhile_not (· != '\n') text
      rw [behind] at newline
      obtain rfl : c = '\n' := by simpa using newline
      rw [behind] at scanned
      exact line (Except.ok.inj (congrArg Scan.outcome scanned)).symm
  refine ⟨solid, code, fun place => ?_⟩
  obtain ⟨_, after, scanned⟩ := takes.reads place
  refine ⟨after, ?_⟩
  have read := Cursor.read_blanks blank solid code place
  rw [List.nil_append] at read
  rw [read] at scanned
  exact scanned

private theorem Takes.of_taken {cursor : Cursor} {mark : Mark} (found : cursor.taken 1 = some ([mark], rest)) :
    Takes cursor.rest mark rest := by
  cases reaches_of_taken found with
  | step takes further =>
    cases further
    exact takes

/-- What is quoted is read alike whatever follows that is no quote. -/
private theorem quoted_followed {place : Position} {name : String}
    (scanned : (Cursor.token place text).outcome = .ok (.quoted name))
    (all : (Cursor.token place text).after.rest = []) {other : List Char} (apart : other.head? ≠ some '"') :
    ∃ inner, text = '"' :: inner ∧
      ∀ place, ∃ after, Cursor.token place (text ++ other) = .ok (.quoted name) after other := by
  generalize whole : Cursor.token place text = scan at scanned all
  unfold Cursor.token at whole
  split at whole
  case h_1 | h_2 =>
    subst whole
    cases scanned
  case h_3 rest =>
    subst whole
    obtain ⟨_, _, other, _⟩ := Scan.reference_front scanned
    cases other
  case h_4 rest =>
    subst whole
    obtain ⟨content, inner, same⟩ := Scan.ok_of_map scanned
    rw [← same]
    obtain ⟨first, second, used, same, _, _, further⟩ := Scan.tripleQuoted_front inner
    rw [Scan.after_map] at all
    rw [all, List.append_nil] at same
    refine ⟨_, rfl, fun place => ?_⟩
    obtain ⟨after, read⟩ := further other apart place.ahead (place.past ['"', '"', '"'])
    rw [← same] at read
    exact ⟨after, congrArg (Scan.map _) read⟩
  case h_5 rest single =>
    subst whole
    obtain ⟨content, inner, same⟩ := Scan.ok_of_map scanned
    rw [← same]
    obtain ⟨used, same, further⟩ := Scan.quoted_front inner
    rw [Scan.after_map] at all
    rw [all] at same
    have single : ∀ more, used ++ '"' :: other ≠ '"' :: '"' :: more :=
      Scan.single_front (same ▸ single) fun _ _ => apart
    refine ⟨_, rfl, fun place => ?_⟩
    obtain ⟨after, read⟩ := further other place.ahead (place.after '"')
    have whole : '"' :: rest ++ other = '"' :: (used ++ '"' :: other) := by simp [same]
    exact ⟨after, by rw [whole, Lexes.token_of_quote single, read]; rfl⟩
  case h_6 c rest _ _ _ _ =>
    split at whole
    case h_1 symbol known =>
      subst whole
      obtain rfl : symbol = .quoted name := Except.ok.inj scanned
      unfold Cursor.symbol? at known
      split at known <;> cases known
    case h_2 =>
      split at whole <;> subst whole <;> cases scanned

private theorem word_cons_iff {c : Char} : word (c :: text) = (c :: text, []) ↔
    isForbidden c = false ∧ startsComment (c :: text) = false ∧ word text = (text, []) := by
  rw [word]
  split
  case isTrue stops =>
    simp only [Bool.or_eq_true] at stops
    simp only [Prod.mk.injEq, reduceCtorEq, false_and, false_iff]
    rintro ⟨letter, code, _⟩
    simp [letter, code] at stops
  case isFalse goes =>
    simp only [Bool.or_eq_true, not_or, Bool.not_eq_true] at goes
    simp [goes, Prod.ext_iff]

private theorem word_quote (whole : word text = (text, [])) (rest : List Char) :
    word (text ++ '"' :: rest) = (text, '"' :: rest) ∧ startsComment (text ++ '"' :: rest) = false := by
  induction text with
  | nil => exact ⟨rfl, rfl⟩
  | cons c text ih =>
    obtain ⟨letter, code, further⟩ := word_cons_iff.mp whole
    have code : startsComment (c :: (text ++ '"' :: rest)) = false := by
      rw [Bool.eq_false_iff, ne_eq, startsComment_cons] at code ⊢
      cases text with
      | nil => simpa using fun same => code (.inl same)
      | cons => exact code
    refine ⟨?_, code⟩
    rw [List.cons_append, word, letter, code, (ih further).1]
    rfl

private theorem Takes.keyword (bounded : Lexes.Bounded rest) :
    Takes (Directive.keyword.toList ++ rest) ⟨"", .unquoted Directive.keyword⟩ rest := by
  have letters : Directive.keyword.toList = 'i' :: ['n', 'c', 'l', 'u', 'd', 'e'] := by decide
  have plain : ∀ c ∈ 'i' :: ['n', 'c', 'l', 'u', 'd', 'e'], Lexes.Plain c := List.all_iff_forall_prop.mp (by decide)
  rw [letters, List.cons_append]
  refine .of_token (by decide) rfl (by simp) fun place => ?_
  rw [Lexes.token_of_letter (by decide), ← List.cons_append, Lexes.word_eq plain bounded]
  exact ⟨_, rfl⟩

/-- A word of closing parentheses. -/
def Token.Closer (token : Token) : Prop :=
  ∃ count, token = .unquoted (String.ofList (List.replicate (count + 1) ')'))

private theorem word_parentheses (count : Nat) (halts : Lexes.Bounded rest) :
    word (List.replicate count ')' ++ rest) = (List.replicate count ')', rest) := by
  refine Lexes.word_eq (fun c member => ?_) halts
  rw [List.eq_of_mem_replicate member]
  decide

private theorem exists_replicate_append (c : Char) (text : List Char) :
    ∃ count more, text = List.replicate count c ++ more ∧ more.head? ≠ some c := by
  induction text with
  | nil => exact ⟨0, [], rfl, nofun⟩
  | cons d text ih =>
    by_cases same : d = c
    · obtain ⟨count, more, rfl, apart⟩ := ih
      exact ⟨count + 1, more, by rw [same, List.replicate_succ, List.cons_append], apart⟩
    · exact ⟨0, d :: text, rfl, by simpa using same⟩

/-- How many parentheses tokens close. -/
def Stream.closed : List Token → Nat
  | [] => 0
  | token :: tokens => closedBy token + closed tokens

private theorem closers_reached {c : Char} {symbol : Token} (known : Cursor.symbol? c = some symbol)
    {closing : List Char} (closes : ∀ d ∈ closing, d = ')' ∨ Text.isBlank d = true) :
    ∃ (closers : List Mark) (space : String), Reaches (closing ++ [c]) (closers ++ [⟨space, symbol⟩]) [] ∧
      (∀ mark ∈ closers, mark.token.Closer) ∧
      Stream.closed (closers.map Mark.token) = closing.count ')' := by
  have blank : ∀ d ∈ closing.takeWhile Text.isBlank, Text.isBlank d = true :=
    fun d member => List.mem_takeWhile_imp member
  have whole := List.takeWhile_append_dropWhile (p := Text.isBlank) (l := closing)
  have none : (closing.takeWhile Text.isBlank).count ')' = 0 :=
    List.count_eq_zero.mpr fun member => absurd (blank _ member) (by decide)
  cases behind : closing.dropWhile Text.isBlank with
  | nil =>
    rw [behind, List.append_nil] at whole
    refine ⟨[], String.ofList closing, .step (.symbol (whole ▸ blank) known []) .here, by simp, ?_⟩
    rw [← whole, none]
    rfl
  | cons d front =>
    have solid := List.head?_dropWhile_not Text.isBlank closing
    rw [behind] at solid whole
    obtain rfl : d = ')' := (closes d (whole ▸ by simp)).resolve_right (by simpa using solid)
    obtain ⟨count, more, rfl, halts⟩ := exists_replicate_append ')' front
    have among : ∀ d ∈ more, d = ')' ∨ Text.isBlank d = true := fun d member =>
      closes d (whole ▸ by simp [member])
    have bounded : Lexes.Bounded (more ++ [c]) := by
      cases more with
      | nil => exact Lexes.bounded_of_symbol known []
      | cons e more =>
        intro d head
        obtain rfl : e = d := by simpa using head
        have blank := (among e List.mem_cons_self).resolve_left (by simpa using halts)
        exact ⟨isForbidden_of_isBlank blank, by rintro rfl; cases blank⟩
    have shorter : more.length < closing.length := by
      have lengths := congrArg List.length whole
      simp only [List.length_append, List.length_cons, List.length_replicate] at lengths
      omega
    obtain ⟨closers, space, reaches, all, total⟩ := closers_reached known among
    have scanned : ∀ place, ∃ after, Cursor.token place (')' :: (List.replicate count ')' ++ (more ++ [c]))) =
        .ok (.unquoted (String.ofList (List.replicate (count + 1) ')'))) after (more ++ [c]) := by
      intro place
      rw [Lexes.token_of_letter (by decide), ← List.cons_append, ← List.replicate_succ,
        word_parentheses (count + 1) bounded]
      exact ⟨_, rfl⟩
    have takes := Takes.spaced blank (by simp; decide) rfl (by simp) scanned
    have text : closing ++ [c] =
        closing.takeWhile Text.isBlank ++ ')' :: (List.replicate count ')' ++ (more ++ [c])) := by
      conv_lhs => rw [← whole]
      simp
    rw [text]
    refine ⟨_ :: closers, space, .step takes reaches, List.forall_mem_cons.mpr ⟨⟨count, rfl⟩, all⟩, ?_⟩
    rw [List.map_cons, Stream.closed, total, ← whole]
    simp [Stream.closedBy, none]
    omega
termination_by closing.length

end Lexing

namespace Stream

variable {lexemes : List Lexeme} {rest : Stream}

private theorem closesOf_closer {token : Token} (closer : token.Closer) (missing : Nat) :
    closesOf missing token = decide (closedBy token ≤ missing) ∧ closedBy token ≠ 0 := by
  obtain ⟨count, rfl⟩ := closer
  simp [closesOf, closedBy]

/-- Parentheses are closed as long as some are missing. All lexemes are taken, and nothing is missing
then, just when they close what was. -/
private theorem closing_closers (closers : ∀ lexeme ∈ lexemes, lexeme.token.Closer)
    (other : ∀ missing, closesOf missing rest.token = false) (missing : Nat) :
    ∃ left others within, (prepend lexemes rest).closing missing = .ok ⟨left, prepend others rest, within⟩ ∧
      others <:+ lexemes ∧ (left = 0 ∧ others = [] ↔ closed (lexemes.map Lexeme.token) = missing) := by
  induction lexemes generalizing missing with
  | nil => exact ⟨missing, [], _, closing_stop rest (.inr (other missing)), List.suffix_refl _,
      by simp [closed, eq_comm]⟩
  | cons lexeme lexemes ih =>
    obtain ⟨first, others⟩ := List.forall_mem_cons.mp closers
    obtain ⟨closes, some⟩ := closesOf_closer first missing
    have total : closed ((lexeme :: lexemes).map Lexeme.token) =
      closedBy lexeme.token + closed (lexemes.map Lexeme.token) := rfl
    by_cases goes : missing ≠ 0 ∧ closedBy lexeme.token ≤ missing
    · obtain ⟨left, behind, within, done, suffix, all⟩ := ih others (missing - closedBy lexeme.token)
      refine ⟨left, behind, ?_⟩
      rw [prepend_cons, (closing_more goes.1 (closes.trans (decide_eq_true goes.2))).2, done, all, total]
      exact ⟨_, rfl, suffix.trans (List.suffix_cons _ _), by omega⟩
    · refine ⟨missing, lexeme :: lexemes, _, closing_stop _ ?_, List.suffix_refl _, ?_⟩
      · rw [prepend_cons, token_more, closes, decide_eq_false_iff_not]
        tauto
      · simp only [reduceCtorEq, and_false, false_iff, total]
        omega

private theorem closing_closed (closers : ∀ lexeme ∈ lexemes, lexeme.token.Closer) (rest : Stream) :
    ∃ within, (prepend lexemes rest).closing (closed (lexemes.map Lexeme.token)) = .ok ⟨0, rest, within⟩ := by
  induction lexemes with
  | nil => exact ⟨_, closing_stop rest (.inl rfl)⟩
  | cons lexeme lexemes ih =>
    obtain ⟨first, others⟩ := List.forall_mem_cons.mp closers
    obtain ⟨closes, some⟩ := closesOf_closer first (closed ((lexeme :: lexemes).map Lexeme.token))
    have total : closed ((lexeme :: lexemes).map Lexeme.token) =
      closedBy lexeme.token + closed (lexemes.map Lexeme.token) := rfl
    obtain ⟨within, done⟩ := ih others
    have left : closed ((lexeme :: lexemes).map Lexeme.token) - closedBy lexeme.token =
      closed (lexemes.map Lexeme.token) := by omega
    rw [prepend_cons, (closing_more (by omega) (closes.trans (decide_eq_true (by omega)))).2, left, done]
    exact ⟨_, rfl⟩

private theorem directive_of_entry {includer : Includer} {lexeme : Lexeme} {next : Stream}
    {session after : Session}
    {found : Parsed Entry (more lexeme next).length} (keyword : lexeme.token = .unquoted Directive.keyword)
    (opens : next.opensDirective = true) (done : (more lexeme next).entry includer session = .ok found after) :
    ∃ directive within, next.directive = .ok ⟨directive, found.rest, within⟩ := by
  rw [entry_directive keyword opens] at done
  obtain ⟨given, _, included, done⟩ := Run.ok_of_bind done
  cases done
  rw [inclusion] at included
  obtain ⟨taken, _, read, included⟩ := Run.ok_of_bind included
  obtain ⟨_, _, _, included⟩ := Run.ok_of_bind included
  obtain ⟨⟨value, references⟩, _, _, included⟩ := Run.ok_of_bind included
  obtain ⟨read, _⟩ := Run.ok_of_ofExcept read
  cases value with
  | object fields =>
    cases included
    exact ⟨_, _, read⟩
  | _ => cases included

private theorem document_fails {includer : Includer} {lexeme : Lexeme} {next : Stream}
    (word : lexeme.token.isWord = true)
    (session : Session) (fails : ∀ found after, (more lexeme next).entry includer session = .ok found after →
      ∃ fault, found.rest.endOfField .endOfText = .error fault) :
    ∃ fault after, (more lexeme next).document includer session = .error fault after := by
  have newline : ((more lexeme next).token == .newline) = false := by
    cases token : lexeme.token <;> simp_all [Token.isWord]
  have separator : (more lexeme next).token.isSeparator = false := by
    cases token : lexeme.token <;> simp_all [Token.isWord, Token.isSeparator]
  have opens : lexeme.token ≠ .leftBrace ∧ lexeme.token ≠ .leftBracket := by
    cases token : lexeme.token <;> simp_all [Token.isWord]
  rw [document_bare (dropWhile_of_kept newline) opens, fields_more (dropWhile_of_kept separator) rfl (by simp)]
  simp only [bind, EStateM.bind]
  cases ran : (more lexeme next).entry includer session with
  | error fault after => exact ⟨fault, after, rfl⟩
  | ok found after =>
    obtain ⟨fault, failed⟩ := fails found after ran
    exact ⟨fault, after, by simp only [failed]; rfl⟩

end Stream

/-- A directive on a line, by its parts: blanks behind the keyword, qualifiers up to their last
parenthesis or none, a quoted name, and closing parentheses with blanks between them. -/
structure Directive.Line where
  gap : List Char
  qualifiers : List Char
  quoted : List Char
  name : String
  closing : List Char
  separator : Char
  blank : ∀ c ∈ gap, Text.isBlank c = true
  parted : gap ≠ []
  solid : word qualifiers = (qualifiers, [])
  opens : ∀ c ∈ qualifiers.getLast?, c = '('
  named : Takes quoted ⟨"", .quoted name⟩ []
  closes : ∀ c ∈ closing, c = ')' ∨ Text.isBlank c = true
  separates : separator = '\n' ∨ separator = ','

namespace Directive.Line

def text (line : Line) : String :=
  String.ofList (keyword.toList ++ line.gap ++ line.qualifiers ++ line.quoted ++ line.closing ++ [line.separator])

/-- The words between the parentheses of the qualifiers. -/
def words (line : Line) : List String := Directive.qualifiers (String.ofList line.qualifiers)

/-- The marks of the qualifiers and the name. -/
def front (line : Line) : List Mark :=
  if line.qualifiers = [] then [⟨String.ofList line.gap, .quoted line.name⟩]
  else [⟨String.ofList line.gap, .unquoted (String.ofList line.qualifiers)⟩, ⟨"", .quoted line.name⟩]

private theorem front_reached (line : Line) {rest : List Char} (apart : rest.head? ≠ some '"') :
    Reaches (line.gap ++ line.qualifiers ++ line.quoted ++ rest) line.front rest := by
  obtain ⟨_, _, scanned⟩ := line.named.at_front (by simp)
  obtain ⟨after, scanned⟩ := scanned .origin
  obtain ⟨inner, written, scanned⟩ := quoted_followed (congrArg Scan.outcome scanned) (by rw [scanned]; rfl) apart
  have name {blanks : List Char} (blank : ∀ c ∈ blanks, Text.isBlank c = true) :
      Takes (blanks ++ (line.quoted ++ rest)) ⟨String.ofList blanks, .quoted line.name⟩ rest := by
    rw [written] at scanned ⊢
    exact .spaced blank (by simp; decide) rfl (by simp) scanned
  unfold front
  cases qualifiers : line.qualifiers with
  | nil =>
    simp only [if_true, List.append_nil, List.append_assoc]
    exact .step (name line.blank) .here
  | cons c letters =>
    have whole := line.solid
    rw [qualifiers] at whole
    obtain ⟨letter, _, inside⟩ := word_cons_iff.mp whole
    have solid : Text.isBlank c = false := by
      by_contra blank
      rw [isForbidden_of_isBlank (by simpa using blank)] at letter
      cases letter
    simp only [reduceCtorEq, if_false, List.append_assoc]
    have none : ∀ c ∈ [], Text.isBlank c = true := nofun
    refine .step (.spaced line.blank (by simpa using solid) ?_ (by simp) fun place => ?_)
      (.step (name none) .here)
    · rw [written]
      exact (word_quote whole _).2
    · rw [List.cons_append, Lexes.token_of_letter letter, written, List.cons_append, ← List.cons_append, (word_quote whole _).1]
      exact ⟨_, rfl⟩

private theorem gap_bounded (line : Line) (rest : List Char) : Lexes.Bounded (line.gap ++ rest) := by
  obtain ⟨c, gap, written⟩ := List.exists_cons_of_ne_nil line.parted
  have blank := line.blank c (by simp [written])
  intro d head
  obtain rfl : c = d := by simpa [written] using head
  exact ⟨isForbidden_of_isBlank blank, by rintro rfl; cases blank⟩

private theorem marked (line : Line) : ∃ (closers : List Mark) (space : String) (symbol : Token),
    Marked line.text.toList (⟨"", .unquoted keyword⟩ :: line.front ++ closers ++ [⟨space, symbol⟩]) ∧
      (∀ mark ∈ closers, mark.token.Closer) ∧
      Stream.closed (closers.map Mark.token) = line.closing.count ')' ∧ symbol.isSeparator = true := by
  obtain ⟨symbol, known, separator⟩ : ∃ symbol, Cursor.symbol? line.separator = some symbol ∧
      symbol.isSeparator = true := by
    rcases line.separates with newline | comma
    · exact ⟨.newline, by rw [newline]; rfl, rfl⟩
    · exact ⟨.comma, by rw [comma]; rfl, rfl⟩
  obtain ⟨closers, space, closing, all, total⟩ := closers_reached known line.closes
  refine ⟨closers, space, symbol, ⟨[], ?_, rfl⟩, all, total, separator⟩
  have apart : (line.closing ++ [line.separator]).head? ≠ some '"' := by
    intro head
    cases written : line.closing with
    | nil =>
      rw [written] at head
      rcases line.separates with same | same <;> simp [same] at head
    | cons c closing =>
      obtain rfl : c = '"' := by simpa [written] using head
      rcases line.closes '"' (by simp [written]) with same | blank
      · cases same
      · cases blank
  have begins := Takes.keyword (line.gap_bounded (line.qualifiers ++ line.quoted ++
    (line.closing ++ [line.separator])))
  rw [text, String.toList_ofList]
  have reaches := Reaches.step begins (by simpa only [List.append_assoc] using (line.front_reached apart).append closing)
  simpa only [List.append_assoc, List.cons_append] using reaches

section Reading

open Hocon.Stream

variable {line : Line} {front closers : List Lexeme} {next rest : Stream}

private theorem front_cases (line : Line) (marks : front.map Lexeme.mark = line.front) :
    (line.words = [] ∧ ∃ lexeme, front = [lexeme] ∧ lexeme.isSpaced = true ∧ lexeme.token = .quoted line.name) ∨
      ∃ lexeme second, front = [lexeme, second] ∧ lexeme.isSpaced = true ∧ line.qualifiers ≠ [] ∧
        lexeme.token = .unquoted (String.ofList line.qualifiers) ∧ second.token = .quoted line.name := by
  have spaced : ∀ {lexeme : Lexeme}, lexeme.space = String.ofList line.gap → lexeme.isSpaced = true := by
    intro lexeme same
    simp [Lexeme.isSpaced, same, line.parted]
  unfold Line.front at marks
  split at marks
  case isTrue none =>
    obtain ⟨lexeme, rfl, mark⟩ := List.map_eq_singleton_iff.mp marks
    refine .inl ⟨?_, lexeme, rfl, spaced (congrArg Mark.space mark), congrArg Mark.token mark⟩
    rw [words, none]
    rfl
  case isFalse some =>
    obtain ⟨lexeme, others, rfl, mark, marks⟩ := List.map_eq_cons_iff.mp marks
    obtain ⟨second, rfl, named⟩ := List.map_eq_singleton_iff.mp marks
    exact .inr ⟨lexeme, second, rfl, spaced (congrArg Mark.space mark), some, congrArg Mark.token mark,
      congrArg Mark.token named⟩

private theorem front_opens (marks : front.map Lexeme.mark = line.front) (next : Stream) :
    (prepend front next).opensDirective = true := by
  rcases line.front_cases marks with ⟨_, lexeme, rfl, spaced, token⟩ |
    ⟨lexeme, second, rfl, spaced, some, token, _⟩
  · simp only [prepend_cons, opensDirective, Stream.token, ahead, spaced, token, Bool.true_and]
  · have last := List.getLast?_eq_some_getLast some
    rw [line.opens _ last] at last
    simp only [prepend_cons, opensDirective, Stream.token, ahead, spaced, token, Bool.true_and,
      String.toList_ofList, last, BEq.rfl]

/-- A line is read as a directive if its words are known and as many parentheses are closed. -/
private theorem directive_iff (marks : front.map Lexeme.mark = line.front) {directive : Directive} :
    (∃ within, (prepend front next).directive = .ok ⟨directive, rest, within⟩) ↔
      (∀ word ∈ line.words, word ∈ known) ∧ directive = ⟨line.name, decide ("required" ∈ line.words)⟩ ∧
        ∃ within, next.closing line.words.length = .ok ⟨0, rest, within⟩ := by
  rcases line.front_cases marks with ⟨none, lexeme, rfl, _, token⟩ | ⟨lexeme, second, rfl, _, _, token, named⟩
  · simp only [none, List.length_nil, List.not_mem_nil, decide_false, prepend_cons, prepend_nil]
    constructor
    · rintro ⟨within, done⟩
      obtain ⟨rfl, rfl⟩ := Taken.mk.inj (Except.ok.inj ((directive_quoted token).symm.trans done))
      exact ⟨nofun, rfl, length_lt_succ _, closing_stop _ (.inl rfl)⟩
    · rintro ⟨_, rfl, within, closed⟩
      obtain ⟨_, rfl⟩ := Taken.mk.inj (Except.ok.inj ((closing_stop next (.inl rfl)).symm.trans closed))
      exact ⟨_, directive_quoted token⟩
  · constructor
    · rintro ⟨within, done⟩
      obtain ⟨required, _, behind, same, quoted, known, rfl, closed⟩ := directive_word_ok token done
      obtain ⟨rfl, rfl⟩ := more.inj same
      have among := known_of_isRequired known
      have given := Except.ok.inj (known.symm.trans (isRequired_of_known among))
      have pattern := Token.quoted.inj (quoted.symm.trans named)
      exact ⟨among, Directive.mk.injEq .. ▸ ⟨pattern, given⟩, closed⟩
    · rintro ⟨among, rfl, within, closed⟩
      exact directive_qualified token (isRequired_of_known among) named closed

private theorem lexemes (line : Line) : ∃ (keyword separator last : Lexeme) (front closers : List Lexeme),
    Stream.ofText line.text = .ok (prepend (keyword :: (front ++ closers) ++ [separator]) (.ended last)) ∧
      keyword.token = .unquoted Directive.keyword ∧ front.map Lexeme.mark = line.front ∧
      (∀ lexeme ∈ closers, lexeme.token.Closer) ∧
      closed (closers.map Lexeme.token) = line.closing.count ')' ∧ separator.token.isSeparator = true ∧ last.token = .endOfText := by
  obtain ⟨closers, space, symbol, marked, all, total, separates⟩ := line.marked
  obtain ⟨lexemes, last, marks, ends, read⟩ := marked.read .origin
  obtain ⟨inner, ending, rfl, inside, separator⟩ := List.map_eq_append_iff.mp marks
  obtain ⟨mark, rfl, named⟩ := List.map_eq_singleton_iff.mp separator
  obtain ⟨opening, closers, rfl, begins, rfl⟩ := List.map_eq_append_iff.mp inside
  obtain ⟨keyword, front, rfl, word, front_marks⟩ := List.map_eq_cons_iff.mp begins
  refine ⟨keyword, mark, last, front, closers, ?_, congrArg Mark.token word, front_marks, ?_, ?_, ?_, ends⟩
  · rw [Stream.ofText, Cursor.ofText, read]
    rfl
  · exact fun lexeme member => all lexeme.mark (List.mem_map_of_mem member)
  · rw [← total, List.map_map]
    rfl
  · rw [show mark.token = _ from congrArg Mark.token named]
    exact separates

end Reading

end Directive.Line

/-- The document of a directive and nothing else: it is handed over, and the answer is all there is. -/
def Directive.document (directive : Directive) (includer : Includer) : Run Document := do
  Run.note (.asked directive)
  let root ← includer directive
  let fields ← Run.ofExcept root.value.asObject
  return ⟨Entry.build [.included fields], root.references⟩

private theorem Directive.document_eq (directive : Directive) (includer : Includer) :
    (Grammar.Fields.more (.inclusion directive) .none).document includer = directive.document includer := by
  simp [Grammar.Fields.document, Grammar.Fields.run, Grammar.Field.run, document]

namespace Directive.Line

open Hocon.Stream

variable {line : Line} {includer : Includer} {words : List String}

private theorem parse_qualified (objects : includer.Objects) (qualifies : Qualifies words line.qualifiers)
    (balanced : line.closing.count ')' = words.length) :
    parse includer line.text = document ⟨line.name, decide ("required" ∈ words)⟩ includer := by
  obtain ⟨keyword, separator, last, front, closers, read, word, marks, all, total, separates, ends⟩ :=
    line.lexemes
  have same : line.words = words := qualifies.qualifiers_eq
  have directs : Grammar.Directs (front ++ closers) ⟨line.name, decide ("required" ∈ words)⟩ := by
    intro rest
    rw [prepend_append]
    refine ⟨line.front_opens marks _, (line.directive_iff marks).mpr ⟨?_, by rw [same], ?_⟩⟩
    · exact same ▸ qualifies.known
    · rw [same, ← balanced, ← total]
      exact closing_closed all rest
  have spelled : (Grammar.Fields.more (.inclusion _) .none).Spells True
      ([] ++ keyword :: (front ++ closers) ++ [separator]) :=
    .more (by simp) (.inclusion trivial word directs) (.none (by simpa using separates))
      (by simpa using separates)
  rw [parse, read, ← document_eq]
  exact document_reads (fun _ => objects) (.bare spelled ends)

/-- Where no qualifiers fit the parentheses that are closed, the directive cannot be read, or one of
those is left over behind it. -/
private theorem parse_refused (includer : Includer)
    (unbalanced : ∀ words, Qualifies words line.qualifiers → line.closing.count ')' ≠ words.length)
    (session : Session) : ∃ fault after, parse includer line.text session = .error fault after := by
  obtain ⟨keyword, separator, last, front, closers, read, word, marks, all, total, separates, ends⟩ :=
    line.lexemes
  have shape : prepend (keyword :: (front ++ closers) ++ [separator]) (.ended last) =
      .more keyword (prepend front (prepend closers (.more separator (.ended last)))) := by simp
  rw [parse, read, shape]
  refine document_fails (by rw [word]; rfl) session fun found after entered => ?_
  obtain ⟨directive, within, done⟩ := directive_of_entry word (line.front_opens marks _) entered
  obtain ⟨among, _, _, closed⟩ := (line.directive_iff marks).mp ⟨within, done⟩
  have other : ∀ missing, closesOf missing (more separator (.ended last)).token = false := by
    intro missing
    cases token : separator.token <;> simp_all [closesOf, Token.isSeparator]
  obtain ⟨left, others, _, taken, suffix, balanced⟩ := closing_closers all other line.words.length
  obtain ⟨rfl, same⟩ := Taken.mk.inj (Except.ok.inj (taken.symm.trans closed))
  have some : others ≠ [] := fun none =>
    unbalanced _ (qualifies_of_known line.opens among) (total.symm.trans (balanced.mp ⟨rfl, none⟩))
  obtain ⟨lexeme, others, rfl⟩ := List.exists_cons_of_ne_nil some
  obtain ⟨count, token⟩ := all lexeme (suffix.subset List.mem_cons_self)
  rw [← same]
  exact ⟨_, by simp only [endOfField, prepend_cons, token_more, token]; rfl⟩

end Directive.Line

/-- A directive on a line of its own is accepted if its qualifiers are known words, each with a
parenthesis behind it at least, and as many parentheses are closed as there are words; then it is
handed over once, and is required if a word says so. As many are opened as there are words just when
nothing but words with their parentheses is there. -/
theorem Directive.Line.parse_iff (line : Directive.Line) {includer : Includer} (objects : includer.Objects) :
    (∀ words, Qualifies words line.qualifiers → line.closing.count ')' = words.length →
      parse includer line.text = document ⟨line.name, decide ("required" ∈ words)⟩ includer) ∧
    ((∀ words, Qualifies words line.qualifiers → line.closing.count ')' ≠ words.length) →
      ∀ session, ∃ fault after, parse includer line.text session = .error fault after) ∧
    ∀ words, Qualifies words line.qualifiers →
      (line.qualifiers.count '(' = words.length ↔
        line.qualifiers = words.flatMap fun word => word.toList ++ ['(']) :=
  ⟨fun _ qualifies balanced => parse_qualified objects qualifies balanced,
    fun unbalanced session => parse_refused includer unbalanced session,
    fun _ qualifies => qualifies.opened.2⟩

private theorem Directive.file_named : Takes "\"a.conf\"".toList ⟨"", .quoted "a.conf"⟩ [] := by
  have taken : Cursor.taken 1 ⟨.origin, "\"a.conf\"".toList⟩ = some ([⟨"", .quoted "a.conf"⟩], []) := by
    decide +kernel
  exact .of_taken taken

/-- A file with these qualifiers on a line, and what closes them. -/
def Directive.Line.ofFile (qualifiers closing : List Char) (solid : word qualifiers = (qualifiers, []))
    (opens : qualifiers.getLast? = some '(') (closes : ∀ c ∈ closing, c = ')' ∨ Text.isBlank c = true) :
    Line where
  gap := [' ']
  qualifiers := qualifiers
  quoted := "\"a.conf\"".toList
  name := "a.conf"
  closing := closing
  separator := '\n'
  blank := List.forall_mem_singleton.mpr rfl
  parted := List.cons_ne_nil _ _
  solid := solid
  opens := fun _ last => Option.some.inj (last.symm.trans opens)
  named := file_named
  closes := closes
  separates := .inl rfl

/-- A file inside two qualifiers, which are closed one by one, is handed over, and has to be found. -/
theorem Directive.nested_required :
    let qualifiers := "required".toList ++ '(' :: ("file".toList ++ ['('])
    Includer.silent.Objects ∧ Qualifies ["required", "file"] qualifiers ∧
      parse .silent "include required(file(\"a.conf\") )\n" = document ⟨"a.conf", true⟩ .silent := by
  intro qualifiers
  have file : Qualifies ["file"] ("file".toList ++ ['(']) := .word (by decide) .none
  have qualifies : Qualifies ["required", "file"] qualifiers := .word (by decide) file
  let line := Line.ofFile qualifiers [')', ' ', ')'] (by decide +kernel) (by decide +kernel)
    (List.all_iff_forall_prop.mp (by decide))
  have written : line.text = "include required(file(\"a.conf\") )\n" := by decide +kernel
  refine ⟨Includer.silent_objects, qualifies, ?_⟩
  rw [← written]
  exact (Line.parse_iff line Includer.silent_objects).1 _ qualifies rfl

/-- A directive may be accepted though more parentheses are opened than closed. -/
theorem Directive.unbalanced_not_always_refused :
    ¬ ∀ line : Line, (∃ document, ((parse .silent line.text).outcome .start).1 = .ok document) ↔
      ∃ words : List String, (∀ word ∈ words, word ∈ known) ∧
        line.qualifiers = words.flatMap (fun word => word.toList ++ ['(']) ∧
        line.closing.count ')' = line.qualifiers.count '(' := by
  intro always
  let line := Line.ofFile ['f', 'i', 'l', 'e', '(', '('] [')'] (by decide) (by decide)
    (List.all_iff_forall_prop.mp (by decide))
  have accepted : ((parse .silent line.text).outcome .start).1.isOk = true := by decide +kernel
  obtain ⟨words, _, _, balanced⟩ := (always line).mp (ok_of_isOk accepted)
  exact absurd balanced (show 1 ≠ 2 by decide)

end Hocon
