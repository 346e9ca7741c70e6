import Hocon.Proofs.Grammar.Layout
import Hocon.Proofs.Include.Guarding
import Hocon.Proofs.Trivia
import Mathlib.Logic.Relation

/-! Texts that differ in their style only: in the mark behind a key, in the separators between
fields and elements and inside of braces, in blanks and comments at the ends of lines, and in braces
around the whole. They are read as one document. -/
namespace Hocon

open Grammar

/-- The first token of a text is such a one. -/
def Begins (among : Token → Bool) (text : List Char) : Prop :=
  ∃ mark rest, Takes text mark rest ∧ among mark.token = true

/-- One change of style in what a text has left behind a token. -/
inductive Changes (prior : Token) : List Char → List Char → Prop where
  /-- A colon and an equals sign behind a key stand for each other. -/
  | mark {blanks post : List Char} {c d : Char} (key : prior.isWord = true)
      (blank : ∀ c ∈ blanks, Text.isBlank c = true) (first : c ∈ [':', '=']) (second : d ∈ [':', '=']) :
      Changes prior (blanks ++ c :: post) (blanks ++ d :: post)
  /-- Between a key and a brace in its line neither is needed. -/
  | dropped {blanks more post : List Char} {c : Char} (key : prior.isWord = true)
      (blank : ∀ c ∈ blanks, Text.isBlank c = true) (gap : ∀ c ∈ more, Text.isBlank c = true)
      (first : c ∈ [':', '=']) :
      Changes prior (blanks ++ c :: (more ++ '\x7b' :: post)) (blanks ++ (more ++ '\x7b' :: post))
  /-- Two fields or two elements are parted by any separators. -/
  | parted {run other blanks spaces post : List Char} (ends : prior.endsValue = true)
      (separators : Separators run) (exchanges : Separators other) (some : run ≠ []) (more : other ≠ [])
      (blank : ∀ c ∈ blanks, Text.isBlank c = true) (space : ∀ c ∈ spaces, Text.isBlank c = true)
      (starts : Begins Token.startsValue post) : Changes prior (run ++ (blanks ++ post)) (other ++ (spaces ++ post))
  /-- Behind what opens there may be separators. -/
  | opened {run other blanks spaces post : List Char} (opens : prior.opens = true)
      (separators : Separators run) (exchanges : Separators other) (blank : ∀ c ∈ blanks, Text.isBlank c = true)
      (space : ∀ c ∈ spaces, Text.isBlank c = true) : Changes prior (run ++ (blanks ++ post)) (other ++ (spaces ++ post))
  /-- In front of what closes there may be separators. -/
  | closed {run other blanks spaces post : List Char} {c : Char} (proper : prior.isSeparator = false)
      (separators : Separators run) (exchanges : Separators other) (blank : ∀ c ∈ blanks, Text.isBlank c = true)
      (space : ∀ c ∈ spaces, Text.isBlank c = true) (closes : c ∈ ['\x7d', ']']) :
      Changes prior (run ++ (blanks ++ c :: post)) (other ++ (spaces ++ c :: post))
  /-- At the end of a line there may be blanks and a comment. -/
  | ended {blanks spaces remark note post : List Char} (blank : ∀ c ∈ blanks, Text.isBlank c = true)
      (space : ∀ c ∈ spaces, Text.isBlank c = true) (first : Remark remark) (second : Remark note)
      (line : ∀ c ∈ post.head?, c = '\n') : Changes prior (blanks ++ remark ++ post) (spaces ++ note ++ post)

/-- One change of style: behind some token of a text, or around a text without braces. No comment
begins directly behind a word, where its slashes might be taken for a part of it. -/
inductive Restyles : String → String → Prop where
  | here {front rest other : List Char} {marks : List Mark} (reaches : Reaches (front ++ rest) marks rest)
      (changes : Changes (lastToken .newline marks) rest other)
      (slash : other.head? = some '/' → rest.head? = some '/') :
      Restyles (String.ofList (front ++ rest)) (String.ofList (front ++ other))
  | enclosed {text : String} (braceless : isBraced text = false) :
      Restyles text ("\x7b" ++ text ++ "\n\x7d")

/-- Marks that may stand for others behind a token, up to the end of the text. -/
def Mirrors (prior : Token) (marks others : List Mark) : Prop :=
  ∀ front last image, lastToken .newline front = prior → last.token = .endOfText → image.token = .endOfText →
    Relaid .newline (front ++ (marks ++ [last])) (front ++ (others ++ [image]))

namespace Mirrors

variable {prior : Token} {marks others : List Mark}

private theorem resembles_end {last image : Mark} (ends : last.token = .endOfText)
    (again : image.token = .endOfText) :
    Resembles last image := by
  refine ⟨again.trans ends.symm, fun starts => ?_⟩
  rw [ends] at starts
  cases starts

private theorem proper_end {last : Mark} (ends : last.token = .endOfText) (marks : List Mark) :
    ∀ mark ∈ (marks ++ [last]).getLast?, mark.token.isSeparator = false := by
  intro mark member
  obtain rfl : mark = last := by simpa using member.symm
  rw [ends]
  rfl

private theorem of_resembles (resembles : List.Forall₂ Resembles marks others) :
    Mirrors prior marks others := by
  intro front last image _ ends again
  have whole : List.Forall₂ Resembles (front ++ (marks ++ [last])) (front ++ (others ++ [image])) :=
    List.rel_append (List.forall₂_same.mpr fun mark _ => .refl mark)
      (List.rel_append resembles (.cons (resembles_end ends again) .nil))
  refine .alike whole ?_
  rw [← List.append_assoc]
  exact proper_end ends _

private theorem of_relaid (proper : prior.isSeparator = false)
    (relaid : ∀ last image, last.token = .endOfText → image.token = .endOfText →
      Relaid prior (marks ++ [last]) (others ++ [image])) : Mirrors prior marks others := by
  rintro front last image rfl ends again
  exact .after proper (relaid last image ends again)

private theorem relaid_end {last image : Mark} (ends : last.token = .endOfText)
    (again : image.token = .endOfText)
    (marks : List Mark) : Relaid prior (marks ++ [last]) (marks ++ [image]) :=
  .alike (List.rel_append (List.forall₂_same.mpr fun mark _ => .refl mark) (.cons (resembles_end ends again) .nil))
    (proper_end ends marks)

private theorem assigned {mark mirrored : Mark} (proper : prior.isSeparator = false)
    (assigns : mark.token.assigns = true)
    (again : mirrored.token.assigns = true) : Mirrors prior (mark :: marks) (mirrored :: marks) := by
  refine of_relaid proper fun last image ends ended => ?_
  have plain : mark.token.isSeparator = false ∧ mark.token.startsValue = false := by
    rcases Token.assigns_iff.mp assigns with token | token <;> rw [token] <;> exact ⟨rfl, rfl⟩
  have whole : Relaid prior ([] ++ mark :: (marks ++ [last])) ([] ++ mirrored :: (marks ++ [image])) := by
    refine .token (by simp) (by simp) .same plain.1 (.inr ⟨assigns, again⟩) (fun _ _ starts => ?_)
      (relaid_end ends ended marks)
    cases plain.2.symm.trans starts
  exact whole

private theorem dropped {mark brace mirrored : Mark} (proper : prior.isSeparator = false)
    (assigns : mark.token.assigns = true) (opens : brace.token = .leftBrace) (same : mirrored.token = .leftBrace) :
    Mirrors prior (mark :: brace :: marks) (mirrored :: marks) :=
  of_relaid proper fun _ _ ends again => .dropped assigns opens same (relaid_end ends again marks)

private theorem exchanged {gap other : List Mark} {next image : Mark} (proper : prior.isSeparator = false)
    (separators : ∀ mark ∈ gap, mark.token.isSeparator = true)
    (exchanges : ∀ mark ∈ other, mark.token.isSeparator = true) (kept : next.token.isSeparator = false)
    (same : image.token = next.token) (free : gap = [] → next.token.startsValue = false)
    (exchanged : Exchanged prior next.token (gap.map Mark.token) (other.map Mark.token)) :
    Mirrors prior (gap ++ next :: marks) (other ++ image :: marks) := by
  refine of_relaid proper fun last final ends again => ?_
  rw [List.append_assoc, List.append_assoc]
  refine .token separators exchanges exchanged kept (.inl same) (fun _ none starts => ?_) (relaid_end ends again marks)
  cases (free none).symm.trans starts

private theorem opened {gap other : List Mark} (opens : prior.opens = true)
    (separators : ∀ mark ∈ gap, mark.token.isSeparator = true)
    (exchanges : ∀ mark ∈ other, mark.token.isSeparator = true) (respaced : Respaced marks others) :
    Mirrors prior (gap ++ marks) (other ++ others) := by
  have proper : prior.isSeparator = false := by cases prior <;> first | rfl | cases opens
  refine of_relaid proper fun last image ends again => ?_
  have plain : last.token.isSeparator = false := by rw [ends]; rfl
  rw [List.append_assoc, List.append_assoc]
  cases respaced with
  | none => exact .opened opens separators exchanges (again.trans ends.symm) .nil ⟨last, rfl, plain⟩
  | @first _ _ marks same =>
    refine .opened opens separators exchanges same ?_ ⟨last, by simp [List.getLast?_cons], plain⟩
    exact List.rel_append (List.forall₂_same.mpr fun mark _ => .refl mark) (.cons (resembles_end ends again) .nil)

end Mirrors

private theorem symbol_of_assigns {c : Char} (among : c ∈ [':', '=']) :
    ∃ token : Token, Cursor.symbol? c = some token ∧ token.assigns = true := by
  simp only [List.mem_cons, List.not_mem_nil, or_false] at among
  rcases among with rfl | rfl
  · exact ⟨.colon, rfl, rfl⟩
  · exact ⟨.equals, rfl, rfl⟩

private theorem symbol_of_closes {c : Char} (among : c ∈ ['\x7d', ']']) :
    ∃ token : Token, Cursor.symbol? c = some token ∧ token.closes = true := by
  simp only [List.mem_cons, List.not_mem_nil, or_false] at among
  rcases among with rfl | rfl
  · exact ⟨.rightBrace, rfl, rfl⟩
  · exact ⟨.rightBracket, rfl, rfl⟩

private theorem isWord_proper {token : Token} (word : token.isWord = true) : token.isSeparator = false :=
  (startsValue_proper (isWord_startsValue word)).1

private theorem Marked.eq_nil {text : List Char} {marks : List Mark} (marked : Marked text marks)
    (finishes : Finishes text) : marks = [] := by
  obtain ⟨rest, reaches, _⟩ := marked
  cases reaches with
  | here => rfl
  | step takes => exact absurd finishes takes.not_finishes

namespace Changes

variable {prior : Token} {rest other : List Char} {marks : List Mark}

/-- What is changed has marks that may stand for those that it had. -/
private theorem mirrors (changes : Changes prior rest other) (marked : Marked rest marks) :
    ∃ others, Marked other others ∧ Mirrors prior marks others := by
  -- reading is deterministic, so the marks that were there begin with those of what is changed
  cases changes with
  | @mark blanks post c d key blank first second =>
    obtain ⟨token, known, assigns⟩ := symbol_of_assigns first
    obtain ⟨instead, shown, again⟩ := symbol_of_assigns second
    obtain ⟨left, rfl, behind⟩ := (Reaches.step (.symbol blank known post) .here).cut marked
    exact ⟨_, (Reaches.step (.symbol blank shown post) .here).marked behind,
      .assigned (isWord_proper key) assigns again⟩
  | @dropped blanks more post c key blank gap first =>
    obtain ⟨token, known, assigns⟩ := symbol_of_assigns first
    have opens : Cursor.symbol? '\x7b' = some .leftBrace := rfl
    have whole : ∀ c ∈ blanks ++ more, Text.isBlank c = true := List.forall_mem_append.mpr ⟨blank, gap⟩
    obtain ⟨left, rfl, behind⟩ :=
      (Reaches.step (.symbol blank known _) (.step (.symbol gap opens post) .here)).cut marked
    refine ⟨⟨String.ofList (blanks ++ more), .leftBrace⟩ :: left, ?_, .dropped (isWord_proper key) assigns rfl rfl⟩
    rw [← List.append_assoc]
    exact (Reaches.step (.symbol whole opens post) .here).marked behind
  | @parted run other blanks spaces post ends separators exchanges some more blank space starts =>
    obtain ⟨next, final, takes, starts⟩ := starts
    obtain ⟨gap, found, kept, reaches⟩ := separators.reaches
    obtain ⟨again, instead, left, reached⟩ := exchanges.reaches
    obtain ⟨first, before⟩ := Takes.respaced (by simp : ∀ c ∈ [], Text.isBlank c = true) blank takes
    obtain ⟨second, behind⟩ := Takes.respaced (by simp : ∀ c ∈ [], Text.isBlank c = true) space takes
    obtain ⟨marks, rfl, left'⟩ := ((reaches _).append (.step before .here)).cut marked
    refine ⟨_, ((reached _).append (.step behind .here)).marked left', ?_⟩
    rw [List.append_assoc, List.append_assoc]
    have proper : prior.isSeparator = false := by cases prior <;> first | rfl | cases ends
    refine .exchanged proper found instead (startsValue_proper starts).1 rfl (fun none => absurd none (kept some))
      (.parted ends starts ?_ ?_)
    · simpa using kept some
    · simpa using left more
  | @opened run other blanks spaces post opens separators exchanges blank space =>
    obtain ⟨gap, found, _, reaches⟩ := separators.reaches
    obtain ⟨again, instead, _, reached⟩ := exchanges.reaches
    obtain ⟨marks, rfl, behind⟩ := (reaches _).cut marked
    obtain ⟨others, remarked, respaced⟩ := behind.respaced blank space
    exact ⟨_, (reached _).marked remarked, .opened opens found instead respaced⟩
  | @closed run other blanks spaces post c proper separators exchanges blank space closes =>
    obtain ⟨token, known, closes⟩ := symbol_of_closes closes
    obtain ⟨gap, found, _, reaches⟩ := separators.reaches
    obtain ⟨again, instead, _, reached⟩ := exchanges.reaches
    obtain ⟨marks, rfl, behind⟩ := ((reaches _).append (.step (.symbol blank known post) .here)).cut marked
    refine ⟨_, ((reached _).append (.step (.symbol space known post) .here)).marked behind, ?_⟩
    rw [List.append_assoc, List.append_assoc]
    have plain : token.isSeparator = false ∧ token.startsValue = false := by
      cases token <;> first | exact ⟨rfl, rfl⟩ | cases closes
    exact .exchanged proper found instead plain.1 rfl (fun _ => plain.2) (.closed closes)
  | @ended blanks spaces remark note post blank space first second line =>
    cases post with
    | nil =>
      rw [List.append_nil] at marked
      obtain rfl := marked.eq_nil (finishes_remark blank first)
      rw [List.append_nil]
      exact ⟨[], ⟨_, .here, finishes_remark space second⟩, .of_resembles .nil⟩
    | cons c post =>
      obtain rfl := line c rfl
      obtain ⟨left, rfl, behind⟩ := (Reaches.step (.newline blank first post) .here).cut marked
      refine ⟨_, (Reaches.step (.newline space second post) .here).marked behind, .of_resembles ?_⟩
      exact .cons ⟨rfl, nofun⟩ (List.forall₂_same.mpr fun mark _ => .refl mark)

/-- A word in front of what is changed ends where it did. -/
private theorem akin (changes : Changes prior rest other) (word : prior.isWord = true)
    (slash : other.head? = some '/' → rest.head? = some '/') : Akin rest other := by
  cases changes with
  | @mark blanks post c d key blank first second =>
    obtain ⟨token, known, _⟩ := symbol_of_assigns first
    obtain ⟨instead, shown, _⟩ := symbol_of_assigns second
    exact Halts.akin (.behind_blanks blank (.of_symbol known post))
      (.behind_blanks blank (.of_symbol shown post)) slash
  | @dropped blanks more post c key blank gap first =>
    obtain ⟨token, known, _⟩ := symbol_of_assigns first
    have opens : Cursor.symbol? '\x7b' = some .leftBrace := rfl
    exact Halts.akin (.behind_blanks blank (.of_symbol known _))
      (.behind_blanks blank (.behind_blanks gap (.of_symbol opens post))) slash
  | parted ends separators exchanges some more =>
    exact Halts.akin (separators.halts fun none => absurd none some)
      (exchanges.halts fun none => absurd none more) slash
  | opened opens => cases (endsValue_not_opens (isWord_endsValue word)).symm.trans opens
  | @closed run other blanks spaces post c proper separators exchanges blank space closes =>
    obtain ⟨token, known, _⟩ := symbol_of_closes closes
    exact Halts.akin (separators.halts fun _ => .behind_blanks blank (.of_symbol known post))
      (exchanges.halts fun _ => .behind_blanks space (.of_symbol known post)) slash
  | @ended blanks spaces remark note post blank space first second line =>
    have halts : Halts post := by
      cases post with
      | nil => exact .nil
      | cons c post =>
        obtain rfl := line c rfl
        have newline : Cursor.symbol? '\n' = some .newline := rfl
        exact .of_symbol newline post
    rw [List.append_assoc, List.append_assoc] at slash ⊢
    exact Halts.akin (.behind_blanks blank (.behind_remark first halts))
      (.behind_blanks space (.behind_remark second halts)) slash

end Changes

private theorem Marked.lined {text : List Char} {marks : List Mark} (marked : Marked text marks)
    (further : List Char) :
    ∃ space, Reaches (text ++ '\n' :: further) (marks ++ [⟨space, .newline⟩]) further := by
  obtain ⟨rest, reaches, finishes⟩ := marked
  obtain ⟨blanks, remark, rfl, blank, code⟩ := finishes.cut
  obtain ⟨used, rfl, _, _, others⟩ := reaches.front
  have newline : Cursor.symbol? '\n' = some .newline := rfl
  have ends : Halts (blanks ++ remark) := by
    rw [← List.append_nil (blanks ++ remark), List.append_assoc]
    exact .behind_blanks blank (.behind_remark code .nil)
  have lined : Halts (blanks ++ remark ++ '\n' :: further) := by
    rw [List.append_assoc]
    exact .behind_blanks blank (.behind_remark code (.of_symbol newline further))
  have slash : (blanks ++ remark ++ '\n' :: further).head? = some '/' → (blanks ++ remark).head? = some '/' := by
    cases blanks ++ remark with
    | nil => simp
    | cons c more => exact id
  have reached := (others _ fun _ _ _ => ends.akin lined slash).2
  refine ⟨String.ofList blanks, ?_⟩
  rw [List.append_assoc]
  exact reached.append (.step (.newline blank code further) .here)

namespace Grammar

variable {directives : Prop} {fields : Fields} {lexemes gap : List Lexeme} {last : Lexeme}

private theorem Derives.ends (derives : Derives directives fields (lexemes ++ [last])) :
    last.token = .endOfText := by
  generalize whole : lexemes ++ [last] = all at derives
  cases derives with
  | braced newlines opens inside closes separators ends | bare spelled ends =>
    obtain ⟨_, final⟩ := List.append_inj' whole rfl
    obtain rfl := List.singleton_inj.mp final
    exact ends

private theorem Fields.Spells.followed {fields : Fields} {lexemes : List Lexeme}
    (spells : fields.Spells directives lexemes)
    (added : ∀ lexeme ∈ gap, lexeme.token.isSeparator = true) : fields.Spells directives (lexemes ++ gap) := by
  cases spells with
  | none separators => exact .none (List.forall_mem_append.mpr ⟨separators, added⟩)
  | @more first others inner own behind separators spelled further parted =>
    rw [List.append_assoc]
    refine .more separators spelled (followed further added) fun lexeme head => ?_
    cases behind with
    | nil => exact added lexeme (List.mem_of_mem_head? head)
    | cons next behind => exact parted lexeme (by simpa using head)

/-- The text is read as these fields. -/
def Fields.Outlines (fields : Fields) (text : String) : Prop :=
  ∃ (lexemes : List Lexeme) (last : Lexeme), Stream.ofText text = .ok (.prepend lexemes (.ended last)) ∧
    Derives True fields (lexemes ++ [last])

end Grammar

/-- A change of style keeps the tree, but for the places of its references. -/
private theorem Restyles.outlines {text other : String} {fields : Fields} (restyles : Restyles text other)
    (outlines : fields.Outlines text) :
    ∃ again : Fields, again.Outlines other ∧ again.unplaced = fields.unplaced := by
  obtain ⟨lexemes, last, read, derives⟩ := outlines
  have marked : Marked text.toList (lexemes.map Lexeme.mark) := marked_of_read read
  cases restyles with
  | @here front rest other marks reaches changes slash =>
    rw [String.toList_ofList] at marked
    obtain ⟨left, whole, behind⟩ := reaches.cut marked
    obtain ⟨others, remarked, mirrors⟩ := changes.mirrors behind
    obtain ⟨used, same, _, _, exchange⟩ := reaches.front
    obtain rfl := List.append_cancel_right same
    -- what stands in front is read as before, since a last word still ends there
    have reached : Reaches (front ++ other) marks other := by
      refine (exchange other fun mark member word => ?_).2
      have prior : lastToken .newline marks = mark.token := by rw [lastToken, Option.mem_def.mp member]; rfl
      exact changes.akin (prior ▸ word) slash
    obtain ⟨again, final, alike, ended, reread⟩ := (reached.marked remarked).read .origin
    have relaid : Relaid .newline ((lexemes ++ [last]).map Lexeme.mark) ((again ++ [final]).map Lexeme.mark) := by
      rw [List.map_append, List.map_append, whole, alike, List.append_assoc, List.append_assoc]
      exact mirrors marks last.mark final.mark rfl derives.ends ended
    obtain ⟨fields, rederived, unplaced⟩ := derives.relaid relaid
    refine ⟨fields, ⟨again, final, ?_, rederived⟩, unplaced⟩
    rw [Stream.ofText, Cursor.ofText, String.toList_ofList]
    exact reread
  | enclosed braceless =>
    obtain ⟨spelled, ends⟩ := derives.bare_of_read read braceless
    obtain ⟨space, lined⟩ := marked.lined ['\x7d']
    have blank : ∀ c ∈ ([] : List Char), Text.isBlank c = true := by simp
    have opens : Cursor.symbol? '\x7b' = some .leftBrace := rfl
    have closes : Cursor.symbol? '\x7d' = some .rightBrace := rfl
    have reached := (Reaches.step (.symbol blank opens _) lined).append (.step (.symbol blank closes []) .here)
    obtain ⟨again, final, alike, ended, reread⟩ := (reached.marked ⟨[], .here, rfl⟩).read .origin
    simp only [List.append_nil, List.cons_append, List.append_assoc, List.map_eq_cons_iff, List.map_eq_append_iff,
      List.map_eq_nil_iff] at alike
    obtain ⟨opened, _, rfl, first, inner, _, rfl, same, newline, _, rfl, second, _, _, rfl, rfl,
      closed, _, rfl, third, rfl⟩ := alike
    obtain ⟨fields, respelled, unplaced⟩ := spelled.moved same
    have parted : ∀ lexeme ∈ [newline], lexeme.token.isSeparator = true := by
      have token : newline.token = .newline := congrArg Mark.token second
      simp [token, Token.isSeparator]
    have derived : Derives True fields ([] ++ opened :: (inner ++ [newline]) ++ closed :: [] ++ [final]) :=
      .braced (by simp) (congrArg Mark.token first) (respelled.followed parted) (congrArg Mark.token third)
        (by simp) ended
    refine ⟨fields, ⟨opened :: (inner ++ [newline, closed]), final, ?_, by simpa using derived⟩, unplaced⟩
    have text : ("\x7b" ++ text ++ "\n\x7d").toList = '\x7b' :: (text.toList ++ ['\n', '\x7d']) := by simp
    rw [Stream.ofText, Cursor.ofText, text]
    simpa using reread

/-- The reference without its place. -/
def Reference.unplaced (reference : Reference) : Reference := { reference with place := .origin }

theorem Reference.blurs_unplaced : Blurs Eq unplaced where
  equivalence := ⟨fun _ => rfl, .symm, .trans⟩
  reference same _ _ _ _ := by
    cases same
    rfl
  next same := by
    cases same
    rfl

/-- Style means nothing. A text that is restyled is read as the same document, but for the places of
its references. It leaves the same session behind: it hands over the same directives in the same
order, and gives the same numbers. -/
theorem parse_restyled {text other : String} {includer : Includer} {session after : Session} {document : Document}
    (restyled : Relation.ReflTransGen Restyles text other)
    (parsed : parse includer text session = .ok document after) :
    ∃ again, parse includer other session = .ok again after ∧
      again.root.value.rename Reference.unplaced = document.root.value.rename Reference.unplaced ∧
      again.references.map Reference.unplaced = document.references.map Reference.unplaced := by
  obtain ⟨fields, lexemes, last, read, derives, ran⟩ := tree_of_parse parsed
  -- the trees agree change by change; only the first and the last are run
  obtain ⟨again, ⟨others, final, reread, rederived⟩, unplaced⟩ : ∃ again : Fields,
      again.Outlines other ∧ again.unplaced = fields.unplaced := by
    clear parsed
    induction restyled with
    | refl => exact ⟨fields, ⟨lexemes, last, read, derives⟩, rfl⟩
    | tail _ step ih =>
      obtain ⟨middle, outlines, before⟩ := ih
      obtain ⟨again, further, behind⟩ := step.outlines outlines
      exact ⟨again, further, behind.trans before⟩
  obtain ⟨made, finish, inside, done⟩ := Run.ok_of_bind ran
  cases done
  have parallel : Parallel Eq (Made.viewEntries Reference.unplaced) (fields.run includer.guarded)
      (again.run includer.guarded) :=
    Fields.parallel_of_unplaced Reference.blurs_unplaced unplaced fun directive _ => .refl _ _
  obtain ⟨mirrored, finish, rerun, look, rfl⟩ := parallel.ok_of_ok rfl inside
  obtain ⟨values, references⟩ := Prod.mk.inj look
  have built : Value.renameFields Reference.unplaced (Entry.build mirrored.value) =
      Value.renameFields Reference.unplaced (Entry.build made.value) := by
    rw [Entry.rename_build, Entry.rename_build, values]
  have reparsed := (parse_iff_tree reread rederived).mpr (Run.bind_of_ok rerun rfl)
  exact ⟨_, reparsed, congrArg Value.object built, references.symm⟩

/-- A change behind so many tokens. -/
private theorem Restyles.behind {text other : String} {prior : Token} {rest instead : List Char} (count : Nat)
    (front : List Char) (changes : Changes prior rest instead)
    (checked : text = String.ofList (front ++ rest) ∧ other = String.ofList (front ++ instead) ∧
      ((Cursor.ofText text).taken count).map (fun found => (lastToken .newline found.1, found.2)) =
        some (prior, rest) ∧
      (instead.head? = some '/' → rest.head? = some '/')) : Restyles text other := by
  obtain ⟨begins, again, reads, slash⟩ := checked
  obtain ⟨⟨marks, left⟩, found, same⟩ := Option.map_eq_some_iff.mp reads
  obtain ⟨rfl, rfl⟩ := Prod.mk.inj same
  have reaches := reaches_of_taken found
  rw [begins, Cursor.ofText, String.toList_ofList] at reaches
  rw [begins, again]
  exact .here reaches changes slash

/-- One change after the other, in a text with a reference and a directive. -/
theorem restyled_throughout :
    let text := "a = \x7bb = $\x7bc\x7d\x7d\ninclude \"f\""
    let other := "\x7ba  \x7b\nb = $\x7bc\x7d\x7d,include \"f\" # g\n\x7d"
    (Relation.ReflTransGen Restyles text other ∧ ((parse .silent text).outcome .start).1.isOk = true) ∧
    ∃ document again after, parse .silent text .start = .ok document after ∧
      parse .silent other .start = .ok again after ∧
      again.root.value.rename Reference.unplaced = document.root.value.rename Reference.unplaced ∧
      again.references.map Reference.unplaced = document.references.map Reference.unplaced ∧
      after.asked = [⟨"f", false⟩] := by
  intro text other
  let bare := "a  \x7bb = $\x7bc\x7d\x7d\ninclude \"f\""
  let led := "a  \x7b\nb = $\x7bc\x7d\x7d\ninclude \"f\""
  let flat := "a  \x7b\nb = $\x7bc\x7d\x7d,include \"f\""
  let remarked := "a  \x7b\nb = $\x7bc\x7d\x7d,include \"f\" # g"
  let inside := "b = $\x7bc\x7d\x7d\ninclude \"f\"".toList
  have none : ∀ c ∈ ([] : List Char), Text.isBlank c = true := by simp
  have blank : ∀ c ∈ [' '], Text.isBlank c = true := List.forall_mem_singleton.mpr rfl
  have newline : Separators ([] ++ [] ++ '\n' :: []) := .newline none ⟨.inl rfl, by decide⟩ .none
  have comma : Separators ([] ++ ',' :: []) := .comma none .none
  have dropped : Changes (.unquoted "a") ([' '] ++ '=' :: ([' '] ++ '\x7b' :: inside))
      ([' '] ++ ([' '] ++ '\x7b' :: inside)) := .dropped rfl blank blank (by decide)
  have opened : Changes .leftBrace ([] ++ ([] ++ inside)) ([] ++ [] ++ '\n' :: [] ++ ([] ++ inside)) :=
    .opened rfl .none newline none none
  have scanned : (Cursor.ofText "include \"f\"").read.scan.outcome = .ok (.unquoted "include") := by decide +kernel
  have starts : Begins Token.startsValue "include \"f\"".toList := ⟨_, _, takes_of_read scanned nofun, rfl⟩
  have parted : Changes .rightBrace ([] ++ [] ++ '\n' :: [] ++ ([] ++ "include \"f\"".toList))
      ([] ++ ',' :: [] ++ ([] ++ "include \"f\"".toList)) :=
    .parted rfl newline comma (by decide) (by decide) none none starts
  have ended : Changes (.quoted "f") ([] ++ [] ++ []) ([' '] ++ ['#', ' ', 'g'] ++ []) :=
    .ended none blank ⟨.inl rfl, by decide⟩ ⟨.inr rfl, by decide⟩ (by simp)
  have restyled : Relation.ReflTransGen Restyles text other := calc
    Relation.ReflTransGen Restyles text bare := .single (.behind 1 "a".toList dropped (by decide +kernel))
    Relation.ReflTransGen Restyles _ led := .single (.behind 2 "a  \x7b".toList opened (by decide +kernel))
    Relation.ReflTransGen Restyles _ flat :=
      .single (.behind 7 "a  \x7b\nb = $\x7bc\x7d\x7d".toList parted (by decide +kernel))
    Relation.ReflTransGen Restyles _ remarked := .single (.behind 10 flat.toList ended (by decide +kernel))
    Relation.ReflTransGen Restyles _ other := .single (.enclosed (by decide +kernel))
  have parses : ((parse .silent text).outcome .start).1.isOk = true := by decide +kernel
  obtain ⟨document, found⟩ := ok_of_isOk parses
  obtain ⟨after, parsed⟩ := Run.ok_of_outcome found
  obtain ⟨again, reparsed, values, references⟩ := parse_restyled restyled parsed
  have asked : ((parse .silent text).outcome .start).2.asked = [⟨"f", false⟩] := by decide +kernel
  rw [Run.outcome, parsed] at asked
  exact ⟨⟨restyled, parses⟩, document, again, after, parsed, reparsed, values, references, asked⟩

end Hocon
