import Hocon.Proofs.Places
import Hocon.Proofs.Trivia
import Hocon.Proofs.Include.Guarding
import Hocon.Proofs.Grammar.Newlines
import Hocon.Proofs.Include.Linking

/-! Line breaks. Carriage returns in front of a newline are blanks or part of a comment there, and no
token of one line reaches as far, so a text is read alike with them and without. Only between triple
quotes are they part of what is written. -/
namespace Hocon

namespace Text

/-- Each newline with a carriage return in front of it. -/
def returned (text : List Char) : List Char := text.flatMap fun c => if c = '\n' then ['\r', '\n'] else [c]

end Text

/-- The same text but for carriage returns in front of newlines, neither with three quotes in a row. -/
inductive Relined : List Char → List Char → Prop where
  | nil : Relined [] []
  | cons {text other : List Char} (c : Char) (single : ¬['"', '"', '"'] <+: c :: text)
      (again : ¬['"', '"', '"'] <+: c :: other) (further : Relined text other) :
      Relined (c :: text) (c :: other)
  | newline {returns more text other : List Char} (first : ∀ c ∈ returns, c = '\r') (second : ∀ c ∈ more, c = '\r')
      (further : Relined text other) : Relined (returns ++ '\n' :: text) (more ++ '\n' :: other)

namespace Relined

variable {text other rest used line : List Char}

private theorem symm (relined : Relined text other) : Relined other text := by
  induction relined with
  | nil => exact .nil
  | cons c single again _ ih => exact .cons c again single ih
  | newline first second _ ih => exact .newline second first ih

private theorem prefix_of_returned {front : List Char} (quotes : ∀ c ∈ front, c = '"')
    (before : front <+: Text.returned text) : front <+: text := by
  induction front generalizing text with
  | nil => exact List.nil_prefix
  | cons c front ih =>
    obtain ⟨rfl, others⟩ := List.forall_mem_cons.mp quotes
    cases text with
    | nil => cases List.prefix_nil.mp before
    | cons d text =>
      by_cases line : d = '\n'
      · subst line
        cases (List.cons_prefix_cons.mp before).1
      · have whole : Text.returned (d :: text) = d :: Text.returned text := by simp [Text.returned, line]
        rw [whole] at before
        obtain ⟨same, further⟩ := List.cons_prefix_cons.mp before
        exact List.cons_prefix_cons.mpr ⟨same, ih others further⟩

private theorem of_returned (single : ¬['"', '"', '"'] <:+: text) : Relined text (Text.returned text) := by
  induction text with
  | nil => exact .nil
  | cons c text ih =>
    have further := ih fun inside => single (inside.trans (List.suffix_cons c text).isInfix)
    by_cases line : c = '\n'
    · subst line
      have whole : Relined ([] ++ '\n' :: text) (['\r'] ++ '\n' :: Text.returned text) :=
        .newline (by simp) (by simp) further
      exact whole
    · have whole : Text.returned (c :: text) = c :: Text.returned text := by simp [Text.returned, line]
      rw [whole]
      refine .cons c (fun before => single before.isInfix) (fun before => ?_) further
      rw [← whole] at before
      exact single (prefix_of_returned (by simp) before).isInfix

private theorem line_unique {line other rest left : List Char} (flat : '\n' ∉ line) (again : '\n' ∉ other)
    (same : line ++ '\n' :: rest = other ++ '\n' :: left) : line = other ∧ rest = left := by
  have upto {line : List Char} (flat : '\n' ∉ line) (rest : List Char) :
      (line ++ '\n' :: rest).takeWhile (· != '\n') = line := by
    rw [List.takeWhile_append_of_pos fun c member => by simpa using ne_of_mem_of_not_mem member flat]
    simp
  have fronts : line = other := by rw [← upto flat rest, same, upto again left]
  subst fronts
  exact ⟨rfl, (List.cons.inj (List.append_cancel_left same)).2⟩

private theorem quotes_behind {front : List Char} (plain : ∀ c ∈ front, c ≠ '"')
    (inside : ['"', '"', '"'] <:+: front ++ rest) : ['"', '"', '"'] <:+: rest := by
  induction front with
  | nil => exact inside
  | cons c front ih =>
    obtain ⟨first, plain⟩ := List.forall_mem_cons.mp plain
    rcases List.infix_cons_iff.mp inside with before | further
    · exact absurd (List.cons_prefix_cons.mp before).1.symm first
    · exact ih plain further

private theorem single (relined : Relined text other) : ¬['"', '"', '"'] <:+: text := by
  induction relined with
  | nil => decide
  | cons c single _ _ ih => exact fun inside => (List.infix_cons_iff.mp inside).elim single ih
  | @newline returns more text other first second further ih =>
    intro inside
    have plain : ∀ c ∈ returns ++ ['\n'], c ≠ '"' := by
      rintro c member rfl
      rcases List.mem_append.mp member with among | last
      · cases first '"' among
      · simp at last
    exact ih (quotes_behind plain (by simpa using inside))

/-- What stands in one line and does not end with a carriage return stands in the other text as well. -/
private theorem cut (relined : Relined (used ++ rest) other) (line : '\n' ∉ used)
    (ends : used.getLast? ≠ some '\r') :
    ∃ left, other = used ++ left ∧ Relined rest left := by
  induction used generalizing other with
  | nil => exact ⟨other, rfl, relined⟩
  | cons c used ih =>
    obtain ⟨first, line⟩ := not_or.mp (mt List.mem_cons.mpr line)
    generalize whole : c :: used ++ rest = text at relined
    cases relined with
    | nil => cases whole
    | cons d single again further =>
      obtain ⟨rfl, rfl⟩ := List.cons.inj whole
      have ends : used.getLast? ≠ some '\r' := by
        cases used with
        | nil => simp
        | cons d used => simpa [List.getLast?_cons_cons] using ends
      obtain ⟨left, rfl, behind⟩ := ih further line ends
      exact ⟨left, rfl, behind⟩
    | @newline returns more text other returned _ further =>
      -- the token would be carriage returns up to its end
      have prior : c :: used <+: returns := by
        rcases List.append_eq_append_iff.mp whole with ⟨more, same, _⟩ | ⟨more, same, inside⟩
        · exact ⟨more, same.symm⟩
        · cases more with
          | nil => exact ⟨[], by simpa using same⟩
          | cons d more =>
            obtain ⟨rfl, _⟩ := List.cons.inj inside
            exact absurd (show '\n' ∈ c :: used by simp [same]) (by simp [first, line])
      have all : ∀ d ∈ c :: used, d = '\r' := fun d member => returned d (prior.subset member)
      refine absurd ?_ ends
      rw [List.getLast?_eq_some_getLast (List.cons_ne_nil c used)]
      exact congrArg some (all _ (List.getLast_mem _))

private theorem cut_line (relined : Relined (line ++ '\n' :: rest) other) (flat : '\n' ∉ line) :
    ∃ front returns more left, line = front ++ returns ∧ other = front ++ more ++ '\n' :: left ∧
      (∀ c ∈ returns, c = '\r') ∧ (∀ c ∈ more, c = '\r') ∧ Relined rest left := by
  induction line generalizing other with
  | nil =>
    generalize whole : [] ++ '\n' :: rest = text at relined
    cases relined with
    | nil => cases whole
    | cons c single again further =>
      obtain ⟨rfl, rfl⟩ := List.cons.inj whole
      exact ⟨[], [], [], _, rfl, rfl, by simp, by simp, further⟩
    | @newline returns more text other first second further =>
      cases returns with
      | nil =>
        obtain ⟨_, rfl⟩ := List.cons.inj whole
        exact ⟨[], [], more, other, rfl, rfl, by simp, second, further⟩
      | cons d returns =>
        obtain ⟨rfl, _⟩ := List.cons.inj whole
        cases first '\n' List.mem_cons_self
  | cons c line ih =>
    obtain ⟨apart, flat⟩ := not_or.mp (mt List.mem_cons.mpr flat)
    generalize whole : c :: line ++ '\n' :: rest = text at relined
    cases relined with
    | nil => cases whole
    | cons d single again further =>
      obtain ⟨rfl, rfl⟩ := List.cons.inj whole
      obtain ⟨front, returns, more, left, rfl, rfl, first, second, behind⟩ := ih further flat
      exact ⟨c :: front, returns, more, left, rfl, rfl, first, second, behind⟩
    | @newline returns more text other first second further =>
      have none : '\n' ∉ returns := fun member => by cases first '\n' member
      have flat : '\n' ∉ c :: line := by simp [apart, flat]
      obtain ⟨same, rfl⟩ := line_unique flat none whole
      exact ⟨[], returns, more, other, same, rfl, first, second, further⟩

private theorem eq_of_flat (relined : Relined text other) (flat : '\n' ∉ text) : other = text := by
  induction relined with
  | nil => rfl
  | cons c _ _ _ ih => exact congrArg (c :: ·) (ih fun member => flat (List.mem_cons_of_mem c member))
  | newline => simp at flat

/-- A word ends in front of both or of neither. -/
private theorem akin (relined : Relined text other) : Akin text other := by
  have bounded {more : List Char} (second : ∀ c ∈ more, c = '\r') (behind : List Char) :
      Lexes.Bounded (more ++ '\n' :: behind) := by
    intro c head
    cases more with
    | nil =>
      obtain rfl : '\n' = c := by simpa using head
      decide
    | cons d more =>
      obtain rfl : d = c := by simpa using head
      rw [second d List.mem_cons_self]
      decide
  cases relined with
  | nil => exact .refl []
  | newline first second => exact .inl (bounded second _)
  | cons c single again further =>
    refine .of_head (Bool.eq_iff_iff.mpr ?_)
    rw [startsComment_cons, startsComment_cons]
    cases further with
    | nil => exact Iff.rfl
    | cons d => exact Iff.rfl
    | @newline returns more _ _ first second =>
      have slash {returns : List Char} (first : ∀ c ∈ returns, c = '\r') (behind : List Char) :
          (returns ++ '\n' :: behind).head? ≠ some '/' := fun head => by
        have forbidden := (bounded first behind '/' head).1
        exact absurd forbidden (by decide)
      exact or_congr_right (and_congr_right fun _ => iff_of_false (slash first _) (slash second _))

end Relined

private theorem Position.after_line {c : Char} (flat : c ≠ '\n') (place : Position) :
    (place.after c).line = place.line := by
  rw [after, if_neg flat]

namespace Scan

variable {text : List Char} {opened start place : Position}

private theorem Covers.flat {α : Type} {scan : Scan α} {used : List Char} (covers : scan.Covers place text used)
    (line : scan.after.place.line = place.line) : '\n' ∉ used := by
  have counted := place.past_line used
  rw [← covers.place, line] at counted
  exact List.count_eq_zero.mp (by omega)

private theorem codePoint_line {seen : List Char} {value missing : Nat} {c : Char}
    (scanned : (codePoint seen value place missing text).outcome = .ok c) :
    (codePoint seen value place missing text).after.place.line = place.line := by
  fun_induction codePoint seen value place missing text with
  | case1 => rfl
  | case4 seen value place missing d rest digit known ih =>
    have flat : d ≠ '\n' := by
      rintro rfl
      cases known
    rw [ih scanned, Position.after_line flat]
  | _ => cases scanned

private theorem escape_line {c : Char} (scanned : (escape place text).outcome = .ok c) :
    (escape place text).after.place.line = place.line := by
  cases text with
  | nil => cases scanned
  | cons d rest =>
    simp only [escape] at scanned ⊢
    split at scanned
    case isTrue same =>
      subst same
      rw [if_pos rfl, codePoint_line scanned, Position.after_line (by decide)]
    case isFalse apart =>
      rw [if_neg apart]
      split at scanned
      case h_1 decoded known =>
        have flat : d ≠ '\n' := by
          rintro rfl
          cases known
        exact Position.after_line flat place
      case h_2 => cases scanned

private theorem quoted_line {content : List Char} (scanned : (quoted opened place text).outcome = .ok content) :
    (quoted opened place text).after.place.line = place.line := by
  fun_induction quoted opened place text generalizing content
  case case2 => exact Position.after_line (by decide) _
  case case4 place rest decoded next _ _ known ih =>
    obtain ⟨inside, inner, _⟩ := ok_of_map scanned
    rw [after_map, ih inner, escape_line known, Position.after_line (by decide)]
  case case6 place c rest next _ flat _ ih =>
    obtain ⟨inside, inner, _⟩ := ok_of_map scanned
    rw [after_map, ih inner, Position.after_line flat]
  all_goals cases scanned

private theorem referencePath_line {builder : KeyPath.Builder} {path : KeyPath}
    (scanned : (referencePath start builder place text).outcome = .ok path) :
    (referencePath start builder place text).after.place.line = place.line := by
  fun_induction referencePath start builder place text
  case case2 => exact Position.after_line (by decide) _
  case case4 builder place rest content next _ known ih =>
    rw [ih scanned, quoted_line known, Position.after_line (by decide)]
  case case6 builder place rest longer known next _ _ ih => rw [ih scanned, Position.after_line (by decide)]
  case case8 builder place c rest next _ _ _ space ih =>
    have flat : c ≠ '\n' := by
      rintro rfl
      cases space
    rw [ih scanned, Position.after_line flat]
  case case11 builder place c rest next _ _ _ _ flat _ ih => rw [ih scanned, Position.after_line flat]
  all_goals cases scanned

private theorem reference_line {token : Token} (scanned : (reference start place text).outcome = .ok token) :
    (reference start place text).after.place.line = place.line := by
  unfold reference at scanned ⊢
  split at scanned
  · obtain ⟨path, inner, _⟩ := ok_of_map scanned
    rw [after_map, referencePath_line inner, Position.after_line (by decide), Position.after_line (by decide)]
  · obtain ⟨path, inner, _⟩ := ok_of_map scanned
    rw [after_map, referencePath_line inner, Position.after_line (by decide)]
  · cases scanned

end Scan

private theorem flat_of_blank {blanks line : List Char} (blank : ∀ c ∈ blanks, Text.isBlank c = true)
    (flat : '\n' ∉ line) :
    '\n' ∉ blanks ++ line := by
  intro member
  rcases List.mem_append.mp member with among | inside
  · exact Text.isBlank_ne_newline (blank _ among) rfl
  · exact flat inside

namespace Cursor

/-- A token that is neither a newline nor in triple quotes stands in one line, and does not end with
a carriage return. -/
private theorem token_flat {place : Position} {c : Char} {text : List Char} {found : Token}
    (scanned : (token place (c :: text)).outcome = .ok found) (line : c ≠ '\n')
    (single : ¬['"', '"', '"'] <+: c :: text) :
    ∃ used, (token place (c :: text)).Covers place (c :: text) used ∧ '\n' ∉ used ∧ used.getLast? ≠ some '\r' := by
  obtain ⟨used, covers⟩ := token_covers place (c :: text)
  refine ⟨used, covers, ?_⟩
  have ends (before : List Char) {d : Char}
      (whole : c :: text = before ++ d :: (token place (c :: text)).after.rest) : used = before ++ [d] := by
    have same := covers.whole.symm.trans whole
    exact List.append_cancel_right (by simpa using same)
  generalize whole : token place (c :: text) = scan at scanned covers ends
  unfold token at whole
  split at whole
  case h_1 same => cases same
  case h_2 rest same =>
    obtain ⟨rfl, rfl⟩ := List.cons.inj same
    subst whole
    obtain rfl := ends ['+'] rfl
    exact ⟨by decide, by decide⟩
  case h_3 rest same =>
    obtain ⟨rfl, rfl⟩ := List.cons.inj same
    subst whole
    obtain ⟨inside, closed, _⟩ := Scan.reference_front scanned
    refine ⟨covers.flat ?_, ?_⟩
    · rw [Scan.reference_line scanned, Position.after_line (by decide)]
    · rw [ends ('$' :: inside) (congrArg ('$' :: ·) closed), List.getLast?_concat]
      decide
  case h_4 rest same => exact absurd ⟨rest, same.symm⟩ single
  case h_5 rest _ same =>
    obtain ⟨rfl, rfl⟩ := List.cons.inj same
    subst whole
    obtain ⟨content, inner, _⟩ := Scan.ok_of_map scanned
    obtain ⟨inside, closed, _⟩ := Scan.quoted_front inner
    refine ⟨covers.flat ?_, ?_⟩
    · rw [Scan.after_map, Scan.quoted_line inner, Position.after_line (by decide)]
    · rw [ends ('"' :: inside) (congrArg ('"' :: ·) closed), List.getLast?_concat]
      decide
  case h_6 d rest _ _ _ _ same =>
    obtain ⟨rfl, rfl⟩ := List.cons.inj same
    split at whole
    case h_1 symbol known =>
      subst whole
      obtain rfl := ends [] rfl
      refine ⟨by simpa using Ne.symm line, ?_⟩
      rintro ⟨rfl⟩
      cases known
    case h_2 =>
      split at whole
      case isTrue =>
        subst whole
        cases scanned
      case isFalse letter =>
        subst whole
        have same := covers.whole
        obtain rfl : used = (word (c :: text)).1 :=
          List.append_cancel_right (same.symm.trans (word_append (c :: text)).symm)
        have letters := word_letters (c :: text)
        refine ⟨fun member => ?_, fun last => ?_⟩
        · cases letters _ member
        · cases letters _ (List.mem_of_getLast? last)

/-- Behind blanks, and in front of no comment, the next token is read. -/
theorem read_blanks {blanks text : List Char} (blank : ∀ c ∈ blanks, Text.isBlank c = true)
    (solid : ∀ c ∈ text.head?, Text.isBlank c = false) (code : startsComment text = false) (place : Position) :
    (⟨place, blanks ++ text⟩ : Cursor).read =
      ⟨String.ofList blanks, (place.past blanks).ahead, token (place.past blanks) text⟩ := by
  have none : comment text = [] := by simp [comment, code]
  obtain ⟨space, rest⟩ := skip_blanks blank solid place
  rw [none] at rest
  have kept : text.dropWhile Text.isBlank = text := by
    cases text with
    | nil => rfl
    | cons c text => simp [solid c rfl]
  have remark : (⟨place, blanks ++ text⟩ : Cursor).remark = [] := by
    rw [Cursor.remark, List.dropWhile_append_of_pos blank, kept, none]
  have there : (⟨place, blanks ++ text⟩ : Cursor).skip.place = place.past blanks := by
    rw [skip, past, space, remark, List.append_nil]
  rw [read, space, rest, there]
  rfl

private theorem read_newline {blanks remark rest : List Char} (blank : ∀ c ∈ blanks, Text.isBlank c = true)
    (code : Remark remark) (place : Position) :
    (⟨place, blanks ++ remark ++ '\n' :: rest⟩ : Cursor).read.scan = .ok .newline ⟨place.line + 1, 0⟩ rest := by
  obtain ⟨_, after, scanned⟩ := (Takes.newline blank code rest).reads place
  obtain ⟨used, covers, _, _⟩ := (⟨place, blanks ++ remark ++ '\n' :: rest⟩ : Cursor).read_covers
  generalize (⟨place, _⟩ : Cursor).blanks ++ _ ++ used = gone at covers
  rw [scanned] at covers ⊢
  have same : gone = blanks ++ remark ++ ['\n'] :=
    List.append_cancel_right (covers.whole.symm.trans (by simp))
  have flat := flat_of_blank blank code.line
  have there : after = place.past gone := covers.place
  have counted : (place.past (blanks ++ remark)).line = place.line := by
    rw [Position.past_line, List.count_eq_zero.mpr flat, Nat.add_zero]
  have next : (place.past (blanks ++ remark)).after '\n' = ⟨place.line + 1, 0⟩ := by
    rw [Position.after, if_pos rfl, counted]
  rw [there, same, Position.past_append, ← next]
  rfl

end Cursor

namespace Relined

variable {text other : List Char}

/-- Blanks and a comment stay such with other carriage returns at their end. -/
private theorem remark_ends {blanks remark front returns more : List Char}
    (blank : ∀ c ∈ blanks, Text.isBlank c = true)
    (code : Remark remark) (same : blanks ++ remark = front ++ returns) (first : ∀ c ∈ returns, c = '\r')
    (second : ∀ c ∈ more, c = '\r') :
    ∃ spaces note, front ++ more = spaces ++ note ∧ (∀ c ∈ spaces, Text.isBlank c = true) ∧ Remark note := by
  have white : ∀ c ∈ more, Text.isBlank c = true := fun c member => by rw [second c member]; decide
  rcases List.append_eq_append_iff.mp same with ⟨note, rfl, inside⟩ | ⟨spaces, rfl, rfl⟩
  · -- the comment begins in front of what may differ
    cases note with
    | nil => exact ⟨blanks ++ more, [], by simp, List.forall_mem_append.mpr ⟨blank, white⟩, .inl rfl, by simp⟩
    | cons c note =>
      refine ⟨blanks, c :: note ++ more, by simp, blank, .inr ?_, ?_⟩
      · rcases code.begins with none | begins
        · simp [inside] at none
        · rw [inside, List.cons_append, startsComment_cons] at begins
          rw [List.cons_append, startsComment_cons]
          cases note with
          | cons => exact begins
          | nil =>
            refine begins.imp_right fun ⟨slash, head⟩ => ?_
            have among : '/' ∈ returns := List.mem_of_mem_head? head
            cases first '/' among
      · intro member
        rcases List.mem_append.mp member with among | last
        · exact code.line (inside ▸ List.mem_append_left _ among)
        · cases second _ last
  · obtain ⟨front_blank, _⟩ := List.forall_mem_append.mp blank
    exact ⟨front ++ more, [], by simp, List.forall_mem_append.mpr ⟨front_blank, white⟩, .inl rfl, by simp⟩

private theorem step_newline {blanks remark behind : List Char} (blank : ∀ c ∈ blanks, Text.isBlank c = true)
    (code : Remark remark) (relined : Relined (blanks ++ remark ++ '\n' :: behind) other) :
    ∃ left, Relined behind left ∧ ∀ place : Position,
      (⟨place, other⟩ : Cursor).read.scan = .ok .newline ⟨place.line + 1, 0⟩ left := by
  obtain ⟨front, returns, more, left, same, rfl, first, second, further⟩ :=
    relined.cut_line (flat_of_blank blank code.line)
  obtain ⟨spaces, note, ends, space, instead⟩ := remark_ends blank code same first second
  refine ⟨left, further, fun place => ?_⟩
  rw [ends]
  exact Cursor.read_newline space instead place

private theorem step_token {blanks behind : List Char} {c : Char} {place : Position} {found : Token}
    (blank : ∀ c ∈ blanks, Text.isBlank c = true) (solid : Text.isBlank c = false)
    (code : startsComment (c :: behind) = false) (line : c ≠ '\n')
    (relined : Relined (blanks ++ c :: behind) other)
    (scanned : (Cursor.token (place.past blanks) (c :: behind)).outcome = .ok found) (proper : found ≠ .endOfText) :
    ∃ left, Relined (Cursor.token (place.past blanks) (c :: behind)).after.rest left ∧
      (⟨place, other⟩ : Cursor).read = ⟨String.ofList blanks, (place.past blanks).ahead,
        .ok found (Cursor.token (place.past blanks) (c :: behind)).after.place left⟩ := by
  have single : ¬['"', '"', '"'] <+: c :: behind := fun before =>
    relined.single (before.isInfix.trans (List.suffix_append blanks _).isInfix)
  obtain ⟨used, covers, flat, ends⟩ := Cursor.token_flat scanned line single
  obtain ⟨d, inside, whole, _, further⟩ := Cursor.token_front code scanned proper
  obtain rfl : used = d :: inside := List.append_cancel_right (covers.whole.symm.trans whole)
  obtain ⟨rfl, _⟩ := List.cons.inj whole
  generalize Cursor.token (place.past blanks) (c :: behind) = scan at covers whole further
  rw [whole] at relined code
  rw [← List.append_assoc] at relined
  have last : (blanks ++ c :: inside).getLast? ≠ some '\r' := by
    simpa [List.getLast?_append, List.getLast?_cons] using ends
  obtain ⟨left, rfl, behind⟩ := relined.cut (flat_of_blank blank flat) last
  refine ⟨left, behind, ?_⟩
  obtain ⟨after, again⟩ := further left (fun _ => behind.akin) (place.past blanks)
  have there : after = scan.after.place := by
    obtain ⟨gone, reached⟩ := Cursor.token_covers (place.past blanks) (c :: inside ++ left)
    rw [again] at reached
    obtain rfl : gone = c :: inside := List.append_cancel_right reached.whole.symm
    exact reached.place.trans covers.place.symm
  rw [List.append_assoc, Cursor.read_blanks blank (by simpa using solid)
    (startsComment_front code fun _ _ => behind.akin), again, there]

private theorem step {place : Position} {found : Token} (relined : Relined text other)
    (scanned : (⟨place, text⟩ : Cursor).read.scan.outcome = .ok found) (proper : found ≠ .endOfText) :
    ∃ left, Relined (⟨place, text⟩ : Cursor).read.scan.after.rest left ∧
      (⟨place, other⟩ : Cursor).read.scan = .ok found (⟨place, text⟩ : Cursor).read.scan.after.place left ∧
      Lexeme.core ⟨(⟨place, other⟩ : Cursor).read.space, (⟨place, other⟩ : Cursor).read.start, found⟩ =
        Lexeme.core ⟨(⟨place, text⟩ : Cursor).read.space, (⟨place, text⟩ : Cursor).read.start, found⟩ := by
  have whole := (⟨place, text⟩ : Cursor).skip_append
  have blank : ∀ d ∈ (⟨place, text⟩ : Cursor).blanks, Text.isBlank d = true :=
    fun d member => List.mem_takeWhile_imp member
  cases skipped : (⟨place, text⟩ : Cursor).skip.rest with
  | nil =>
    rw [Cursor.read, skipped] at scanned
    exact absurd (Except.ok.inj scanned).symm proper
  | cons c behind =>
  rw [skipped] at whole
  by_cases line : c = '\n'
  · subst line
    have code : Remark (⟨place, text⟩ : Cursor).remark := Cursor.comment_code _
    have whole : text = _ := whole
    generalize (⟨place, text⟩ : Cursor).blanks = blanks at whole blank
    generalize (⟨place, text⟩ : Cursor).remark = remark at whole code
    subst whole
    obtain ⟨left, further, again⟩ := step_newline blank code relined
    rw [Cursor.read_newline blank code] at scanned ⊢
    cases scanned
    exact ⟨left, further, again place, rfl⟩
  · have none := Cursor.remark_eq_nil skipped line
    obtain ⟨solid, code⟩ := Cursor.skip_solid none
    rw [skipped] at solid code
    have solid := solid c rfl
    rw [none, List.append_nil] at whole
    have whole : text = _ := whole
    generalize (⟨place, text⟩ : Cursor).blanks = blanks at whole blank
    subst whole
    have read := Cursor.read_blanks blank (by simpa using solid) code place
    rw [read] at scanned ⊢
    obtain ⟨left, further, again⟩ := step_token blank solid code line relined scanned proper
    rw [again]
    exact ⟨left, further, rfl, rfl⟩

/-- A text is read over the same lexemes as the other one, but for what its newlines look like. -/
private theorem read {front : List Lexeme} {last : Lexeme} {place : Position} (relined : Relined text other)
    (read : Stream.read ⟨place, text⟩ = .ok (.prepend front (.ended last))) :
    ∃ image, image.map Lexeme.core = front.map Lexeme.core ∧
      Stream.read ⟨place, other⟩ = .ok (.prepend image (.ended last)) := by
  induction front generalizing text other place with
  | nil =>
    obtain ⟨scanned, _⟩ := Stream.scan_of_ended read
    have finishes : Finishes text := Cursor.nil_of_endOfText scanned
    obtain rfl := relined.eq_of_flat finishes.no_newline
    exact ⟨[], rfl, read⟩
  | cons lexeme front ih =>
    obtain ⟨scanned, proper, whole, further⟩ := Stream.scan_of_more read
    obtain ⟨left, behind, again, alike⟩ := relined.step scanned proper
    obtain ⟨image, same, reread⟩ := ih behind further
    refine ⟨_ :: image, ?_, Stream.read_more again proper reread⟩
    rw [List.map_cons, List.map_cons, same, alike, ← whole]

private theorem parse {includer : Includer} {text other : String} (relined : Relined text.toList other.toList)
    {session after : Session} {document : Document} (parsed : parse includer text session = .ok document after) :
    Hocon.parse includer other session = .ok document after := by
  obtain ⟨fields, lexemes, last, read, derives, ran⟩ := tree_of_parse parsed
  obtain ⟨image, same, again⟩ := relined.read read
  exact (parse_iff_tree again (derives.of_cores (by simp [same]))).mpr ran

end Relined

/-- Carriage returns in front of all newlines change nothing. The texts are both accepted or neither is, and
documents are the same down to the places and the numbers of their references; since the session is the same
one afterwards, so are the directives that were handed over. -/
theorem parse_returned (includer : Includer) {text : String} (single : ¬['"', '"', '"'] <:+: text.toList)
    (session : Session) (document : Document) (after : Session) :
    parse includer (String.ofList (Text.returned text.toList)) session = .ok document after ↔
      parse includer text session = .ok document after := by
  have relined : Relined text.toList (String.ofList (Text.returned text.toList)).toList := by
    rw [String.toList_ofList]
    exact .of_returned single
  exact ⟨relined.symm.parse, relined.parse⟩

/-- Lines end behind a directive, comments, a mark, elements and a brace here. -/
def brokenLines : String :=
  "include \"shared.conf\" # first\na = // note\n \n [1,\n $\x7b?x\x7d y\n]\nc \x7b\n\x7d"

/-- All these lines may end the other way. -/
theorem parse_returned_throughout :
    ¬['"', '"', '"'] <:+: brokenLines.toList ∧ ∃ document after,
      parse (Include.answer .diamond (.ofFolder ⟨""⟩)) brokenLines .start = .ok document after ∧
      parse (Include.answer .diamond (.ofFolder ⟨""⟩)) (String.ofList (Text.returned brokenLines.toList)) .start =
        .ok document after := by
  have single : ¬['"', '"', '"'] <:+: brokenLines.toList := by decide +kernel
  have good : ((parse (Include.answer .diamond (.ofFolder ⟨""⟩)) brokenLines).outcome .start).1.isOk = true := by
    decide +kernel
  obtain ⟨document, done⟩ := ok_of_isOk good
  obtain ⟨after, parsed⟩ := Run.ok_of_outcome done
  exact ⟨single, document, after, parsed, (parse_returned _ single .start document after).mpr parsed⟩

end Hocon
