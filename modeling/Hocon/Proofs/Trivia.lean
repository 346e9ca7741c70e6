import Hocon.Proofs.Marks

namespace Hocon

/-- Nothing, or a comment as far as its line goes. -/
structure Remark (text : List Char) : Prop where
  begins : text = [] ∨ startsComment text = true
  line : '\n' ∉ text

/-- Commas and newlines, with blanks in front of them and comments in front of newlines. -/
inductive Separators : List Char → Prop where
  | none : Separators []
  | comma {blanks rest : List Char} (blank : ∀ c ∈ blanks, Text.isBlank c = true) (further : Separators rest) :
      Separators (blanks ++ ',' :: rest)
  | newline {blanks remark rest : List Char} (blank : ∀ c ∈ blanks, Text.isBlank c = true) (code : Remark remark)
      (further : Separators rest) : Separators (blanks ++ remark ++ '\n' :: rest)

/-- A word in front of the text is over. -/
def Halts (text : List Char) : Prop := Lexes.Bounded text ∨ startsComment text = true

variable {blanks remark text rest other : List Char}

theorem isForbidden_of_isBlank {c : Char} (blank : Text.isBlank c = true) : isForbidden c = true := by
  simp only [Text.isBlank, Bool.and_eq_true, Bool.or_eq_true] at blank
  simp only [isForbidden, Bool.or_eq_true]
  rcases blank.2 with white | mark
  · exact .inl (.inr white)
  · exact .inr mark

private theorem startsComment_append (code : startsComment remark = true) (rest : List Char) :
    startsComment (remark ++ rest) = true := by
  unfold startsComment at code
  split at code
  · rfl
  · rfl
  · cases code

theorem Halts.behind_blanks (blank : ∀ c ∈ blanks, Text.isBlank c = true) (halts : Halts text) :
    Halts (blanks ++ text) := by
  cases blanks with
  | nil => exact halts
  | cons c blanks =>
    refine .inl fun d head => ?_
    obtain rfl : c = d := by simpa using head
    have own := blank c List.mem_cons_self
    exact ⟨isForbidden_of_isBlank own, by rintro rfl; cases own⟩

theorem Halts.behind_remark (code : Remark remark) (halts : Halts text) : Halts (remark ++ text) := by
  rcases code.begins with rfl | begins
  · exact halts
  · exact .inr (startsComment_append begins text)

theorem Halts.of_symbol {c : Char} {symbol : Token} (known : Cursor.symbol? c = some symbol) (rest : List Char) :
    Halts (c :: rest) := .inl (Lexes.bounded_of_symbol known rest)

theorem Halts.nil : Halts [] := .inl nofun

/-- What ends a word is exchanged for what does so as well, unless it is a comment that would begin
in the word. -/
theorem Halts.akin (first : Halts rest) (second : Halts other)
    (slash : other.head? = some '/' → rest.head? = some '/') : Akin rest other := by
  rcases second with bounded | begins
  · exact .inl bounded
  cases other with
  | nil => cases begins
  | cons c more =>
  rcases startsComment_cons.mp begins with rfl | ⟨rfl, _⟩
  · refine .inl fun d head => ?_
    obtain rfl : '#' = d := by simpa using head
    decide
  · have front := slash rfl
    rcases first with bounded | code
    · exact absurd (bounded '/' front).1 (by decide)
    · exact .inr ⟨front, code.trans begins.symm⟩

theorem skip_blanks (blank : ∀ c ∈ blanks, Text.isBlank c = true) (solid : ∀ c ∈ text.head?, Text.isBlank c = false)
    (place : Position) : (⟨place, blanks ++ text⟩ : Cursor).blanks = blanks ∧
      (⟨place, blanks ++ text⟩ : Cursor).skip.rest = text.drop (comment text).length := by
  have kept : text.takeWhile Text.isBlank = [] ∧ text.dropWhile Text.isBlank = text := by
    cases text with
    | nil => exact ⟨rfl, rfl⟩
    | cons c text => simp [solid c rfl]
  simp only [Cursor.blanks, Cursor.skip, Cursor.past, Cursor.remark, List.takeWhile_append_of_pos blank,
    List.dropWhile_append_of_pos blank, kept.1, kept.2, List.append_nil, and_self]

/-- Blanks in front of the next token are passed over, however many there are. -/
private theorem skip_rest_append (blank : ∀ c ∈ blanks, Text.isBlank c = true) (place start : Position) :
    (⟨place, blanks ++ text⟩ : Cursor).skip.rest = (⟨start, text⟩ : Cursor).skip.rest := by
  simp only [Cursor.skip, Cursor.past, Cursor.remark, List.dropWhile_append_of_pos blank]

private theorem comment_remark (code : Remark remark) (ends : ∀ c ∈ rest.head?, c = '\n') :
    comment (remark ++ rest) = remark := by
  have behind : rest.takeWhile (· != '\n') = [] ∧ startsComment rest = false := by
    cases rest with
    | nil => exact ⟨rfl, rfl⟩
    | cons c rest =>
      obtain rfl := ends c rfl
      exact ⟨rfl, rfl⟩
  unfold comment
  rcases code.begins with rfl | begins
  · simp [behind.2]
  · have inside : ∀ c ∈ remark, (c != '\n') = true := by
      intro c member
      rw [bne_iff_ne]
      rintro rfl
      exact code.line member
    rw [if_pos (startsComment_append begins rest), List.takeWhile_append_of_pos inside, behind.1, List.append_nil]

private theorem solid_remark (code : Remark remark) (ends : ∀ c ∈ rest.head?, c = '\n') :
    ∀ c ∈ (remark ++ rest).head?, Text.isBlank c = false := by
  intro c head
  cases remark with
  | nil =>
    rw [ends c head]
    rfl
  | cons d remark =>
    obtain rfl : d = c := by simpa using head
    rcases code.begins with none | begins
    · cases none
    · rcases startsComment_cons.mp begins with rfl | ⟨rfl, _⟩ <;> rfl

private theorem Takes.of_skip {c : Char} {symbol : Token} (known : Cursor.symbol? c = some symbol)
    (skipped : ∀ place, (⟨place, text⟩ : Cursor).blanks = blanks ∧ (⟨place, text⟩ : Cursor).skip.rest = c :: rest) :
    Takes text ⟨String.ofList blanks, symbol⟩ rest where
  proper := by
    rintro rfl
    unfold Cursor.symbol? at known
    split at known <;> cases known
  reads place := by
    obtain ⟨space, skipped⟩ := skipped place
    refine ⟨congrArg String.ofList space, ((⟨place, text⟩ : Cursor).skip.place.after c), ?_⟩
    rw [Cursor.read, skipped]
    exact Cursor.token_of_symbol known _ rest

theorem Takes.symbol {c : Char} {symbol : Token} (blank : ∀ c ∈ blanks, Text.isBlank c = true)
    (known : Cursor.symbol? c = some symbol) (rest : List Char) :
    Takes (blanks ++ c :: rest) ⟨String.ofList blanks, symbol⟩ rest := by
  have plain : Text.isBlank c = false ∧ startsComment (c :: rest) = false := by
    unfold Cursor.symbol? at known
    split at known
    case h_9 => cases known
    all_goals exact ⟨by decide, rfl⟩
  have alone : (c :: rest).drop (comment (c :: rest)).length = c :: rest := by simp [comment, plain.2]
  have solid : ∀ d ∈ (c :: rest).head?, Text.isBlank d = false := by simpa using plain.1
  refine .of_skip known fun place => ?_
  obtain ⟨space, skipped⟩ := skip_blanks blank solid place
  exact ⟨space, skipped.trans alone⟩

/-- A newline behind blanks and perhaps a comment. -/
theorem Takes.newline (blank : ∀ c ∈ blanks, Text.isBlank c = true) (code : Remark remark) (rest : List Char) :
    Takes (blanks ++ remark ++ '\n' :: rest) ⟨String.ofList blanks, .newline⟩ rest := by
  have ends : ∀ c ∈ ('\n' :: rest).head?, c = '\n' := by simp
  have left : (remark ++ '\n' :: rest).drop (comment (remark ++ '\n' :: rest)).length = '\n' :: rest := by
    rw [comment_remark code ends, List.drop_left]
  refine .of_skip (show Cursor.symbol? '\n' = some .newline from rfl) fun place => ?_
  rw [List.append_assoc]
  obtain ⟨space, skipped⟩ := skip_blanks blank (solid_remark code ends) place
  exact ⟨space, skipped.trans left⟩

theorem finishes_remark (blank : ∀ c ∈ blanks, Text.isBlank c = true) (code : Remark remark) :
    Finishes (blanks ++ remark) := by
  have ends : ∀ c ∈ ([] : List Char).head?, c = '\n' := nofun
  have whole := comment_remark code ends
  have solid := solid_remark code ends
  rw [List.append_nil] at whole solid
  rw [Finishes, (skip_blanks blank solid .origin).2, whole, List.drop_length]

/-- The same marks, but for the blanks in front of the first. -/
inductive Respaced : List Mark → List Mark → Prop where
  | none : Respaced [] []
  | first {mark image : Mark} {marks : List Mark} (same : image.token = mark.token) :
      Respaced (mark :: marks) (image :: marks)

/-- Other blanks in front of a token leave it as it is. -/
theorem Takes.respaced {spaces : List Char} {mark : Mark} (blank : ∀ c ∈ blanks, Text.isBlank c = true)
    (space : ∀ c ∈ spaces, Text.isBlank c = true) (takes : Takes (blanks ++ text) mark rest) :
    ∃ gap, Takes (spaces ++ text) ⟨gap, mark.token⟩ rest := by
  obtain ⟨_, after, scanned⟩ := takes.reads .origin
  let cursor : Cursor := ⟨.origin, blanks ++ text⟩
  have outcome : (Cursor.token cursor.skip.place cursor.skip.rest).outcome = .ok mark.token :=
    congrArg Scan.outcome scanned
  obtain ⟨c, used, whole, _, further⟩ := Cursor.token_front cursor.startsComment_skip outcome takes.proper
  have left : (Cursor.token cursor.skip.place cursor.skip.rest).after.rest = rest := congrArg (·.after.rest) scanned
  rw [left] at whole further
  refine ⟨String.ofList (⟨.origin, spaces ++ text⟩ : Cursor).blanks, takes.proper, fun place => ⟨rfl, ?_⟩⟩
  have skipped : (⟨place, spaces ++ text⟩ : Cursor).skip.rest = c :: used ++ rest := by
    rw [skip_rest_append space place .origin, ← whole, skip_rest_append blank .origin .origin]
  rw [Cursor.read, skipped]
  exact further rest (fun _ => .refl rest) _

theorem Marked.respaced {spaces : List Char} {marks : List Mark} (blank : ∀ c ∈ blanks, Text.isBlank c = true)
    (space : ∀ c ∈ spaces, Text.isBlank c = true) (marked : Marked (blanks ++ text) marks) :
    ∃ others, Marked (spaces ++ text) others ∧ Respaced marks others := by
  obtain ⟨final, reaches, finishes⟩ := marked
  cases reaches with
  | here =>
    refine ⟨[], ⟨_, .here, ?_⟩, .none⟩
    rw [Finishes, skip_rest_append space .origin .origin, ← skip_rest_append blank .origin .origin]
    exact finishes
  | step takes further =>
    obtain ⟨gap, again⟩ := takes.respaced blank space
    exact ⟨_, ⟨final, .step again further, finishes⟩, .first rfl⟩

/-- Where a text is over, blanks and perhaps a comment are left. -/
theorem Finishes.cut (finishes : Finishes text) :
    ∃ blanks remark, text = blanks ++ remark ∧ (∀ c ∈ blanks, Text.isBlank c = true) ∧ Remark remark := by
  have whole := Cursor.comment_append (text.dropWhile Text.isBlank)
  have rest : (text.dropWhile Text.isBlank).drop (comment (text.dropWhile Text.isBlank)).length = [] := finishes
  rw [rest, List.append_nil] at whole
  have line : '\n' ∉ text.dropWhile Text.isBlank :=
    fun member => finishes.no_newline ((List.dropWhile_sublist _).mem member)
  refine ⟨text.takeWhile Text.isBlank, text.dropWhile Text.isBlank, List.takeWhile_append_dropWhile.symm,
    fun c member => List.mem_takeWhile_imp member, ?_, line⟩
  unfold comment at whole
  split at whole
  case isTrue begins => exact .inr begins
  case isFalse => exact .inl whole.symm

/-- Separators are read as such, whatever follows them. -/
theorem Separators.reaches {run : List Char} (separators : Separators run) :
    ∃ gap : List Mark, (∀ mark ∈ gap, mark.token.isSeparator = true) ∧ (run ≠ [] → gap ≠ []) ∧
      ∀ rest, Reaches (run ++ rest) gap rest := by
  induction separators with
  | none => exact ⟨[], by simp, by simp, fun rest => .here⟩
  | @comma blanks run blank further ih =>
    obtain ⟨gap, separators, _, reaches⟩ := ih
    refine ⟨⟨String.ofList blanks, .comma⟩ :: gap, List.forall_mem_cons.mpr ⟨rfl, separators⟩, by simp,
      fun rest => ?_⟩
    rw [List.append_assoc, List.cons_append]
    exact .step (.symbol blank rfl (run ++ rest)) (reaches rest)
  | @newline blanks remark run blank code further ih =>
    obtain ⟨gap, separators, _, reaches⟩ := ih
    refine ⟨⟨String.ofList blanks, .newline⟩ :: gap, List.forall_mem_cons.mpr ⟨rfl, separators⟩, by simp,
      fun rest => ?_⟩
    rw [List.append_assoc, List.cons_append]
    exact .step (.newline blank code (run ++ rest)) (reaches rest)

theorem Separators.halts {run : List Char} (separators : Separators run) (halts : run = [] → Halts rest) :
    Halts (run ++ rest) := by
  cases separators with
  | none => exact halts rfl
  | comma blank further =>
    rw [List.append_assoc]
    exact Halts.behind_blanks blank (.of_symbol (show Cursor.symbol? ',' = some .comma from rfl) _)
  | newline blank code further =>
    rw [List.append_assoc, List.append_assoc]
    have newline := Halts.of_symbol (show Cursor.symbol? '\n' = some .newline from rfl)
    exact Halts.behind_blanks blank (Halts.behind_remark code (newline _))

namespace Cursor

theorem remark_eq_nil {cursor : Cursor} {c : Char} {rest : List Char} (skipped : cursor.skip.rest = c :: rest)
    (line : c ≠ '\n') : cursor.remark = [] := by
  by_contra some
  have remark : cursor.remark = (cursor.rest.dropWhile Text.isBlank).takeWhile (· != '\n') := by
    unfold Cursor.remark comment at some ⊢
    split at some
    case isTrue code => rw [if_pos code]
    case isFalse => exact absurd rfl some
  have behind : (cursor.rest.dropWhile Text.isBlank).dropWhile (· != '\n') = c :: rest := by
    have again : cursor.remark ++ cursor.skip.rest = cursor.rest.dropWhile Text.isBlank := comment_append _
    rw [skipped, remark] at again
    exact List.append_cancel_left (List.takeWhile_append_dropWhile.trans again.symm)
  have kept := List.head?_dropWhile_not (· != '\n') (cursor.rest.dropWhile Text.isBlank)
  simp [behind, line] at kept

theorem comment_code (text : List Char) : Remark (comment text) := by
  unfold comment
  split
  case isTrue begins =>
    refine ⟨.inr ?_, fun member => by simpa using List.mem_takeWhile_imp member⟩
    unfold startsComment at begins
    split at begins
    · rfl
    · rfl
    · cases begins
  case isFalse => exact ⟨.inl rfl, List.not_mem_nil⟩

/-- Where no comment is skipped, neither a blank nor a comment is left. -/
theorem skip_solid {cursor : Cursor} (none : cursor.remark = []) :
    (∀ c ∈ cursor.skip.rest.head?, Text.isBlank c = false) ∧ startsComment cursor.skip.rest = false := by
  have whole : cursor.remark ++ cursor.skip.rest = cursor.rest.dropWhile Text.isBlank := comment_append _
  rw [none, List.nil_append] at whole
  refine ⟨fun c head => ?_, whole ▸ startsComment_of_comment none⟩
  have kept := List.head?_dropWhile_not Text.isBlank cursor.rest
  rw [← whole, Option.mem_def.mp head] at kept
  simpa using kept

/-- Behind a comment the line is over. -/
theorem skip_line {cursor : Cursor} (some : cursor.remark ≠ []) : ∀ c ∈ cursor.skip.rest.head?, c = '\n' := by
  intro c head
  obtain ⟨rest, skipped⟩ := List.head?_eq_some_iff.mp (Option.mem_def.mp head)
  by_contra line
  exact some (remark_eq_nil skipped line)

/-- No blank is left in front of a token. -/
theorem skip_head (cursor : Cursor) : ∀ c ∈ cursor.skip.rest.head?, Text.isBlank c = false := by
  by_cases none : cursor.remark = []
  · exact (skip_solid none).1
  · intro c head
    rw [skip_line none c head]
    rfl

end Cursor

end Hocon
